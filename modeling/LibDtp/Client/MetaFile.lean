import LibDtp.Client.History
import LibDtp.Client.SegmentLists

/-!
# The meta file

The file in which `apm_on_serialize` saves a session and from which `apm_on_deserialize` restores
it.

## The model

`Lives` is everything that can happen to a session and its meta file: the session is prepared, data
is received, the session is saved, released and prepared again from the file, in any order and any
number of times, and whatever is in the packets. Only the hook's context and the meta file are
followed; the other fields of the session may be anything at any time.

What C leaves undefined is left out: `cur_segment` is not reset when a session ends, so that a
second transfer on the same session may follow a null pointer or free a segment that is still in the
list.

## What is proved

* `decode_encode` — `apm_on_deserialize` restores what `apm_on_serialize` has written.
* `encode_decode_iff` — a session that is restored and saved again before it has received anything
  is the same only if it has no segments: what was received before is lost from the file. It is not
  restored at all if its packets have no room for data.
-/

namespace LibDtp

open Bytes Files Runs

/-! ### The numbers a session has seen -/

namespace RecvState

/-- The packet numbers given to the hook. -/
def numbers (s : RecvState) : List UInt32 := (acceptedOf s.log).map (packetSeq s.session.request)

/-- `UINT32_MAX` ends the loop, as it is not less than any last packet. -/
structure MaxLast (s : RecvState) : Prop where
  /-- As long as the loop goes on it has not been seen. -/
  running : s.done = none → ∀ n ∈ s.numbers, n ≠ 0xFFFFFFFF
  /-- If it has been seen, it was the last. -/
  dropLast : ∀ n ∈ s.numbers.dropLast, n ≠ 0xFFFFFFFF

theorem request_accept (s : RecvState) (p : Packet) (now hookNow : UInt32) :
    (s.accept p now hookNow).session.request = s.session.request := by
  simp only [accept, apmOnDataPacket]
  split <;> rfl

theorem done_of_running {s : RecvState} (h : s.result = none) : s.done = none := by
  simp only [result] at h
  split at h
  · cases h
  · assumption

theorem MaxLast.step {s : RecvState} (h : s.MaxLast) (e : RecvEvent) : (s.step e).MaxLast := by
  cases hr : s.result with
  | some r =>
    have hstep : s.step e = s := by simp [RecvState.step, hr]
    rwa [hstep]
  | none =>
    have hall := h.running (done_of_running hr)
    have hmoves := s.moves_step e
    generalize s.step e = s' at hmoves ⊢
    cases hmoves with
    | ended => exact h
    | idle => exact ⟨fun _ => hall, h.dropLast⟩
    | repeated => exact ⟨fun _ => hall, h.dropLast⟩
    | accept p now hookNow =>
      have hnumbers :
        ((s.accept p now hookNow).afterPacket (packetSeq s.session.request p)).numbers =
          s.numbers ++ [packetSeq s.session.request p] := by
        rw [numbers, log_afterPacket, session_afterPacket, request_accept, acceptedOf_accept,
          List.map_append]
        rfl
      refine ⟨fun hdone n hn => ?_, fun n hn => ?_⟩
      · rw [hnumbers] at hn
        rcases List.mem_append.mp hn with hn | hn
        · exact hall n hn
        · obtain rfl := List.mem_singleton.mp hn
          intro hmax
          rw [afterPacket, if_pos (by rw [hmax]; exact UInt32.le_iff_toNat_le.mpr (Nat.le_of_lt_succ
            (UInt32.toNat_lt _)))] at hdone
          cases hdone
      · rw [hnumbers, List.dropLast_concat] at hn
        exact hall n hn

theorem metaFile_step (s : RecvState) (e : RecvEvent) :
    (s.step e).disk.metaFile = s.disk.metaFile := by
  have hmoves := s.moves_step e
  generalize s.step e = s' at hmoves ⊢
  cases hmoves with
  | ended => rfl
  | idle => rfl
  | repeated => rfl
  | accept p now hookNow =>
    rw [disk_afterPacket]
    simp only [accept, apmOnDataPacket]
    split <;> rfl

theorem metaFile_run (s : RecvState) (es : List RecvEvent) :
    (run RecvState.step s es).disk.metaFile = s.disk.metaFile := by
  induction es generalizing s with
  | nil => rfl
  | cons e es ih => rw [run_cons, ih, metaFile_step]

theorem maxLast_run {s : RecvState} (h : s.MaxLast) (es : List RecvEvent) :
    (run RecvState.step s es).MaxLast :=
  invariant (fun _ e h => h.step e) h es

end RecvState

/-- The numbers a completed call of `start_receiving_data` has given to the hook. -/
theorem maxLast_received {E : ErrorTest} {s : Session} {d : Disk} {now : UInt32}
    {es : List RecvEvent} {rec : Received}
    (h : startReceivingData E s d true now es = .ok (some rec)) :
    ∀ n ∈ ((acceptedOf rec.log).map (packetSeq s.request)).dropLast, n ≠ 0xFFFFFFFF := by
  have hrequest := (received_from h).request
  obtain ⟨m, r, -, -, rfl⟩ := startReceivingData_run h
  have hlast := RecvState.maxLast_run
    (s := .initial { (apmOnStart s d).1 with active := true } (apmOnStart s d).2 m now)
    ⟨by simp [RecvState.initial, RecvState.numbers, acceptedOf], by simp [RecvState.initial,
      RecvState.numbers, acceptedOf]⟩ es
  rw [← hrequest, (apmOnEnd_fields _).1]
  exact hlast.dropLast

/-- The meta file is not touched by a transfer. -/
theorem metaFile_received {E : ErrorTest} {s : Session} {d : Disk} {now : UInt32}
    {es : List RecvEvent} {rec : Received}
    (h : startReceivingData E s d true now es = .ok (some rec)) :
    rec.disk.metaFile = d.metaFile := by
  obtain ⟨m, r, -, -, rfl⟩ := startReceivingData_run h
  have hstart : (apmOnStart s d).2.metaFile = d.metaFile := by
    simp only [apmOnStart]
    split_ifs <;> rfl
  exact (RecvState.metaFile_run (.initial _ _ m now) es).trans hstart

/-! ### What can happen to a session -/

/-- The list of a session at the end of a transfer that has given the hook the packets of `log`:
what `apm_on_end` makes of it first. -/
def Session.closing (s : Session) (log : List RecvObs) : SegmentsCtx :=
  closeSegments (updateAll s.startCtx.segments ((acceptedOf log).map (packetSeq s.request)))

/-- The sessions and meta files there can be. -/
inductive Lives (E : ErrorTest) (host : ByteOrder) : Session → Disk → Prop where
  /-- A slot that is not in use, and no meta file. -/
  | free {slot : Session} (output : List UInt8) (h : slot.Free) : Lives E host slot ⟨output, none⟩
  /-- Anything but the hook's context and the meta file changes. -/
  | other {s s' : Session} {d d' : Disk} (h : Lives E host s d) (hctx : s'.hookCtx = s.hookCtx)
      (hmeta : d'.metaFile = d.metaFile) : Lives E host s' d'
  /-- `apm_on_start`, without what follows: `csp_bind` fails. -/
  | start {s : Session} {d : Disk} (h : Lives E host s d) : Lives E host (apmOnStart s d).1
      (apmOnStart s d).2
  /-- `start_receiving_data`, if nothing undefined happens in it. -/
  | receive {s : Session} {d : Disk} {now : UInt32} {es : List RecvEvent} {rec : Received}
      (h : Lives E host s d)
      (hrun : startReceivingData E s d true now es = .ok (some rec))
        (hdefined : (s.closing rec.log).broken = false) :
      Lives E host rec.session rec.disk
  /-- `apm_on_serialize`. -/
  | save {s : Session} {d : Disk} (h : Lives E host s d) : Lives E host s (apmOnSerialize host s d)
  /-- `apm_on_deserialize`, if it returns. -/
  | restore {s s' : Session} {d : Disk} (h : Lives E host s d)
      (hs : apmOnDeserialize host s d = .ok s') : Lives E host s' d
  /-- `apm_on_release`. -/
  | release {s : Session} {d : Disk} (h : Lives E host s d) :
    Lives E host { s with hookCtx := none } d

/-- The segments in a hook's context. -/
structure HookCtx.Kept (ctx : HookCtx) : Prop where
  /-- Nothing has been received in this session, or its list is closed. -/
  segments : ctx.segments = initSegmentsCtx ∨ ctx.segments.Closed
  /-- The list of the earlier ones is tidy. -/
  received : ∀ r, ctx.receivedSegments = some r → r.Tidy

/-- The meta file is one that was written for a tidy list. -/
def Disk.Written (host : ByteOrder) (d : Disk) : Prop :=
  ∀ f, d.metaFile = some f → ∃ s ctx, ctx.Tidy ∧ f = sessionBytes host s ctx

theorem HookCtx.Kept.tidy {ctx : HookCtx} (h : ctx.Kept) : ctx.segments.Tidy := by
  rcases h.segments with hinit | hclosed
  · rw [hinit]
    exact tidy_init
  · exact hclosed.tidy

/-- What a session is started with. -/
theorem kept_startCtx {s : Session} (h : ∀ ctx, s.hookCtx = some ctx → ctx.Kept) :
    s.startCtx.Kept := by
  simp only [Session.startCtx]
  cases hctx : s.hookCtx with
  | none => exact ⟨Or.inl rfl, by simp⟩
  | some ctx => exact h ctx hctx

/-- A transfer. -/
theorem kept_receive {E : ErrorTest} {s : Session} {d : Disk} {now : UInt32} {es : List RecvEvent}
    {rec : Received} (h : s.startCtx.Kept)
    (hrun : startReceivingData E s d true now es = .ok (some rec))
    (hdefined : (s.closing rec.log).broken = false) :
    ∀ ctx, rec.session.hookCtx = some ctx → ctx.Kept := by
  have hclosing : s.closing rec.log = initSegmentsCtx ∨ (s.closing rec.log).Closed := by
    rcases h.segments with hinit | hclosed
    · rw [Session.closing, hinit]
      exact closed_of_updateAll (maxLast_received hrun)
    · rw [Session.closing, hclosed.again hdefined]
      exact Or.inr hclosed
  have htidy : (s.closing rec.log).Tidy := by
    rcases hclosing with hinit | hclosed
    · rw [hinit]
      exact tidy_init
    · exact hclosed.tidy
  obtain ⟨ts, hctx⟩ := (received_from hrun).hookCtx
  intro ctx hctx'
  rw [hctx'] at hctx
  cases hreceived : s.startCtx.receivedSegments with
  | none =>
    simp only [apmOnEnd, hreceived, Option.some.injEq] at hctx
    rw [hctx]
    exact ⟨hclosing, by simp⟩
  | some received =>
    simp only [apmOnEnd, hreceived, Option.some.injEq] at hctx
    rw [hctx]
    refine ⟨htidy.merge (h.received received hreceived), fun r hr => ?_⟩
    obtain rfl : received = r := Option.some.inj hr
    exact h.received received hreceived

/-- A session restored from a file that was written for a tidy list. -/
theorem apmOnDeserialize_sessionBytes (host : ByteOrder) {s : Session} {ctx : SegmentsCtx}
    (h : ctx.Tidy) {d : Disk} (hd : d.metaFile = some (sessionBytes host s ctx)) (slot : Session) :
    apmOnDeserialize host slot d =
      (requestMissing (slot.request.restoring s.request) s.payloadSize ctx.reread).map
        (slot.restored s ctx) := by
  have hsaved : apmOnSerialize host { s with hookCtx := some ⟨0, ctx, none⟩ } d = d := by
    change { d with metaFile := some (sessionBytes host s ctx) } = d
    rw [← hd]
  have hread :=
    apmOnDeserialize_apmOnSerialize host (s := { s with hookCtx := some ⟨0, ctx, none⟩ }) rfl
    h.toNat_nofSegments slot d
  rwa [hsaved] at hread

/-- It is restored unless a packet of it has only room for the header. -/
theorem apmOnDeserialize_of_mtu (host : ByteOrder) {s : Session} {ctx : SegmentsCtx} (h : ctx.Tidy)
    {d : Disk} (hd : d.metaFile = some (sessionBytes host s ctx)) (hmtu : s.request.mtu ≠ 8)
    (slot : Session) :
    ∃ segments, apmOnDeserialize host slot d =
      .ok (slot.restored s ctx (requestSegments (slot.request.restoring s.request) segments)) := by
  have hchunk : (slot.request.restoring s.request).chunk ≠ 0 := MetaReq.chunk_ne_zero hmtu
  rw [apmOnDeserialize_sessionBytes host h hd, requestMissing_eq hchunk]
  exact ⟨_, rfl⟩

theorem apmOnDeserialize_of_mtu_eight (host : ByteOrder) {s : Session} {ctx : SegmentsCtx}
    (h : ctx.Tidy) {d : Disk} (hd : d.metaFile = some (sessionBytes host s ctx))
    (hmtu : s.request.mtu = 8) (slot : Session) :
    apmOnDeserialize host slot d = .error .divByZero := by
  have hchunk : (slot.request.restoring s.request).chunk = 0 := MetaReq.chunk_eq_zero_iff.mpr hmtu
  rw [apmOnDeserialize_sessionBytes host h hd, requestMissing, segmentsToRequest, if_pos hchunk]
  rfl

/-- What is kept up by everything that can happen. -/
theorem lives_kept {E : ErrorTest} {host : ByteOrder} {s : Session} {d : Disk}
    (h : Lives E host s d) :
    (∀ ctx, s.hookCtx = some ctx → ctx.Kept) ∧ d.Written host := by
  induction h with
  | free output hfree => exact ⟨by simp [hfree.hookCtx], by simp [Disk.Written]⟩
  | other _ hctx hmeta ih =>
    exact ⟨by rw [hctx]; exact ih.1, by rw [Disk.Written, hmeta]; exact ih.2⟩
  | @start s d _ ih =>
    refine ⟨fun ctx hctx => ?_, fun f hf => ih.2 f ?_⟩
    · obtain rfl : s.startCtx = ctx := Option.some.inj hctx
      exact kept_startCtx ih.1
    · rw [← hf]
      simp only [apmOnStart]
      split_ifs <;> rfl
  | receive _ hrun hdefined ih =>
    exact ⟨kept_receive (kept_startCtx ih.1) hrun hdefined,
      by rw [Disk.Written, metaFile_received hrun]; exact ih.2⟩
  | @save s d _ ih =>
    refine ⟨ih.1, fun f hf => ?_⟩
    cases hctx : s.hookCtx with
    | none =>
      rw [apmOnSerialize, hctx] at hf
      exact ih.2 f hf
    | some ctx =>
      rw [apmOnSerialize, hctx] at hf
      exact ⟨s, ctx.segments, (ih.1 ctx hctx).tidy, (Option.some.inj hf).symm⟩
  | @restore s s' d _ hs ih =>
    refine ⟨fun ctx hctx => ?_, ih.2⟩
    cases hf : d.metaFile with
    | none =>
      rw [apmOnDeserialize, hf] at hs
      obtain rfl := Except.ok.inj hs
      exact ih.1 ctx hctx
    | some f =>
      obtain ⟨s₀, ctx₀, htidy, rfl⟩ := ih.2 f hf
      have hmtu : s₀.request.mtu ≠ 8 := fun hmtu => by
        rw [apmOnDeserialize_of_mtu_eight host htidy hf hmtu] at hs
        cases hs
      obtain ⟨segments, hread⟩ := apmOnDeserialize_of_mtu host htidy hf hmtu s
      rw [hread] at hs
      obtain rfl := Except.ok.inj hs
      obtain rfl := Option.some.inj hctx
      refine ⟨Or.inl rfl, fun r hr => ?_⟩
      rw [← Option.some.inj hr]
      exact htidy.of_eq rfl rfl
  | release _ ih => exact ⟨by simp, ih.2⟩

/-! ### Saving and restoring -/

/-- A session restores what was saved of another: its parameters, its byte count, and its segments.
-/
theorem decode_encode (E : ErrorTest) (host : ByteOrder) {s : Session} {d : Disk}
    (h : Lives E host s d) {ctx : HookCtx} (hctx : s.hookCtx = some ctx) (hmtu : s.request.mtu ≠ 8)
    (slot : Session) (d' : Disk) :
    ∃ t, apmOnDeserialize host slot (apmOnSerialize host s d') = .ok t ∧
      t.node = s.node ∧
      t.request.mtu = s.request.mtu ∧
      t.timeout = s.timeout ∧
      t.request.throughput = s.request.throughput ∧
      t.request.payloadId = s.request.payloadId ∧
      t.request.sessionId = s.request.sessionId ∧
      t.bytesReceived = s.bytesReceived ∧
      t.payloadSize = s.payloadSize ∧
      ∃ received, t.hookCtx = some ⟨0, initSegmentsCtx, some received⟩ ∧
        received.segments = ctx.segments.segments ∧
        received.nofSegments = ctx.segments.nofSegments := by
  have htidy := ((lives_kept h).1 ctx hctx).tidy
  have hmeta : (apmOnSerialize host s d').metaFile = some (sessionBytes host s ctx.segments) := by
    rw [apmOnSerialize, hctx]
  obtain ⟨segments, hread⟩ := apmOnDeserialize_of_mtu host htidy hmeta hmtu slot
  rw [params_requestSegments] at hread
  exact ⟨_, hread, rfl, rfl, rfl, rfl, rfl, rfl, rfl, rfl, ctx.segments.reread, rfl, rfl, rfl⟩

/-! ### Restoring and saving -/

theorem length_flatMap_segmentBytes (host : ByteOrder) (l : List Segment) :
    (l.flatMap (segmentBytes host)).length = 8 * l.length := by
  induction l with
  | nil => rfl
  | cons s l ih =>
    simp [segmentBytes, ih]
    omega

/-- The meta file is thirty bytes long, and eight more for each segment. -/
theorem length_sessionBytes (host : ByteOrder) (s : Session) (ctx : SegmentsCtx) :
    (sessionBytes host s ctx).length = 30 + 8 * ctx.segments.length := by
  simp only [sessionBytes, List.length_append, List.length_cons, ByteOrder.length_store,
    length_flatMap_segmentBytes]
  omega

/-- A session that is restored, and saved before it has received anything, is saved as it was only
if it had no segments. It is not restored at all if a packet of it has only room for the header. -/
theorem encode_decode_iff (E : ErrorTest) (host : ByteOrder) {s : Session} {d : Disk}
    (h : Lives E host s d) {ctx : HookCtx} (hctx : s.hookCtx = some ctx) (slot : Session)
    (d' d'' : Disk) :
    (∃ t, apmOnDeserialize host slot (apmOnSerialize host s d') = .ok t ∧
      (apmOnSerialize host t d'').metaFile = (apmOnSerialize host s d').metaFile) ↔
        s.request.mtu ≠ 8 ∧ ctx.segments.segments = [] := by
  have htidy := ((lives_kept h).1 ctx hctx).tidy
  have hmeta : (apmOnSerialize host s d').metaFile = some (sessionBytes host s ctx.segments) := by
    rw [apmOnSerialize, hctx]
  rw [hmeta]
  by_cases hmtu : s.request.mtu = 8
  · rw [apmOnDeserialize_of_mtu_eight host htidy hmeta hmtu]
    exact iff_of_false (by simp) fun hcond => hcond.1 hmtu
  obtain ⟨segments, hread⟩ := apmOnDeserialize_of_mtu host htidy hmeta hmtu slot
  rw [params_requestSegments] at hread
  constructor
  · rintro ⟨t, ht, heq⟩
    rw [hread] at ht
    obtain rfl := Except.ok.inj ht
    have hsaved : sessionBytes host s initSegmentsCtx = sessionBytes host s ctx.segments :=
      Option.some.inj heq
    have hlen := congrArg List.length hsaved
    rw [length_sessionBytes, length_sessionBytes, show initSegmentsCtx.segments.length = 0 from rfl]
      at hlen
    exact ⟨hmtu, List.length_eq_zero_iff.mp (by omega)⟩
  · rintro ⟨-, hnil⟩
    have hnof : ctx.segments.nofSegments = 0 := by rw [htidy.nofSegments, hnil]; rfl
    refine ⟨_, hread, ?_⟩
    change some (sessionBytes host s initSegmentsCtx) = some (sessionBytes host s ctx.segments)
    rw [sessionBytes, sessionBytes, hnil, hnof]
    rfl

/-- A fresh session for a payload of ten bytes, in chunks of four. -/
def freshSession : Session :=
  { startDownload (configureSession (acquireSession emptySlot) fourByteChunks) fourByteChunks with
    payloadSize := 10 }

/-- It receives the packets `ks`, and then nothing more. -/
def firstSession (ks : List ℕ) : Option Received :=
  match startReceivingData .exact freshSession ⟨[], none⟩ true 0
      (arrivals tenBytes ks ++ List.replicate 60 .timeout) with
  | .ok rec => rec
  | .error _ => none

/-- A session that can be run lives. -/
theorem lives_firstSession {ks : List ℕ} {rec : Received} (h : firstSession ks = some rec)
    (hdefined : (freshSession.closing rec.log).broken = false) :
    Lives .exact .little rec.session rec.disk := by
  have hrun : startReceivingData .exact freshSession ⟨[], none⟩ true 0
    (arrivals tenBytes ks ++ List.replicate 60 .timeout) =
      .ok (some rec) := by
    simp only [firstSession] at h
    split at h
    · rename_i hrun
      rw [hrun, h]
    · cases h
  have hfree : emptySlot.Free := ⟨rfl, rfl⟩
  have hfresh : Lives .exact .little freshSession ⟨[], none⟩ := .other (.free [] hfree) rfl rfl
  exact .receive hfresh hrun hdefined

/-- The first and the last of three packets are received: their two segments are saved, and
restored. -/
theorem decode_encode_two_segments : ∃ s d t received, Lives .exact .little s d ∧
    apmOnDeserialize .little emptySlot (apmOnSerialize .little s d) = .ok t ∧
      t.hookCtx = some ⟨0, initSegmentsCtx, some received⟩ ∧
      received.segments = [⟨0, 0⟩, ⟨2, 2⟩] ∧ received.nofSegments = 2 := by
  have hrun : (firstSession [0, 2]).any (fun rec => (!(freshSession.closing rec.log).broken) &&
      decide (rec.session.request.mtu ≠ 8 ∧
        rec.session.hookCtx.map (fun ctx => (ctx.segments.segments, ctx.segments.nofSegments)) =
        some ([⟨0, 0⟩, ⟨2, 2⟩], 2))) = true := by
    decide +kernel
  obtain ⟨rec, hrec, hall⟩ := (Option.any_eq_true _ _).mp hrun
  simp only [Bool.and_eq_true, Bool.not_eq_true', decide_eq_true_eq] at hall
  obtain ⟨hdefined, hmtu, hall⟩ := hall
  obtain ⟨ctx, hctx, hsegments⟩ := Option.map_eq_some_iff.mp hall
  obtain ⟨hsegments, hnof⟩ := Prod.mk.inj hsegments
  have hlives := lives_firstSession hrec hdefined
  obtain ⟨t, ht, -, -, -, -, -, -, -, -, received, hreceived, h1, h2⟩ :=
    decode_encode .exact .little hlives hctx hmtu emptySlot rec.disk
  exact ⟨rec.session, rec.disk, t, received, hlives, ht, hreceived, h1.trans hsegments,
    h2.trans hnof⟩

/-- A session that has received nothing is saved, restored and saved again. -/
theorem encode_decode_no_segments : ∃ t,
    apmOnDeserialize .little emptySlot
      (apmOnSerialize .little (apmOnStart freshSession ⟨[], none⟩).1 ⟨[], none⟩) = .ok t ∧
      (apmOnSerialize .little t ⟨[], none⟩).metaFile =
        (apmOnSerialize .little (apmOnStart freshSession ⟨[], none⟩).1 ⟨[], none⟩).metaFile := by
  have hfree : emptySlot.Free := ⟨rfl, rfl⟩
  have hlives : Lives .exact .little (apmOnStart freshSession ⟨[], none⟩).1
    (apmOnStart freshSession ⟨[], none⟩).2 :=
    .start (.other (.free [] hfree) rfl rfl)
  exact (encode_decode_iff .exact .little hlives rfl emptySlot ⟨[], none⟩ ⟨[], none⟩).mpr
    ⟨by decide, rfl⟩

/-- The session of two segments is prepared again, connecting to the server fails, and the session
is saved: its two segments are no longer there. -/
theorem encode_decode_two_segments : ∃ s d s' rec, Lives .exact .little s d ∧
    prepareSession .little emptySlot fourByteChunks true (apmOnSerialize .little s d) = .ok s' ∧
    startTransfer .exact ⟨false, true, none, true, 0⟩ s' (apmOnSerialize .little s d)
    [] = .ok (some rec) ∧
    (apmOnSerialize .little rec.session rec.disk).metaFile ≠
      (apmOnSerialize .little s d).metaFile := by
  have hrun : (firstSession [0, 2]).any (fun rec => (!(freshSession.closing rec.log).broken) &&
      ((prepareSession .little emptySlot fourByteChunks true
        (apmOnSerialize .little rec.session rec.disk)).toOption.any
        fun s' => decide ((apmOnSerialize .little { s' with errno := .connectionFailed }
          (apmOnSerialize .little rec.session rec.disk)).metaFile ≠
            (apmOnSerialize .little rec.session rec.disk).metaFile))) = true := by
    decide +kernel
  obtain ⟨rec, hrec, hall⟩ := (Option.any_eq_true _ _).mp hrun
  simp only [Bool.and_eq_true, Bool.not_eq_true'] at hall
  obtain ⟨s', hs', hne⟩ := (Option.any_eq_true _ _).mp hall.2
  refine ⟨rec.session, rec.disk, s', _, lives_firstSession hrec hall.1, ?_, rfl, ?_⟩
  · cases hprepare : prepareSession .little emptySlot fourByteChunks true
        (apmOnSerialize .little rec.session rec.disk) with
    | error e =>
      rw [hprepare] at hs'
      cases hs'
    | ok s =>
      rw [hprepare] at hs'
      cases hs'
      rfl
  · exact of_decide_eq_true hne

end LibDtp
