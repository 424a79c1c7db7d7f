import LibDtp.Client.Resume

/-!
# Histories of sessions

A download that takes several sessions, each resumed from the meta file that was written after the
one before it.

## The model

An `Episode` is one session: the session as it was prepared, the packets that were delivered to it,
and what `dtp_start_transfer` has left behind. What may be delivered is a parameter of a `History`,
so that a statement can be about any packets in any order, or about packets that arrive in the order
in which they were sent.

## What is proved

* `History.invariant` — what a session keeps up if the one before it has done so holds of every
  session of a history.
* `resume_sound` — whatever arrives, the file has every packet in the segments of a session.
* `bytes_accounted` — if packets arrive in order, the byte count is that of the packets in the
  segments.
* `exhausted_complete_iff` — a session that is declared exhausted is complete, but for two cases.
-/

namespace LibDtp

open Bytes Chunks Files Ranges

/-- One session of a download. -/
structure Episode where
  /-- The session as it was prepared, with the size that the server has answered. -/
  session : Session
  /-- The packets that came in. -/
  delivered : List Packet
  /-- What it has left behind. -/
  received : Received

/-- The files, once the session has been saved. -/
def Episode.saved (host : ByteOrder) (e : Episode) : Disk :=
  apmOnSerialize host e.received.session e.received.disk

/-- The transfer of a prepared session, when the network does its part and the server answers with
the size of the payload. -/
structure Episode.Transfers (E : ErrorTest) (payload : List UInt8) (s : Session) (d : Disk)
    (e : Episode) : Prop where
  /-- The session gets the size. -/
  session : e.session = { s with payloadSize := UInt32.ofNat payload.length }
  /-- The transfer comes to its end. -/
  received : ∃ env es, env.connect = true ∧ env.buffer = true ∧ env.bind = true ∧
    env.response.map MetaResp.totalPayloadSize = some (UInt32.ofNat payload.length) ∧
    packetsOf es = e.delivered ∧ startTransfer E env s d es = .ok (some e.received)

/-- A session that is prepared in `slot` and to which `es` happen. -/
def Episode.play (E : ErrorTest) (host : ByteOrder) (payload : List UInt8) (slot : Session)
    (p : Params) (resume : Bool) (d : Disk) (es : List RecvEvent) : Option Episode :=
  match prepareSession host slot p resume d with
  | .error _ => none
  | .ok s =>
    match startTransfer E ⟨true, true, some ⟨0, UInt32.ofNat payload.length⟩, true, 0⟩ s d es with
    | .ok (some rec) =>
      some ⟨{ s with payloadSize := UInt32.ofNat payload.length }, packetsOf es, rec⟩
    | _ => none

/-- A history of sessions, the last one first. `Allows` says what may be delivered to a session,
given those before it. -/
inductive History (E : ErrorTest) (host : ByteOrder) (payload : List UInt8) (mtu : UInt16)
    (Allows : List Episode → Episode → Prop) : List Episode → Prop where
  /-- The first session. -/
  | fresh {slot s : Session} {p : Params} {d : Disk} {e : Episode} (hslot : slot.Free)
      (hmtu : p.mtu = mtu)
      (hthroughput : 1 ≤ p.maxThroughput) (hs : prepareSession host slot p false d = .ok s)
      (he : e.Transfers E payload s d) (hallows : Allows [] e) :
        History E host payload mtu Allows [e]
  /-- A session that is resumed from the meta file. -/
  | resume {slot s : Session} {p : Params} {last e : Episode} {h : List Episode}
      (hh : History E host payload mtu Allows (last :: h)) (hslot : slot.Free)
      (hs : prepareSession host slot p true (last.saved host) = .ok s)
      (he : e.Transfers E payload s (last.saved host)) (hallows : Allows (last :: h) e) :
      History E host payload mtu Allows (e :: last :: h)

/-- Any packets, in any order and any number of times, that were sent for this session or an earlier
one. -/
def AnyOrder (payload : List UInt8) (h : List Episode) (e : Episode) : Prop :=
  ∀ p ∈ e.delivered, ∃ f ∈ e :: h, ∃ sent, ServerSends payload f.session.request sent ∧ p ∈ sent

/-- The byte count of the session does not wrap. -/
def Episode.CountsExactly (e : Episode) : Prop :=
  e.session.bytesReceived.toNat + dataBytes (acceptedOf e.received.log) < 2 ^ 32

/-- What arrives of some messages over a channel that keeps their order, but may lose some, and may
deliver one several times in a row. -/
inductive Delivery {α : Type} : List α → List α → Prop where
  /-- Nothing is sent. -/
  | nil : Delivery [] []
  /-- A message is lost. -/
  | lose {a : α} {sent got : List α} : Delivery sent got → Delivery (a :: sent) got
  /-- A message arrives. -/
  | keep {a : α} {sent got : List α} : Delivery sent got → Delivery (a :: sent) (a :: got)
  /-- The message that arrives next arrives once more before that. -/
  | again {a : α} {sent got : List α} : Delivery sent (a :: got) → Delivery sent (a :: a :: got)

/-- Packets that were sent for this session, in the order in which they were sent; some of them are
lost, and some come several times in a row. -/
def InOrder (payload : List UInt8) (_ : List Episode) (e : Episode) : Prop :=
  ∃ sent, ServerSends payload e.session.request sent ∧ Delivery sent e.delivered

/-- Some of the packets that were sent for this session, in the order in which they were sent. -/
def Subsequence (payload : List UInt8) (_ : List Episode) (e : Episode) : Prop :=
  ∃ sent, ServerSends payload e.session.request sent ∧ e.delivered.Sublist sent

theorem Delivery.subset {α : Type} {sent got : List α} (h : Delivery sent got) : got ⊆ sent := by
  induction h with
  | nil => exact List.Subset.refl []
  | lose _ ih => exact List.subset_cons_of_subset _ ih
  | keep _ ih => exact List.cons_subset_cons _ ih
  | again _ ih => exact List.cons_subset.mpr ⟨ih (List.mem_cons_self ..), ih⟩

/-- A relation that is kept when the message is the same holds between what arrives earlier and
later. -/
theorem Delivery.pairwise {α : Type} {R : α → α → Prop} (hrefl : ∀ a, R a a) {sent got : List α}
    (h : Delivery sent got) (hsent : sent.Pairwise R) : got.Pairwise R := by
  induction h with
  | nil => exact List.Pairwise.nil
  | lose _ ih => exact ih hsent.of_cons
  | keep hd ih =>
    obtain ⟨ha, hrest⟩ := List.pairwise_cons.mp hsent
    exact List.pairwise_cons.mpr ⟨fun b hb => ha b (hd.subset hb), ih hrest⟩
  | again _ ih =>
    have hgot := ih hsent
    refine List.pairwise_cons.mpr ⟨fun b hb => ?_, hgot⟩
    rcases List.mem_cons.mp hb with rfl | hb
    · exact hrefl b
    · exact (List.pairwise_cons.mp hgot).1 b hb

theorem delivery_of_sublist {α : Type} {sent got : List α} (h : got.Sublist sent) :
    Delivery sent got := by
  induction h with
  | slnil => exact .nil
  | cons _ _ ih => exact .lose ih
  | cons_cons _ _ ih => exact .keep ih

theorem InOrder.anyOrder {payload : List UInt8} {h : List Episode} {e : Episode}
    (hin : InOrder payload h e) :
    AnyOrder payload h e := by
  obtain ⟨sent, hsent, hdelivery⟩ := hin
  exact fun p hp => ⟨e, List.mem_cons_self .., sent, hsent, hdelivery.subset hp⟩

theorem Subsequence.inOrder {payload : List UInt8} {h : List Episode} {e : Episode}
    (hsub : Subsequence payload h e) :
    InOrder payload h e := by
  obtain ⟨sent, hsent, hsub⟩ := hsub
  exact ⟨sent, hsent, delivery_of_sublist hsub⟩

/-! ### One session after another -/

theorem History.mono {E : ErrorTest} {host : ByteOrder} {payload : List UInt8} {mtu : UInt16}
    {P Q : List Episode → Episode → Prop} {h : List Episode} (hist : History E host payload mtu P h)
    (himp : ∀ h e, P h e → Q h e) : History E host payload mtu Q h := by
  induction hist with
  | fresh hslot hmtu hthroughput hs he hallows =>
    exact .fresh hslot hmtu hthroughput hs he (himp _ _ hallows)
  | resume hh hslot hs he hallows ih => exact .resume ih hslot hs he (himp _ _ hallows)

theorem Episode.Transfers.from {E : ErrorTest} {payload : List UInt8} {s : Session} {d : Disk}
    {e : Episode} (h : e.Transfers E payload s d) : e.received.From E e.session d e.delivered := by
  obtain ⟨env, es, hconnect, hbuffer, hbind, hresponse, hpackets, htransfer⟩ := h.received
  obtain ⟨resp, hresp, hsize⟩ := Option.map_eq_some_iff.mp hresponse
  rw [startTransfer, if_pos hconnect, if_pos hbuffer, hresp] at htransfer
  simp only [hsize, hbind, ← h.session] at htransfer
  rw [← hpackets]
  exact received_from htransfer

theorem Episode.transfers_of_play {E : ErrorTest} {host : ByteOrder} {payload : List UInt8}
    {slot : Session} {p : Params} {resume : Bool} {d : Disk} {es : List RecvEvent} {e : Episode}
    (h : play E host payload slot p resume d es = some e) :
    ∃ s, prepareSession host slot p resume d = .ok s ∧ e.Transfers E payload s d := by
  unfold play at h
  split at h
  · cases h
  · rename_i s hs
    split at h
    · rename_i rec hrec
      obtain rfl := Option.some.inj h
      exact ⟨s, hs, rfl, ⟨_, es, rfl, rfl, rfl, rfl, rfl, hrec⟩⟩
    · cases h

/-- How a session goes on from the one before it, if there is one. -/
structure Episode.Continues (E : ErrorTest) (payload : List UInt8) (mtu : UInt16)
    (before : Option Episode) (e : Episode) :
    Prop where
  /-- The session is about to receive data. -/
  ready : e.session.Ready payload
  /-- The size of the payload. -/
  payloadSize : e.session.payloadSize.toNat = payload.length
  /-- The size of the packets. -/
  mtu_eq : e.session.request.mtu = mtu
  /-- It goes on with the segments. -/
  resumed : e.session.resumed = before.elim ∅ fun last => last.received.session.covered
  /-- It goes on with the byte count. -/
  bytesReceived : e.session.bytesReceived = before.elim 0 fun last =>
    last.received.session.bytesReceived
  /-- It goes on with the file. -/
  received : ∃ d, (∀ last ∈ before, d.output = last.received.disk.output) ∧
    e.received.From E e.session d e.delivered
  /-- Every packet is a part of the payload. -/
  chunks : ∀ p ∈ e.delivered, ∃ k, p.IsChunk payload e.session.request.eff k

section Transfers

variable {E : ErrorTest} {payload : List UInt8} {mtu : UInt16} {s : Session} {d : Disk}
  {e : Episode} (he : e.Transfers E payload s d) (hready : s.Ready payload)
  (hmtu : s.request.mtu = mtu)

include he hready hmtu

theorem Episode.Transfers.ready : e.session.Ready payload ∧ e.session.request.mtu = mtu := by
  rw [he.session]
  exact ⟨⟨hready.usable, hready.fits, hready.sorted, hready.missing, hready.segments,
    hready.received, hready.subset⟩, hmtu⟩

theorem Episode.Transfers.continues (hlt : payload.length < 2 ^ 32) {before : Option Episode}
    (hresumed : s.resumed = before.elim ∅ fun last => last.received.session.covered)
    (hbytes : s.bytesReceived = before.elim 0 fun last => last.received.session.bytesReceived)
    (hd : ∀ last ∈ before, d.output = last.received.disk.output)
    (hchunks : ∀ p ∈ e.delivered, ∃ k, p.IsChunk payload e.session.request.eff k) :
    e.Continues E payload mtu before := by
  obtain ⟨hready', hmtu'⟩ := he.ready hready hmtu
  refine ⟨hready', ?_, hmtu', ?_, ?_, ⟨d, hd, he.from⟩, hchunks⟩
  · rw [he.session]
    exact UInt32.toNat_ofNat_of_lt' hlt
  · rw [he.session]
    exact hresumed
  · rw [he.session]
    exact hbytes

end Transfers

/-- The server sends parts of the payload. -/
theorem Session.Ready.isChunk {payload : List UInt8} {s : Session} (h : s.Ready payload)
    (hlt : payload.length < 2 ^ 32) {sent : List Packet}
    (hsent : ServerSends payload s.request sent) {p : Packet} (hp : p ∈ sent) :
    ∃ k ∈ s.request.numbers (count payload.length s.request.eff),
      p.IsChunk payload s.request.eff k :=
  isChunk_of_mem_emission h.usable.mtu hlt ((serverSends_isPrefix h.usable h.fits hsent).subset hp)

section Continues

variable {E : ErrorTest} {host : ByteOrder} {payload : List UInt8} {mtu : UInt16}
  (hmtu : 8 < mtu.toNat) (hsum : payload.length + (mtu.toNat - 8) < 2 ^ 32)

theorem Episode.Continues.eff_eq {before : Option Episode} {e : Episode}
    (h : e.Continues E payload mtu before) :
    e.session.request.eff = mtu.toNat - 8 := by
  rw [MetaReq.eff, h.mtu_eq]

theorem Episode.Continues.eff_pos {before : Option Episode} {e : Episode}
    (h : e.Continues E payload mtu before) :
    0 < mtu.toNat - 8 := by
  rw [← h.eff_eq]
  exact MetaReq.eff_pos h.ready.usable.mtu

theorem Episode.Continues.ends {before : Option Episode} {e : Episode}
    (h : e.Continues E payload mtu before) :
    e.received.session.Saved payload ∧ e.session.resumed ⊆ e.received.session.covered ∧
      e.received.session.covered ⊆ e.session.resumed ∪ e.received.numbers.toFinset ∧
      (e.received.numbers.Pairwise (· ≤ ·) →
        e.received.session.covered = e.session.resumed ∪ e.received.numbers.toFinset) := by
  obtain ⟨d, -, hfrom⟩ := h.received
  exact h.ready.ends h.payloadSize hfrom h.chunks

theorem Episode.Continues.resumed_of_mem {before : Option Episode} {last e : Episode}
    (h : e.Continues E payload mtu before) (hlast : last ∈ before) :
    e.session.resumed = last.received.session.covered := by
  rw [h.resumed, Option.mem_def.mp hlast]
  rfl

/-- The request is still there when the session has ended. -/
theorem Episode.Continues.request_eq {before : Option Episode} {e : Episode}
    (h : e.Continues E payload mtu before) :
    e.received.session.request = e.session.request := by
  obtain ⟨d, -, hfrom⟩ := h.received
  exact hfrom.request

theorem Episode.Continues.covered_subset {before : Option Episode} {e : Episode}
    (h : e.Continues E payload mtu before) :
    e.received.session.covered ⊆ Finset.range (count payload.length (mtu.toNat - 8)) := by
  rw [← h.eff_eq, ← h.request_eq]
  exact h.ends.1.subset

/-- What may be delivered are parts of the payload. -/
theorem AnyOrder.chunks {e : Episode} {h : List Episode} (hany : AnyOrder payload h e)
    (hlt : payload.length < 2 ^ 32)
    (hready : ∀ f ∈ e :: h, f.session.Ready payload ∧ f.session.request.mtu = mtu) :
    ∀ p ∈ e.delivered, ∃ k, p.IsChunk payload e.session.request.eff k := by
  intro p hp
  obtain ⟨f, hf, sent, hsent, hmem⟩ := hany p hp
  obtain ⟨k, -, hk⟩ := (hready f hf).1.isChunk hlt hsent hmem
  have heff : f.session.request.eff = e.session.request.eff := by
    rw [MetaReq.eff, MetaReq.eff, (hready f hf).2, (hready e (List.mem_cons_self ..)).2]
  exact ⟨k, heff ▸ hk⟩

include hmtu hsum

theorem History.continues_all {hs : List Episode}
    (hist : History E host payload mtu (AnyOrder payload) hs) :
    (∀ f ∈ hs, f.session.Ready payload ∧ f.session.request.mtu = mtu) ∧
      ∀ e h, hs = e :: h → e.Continues E payload mtu h.head? := by
  have hlt : payload.length < 2 ^ 32 := by omega
  induction hist with
  | @fresh slot s p d e hslot hmtu' hthroughput hs he hallows =>
    have hpos : 0 < p.maxThroughput.toNat := UInt32.le_iff_toNat_le.mp hthroughput
    have hready : s.Ready payload ∧ s.resumed = ∅ ∧ s.bytesReceived = 0 ∧ s.request.mtu = p.mtu :=
      ready_fresh hslot (by rwa [hmtu']) hpos hs
    obtain ⟨hready, hresumed, hbytes, hreq⟩ := hready
    have hall : ∀ f ∈ [e], f.session.Ready payload ∧ f.session.request.mtu = mtu := by
      simpa using he.ready hready (hreq.trans hmtu')
    refine ⟨hall, ?_⟩
    rintro e' h' ⟨rfl, rfl⟩
    exact he.continues hready (hreq.trans hmtu') hlt hresumed hbytes (by simp)
      (hallows.chunks hlt hall)
  | @resume slot s p last e h hh hslot hs he hallows ih =>
    obtain ⟨hall, hlast⟩ := ih
    have hcont := hlast last h rfl
    obtain ⟨hsaved, -⟩ := hcont.ends
    have hreq : last.received.session.request.mtu = mtu := by rw [hcont.request_eq, hcont.mtu_eq]
    obtain ⟨hready, hresumed, hbytes, hreq'⟩ :=
      ready_resume hslot hsaved (by rwa [MetaReq.eff, hreq]) hs
    have hall' : ∀ f ∈ e :: last :: h, f.session.Ready payload ∧ f.session.request.mtu = mtu := by
      intro f hf
      rcases List.mem_cons.mp hf with rfl | hf
      · exact he.ready hready (hreq'.trans hreq)
      · exact hall f hf
    refine ⟨hall', ?_⟩
    rintro e' h' ⟨rfl, rfl⟩
    refine he.continues hready (hreq'.trans hreq) hlt hresumed hbytes ?_ (hallows.chunks hlt hall')
    intro last' hlast'
    obtain rfl : last = last' := Option.some.inj hlast'
    obtain ⟨ctx, -, hctx, -⟩ := hsaved.hookCtx
    rw [Episode.saved, apmOnSerialize, hctx]

/-- In a history every session continues the one before it. -/
theorem History.continues {e : Episode} {h : List Episode}
    (hist : History E host payload mtu (AnyOrder payload) (e :: h)) :
    e.Continues E payload mtu h.head? :=
  (hist.continues_all hmtu hsum).2 e h rfl

/-- What a session keeps up if the one before it has done so holds of every session. -/
theorem History.invariant {Allows : List Episode → Episode → Prop}
    (hany : ∀ h e, Allows h e → AnyOrder payload h e) {P : Episode → Prop}
    (hstep : ∀ h e, e.Continues E payload mtu h.head? → Allows h e → (∀ last ∈ h.head?, P last) →
      P e)
    {hs : List Episode} (hist : History E host payload mtu Allows hs) : ∀ e ∈ hs.head?, P e := by
  induction hist with
  | @fresh slot s p d e hslot hmtu' hthroughput hs he hallows =>
    have hist : History E host payload mtu (AnyOrder payload) [e] :=
      .fresh hslot hmtu' hthroughput hs he (hany _ _ hallows)
    rintro e' ⟨rfl⟩
    exact hstep [] e (hist.continues hmtu hsum) hallows (by simp)
  | @resume slot s p last e h hh hslot hs he hallows ih =>
    have hist : History E host payload mtu (AnyOrder payload) (e :: last :: h) :=
      .resume (hh.mono hany) hslot hs he (hany _ _ hallows)
    rintro e' ⟨rfl⟩
    exact hstep (last :: h) e (hist.continues hmtu hsum) hallows ih

end Continues

/-! ### Running a history -/

/-- The sessions to which some events happen, the last one first. -/
def playAll (E : ErrorTest) (host : ByteOrder) (payload : List UInt8) (slot : Session) (p : Params)
    (d : Disk) :
    List (List RecvEvent) → Option (List Episode)
  | [] => none
  | [es] => (Episode.play E host payload slot p false d es).map fun e => [e]
  | es :: es' :: ess =>
    match playAll E host payload slot p d (es' :: ess) with
    | some (last :: h) =>
      (Episode.play E host payload slot p true (last.saved host) es).map fun e => e :: last :: h
    | _ => none

theorem history_of_playAll {E : ErrorTest} {host : ByteOrder} {payload : List UInt8}
    {slot : Session} {p : Params} {d : Disk} {Allows : List Episode → Episode → Prop}
    (hslot : slot.Free) (hthroughput : 1 ≤ p.maxThroughput) {ess : List (List RecvEvent)}
    {hs : List Episode} (h : playAll E host payload slot p d ess = some hs)
    (hallows : ∀ e ∈ hs, ∀ h, Allows h e) : History E host payload p.mtu Allows hs := by
  induction ess generalizing hs with
  | nil => simp [playAll] at h
  | cons es ess ih =>
    cases ess with
    | nil =>
      obtain ⟨e, he, rfl⟩ := Option.map_eq_some_iff.mp h
      obtain ⟨s, hs, htransfers⟩ := Episode.transfers_of_play he
      exact .fresh hslot rfl hthroughput hs htransfers (hallows e (List.mem_singleton_self e) [])
    | cons es' ess =>
      rw [playAll] at h
      split at h
      · rename_i last hs' hlast
        obtain ⟨e, he, rfl⟩ := Option.map_eq_some_iff.mp h
        obtain ⟨s, hs, htransfers⟩ := Episode.transfers_of_play he
        exact .resume
          (ih hlast fun f hf => hallows f (List.mem_cons_of_mem e hf)) hslot hs htransfers
          (hallows e (List.mem_cons_self ..) _)
      · cases h

/-- A slot that has not been used. -/
def emptySlot : Session where
  active := false
  node := 0
  hookCtx := none
  bytesReceived := 0
  payloadSize := 0
  errno := .noErr
  request := ⟨0, 0, 0, 0, 0, 0, Vector.replicate 8 ⟨0, 0⟩⟩
  timeout := 0

/-- Chunks of four bytes, at 1000 bytes a second. -/
def fourByteChunks : Params := ⟨1, 1, 1000, 10, 0, 12, 0⟩

/-- Sessions for chunks of four bytes, the last one first. -/
def sessions (payload : List UInt8) (ess : List (List RecvEvent)) : Option (List Episode) :=
  playAll .exact .little payload emptySlot fourByteChunks ⟨[], none⟩ ess

/-- Some packets of a payload arrive, all at the same time. -/
def arrivals (payload : List UInt8) (ks : List ℕ) : List RecvEvent :=
  ks.map fun k => .packet (chunkPacket payload (oneInterval 12 ⟨0, uint32Max⟩) k) 0 0

/-- Sessions that have been run are a history. -/
theorem history_sessions {β : Type} [DecidableEq β] {Allows : List Episode → Episode → Prop}
    {R : Episode → Prop} [DecidablePred R] (hR : ∀ e, R e → ∀ h, Allows h e) (payload : List UInt8)
    (ess : List (List RecvEvent)) (f : Episode → β) (bs : List β)
    (h : (sessions payload ess).any (fun hs => hs.all (fun e => decide (R e)) && hs.map f == bs) =
      true) :
    ∃ hs, History .exact .little payload 12 Allows hs ∧ hs.map f = bs := by
  obtain ⟨hs, hplay, hall⟩ := (Option.any_eq_true _ _).mp h
  simp only [Bool.and_eq_true, List.all_eq_true, decide_eq_true_eq, beq_iff_eq] at hall
  refine ⟨hs, ?_, hall.2⟩
  exact history_of_playAll (p := fourByteChunks) ⟨rfl, rfl⟩ (by decide) hplay fun e he =>
    hR e (hall.1 e he)

/-- What is delivered is a part of what a server sends in its first steps, and is counted exactly.
-/
def Episode.Receives (payload : List UInt8) (e : Episode) : Prop :=
  e.delivered.Sublist (serverRun payload e.session.request 10) ∧
    e.session.bytesReceived.toNat + dataBytes (acceptedOf e.received.log) < 2 ^ 32

instance (payload : List UInt8) : DecidablePred (Episode.Receives payload) :=
  fun _ => inferInstanceAs (Decidable (_ ∧ _))

theorem Episode.Receives.allowed (payload : List UInt8) (hlt : payload.length < 2 ^ 32)
    (e : Episode) (he : e.Receives payload) (h : List Episode) :
    Subsequence payload h e ∧ e.CountsExactly :=
  ⟨⟨_, serverSends_serverRun hlt _ 10, he.1⟩, he.2⟩

/-- A payload of three packets. -/
def tenBytes : List UInt8 := [1, 2, 3, 4, 5, 6, 7, 8, 9, 10]

/-- The first and the last packet arrive in one session, and the other one in the next. -/
theorem two_sessions : ∃ e₁ e₂ : Episode,
    History .exact .little tenBytes 12 (fun h e => Subsequence tenBytes h e ∧ e.CountsExactly)
    [e₂, e₁] ∧
      e₂.received.session.covered = {0, 1, 2} ∧ e₁.received.session.covered = {0, 2} := by
  obtain ⟨hs, hist, hmap⟩ :=
    history_sessions (Episode.Receives.allowed tenBytes (by decide)) tenBytes
    [arrivals tenBytes [1], arrivals tenBytes [0, 2]] (fun e => e.received.session.covered)
      [{0, 1, 2}, {0, 2}]
    (by decide +kernel)
  obtain ⟨e₂, h, rfl, h2, hmap⟩ := List.map_eq_cons_iff.mp hmap
  obtain ⟨e₁, rfl, h1⟩ := List.map_eq_singleton_iff.mp hmap
  exact ⟨e₁, e₂, hist, h2, h1⟩

/-! ### The byte count of a session -/

section Bytes

variable {E : ErrorTest} {payload : List UInt8} {mtu : UInt16} {before : Option Episode}
  {e : Episode} (h : e.Continues E payload mtu before)

include h

theorem Episode.Continues.isChunk {p : Packet} (hp : p ∈ acceptedOf e.received.log) :
    p.IsChunk payload e.session.request.eff (p.number e.received.session.request) := by
  obtain ⟨d, -, hfrom⟩ := h.received
  obtain ⟨k, hk⟩ := h.chunks p (hfrom.mem hp)
  rwa [hfrom.request, hk.number_eq h.ready.usable.mtu]

/-- The bytes of a session are those of the packets it has taken. -/
theorem Episode.Continues.dataBytes_eq : dataBytes (acceptedOf e.received.log) =
    (e.received.numbers.map (len payload.length e.session.request.eff)).sum := by
  rw [dataBytes, Received.numbers, List.map_map]
  congr 1
  refine List.map_congr_left fun p hp => ?_
  rw [(h.isChunk hp).length]
  exact Nat.add_sub_cancel _ 8

theorem Episode.Continues.toNat_bytesReceived : e.received.session.bytesReceived.toNat =
    (e.session.bytesReceived.toNat + dataBytes (acceptedOf e.received.log)) % 2 ^ 32 := by
  obtain ⟨d, -, hfrom⟩ := h.received
  rw [hfrom.bytesReceived]
  refine toNat_countBytes (fun p hp => ?_) _
  rw [(h.isChunk hp).length]
  exact Nat.le_add_left 8 _

end Bytes

/-! ### The file -/

/-- What a session leaves behind for the next: the packets in its segments are in the file, and the
file is not begun anew if there are any. -/
structure Episode.Keeps (payload : List UInt8) (mtu : UInt16) (e : Episode) : Prop where
  /-- The packets in its segments are in the file. -/
  file : ∀ k ∈ e.received.session.covered, FileHas payload (mtu.toNat - 8) e.received.disk.output k
  /-- The byte count shows that there are some. -/
  bytes : e.received.session.covered ≠ ∅ → 0 < e.received.session.bytesReceived.toNat

theorem Episode.Continues.keeps {E : ErrorTest} {payload : List UInt8} {mtu : UInt16}
    {before : Option Episode} {e : Episode} (h : e.Continues E payload mtu before)
    (hexact : e.CountsExactly) (hbefore : ∀ last ∈ before, last.Keeps payload mtu) :
    e.Keeps payload mtu := by
  have he := MetaReq.eff_pos h.ready.usable.mtu
  obtain ⟨d, hd, hfrom⟩ := h.received
  obtain ⟨-, -, hupper, -⟩ := h.ends
  have hresumed : ∀ k ∈ e.session.resumed, 0 < e.session.bytesReceived.toNat ∧
      FileHas payload (mtu.toNat - 8) d.output k := by
    intro k hk
    rw [h.resumed] at hk
    rw [h.bytesReceived]
    cases before with
    | none => simp at hk
    | some last =>
      have hlast := hbefore last rfl
      rw [hd last rfl]
      exact ⟨hlast.bytes (Finset.ne_empty_of_mem hk), hlast.file k hk⟩
  have hcases : ∀ k ∈ e.received.session.covered, k ∈ e.session.resumed ∨
      ∃ p ∈ acceptedOf e.received.log, p.IsChunk payload e.session.request.eff k := by
    intro k hk
    rcases Finset.mem_union.mp (hupper hk) with hk | hk
    · exact Or.inl hk
    · obtain ⟨p, hp, rfl⟩ := List.mem_map.mp (List.mem_toFinset.mp hk)
      exact Or.inr ⟨p, hp, h.isChunk hp⟩
  constructor
  · intro k hk
    rw [hfrom.output, ← h.eff_eq]
    refine fileHas_writePackets h.ready.usable.mtu (fun p hp => ⟨_, h.isChunk hp⟩) ?_
    refine (hcases k hk).imp_left fun hk => ?_
    obtain ⟨hbytes, hfile⟩ := hresumed k hk
    have hgt : e.session.bytesReceived > 0 := UInt32.lt_iff_toNat_lt.mpr hbytes
    rw [if_pos hgt, h.eff_eq]
    exact hfile
  · intro hne
    obtain ⟨k, hk⟩ := Finset.nonempty_iff_ne_empty.mpr hne
    rw [h.toNat_bytesReceived, Nat.mod_eq_of_lt hexact]
    rcases hcases k hk with hk | ⟨p, hp, hchunk⟩
    · have := (hresumed k hk).1
      omega
    · have hle : p.length.toNat - 8 ≤ dataBytes (acceptedOf e.received.log) :=
        List.single_le_sum (by simp) _ (List.mem_map_of_mem hp)
      have hpos := len_pos he hchunk.lt
      have := hchunk.length
      omega

/-- Whatever is delivered to the sessions of a history, in any order and any number of times, the
file has every packet in the segments of a session, and no session loses a packet that an earlier
one had. -/
theorem resume_sound (E : ErrorTest) (host : ByteOrder) {payload : List UInt8} {mtu : UInt16}
    (hmtu : 8 < mtu.toNat) (hsum : payload.length + (mtu.toNat - 8) < 2 ^ 32) {e : Episode}
    {h : List Episode}
    (hist : History E host payload mtu (fun h e => AnyOrder payload h e ∧ e.CountsExactly)
      (e :: h)) :
    (∀ k ∈ e.received.session.covered, FileHas payload (mtu.toNat - 8) e.received.disk.output k) ∧
      ∀ last ∈ h.head?, last.received.session.covered ⊆ e.received.session.covered := by
  have hkeeps := hist.invariant hmtu hsum (fun _ _ hallows => hallows.1)
    (fun _ _ hcont hallows hlast => hcont.keeps hallows.2 hlast)
  have hcont := (hist.mono fun _ _ hallows => hallows.1).continues hmtu hsum
  refine ⟨(hkeeps e rfl).file, fun last hlast => ?_⟩
  obtain ⟨-, hsub, -⟩ := hcont.ends
  rwa [hcont.resumed_of_mem hlast] at hsub

theorem resume_sound_two : ∃ e₁ e₂ : Episode, e₁.received.session.covered = {0, 2} ∧
    e₂.received.session.covered = {0, 1, 2} ∧
    (∀ k ∈ e₂.received.session.covered, FileHas tenBytes 4 e₂.received.disk.output k) ∧
    e₁.received.session.covered ⊆ e₂.received.session.covered := by
  obtain ⟨e₁, e₂, hist, h2, h1⟩ := two_sessions
  obtain ⟨hfile, hkeep⟩ := resume_sound .exact .little (by decide) (by decide)
    (hist.mono fun _ _ hallows => ⟨hallows.1.inOrder.anyOrder, hallows.2⟩)
  exact ⟨e₁, e₂, h1, h2, hfile, hkeep e₁ rfl⟩

/-! ### Packets that arrive in order -/

theorem lt_of_mem_dropRepeats {r : MetaReq} {ps : List Packet}
    (h : ps.Pairwise fun p q => p.number r ≤ q.number r) {prev : UInt32}
    (hprev : ∀ p ∈ ps, prev.toNat ≤ p.number r) :
    ∀ p ∈ dropRepeats r prev ps, prev.toNat < p.number r := by
  induction ps with
  | nil => simp [dropRepeats]
  | cons p ps ih =>
    obtain ⟨hp, hps⟩ := List.pairwise_cons.mp h
    have hle := hprev p (List.mem_cons_self ..)
    rw [dropRepeats]
    split_ifs with hseq
    · exact ih hps fun q hq => hprev q (List.mem_cons_of_mem _ hq)
    · have hlt : prev.toNat < p.number r :=
        lt_of_le_of_ne hle fun h => hseq (UInt32.toNat_inj.mp h.symm)
      intro q hq
      rcases List.mem_cons.mp hq with rfl | hq
      · exact hlt
      · exact lt_of_lt_of_le hlt (hp q ((dropRepeats_sublist _ _ _).subset hq))

/-- Of packets in ascending order, those that are left without the repetitions are in strictly
ascending order. -/
theorem dropRepeats_pairwise {r : MetaReq} {ps : List Packet}
    (h : ps.Pairwise fun p q => p.number r ≤ q.number r) (prev : UInt32) :
    (dropRepeats r prev ps).Pairwise fun p q => p.number r < q.number r := by
  induction ps generalizing prev with
  | nil => exact List.Pairwise.nil
  | cons p ps ih =>
    obtain ⟨hp, hps⟩ := List.pairwise_cons.mp h
    rw [dropRepeats]
    split_ifs
    · exact ih hps prev
    · exact List.pairwise_cons.mpr ⟨lt_of_mem_dropRepeats hps hp, ih hps _⟩

/-- The server sends packets in ascending order. -/
theorem Session.Ready.sent_pairwise {payload : List UInt8} {s : Session} (h : s.Ready payload)
    (hlt : payload.length < 2 ^ 32) {sent : List Packet}
    (hsent : ServerSends payload s.request sent) :
    sent.Pairwise fun p q => p.number s.request ≤ q.number s.request := by
  have hnumber : ∀ k ∈ s.request.numbers (count payload.length s.request.eff),
      (chunkPacket payload s.request k).number s.request = k := fun k hk =>
    (isChunk_chunkPacket h.usable.mtu hlt
      (MetaReq.mem_numbers_lt (MetaReq.eff_pos h.usable.mtu) hk)).number_eq h.usable.mtu
  apply List.Pairwise.sublist (serverSends_isPrefix h.usable h.fits hsent).sublist
  rw [emission, List.pairwise_map]
  refine h.sorted.imp_of_mem fun {a b} ha hb hab => ?_
  rw [hnumber a ha, hnumber b hb]
  exact hab.le

section Accounting

variable {E : ErrorTest} {host : ByteOrder} {payload : List UInt8} {mtu : UInt16}

/-- The byte count is the sum of the lengths of the packets in the segments. -/
def Episode.Accounted (payload : List UInt8) (mtu : UInt16) (e : Episode) : Prop :=
  e.received.session.bytesReceived.toNat = ∑ k ∈ e.received.session.covered,
    len payload.length (mtu.toNat - 8) k

/-- A session that is sent only what it has asked for takes no packet that it was resumed with. -/
theorem Episode.Continues.numbers_new {before : Option Episode} {e : Episode}
    (hcont : e.Continues E payload mtu before) (hlt : payload.length < 2 ^ 32) {sent : List Packet}
    (hsent : ServerSends payload e.session.request sent) (hsub : e.delivered ⊆ sent) :
    Disjoint e.session.resumed e.received.numbers.toFinset := by
  obtain ⟨d, -, hfrom⟩ := hcont.received
  rw [Finset.disjoint_right]
  intro k hk
  obtain ⟨p, hp, rfl⟩ := List.mem_map.mp (List.mem_toFinset.mp hk)
  obtain ⟨k, hk, hchunk⟩ := hcont.ready.isChunk hlt hsent (hsub (hfrom.mem hp))
  rw [hfrom.request, hchunk.number_eq hcont.ready.usable.mtu]
  exact hcont.ready.missing k hk

section InOrder

variable {before : Option Episode} {e : Episode} {h : List Episode}
  (hcont : e.Continues E payload mtu before) (hlt : payload.length < 2 ^ 32)
  (hin : InOrder payload h e)

include hcont hlt hin

/-- A session to which packets are delivered in order takes them in strictly ascending order. -/
theorem Episode.Continues.numbers_sorted : e.received.numbers.Pairwise (· < ·) := by
  obtain ⟨sent, hsent, hdelivery⟩ := hin
  obtain ⟨d, -, hfrom⟩ := hcont.received
  obtain ⟨n, hn⟩ := hfrom.accepted
  have hdelivered : e.delivered.Pairwise fun p q => p.number e.session.request ≤
      q.number e.session.request := by
    refine hdelivery.pairwise ?_ (hcont.ready.sent_pairwise hlt hsent)
    exact fun p => le_rfl
  rw [Received.numbers, hfrom.request, hn, List.pairwise_map]
  exact dropRepeats_pairwise hdelivered.take _

theorem Episode.Continues.accounted (hbefore : ∀ last ∈ before, last.Accounted payload mtu) :
    e.Accounted payload mtu := by
  have hsorted := hcont.numbers_sorted hlt hin
  obtain ⟨sent, hsent, hdelivery⟩ := hin
  obtain ⟨-, -, -, hcovered⟩ := hcont.ends
  have hcov := hcovered (hsorted.imp le_of_lt)
  have hresumed : e.session.bytesReceived.toNat = ∑ k ∈ e.session.resumed,
      len payload.length (mtu.toNat - 8) k := by
    rw [hcont.bytesReceived, hcont.resumed]
    cases before with
    | none => rfl
    | some last => exact hbefore last rfl
  have htotal : e.session.bytesReceived.toNat + dataBytes (acceptedOf e.received.log) =
      ∑ k ∈ e.received.session.covered, len payload.length (mtu.toNat - 8) k := by
    rw [hcov, Finset.sum_union (hcont.numbers_new hlt hsent hdelivery.subset), hresumed,
      hcont.dataBytes_eq, hcont.eff_eq, List.sum_toFinset _ (hsorted.imp ne_of_lt)]
  have hle : ∑ k ∈ e.received.session.covered, len payload.length (mtu.toNat - 8) k ≤
    payload.length :=
    sum_len_le hcont.eff_pos hcont.covered_subset
  rw [Episode.Accounted, hcont.toNat_bytesReceived, htotal]
  exact Nat.mod_eq_of_lt (lt_of_le_of_lt hle hlt)

end InOrder

/-- Along a history to which packets are delivered in order, the byte count is that of the packets
in the segments. -/
theorem History.accounted (hmtu : 8 < mtu.toNat) (hsum : payload.length + (mtu.toNat - 8) < 2 ^ 32)
    {e : Episode} {h : List Episode}
    (hist : History E host payload mtu (InOrder payload) (e :: h)) :
    e.Continues E payload mtu h.head? ∧ e.Accounted payload mtu := by
  refine ⟨(hist.mono fun _ _ hin => hin.anyOrder).continues hmtu hsum, ?_⟩
  refine hist.invariant hmtu hsum (fun _ _ hin => hin.anyOrder)
    (fun _ _ hcont hin hlast => ?_) e rfl
  exact hcont.accounted (by omega) hin hlast

/-- If packets are delivered in order, the byte count is the sum of the lengths of the packets in
the segments, it is at most the size of the payload, and the server sends no packet that was in the
segments before. -/
theorem bytes_accounted (E : ErrorTest) (host : ByteOrder) {payload : List UInt8} {mtu : UInt16}
    (hmtu : 8 < mtu.toNat) (hsum : payload.length + (mtu.toNat - 8) < 2 ^ 32) {e : Episode}
    {h : List Episode} (hist : History E host payload mtu (InOrder payload) (e :: h)) :
    e.received.session.bytesReceived.toNat = ∑ k ∈ e.received.session.covered,
      len payload.length (mtu.toNat - 8) k ∧
      e.received.session.bytesReceived.toNat ≤ payload.length ∧
      ∀ last ∈ h.head?, ∀ sent, ServerSends payload e.session.request sent →
        ∀ p ∈ sent, p.number e.session.request ∉ last.received.session.covered := by
  have hlt : payload.length < 2 ^ 32 := by omega
  obtain ⟨hcont, haccounted⟩ := hist.accounted hmtu hsum
  refine ⟨haccounted, ?_, ?_⟩
  · rw [haccounted]
    exact sum_len_le hcont.eff_pos hcont.covered_subset
  · intro last hlast sent hsent p hp
    obtain ⟨k, hk, hchunk⟩ := hcont.ready.isChunk hlt hsent hp
    rw [hchunk.number_eq hcont.ready.usable.mtu, ← hcont.resumed_of_mem hlast]
    exact hcont.ready.missing k hk

theorem bytes_accounted_two : ∃ e₁ e₂ : Episode, e₁.received.session.covered = {0, 2} ∧
    e₂.received.session.covered = {0, 1, 2} ∧
    e₂.received.session.bytesReceived.toNat = ∑ k ∈ e₂.received.session.covered, len 10 4 k ∧
    ∀ sent, ServerSends tenBytes e₂.session.request sent →
      ∀ p ∈ sent, p.number e₂.session.request ∉ e₁.received.session.covered := by
  obtain ⟨e₁, e₂, hist, h2, h1⟩ := two_sessions
  obtain ⟨hbytes, -, hnew⟩ := bytes_accounted .exact .little (by decide) (by decide)
    (hist.mono fun _ _ hallows => hallows.1.inOrder)
  exact ⟨e₁, e₂, h1, h2, hbytes, hnew e₁ rfl⟩

end Accounting

/-! ### Exhausted sessions -/

/-- A session that is declared exhausted is complete, except in two cases: nothing has been
received, or the last packet is shorter than the others and is the only one that is missing. -/
theorem exhausted_complete_iff (E : ErrorTest) (host : ByteOrder) {payload : List UInt8}
    {mtu : UInt16} (hpos : 0 < payload.length) (hmtu : 8 < mtu.toNat)
    (hsum : payload.length + (mtu.toNat - 8) < 2 ^ 32) {e : Episode} {h : List Episode}
    (hist : History E host payload mtu (Subsequence payload) (e :: h)) {slot : Session}
    (hslot : slot.Free) (p : Params) :
    (prepareSession host slot p true (e.saved host) = .error .sessionExhausted →
        Finset.range (count payload.length (mtu.toNat - 8)) ⊆ e.received.session.covered) ↔
      e.received.session.covered ≠ ∅ ∧ ¬ (¬ mtu.toNat - 8 ∣ payload.length ∧
        e.received.session.covered = Finset.range (count payload.length (mtu.toNat - 8) - 1)) := by
  obtain ⟨hcont, haccounted⟩ := (hist.mono fun _ _ hsub => hsub.inOrder).accounted hmtu hsum
  have he := hcont.eff_pos
  have heff : e.received.session.request.eff = mtu.toNat - 8 := by
    rw [hcont.request_eq, hcont.eff_eq]
  have hcount := count_pos he hpos
  have hrefused := @exhausted_iff payload host slot e.received.session p e.received.disk hslot
    hcont.ends.1 (by rwa [heff])
  rw [heff] at hrefused
  rw [Episode.saved, hrefused]
  constructor
  · intro hcomplete
    constructor
    · intro hempty
      have hsub := hcomplete (Or.inr (Or.inl hempty))
      rw [hempty, Finset.subset_empty, Finset.range_eq_empty_iff] at hsub
      omega
    · rintro ⟨hdvd, hcov⟩
      have hdiv := count_of_not_dvd he hdvd
      have hsub := hcomplete (Or.inr (Or.inr (by rw [hcov, hdiv]; exact subset_rfl)))
      rw [hcov, Finset.range_subset_range] at hsub
      omega
  · rintro ⟨hne, hlast⟩ (hbytes | hempty | hfull)
    · rw [haccounted, sum_len_eq_iff he hcont.covered_subset] at hbytes
      exact hbytes.ge
    · exact absurd hempty hne
    · by_cases hdvd : mtu.toNat - 8 ∣ payload.length
      · rwa [count_of_dvd he hdvd]
      · have hcov := hcont.covered_subset
        rw [count_of_not_dvd he hdvd] at hlast hcov ⊢
        by_cases hmem : payload.length / (mtu.toNat - 8) ∈ e.received.session.covered
        · rw [Finset.range_add_one]
          exact Finset.insert_subset hmem hfull
        · refine absurd ⟨hdvd, subset_antisymm (fun k hk => ?_) hfull⟩ hlast
          have hk' := Finset.mem_range.mp (hcov hk)
          have hne' : k ≠ payload.length / (mtu.toNat - 8) := fun h => hmem (h ▸ hk)
          exact Finset.mem_range.mpr (by omega)

/-- A session in which the packet in the middle is missing is not declared exhausted. -/
theorem exhausted_complete_middle : ∃ e : Episode, e.received.session.covered = {0, 2} ∧
    (prepareSession .little emptySlot fourByteChunks true
      (e.saved .little) = .error .sessionExhausted →
      Finset.range 3 ⊆ e.received.session.covered) := by
  obtain ⟨e₁, e₂, hist, -, h1⟩ := two_sessions
  have hist₁ : History .exact .little tenBytes 12 (Subsequence tenBytes) [e₁] := by
    cases hist.mono (fun _ _ hallows => hallows.1) with
    | resume hh => exact hh
  refine ⟨e₁, h1, (exhausted_complete_iff .exact .little
    (by decide) (by decide) (by decide) hist₁ ⟨rfl, rfl⟩ _).mpr ?_⟩
  rw [h1]
  exact ⟨by decide, by decide⟩

/-- A session that has received nothing is declared exhausted. -/
theorem exhausted_incomplete :
    ¬ ∀ (E : ErrorTest) (host : ByteOrder) (payload : List UInt8) (mtu : UInt16) (e : Episode)
      (h : List Episode) (slot : Session) (p : Params), 0 < payload.length → 8 < mtu.toNat →
      payload.length + (mtu.toNat - 8) < 2 ^ 32 → History E host payload mtu (Subsequence payload)
      (e :: h) → slot.Free →
      prepareSession host slot p true (e.saved host) = .error .sessionExhausted →
      Finset.range (count payload.length (mtu.toNat - 8)) ⊆ e.received.session.covered := by
  intro hclaim
  obtain ⟨hs, hist, hmap⟩ := history_sessions
    (Episode.Receives.allowed tenBytes (by decide)) tenBytes [List.replicate 60 .timeout]
    (fun e => (e.received.session.covered,
      decide (prepareSession .little emptySlot fourByteChunks true
        (e.saved .little) = .error .sessionExhausted)))
    [(∅, true)] (by decide +kernel)
  obtain ⟨e, rfl, h⟩ := List.map_eq_singleton_iff.mp hmap
  obtain ⟨hcovered, hrefused⟩ := Prod.mk.inj h
  have hsub := hclaim .exact .little tenBytes 12 e [] emptySlot fourByteChunks (by decide)
    (by decide) (by decide)
    (hist.mono fun _ _ hallows => hallows.1) ⟨rfl, rfl⟩ (of_decide_eq_true hrefused)
  rw [hcovered] at hsub
  exact absurd hsub (by decide)

end LibDtp
