import LibDtp.Client.Deadline

/-!
# The clock's origin

`csp_get_ms` counts the milliseconds since some moment, modulo `2^32`. A receiver that has no use
for that moment would not notice if all its readings were shifted by the same amount.
`start_receiving_data` measures times by differences, which do not change; but the test of its loop
compares two moments.

## The model

`RecvEvent.shift` shifts the readings that come with an event. Two states of the loop are `Shifted`
if one is the other with its moments shifted; what `apm_on_data_packet` keeps for its progress
display is left out of the comparison.

## What is proved

* `Shifted.step` — a step keeps two states shifted if the loop test comes out the same in both.
* `shift_invariant_iff` — a receiver and its shifted copy do the same at every point of a trace
  exactly if, wherever the loop test decides, the shift takes both of the moments it compares beyond
  `2^32`, or neither, or they are the same.
-/

namespace LibDtp

open Runs

/-- The event, with the readings of the clock shifted. -/
def RecvEvent.shift (δ : UInt32) : RecvEvent → RecvEvent
  | .stop => .stop
  | .timeout => .timeout
  | .packet p now hookNow => .packet p (now + δ) (hookNow + δ)

/-- The session, without the time at which the progress was last shown. -/
def Session.untimed (s : Session) : Session :=
  { s with hookCtx := s.hookCtx.map fun ctx => { ctx with lastPacketTs := 0 } }

/-- The second state is the first, shifted. -/
structure Shifted (δ : UInt32) (s t : RecvState) : Prop where
  /-- The session. -/
  session : t.session.untimed = s.session.untimed
  /-- Its files. -/
  disk : t.disk = s.disk
  /-- The metrics. -/
  metric : t.metric = s.metric
  /-- The packet before. -/
  prevPacketSeq : t.prevPacketSeq = s.prevPacketSeq
  /-- The idle time. -/
  idleMs : t.idleMs = s.idleMs
  /-- The current time. -/
  nowTsMs : t.nowTsMs = s.nowTsMs + δ
  /-- The deadline. -/
  expectedEotTsMs : t.expectedEotTsMs = s.expectedEotTsMs + δ
  /-- The time of the start. -/
  startTsMs : t.startTsMs = s.startTsMs + δ
  /-- The time of the last keep-alive. -/
  lastAlive : t.lastAlive = s.lastAlive + δ
  /-- The number of packets. -/
  nofPackets : t.nofPackets = s.nofPackets
  /-- The result. -/
  done : t.done = s.done
  /-- What has been done. -/
  log : t.log = s.log

/-- Where the loop test decides, the shift takes both of the moments it compares beyond `2^32`, or
neither, or they are the same. -/
def RecvState.SameSide (δ : UInt32) (s : RecvState) : Prop :=
  s.done = none → s.nofPackets < s.metric.nofPackets → s.session.active = true →
    ((s.nowTsMs + s.idleMs).toNat + δ.toNat < 2 ^ 32 ↔ s.expectedEotTsMs.toNat + δ.toNat < 2 ^ 32) ∨
      s.nowTsMs + s.idleMs = s.expectedEotTsMs

instance (δ : UInt32) (s : RecvState) : Decidable (s.SameSide δ) :=
  inferInstanceAs (Decidable (_ → _ → _ → _))

/-- What is seen of `start_receiving_data` after some events: the packets it has accepted and the
keep-alives it has sent, and what it returns if its loop is over. -/
def observeReceiving (E : ErrorTest) (s : Session) (d : Disk) (bind : Bool) (now : UInt32)
    (es : List RecvEvent) :
    Except Fault (List RecvObs × Option DtpResult) :=
  if bind then do
    let t := run RecvState.step (← enterReceive E s d now) es
    return (t.log, t.result)
  else .ok ([], some .err)

/-! ### Times -/

theorem shift_sub_shift (a b δ : UInt32) : (a + δ) - (b + δ) = a - b := by
  grind

/-- A comparison of two moments is not changed by a shift exactly if both pass `2^32`, or neither
does, or they are the same. -/
theorem shift_lt_shift_iff (a b δ : UInt32) : ((a + δ < b + δ) ↔ a < b) ↔
    (a.toNat + δ.toNat < 2 ^ 32 ↔ b.toNat + δ.toNat < 2 ^ 32) ∨ a = b := by
  have ha := a.toNat_lt
  have hb := b.toNat_lt
  have hδ := δ.toNat_lt
  rw [UInt32.lt_iff_toNat_lt, UInt32.lt_iff_toNat_lt, UInt32.toNat_add, UInt32.toNat_add,
    ← UInt32.toNat_inj]
  omega

/-! ### The session -/

/-- Two sessions that differ in nothing but the time of the display. -/
theorem untimed_eq_iff {s t : Session} :
    t.untimed = s.untimed ↔ ∃ ctx, t = { s with hookCtx := ctx } ∧
    ctx.map (fun c => (c.segments, c.receivedSegments)) = s.hookCtx.map fun c =>
      (c.segments, c.receivedSegments) := by
  constructor
  · intro h
    refine ⟨t.hookCtx, ?_, ?_⟩
    · obtain ⟨⟩ := s
      obtain ⟨⟩ := t
      simp only [Session.untimed, Session.mk.injEq] at h ⊢
      tauto
    · have hctx := congrArg Session.hookCtx h
      simp only [Session.untimed] at hctx
      have hmap := congrArg (Option.map fun c : HookCtx => (c.segments, c.receivedSegments)) hctx
      simpa only [Option.map_map, Function.comp_def] using hmap
  · rintro ⟨ctx, rfl, hctx⟩
    cases ctx with
    | none =>
      cases hs : s.hookCtx with
      | none => simp [Session.untimed, hs]
      | some c => simp [hs] at hctx
    | some c' =>
      cases hs : s.hookCtx with
      | none => simp [hs] at hctx
      | some c =>
        simp only [hs, Option.map_some, Option.some.injEq, Prod.mk.injEq] at hctx
        simp [Session.untimed, hs, hctx]

/-- What `apm_on_data_packet` does to a session does not depend on the time, but for the display. -/
theorem untimed_apmOnDataPacket {s t : Session} (h : t.untimed = s.untimed) (d : Disk) (p : Packet)
    (now now' : UInt32) :
    (apmOnDataPacket t d p now').1.untimed = (apmOnDataPacket s d p now).1.untimed ∧
      (apmOnDataPacket t d p now').2 = (apmOnDataPacket s d p now).2 := by
  obtain ⟨ctx, rfl, hctx⟩ := untimed_eq_iff.mp h
  cases ctx with
  | none =>
    cases hs : s.hookCtx with
    | none =>
      simp only [apmOnDataPacket, hs]
      exact ⟨h, trivial⟩
    | some c => simp [hs] at hctx
  | some c' =>
    cases hs : s.hookCtx with
    | none => simp [hs] at hctx
    | some c =>
      simp only [hs, Option.map_some, Option.some.injEq, Prod.mk.injEq] at hctx
      simp [apmOnDataPacket, hs, Session.untimed, hctx]

theorem untimed_active {s t : Session} (h : t.untimed = s.untimed) (active : Bool) :
    Session.untimed { t with active := active } = Session.untimed { s with active := active } := by
  obtain ⟨ctx, rfl, hctx⟩ := untimed_eq_iff.mp h
  exact untimed_eq_iff.mpr ⟨ctx, rfl, hctx⟩

theorem untimed_bytesReceived {s t : Session} (h : t.untimed = s.untimed) (bytesReceived : UInt32) :
    Session.untimed { t with bytesReceived := bytesReceived } =
      Session.untimed { s with bytesReceived := bytesReceived } := by
  obtain ⟨ctx, rfl, hctx⟩ := untimed_eq_iff.mp h
  exact untimed_eq_iff.mpr ⟨ctx, rfl, hctx⟩

namespace Shifted

variable {δ : UInt32} {s t : RecvState}

theorem fields (h : Shifted δ s t) :
    t.session.request = s.session.request ∧ t.session.active = s.session.active ∧
    t.session.timeout = s.session.timeout ∧ t.session.bytesReceived = s.session.bytesReceived ∧
    t.session.payloadSize = s.session.payloadSize := by
  obtain ⟨ctx, hsession, -⟩ := untimed_eq_iff.mp h.session
  rw [hsession]
  exact ⟨rfl, rfl, rfl, rfl, rfl⟩

/-- The loop test comes out the same in both exactly where the shift takes its moments to the same
side. -/
theorem result_eq_iff (h : Shifted δ s t) : t.result = s.result ↔ s.SameSide δ := by
  obtain ⟨-, hactive, -, -, -⟩ := h.fields
  have hsum : t.nowTsMs + t.idleMs = s.nowTsMs + s.idleMs + δ := by
    rw [h.nowTsMs, h.idleMs]
    grind
  have hlt := shift_lt_shift_iff (s.nowTsMs + s.idleMs) s.expectedEotTsMs δ
  simp only [RecvState.result, RecvState.SameSide, h.done, hsum, h.expectedEotTsMs, h.nofPackets,
    h.metric, hactive]
  rw [← hlt]
  cases hdone : s.done with
  | some r => simp
  | none =>
    by_cases hmore : s.nofPackets < s.metric.nofPackets
    · cases hact : s.session.active with
      | false => simp
      | true =>
        simp only [hmore, and_true, if_true, true_implies]
        by_cases hs : s.nowTsMs + s.idleMs < s.expectedEotTsMs <;>
          by_cases ht : s.nowTsMs + s.idleMs + δ < s.expectedEotTsMs + δ <;> simp [hs, ht]
    · simp [hmore]

/-- The new deadline is shifted too: it is the start and a duration. -/
theorem adjustedEot (h : Shifted δ s t) (now n : UInt32) :
    t.adjustedEot (now + δ) n = s.adjustedEot now n + δ := by
  obtain ⟨hrequest, -, -, -, -⟩ := h.fields
  simp only [RecvState.adjustedEot, hrequest, h.metric, h.startTsMs, h.expectedEotTsMs,
    shift_sub_shift, add_sub_self]
  split_ifs
  · grind
  · rfl
  · rfl

/-- Keep-alives are sent by elapsed time. -/
theorem aliveDue (h : Shifted δ s t) (now : UInt32) : t.aliveDue (now + δ) = s.aliveDue now := by
  obtain ⟨hrequest, -, -, -, -⟩ := h.fields
  simp only [RecvState.aliveDue, hrequest, h.lastAlive, shift_sub_shift]

theorem onTimeout (h : Shifted δ s t) : Shifted δ s.onTimeout t.onTimeout := by
  obtain ⟨-, -, htimeout, -, -⟩ := h.fields
  have hidle : t.idleMs + t.metric.roundTimeMs = s.idleMs + s.metric.roundTimeMs := by
    rw [h.idleMs, h.metric]
  have hlong : t.idleMs + t.metric.roundTimeMs > t.session.timeout.toUInt32 * 1000 ↔
      s.idleMs + s.metric.roundTimeMs > s.session.timeout.toUInt32 * 1000 := by rw [hidle, htimeout]
  simp only [RecvState.onTimeout]
  by_cases hout : s.idleMs + s.metric.roundTimeMs > s.session.timeout.toUInt32 * 1000
  · rw [if_pos hout, if_pos (hlong.mpr hout)]
    exact { h with session := untimed_active h.session false, idleMs := hidle, done := rfl }
  · rw [if_neg hout, if_neg (hlong.not.mpr hout)]
    exact { h with idleMs := hidle }

theorem accept (h : Shifted δ s t) (p : Packet) (now hookNow : UInt32) :
    Shifted δ (s.accept p now hookNow) (t.accept p (now + δ) (hookNow + δ)) := by
  obtain ⟨hrequest, -, -, hbytes, -⟩ := h.fields
  obtain ⟨hsession, hdisk⟩ := untimed_apmOnDataPacket (untimed_bytesReceived h.session
    (s.session.bytesReceived.toUInt64 + (p.length.toUInt64 - 8)).toUInt32) s.disk p hookNow
      (hookNow + δ)
  have halive := h.aliveDue now
  constructor
  case session => simpa only [RecvState.accept, hbytes, h.disk] using hsession
  case disk => simpa only [RecvState.accept, hbytes, h.disk] using hdisk
  case metric => exact h.metric
  case prevPacketSeq => simp only [RecvState.accept, hrequest]
  case idleMs => rfl
  case nowTsMs => rfl
  case expectedEotTsMs =>
    simpa only [RecvState.accept, h.nofPackets] using h.adjustedEot now (s.nofPackets + 1)
  case startTsMs => exact h.startTsMs
  case lastAlive =>
    simp only [RecvState.accept, halive, h.lastAlive]
    split_ifs <;> rfl
  case nofPackets => simp only [RecvState.accept, h.nofPackets]
  case done => exact h.done
  case log => simp only [RecvState.accept, halive, h.log]

theorem afterPacket (h : Shifted δ s t) (seq : UInt32) :
    Shifted δ (s.afterPacket seq) (t.afterPacket seq) := by
  obtain ⟨-, -, -, hbytes, hsize⟩ := h.fields
  have hlast : seq ≥ t.metric.lastPacket ↔ seq ≥ s.metric.lastPacket := by rw [h.metric]
  simp only [RecvState.afterPacket]
  by_cases hseq : seq ≥ s.metric.lastPacket
  · rw [if_pos hseq, if_pos (hlast.mpr hseq)]
    exact { h with done := by simp only [hbytes, hsize] }
  · rw [if_neg hseq, if_neg (hlast.not.mpr hseq)]
    exact h

/-- One event, where the loop test comes out the same. -/
theorem step (h : Shifted δ s t) (hside : s.SameSide δ) (e : RecvEvent) :
    Shifted δ (s.step e) (t.step (e.shift δ)) := by
  obtain ⟨hrequest, -, -, -, -⟩ := h.fields
  simp only [RecvState.step, h.result_eq_iff.mpr hside]
  cases s.result with
  | some r => exact h
  | none =>
    cases e with
    | stop => exact { h with session := untimed_active h.session false }
    | timeout => exact h.onTimeout
    | packet p now hookNow =>
      have hrepeat : packetSeq t.session.request p = t.prevPacketSeq ↔
          packetSeq s.session.request p = s.prevPacketSeq := by
        rw [hrequest, h.prevPacketSeq]
      simp only [RecvEvent.shift, RecvState.onPacket]
      by_cases hseq : packetSeq s.session.request p = s.prevPacketSeq
      · rw [if_pos hseq, if_pos (hrepeat.mpr hseq)]
        exact { h with idleMs := rfl, nowTsMs := rfl }
      · rw [if_neg hseq, if_neg (hrepeat.not.mpr hseq), hrequest]
        exact (h.accept p now hookNow).afterPacket _

/-- The loop is entered shifted if the clock is. -/
theorem initial (δ : UInt32) (s : Session) (d : Disk) (metric : Metrics) (now : UInt32) :
    Shifted δ (.initial s d metric now) (.initial s d metric (now + δ)) := by
  constructor <;> try rfl
  simp only [RecvState.initial]
  grind

/-- Two runs do the same at every point exactly if the shift makes no difference to the loop test at
any. -/
theorem run_iff (h : Shifted δ s t) (es : List RecvEvent) :
    (∀ pre, pre <+: es → ((run RecvState.step t (pre.map (RecvEvent.shift δ))).log,
        (run RecvState.step t (pre.map (RecvEvent.shift δ))).result) =
      ((run RecvState.step s pre).log, (run RecvState.step s pre).result)) ↔
      ∀ pre, pre <+: es → (run RecvState.step s pre).SameSide δ := by
  refine @lockstep_iff _ _ _ _ _ _ (Shifted δ) (RecvEvent.shift δ) (RecvState.SameSide δ) ?_ _
    (fun u => (u.log, u.result)) ?_ h
  · intro s t e hside h
    exact h.step hside e
  · intro s t h
    rw [Prod.mk.injEq, h.result_eq_iff]
    exact and_iff_right h.log

end Shifted

/-- What `start_receiving_data` returns, with the files it has written left out, is what is seen of
it in the end. -/
theorem startReceivingData_eq_observe (E : ErrorTest) (s : Session) (d : Disk) (bind : Bool)
    (now : UInt32) (es : List RecvEvent) :
    (startReceivingData E s d bind now es).map (Option.map fun r => (r.log, r.result)) =
      (observeReceiving E s d bind now es).map fun o => o.2.map fun r => (o.1, r) := by
  cases bind with
  | false => rfl
  | true =>
    simp only [startReceivingData, observeReceiving, if_true]
    cases enterReceive E s d now with
    | error f => rfl
    | ok t =>
      simp only [bind, Except.bind, pure, Except.pure, Except.map, Option.map_map]
      rfl

/-- What is seen of a receiver does not depend on the origin of the clock exactly if, at every point
of the trace, the shift makes no difference to the loop test. -/
theorem shift_invariant_iff (E : ErrorTest) (s : Session) (d : Disk) (bind : Bool) (now δ : UInt32)
    (es : List RecvEvent) :
    (∀ pre, pre <+: es →
      observeReceiving E s d bind (now + δ) (pre.map (RecvEvent.shift δ)) =
        observeReceiving E s d bind now pre ∧
      (startReceivingData E s d bind (now + δ) (pre.map (RecvEvent.shift δ))).map
        (Option.map fun r => (r.log, r.result)) =
        (startReceivingData E s d bind now pre).map (Option.map fun r => (r.log, r.result))) ↔
      (bind = true → ∀ t, enterReceive E s d now = .ok t →
        ∀ pre, pre <+: es → (run RecvState.step t pre).SameSide δ) := by
  have hboth : ∀ pre : List RecvEvent,
      (observeReceiving E s d bind (now + δ)
        (pre.map (RecvEvent.shift δ)) = observeReceiving E s d bind now pre ∧
        (startReceivingData E s d bind (now + δ) (pre.map (RecvEvent.shift δ))).map
          (Option.map fun r => (r.log, r.result)) =
          (startReceivingData E s d bind now pre).map (Option.map fun r => (r.log, r.result))) ↔
      observeReceiving E s d bind (now + δ) (pre.map (RecvEvent.shift δ)) =
          observeReceiving E s d bind now pre := by
    intro pre
    rw [startReceivingData_eq_observe, startReceivingData_eq_observe]
    exact and_iff_left_of_imp fun h => by rw [h]
  simp only [hboth]
  cases bind with
  | false => simp [observeReceiving]
  | true =>
    simp only [observeReceiving, enterReceive, if_true, true_implies]
    cases computeDtpMetrics E (apmOnStart s d).1.request (apmOnStart s d).1.payloadSize with
    | error f => simp [bind, Except.bind]
    | ok metric =>
      have hiff := (Shifted.initial δ { (apmOnStart s d).1 with active := true }
        (apmOnStart s d).2 metric now).run_iff es
      simpa [bind, Except.bind, pure, Except.pure] using hiff

/-- The packets of a payload of ten bytes arrive a second later by the clock, and are accepted all
the same. -/
theorem shift_invariant_second :
    (observeReceiving .exact freshSession ⟨[], none⟩ true 0 (arrivals tenBytes [0, 1, 2])).map
        (fun o => (o.1.length, o.2)) = .ok (3, some .ok) ∧
      observeReceiving .exact freshSession ⟨[], none⟩ true (0 + 1000)
          ((arrivals tenBytes [0, 1, 2]).map (RecvEvent.shift 1000)) =
        observeReceiving .exact freshSession ⟨[], none⟩ true 0 (arrivals tenBytes [0, 1, 2]) := by
  refine ⟨by rfl, ((shift_invariant_iff .exact freshSession ⟨[], none⟩ true 0 1000
    (arrivals tenBytes [0, 1, 2])).mpr ?_
    _ List.prefix_rfl).1⟩
  intro _ t ht pre hpre
  obtain rfl : receiving = t := Except.ok.inj ht
  have hall : ∀ pre ∈ (arrivals tenBytes [0, 1, 2]).inits,
      (run RecvState.step receiving pre).SameSide 1000 := by
    decide +kernel
  exact hall pre ((List.mem_inits pre _).mpr hpre)

/-- A receiver that starts a millisecond before the clock comes round accepts nothing: its deadline
is past as soon as it is set. -/
theorem shift_invariant_wrapped :
    (startReceivingData .exact freshSession ⟨[], none⟩ true 0 (arrivals tenBytes [0, 1, 2])).map
        (Option.map fun r => (r.log.length, r.result)) = .ok (some (3, .ok)) ∧
      (startReceivingData .exact freshSession ⟨[], none⟩ true (0 + 0xFFFFFFFF)
        ((arrivals tenBytes [0, 1, 2]).map (RecvEvent.shift 0xFFFFFFFF))).map
        (Option.map fun r => (r.log.length, r.result)) = .ok (some (0, .cancelled)) ∧
      observeReceiving .exact freshSession ⟨[], none⟩ true (0 + 0xFFFFFFFF)
          ((arrivals tenBytes [0, 1, 2]).map (RecvEvent.shift 0xFFFFFFFF)) ≠
        observeReceiving .exact freshSession ⟨[], none⟩ true 0 (arrivals tenBytes [0, 1, 2]) := by
  refine ⟨by rfl, by rfl, fun h => ?_⟩
  have hcount :=
    congrArg (Except.map fun o : List RecvObs × Option DtpResult => (o.1.length, o.2)) h
  have hzero : (Except.ok (0, some .cancelled) : Except Fault (ℕ × Option DtpResult)) =
    .ok (3, some .ok) := hcount
  cases hzero

end LibDtp
