import LibDtp.Client.MetaFile

/-!
# Foreign datagrams

`start_receiving_data` does not look at the session word of a datagram, nor at its length. Whatever
arrives at the port is taken for a packet of the session: it is counted, given to the hook, and may
be the last one.

## The model

Two traces of the socket are compared, of which the second has foreign datagrams that the first does
not have. The session's own events are the same in both, with the same readings of the clock.

## What is proved

* `foreign_unnoticed` — the two traces end in the same way if each foreign datagram is passed by:
  the loop is already over, or the datagram has the number of the packet before it and its time
  makes no difference. A datagram that is not passed by as a repetition is given to the hook.
-/

namespace LibDtp

open Runs

/-- The datagram does not belong to the session `id`: it has another session word, or no room for a
header. -/
def Packet.Foreign (id : UInt32) (p : Packet) : Prop := p.sessionId ≠ id ∨ p.length.toNat < 8

namespace RecvState

/-- The time of a repeated packet makes no difference: `idle_ms` and `now_ts_ms` already are what it
makes of them, or it comes before the end of the transfer, and the next thing to come of the
session's own is a datagram. -/
def Timely (s : RecvState) (own : List RecvEvent) (now : UInt32) : Prop :=
  s.idleMs = 0 ∧ s.nowTsMs = now ∨
    now < s.expectedEotTsMs ∧ ∃ p now' hookNow es, own = .packet p now' hookNow :: es

/-- A foreign datagram is passed by: the loop is over, or it repeats the number of the packet before
it. -/
def PassesBy (id : UInt32) (s : RecvState) (own : List RecvEvent) : RecvEvent → Prop
  | .packet p now _ => p.Foreign id ∧
      (s.result ≠ none ∨ packetSeq s.session.request p = s.prevPacketSeq ∧ s.Timely own now)
  | _ => False

/-- The two loops are in the same state, up to the time, which the next datagram will tell them. -/
def Alike (own : List RecvEvent) (t s : RecvState) : Prop :=
  t = s ∨ (t.result = none ∧ s.result = none ∧
    (∃ idle now, s = { t with idleMs := idle, nowTsMs := now }) ∧
    ∃ p now hookNow es, own = .packet p now hookNow :: es)

/-- A datagram tells them. -/
theorem onPacket_time (t : RecvState) (idle now' : UInt32) (p : Packet) (now hookNow : UInt32) :
    ({ t with idleMs := idle, nowTsMs := now' } : RecvState).onPacket p now hookNow =
      t.onPacket p now hookNow := rfl

theorem step_packet {s : RecvState} (h : s.result = none) (p : Packet) (now hookNow : UInt32) :
    s.step (.packet p now hookNow) = s.onPacket p now hookNow := by
  rw [step, h]

theorem step_of_result {s : RecvState} (h : s.result ≠ none) (e : RecvEvent) : s.step e = s := by
  simp only [step]
  cases hr : s.result with
  | none => exact absurd hr h
  | some r => rfl

theorem Alike.own {t s : RecvState} {e : RecvEvent} {es : List RecvEvent}
    (h : Alike (e :: es) t s) :
    Alike es (t.step e) (s.step e) := by
  rcases h with rfl | ⟨ht, hs, ⟨idle, now', rfl⟩, p, now, hookNow, es', heq⟩
  · exact Or.inl rfl
  · obtain ⟨rfl, -⟩ := List.cons.inj heq
    left
    rw [step_packet ht, step_packet hs]
    exact (onPacket_time t idle now' p now hookNow).symm

/-- A loop that goes on, and is told a time before the end of the transfer, goes on. -/
theorem result_time {s : RecvState} (h : s.result = none) {now : UInt32}
    (hnow : now < s.expectedEotTsMs) :
    ({ s with idleMs := 0, nowTsMs := now } : RecvState).result = none := by
  simp only [result] at h ⊢
  cases hdone : s.done with
  | some r =>
    rw [hdone] at h
    cases h
  | none =>
    rw [hdone] at h
    split_ifs at h with htest hactive
    simp only [UInt32.add_zero]
    rw [if_pos ⟨hnow, htest.2⟩, if_pos hactive]

theorem Alike.extra {id : UInt32} {t s : RecvState} {e : RecvEvent} {es : List RecvEvent}
    (he : PassesBy id s es e) (h : Alike es t s) : Alike es t (s.step e) := by
  cases e with
  | stop => cases he
  | timeout => cases he
  | packet p now hookNow =>
    by_cases hs : s.result = none
    · obtain ⟨-, hover | ⟨hseq, htimely⟩⟩ := he
      · exact absurd hs hover
      · have hstep : s.step (.packet p now hookNow) = { s with idleMs := 0, nowTsMs := now } := by
          rw [step_packet hs, onPacket, if_pos hseq]
        rw [hstep]
        rcases htimely with ⟨hidle, hnow⟩ | ⟨hnow, hnext⟩
        · have hsame : ({ s with idleMs := 0, nowTsMs := now } : RecvState) = s := by
            rw [← hidle, ← hnow]
          rwa [hsame]
        · right
          rcases h with rfl | ⟨ht, -, ⟨idle, now', rfl⟩, -⟩
          · exact ⟨hs, result_time hs hnow, ⟨0, now, rfl⟩, hnext⟩
          · exact ⟨ht, result_time hs hnow, ⟨0, now, rfl⟩, hnext⟩
    · rwa [step_of_result hs]

/-- Foreign datagrams that are passed by leave no trace. -/
theorem run_passedBy {id : UInt32} {s : RecvState} {es es' : List RecvEvent}
    (h : Inserted RecvState.step (PassesBy id) s es es') :
    run RecvState.step s es = run RecvState.step s es' := by
  have hend : Alike [] (run RecvState.step s es) (run RecvState.step s es') :=
    h.unwind (fun _ _ _ _ => Alike.own) (fun _ _ _ _ => Alike.extra) (Or.inl rfl)
  rcases hend with heq | ⟨-, -, -, p, now, hookNow, es, hnil⟩
  · exact heq
  · cases hnil

theorem mem_log_step {s : RecvState} {o : RecvObs} (h : o ∈ s.log) (e : RecvEvent) :
    o ∈ (s.step e).log := by
  have hmoves := s.moves_step e
  generalize s.step e = s' at hmoves ⊢
  cases hmoves with
  | ended => exact h
  | idle => exact h
  | repeated => exact h
  | accept p now hookNow =>
    rw [log_afterPacket]
    exact List.mem_append_left _ (List.mem_append_left _ h)

/-- What the loop has done stays done. -/
theorem mem_log_run {s : RecvState} {o : RecvObs} (h : o ∈ s.log) (es : List RecvEvent) :
    o ∈ (run RecvState.step s es).log := by
  induction es generalizing s with
  | nil => exact h
  | cons e es ih => exact ih (mem_log_step h e)

/-- A datagram that is not passed by is given to the hook. -/
theorem mem_log_of_running {s : RecvState} (h : s.result = none) {p : Packet}
    (hseq : packetSeq s.session.request p ≠ s.prevPacketSeq) (now hookNow : UInt32)
    (es : List RecvEvent) :
    .data p ∈ (run RecvState.step s (.packet p now hookNow :: es)).log := by
  rw [run_cons]
  apply mem_log_run
  rw [step_packet h, onPacket, if_neg hseq, log_afterPacket]
  exact List.mem_append_right _ (List.mem_singleton_self _)

end RecvState

/-- Foreign datagrams that are all passed by make no difference to `start_receiving_data`: it
returns the same, leaves the same session and files behind, and has made the same calls. One that
comes while the loop goes on, and does not repeat the number of the packet before it, does make a
difference: the hook gets it. -/
theorem foreign_unnoticed (E : ErrorTest) (s : Session) (d : Disk) (bind : Bool) (now : UInt32)
    {es es' : List RecvEvent}
    (h : ∀ t, enterReceive E s d now = .ok t →
      Inserted RecvState.step (RecvState.PassesBy s.request.sessionId) t es es') :
    startReceivingData E s d bind now es' = startReceivingData E s d bind now es ∧
    ∀ t es₁ p now' hookNow es₂ rec rec', enterReceive E s d now = .ok t →
      (run RecvState.step t es₁).result = none →
      packetSeq (run RecvState.step t es₁).session.request p ≠
        (run RecvState.step t es₁).prevPacketSeq → p ∉ packetsOf es →
      startReceivingData E s d true now es = .ok (some rec) →
      startReceivingData E s d true now (es₁ ++ .packet p now' hookNow :: es₂) = .ok (some rec') →
      acceptedOf rec'.log ≠ acceptedOf rec.log := by
  constructor
  · cases bind with
    | false => rfl
    | true =>
      cases ht : enterReceive E s d now with
      | error f =>
        rw [startReceivingData, startReceivingData, if_pos rfl, if_pos rfl, ht]
        rfl
      | ok t =>
        rw [startReceivingData, startReceivingData, if_pos rfl, if_pos rfl, ht]
        change Except.ok _ = Except.ok _
        rw [RecvState.run_passedBy (h t ht)]
  · intro t es₁ p now' hookNow es₂ rec rec' ht hrunning hseq hp hrec hrec' heq
    rw [startReceivingData, if_pos rfl, ht] at hrec'
    obtain ⟨r, -, rfl⟩ := Option.map_eq_some_iff.mp (Except.ok.inj hrec')
    have hdata := RecvState.mem_log_of_running hrunning hseq now' hookNow es₂
    rw [← run_append] at hdata
    have hmem : p ∈ acceptedOf (run RecvState.step t (es₁ ++ .packet p now' hookNow :: es₂)).log :=
      List.mem_filterMap.mpr ⟨_, hdata, rfl⟩
    change acceptedOf (run RecvState.step t (es₁ ++ .packet p now' hookNow :: es₂)).log = _ at heq
    obtain ⟨n, hn⟩ := (received_from hrec).accepted
    rw [heq, hn] at hmem
    exact hp (List.mem_of_mem_take ((dropRepeats_sublist ..).subset hmem))

/-- A datagram of session `7`, with two bytes of the payload at `offset`. -/
def lateDatagram (offset : UInt32) : Packet := ⟨offset, 7, 10, [1, 2]⟩

/-- Between the first and the second packet of three, another one with the number of the first
arrives, at the same time. -/
theorem foreign_unnoticed_repeated :
    startReceivingData .exact freshSession ⟨[], none⟩ true 0
        (arrivals tenBytes [0] ++ .packet (lateDatagram 0) 0 0 :: arrivals tenBytes [1, 2]) =
      startReceivingData .exact freshSession ⟨[], none⟩ true 0 (arrivals tenBytes [0, 1, 2]) := by
  refine (foreign_unnoticed .exact freshSession ⟨[], none⟩ true 0 fun t ht => ?_).1
  have hrun : (enterReceive .exact freshSession ⟨[], none⟩ 0).toOption.all (fun t =>
      (arrivals tenBytes [0]).all fun e =>
        decide (packetSeq (t.step e).session.request (lateDatagram 0) = (t.step e).prevPacketSeq ∧
        (t.step e).idleMs = 0 ∧ (t.step e).nowTsMs = 0)) = true := by
    decide +kernel
  rw [ht] at hrun
  obtain ⟨hseq, hidle, hnow⟩ :=
    of_decide_eq_true (List.all_eq_true.mp hrun _ (List.mem_singleton_self _))
  have hforeign : (lateDatagram 0).Foreign freshSession.request.sessionId := Or.inl (by decide)
  exact .own (.extra ⟨hforeign, Or.inr ⟨hseq, Or.inl ⟨hidle, hnow⟩⟩⟩ (.own (.own (.nil _))))

/-- The last packet of another session arrives before the three packets of this one: the loop is
left at once, after two bytes, and is to be resumed. -/
theorem foreign_noticed : ∃ es es' rec rec',
    (∀ t, Inserted RecvState.step (fun _ _ e => ∃ p now hookNow, e = .packet p now hookNow ∧
      p.Foreign freshSession.request.sessionId) t es es') ∧
    startReceivingData .exact freshSession ⟨[], none⟩ true 0 es = .ok (some rec) ∧
    startReceivingData .exact freshSession ⟨[], none⟩ true 0 es' = .ok (some rec') ∧
    (rec.result = .ok ∧ rec.session.bytesReceived = 10 ∧ (acceptedOf rec.log).length = 3) ∧
    rec'.result = .cancelled ∧ rec'.session.bytesReceived = 2 ∧
      acceptedOf rec'.log = [lateDatagram 8] := by
  obtain ⟨rec, hrec, hown⟩ := returned_of_any
    (x := startReceivingData .exact freshSession ⟨[], none⟩ true 0 (arrivals tenBytes [0, 1, 2]))
    (P := fun rec => rec.result = .ok ∧ rec.session.bytesReceived = 10 ∧
      (acceptedOf rec.log).length = 3) (by decide +kernel)
  obtain ⟨rec', hrec', hlate⟩ := returned_of_any
    (x := startReceivingData .exact freshSession ⟨[], none⟩ true 0
      (.packet (lateDatagram 8) 0 0 :: arrivals tenBytes [0, 1, 2]))
    (P := fun rec => rec.result = .cancelled ∧ rec.session.bytesReceived = 2 ∧
      acceptedOf rec.log = [lateDatagram 8])
    (by decide +kernel)
  refine ⟨_, _, rec, rec', fun t => ?_, hrec, hrec', hown, hlate⟩
  exact .extra ⟨_, _, _, rfl, Or.inl (by decide)⟩ (.own (.own (.own (.nil _))))

end LibDtp
