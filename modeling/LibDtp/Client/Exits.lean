import LibDtp.Client.Deadline
import LibDtp.Client.Stop

/-!
# The ways out of a transfer

`start_receiving_data` returns when `csp_bind` fails, and otherwise when its loop is over: when the
session is stopped or idle for too long, when the time is up, when all packets have been counted, or
when the last one has come. This module is about what each of them leaves behind: is the session
still active, and has `on_end` been called?

## What is proved

* `active_run_iff` — the session is no longer active after a run exactly if an event of it was a
  stop, or a timeout that was one too many.
* `closed_iff` — the session is closed in this sense exactly if `csp_bind` has succeeded and there
  was such an event: the other exits leave `active` set, and a failing `csp_bind` leaves out
  `on_end` as well.
-/

namespace LibDtp

open Runs

/-- A call of a hook of the session. -/
inductive HookCall where
  /-- `on_start`. -/
  | onStart
  /-- `on_data_packet`. -/
  | onDataPacket (p : Packet)
  /-- `on_end`. -/
  | onEnd
  deriving DecidableEq

/-- `start_receiving_data`, with the hooks it has called. -/
def receiveWithHooks (E : ErrorTest) (s : Session) (d : Disk) (bind : Bool) (now : UInt32)
    (es : List RecvEvent) :
    Except Fault (Option (Received × List HookCall)) :=
  if bind then do
    let t := run RecvState.step (← enterReceive E s d now) es
    return t.result.map fun r => (⟨apmOnEnd t.session, t.disk, r, t.log⟩,
      [.onStart] ++ (acceptedOf t.log).map .onDataPacket ++ [.onEnd])
  else
    let (s, d) := apmOnStart s d
    .ok (some (⟨{ s with active := true }, d, .err, []⟩, [.onStart]))

/-- It is `start_receiving_data`. -/
theorem receiveWithHooks_fst (E : ErrorTest) (s : Session) (d : Disk) (bind : Bool) (now : UInt32)
    (es : List RecvEvent) :
    (receiveWithHooks E s d bind now es).map (Option.map Prod.fst) =
      startReceivingData E s d bind now es := by
  cases bind with
  | false => rfl
  | true =>
    rw [receiveWithHooks, startReceivingData, if_pos rfl, if_pos rfl]
    cases enterReceive E s d now with
    | error f => rfl
    | ok t => exact congrArg Except.ok (Option.map_map ..)

/-- The session is closed: it is not active, and `on_end` has been called once after `on_start`. -/
structure Closed (rec : Received) (calls : List HookCall) : Prop where
  /-- It is not active. -/
  inactive : rec.session.active = false
  /-- `on_start` comes first. -/
  started : calls.head? = some .onStart
  /-- Then `on_end` is called once. -/
  ended : calls.tail.count .onEnd = 1

/-- The loop is running, and the event makes the session inactive: it is stopped, or has been idle
for too long. -/
def RecvState.deactivates (s : RecvState) (e : RecvEvent) : Bool :=
  s.result.isNone && match e with
    | .stop => true
    | .timeout => decide (s.idleMs + s.metric.roundTimeMs > s.session.timeout.toUInt32 * 1000)
    | .packet _ _ _ => false

theorem RecvState.active_step (s : RecvState) (e : RecvEvent) :
    (s.step e).session.active = false ↔ s.session.active = false ∨ s.deactivates e = true := by
  simp only [step, deactivates]
  cases hr : s.result with
  | some r => simp
  | none =>
    cases e with
    | stop => simp
    | timeout =>
      simp only [onTimeout]
      split_ifs with hidle
      · simp [hidle]
      · simp [hidle]
    | packet p now hookNow => simp [TransferState.active_onPacket]

/-- A session is inactive in the end if it was made so. -/
theorem active_run_iff (s : RecvState) (es : List RecvEvent) :
    (run RecvState.step s es).session.active = false ↔
    s.session.active = false ∨
      ¬ Along RecvState.step (fun s e => s.deactivates e = false) s es := by
  induction es generalizing s with
  | nil => simp [Along]
  | cons e es ih =>
    rw [run_cons, ih, RecvState.active_step, Along]
    cases s.deactivates e <;> simp

/-- The loop is entered with an active session. -/
theorem active_enterReceive {E : ErrorTest} {s : Session} {d : Disk} {now : UInt32} {t : RecvState}
    (h : enterReceive E s d now = .ok t) : t.session.active = true := by
  cases hm : computeDtpMetrics E s.request s.payloadSize with
  | error f =>
    simp only [enterReceive, apmOnStart, hm] at h
    cases h
  | ok m =>
    simp only [enterReceive, apmOnStart, hm] at h
    cases h
    rfl

theorem active_apmOnEnd (s : Session) : (apmOnEnd s).active = s.active := by
  simp only [apmOnEnd]
  split
  · rfl
  · split <;> rfl

/-- **When `start_receiving_data` leaves the session closed.** For every session and every trace
after which it has returned: exactly if `csp_bind` has succeeded and an event of the trace has
stopped the session, or found it idle for too long, while the loop was running. -/
theorem closed_iff {E : ErrorTest} {s : Session} {d : Disk} {bind : Bool} {now : UInt32}
    {es : List RecvEvent} {rec : Received} {calls : List HookCall}
    (h : receiveWithHooks E s d bind now es = .ok (some (rec, calls))) :
    Closed rec calls ↔ bind = true ∧ ∃ t, enterReceive E s d now = .ok t ∧
      ¬ Along RecvState.step (fun t e => t.deactivates e = false) t es := by
  cases bind with
  | false =>
    cases h
    refine iff_of_false (fun hclosed => ?_) (by simp)
    exact absurd hclosed.ended (by decide)
  | true =>
    rw [receiveWithHooks, if_pos rfl] at h
    cases henter : enterReceive E s d now with
    | error f =>
      rw [henter] at h
      cases h
    | ok t =>
      rw [henter] at h
      obtain ⟨r, -, hrec⟩ := Option.map_eq_some_iff.mp (Except.ok.inj h)
      obtain ⟨rfl, rfl⟩ := Prod.mk.inj hrec
      have hactive : (apmOnEnd (run RecvState.step t es).session).active = false ↔
          ¬ Along RecvState.step (fun t e => t.deactivates e = false) t es := by
        rw [active_apmOnEnd, active_run_iff, active_enterReceive henter]
        simp
      have hcount : ∀ ps : List Packet,
          (ps.map HookCall.onDataPacket ++ [HookCall.onEnd]).count HookCall.onEnd = 1 := by
        intro ps
        induction ps with
        | nil => rfl
        | cons p ps ih => simpa using ih
      constructor
      · intro hclosed
        exact ⟨rfl, t, rfl, hactive.mp hclosed.inactive⟩
      · rintro ⟨-, t', ht', halong⟩
        cases ht'
        exact ⟨hactive.mpr halong, rfl, hcount _⟩

/-- A session that waits for a second. -/
def impatientSession : Session := { freshSession with timeout := 1 }

/-- Two packets of three arrive, and then nothing for eleven rounds. -/
def fallsSilent : List RecvEvent := arrivals tenBytes [0, 1] ++ List.replicate 11 .timeout

/-- The session has been idle for too long. -/
theorem closed_idle : ∃ rec calls,
    receiveWithHooks .exact impatientSession ⟨[], none⟩ true 0 fallsSilent =
      .ok (some (rec, calls)) ∧
      calls.length = 4 ∧ rec.session.bytesReceived = 8 ∧ Closed rec calls := by
  obtain ⟨⟨rec, calls⟩, hrec, hcalls, hbytes⟩ :=
    returned_of_any (x := receiveWithHooks .exact impatientSession ⟨[], none⟩ true 0 fallsSilent)
      (P := fun r => r.2.length = 4 ∧ r.1.session.bytesReceived = 8) (by decide +kernel)
  refine ⟨rec, calls, hrec, hcalls, hbytes, (closed_iff hrec).mpr ⟨rfl, .initial
    { (apmOnStart impatientSession ⟨[], none⟩).1 with active := true } ⟨[], none⟩
      ⟨100, 25, 3, 2, 1000⟩ 0, by rfl, ?_⟩⟩
  decide +kernel

/-- The three packets of a payload arrive, the result is `DTP_OK`, and the session is active. -/
theorem closed_completed :
    ¬ ∀ (s : Session) (d : Disk) (bind : Bool) (now : UInt32) (es : List RecvEvent) (rec : Received)
      (calls : List HookCall), receiveWithHooks .exact s d bind now es = .ok (some (rec, calls)) →
        Closed rec calls := by
  intro h
  obtain ⟨⟨rec, calls⟩, hrec, hactive⟩ := returned_of_any
    (x := receiveWithHooks .exact freshSession ⟨[], none⟩ true 0 (arrivals tenBytes [0, 1, 2]))
    (P := fun r => r.1.result = .ok ∧ r.1.session.active = true) (by decide +kernel)
  have hinactive := (h _ _ _ _ _ rec calls hrec).inactive
  rw [hactive.2] at hinactive
  cases hinactive

end LibDtp
