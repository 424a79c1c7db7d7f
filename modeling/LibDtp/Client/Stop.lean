import LibDtp.Client.MetaFile

/-!
# Stopping a transfer

`dtp_stop_transfer`, called by another task while `dtp_start_transfer` is at work on a session.

## The model

`TransferState` is `dtp_start_transfer` at the points between which another task can come: before
each call that may wait, before and after the set-up of `start_receiving_data` sets `active`, at the
test of the receive loop, and in `csp_recvfrom`, which is where a stop finds a loop that has already
passed its test. What the packets do to the session is `RecvState.onPacket`, as in the loop that is
run in one go.

## What is proved

* `returned_of_startTransfer` — without a stop, the transfer returns what `startTransfer` does.
* `stop_obeyed` — a stop after which `active` is not set again is obeyed: at most one more packet is
  given to the hook, and the result is `DTP_OK` only if that packet was the last one missing.
* `early_stop_lost` — a stop before `active` is set makes no difference at all.
-/

namespace LibDtp

open Runs

/-- A point of `dtp_start_transfer` before the receive loop. -/
inductive TransferPhase where
  /-- Before `csp_connect`. -/
  | connecting
  /-- Before `send_remote_meta_req`. -/
  | requesting
  /-- Before `read_remote_meta_resp`. -/
  | awaiting
  /-- Before `session->active = true`. -/
  | settingUp
  /-- Before `csp_bind`. -/
  | binding
  deriving DecidableEq

/-- `dtp_start_transfer`, at some point. -/
inductive TransferState where
  /-- Before the receive loop. -/
  | before (phase : TransferPhase) (s : Session) (d : Disk)
  /-- At the test of the loop, or after a `break`. -/
  | testing (t : RecvState)
  /-- In `csp_recvfrom`. -/
  | receiving (t : RecvState)
  /-- It has returned. -/
  | returned (rec : Received)
  /-- In what C leaves undefined. -/
  | fault (f : Fault)

/-- What the world answers to a step. Each step looks at what it asks for. -/
structure Answer where
  /-- Does `csp_connect`, `csp_buffer_get` or `csp_bind` succeed? -/
  ok : Bool
  /-- What `csp_read` returns. -/
  response : Option MetaResp
  /-- What `csp_recvfrom` returns, with the clock in the hook. -/
  received : Option (Packet × UInt32)
  /-- `csp_get_ms`. -/
  now : UInt32

/-- What happens. -/
inductive TransferTurn where
  /-- The transfer takes a step. -/
  | step (a : Answer)
  /-- Another task calls `dtp_stop_transfer`. -/
  | stop (id : UInt32)

/-- `dtp_stop_transfer`, for a session that is in use. -/
def Session.stop (s : Session) (id : UInt32) : Session :=
  if id = 0 ∨ id = s.request.sessionId then { s with active := false } else s

namespace TransferState

/-- A step of `dtp_start_transfer`. -/
def advance (E : ErrorTest) (a : Answer) : TransferState → TransferState
  | .before .connecting s d =>
    if a.ok then .before .requesting s d
      else .returned ⟨{ s with errno := .connectionFailed }, d, .err, []⟩
  | .before .requesting s d => if a.ok then .before .awaiting s d else .returned ⟨s, d, .err, []⟩
  | .before .awaiting s d =>
    match a.response with
    | none => .returned ⟨{ s with errno := .connectionFailed }, d, .err, []⟩
    | some resp => .before .settingUp { s with payloadSize := resp.totalPayloadSize } d
  | .before .settingUp s d =>
    .before .binding { (apmOnStart s d).1 with active := true } (apmOnStart s d).2
  | .before .binding s d =>
    if a.ok then
      match computeDtpMetrics E s.request s.payloadSize with
      | .error f => .fault f
      | .ok metric => .testing (.initial s d metric a.now)
    else .returned ⟨s, d, .err, []⟩
  | .testing t =>
    match t.result with
    | some r => .returned ⟨apmOnEnd t.session, t.disk, r, t.log⟩
    | none => .receiving t
  | .receiving t =>
    match a.received with
    | none => .testing t.onTimeout
    | some (p, hookNow) => .testing (t.onPacket p a.now hookNow)
  | .returned rec => .returned rec
  | .fault f => .fault f

/-- `dtp_stop_transfer`. -/
def stop (id : UInt32) : TransferState → TransferState
  | .before phase s d => .before phase (s.stop id) d
  | .testing t => .testing { t with session := t.session.stop id }
  | .receiving t => .receiving { t with session := t.session.stop id }
  | .returned rec => .returned { rec with session := rec.session.stop id }
  | .fault f => .fault f

/-- A turn. -/
def turn (E : ErrorTest) (st : TransferState) : TransferTurn → TransferState
  | .step a => st.advance E a
  | .stop id => st.stop id

/-- What has been done so far. -/
def log : TransferState → List RecvObs
  | .before _ _ _ => []
  | .testing t => t.log
  | .receiving t => t.log
  | .returned rec => rec.log
  | .fault _ => []

/-- What has been returned. -/
def result : TransferState → Option DtpResult
  | .returned rec => some rec.result
  | _ => none

/-- The loop has not been left yet. -/
def Open : TransferState → Prop
  | .before _ _ _ => True
  | .testing t => t.done = none
  | .receiving t => t.done = none
  | .returned _ => False
  | .fault _ => False

instance : DecidablePred Open
  | .before _ _ _ => .isTrue trivial
  | .testing t => inferInstanceAs (Decidable (t.done = none))
  | .receiving t => inferInstanceAs (Decidable (t.done = none))
  | .returned _ => .isFalse id
  | .fault _ => .isFalse id

/-- The turn sets `active`. -/
def SetsActive : TransferState → TransferTurn → Prop
  | .before phase _ _, .step _ => phase = .settingUp
  | _, _ => False

instance : ∀ (st : TransferState) (e : TransferTurn), Decidable (st.SetsActive e)
  | .before phase _ _, .step _ => inferInstanceAs (Decidable (phase = .settingUp))
  | .before _ _ _, .stop _ => .isFalse id
  | .testing _, _ => .isFalse id
  | .receiving _, _ => .isFalse id
  | .returned _, _ => .isFalse id
  | .fault _, _ => .isFalse id

end TransferState

/-! ### Without a stop -/

/-- The step of the loop that takes an event. -/
def RecvEvent.answer : RecvEvent → Answer
  | .packet p now hookNow => ⟨true, none, some (p, hookNow), now⟩
  | _ => ⟨true, none, none, 0⟩

/-- The turns of the loop: a test before each event, and one after the last. -/
def loopTurns : List RecvEvent → List TransferTurn
  | [] => [.step (RecvEvent.answer .timeout)]
  | e :: es => .step e.answer :: .step e.answer :: loopTurns es

/-- The turns of a transfer that is left alone. -/
def transferTurns (env : TransferEnv) (es : List RecvEvent) : List TransferTurn :=
  [.step ⟨env.connect, none, none, 0⟩, .step ⟨env.buffer, none, none, 0⟩,
    .step ⟨true, env.response, none, 0⟩,
    .step ⟨true, none, none, 0⟩, .step ⟨env.bind, none, none, env.now⟩] ++ loopTurns es

namespace TransferState

/-- A transfer that has returned takes no more steps. -/
theorem run_loopTurns_returned (E : ErrorTest) (rec : Received) (es : List RecvEvent) :
    run (turn E) (.returned rec) (loopTurns es) = .returned rec := by
  induction es with
  | nil => rfl
  | cons e es ih => exact ih

/-- The loop, one test and one event at a time, is the loop in one go. -/
theorem run_loopTurns (E : ErrorTest) {t : RecvState} {es : List RecvEvent}
    (hes : ∀ e ∈ es, e ≠ .stop) {r : DtpResult} (hr : (run RecvState.step t es).result = some r) :
    run (turn E) (.testing t) (loopTurns es) =
      .returned ⟨apmOnEnd (run RecvState.step t es).session,
      (run RecvState.step t es).disk, r, (run RecvState.step t es).log⟩ := by
  induction es generalizing t with
  | nil =>
    rw [run_nil] at hr
    rw [loopTurns, run_cons, run_nil, turn, advance, hr]
    rfl
  | cons e es ih =>
    cases ht : t.result with
    | some r' =>
      rw [RecvState.run_of_result ht] at hr ⊢
      obtain rfl := Option.some.inj (ht.symm.trans hr)
      rw [loopTurns, run_cons, turn, advance, ht]
      exact run_loopTurns_returned E _ (e :: es).tail
    | none =>
      have htest : turn E (.testing t) (.step e.answer) = .receiving t := by rw [turn, advance, ht]
      have hrecv : turn E (.receiving t) (.step e.answer) = .testing (t.step e) := by
        cases e with
        | stop => exact absurd rfl (hes .stop (List.mem_cons_self ..))
        | timeout =>
          rw [RecvState.step, ht]
          rfl
        | packet p now hookNow =>
          rw [RecvState.step, ht]
          rfl
      rw [loopTurns, run_cons, run_cons, htest, hrecv]
      exact ih (fun e' he' => hes e' (List.mem_cons_of_mem _ he')) hr

/-- A transfer that is left alone returns what `startTransfer` does. -/
theorem returned_of_startTransfer {E : ErrorTest} {env : TransferEnv} {s : Session} {d : Disk}
    {es : List RecvEvent} (hes : ∀ e ∈ es, e ≠ .stop) {rec : Received}
    (h : startTransfer E env s d es = .ok (some rec)) :
    run (turn E) (.before .connecting s d) (transferTurns env es) = .returned rec := by
  simp only [startTransfer] at h
  rw [transferTurns, run_append]
  simp only [run_cons, run_nil, turn, advance]
  split_ifs at h with hconnect hbuffer
  · rw [if_pos hconnect]
    simp only [hbuffer, if_true]
    cases hresp : env.response with
    | none =>
      rw [hresp] at h
      obtain rfl := Option.some.inj (Except.ok.inj h)
      exact run_loopTurns_returned E _ es
    | some resp =>
      rw [hresp] at h
      dsimp only at h ⊢
      cases hbind : env.bind with
      | false =>
        rw [hbind] at h
        obtain rfl := Option.some.inj (Except.ok.inj h)
        exact run_loopTurns_returned E _ es
      | true =>
        rw [hbind] at h
        obtain ⟨m, r, hm, hr, rfl⟩ := startReceivingData_run h
        have hm' : computeDtpMetrics E
          (apmOnStart { s with payloadSize := resp.totalPayloadSize } d).1.request
            (apmOnStart { s with payloadSize := resp.totalPayloadSize } d).1.payloadSize = .ok m :=
              hm
        simp only [if_true, hm']
        exact run_loopTurns E hes hr
  · rw [if_pos hconnect]
    simp only [if_neg hbuffer]
    obtain rfl := Option.some.inj (Except.ok.inj h)
    exact run_loopTurns_returned E _ es
  · rw [if_neg hconnect]
    obtain rfl := Option.some.inj (Except.ok.inj h)
    exact run_loopTurns_returned E _ es

/-! ### After a stop -/

/-- The session of the transfer is the one with the request `r`. -/
def Asks (r : MetaReq) : TransferState → Prop
  | .before _ s _ => s.request = r
  | .testing t => t.session.request = r
  | .receiving t => t.session.request = r
  | .returned rec => rec.session.request = r
  | .fault _ => True

theorem request_stop (s : Session) (id : UInt32) : (s.stop id).request = s.request := by
  simp only [Session.stop]
  split_ifs <;> rfl

theorem active_stop {s : Session} {id : UInt32} (h : id = 0 ∨ id = s.request.sessionId) :
    (s.stop id).active = false := by
  rw [Session.stop, if_pos h]

/-- A session that is not active is not made so. -/
theorem active_stop_of_inactive {s : Session} (h : s.active = false) (id : UInt32) :
    (s.stop id).active = false := by
  simp only [Session.stop]
  split_ifs
  · rfl
  · exact h

theorem bytes_stop (s : Session) (id : UInt32) :
    (s.stop id).bytesReceived = s.bytesReceived ∧ (s.stop id).payloadSize = s.payloadSize := by
  simp only [Session.stop]
  split_ifs <;> exact ⟨rfl, rfl⟩

theorem session_onTimeout (t : RecvState) :
    ∃ active, t.onTimeout.session = { t.session with active := active } ∧
    (t.session.active = false → active = false) := by
  simp only [RecvState.onTimeout]
  split_ifs
  · exact ⟨false, rfl, fun _ => rfl⟩
  · exact ⟨t.session.active, rfl, id⟩

theorem request_onPacket (t : RecvState) (p : Packet) (now hookNow : UInt32) :
    (t.onPacket p now hookNow).session.request = t.session.request := by
  simp only [RecvState.onPacket]
  split_ifs
  · rfl
  · rw [RecvState.session_afterPacket, RecvState.request_accept]

theorem active_onPacket (t : RecvState) (p : Packet) (now hookNow : UInt32) :
    (t.onPacket p now hookNow).session.active = t.session.active := by
  simp only [RecvState.onPacket]
  split_ifs
  · rfl
  · rw [RecvState.session_afterPacket]
    simp only [RecvState.accept, apmOnDataPacket]
    split <;> rfl

/-- The request stays what it is. -/
theorem Asks.turn {E : ErrorTest} {r : MetaReq} {st : TransferState} (h : st.Asks r)
    (e : TransferTurn) :
    (st.turn E e).Asks r := by
  cases e with
  | stop id =>
    cases st with
    | before phase s d => exact (request_stop s id).trans h
    | testing t => exact (request_stop t.session id).trans h
    | receiving t => exact (request_stop t.session id).trans h
    | returned rec => exact (request_stop rec.session id).trans h
    | fault f => trivial
  | step a =>
    change (st.advance E a).Asks r
    cases st with
    | before phase s d =>
      cases phase with
      | connecting =>
        rw [advance]
        split_ifs <;> exact h
      | requesting =>
        rw [advance]
        split_ifs <;> exact h
      | awaiting =>
        rw [advance]
        cases a.response <;> exact h
      | settingUp => exact h
      | binding =>
        rw [advance]
        split_ifs
        · cases computeDtpMetrics E s.request s.payloadSize with
          | error f => trivial
          | ok m => exact h
        · exact h
    | testing t =>
      rw [advance]
      cases t.result with
      | none => exact h
      | some res => exact (apmOnEnd_fields t.session).1.trans h
    | receiving t =>
      rw [advance]
      cases a.received with
      | none =>
        obtain ⟨active, hsession, -⟩ := session_onTimeout t
        change t.onTimeout.session.request = r
        rw [hsession]
        exact h
      | some received => exact (request_onPacket t _ _ _).trans h
    | returned rec => exact h
    | fault f => trivial

/-- The transfer after a stop, which came when the hook had been given `n` packets. -/
def Stopped (n : ℕ) : TransferState → Prop
  | .before _ s _ => n = 0 ∧ s.active = false
  | .testing t => t.session.active = false ∧ ((acceptedOf t.log).length = n ∧ t.done ≠ some .ok ∨
      (acceptedOf t.log).length = n + 1 ∧
        (t.done = some .ok → t.session.bytesReceived = t.session.payloadSize))
  | .receiving t => t.session.active = false ∧ t.done = none ∧ (acceptedOf t.log).length = n
  | .returned rec => (acceptedOf rec.log).length = n ∧ rec.result ≠ .ok ∨
      (acceptedOf rec.log).length = n + 1 ∧
        (rec.result = .ok → rec.session.bytesReceived = rec.session.payloadSize)
  | .fault _ => True

/-- A loop that is stopped is over at its next test, with what it was left with, if it was left. -/
theorem result_of_inactive {t : RecvState} (h : t.session.active = false) :
    ∃ r, t.result = some r ∧ (r = .ok → t.done = some .ok) := by
  simp only [RecvState.result]
  cases hdone : t.done with
  | some r => exact ⟨r, rfl, fun h => by rw [h]⟩
  | none =>
    refine ⟨.cancelled, ?_, by simp⟩
    simp [h]

/-- A packet that is taken by a loop that is already stopped. -/
theorem stopped_onPacket {n : ℕ} {t : RecvState} (h : Stopped n (.receiving t)) (p : Packet)
    (now hookNow : UInt32) :
    Stopped n (.testing (t.onPacket p now hookNow)) := by
  obtain ⟨hactive, hdone, hlength⟩ := h
  refine ⟨(active_onPacket t p now hookNow).trans hactive, ?_⟩
  simp only [RecvState.onPacket]
  split_ifs with hseq
  · exact Or.inl ⟨hlength, by simp [hdone]⟩
  · right
    refine ⟨?_, fun hok => ?_⟩
    · rw [RecvState.log_afterPacket, RecvState.acceptedOf_accept, List.length_append, hlength,
        List.length_singleton]
    · rw [RecvState.session_afterPacket]
      simp only [RecvState.afterPacket] at hok
      split_ifs at hok with hlast hbytes
      · exact hbytes
      · cases hok
      · exact absurd ((show t.done = some .ok from hok).symm.trans hdone) (by simp)

/-- Another stop makes no difference. -/
theorem Stopped.stop {n : ℕ} {st : TransferState} (h : Stopped n st) (id : UInt32) :
    Stopped n (st.stop id) := by
  cases st with
  | before phase s d => exact ⟨h.1, active_stop_of_inactive h.2 id⟩
  | testing t =>
    refine ⟨active_stop_of_inactive h.1 id, ?_⟩
    rw [(bytes_stop t.session id).1, (bytes_stop t.session id).2]
    exact h.2
  | receiving t => exact ⟨active_stop_of_inactive h.1 id, h.2⟩
  | returned rec =>
    change _ ∨ _ ∧ (_ → (rec.session.stop id).bytesReceived = (rec.session.stop id).payloadSize)
    rw [(bytes_stop rec.session id).1, (bytes_stop rec.session id).2]
    exact h
  | fault f => trivial

/-- Up to the loop, nothing is accepted. -/
theorem Stopped.advance_before {E : ErrorTest} {n : ℕ} {phase : TransferPhase} {s : Session}
    {d : Disk} (h : Stopped n (.before phase s d)) (hphase : phase ≠ .settingUp) (a : Answer) :
    Stopped n (advance E a (.before phase s d)) := by
  obtain ⟨rfl, hactive⟩ := h
  have hreturned : ∀ s d, Stopped 0 (.returned ⟨s, d, .err, []⟩) := fun _ _ => Or.inl ⟨rfl, by simp⟩
  cases phase with
  | connecting =>
    rw [advance]
    split_ifs
    · exact ⟨rfl, hactive⟩
    · exact hreturned _ _
  | requesting =>
    rw [advance]
    split_ifs
    · exact ⟨rfl, hactive⟩
    · exact hreturned _ _
  | awaiting =>
    rw [advance]
    cases a.response with
    | none => exact hreturned _ _
    | some resp => exact ⟨rfl, hactive⟩
  | settingUp => exact absurd rfl hphase
  | binding =>
    rw [advance]
    split_ifs
    · cases computeDtpMetrics E s.request s.payloadSize with
      | error f => trivial
      | ok m => exact ⟨hactive, Or.inl ⟨rfl, by simp [RecvState.initial]⟩⟩
    · exact hreturned _ _

/-- What is kept up after a stop, as long as `active` is not set. -/
theorem Stopped.turn {E : ErrorTest} {n : ℕ} {st : TransferState} (h : Stopped n st)
    {e : TransferTurn} (he : ¬ st.SetsActive e) : Stopped n (st.turn E e) := by
  cases e with
  | stop id => exact h.stop id
  | step a =>
    change Stopped n (st.advance E a)
    cases st with
    | before phase s d =>
      refine h.advance_before ?_ a
      rintro rfl
      exact he rfl
    | testing t =>
      obtain ⟨r, hr, hok⟩ := result_of_inactive h.1
      obtain ⟨-, hsize, hbytes⟩ := apmOnEnd_fields t.session
      rw [advance, hr]
      rcases h.2 with ⟨hlength, hdone⟩ | ⟨hlength, hdone⟩
      · exact Or.inl ⟨hlength, fun h => hdone (hok h)⟩
      · refine Or.inr ⟨hlength, fun h => ?_⟩
        rw [hsize, hbytes]
        exact hdone (hok h)
    | receiving t =>
      rw [advance]
      cases a.received with
      | none =>
        obtain ⟨active, hsession, hinactive⟩ := session_onTimeout t
        refine ⟨by rw [hsession]; exact hinactive h.1, Or.inl ?_⟩
        simp only [RecvState.onTimeout]
        split_ifs
        · exact ⟨h.2.2, by simp⟩
        · exact ⟨h.2.2, by simp [h.2.1]⟩
      | some received => exact stopped_onPacket h _ _ _
    | returned rec => exact h
    | fault f => trivial

/-- A stop that finds the loop open. -/
theorem stopped_stop {st : TransferState} {r : MetaReq} (hasks : st.Asks r) (hopen : st.Open)
    {id : UInt32} (hid : id = 0 ∨ id = r.sessionId) :
    Stopped (acceptedOf st.log).length (st.stop id) := by
  cases st with
  | before phase s d =>
    obtain rfl := hasks
    exact ⟨rfl, active_stop hid⟩
  | testing t =>
    obtain rfl := hasks
    have hdone : t.done = none := hopen
    exact ⟨active_stop hid, Or.inl ⟨rfl, by simp [hdone]⟩⟩
  | receiving t =>
    obtain rfl := hasks
    exact ⟨active_stop hid, hopen, rfl⟩
  | returned rec => cases hopen
  | fault f => cases hopen

end TransferState

/-- A stop of the session that comes before the receive loop is left, and after which `active` is
not set again, is obeyed: from then on at most one packet is given to the hook, and the transfer
returns `DTP_OK` only if that packet has completed the payload. -/
theorem stop_obeyed (E : ErrorTest) (s : Session) (d : Disk) {es₁ es₂ : List TransferTurn}
    {id : UInt32} (hid : id = 0 ∨ id = s.request.sessionId) {st : TransferState}
    (hst : run (TransferState.turn E) (.before .connecting s d) es₁ = st) (hopen : st.Open)
    (hset : Along (TransferState.turn E) (fun st e => ¬ st.SetsActive e) (st.stop id) es₂) :
    (acceptedOf (run (TransferState.turn E) (st.stop id) es₂).log).length ≤
      (acceptedOf st.log).length + 1 ∧
    ∀ rec, run (TransferState.turn E) (st.stop id) es₂ = .returned rec → rec.result = .ok →
      (acceptedOf rec.log).length = (acceptedOf st.log).length + 1 ∧
        rec.session.bytesReceived = rec.session.payloadSize := by
  have hstart : (TransferState.before .connecting s d).Asks s.request := rfl
  have hasks : st.Asks s.request := by
    rw [← hst]
    exact invariant (fun _ e h => h.turn e) hstart es₁
  have hstopped : TransferState.Stopped (acceptedOf st.log).length
    (run (TransferState.turn E) (st.stop id) es₂) :=
    hset.invariant (fun _ _ he h => h.turn he) (TransferState.stopped_stop hasks hopen hid)
  generalize run (TransferState.turn E) (st.stop id) es₂ = st' at hstopped ⊢
  constructor
  · cases st' with
    | before phase s d => exact Nat.zero_le _
    | testing t =>
      rcases hstopped.2 with ⟨hlength, -⟩ | ⟨hlength, -⟩
      · exact hlength.le.trans (Nat.le_succ _)
      · exact hlength.le
    | receiving t => exact hstopped.2.2.le.trans (Nat.le_succ _)
    | returned rec =>
      rcases hstopped with ⟨hlength, -⟩ | ⟨hlength, -⟩
      · exact hlength.le.trans (Nat.le_succ _)
      · exact hlength.le
    | fault f => exact Nat.zero_le _
  · rintro rec rfl hok
    rcases hstopped with ⟨-, hne⟩ | ⟨hlength, hbytes⟩
    · exact absurd hok hne
    · exact ⟨hlength, hbytes hok⟩

/-- The turns of a transfer, up to the set-up. -/
def setUpTurns : List TransferTurn :=
  [.step ⟨true, none, none, 0⟩, .step ⟨true, none, none, 0⟩, .step ⟨true, some ⟨10, 10⟩, none, 0⟩,
    .step ⟨true, none, none, 0⟩, .step ⟨true, none, none, 0⟩]

/-- The first packet of three comes, and then the loop waits for the second. It is stopped there,
and takes no more than that packet. -/
theorem stop_obeyed_two : ∃ st,
    run (TransferState.turn .exact) (.before .connecting freshSession ⟨[], none⟩)
        (setUpTurns ++ (loopTurns (arrivals tenBytes [0, 1])).take 3) = st ∧
      st.Open ∧ (acceptedOf st.log).length = 1 ∧
      (acceptedOf (run (TransferState.turn .exact) (st.stop 0)
        ((loopTurns (arrivals tenBytes [0, 1])).drop 3)).log).length ≤ 2 := by
  have hopen : (run (TransferState.turn .exact) (.before .connecting freshSession ⟨[], none⟩)
      (setUpTurns ++ (loopTurns (arrivals tenBytes [0, 1])).take 3)).Open := by
    decide +kernel
  have hlength :
    (acceptedOf (run (TransferState.turn .exact) (.before .connecting freshSession ⟨[], none⟩)
      (setUpTurns ++ (loopTurns (arrivals tenBytes [0, 1])).take 3)).log).length = 1 := by
    decide +kernel
  have hset : Along (TransferState.turn .exact) (fun st e => ¬ st.SetsActive e)
      ((run (TransferState.turn .exact) (.before .connecting freshSession ⟨[], none⟩)
        (setUpTurns ++ (loopTurns (arrivals tenBytes [0, 1])).take 3)).stop 0)
      ((loopTurns (arrivals tenBytes [0, 1])).drop 3) :=
    ⟨by decide +kernel, by decide +kernel, trivial⟩
  have hobeyed := (stop_obeyed .exact freshSession ⟨[], none⟩ (Or.inl rfl) rfl hopen hset).1
  rw [hlength] at hobeyed
  exact ⟨_, rfl, hopen, hlength, hobeyed⟩

/-- A stop of all sessions while the transfer waits for the server's response. All three packets are
given to the hook, and the result is `DTP_OK`. -/
theorem stop_overwritten : ∃ es₁ es₂ rec,
    (run (TransferState.turn .exact) (.before .connecting freshSession ⟨[], none⟩) es₁).log = [] ∧
    run (TransferState.turn .exact) (.before .connecting freshSession ⟨[], none⟩)
    (es₁ ++ .stop 0 :: es₂) = .returned rec ∧
    rec.result = .ok ∧ (acceptedOf rec.log).length = 3 := by
  have hrun : (match run (TransferState.turn .exact) (.before .connecting freshSession ⟨[], none⟩)
      (setUpTurns.take 2 ++ .stop 0 :: (setUpTurns.drop 2 ++ loopTurns
          (arrivals tenBytes [0, 1, 2]))) with
      | .returned rec => decide (rec.result = .ok ∧ (acceptedOf rec.log).length = 3)
      | _ => false) = true := by
    decide +kernel
  split at hrun
  · rename_i rec hrec
    exact ⟨_, _, rec, rfl, hrec, of_decide_eq_true hrun⟩
  · cases hrun

/-! ### A stop that comes too early -/

namespace TransferState

/-- The two transfers differ only in an `active` that is still to be set, or is no longer looked at.
-/
inductive Alike : TransferState → TransferState → Prop where
  /-- They are the same. -/
  | same (st : TransferState) : Alike st st
  /-- It is still to be set. -/
  | early (phase : TransferPhase) (hphase : phase ≠ .binding) (s : Session) (active : Bool)
      (d : Disk) :
      Alike (.before phase { s with active := active } d) (.before phase s d)
  /-- It is no longer looked at. -/
  | late (rec : Received) (active : Bool) :
      Alike (.returned { rec with session := { rec.session with active := active } })
        (.returned rec)

theorem stop_active (s : Session) (active : Bool) (id : UInt32) :
    ∃ active', ({ s with active := active } : Session).stop id =
      { s.stop id with active := active' } := by
  simp only [Session.stop]
  split_ifs
  · exact ⟨false, rfl⟩
  · exact ⟨active, rfl⟩

theorem Alike.turn {E : ErrorTest} {st st' : TransferState} (h : Alike st st') (e : TransferTurn) :
    Alike (st.turn E e) (st'.turn E e) := by
  cases h with
  | same st => exact .same _
  | early phase hphase s active d =>
    cases e with
    | stop id =>
      obtain ⟨active', hstop⟩ := stop_active s active id
      change Alike (.before phase (Session.stop _ id) d) (.before phase (s.stop id) d)
      rw [hstop]
      exact .early phase hphase (s.stop id) active' d
    | step a =>
      change Alike (advance E a _) (advance E a _)
      cases phase with
      | connecting =>
        rw [advance, advance]
        split_ifs
        · exact .early .requesting (by simp) s active d
        · exact .late ⟨{ s with errno := .connectionFailed }, d, .err, []⟩ active
      | requesting =>
        rw [advance, advance]
        split_ifs
        · exact .early .awaiting (by simp) s active d
        · exact .late ⟨s, d, .err, []⟩ active
      | awaiting =>
        rw [advance, advance]
        cases a.response with
        | none => exact .late ⟨{ s with errno := .connectionFailed }, d, .err, []⟩ active
        | some resp =>
          exact .early .settingUp (by simp) { s with payloadSize := resp.totalPayloadSize } active d
      | settingUp => exact .same _
      | binding => exact absurd rfl hphase
  | late rec active =>
    cases e with
    | stop id =>
      obtain ⟨active', hstop⟩ := stop_active rec.session active id
      change Alike (.returned { rec with session := Session.stop _ id })
        (.returned { rec with session := rec.session.stop id })
      rw [hstop]
      exact .late { rec with session := rec.session.stop id } active'
    | step a => exact .late rec active

end TransferState

/-- A stop that comes before `active` is set is lost: whatever comes after it, the hook is called as
it would be without the stop, and the result is the same. -/
theorem early_stop_lost (E : ErrorTest) {phase : TransferPhase} (hphase : phase ≠ .binding)
    (s : Session) (d : Disk) (id : UInt32) (es : List TransferTurn) :
    (run (TransferState.turn E) (.before phase s d) (.stop id :: es)).log =
        (run (TransferState.turn E) (.before phase s d) es).log ∧
      (run (TransferState.turn E) (.before phase s d) (.stop id :: es)).result =
        (run (TransferState.turn E) (.before phase s d) es).result := by
  have hstop : TransferState.Alike (.before phase (s.stop id) d) (.before phase s d) := by
    simp only [Session.stop]
    split_ifs
    · exact .early phase hphase s false d
    · exact .same _
  have hturn : ∀ st st' e, TransferState.Alike st st' →
    TransferState.Alike (st.turn E e) (st'.turn E e) :=
    fun _ _ e h => h.turn e
  have hend := simulation hturn hstop es
  rw [run_cons]
  change (run (TransferState.turn E) (.before phase (s.stop id) d) es).log = _ ∧
    (run (TransferState.turn E) (.before phase (s.stop id) d) es).result = _
  generalize run (TransferState.turn E) (.before phase (s.stop id) d) es = st at hend ⊢
  generalize run (TransferState.turn E) (.before phase s d) es = st' at hend ⊢
  cases hend with
  | same => exact ⟨rfl, rfl⟩
  | early => exact ⟨rfl, rfl⟩
  | late => exact ⟨rfl, rfl⟩

end LibDtp
