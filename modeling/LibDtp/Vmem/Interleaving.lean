import LibDtp.Vmem.Server

/-!
# Requests against a running transfer

What can be said of the VMEM server whatever the order in which requests and the task's steps come.

A start message that has been accepted is *pending* until the task sets `keep_running` for it. What
goes wrong goes wrong there: a stop request clears a flag that the task then sets again, and a
request changes the session the handler reports while another one is pending or running.

## What is proved

* `moves_step` — everything a step can do.
* `stop_silences` — a stop request that finds nothing pending is the end of it: no packet is sent
  before the next start request.
* `foreign_stop_iff` — a stop request leaves a transfer alone only if the transfer has been stopped
  already.
* `status_truthful` — a server that is busy reports the session it is busy with, as long as no start
  request comes while another session is pending or running, and no stop request while a session is
  pending.
-/

namespace LibDtp

open Bytes Runs

/-! ### What a step can do -/

namespace SendState

/-- Every step leaves the session of the request alone, never sets `keep_running`, and sends nothing
if it is not set. -/
theorem step_stopped (s : SendState) (t : Tick) :
    (s.step t).ctx.request.sessionId = s.ctx.request.sessionId ∧
      (s.ctx.keepRunning = false → (s.step t).ctx.keepRunning = false ∧
        (s.step t).sent = s.sent) := by
  obtain ⟨request, gone, hsession, -, hctx⟩ := s.ctx_step t
  rw [hctx]
  refine ⟨hsession, fun hstopped => ⟨by simp [hstopped], ?_⟩⟩
  cases hpc : s.pc with
  | interval i =>
    simp only [step, hpc, intervalStep, hstopped, Bool.false_eq_true, and_false, if_false]
    rfl
  | poll i c => simp only [step, hpc, pollStep, hstopped, Bool.false_eq_true, and_false, if_false,
    sent_endRound]
  | finished => simp only [step, hpc]
  | fault f => simp only [step, hpc]

end SendState

theorem ctx_startSendingData (E : ErrorTest) (ctx : ServerTransferCtx) (now : UInt32) :
    (startSendingData E ctx now).ctx.request = ctx.request ∧
      (startSendingData E ctx now).ctx.keepRunning = ctx.keepRunning := by
  unfold startSendingData
  cases computeDtpMetrics E ctx.request ctx.payloadSize <;> exact ⟨rfl, rfl⟩

theorem setupVmemTransfer_ctx {ctx ctx' : ServerTransferCtx} {msg : DtpMsg}
    (h : setupVmemTransfer ctx msg = .ok ctx') :
    ctx'.request = msg.metaReq ∧ ctx'.keepRunning = ctx.keepRunning := by
  unfold setupVmemTransfer at h
  cases hsize :
      computeTransferSize { ctx with request := msg.metaReq, payloadSize := msg.size } with
  | error f =>
    simp only [hsize] at h
    cases h
  | ok size =>
    simp only [hsize] at h
    cases h
    exact ⟨rfl, rfl⟩

/-- A start request is handled. -/
def Event.IsStart (e : Event) : Prop := ∃ env body, e = .request env ⟨dtpRequestStartTransfer, body⟩

/-- A stop request is handled. -/
def Event.IsStop (e : Event) : Prop := ∃ env body, e = .request env ⟨dtpRequestStopTransfer, body⟩

namespace VmemServer

/-- The sessions that have been accepted, and for which `keep_running` is still to be set. -/
def pending (s : VmemServer) : List UInt32 :=
  s.queue.map (·.metaReq.sessionId) ++
    match s.task with
    | .received msg => [msg.metaReq.sessionId]
    | .configured => [s.send.ctx.request.sessionId]
    | _ => []

/-- Everything a step can do. -/
inductive Moves (E : ErrorTest) (host : ByteOrder) (s : VmemServer) :
    Event → VmemServer → Prop where
  /-- Nothing. -/
  | idle (e : Event) : Moves E host s e s
  /-- The step runs into what C leaves undefined. -/
  | crash (e : Event) (f : Fault) : Moves E host s e { s with task := .crashed f }
  /-- A start request is accepted. -/
  | start (env : HandlerEnv) (body : List UInt8) (msg : DtpMsg)
      (hmsg : msg.metaReq.sessionId = startSessionId host body) :
      Moves E host s (.request env ⟨dtpRequestStartTransfer, body⟩)
        { s.withCtx { s.send.ctx with clientAliveTs := env.now } with
          sessionId := msg.metaReq.sessionId
          queue := if env.queued then s.queue ++ [msg] else s.queue }
  /-- A stop request is handled. -/
  | stop (env : HandlerEnv) (body : List UInt8) :
      Moves E host s (.request env ⟨dtpRequestStopTransfer, body⟩) s.handleStop
  /-- The client is alive. -/
  | alive (env : HandlerEnv) (r : VmemRequest) :
      Moves E host s (.request env r) (s.withCtx { s.send.ctx with clientAliveTs := env.now })
  /-- A message is received. -/
  | dequeue (t : Tick) (msg : DtpMsg) (queue : List DtpMsg) (htask : s.task = .waiting)
      (hqueue : s.queue = msg :: queue) :
      Moves E host s (.task t) { s with queue := queue, task := .received msg }
  /-- The context is set up. -/
  | setup (t : Tick) (msg : DtpMsg) (ctx : ServerTransferCtx) (htask : s.task = .received msg)
      (hreq : ctx.request = msg.metaReq) (hrun : ctx.keepRunning = s.send.ctx.keepRunning) :
      Moves E host s (.task t) { s.withCtx ctx with task := .configured }
  /-- `keep_running` is set. -/
  | arm (t : Tick) (htask : s.task = .configured) :
      Moves E host s (.task t)
        { s.withCtx { s.send.ctx with keepRunning := true } with task := .armed }
  /-- `start_sending_data` is entered. -/
  | enter (t : Tick) (htask : s.task = .armed) :
      Moves E host s (.task t) { s with
        send := { startSendingData E s.send.ctx t.now with log := s.send.log }, task := .sending }
  /-- It takes a step. -/
  | send (t : Tick) (htask : s.task = .sending) :
    Moves E host s (.task t) { s with send := s.send.step t }
  /-- It is over. -/
  | finish (t : Tick) (htask : s.task = .sending) :
      Moves E host s (.task t)
        { s.withCtx { s.send.ctx with keepRunning := false } with task := .waiting }

theorem moves_handler (E : ErrorTest) (host : ByteOrder) (s : VmemServer) (env : HandlerEnv)
    (r : VmemRequest) :
    Moves E host s (.request env r) (s.vmemDtpRequestHandler host env r).1 := by
  obtain ⟨type, body⟩ := r
  unfold vmemDtpRequestHandler
  split_ifs with h0 h1
  · obtain rfl : type = dtpRequestStartTransfer := h0
    simp only [handleStart]
    cases hmsg : startMsg host env.stack env.dst env.src body with
    | error f => exact .crash _ f
    | ok msg => exact .start env body msg (sessionId_of_startMsg hmsg)
  · obtain rfl : type = dtpRequestStopTransfer := h1
    exact .stop env body
  · exact .idle _
  · exact .idle _
  · simp only [handleAlive]
    split_ifs
    · exact .alive env _
    · exact .idle _
  · exact .idle _

theorem moves_task (E : ErrorTest) (host : ByteOrder) (s : VmemServer) (t : Tick) :
    Moves E host s (.task t) (s.taskStep E t) := by
  unfold taskStep
  cases htask : s.task with
  | waiting =>
    cases hqueue : s.queue with
    | nil => exact .idle _
    | cons msg queue => exact .dequeue t msg queue htask hqueue
  | received msg =>
    cases hctx : setupVmemTransfer s.send.ctx msg with
    | error f => simpa only [hctx] using .crash _ f
    | ok ctx =>
      obtain ⟨hreq, hrun⟩ := setupVmemTransfer_ctx hctx
      simpa only [hctx] using .setup t msg ctx htask hreq hrun
  | configured => exact .arm t htask
  | armed => exact .enter t htask
  | sending =>
    have hsend : Moves E host s (.task t) { s with send := s.send.step t } := .send t htask
    rw [htask] at hsend
    cases s.send.pc with
    | finished => exact .finish t htask
    | fault f => exact .crash _ f
    | interval i => exact hsend
    | poll i c => exact hsend
  | crashed f => exact .idle _

/-- The inversion of a step. -/
theorem moves_step (E : ErrorTest) (host : ByteOrder) (s : VmemServer) (e : Event) :
    Moves E host s e (s.step E host e) := by
  unfold step
  split
  · exact .idle e
  · cases e with
    | request env r => exact moves_handler E host s env r
    | task t => exact moves_task E host s t

/-! ### Stopping -/

/-- Nothing can be sent before the next start request. -/
def Quiet (s : VmemServer) : Prop :=
  (∃ f, s.task = .crashed f) ∨ s.keepRunning = false ∧ s.pending = []

theorem quiet_step {E : ErrorTest} {host : ByteOrder} {s : VmemServer} (h : s.Quiet) {e : Event}
    (he : ¬ e.IsStart) :
    (s.step E host e).Quiet ∧ (s.step E host e).sent = s.sent := by
  obtain ⟨f, hf⟩ | ⟨hrun, hpending⟩ := h
  · have hstep : s.step E host e = s := by simp [step, hf]
    rw [hstep]
    exact ⟨Or.inl ⟨f, hf⟩, rfl⟩
  obtain ⟨hqueue, htask⟩ := List.append_eq_nil_iff.mp hpending
  have hmoves := moves_step E host s e
  generalize s.step E host e = s' at hmoves ⊢
  cases hmoves with
  | idle => exact ⟨Or.inr ⟨hrun, hpending⟩, rfl⟩
  | crash _ f => exact ⟨Or.inl ⟨f, rfl⟩, rfl⟩
  | start env body msg => exact absurd ⟨env, body, rfl⟩ he
  | stop => exact ⟨Or.inr ⟨rfl, hpending⟩, rfl⟩
  | alive => exact ⟨Or.inr ⟨hrun, hpending⟩, rfl⟩
  | dequeue t msg queue _ hq => simp [hq] at hqueue
  | setup t msg ctx ht => simp [ht] at htask
  | arm t ht => simp [ht] at htask
  | enter t ht =>
    refine ⟨Or.inr ⟨(ctx_startSendingData E _ _).2.trans hrun, ?_⟩, rfl⟩
    simpa [pending] using hqueue
  | send t ht =>
    obtain ⟨-, hstep⟩ := s.send.step_stopped t
    refine ⟨Or.inr ⟨(hstep hrun).1, ?_⟩, (hstep hrun).2⟩
    simpa [pending, ht] using hqueue
  | finish t ht =>
    refine ⟨Or.inr ⟨rfl, ?_⟩, rfl⟩
    simpa [pending] using hqueue

theorem quiet_run {E : ErrorTest} {host : ByteOrder} {s : VmemServer} (h : s.Quiet)
    {es : List Event} (hes : ∀ e ∈ es, ¬ e.IsStart) : (run (step E host) s es).sent = s.sent := by
  induction es generalizing s with
  | nil => rfl
  | cons e es ih =>
    obtain ⟨hquiet, hsent⟩ := quiet_step (E := E) h (hes e (List.mem_cons_self ..))
    exact (ih hquiet fun e' he' => hes e' (List.mem_cons_of_mem _ he')).trans hsent

/-- A stop request that finds nothing pending makes the system quiet. -/
theorem quiet_of_stop (E : ErrorTest) (host : ByteOrder) {s : VmemServer} {e : Event}
    (he : e.IsStop) (hpending : s.pending = []) :
    (s.step E host e).Quiet ∧ (s.step E host e).sent = s.sent := by
  obtain ⟨env, body, rfl⟩ := he
  rw [step]
  split
  · exact ⟨Or.inl ⟨_, ‹_›⟩, rfl⟩
  · exact ⟨Or.inr ⟨rfl, hpending⟩, rfl⟩

end VmemServer

open VmemServer

/-- Whatever the order of requests and steps: after a stop request that is handled while no session
is pending nothing is sent before the next start request. -/
theorem stop_silences (E : ErrorTest) (host : ByteOrder) (pre post : List Event) (e : Event)
    (he : e.IsStop) (hpost : ∀ e' ∈ post, ¬ e'.IsStart)
    (hpending : (run (step E host) init pre).pending = []) :
    (run (step E host) init (pre ++ e :: post)).sent = (run (step E host) init pre).sent := by
  obtain ⟨hquiet, hsent⟩ := quiet_of_stop E host he hpending
  rw [run_append, run_cons, quiet_run hquiet hpost, hsent]

/-- A server with nothing in its way. -/
def calmEnv : HandlerEnv := ⟨0, 0, Vector.replicate 8 ⟨0, 0⟩, 0, true, true⟩

/-- A start request for eight bytes in chunks of four, with 1000 bytes a second. -/
def startEight (session : UInt8) : Event :=
  .request calmEnv
    ⟨dtpRequestStartTransfer, [0, 0, 0, session] ++ List.replicate 8 0 ++ [0, 0, 0, 8] ++
    [0, 0, 3, 0xE8, 1, 0, 0, 0, 0, 0, 0, session, 0, 12, 0, 0] ++
      [0, 0, 0, 0, 0xFF, 0xFF, 0xFF, 0xFF] ++
    List.replicate 56 0⟩

/-- A stop request. -/
def stopSession (session : UInt8) : Event :=
  .request calmEnv ⟨dtpRequestStopTransfer, [0, 0, 0, session]⟩

/-- Some steps of the task. -/
def taskSteps (n : ℕ) : List Event := List.replicate n (.task (.steady (List.replicate 8 7) 0))

theorem not_isStart_taskSteps {n : ℕ} : ∀ e ∈ taskSteps n, ¬ e.IsStart := by
  rintro e he ⟨env, body, rfl⟩
  cases List.eq_of_mem_replicate he

/-- Stopped after its first packet, a transfer sends no second one. -/
theorem stop_silences_running :
    (run (step .exact .little) init
      ((startEight 7 :: taskSteps 6) ++ stopSession 7 :: taskSteps 3)).sent =
      (run (step .exact .little) init (startEight 7 :: taskSteps 6)).sent ∧
    (run (step .exact .little) init (startEight 7 :: taskSteps 6)).sent.length = 1 :=
  ⟨stop_silences .exact .little _ _ _ ⟨_, _, rfl⟩ not_isStart_taskSteps
    (by decide +kernel), by decide +kernel⟩

/-- A stop request that comes before the task has taken the message off the queue is lost. -/
theorem stop_lost :
    ¬ ∀ (pre post : List Event) (e : Event), e.IsStop → (∀ e' ∈ post, ¬ e'.IsStart) →
    (run (step .exact .little) init (pre ++ e :: post)).sent =
      (run (step .exact .little) init pre).sent := by
  intro h
  have hsent := congrArg List.length
    (h [startEight 7] (taskSteps 6) (stopSession 7) ⟨_, _, rfl⟩ not_isStart_taskSteps)
  have hpackets : (run (step .exact .little) init
      ([startEight 7] ++ stopSession 7 :: taskSteps 6)).sent.length = 1 := by
    decide +kernel
  have hbefore : (run (step .exact .little) init [startEight 7]).sent.length = 0 := by
    decide +kernel
  omega

/-! ### Stopping another session -/

namespace VmemServer

/-- Two servers that differ at most in the session they report. -/
structure SameTransfers (s t : VmemServer) : Prop where
  /-- The same messages. -/
  queue : s.queue = t.queue
  /-- The same step comes next. -/
  task : s.task = t.task
  /-- The same transfer. -/
  send : s.send = t.send

theorem sameTransfers_request (host : ByteOrder) (id id' : UInt32) (queue : List DtpMsg)
    (task : Task) (send : SendState) (env : HandlerEnv) (r : VmemRequest) :
    SameTransfers (vmemDtpRequestHandler host ⟨id, queue, task, send⟩ env r).1
      (vmemDtpRequestHandler host ⟨id', queue, task, send⟩ env r).1 := by
  have hstart : SameTransfers (handleStart host ⟨id, queue, task, send⟩ env r.body)
      (handleStart host ⟨id', queue, task, send⟩ env r.body) := by
    simp only [handleStart]
    cases startMsg host env.stack env.dst env.src r.body <;> exact ⟨rfl, rfl, rfl⟩
  have halive : SameTransfers (handleAlive ⟨id, queue, task, send⟩ env)
      (handleAlive ⟨id', queue, task, send⟩ env) := by
    have hsame : keepRunning ⟨id', queue, task, send⟩ = keepRunning ⟨id, queue, task, send⟩ := rfl
    rw [handleAlive, handleAlive, hsame]
    split_ifs <;> exact ⟨rfl, rfl, rfl⟩
  simp only [vmemDtpRequestHandler]
  split_ifs
  · exact hstart
  · exact ⟨rfl, rfl, rfl⟩
  · exact ⟨rfl, rfl, rfl⟩
  · exact ⟨rfl, rfl, rfl⟩
  · exact halive
  · exact ⟨rfl, rfl, rfl⟩

theorem sameTransfers_task (E : ErrorTest) (id id' : UInt32) (queue : List DtpMsg) (task : Task)
    (send : SendState) (t : Tick) :
    SameTransfers (taskStep E ⟨id, queue, task, send⟩ t)
    (taskStep E ⟨id', queue, task, send⟩ t) := by
  cases task with
  | waiting => cases queue <;> exact ⟨rfl, rfl, rfl⟩
  | received msg =>
    simp only [taskStep, withCtx]
    cases setupVmemTransfer send.ctx msg <;> exact ⟨rfl, rfl, rfl⟩
  | configured => exact ⟨rfl, rfl, rfl⟩
  | armed => exact ⟨rfl, rfl, rfl⟩
  | sending =>
    simp only [taskStep, withCtx]
    cases send.pc <;> exact ⟨rfl, rfl, rfl⟩
  | crashed f => exact ⟨rfl, rfl, rfl⟩

/-- The session the handler reports has no effect on any transfer. -/
theorem SameTransfers.step {E : ErrorTest} {host : ByteOrder} {s t : VmemServer}
    (h : SameTransfers s t) (e : Event) :
    SameTransfers (s.step E host e) (t.step E host e) := by
  obtain ⟨id, queue, task, send⟩ := s
  obtain ⟨id', queue', task', send'⟩ := t
  obtain ⟨rfl, rfl, rfl⟩ : queue = queue' ∧ task = task' ∧ send = send' := ⟨h.queue, h.task, h.send⟩
  cases e with
  | request env r =>
    have hreq := sameTransfers_request host id id' queue task send env r
    cases task <;> first | exact hreq | exact h
  | task t =>
    have htask := sameTransfers_task E id id' queue task send t
    cases task <;> exact htask

end VmemServer

/-- In every reachable state in which a transfer is being sent, a stop request for another session
leaves its flag and its packets alone exactly if the flag has been cleared already. -/
theorem foreign_stop_iff (E : ErrorTest) (host : ByteOrder) (es : List Event) (env : HandlerEnv)
    (body : List UInt8)
    (htask : (run (step E host) init es).task = .armed ∨
      (run (step E host) init es).task = .sending)
    (_hforeign : stopSessionId host body ≠ (run (step E host) init es).send.ctx.request.sessionId) :
    ((run (step E host) init (es ++ [.request env ⟨dtpRequestStopTransfer, body⟩])).keepRunning =
        (run (step E host) init es).keepRunning ∧
      ∀ es', (run (step E host) init
        (es ++ .request env ⟨dtpRequestStopTransfer, body⟩ :: es')).sent =
        (run (step E host) init (es ++ es')).sent) ↔
          (run (step E host) init es).keepRunning = false := by
  simp only [run_append, run_cons, run_nil]
  generalize run (step E host) init es = s at htask
  have hstep : s.step E host (.request env ⟨dtpRequestStopTransfer, body⟩) = s.handleStop := by
    unfold step
    rcases htask with htask | htask <;> rw [htask] <;> rfl
  rw [hstep]
  constructor
  · rintro ⟨hflag, -⟩
    exact hflag.symm
  · intro hflag
    refine ⟨hflag.symm, fun es' => ?_⟩
    have hsame : SameTransfers s.handleStop s := by
      obtain ⟨id, queue, task, ⟨pc, ctx, transfer, log⟩⟩ := s
      have hctx : ({ ctx with keepRunning := false } : ServerTransferCtx) = ctx := by
        rw [← show ctx.keepRunning = false from hflag]
      exact ⟨rfl, rfl, congrArg (SendState.mk pc · transfer log) hctx⟩
    have hrun : SameTransfers (run (step E host) s.handleStop es') (run (step E host) s es') :=
      simulation (fun _ _ e h => h.step e) hsame es'
    exact congrArg SendState.sent hrun.send

/-- A transfer that has been stopped is not affected by a stop request for another session. -/
theorem foreign_stop_stopped :
    (run (step .exact .little) init
      ((startEight 7 :: taskSteps 6 ++ [stopSession 7]) ++ [stopSession 9])).keepRunning =
        (run (step .exact .little) init
          (startEight 7 :: taskSteps 6 ++ [stopSession 7])).keepRunning ∧
      ∀ es', (run (step .exact .little) init
        ((startEight 7 :: taskSteps 6 ++ [stopSession 7]) ++ stopSession 9 :: es')).sent =
        (run (step .exact .little) init
          ((startEight 7 :: taskSteps 6 ++ [stopSession 7]) ++ es')).sent :=
  (foreign_stop_iff .exact .little (startEight 7 :: taskSteps 6 ++ [stopSession 7]) calmEnv
    [0, 0, 0, 9]
    (Or.inr (by decide +kernel)) (by decide +kernel)).mpr (by decide +kernel)

/-- A stop request for session 9 stops session 7 after the first of its two packets. -/
theorem foreign_stop_stops : ¬ ∀ (es : List Event) (env : HandlerEnv) (body : List UInt8),
    (run (step .exact .little) init es).task = .armed ∨
      (run (step .exact .little) init es).task = .sending →
    stopSessionId .little body ≠ (run (step .exact .little) init es).send.ctx.request.sessionId →
    (run (step .exact .little) init
      (es ++ [.request env ⟨dtpRequestStopTransfer, body⟩])).keepRunning =
        (run (step .exact .little) init es).keepRunning ∧
      ∀ es', (run (step .exact .little) init
        (es ++ .request env ⟨dtpRequestStopTransfer, body⟩ :: es')).sent =
        (run (step .exact .little) init (es ++ es')).sent := by
  intro h
  obtain ⟨-, hsent⟩ := h (startEight 7 :: taskSteps 6) calmEnv [0, 0, 0, 9]
    (Or.inr (by decide +kernel)) (by decide +kernel)
  have hlength := congrArg List.length (hsent (taskSteps 3))
  have hstopped : (run (step .exact .little) init
      (startEight 7 :: taskSteps 6 ++ stopSession 9 :: taskSteps 3)).sent.length = 1 := by
    decide +kernel
  have hall : (run (step .exact .little) init
      (startEight 7 :: taskSteps 6 ++ taskSteps 3)).sent.length = 2 := by
    decide +kernel
  exact absurd (hstopped.symm.trans (hlength.trans hall)) (by decide)

/-! ### Reporting the session -/

/-- The task has not come to `keep_running = true` yet. -/
def Task.isIdle : Task → Bool
  | .waiting | .received _ | .configured => true
  | .armed | .sending | .crashed _ => false

namespace VmemServer

/-- The handler reports the session that is running, and the one that every message still to be
served is for. -/
structure Consistent (s : VmemServer) : Prop where
  /-- Nothing is running before it has been started. -/
  idle : s.task.isIdle = true → s.keepRunning = false
  /-- What is running. -/
  current : s.keepRunning = true → s.send.ctx.request.sessionId = s.sessionId
  /-- What will be. -/
  pending : ∀ id ∈ s.pending, id = s.sessionId

/-- A start request comes only if what is running and what is pending is for the session it names,
and a stop request only if nothing is pending, other than for session `0`. -/
def Orderly (host : ByteOrder) (s : VmemServer) : Event → Prop
  | .request _ r =>
    (r.type = dtpRequestStartTransfer →
      (s.keepRunning = true → s.send.ctx.request.sessionId = startSessionId host r.body) ∧
        ∀ id ∈ s.pending, id = startSessionId host r.body) ∧
    (r.type = dtpRequestStopTransfer → ∀ id ∈ s.pending, id = 0)
  | .task _ => True

theorem consistent_init : Consistent init :=
  ⟨fun _ => rfl, fun h => (by cases h), fun id h => (by cases h)⟩

theorem Consistent.step {E : ErrorTest} {host : ByteOrder} {s : VmemServer} (h : Consistent s)
    {e : Event} (he : s.Orderly host e) : Consistent (s.step E host e) := by
  have hmoves := moves_step E host s e
  generalize s.step E host e = s' at hmoves ⊢
  cases hmoves with
  | idle => exact h
  | crash _ f =>
    refine ⟨fun hidle => (by cases hidle), h.current, fun id hid => h.pending id ?_⟩
    simp only [VmemServer.pending, List.append_nil] at hid
    exact List.mem_append_left _ hid
  | start env body msg hmsg =>
    obtain ⟨hcurrent, hpending⟩ := he.1 rfl
    refine ⟨h.idle, fun hrun => (hcurrent hrun).trans hmsg.symm, fun id hid => ?_⟩
    have hcases : id ∈ s.pending ∨ id = msg.metaReq.sessionId := by
      simp only [VmemServer.pending, task_withCtx, ctx_withCtx, List.mem_append] at hid ⊢
      cases hq : env.queued with
      | false =>
        rw [hq, if_neg (by decide)] at hid
        exact Or.inl hid
      | true =>
        rw [hq, if_pos rfl, List.map_append, List.mem_append, List.map_singleton,
          List.mem_singleton] at hid
        tauto
    rcases hcases with hid | rfl
    · exact (hpending id hid).trans hmsg.symm
    · rfl
  | stop env body => exact ⟨fun _ => rfl, fun hrun => (by cases hrun), he.2 rfl⟩
  | alive => exact ⟨h.idle, h.current, h.pending⟩
  | dequeue t msg queue htask hqueue =>
    refine ⟨fun _ => h.idle (by rw [htask]; rfl), h.current, fun id hid => h.pending id ?_⟩
    simp only [VmemServer.pending, htask, hqueue] at hid ⊢
    simp only [List.mem_append, List.map_cons, List.mem_cons] at hid ⊢
    tauto
  | setup t msg ctx htask hreq hrun =>
    have hstopped : s.keepRunning = false := h.idle (by rw [htask]; rfl)
    refine ⟨fun _ => hrun.trans hstopped, fun hr => ?_, fun id hid => h.pending id ?_⟩
    · rw [show ({ s.withCtx ctx with task := .configured } : VmemServer).keepRunning =
        ctx.keepRunning from rfl, hrun] at hr
      exact absurd (hstopped.symm.trans hr) (by decide)
    · simpa [VmemServer.pending, htask, hreq] using hid
  | arm t htask =>
    have hcurrent : s.send.ctx.request.sessionId = s.sessionId :=
      h.pending _ (by simp [VmemServer.pending, htask])
    refine ⟨fun hidle => (by cases hidle), fun _ => hcurrent, fun id hid => h.pending id ?_⟩
    simp only [VmemServer.pending, List.append_nil] at hid
    exact List.mem_append_left _ hid
  | enter t htask =>
    obtain ⟨hreq, hrun⟩ := ctx_startSendingData E s.send.ctx t.now
    refine ⟨fun hidle => (by cases hidle), fun hr => ?_, fun id hid => h.pending id ?_⟩
    · rw [hreq]
      exact h.current (hrun.symm.trans hr)
    · simpa [VmemServer.pending, htask] using hid
  | send t htask =>
    obtain ⟨hsession, hstopped⟩ := s.send.step_stopped t
    refine ⟨fun hidle => ?_, fun hr => ?_, fun id hid => h.pending id ?_⟩
    · rw [htask] at hidle
      cases hidle
    · rw [hsession]
      apply h.current
      by_contra hno
      have := (hstopped (Bool.not_eq_true _ ▸ hno)).1
      exact absurd (this.symm.trans hr) (by decide)
    · simpa [VmemServer.pending, htask] using hid
  | finish t htask =>
    refine ⟨fun _ => rfl, fun hr => (by cases hr), fun id hid => h.pending id ?_⟩
    simpa [VmemServer.pending, htask] using hid

end VmemServer

/-- What a status request is answered with. -/
theorem VmemServer.status_response (s : VmemServer) (host : ByteOrder) {env : HandlerEnv}
    (hbuffer : env.buffer = true) (body : List UInt8) :
    (s.vmemDtpRequestHandler host env ⟨dtpRequestTransferStatus, body⟩).2 =
      some (s.statusResponse host) := by
  simp [vmemDtpRequestHandler, dtpRequestTransferStatus, dtpRequestStartTransfer,
    dtpRequestStopTransfer, hbuffer]

/-- In every run of orderly requests, a status response that says that the server is busy names the
session that is being sent. -/
theorem status_truthful (E : ErrorTest) (host : ByteOrder) (es : List Event)
    (hes : Along (step E host) (Orderly host) init es) (env : HandlerEnv) (body : List UInt8)
    (resp : StatusResp)
    (hresp : ((run (step E host) init es).vmemDtpRequestHandler host env
      ⟨dtpRequestTransferStatus, body⟩).2 = some resp)
    (hbusy : host.be32toh resp.status = dtpTransferStatusBusy) :
    host.be32toh resp.sessionId = (run (step E host) init es).send.ctx.request.sessionId := by
  have hcons : Consistent (run (step E host) init es) :=
    hes.invariant (fun _ _ he h => h.step he) consistent_init
  generalize run (step E host) init es = s at hresp hcons ⊢
  cases hbuffer : env.buffer with
  | false => simp [vmemDtpRequestHandler, dtpRequestTransferStatus, dtpRequestStartTransfer,
    dtpRequestStopTransfer, hbuffer] at hresp
  | true =>
    obtain rfl : s.statusResponse host = resp :=
      Option.some.inj ((s.status_response host hbuffer body).symm.trans hresp)
    have hrun : s.keepRunning = true := by
      by_contra hno
      rw [statusResponse, if_neg hno, ByteOrder.be32toh_htobe32] at hbusy
      exact absurd hbusy (by decide)
    rw [statusResponse, ByteOrder.be32toh_htobe32]
    exact (hcons.current hrun).symm

/-- A server that is sending session 7 says so. -/
theorem status_truthful_seven : ByteOrder.little.be32toh
    ((run (step .exact .little) init (startEight 7 :: taskSteps 6)).statusResponse
      .little).sessionId = 7 := by
  have horderly :
      Along (step .exact .little) (Orderly .little) init (startEight 7 :: taskSteps 6) := by
    refine ⟨⟨fun _ => ⟨by decide +kernel, fun id hid => (by cases hid)⟩, fun _ id hid =>
      (by cases hid)⟩, along_of_forall ?_⟩
    intro e he s
    obtain rfl := List.eq_of_mem_replicate he
    trivial
  refine (status_truthful .exact .little _ horderly calmEnv
    [] _ (VmemServer.status_response _ _ rfl []) (by decide +kernel)).trans ?_
  decide +kernel

/-- A start request for session 9 makes a server that is sending session 7 say that it is busy with
session 9. -/
theorem status_untruthful :
    ¬ ∀ (es : List Event) (env : HandlerEnv) (body : List UInt8) (resp : StatusResp),
    ((run (step .exact .little) init es).vmemDtpRequestHandler .little env
      ⟨dtpRequestTransferStatus, body⟩).2 = some resp →
    ByteOrder.little.be32toh resp.status = dtpTransferStatusBusy →
    ByteOrder.little.be32toh resp.sessionId =
      (run (step .exact .little) init es).send.ctx.request.sessionId := by
  intro h
  have hsession := h (startEight 7 :: taskSteps 6 ++ [startEight 9]) calmEnv [] _
    (VmemServer.status_response _ _ rfl []) (by decide +kernel)
  have hreported : ByteOrder.little.be32toh
      ((run (step .exact .little) init
          (startEight 7 :: taskSteps 6 ++ [startEight 9])).statusResponse .little).sessionId =
              9 := by
    decide +kernel
  have hsent : (run (step .exact .little) init
      (startEight 7 :: taskSteps 6 ++ [startEight 9])).send.ctx.request.sessionId = 7 := by
    decide +kernel
  exact absurd (hreported.symm.trans (hsession.trans hsent)) (by decide)

end LibDtp
