import LibDtp.Foundation.Runs
import LibDtp.Server.Setup

/-!
# The VMEM server

The two parties of `dtp_vmem_server.c`: the request handler, which the VMEM server calls for every
request of a client, and the DTP VMEM server task, which takes start messages off a queue and serves
them one after the other. They share the queue and the global `server_transfer_ctx`.

## The model

`VmemServer` is what the two share and where the task is. An event is a request that is handled or
one step of the task, and a run is any sequence of events: the two parties are interleaved in every
possible way.

The task's steps are those between which a request makes a difference: a message is taken off the
queue, the context is set up from it, `keep_running` is set, `start_sending_data` is entered, each
of its steps, and `keep_running` is cleared at the end. The writes that set up the context are one
step, as the handler neither reads nor writes what they write. The context is the one of the send
machine, so that a request that clears `keep_running` is seen by the next test in
`dtp_server_poll_loop`.

The queue is that of a library the repository uses: first in, first out. Whether
`message_queue_send` finds room is an answer of the world, as are the clock, the success of
`csp_buffer_get` and what the stack holds.
-/

namespace LibDtp

open Bytes

/-- Where the server task is. -/
inductive Task where
  /-- Waiting for a message. -/
  | waiting
  /-- A message has been received. -/
  | received (msg : DtpMsg)
  /-- The context is set up, and `keep_running` is about to be set. -/
  | configured
  /-- `keep_running` is set, and `start_sending_data` about to be called. -/
  | armed
  /-- In `start_sending_data`, or right after it. -/
  | sending
  /-- In what C leaves undefined. -/
  | crashed (f : Fault)
  deriving DecidableEq

/-- The state of the VMEM server. -/
structure VmemServer where
  /-- `session_id` of the `dtp_vmem_context_t`. -/
  sessionId : UInt32
  /-- The queue. -/
  queue : List DtpMsg
  /-- The server task. -/
  task : Task
  /-- The send machine with the shared `server_transfer_ctx`, and the log of all transfers. -/
  send : SendState

/-- A `dtp_vmem_request_t`, without its VMEM header. -/
structure VmemRequest where
  /-- The type. -/
  type : UInt8
  /-- What follows. -/
  body : List UInt8

/-- `DTP_REQUEST_START_TRANSFER`. -/
def dtpRequestStartTransfer : UInt8 := 0x00

/-- `DTP_REQUEST_STOP_TRANSFER`. -/
def dtpRequestStopTransfer : UInt8 := 0x01

/-- `DTP_REQUEST_TRANSFER_STATUS`. -/
def dtpRequestTransferStatus : UInt8 := 0x02

/-- `DTP_REQUEST_TRANSFER_ALIVE`. -/
def dtpRequestTransferAlive : UInt8 := 0x03

/-- `DTP_TRANSFER_STATUS_OK`. -/
def dtpTransferStatusOk : UInt32 := 0

/-- `DTP_TRANSFER_STATUS_BUSY`. -/
def dtpTransferStatusBusy : UInt32 := 1

/-- `dtp_status_resp_t`. -/
structure StatusResp where
  /-- The session. -/
  sessionId : UInt32
  /-- The status. -/
  status : UInt32
  deriving DecidableEq, Repr

/-- What the world contributes when a request is handled. -/
structure HandlerEnv where
  /-- `packet->id.dst`. -/
  dst : UInt16
  /-- `csp_conn_src`. -/
  src : UInt16
  /-- What the uninitialised intervals of `msg` hold. -/
  stack : Vector Interval 8
  /-- `csp_get_ms`. -/
  now : UInt32
  /-- Does the queue take the message? -/
  queued : Bool
  /-- Does `csp_buffer_get` return a packet? -/
  buffer : Bool

/-- What can happen next. -/
inductive Event where
  /-- A request is handled. -/
  | request (env : HandlerEnv) (r : VmemRequest)
  /-- The server task takes a step. -/
  | task (t : Tick)

namespace VmemServer

/-- `server_transfer_ctx.keep_running`. -/
def keepRunning (s : VmemServer) : Bool := s.send.ctx.keepRunning

/-- The packets of all transfers so far. -/
def sent (s : VmemServer) : List Packet := s.send.sent

/-- `server_transfer_ctx = ctx`. -/
def withCtx (s : VmemServer) (ctx : ServerTransferCtx) : VmemServer :=
  { s with send := { s.send with ctx := ctx } }

@[simp] theorem sessionId_withCtx (s : VmemServer) (ctx : ServerTransferCtx) :
    (s.withCtx ctx).sessionId = s.sessionId := rfl

@[simp] theorem queue_withCtx (s : VmemServer) (ctx : ServerTransferCtx) :
    (s.withCtx ctx).queue = s.queue := rfl

@[simp] theorem task_withCtx (s : VmemServer) (ctx : ServerTransferCtx) :
    (s.withCtx ctx).task = s.task := rfl

@[simp] theorem ctx_withCtx (s : VmemServer) (ctx : ServerTransferCtx) :
    (s.withCtx ctx).send.ctx = ctx := rfl

/-- The case `DTP_REQUEST_START_TRANSFER`. -/
def handleStart (host : ByteOrder) (s : VmemServer) (env : HandlerEnv) (body : List UInt8) :
    VmemServer :=
  match startMsg host env.stack env.dst env.src body with
  | .error f => { s with task := .crashed f }
  | .ok msg =>
    { s.withCtx { s.send.ctx with clientAliveTs := env.now } with
      sessionId := msg.metaReq.sessionId
      queue := if env.queued then s.queue ++ [msg] else s.queue }

/-- The case `DTP_REQUEST_STOP_TRANSFER`. The session it names is only printed. -/
def handleStop (s : VmemServer) : VmemServer :=
  { s.withCtx { s.send.ctx with keepRunning := false } with sessionId := 0 }

/-- The response of the case `DTP_REQUEST_TRANSFER_STATUS`. -/
def statusResponse (host : ByteOrder) (s : VmemServer) : StatusResp where
  sessionId := host.htobe32 s.sessionId
  status := host.htobe32 (if s.keepRunning then dtpTransferStatusBusy else dtpTransferStatusOk)

/-- The case `DTP_REQUEST_TRANSFER_ALIVE`. -/
def handleAlive (s : VmemServer) (env : HandlerEnv) : VmemServer :=
  if s.keepRunning then s.withCtx { s.send.ctx with clientAliveTs := env.now } else s

/-- `vmem_dtp_request_handler`, with the response it sends. -/
def vmemDtpRequestHandler (host : ByteOrder) (s : VmemServer) (env : HandlerEnv) (r : VmemRequest) :
    VmemServer × Option StatusResp :=
  if r.type = dtpRequestStartTransfer then (s.handleStart host env r.body, none)
  else if r.type = dtpRequestStopTransfer then (s.handleStop, none)
  else if r.type = dtpRequestTransferStatus then (s, if env.buffer then some (s.statusResponse host)
    else none)
  else if r.type = dtpRequestTransferAlive then (s.handleAlive env, none)
  else (s, none)

/-- One step of `dtp_vmem_server_run`. -/
def taskStep (E : ErrorTest) (s : VmemServer) (t : Tick) : VmemServer :=
  match s.task with
  | .waiting =>
    match s.queue with
    | [] => s
    | msg :: queue => { s with queue := queue, task := .received msg }
  | .received msg =>
    match setupVmemTransfer s.send.ctx msg with
    | .error f => { s with task := .crashed f }
    | .ok ctx => { s.withCtx ctx with task := .configured }
  | .configured => { s.withCtx { s.send.ctx with keepRunning := true } with task := .armed }
  | .armed => { s with
    send := { startSendingData E s.send.ctx t.now with log := s.send.log }, task := .sending }
  | .sending =>
    match s.send.pc with
    | .finished => { s.withCtx { s.send.ctx with keepRunning := false } with task := .waiting }
    | .fault f => { s with task := .crashed f }
    | .interval _ | .poll _ _ => { s with send := s.send.step t }
  | .crashed _ => s

/-- One step of the system. Nothing happens after a crash. -/
def step (E : ErrorTest) (host : ByteOrder) (s : VmemServer) (e : Event) : VmemServer :=
  match s.task with
  | .crashed _ => s
  | _ =>
    match e with
    | .request env r => (s.vmemDtpRequestHandler host env r).1
    | .task t => s.taskStep E t

/-- The system before the first request: both `static` structures are zero. -/
def init : VmemServer where
  sessionId := 0
  queue := []
  task := .waiting
  send := { pc := .finished
            ctx := ⟨0, 0, 0, false, ⟨0, 0, 0, 0, 0, 0, Vector.replicate 8 ⟨0, 0⟩⟩, 0, 0⟩
            transfer := ⟨0, 0, 0, 0, 0⟩
            log := [] }

end VmemServer

end LibDtp
