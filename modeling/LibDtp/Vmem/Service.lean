import LibDtp.Foundation.Service
import LibDtp.Vmem.Interleaving

/-!
# The VMEM server as a service

`dtp_vmem_server_run` with the memory it sends: whatever order requests and the task's steps come
in, the messages that the handler has accepted are served one after the other, and what is sent for
each is the memory it names.

## The model

`VmemSystem` is the VMEM server with the local variable `msg` of `dtp_vmem_server_run`, from which
`dtp_payload_vmem_read` takes the address. `vmem_read` belongs to a library the repository uses;
here it reads a memory that is a function from addresses and does not change. The `read` callback is
thereby no longer an answer of the world.

A message is `Servable` if its request is usable and its intervals fit in the memory area it names:
the server checks neither. The specification is `Service`: a message stands for its emission.

## What is proved

* `exists_represents` — every run of the server is one of the specification.
* `vmem_served_in_order` — what is sent is, message by message in the order in which they were
  accepted, the beginning of the emission of that message.
* `vmem_nothing_lost` — without stop requests and keep-alives, it is the beginning of all emissions
  one after the other.
-/

namespace LibDtp

open Bytes Chunks Runs Service

/-! ### The memory -/

/-- `vmem_read`: the bytes from an address on. -/
def vmemRead (mem : UInt64 → UInt8) (fromVaddr : UInt64) (size : UInt32) : List UInt8 :=
  (List.range size.toNat).map fun k : ℕ => mem (fromVaddr + UInt64.ofNat k)

/-- `dtp_payload_vmem_read`, by way of `async_vmem_read`. -/
def dtpPayloadVmemRead (mem : UInt64 → UInt8) (msg : DtpMsg) (offset size : UInt32) :
    ReadResult where
  count := size
  data := vmemRead mem (msg.vaddr + offset.toUInt64) size

/-- The memory area a message names. -/
def DtpMsg.payload (mem : UInt64 → UInt8) (msg : DtpMsg) : List UInt8 :=
  vmemRead mem msg.vaddr msg.size

/-- The packets a message stands for. -/
def DtpMsg.emission (mem : UInt64 → UInt8) (msg : DtpMsg) : List Packet :=
  LibDtp.emission (msg.payload mem) msg.metaReq

/-- A message that can be served: its request is usable, and the intervals fit. -/
structure DtpMsg.Servable (msg : DtpMsg) : Prop where
  /-- The server can serve the request. -/
  usable : msg.metaReq.Usable
  /-- The intervals fit in the memory area. -/
  fits : ∀ cur ∈ msg.metaReq.requested, cur.Fits msg.size.toNat msg.metaReq.eff

instance Interval.Fits.decidable (size eff : ℕ) (i : Interval) : Decidable (i.Fits size eff) :=
  decidable_of_iff (i.start.toNat * eff ≤ size ∧
    (i.stop = uint32Max ∨ i.start.toNat ≤ i.stop.toNat + 1 ∧ (i.stop.toNat + 1) * eff < 2 ^ 32))
    ⟨fun h => ⟨h.1, h.2⟩, fun h => ⟨h.1, h.2⟩⟩

theorem length_vmemRead (mem : UInt64 → UInt8) (fromVaddr : UInt64) (size : UInt32) :
    (vmemRead mem fromVaddr size).length = size.toNat := by
  simp [vmemRead]

theorem DtpMsg.length_payload (mem : UInt64 → UInt8) (msg : DtpMsg) :
    msg.size.toNat = (msg.payload mem).length :=
  (length_vmemRead ..).symm

/-- The `read` callback reads the memory area. -/
theorem reads_vmem (mem : UInt64 → UInt8) (msg : DtpMsg) (buffer : Bool) (now : UInt32) :
    (Tick.mk buffer (dtpPayloadVmemRead mem msg) now).Reads (msg.payload mem) := by
  refine ⟨fun _ _ => UInt32.le_refl _, fun offset size hle => ?_⟩
  rw [← msg.length_payload mem] at hle
  change (⟨size, vmemRead mem (msg.vaddr + offset.toUInt64) size⟩ : ReadResult) = _
  congr 1
  apply List.ext_getElem
  · rw [length_vmemRead, List.length_take, List.length_drop, ← msg.length_payload mem]
    omega
  · intro k hk _
    simp only [vmemRead, DtpMsg.payload, List.getElem_take, List.getElem_drop, List.getElem_map,
      List.getElem_range]
    congr 1
    rw [UInt64.add_assoc, UInt64.ofNat_add]
    congr 2
    rw [← UInt64.toNat_inj, UInt64.toNat_ofNat', UInt32.toNat_toUInt64]
    have := offset.toNat_lt
    omega

/-! ### The send machine in a longer log -/

namespace SendState

/-- The state, with a log that has begun before it. -/
def after (s : SendState) (base : List SendObs) : SendState := { s with log := base ++ s.log }

@[simp] theorem pc_after (s : SendState) (base : List SendObs) : (s.after base).pc = s.pc := rfl

@[simp] theorem ctx_after (s : SendState) (base : List SendObs) : (s.after base).ctx = s.ctx := rfl

@[simp] theorem transfer_after (s : SendState) (base : List SendObs) :
    (s.after base).transfer = s.transfer := rfl

@[simp] theorem log_after (s : SendState) (base : List SendObs) :
    (s.after base).log = base ++ s.log := rfl

theorem sent_after (s : SendState) (base : List SendObs) :
    (s.after base).sent = sentPackets base ++ s.sent :=
  sentPackets_append base s.log

theorem endRound_after (s : SendState) (base : List SendObs) (i : ℕ) :
    (s.after base).endRound i = (s.endRound i).after base := by
  by_cases h : s.transfer.sentInInterval < s.transfer.bytesInInterval ∧ s.ctx.keepRunning = true
  · have h' : (s.after base).transfer.sentInInterval < (s.after base).transfer.bytesInInterval ∧
        (s.after base).ctx.keepRunning = true := h
    rw [endRound, endRound, if_pos h, if_pos h']
    rfl
  · have h' : ¬ ((s.after base).transfer.sentInInterval < (s.after base).transfer.bytesInInterval ∧
        (s.after base).ctx.keepRunning = true) := h
    rw [endRound, endRound, if_neg h, if_neg h']
    rfl

theorem enter_after (s : SendState) (base : List SendObs) (i : ℕ) (request : MetaReq)
    (start rawStop stop : UInt32) :
    (s.after base).enter i request start rawStop stop =
      (s.enter i request start rawStop stop).after base := by
  simp only [enter, after, List.append_assoc]

theorem intervalStep_after (s : SendState) (base : List SendObs) (i : ℕ) :
    (s.after base).intervalStep i = (s.intervalStep i).after base := by
  simp only [intervalStep, ctx_after, enter_after]
  split
  · cases s.ctx.request.intervalAt i with
    | error f => rfl
    | ok cur =>
      simp only
      split
      · rfl
      · split <;> rfl
  · rfl

theorem sendPacket_after (s : SendState) (base : List SendObs) (i : ℕ) (c : UInt32) (r : ReadResult)
    (now : UInt32) :
    (s.after base).sendPacket i c r now = (s.sendPacket i c r now).after base := by
  change SendState.mk _ _ _ (base ++ s.log ++ _) = _
  rw [List.append_assoc]
  rfl

theorem pollStep_after (s : SendState) (base : List SendObs) (i : ℕ) (c : UInt32) (t : Tick) :
    (s.after base).pollStep i c t = (s.pollStep i c t).after base := by
  have hempty : endRound { s.after base with
    log := (s.after base).log ++ [.buffer, .read s.transfer.bytesSent s.nextSize] } i =
      (endRound { s with log := s.log ++ [.buffer, .read s.transfer.bytesSent s.nextSize] } i).after
          base := by
    rw [← endRound_after]
    simp only [after, List.append_assoc]
  have hsize : (s.after base).nextSize = s.nextSize := rfl
  simp only [pollStep, transfer_after, ctx_after, hsize]
  split
  · split
    · split
      · exact hempty
      · exact sendPacket_after s base i c _ _
    · exact endRound_after s base i
  · exact endRound_after s base i

/-- What has been done before makes no difference to a step. -/
theorem step_after (s : SendState) (base : List SendObs) (t : Tick) :
    (s.after base).step t = (s.step t).after base := by
  simp only [step, pc_after]
  cases s.pc with
  | interval i => exact intervalStep_after s base i
  | poll i c => exact pollStep_after s base i c t
  | finished => rfl
  | fault f => rfl

/-- Another task may stop a transfer, and note that the client is alive: the counters do not notice
it. -/
theorem Counted.setCtx {r : MetaReq} {size : UInt32} {s : SendState} (h : Counted r size s)
    {ctx : ServerTransferCtx} (hreq : ctx.request = s.ctx.request)
    (hsize : ctx.payloadSize = s.ctx.payloadSize) :
    Counted r size { s with ctx := ctx } := by
  obtain ⟨⟨hmtu, hsession, hnof, hpayload, hintervals⟩, hinside, hexact⟩ := h
  rw [← hreq] at hmtu hsession hnof hintervals
  exact ⟨⟨hmtu, hsession, hnof, hsize.trans hpayload, hintervals⟩, hinside, hexact⟩

/-- Nor do the packets. -/
theorem Emitting.setCtx {payload : List UInt8} {r : MetaReq} {s : SendState}
    (h : Emitting payload r s) {ctx : ServerTransferCtx}
    (hrunning : ctx.keepRunning = true → s.ctx.keepRunning = true) :
    Emitting payload r { s with ctx := ctx } :=
  ⟨h.isPrefix, fun i hpc hk => h.atInterval i hpc (hrunning hk), h.atPoll, fun hpc hk =>
    h.atEnd hpc (hrunning hk)⟩

end SendState

/-! ### The transfer of a message -/

/-- A message that can be served. If all is `calm`, it asks for no keep-alives. -/
structure DtpMsg.Fine (calm : Prop) (msg : DtpMsg) : Prop extends msg.Servable where
  /-- The client need not say that it is alive. -/
  keepAlive : calm → msg.metaReq.keepAliveInterval = 0

/-- The transfer of a message, as if it were the only one. -/
structure Transferring (mem : UInt64 → UInt8) (calm : Prop) (msg : DtpMsg) (own : SendState) :
    Prop where
  /-- The message. -/
  fine : msg.Fine calm
  /-- The counters. -/
  counted : SendState.Counted msg.metaReq msg.size own
  /-- The packets. -/
  emitting : SendState.Emitting (msg.payload mem) msg.metaReq own
  /-- There has been no fault. -/
  pc : ∀ f, own.pc ≠ .fault f
  /-- If all is calm it has not been stopped. -/
  running : calm → own.ctx.keepRunning = true ∧ own.ctx.request.keepAliveInterval = 0
  /-- The size of a round. -/
  perRound : 1 ≤ own.transfer.nofPacketsPerRound.toNat

section Transferring

variable {mem : UInt64 → UInt8} {calm : Prop} {msg : DtpMsg} {own : SendState}

theorem transferring_start (E : ErrorTest) (hfine : msg.Fine calm) {ctx : ServerTransferCtx}
    (hreq : ctx.request = msg.metaReq) (hsize : ctx.payloadSize = msg.size)
    (hrunning : calm → ctx.keepRunning = true) (now : UInt32) :
    Transferring mem calm msg (startSendingData E ctx now) ∧
      (startSendingData E ctx now).sent = [] := by
  have husable : ctx.request.Usable := by
    rw [hreq]
    exact hfine.usable
  obtain ⟨hcounted, hpc, hlog, hctx, hper⟩ := SendState.counted_start E husable now
  have hemitting := @SendState.emitting_start (msg.payload mem) E ctx husable now
  rw [hreq] at hcounted hemitting
  rw [hsize] at hcounted
  refine ⟨⟨hfine, hcounted, hemitting, fun f hf => ?_, fun hcalm => ?_, hper⟩, ?_⟩
  · rw [hpc] at hf
    cases hf
  · rw [hctx]
    exact ⟨hrunning hcalm, by rw [hreq]; exact hfine.keepAlive hcalm⟩
  · rw [SendState.sent, hlog]
    rfl

theorem Transferring.setCtx (h : Transferring mem calm msg own) {ctx : ServerTransferCtx}
    (hreq : ctx.request = own.ctx.request) (hsize : ctx.payloadSize = own.ctx.payloadSize)
    (hrunning : ctx.keepRunning = true → own.ctx.keepRunning = true)
    (hcalm : calm → ctx.keepRunning = own.ctx.keepRunning) :
    Transferring mem calm msg { own with ctx := ctx } :=
  ⟨h.fine, h.counted.setCtx hreq hsize, h.emitting.setCtx hrunning, h.pc, fun hc =>
    ⟨(hcalm hc).trans (h.running hc).1, by rw [← (h.running hc).2, ← hreq]⟩, h.perRound⟩

/-- A step of a transfer. -/
theorem Transferring.step (h : Transferring mem calm msg own) (buffer : Bool) (now : UInt32) :
    Transferring mem calm msg (own.step ⟨buffer, dtpPayloadVmemRead mem msg, now⟩) ∧
      ((own.step ⟨buffer, dtpPayloadVmemRead mem msg, now⟩).sent = own.sent ∨
        ∃ p, (own.step ⟨buffer, dtpPayloadVmemRead mem msg, now⟩).sent = own.sent ++ [p]) := by
  have hreads := reads_vmem mem msg buffer now
  have hcounted := h.counted.step h.fine.usable
    (fun _ _ _ hcur => h.fine.fits _ (List.mem_of_getElem? hcur)) hreads.1
  have hemitting := h.emitting.step h.fine.usable (msg.length_payload mem) h.counted hreads
  have hmoves :=
    SendState.moves_step h.fine.usable h.counted.serves ⟨buffer, dtpPayloadVmemRead mem msg, now⟩
  generalize own.step ⟨buffer, dtpPayloadVmemRead mem msg, now⟩ =
    own' at hmoves hcounted hemitting ⊢
  cases hmoves with
  | ended => exact ⟨h, Or.inl rfl⟩
  | finish => exact ⟨⟨h.fine, hcounted, hemitting, by simp, h.running, h.perRound⟩, Or.inl rfl⟩
  | @enter i cur request _ _ _ hreq =>
    refine ⟨⟨h.fine, hcounted, hemitting,
      by simp [SendState.enter], fun hcalm => ⟨(h.running hcalm).1, ?_⟩, h.perRound⟩,
      Or.inl (SendState.sent_enter ..)⟩
    change request.keepAliveInterval = 0
    rcases hreq with rfl | ⟨e, rfl⟩ <;> exact (h.running hcalm).2
  | @round i c =>
    refine ⟨⟨h.fine, hcounted, hemitting, fun f hf => ?_, fun hcalm => ?_, ?_⟩,
      Or.inl (SendState.sent_endRound own i)⟩
    · rcases own.pc_endRound i with hp | hp <;> rw [hp] at hf <;> cases hf
    · rw [SendState.ctx_endRound]
      exact h.running hcalm
    · rw [SendState.transfer_endRound]
      exact h.perRound
  | @empty i c =>
    refine ⟨⟨h.fine, hcounted, hemitting, fun f hf => ?_, fun hcalm => ?_, ?_⟩, Or.inl ?_⟩
    · rcases SendState.pc_endRound _ i with hp | hp <;> rw [hp] at hf <;> cases hf
    · rw [SendState.ctx_endRound]
      exact h.running hcalm
    · rw [SendState.transfer_endRound]
      exact h.perRound
    · rw [SendState.sent_endRound]
      simp [SendState.sent, sentPackets]
  | @send i c =>
    refine ⟨⟨h.fine, hcounted, hemitting,
      by simp [SendState.sendPacket], fun hcalm => ?_, h.perRound⟩,
      Or.inr ⟨_, SendState.sent_sendPacket ..⟩⟩
    obtain ⟨hk, halive⟩ := h.running hcalm
    have hgone : own.clientGone now = false := by simp [SendState.clientGone, halive]
    exact ⟨by simp [SendState.sendPacket, hk, hgone], halive⟩

end Transferring

/-! ### The system -/

/-- The VMEM server, with the local variable `msg` of `dtp_vmem_server_run`. -/
structure VmemSystem where
  /-- The handler and the task. -/
  server : VmemServer
  /-- The message that was received last. -/
  msg : DtpMsg

/-- What happens to the system. -/
inductive VmemEvent where
  /-- A request is handled. -/
  | request (env : HandlerEnv) (r : VmemRequest)
  /-- The task takes a step; `csp_buffer_get` and `csp_get_ms` are answered by the world. -/
  | task (buffer : Bool) (now : UInt32)

namespace VmemSystem

/-- One step. -/
def step (E : ErrorTest) (host : ByteOrder) (mem : UInt64 → UInt8) (s : VmemSystem) :
    VmemEvent → VmemSystem
  | .request env r => { s with server := s.server.step E host (.request env r) }
  | .task buffer now =>
    { server := s.server.step E host (.task ⟨buffer, dtpPayloadVmemRead mem s.msg, now⟩)
      msg := match s.server.task, s.server.queue with
        | .waiting, msg :: _ => msg
        | _, _ => s.msg }

/-- Before the first request; what the stack holds does not matter. -/
def init (msg : DtpMsg) : VmemSystem := ⟨VmemServer.init, msg⟩

/-- The packets of all transfers so far. -/
def sent (s : VmemSystem) : List Packet := s.server.sent

end VmemSystem

/-- The message that an event puts into the queue. -/
def VmemEvent.accepts (host : ByteOrder) : VmemEvent → Option DtpMsg
  | .request env r =>
    if r.type = dtpRequestStartTransfer ∧
      env.queued then (startMsg host env.stack env.dst env.src r.body).toOption else none
  | .task _ _ => none

/-- The messages that some events put into the queue. -/
def accepted (host : ByteOrder) (es : List VmemEvent) : List DtpMsg :=
  es.filterMap (VmemEvent.accepts host)

/-- The message of a start request can be served. If all is `calm` there are no stop requests. -/
def VmemEvent.Expected (host : ByteOrder) (calm : Prop) : VmemEvent → Prop
  | .request env r =>
    (r.type = dtpRequestStartTransfer →
      ∃ msg, startMsg host env.stack env.dst env.src r.body = .ok msg ∧ msg.Fine calm) ∧
      (calm → r.type ≠ dtpRequestStopTransfer)
  | .task _ _ => True

namespace VmemSystem

/-- What the task is at, when the messages in `begun` have been begun. -/
inductive Stage (mem : UInt64 → UInt8) (calm : Prop) (s : VmemSystem) :
    List (DtpMsg × List Packet) → Prop where
  /-- Waiting. -/
  | waiting (begun : List (DtpMsg × List Packet)) (htask : s.server.task = .waiting)
      (hdone : ∀ x ∈ begun.getLast?, calm → x.2 = x.1.emission mem) : Stage mem calm s begun
  /-- A message has been received. -/
  | received (begun : List (DtpMsg × List Packet)) (htask : s.server.task = .received s.msg)
      (hfine : s.msg.Fine calm) :
      Stage mem calm s (begun ++ [(s.msg, [])])
  /-- The context is set up. -/
  | configured (begun : List (DtpMsg × List Packet))
      (htask : s.server.task = .configured ∨ s.server.task = .armed ∧
        (calm → s.server.keepRunning = true))
      (hfine : s.msg.Fine calm) (hreq : s.server.send.ctx.request = s.msg.metaReq)
      (hsize : s.server.send.ctx.payloadSize = s.msg.size) :
        Stage mem calm s (begun ++ [(s.msg, [])])
  /-- The data is sent. -/
  | sending (begun : List (DtpMsg × List Packet)) (own : SendState) (base : List SendObs)
      (htask : s.server.task = .sending)
      (hsend : s.server.send = own.after base) (hown : Transferring mem calm s.msg own) :
      Stage mem calm s (begun ++ [(s.msg, own.sent)])

/-- The system is a state of the specification. -/
structure Represents (mem : UInt64 → UInt8) (calm : Prop) (s : VmemSystem)
    (a : State DtpMsg Packet) : Prop where
  /-- The queue. -/
  waiting : a.waiting = s.server.queue
  /-- What is in the queue can be served. -/
  fine : ∀ msg ∈ s.server.queue, msg.Fine calm
  /-- The packets. -/
  sent : s.sent = a.output
  /-- The task. -/
  stage : Stage mem calm s a.begun

variable {E : ErrorTest} {host : ByteOrder} {mem : UInt64 → UInt8} {calm : Prop} {s : VmemSystem}

theorem Stage.not_crashed {begun : List (DtpMsg × List Packet)} (h : Stage mem calm s begun)
    (f : Fault) :
    s.server.task ≠ .crashed f := by
  intro hf
  cases h with
  | waiting _ htask => rw [htask] at hf; cases hf
  | received _ htask => rw [htask] at hf; cases hf
  | configured _ htask => rcases htask with htask | ⟨htask, -⟩ <;> rw [htask] at hf <;> cases hf
  | sending _ _ _ htask => rw [htask] at hf; cases hf

/-- If the task is waiting, it has left what it was at. -/
theorem Stage.done {begun : List (DtpMsg × List Packet)} (h : Stage mem calm s begun)
    (htask : s.server.task = .waiting) :
    ∀ x ∈ begun.getLast?, calm → x.2 = x.1.emission mem := by
  cases h with
  | waiting _ _ hdone => exact hdone
  | received _ htask' => rw [htask] at htask'; cases htask'
  | configured _ htask' =>
    rcases htask' with htask' | ⟨htask', -⟩ <;> rw [htask] at htask' <;> cases htask'
  | sending _ _ _ htask' => rw [htask] at htask'; cases htask'

/-- While the task sends, it sends for the message it has received last. -/
theorem Stage.getLast {begun : List (DtpMsg × List Packet)} (h : Stage mem calm s begun)
    (htask : s.server.task = .sending) :
    ∃ ps, begun.getLast? = some (s.msg, ps) := by
  cases h with
  | waiting _ htask' => rw [htask] at htask'; cases htask'
  | received _ htask' => rw [htask] at htask'; cases htask'
  | configured _ htask' =>
    rcases htask' with htask' | ⟨htask', -⟩ <;> rw [htask] at htask' <;> cases htask'
  | sending _ own => exact ⟨own.sent, List.getLast?_concat ..⟩

/-- A request leaves the task where it is, whatever it writes to `keep_running` and
`client_alive_ts`. -/
theorem Stage.request {begun : List (DtpMsg × List Packet)} (h : Stage mem calm s begun)
    {server : VmemServer} (ctx : ServerTransferCtx) (htask : server.task = s.server.task)
    (hsend : server.send = { s.server.send with ctx := ctx })
    (hreq : ctx.request = s.server.send.ctx.request)
    (hsize : ctx.payloadSize = s.server.send.ctx.payloadSize)
    (hrunning : ctx.keepRunning = true → s.server.keepRunning = true)
    (hcalm : calm → ctx.keepRunning = s.server.keepRunning) :
    Stage mem calm { s with server := server } begun := by
  cases h with
  | waiting _ htask' hdone => exact .waiting _ (htask.trans htask') hdone
  | received _ htask' hfine => exact .received _ (htask.trans htask') hfine
  | configured _ htask' hfine hreq' hsize' =>
    have hctx : server.send.ctx = ctx := by rw [hsend]
    refine .configured _ ?_ hfine (by rw [hctx, hreq, hreq']) (by rw [hctx, hsize, hsize'])
    refine htask'.imp htask.trans fun h => ⟨htask.trans h.1, fun hc => ?_⟩
    rw [VmemServer.keepRunning, hctx]
    exact (hcalm hc).trans (h.2 hc)
  | sending _ own base htask' hsend' hown =>
    rw [VmemServer.keepRunning, hsend'] at hrunning hcalm
    rw [hsend'] at hreq hsize
    refine .sending _ { own with ctx := ctx } base (htask.trans htask') ?_
      (hown.setCtx hreq hsize hrunning hcalm)
    rw [hsend, hsend']
    rfl

/-- When a message may be left for the next one: if all is calm, when all of it is sent. -/
def Enough (mem : UInt64 → UInt8) (calm : Prop) (msg : DtpMsg) (ps : List Packet) : Prop :=
  calm → ps = msg.emission mem

theorem step_request (h : ∀ f, s.server.task ≠ .crashed f) (env : HandlerEnv) (r : VmemRequest) :
    s.step E host mem (.request env r) =
      { s with server := (s.server.vmemDtpRequestHandler host env r).1 } := by
  rw [step, VmemServer.step]
  cases htask : s.server.task with
  | crashed f => exact absurd htask (h f)
  | waiting => rfl
  | received msg => rfl
  | configured => rfl
  | armed => rfl
  | sending => rfl

/-- A start request is a step of the specification: the message is accepted, or the queue does not
take it. -/
theorem Represents.start {a : State DtpMsg Packet} (h : Represents mem calm s a) {env : HandlerEnv}
    {body : List UInt8} {msg : DtpMsg}
    (hmsg : startMsg host env.stack env.dst env.src body = .ok msg) (hfine : msg.Fine calm) :
    ∃ a', Step (DtpMsg.emission mem)
    (Enough mem calm) a (if env.queued then some msg else none) a' ∧
      Represents mem calm { s with server := s.server.handleStart host env body } a' := by
  have hserver : s.server.handleStart host env body =
      { s.server.withCtx { s.server.send.ctx with clientAliveTs := env.now } with
      sessionId := msg.metaReq.sessionId
      queue := if env.queued then s.server.queue ++ [msg] else s.server.queue } := by
    simp only [VmemServer.handleStart, hmsg]
  have hstage : ∀ queue, Stage mem calm
      { s with server := { s.server.withCtx { s.server.send.ctx with clientAliveTs := env.now } with
      sessionId := msg.metaReq.sessionId, queue := queue } } a.begun :=
    fun queue => h.stage.request
      { s.server.send.ctx with clientAliveTs := env.now } rfl rfl rfl rfl id fun _ => rfl
  rw [hserver]
  cases hq : env.queued with
  | false => exact ⟨a, .idle a, ⟨h.waiting, h.fine, h.sent, hstage _⟩⟩
  | true =>
    refine ⟨_, .accept a msg, ⟨by rw [h.waiting]; rfl, fun m hm => ?_, h.sent, hstage _⟩⟩
    rcases List.mem_append.mp hm with hm | hm
    · exact h.fine m hm
    · rw [List.mem_singleton.mp hm]
      exact hfine

/-- A request is a step of the specification. -/
theorem Represents.request {a : State DtpMsg Packet} (h : Represents mem calm s a)
    {env : HandlerEnv} {r : VmemRequest} (he : VmemEvent.Expected host calm (.request env r)) :
    ∃ a', Step (DtpMsg.emission mem)
    (Enough mem calm) a (VmemEvent.accepts host (.request env r)) a' ∧
      Represents mem calm (s.step E host mem (.request env r)) a' := by
  rw [step_request h.stage.not_crashed]
  obtain ⟨hstart, hstop⟩ := he
  by_cases h0 : r.type = dtpRequestStartTransfer
  · obtain ⟨msg, hmsg, hfine⟩ := hstart h0
    have haccepts : VmemEvent.accepts host (.request env r) = if env.queued then some msg
        else none := by
      simp only [VmemEvent.accepts, h0, true_and, hmsg]
      rfl
    rw [haccepts, VmemServer.vmemDtpRequestHandler, if_pos h0]
    exact h.start hmsg hfine
  have haccepts : VmemEvent.accepts host (.request env r) = none :=
    if_neg fun hstarts => h0 hstarts.1
  rw [haccepts, VmemServer.vmemDtpRequestHandler, if_neg h0]
  refine ⟨a, .idle a, ?_⟩
  by_cases h1 : r.type = dtpRequestStopTransfer
  · rw [if_pos h1]
    refine ⟨h.waiting, h.fine, h.sent, ?_⟩
    exact h.stage.request { s.server.send.ctx with keepRunning := false } rfl rfl rfl rfl
      (fun hf => by cases hf)
      fun hc => absurd h1 (hstop hc)
  rw [if_neg h1]
  by_cases h2 : r.type = dtpRequestTransferStatus
  · rw [if_pos h2]
    exact h
  rw [if_neg h2]
  by_cases h3 : r.type = dtpRequestTransferAlive
  · rw [if_pos h3, VmemServer.handleAlive]
    split_ifs
    · exact ⟨h.waiting, h.fine, h.sent,
        h.stage.request { s.server.send.ctx with clientAliveTs := env.now } rfl rfl rfl rfl id
          fun _ => rfl⟩
    · exact h
  · rw [if_neg h3]
    exact h

theorem step_task (h : ∀ f, s.server.task ≠ .crashed f) (buffer : Bool) (now : UInt32) :
    s.step E host mem (.task buffer now) =
      { server := s.server.taskStep E ⟨buffer, dtpPayloadVmemRead mem s.msg, now⟩
        msg := match s.server.task, s.server.queue with
          | .waiting, msg :: _ => msg
          | _, _ => s.msg } := by
  rw [step, VmemServer.step]
  cases htask : s.server.task with
  | crashed f => exact absurd htask (h f)
  | waiting => rfl
  | received msg => rfl
  | configured => rfl
  | armed => rfl
  | sending => rfl

/-- A task that is at a message keeps it. -/
theorem step_task_busy (h : ∀ f, s.server.task ≠ .crashed f) (hbusy : s.server.task ≠ .waiting)
    (buffer : Bool) (now : UInt32) :
    s.step E host mem (.task buffer now) =
      { server := s.server.taskStep E ⟨buffer, dtpPayloadVmemRead mem s.msg, now⟩
        msg := s.msg } := by
  rw [step_task h]
  cases htask : s.server.task with
  | waiting => exact absurd htask hbusy
  | crashed f => exact absurd htask (h f)
  | received msg => rfl
  | configured => rfl
  | armed => rfl
  | sending => rfl

section Task

variable {begun : List (DtpMsg × List Packet)} (hfine : ∀ msg ∈ s.server.queue, msg.Fine calm)
  (buffer : Bool) (now : UInt32)

include hfine

/-- A task that is waiting takes the next message, if there is one. -/
theorem represents_waiting (hsent : s.sent = begun.flatMap Prod.snd)
    (htask : s.server.task = .waiting)
    (hdone : ∀ x ∈ begun.getLast?, calm → x.2 = x.1.emission mem) :
    ∃ a', Step (DtpMsg.emission mem) (Enough mem calm) ⟨begun, s.server.queue⟩ none a' ∧
      Represents mem calm (s.step E host mem (.task buffer now)) a' := by
  rw [step_task (by simp [htask]), VmemServer.taskStep, htask]
  cases hqueue : s.server.queue with
  | nil => exact ⟨_, .idle _, ⟨hqueue.symm, hfine, hsent, .waiting _ htask hdone⟩⟩
  | cons msg queue =>
    rw [hqueue] at hfine
    refine ⟨_, .begin begun msg queue hdone,
      ⟨rfl, fun m hm => hfine m (List.mem_cons_of_mem _ hm), ?_, ?_⟩⟩
    · change s.sent = _
      simpa [State.output] using hsent
    · exact .received
        (s := ⟨{ s.server with queue := queue, task := .received msg }, msg⟩) begun rfl
        (hfine msg (List.mem_cons_self ..))

/-- A task that has received a message sets up the context. -/
theorem represents_received (hsent : s.sent = (begun ++ [(s.msg, [])]).flatMap Prod.snd)
    (htask : s.server.task = .received s.msg) (hmsg : s.msg.Fine calm) :
    Represents mem calm (s.step E host mem (.task buffer now))
      ⟨begun ++ [(s.msg, [])], s.server.queue⟩ := by
  obtain ⟨total, hsetup⟩ := setupVmemTransfer_eq_ok s.server.send.ctx hmsg.usable.le
  rw [step_task_busy (by simp [htask]) (by simp [htask]), VmemServer.taskStep, htask]
  simp only [hsetup]
  refine ⟨rfl, hfine, hsent, ?_⟩
  exact .configured (s := ⟨_, s.msg⟩) begun (Or.inl rfl) hmsg rfl rfl

/-- Then it sets `keep_running`, and enters `start_sending_data`. -/
theorem represents_configured (hsent : s.sent = (begun ++ [(s.msg, [])]).flatMap Prod.snd)
    (htask : s.server.task = .configured ∨ s.server.task = .armed ∧
      (calm → s.server.keepRunning = true))
    (hmsg : s.msg.Fine calm) (hreq : s.server.send.ctx.request = s.msg.metaReq)
    (hsize : s.server.send.ctx.payloadSize = s.msg.size) :
    Represents mem calm (s.step E host mem (.task buffer now))
      ⟨begun ++ [(s.msg, [])], s.server.queue⟩ := by
  rcases htask with htask | ⟨htask, hrunning⟩
  · rw [step_task_busy (by simp [htask]) (by simp [htask]), VmemServer.taskStep, htask]
    exact ⟨rfl, hfine, hsent, .configured (s := ⟨_, s.msg⟩) begun
      (Or.inr ⟨rfl, fun _ => rfl⟩) hmsg hreq hsize⟩
  · obtain ⟨htransfer, hnone⟩ := @transferring_start mem calm s.msg E hmsg _ hreq hsize hrunning now
    rw [step_task_busy (by simp [htask]) (by simp [htask]), VmemServer.taskStep, htask]
    refine ⟨rfl, hfine, hsent, ?_⟩
    rw [← hnone]
    refine .sending (s := ⟨_, s.msg⟩) begun _ s.server.send.log rfl ?_ htransfer
    have hlog : (startSendingData E s.server.send.ctx now).log = [] := by
      obtain ⟨-, -, hlog, -, -⟩ :=
        @SendState.counted_start E s.server.send.ctx (by rw [hreq]; exact hmsg.usable) now
      exact hlog
    rw [SendState.after, hlog, List.append_nil]

/-- A task that is sending takes a step of the send machine, or is done with it. -/
theorem represents_sending {own : SendState} {base : List SendObs}
    (hsent : s.sent = (begun ++ [(s.msg, own.sent)]).flatMap Prod.snd)
    (htask : s.server.task = .sending) (hsend : s.server.send = own.after base)
    (hown : Transferring mem calm s.msg own) :
    ∃ a', Step (DtpMsg.emission mem)
    (Enough mem calm) ⟨begun ++ [(s.msg, own.sent)], s.server.queue⟩ none a' ∧
      Represents mem calm (s.step E host mem (.task buffer now)) a' := by
  have hpc : s.server.send.pc = own.pc := by rw [hsend, SendState.pc_after]
  rw [step_task_busy (by simp [htask]) (by simp [htask]), VmemServer.taskStep, htask]
  by_cases hend : own.pc = .finished
  · simp only [hpc, hend]
    refine ⟨_, .idle _, ⟨rfl, hfine, hsent, .waiting (s := ⟨_, s.msg⟩) _ rfl fun x hx hc => ?_⟩⟩
    rw [List.getLast?_concat] at hx
    obtain rfl : (s.msg, own.sent) = x := Option.some.inj hx
    exact hown.emitting.atEnd hend (hown.running hc).1
  · have hstep : ∀ server : VmemServer, server =
      { s.server with send := s.server.send.step ⟨buffer, dtpPayloadVmemRead mem s.msg, now⟩ } →
        ∃ a', Step (DtpMsg.emission mem) (Enough mem calm)
          ⟨begun ++ [(s.msg, own.sent)], s.server.queue⟩ none a' ∧
          Represents mem calm ⟨server, s.msg⟩ a' := by
      rintro server rfl
      obtain ⟨hown', hcases⟩ := hown.step buffer now
      rw [hsend, SendState.step_after]
      have hbase : sentPackets base = begun.flatMap Prod.snd := by
        rw [sent, VmemServer.sent, hsend, SendState.sent_after, List.flatMap_append] at hsent
        simpa using hsent
      have hsent' : ∀ server : VmemServer,
          server.send = (own.step ⟨buffer, dtpPayloadVmemRead mem s.msg, now⟩).after base →
          sent ⟨server, s.msg⟩ =
              (begun ++ [(s.msg, (own.step
                  ⟨buffer, dtpPayloadVmemRead mem s.msg, now⟩).sent)]).flatMap Prod.snd := by
        intro server hserver
        rw [sent, VmemServer.sent, hserver, SendState.sent_after, hbase]
        simp
      have hstage : Stage mem calm
          ⟨{ s.server with
            send := (own.step ⟨buffer, dtpPayloadVmemRead mem s.msg, now⟩).after base }, s.msg⟩
          (begun ++ [(s.msg, (own.step ⟨buffer, dtpPayloadVmemRead mem s.msg, now⟩).sent)]) :=
        .sending begun _ base htask rfl hown'
      have hrep : Represents mem calm
          ⟨{ s.server with
            send := (own.step ⟨buffer, dtpPayloadVmemRead mem s.msg, now⟩).after base }, s.msg⟩
          ⟨begun ++ [(s.msg, (own.step ⟨buffer, dtpPayloadVmemRead mem s.msg, now⟩).sent)],
            s.server.queue⟩ :=
        ⟨rfl, hfine, hsent' _ rfl, hstage⟩
      rcases hcases with hsame | ⟨p, hp⟩
      · rw [hsame] at hrep
        exact ⟨_, .idle _, hrep⟩
      · rw [hp] at hrep
        refine ⟨_, .put begun s.msg own.sent p s.server.queue ?_, hrep⟩
        rw [← hp]
        exact hown'.emitting.isPrefix
    cases hpc' : own.pc with
    | finished => exact absurd hpc' hend
    | fault f => exact absurd hpc' (hown.pc f)
    | interval i => simp only [hpc, hpc']; exact hstep _ (by simp only [← htask])
    | poll i c => simp only [hpc, hpc']; exact hstep _ (by simp only [← htask])

end Task

/-- A step of the task is one of the specification. -/
theorem Represents.task {a : State DtpMsg Packet} (h : Represents mem calm s a) (buffer : Bool)
    (now : UInt32) :
    ∃ a', Step (DtpMsg.emission mem) (Enough mem calm) a none a' ∧
      Represents mem calm (s.step E host mem (.task buffer now)) a' := by
  obtain ⟨begun, waiting⟩ := a
  obtain ⟨rfl, hfine, hsent, hstage⟩ := h
  cases hstage with
  | waiting _ htask hdone => exact represents_waiting hfine buffer now hsent htask hdone
  | received _ htask hmsg =>
    exact ⟨_, .idle _, represents_received hfine buffer now hsent htask hmsg⟩
  | configured _ htask hmsg hreq hsize =>
    exact ⟨_, .idle _, represents_configured hfine buffer now hsent htask hmsg hreq hsize⟩
  | sending _ own base htask hsend hown =>
    exact represents_sending hfine buffer now hsent htask hsend hown

theorem represents_init (mem : UInt64 → UInt8) (calm : Prop) (msg : DtpMsg) :
    Represents mem calm (init msg) .initial :=
  ⟨rfl, fun _ hmsg => (by cases hmsg), rfl, .waiting [] rfl fun _ hx => (by cases hx)⟩

/-- Every run is one of the specification. -/
theorem exists_represents (E : ErrorTest) {host : ByteOrder} (mem : UInt64 → UInt8) {calm : Prop}
    (msg : DtpMsg) {es : List VmemEvent} (hes : ∀ e ∈ es, e.Expected host calm) :
    ∃ a, Service.Serves (DtpMsg.emission mem) (Enough mem calm) (accepted host es) a ∧
      Represents mem calm (run (step E host mem) (init msg) es) a := by
  refine exists_serves (fun s a e he hR => ?_) (represents_init mem calm msg) .initial hes
  cases e with
  | request env r => exact hR.request he
  | task buffer now => exact hR.task buffer now

end VmemSystem

open VmemSystem

/-- However requests and the task's steps are interleaved, as long as the start requests can be
served: the packets that have been sent are those of the first messages that were accepted, one
message after the other, and for each of them the beginning of what it stands for. -/
theorem vmem_served_in_order (E : ErrorTest) (host : ByteOrder) (mem : UInt64 → UInt8)
    (msg : DtpMsg) (es : List VmemEvent) (hes : ∀ e ∈ es, e.Expected host False) :
    ∃ begun : List (DtpMsg × List Packet),
      begun.map Prod.fst <+: accepted host es ∧
        (run (step E host mem) (init msg) es).sent = begun.flatMap Prod.snd ∧
          ∀ x ∈ begun, x.2 <+: x.1.emission mem := by
  obtain ⟨a, hserves, hrep⟩ := exists_represents E mem msg hes
  exact ⟨a.begun, hserves.begun_isPrefix, hrep.sent, hserves.isPrefix⟩

/-- A start request for eight bytes in chunks of four, with 1000 bytes a second. -/
def VmemEvent.startEight (session : UInt8) : VmemEvent :=
  .request calmEnv
    ⟨dtpRequestStartTransfer, [0, 0, 0, session] ++ List.replicate 8 0 ++ [0, 0, 0, 8] ++
    [0, 0, 3, 0xE8, 1, 0, 0, 0, 0, 0, 0, session, 0, 12, 0, 0] ++
      [0, 0, 0, 0, 0xFF, 0xFF, 0xFF, 0xFF] ++
    List.replicate 56 0⟩

/-- Some steps of the task. -/
def VmemEvent.tasks (n : ℕ) : List VmemEvent := List.replicate n (.task true 0)

theorem VmemEvent.expected_startEight_seven (calm : Prop) : Expected .little calm (startEight 7) :=
  ⟨fun _ =>
    ⟨_, rfl, ⟨⟨by decide +kernel, by decide +kernel, by decide +kernel, by decide +kernel⟩,
      by decide +kernel⟩,
    fun _ => by decide +kernel⟩, fun _ => by decide⟩

theorem VmemEvent.expected_tasks (host : ByteOrder) (calm : Prop) (n : ℕ) :
    ∀ e ∈ tasks n, e.Expected host calm := by
  intro e he
  rw [List.eq_of_mem_replicate he]
  trivial

/-- A server that is stopped after the first packet, and starts again from the beginning for the
next request. -/
theorem vmem_served_in_order_stopped : ∃ begun : List (DtpMsg × List Packet),
    begun.map Prod.fst <+: accepted .little (.startEight 7 :: VmemEvent.tasks 6 ++
        .request calmEnv ⟨dtpRequestStopTransfer, [0, 0, 0, 7]⟩ :: .startEight 7 ::
          VmemEvent.tasks 9) ∧
      (run (step .exact .little fun _ => 7) (init ⟨0, 0, 0, 0, oneInterval 12 ⟨0, 0⟩⟩)
        (.startEight 7 :: VmemEvent.tasks 6 ++
        .request calmEnv ⟨dtpRequestStopTransfer, [0, 0, 0, 7]⟩ :: .startEight 7 ::
          VmemEvent.tasks 9)).sent =
          begun.flatMap Prod.snd ∧ ∀ x ∈ begun, x.2 <+: x.1.emission fun _ => 7 := by
  refine vmem_served_in_order .exact .little _ _ _ fun e he => ?_
  simp only [List.cons_append, List.mem_cons, List.mem_append] at he
  rcases he with rfl | he | rfl | rfl | he
  · exact VmemEvent.expected_startEight_seven False
  · exact VmemEvent.expected_tasks .little False 6 e he
  · exact ⟨fun hstart => absurd hstart (by decide), fun h => h.elim⟩
  · exact VmemEvent.expected_startEight_seven False
  · exact VmemEvent.expected_tasks .little False 9 e he

/-- Without stop requests, and if the start requests can be served and ask for a keep-alive interval
of `0`, nothing is left out: what has been sent is the beginning of what the accepted messages stand
for, and all of it once the task waits at an empty queue. -/
theorem vmem_nothing_lost (E : ErrorTest) (host : ByteOrder) (mem : UInt64 → UInt8) (msg : DtpMsg)
    (es : List VmemEvent) (hes : ∀ e ∈ es, e.Expected host True) :
    (run (step E host mem) (init msg) es).sent <+: (accepted host es).flatMap
      (DtpMsg.emission mem) ∧
      ((run (step E host mem) (init msg) es).server.task = .waiting →
        (run (step E host mem) (init msg) es).server.queue = [] →
          (run (step E host mem) (init msg) es).sent =
            (accepted host es).flatMap (DtpMsg.emission mem)) := by
  obtain ⟨a, hserves, hrep⟩ := exists_represents E mem msg hes
  have henough : ∀ msg ps, Enough mem True msg ps → ps = msg.emission mem := fun _ _ h => h trivial
  refine ⟨hrep.sent ▸ hserves.output_isPrefix henough, fun htask hqueue => ?_⟩
  rw [hrep.sent]
  exact hserves.output_eq henough (hrep.waiting.trans hqueue) (hrep.stage.done htask)

/-- Two requests for eight bytes each: four packets. -/
theorem vmem_nothing_lost_twice :
    (run (step .exact .little fun _ => 7) (init ⟨0, 0, 0, 0, oneInterval 12 ⟨0, 0⟩⟩)
      (.startEight 7 :: .startEight 7 :: VmemEvent.tasks 24)).sent =
        (accepted .little (.startEight 7 :: .startEight 7 :: VmemEvent.tasks 24)).flatMap
          (DtpMsg.emission fun _ => 7) := by
  refine (vmem_nothing_lost .exact .little _ _ _ fun e he => ?_).2 (by decide +kernel)
    (by decide +kernel)
  simp only [List.mem_cons] at he
  rcases he with rfl | rfl | he
  · exact VmemEvent.expected_startEight_seven True
  · exact VmemEvent.expected_startEight_seven True
  · exact VmemEvent.expected_tasks .little True 24 e he

end LibDtp
