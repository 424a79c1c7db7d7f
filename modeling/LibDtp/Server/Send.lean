import LibDtp.Protocol.Metrics

/-!
# Sending

`start_sending_data` and the poll function `dtp_server_poll_loop` it runs for
every interval of a request.

## The model

The two are one machine, `SendState` with `SendState.step`. Its control points are
the test of the `for` over the intervals and the test of the `while` in the poll
function; a step goes from one test to the next, so that everything another task can do to
the transfer context, it can do between two steps. `os_hal_start_poll_operation` calls
the poll function until it returns `false`; how long it sleeps in between does not
matter here.

What the world answers during a step is a `Tick`: whether `csp_buffer_get` has a
packet, what the payload's `read` callback does, and the clock. Each step appends what it
does to the log, from which the properties of a run are read off.

The `completed` callback and the messages are left out.
-/

namespace LibDtp

/-- `dtp_server_transfer_ctx_t`, with `payloadSize` for `payload_meta.size`. -/
structure ServerTransferCtx where
  /-- The node that provides the payload. -/
  srvNode : UInt16
  /-- Where the packets go. -/
  destPort : UInt16
  /-- The size announced to the client. -/
  sizeInBytes : UInt32
  /-- Should the transfer go on? -/
  keepRunning : Bool
  /-- The request. -/
  request : MetaReq
  /-- `payload_meta.size`. -/
  payloadSize : UInt32
  /-- When the client was last heard of. -/
  clientAliveTs : UInt32

/-- `dtp_server_transfer_t`. -/
structure Transfer where
  /-- The offset of the next packet. -/
  bytesSent : UInt32
  /-- How much of the interval has been sent. -/
  sentInInterval : UInt32
  /-- How much there is in the interval. -/
  bytesInInterval : UInt32
  /-- How many packets go out in a round. -/
  nofPacketsPerRound : UInt32
  /-- How many packets have gone out. -/
  nofCspPackets : UInt32

/-- What a call of the `read` callback does: the count it returns, and the data area of
the packet after it. -/
structure ReadResult where
  /-- The value returned. -/
  count : UInt32
  /-- The packet's data. -/
  data : List UInt8

/-- The world's answers during one step. -/
structure Tick where
  /-- Does `csp_buffer_get` return a packet? -/
  buffer : Bool
  /-- `payload_meta.read`, on an offset and a size. -/
  read : UInt32 → UInt32 → ReadResult
  /-- `csp_get_ms`. -/
  now : UInt32

/-- What the server does that can be seen from outside. -/
inductive SendObs where
  /-- `interval_start`, `interval_stop` before and after it is clamped, and
  `bytes_in_interval`, for interval `i`. -/
  | bounds (i : ℕ) (start rawStop stop bytes : UInt32)
  /-- A packet was obtained from `csp_buffer_get`. -/
  | buffer
  /-- A call of the `read` callback. -/
  | read (offset size : UInt32)
  /-- `bytes_sent += data_read`. -/
  | advance (before count after : UInt32)
  /-- A packet was given to `csp_sendto`. -/
  | sent (p : Packet)
  deriving DecidableEq

/-- Where `start_sending_data` is. -/
inductive SendPc where
  /-- At the test of the `for`, for interval `i`. -/
  | interval (i : ℕ)
  /-- At the test of the `while` in `dtp_server_poll_loop`, in interval `i`. -/
  | poll (i : ℕ) (pktCnt : UInt32)
  /-- After the `for`. -/
  | finished
  /-- In what C leaves undefined. -/
  | fault (f : Fault)
  deriving DecidableEq

/-- A transfer in progress. -/
structure SendState where
  /-- The control point. -/
  pc : SendPc
  /-- The shared context. -/
  ctx : ServerTransferCtx
  /-- The transfer's own counters. -/
  transfer : Transfer
  /-- What has been done so far. -/
  log : List SendObs

/-- The packets of a log, in the order in which they were sent. -/
def sentPackets (log : List SendObs) : List Packet := log.filterMap fun
  | .sent p => some p
  | _ => none

/-- `request.intervals[i].end = stop`. -/
def MetaReq.setEnd (r : MetaReq) (i : ℕ) (stop : UInt32) : MetaReq :=
  { r with
    intervals := r.intervals.setIfInBounds i ⟨(r.intervals.toList.getD i ⟨0, 0⟩).start, stop⟩ }

namespace SendState

/-- The packets sent so far. -/
def sent (s : SendState) : List Packet := sentPackets s.log

/-- Start the poll operation of interval `i`. -/
def enter (s : SendState) (i : ℕ) (request : MetaReq) (start rawStop stop : UInt32) : SendState :=
  { s with
    pc := .poll i 0
    ctx := { s.ctx with request := request }
    transfer := { s.transfer with
      sentInInterval := 0, bytesSent := start, bytesInInterval := stop - start }
    log := s.log ++ [.bounds i start rawStop stop (stop - start)] }

/-- The body of the `for`: the bounds of interval `i`. -/
def intervalStep (s : SendState) (i : ℕ) : SendState :=
  if i < s.ctx.request.nofIntervals.toNat ∧ s.ctx.keepRunning then
    match s.ctx.request.intervalAt i with
    | .error f => { s with pc := .fault f }
    | .ok cur =>
      let chunk := s.ctx.request.chunk
      let start := (cur.start.toUInt64 * chunk).toUInt32
      if cur.stop ≠ uint32Max then
        let rawStop := ((cur.stop + 1).toUInt64 * chunk).toUInt32
        s.enter i s.ctx.request start rawStop (if rawStop > s.ctx.payloadSize then s.ctx.payloadSize
          else rawStop)
      else if chunk = 0 then { s with pc := .fault .divByZero }
      else
        -- the open end is replaced by the number of the payload's last packet
        let stop := s.ctx.payloadSize
        let fixedEnd := (if stop.toUInt64 % chunk ≠ 0 then stop.toUInt64 / chunk + 1
          else stop.toUInt64 / chunk).toUInt32
        s.enter i (s.ctx.request.setEnd i (fixedEnd - 1)) start stop stop
  else { s with pc := .finished }

/-- The end of a call of the poll function: carry on with the interval, or go to the next. -/
def endRound (s : SendState) (i : ℕ) : SendState :=
  if s.transfer.sentInInterval < s.transfer.bytesInInterval ∧
    s.ctx.keepRunning then { s with pc := .poll i 0 }
  else { s with pc := .interval (i + 1) }

/-- Is the packet about to be sent a full one, with more to come? -/
def more (s : SendState) : Bool :=
  (s.transfer.bytesInInterval - s.transfer.sentInInterval).toUInt64 > s.ctx.request.chunk

/-- `packet->length` of the packet about to be sent. -/
def nextLength (s : SendState) : UInt16 :=
  if s.more then s.ctx.request.mtu
  else ((s.transfer.bytesInInterval - s.transfer.sentInInterval).toUInt64 + 8).toUInt16

/-- How many bytes the packet about to be sent asks of the `read` callback. -/
def nextSize (s : SendState) : UInt32 := (s.nextLength.toUInt64 - 8).toUInt32

/-- The client has not been heard of for too long. -/
def clientGone (s : SendState) (now : UInt32) : Bool :=
  s.ctx.request.keepAliveInterval > 0 ∧
    now - s.ctx.clientAliveTs > s.ctx.request.keepAliveInterval.toUInt32 * 2 + 500

/-- The rest of the body of the `while`, once the data has been read. -/
def sendPacket (s : SendState) (i : ℕ) (pktCnt : UInt32) (r : ReadResult) (now : UInt32) :
    SendState :=
  { pc := .poll i ((if s.more then pktCnt else s.transfer.nofPacketsPerRound) + 1)
    ctx := { s.ctx with keepRunning := s.ctx.keepRunning && !s.clientGone now }
    transfer := { s.transfer with
      bytesSent := s.transfer.bytesSent + r.count
      sentInInterval := s.transfer.sentInInterval + r.count
      nofCspPackets := s.transfer.nofCspPackets + 1 }
    log := s.log ++ [.buffer, .read s.transfer.bytesSent s.nextSize,
      .advance s.transfer.bytesSent r.count (s.transfer.bytesSent + r.count),
      .sent { offset := s.transfer.bytesSent, sessionId := s.ctx.request.sessionId,
              length := s.nextLength, data := r.data }] }

/-- One turn of the `while` in `dtp_server_poll_loop`. -/
def pollStep (s : SendState) (i : ℕ) (pktCnt : UInt32) (t : Tick) : SendState :=
  if s.transfer.nofPacketsPerRound > pktCnt ∧ s.ctx.keepRunning then
    if t.buffer then
      let r := t.read s.transfer.bytesSent s.nextSize
      if r.count = 0 then
        -- the packet is neither sent nor freed
        endRound { s with log := s.log ++ [.buffer, .read s.transfer.bytesSent s.nextSize] } i
      else s.sendPacket i pktCnt r t.now
    else s.endRound i
  else s.endRound i

/-- One step of `start_sending_data`. -/
def step (s : SendState) (t : Tick) : SendState :=
  match s.pc with
  | .interval i => s.intervalStep i
  | .poll i pktCnt => s.pollStep i pktCnt t
  | .finished => s
  | .fault _ => s

/-- A run. -/
def run (s : SendState) (ts : List Tick) : SendState := ts.foldl step s

end SendState

/-- `start_sending_data`, up to the `for`. -/
def startSendingData (E : ErrorTest) (ctx : ServerTransferCtx) (now : UInt32) : SendState :=
  let transfer (packetsPerRound : UInt32) : Transfer :=
    { bytesSent := 0, sentInInterval := 0, bytesInInterval := 0,
      nofPacketsPerRound := packetsPerRound, nofCspPackets := 0 }
  match computeDtpMetrics E ctx.request ctx.payloadSize with
  | .error f => { pc := .fault f, ctx := ctx, transfer := transfer 0, log := [] }
  | .ok m =>
    { pc := .interval 0
      ctx := { ctx with clientAliveTs := now }
      transfer := transfer m.packetsPerRound
      log := [] }

end LibDtp
