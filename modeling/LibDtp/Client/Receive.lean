import LibDtp.Client.Session
import LibDtp.Foundation.Runs
import LibDtp.Protocol.Metrics

/-!
# Receiving

`start_receiving_data` and `dtp_start_transfer` of `dtp_client.c`, with the hooks of a session on
POSIX.

## The model

The receive loop is a machine, `RecvState` with `RecvState.step`, driven by what comes in: each
event is what one call of `csp_recvfrom` returns, with the readings of the clock that follow, or a
call of `dtp_stop_transfer` from another thread. The loop is over, with `result`, as soon as its
test fails, the session is no longer active, or it has been left by a `break`; events after that
change nothing.

The `printf`s, the statistics at the end and `start_ts`, which is only used for them, are left out.
-/

namespace LibDtp

open Runs

/-- What happens to a receiver. -/
inductive RecvEvent where
  /-- `dtp_stop_transfer` is called for the session. -/
  | stop
  /-- `csp_recvfrom` returns nothing. -/
  | timeout
  /-- `csp_recvfrom` returns a packet; `csp_get_ms` is called in the loop and in the hook. -/
  | packet (p : Packet) (now hookNow : UInt32)

/-- What a receiver does that can be seen from outside. -/
inductive RecvObs where
  /-- `on_data_packet` is called. -/
  | data (p : Packet)
  /-- `vmem_request_dtp_send_alive` is called. -/
  | alive
  deriving DecidableEq

/-- The local variables of `start_receiving_data`, with the session and its files. -/
structure RecvState where
  /-- The session. -/
  session : Session
  /-- Its files. -/
  disk : Disk
  /-- `metric`. -/
  metric : Metrics
  /-- `prev_packet_seq`. -/
  prevPacketSeq : UInt32
  /-- `idle_ms`. -/
  idleMs : UInt32
  /-- `now_ts_ms`. -/
  nowTsMs : UInt32
  /-- `expected_eot_ts_ms`. -/
  expectedEotTsMs : UInt32
  /-- `start_ts_ms`. -/
  startTsMs : UInt32
  /-- `last_alive`. -/
  lastAlive : UInt32
  /-- `nof_packets`. -/
  nofPackets : UInt32
  /-- The result, once the loop has been left by a `break`. -/
  done : Option DtpResult
  /-- What has been done so far. -/
  log : List RecvObs

namespace RecvState

/-- The result of the loop, if it is over. -/
def result (s : RecvState) : Option DtpResult :=
  match s.done with
  | some r => some r
  | none =>
    if s.nowTsMs + s.idleMs < s.expectedEotTsMs ∧ s.nofPackets < s.metric.nofPackets then
      if s.session.active then none else some .cancelled
    else some .cancelled

/-- Nothing was received. -/
def onTimeout (s : RecvState) : RecvState :=
  let idle := s.idleMs + s.metric.roundTimeMs
  if idle > s.session.timeout.toUInt32 * 1000 then
    { s with idleMs := idle, session := { s.session with
      active := false }, done := some .cancelled }
  else { s with idleMs := idle }

/-- `expected_eot_ts_ms`, as adjusted at `now` after `nofPackets` packets. -/
def adjustedEot (s : RecvState) (now nofPackets : UInt32) : UInt32 :=
  let chunk := s.session.request.chunk
  let bytesSent := (nofPackets.toUInt64 * chunk).toUInt32
  let tsDiff := now - s.startTsMs
  if tsDiff > 0 then
    let currThroughput := bytesSent / tsDiff
    if currThroughput > 0 then
      let adjEot := ((chunk * s.metric.nofPackets.toUInt64) / currThroughput.toUInt64).toUInt32
      s.expectedEotTsMs + ((s.startTsMs + adjEot) - s.expectedEotTsMs)
    else s.expectedEotTsMs
  else s.expectedEotTsMs

/-- Is it time for a keep-alive? -/
def aliveDue (s : RecvState) (now : UInt32) : Bool :=
  s.session.request.keepAliveInterval > 0 ∧
    now - s.lastAlive ≥ s.session.request.keepAliveInterval.toUInt32

/-- A packet that is not a repetition of the one before it, up to the call of the hook. -/
def accept (s : RecvState) (p : Packet) (now hookNow : UInt32) : RecvState :=
  let session := { s.session with
    bytesReceived := (s.session.bytesReceived.toUInt64 + (p.length.toUInt64 - 8)).toUInt32 }
  { s with
    session := (apmOnDataPacket session s.disk p hookNow).1
    disk := (apmOnDataPacket session s.disk p hookNow).2
    prevPacketSeq := packetSeq s.session.request p
    idleMs := 0
    nowTsMs := now
    expectedEotTsMs := s.adjustedEot now (s.nofPackets + 1)
    lastAlive := if s.aliveDue now then now else s.lastAlive
    nofPackets := s.nofPackets + 1
    log := s.log ++ (if s.aliveDue now then [.alive] else []) ++ [.data p] }

/-- The end of the loop's body: was it the last packet? -/
def afterPacket (s : RecvState) (seq : UInt32) : RecvState :=
  if seq ≥ s.metric.lastPacket then
    { s with
      done := some (if s.session.bytesReceived = s.session.payloadSize then .ok else .cancelled) }
  else s

/-- A packet was received. -/
def onPacket (s : RecvState) (p : Packet) (now hookNow : UInt32) : RecvState :=
  let seq := packetSeq s.session.request p
  if seq = s.prevPacketSeq then { s with idleMs := 0, nowTsMs := now }
  else (s.accept p now hookNow).afterPacket seq

/-- One event. -/
def step (s : RecvState) (e : RecvEvent) : RecvState :=
  match s.result with
  | some _ => s
  | none =>
    match e with
    | .stop => { s with session := { s.session with active := false } }
    | .timeout => s.onTimeout
    | .packet p now hookNow => s.onPacket p now hookNow

end RecvState

/-- What `start_receiving_data` leaves behind. -/
structure Received where
  /-- The session. -/
  session : Session
  /-- Its files. -/
  disk : Disk
  /-- What it returns. -/
  result : DtpResult
  /-- What it has done. -/
  log : List RecvObs

/-- The state in which the loop is entered. -/
def RecvState.initial (s : Session) (d : Disk) (metric : Metrics) (now : UInt32) : RecvState where
  session := s
  disk := d
  metric := metric
  prevPacketSeq := 0xFFFFFFFF
  idleMs := 0
  nowTsMs := now
  expectedEotTsMs := now + metric.totalDurationMs + metric.roundTimeMs * 2
  startTsMs := now
  lastAlive := now
  nofPackets := 0
  done := none
  log := []

/-- `start_receiving_data`, up to its loop, with the clock at `now` there. -/
def enterReceive (E : ErrorTest) (s : Session) (d : Disk) (now : UInt32) : Except Fault RecvState :=
  do
  let (s, d) := apmOnStart s d
  let s := { s with active := true }
  let metric ← computeDtpMetrics E s.request s.payloadSize
  return .initial s d metric now

/-- `start_receiving_data`. `bind` says whether `csp_bind` succeeds. There is no result if the
events end before the loop does. -/
def startReceivingData (E : ErrorTest) (s : Session) (d : Disk) (bind : Bool) (now : UInt32)
    (es : List RecvEvent) :
    Except Fault (Option Received) :=
  if bind then do
    let t := run RecvState.step (← enterReceive E s d now) es
    return t.result.map fun r => ⟨apmOnEnd t.session, t.disk, r, t.log⟩
  else
    let (s, d) := apmOnStart s d
    .ok (some ⟨{ s with active := true }, d, .err, []⟩)

/-- What the network answers to a transfer. -/
structure TransferEnv where
  /-- Does `csp_connect` succeed? -/
  connect : Bool
  /-- Does `csp_buffer_get` succeed? -/
  buffer : Bool
  /-- The server's response, if one comes. -/
  response : Option MetaResp
  /-- Does `csp_bind` succeed? -/
  bind : Bool
  /-- The clock when the loop is entered. -/
  now : UInt32

/-- `dtp_start_transfer`. -/
def startTransfer (E : ErrorTest) (env : TransferEnv) (s : Session) (d : Disk)
    (es : List RecvEvent) :
    Except Fault (Option Received) :=
  if env.connect then
    if env.buffer then
      match env.response with
      | none => .ok (some ⟨{ s with errno := .connectionFailed }, d, .err, []⟩)
      | some resp =>
        startReceivingData E { s with payloadSize := resp.totalPayloadSize } d env.bind env.now es
    else .ok (some ⟨s, d, .err, []⟩)
  else .ok (some ⟨{ s with errno := .connectionFailed }, d, .err, []⟩)

/-! ### What a receiver does -/

/-- The packets among the events. -/
def packetsOf (es : List RecvEvent) : List Packet := es.filterMap fun
  | .packet p _ _ => some p
  | _ => none

@[simp] theorem packetsOf_packet (p : Packet) (now hookNow : UInt32) (es : List RecvEvent) :
    packetsOf (.packet p now hookNow :: es) = p :: packetsOf es := rfl

theorem packetsOf_idle {e : RecvEvent} (he : ∀ p now hookNow, e ≠ .packet p now hookNow)
    (es : List RecvEvent) :
    packetsOf (e :: es) = packetsOf es := by
  cases e with
  | packet p now hookNow => exact absurd rfl (he p now hookNow)
  | stop => rfl
  | timeout => rfl

/-- The packets of a log. -/
def acceptedOf (log : List RecvObs) : List Packet := log.filterMap fun
  | .data p => some p
  | .alive => none

/-- `bytes_received`, after some packets. -/
def countBytes (n : UInt32) (ps : List Packet) : UInt32 :=
  ps.foldl (fun n p => (n.toUInt64 + (p.length.toUInt64 - 8)).toUInt32) n

/-- The output file, after some packets. -/
def writePackets (r : MetaReq) (file : List UInt8) (ps : List Packet) : List UInt8 :=
  ps.foldl (fun file p => Files.writeAt file ((packetSeq r p).toUInt64 * r.chunk).toNat
    (p.data.take (p.length.toUInt64 - 8).toNat)) file

/-- The packets that are left when each that repeats the one before it is dropped. -/
def dropRepeats (r : MetaReq) : UInt32 → List Packet → List Packet
  | _, [] => []
  | prev, p :: ps =>
    if packetSeq r p = prev then dropRepeats r prev ps else p :: dropRepeats r (packetSeq r p) ps

/-- The packets up to the first one with at least the number `last`. -/
def upToLast (r : MetaReq) (last : UInt32) : List Packet → List Packet
  | [] => []
  | p :: ps => if packetSeq r p ≥ last then [p] else p :: upToLast r last ps

namespace RecvState

/-- The session and its files are what the packets given to the hook have made of those the loop was
entered with. -/
structure Follows (s₀ : Session) (d₀ : Disk) (ctx : HookCtx) (s : RecvState) : Prop where
  /-- The request does not change. -/
  request : s.session.request = s₀.request
  /-- Nor does the size. -/
  payloadSize : s.session.payloadSize = s₀.payloadSize
  /-- Nor does the node. -/
  node : s.session.node = s₀.node
  /-- Nor does the timeout. -/
  timeout : s.session.timeout = s₀.timeout
  /-- The segments. -/
  hookCtx : ∃ ts, s.session.hookCtx =
    some ⟨ts, updateAll ctx.segments ((acceptedOf s.log).map (packetSeq s₀.request)),
    ctx.receivedSegments⟩
  /-- The byte count. -/
  bytesReceived : s.session.bytesReceived = countBytes s₀.bytesReceived (acceptedOf s.log)
  /-- The file. -/
  output : s.disk.output = writePackets s₀.request d₀.output (acceptedOf s.log)

/-- Everything a step can do. -/
inductive Moves (s : RecvState) : RecvEvent → RecvState → Prop where
  /-- The loop is over. -/
  | ended (e : RecvEvent) (r : DtpResult) (hr : s.result = some r) : Moves s e s
  /-- It is stopped, or nothing is received. -/
  | idle (e : RecvEvent) (he : ∀ p now hookNow, e ≠ .packet p now hookNow) (active : Bool)
      (idleMs : UInt32)
      (done : Option DtpResult) (hdone : done ≠ some .ok) :
      Moves s e { s with
        session := { s.session with active := active }, idleMs := idleMs, done := done }
  /-- The packet before is repeated. -/
  | repeated (p : Packet) (now hookNow : UInt32)
      (hseq : packetSeq s.session.request p = s.prevPacketSeq) :
      Moves s (.packet p now hookNow) { s with idleMs := 0, nowTsMs := now }
  /-- A packet is accepted. -/
  | accept (p : Packet) (now hookNow : UInt32) (hrunning : s.result = none)
      (hseq : packetSeq s.session.request p ≠ s.prevPacketSeq) :
      Moves s (.packet p now hookNow)
        ((s.accept p now hookNow).afterPacket (packetSeq s.session.request p))

theorem moves_step (s : RecvState) (e : RecvEvent) : Moves s e (s.step e) := by
  unfold step
  cases hr : s.result with
  | some r => exact .ended e r hr
  | none =>
    have hdone : s.done ≠ some .ok := by
      intro h
      simp [result, h] at hr
    cases e with
    | stop => exact .idle _ (by simp) false s.idleMs s.done hdone
    | timeout =>
      simp only [onTimeout]
      split_ifs
      · exact .idle _ (by simp) false _ _ (by simp)
      · exact .idle _ (by simp) s.session.active _ s.done hdone
    | packet p now hookNow =>
      simp only [onPacket]
      split_ifs with hseq
      · exact .repeated p now hookNow hseq
      · exact .accept p now hookNow hr hseq

@[simp] theorem session_afterPacket (s : RecvState) (seq : UInt32) :
    (s.afterPacket seq).session = s.session := by
  unfold afterPacket
  split_ifs <;> rfl

@[simp] theorem disk_afterPacket (s : RecvState) (seq : UInt32) :
    (s.afterPacket seq).disk = s.disk := by
  unfold afterPacket
  split_ifs <;> rfl

@[simp] theorem log_afterPacket (s : RecvState) (seq : UInt32) :
    (s.afterPacket seq).log = s.log := by
  unfold afterPacket
  split_ifs <;> rfl

@[simp] theorem metric_afterPacket (s : RecvState) (seq : UInt32) :
    (s.afterPacket seq).metric = s.metric := by
  unfold afterPacket
  split_ifs <;> rfl

@[simp] theorem nofPackets_afterPacket (s : RecvState) (seq : UInt32) :
    (s.afterPacket seq).nofPackets = s.nofPackets := by
  unfold afterPacket
  split_ifs <;> rfl

@[simp] theorem prevPacketSeq_afterPacket (s : RecvState) (seq : UInt32) :
    (s.afterPacket seq).prevPacketSeq = s.prevPacketSeq := by
  unfold afterPacket
  split_ifs <;> rfl

@[simp] theorem acceptedOf_accept (s : RecvState) (p : Packet) (now hookNow : UInt32) :
    acceptedOf (s.accept p now hookNow).log = acceptedOf s.log ++ [p] := by
  simp only [accept, acceptedOf, List.filterMap_append]
  split_ifs <;> simp

theorem metric_step (s : RecvState) (e : RecvEvent) : (s.step e).metric = s.metric := by
  have hmoves := s.moves_step e
  generalize s.step e = s' at hmoves ⊢
  cases hmoves with
  | ended => rfl
  | idle => rfl
  | repeated => rfl
  | accept => exact metric_afterPacket _ _

theorem metric_run (s : RecvState) (es : List RecvEvent) :
    (run RecvState.step s es).metric = s.metric := by
  induction es generalizing s with
  | nil => rfl
  | cons e es ih => rw [run_cons, ih, metric_step]

theorem Follows.step {s₀ : Session} {d₀ : Disk} {ctx : HookCtx} {s : RecvState}
    (h : Follows s₀ d₀ ctx s) (e : RecvEvent) :
    Follows s₀ d₀ ctx (s.step e) := by
  have hmoves := s.moves_step e
  generalize s.step e = s' at hmoves ⊢
  cases hmoves with
  | ended => exact h
  | idle =>
    exact ⟨h.request, h.payloadSize, h.node, h.timeout, h.hookCtx, h.bytesReceived, h.output⟩
  | repeated =>
    exact ⟨h.request, h.payloadSize, h.node, h.timeout, h.hookCtx, h.bytesReceived, h.output⟩
  | accept p now hookNow =>
    obtain ⟨ts, hctx⟩ := h.hookCtx
    refine ⟨?_, ?_, ?_, ?_, ?_, ?_, ?_⟩ <;>
      simp only [session_afterPacket, disk_afterPacket, log_afterPacket, acceptedOf_accept]
    · simp [accept, apmOnDataPacket, hctx, h.request]
    · simp [accept, apmOnDataPacket, hctx, h.payloadSize]
    · simp [accept, apmOnDataPacket, hctx, h.node]
    · simp [accept, apmOnDataPacket, hctx, h.timeout]
    · simp [accept, apmOnDataPacket, hctx, h.request, updateAll]
    · simp [accept, apmOnDataPacket, hctx, h.bytesReceived, countBytes]
    · simp [accept, apmOnDataPacket, hctx, h.output, h.request, writePackets]

theorem follows_run {s₀ : Session} {d₀ : Disk} {ctx : HookCtx} {s : RecvState}
    (h : Follows s₀ d₀ ctx s) (es : List RecvEvent) :
    Follows s₀ d₀ ctx (run RecvState.step s es) :=
  invariant (fun _ e h => h.step e) h es

/-- Once the loop is over nothing changes. -/
theorem run_of_result {s : RecvState} {r : DtpResult} (hr : s.result = some r)
    (es : List RecvEvent) :
    run RecvState.step s es = s := by
  induction es with
  | nil => rfl
  | cons e es ih =>
    have hstep : s.step e = s := by simp [step, hr]
    rw [run_cons, hstep, ih]

/-- The packets given to the hook are those received up to some point, without the repetitions. -/
theorem accepted_run {s₀ : Session} {d₀ : Disk} {ctx : HookCtx} {s : RecvState}
    (h : Follows s₀ d₀ ctx s) (es : List RecvEvent) :
    ∃ n, acceptedOf (run RecvState.step s es).log =
      acceptedOf s.log ++ dropRepeats s₀.request s.prevPacketSeq ((packetsOf es).take n) := by
  induction es generalizing s with
  | nil => exact ⟨0, by simp [dropRepeats]⟩
  | cons e es ih =>
    obtain ⟨n, hn⟩ := ih (h.step e)
    have hmoves := s.moves_step e
    rw [run_cons]
    generalize s.step e = s' at hmoves hn ⊢
    cases hmoves with
    | ended _ r hr => exact ⟨0, by rw [run_of_result hr]; simp [dropRepeats]⟩
    | idle _ he =>
      refine ⟨n, ?_⟩
      rw [packetsOf_idle he]
      exact hn
    | repeated p now hookNow hseq =>
      rw [h.request] at hseq
      refine ⟨n + 1, ?_⟩
      rw [hn]
      simp [dropRepeats, hseq]
    | accept p now hookNow _ hseq =>
      rw [h.request] at hseq
      refine ⟨n + 1, ?_⟩
      rw [hn, log_afterPacket, acceptedOf_accept, prevPacketSeq_afterPacket]
      simp [dropRepeats, hseq, accept, h.request]

/-- What the loop counts, and what it means that it has been left with `DTP_OK`. -/
structure Counted (s : RecvState) : Prop where
  /-- The number of packets. -/
  nofPackets : s.nofPackets.toNat = (acceptedOf s.log).length
  /-- There are no more of them than were expected. -/
  le : (acceptedOf s.log).length ≤ s.metric.nofPackets.toNat
  /-- All bytes have been counted. -/
  ok : s.done = some .ok → s.session.bytesReceived = s.session.payloadSize

theorem Counted.step {s : RecvState} (h : Counted s) (e : RecvEvent) : Counted (s.step e) := by
  have hmoves := s.moves_step e
  generalize s.step e = s' at hmoves ⊢
  cases hmoves with
  | ended => exact h
  | idle _ _ active idleMs done hdone => exact ⟨h.nofPackets, h.le, fun hok => absurd hok hdone⟩
  | repeated => exact ⟨h.nofPackets, h.le, h.ok⟩
  | accept p now hookNow hrunning =>
    have hlt : s.nofPackets < s.metric.nofPackets ∧ s.done = none := by
      unfold result at hrunning
      split at hrunning
      · cases hrunning
      · split_ifs at hrunning with htest hactive
        exact ⟨htest.2, ‹_›⟩
    have hlt' := UInt32.lt_iff_toNat_lt.mp hlt.1
    rw [h.nofPackets] at hlt'
    have hmax := s.metric.nofPackets.toNat_lt
    refine ⟨?_, ?_, ?_⟩
    · rw [nofPackets_afterPacket, log_afterPacket, acceptedOf_accept, List.length_append,
        List.length_singleton]
      change (s.nofPackets + 1).toNat = _
      rw [UInt32.toNat_add, h.nofPackets, show (1 : UInt32).toNat = 1 from rfl]
      omega
    · rw [metric_afterPacket, log_afterPacket, acceptedOf_accept, List.length_append,
        List.length_singleton]
      exact hlt'
    · intro hok
      rw [session_afterPacket]
      unfold afterPacket at hok
      split_ifs at hok with hlast hbytes
      · exact hbytes
      · simp at hok
      · exact absurd (hlt.2.symm.trans hok) (by simp)

theorem counted_run {s : RecvState} (h : Counted s) (es : List RecvEvent) :
    Counted (run RecvState.step s es) :=
  invariant (fun _ e h => h.step e) h es

theorem done_of_result {s : RecvState} (h : s.result = some .ok) : s.done = some .ok := by
  unfold result at h
  split at h
  · rename_i hdone
    rw [hdone, h]
  · split_ifs at h <;> cases h

/-- A loop that is left at the last packet has taken all packets up to it, without the repetitions.
-/
theorem accepted_of_ok {s₀ : Session} {d₀ : Disk} {ctx : HookCtx} {s : RecvState}
    (h : Follows s₀ d₀ ctx s) (hdone : s.done = none) (es : List RecvEvent)
    (hprev : ∀ p ∈ packetsOf es, packetSeq s₀.request p = s.prevPacketSeq →
      packetSeq s₀.request p < s.metric.lastPacket)
    (hok : (run RecvState.step s es).result = some .ok) :
    acceptedOf (run RecvState.step s es).log = acceptedOf s.log ++
      dropRepeats s₀.request s.prevPacketSeq
        (upToLast s₀.request s.metric.lastPacket (packetsOf es)) := by
  induction es generalizing s with
  | nil => exact absurd (done_of_result hok) (by simp [hdone])
  | cons e es ih =>
    have hfollows := h.step e
    have hmoves := s.moves_step e
    rw [run_cons] at hok ⊢
    generalize s.step e = s' at hmoves hfollows hok ⊢
    cases hmoves with
    | ended _ r hr =>
      rw [run_of_result hr] at hok
      exact absurd (done_of_result hok) (by simp [hdone])
    | idle _ he active idleMs done hdone' =>
      rw [packetsOf_idle he] at hprev ⊢
      cases done with
      | none => exact ih hfollows rfl hprev hok
      | some r =>
        rw [run_of_result (r := r) rfl] at hok
        exact absurd (done_of_result hok) hdone'
    | repeated p now hookNow hseq =>
      rw [h.request] at hseq
      have hlt := hprev p (List.mem_cons_self ..) hseq
      have hrest := ih hfollows hdone (fun q hq => hprev q (List.mem_cons_of_mem p hq)) hok
      rw [hrest, packetsOf_packet, upToLast, if_neg (UInt32.not_le.mpr hlt), dropRepeats,
        if_pos hseq]
    | accept p now hookNow hrunning hseq =>
      rw [h.request] at hseq hfollows hok ⊢
      rw [packetsOf_packet, upToLast]
      by_cases hlast : packetSeq s₀.request p ≥ s.metric.lastPacket
      · have hresult : ∃ r, ((s.accept p now hookNow).afterPacket (packetSeq s₀.request p)).result =
            some r := by
          rw [afterPacket, if_pos
            (show packetSeq s₀.request p ≥ (s.accept p now hookNow).metric.lastPacket from hlast)]
          exact ⟨_, rfl⟩
        obtain ⟨r, hr⟩ := hresult
        rw [run_of_result hr, if_pos hlast, dropRepeats, if_neg hseq, log_afterPacket,
          acceptedOf_accept]
        rfl
      · have hafter : (s.accept p now hookNow).afterPacket (packetSeq s₀.request p) =
          s.accept p now hookNow := if_neg hlast
        rw [hafter] at hfollows hok ⊢
        have hprev' : ∀ q ∈ packetsOf es, packetSeq s₀.request q =
          (s.accept p now hookNow).prevPacketSeq →
            packetSeq s₀.request q < s.metric.lastPacket := by
          intro q _ hq
          rw [hq]
          change packetSeq s.session.request p < _
          rw [h.request]
          exact UInt32.not_le.mp hlast
        rw [ih hfollows hdone hprev' hok, if_neg hlast, dropRepeats, if_neg hseq, acceptedOf_accept,
          List.append_assoc]
        change _ ++ ([p] ++ dropRepeats _ (packetSeq s.session.request p) _) = _
        rw [h.request]
        rfl

end RecvState

/-- What the hooks start a session with. -/
def Session.startCtx (s : Session) : HookCtx :=
  s.hookCtx.getD { lastPacketTs := 0, segments := initSegmentsCtx, receivedSegments := none }

/-- The packets a completed call of `start_receiving_data` has given to the hook, and what they have
made of the session and its files. -/
structure Received.From (E : ErrorTest) (s : Session) (d : Disk) (ps : List Packet)
    (rec : Received) : Prop where
  /-- The packets: those received up to some point, without the repetitions. -/
  accepted : ∃ n, acceptedOf rec.log = dropRepeats s.request 0xFFFFFFFF (ps.take n)
  /-- The request does not change. -/
  request : rec.session.request = s.request
  /-- Nor does the size. -/
  payloadSize : rec.session.payloadSize = s.payloadSize
  /-- The segments. -/
  hookCtx : ∃ ts, rec.session.hookCtx = (apmOnEnd { s with
    hookCtx := some ⟨ts, updateAll s.startCtx.segments
      ((acceptedOf rec.log).map (packetSeq s.request)),
      s.startCtx.receivedSegments⟩ }).hookCtx
  /-- The byte count. -/
  bytesReceived : rec.session.bytesReceived = countBytes s.bytesReceived (acceptedOf rec.log)
  /-- The file. -/
  output : rec.disk.output = writePackets s.request (if s.bytesReceived > 0 then d.output else [])
    (acceptedOf rec.log)
  /-- It has not taken more packets than were expected. -/
  le : ∃ m, computeDtpMetrics E s.request s.payloadSize = .ok m ∧
    (acceptedOf rec.log).length ≤ m.nofPackets.toNat
  /-- `DTP_OK` means that all bytes have been counted. -/
  ok : rec.result = .ok → rec.session.bytesReceived = s.payloadSize
  /-- It also means that the packets are those up to the last one. -/
  last : rec.result = .ok → (∀ p ∈ ps, packetSeq s.request p ≠ 0xFFFFFFFF) →
    ∃ m, computeDtpMetrics E s.request s.payloadSize = .ok m ∧
      acceptedOf rec.log = dropRepeats s.request 0xFFFFFFFF (upToLast s.request m.lastPacket ps)

theorem apmOnEnd_fields (s : Session) :
    (apmOnEnd s).request = s.request ∧ (apmOnEnd s).payloadSize = s.payloadSize ∧
    (apmOnEnd s).bytesReceived = s.bytesReceived := by
  unfold apmOnEnd
  split
  · exact ⟨rfl, rfl, rfl⟩
  · split <;> exact ⟨rfl, rfl, rfl⟩

/-- The hook at the end looks only at the hook's context. -/
theorem apmOnEnd_hookCtx {s t : Session} (h : s.hookCtx = t.hookCtx) :
    (apmOnEnd s).hookCtx = (apmOnEnd t).hookCtx := by
  unfold apmOnEnd
  rw [h]
  cases t.hookCtx with
  | none => exact h
  | some ctx => cases hrec : ctx.receivedSegments <;> simp [hrec]

/-- What `start_receiving_data` leaves behind, if it has metrics and the loop ends. -/
theorem startReceivingData_eq {E : ErrorTest} {s : Session} {m : Metrics}
    (hm : computeDtpMetrics E s.request s.payloadSize = .ok m) (d : Disk) (now : UInt32)
    (es : List RecvEvent) :
    startReceivingData E s d true now es =
      let t := run RecvState.step
        (.initial { (apmOnStart s d).1 with active := true } (apmOnStart s d).2 m now) es
      .ok (t.result.map fun r => ⟨apmOnEnd t.session, t.disk, r, t.log⟩) := by
  have henter : enterReceive E s d now =
      .ok (.initial { (apmOnStart s d).1 with active := true } (apmOnStart s d).2 m now) := by
    simp only [enterReceive, apmOnStart, hm]
    rfl
  rw [startReceivingData, if_pos rfl, henter]
  rfl

/-- The run behind a call of `start_receiving_data` that has returned. -/
theorem startReceivingData_run {E : ErrorTest} {s : Session} {d : Disk} {now : UInt32}
    {es : List RecvEvent} {rec : Received}
    (h : startReceivingData E s d true now es = .ok (some rec)) :
    ∃ m r, computeDtpMetrics E s.request s.payloadSize = .ok m ∧
      (run RecvState.step (.initial { (apmOnStart s d).1 with active := true }
        (apmOnStart s d).2 m now) es).result = some r ∧
      rec = ⟨apmOnEnd (run RecvState.step
        (.initial { (apmOnStart s d).1 with active := true } (apmOnStart s d).2 m now) es).session,
        (run RecvState.step (.initial { (apmOnStart s d).1 with active := true }
          (apmOnStart s d).2 m now) es).disk, r,
        (run RecvState.step (.initial { (apmOnStart s d).1 with active := true }
          (apmOnStart s d).2 m now) es).log⟩ := by
  cases hm : computeDtpMetrics E s.request s.payloadSize with
  | error f =>
    rw [startReceivingData, if_pos rfl, enterReceive] at h
    simp [apmOnStart, hm, bind, Except.bind] at h
  | ok m =>
    rw [startReceivingData_eq hm] at h
    obtain ⟨r, hr, hrec⟩ := Option.map_eq_some_iff.mp (Except.ok.inj h)
    exact ⟨m, r, rfl, hr, hrec.symm⟩

theorem received_from {E : ErrorTest} {s : Session} {d : Disk} {now : UInt32} {es : List RecvEvent}
    {rec : Received} (h : startReceivingData E s d true now es = .ok (some rec)) :
    rec.From E s d (packetsOf es) := by
  obtain ⟨m, r, hm, hr, rfl⟩ := startReceivingData_run h
  have hstart :
    (RecvState.initial { (apmOnStart s d).1 with active := true } (apmOnStart s d).2 m now).Follows
      { (apmOnStart s d).1 with active := true } (apmOnStart s d).2 s.startCtx :=
    ⟨rfl, rfl, rfl, rfl, ⟨s.startCtx.lastPacketTs, rfl⟩, rfl, rfl⟩
  have hfollows := RecvState.follows_run hstart es
  have hcounted := RecvState.counted_run
    (s := .initial { (apmOnStart s d).1 with active := true } (apmOnStart s d).2 m now)
    ⟨rfl, Nat.zero_le _, by simp [RecvState.initial]⟩ es
  have hmetric := RecvState.metric_run
    (.initial { (apmOnStart s d).1 with active := true } (apmOnStart s d).2 m now) es
  obtain ⟨n, hn⟩ := RecvState.accepted_run hstart es
  have hlast := RecvState.accepted_of_ok hstart rfl es
  generalize run RecvState.step
    (.initial { (apmOnStart s d).1 with active := true } (apmOnStart s d).2 m now) es = t at *
  obtain ⟨hreq, hsize, hbytes⟩ := apmOnEnd_fields t.session
  obtain ⟨ts, hctx⟩ := hfollows.hookCtx
  refine ⟨⟨n, hn⟩, hreq.trans hfollows.request, hsize.trans hfollows.payloadSize,
    ⟨ts, apmOnEnd_hookCtx hctx⟩,
    hbytes.trans hfollows.bytesReceived, ?_, ⟨m, hm, ?_⟩, ?_, ?_⟩
  · have houtput : (apmOnStart s d).2.output = if s.bytesReceived > 0 then d.output else [] := by
      simp only [apmOnStart]
      split_ifs <;> rfl
    rw [← houtput]
    exact hfollows.output
  · rw [← show t.metric = m from hmetric]
    exact hcounted.le
  · rintro rfl
    exact hbytes.trans ((hcounted.ok (RecvState.done_of_result hr)).trans hfollows.payloadSize)
  · rintro rfl hmax
    exact ⟨m, hm, hlast (fun p hp hp' => absurd hp' (hmax p hp)) hr⟩

end LibDtp
