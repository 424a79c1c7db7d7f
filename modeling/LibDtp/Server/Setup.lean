import LibDtp.Protocol.Wire
import LibDtp.Server.Transfer

/-!
# Setting up a transfer

How a request becomes a transfer: `setup_server_transfer` and the body of `dtp_server_run` on one
path, and the set-up half of `dtp_vmem_server_run` on the other. Both end in `start_sending_data`.

## The model

`get_payload_meta` is the application's; here it is a function from the payload id to the payload's
size, if there is one. The pointers of a `dtp_payload_meta_t` are not part of the context: what its
`read` callback does is part of every tick of the send machine.

## What is proved

* `run_ne_fault` — once the metrics are computed, a request with at most eight intervals and an
  `mtu` other than `8` goes through the send machine without a fault, whatever the world does.
* `requests_faultless_iff` — and a request, of any bytes and on either path, is served without a
  fault from beginning to end exactly if it asks for between one and eight intervals, with a
  throughput other than `0` and an `mtu` other than `8`.
-/

namespace LibDtp

open Bytes

/-- `compute_transfer_size`. -/
def computeTransferSize (ctx : ServerTransferCtx) : Except Fault UInt32 :=
  let chunkSize := ctx.request.chunk.toUInt32
  ctx.request.forIntervals ctx.request.nofIntervals.toNat (fun size cur =>
    .ok (if cur.stop = uint32Max then size + (ctx.payloadSize - cur.start * chunkSize)
      else size + (cur.stop * chunkSize - cur.start * chunkSize))) 0

/-- A request as CSP delivers it. -/
structure CspRequest where
  /-- `id.dst`, the node it was sent to. -/
  dst : UInt16
  /-- The bytes of its buffer. -/
  data : List UInt8

/-- `setup_server_transfer`, up to `get_payload_meta`: the request is copied into the context. -/
def copyRequest (host : ByteOrder) (ctx : ServerTransferCtx) (dst : UInt16) (request : CspRequest) :
    ServerTransferCtx :=
  let req := MetaReq.ofBytes host request.data
  { ctx with
    request := { req with keepAliveInterval := keepAliveToHost host req.keepAliveInterval }
    srvNode := request.dst
    destPort := dst }

/-- `setup_server_transfer`: the context after it, and the response, if there is one. `buffer` says
whether `csp_buffer_get` succeeds. -/
def setupServerTransfer (host : ByteOrder) (getPayloadMeta : UInt8 → Option UInt32) (buffer : Bool)
    (ctx : ServerTransferCtx) (dst : UInt16) (request : CspRequest) :
    Except Fault (ServerTransferCtx × Option MetaResp) :=
  let ctx := copyRequest host ctx dst request
  match getPayloadMeta ctx.request.payloadId with
  | none => .ok (ctx, none)
  | some size => do
    let ctx := { ctx with payloadSize := size }
    let sizeInBytes ← computeTransferSize ctx
    let ctx := { ctx with sizeInBytes := sizeInBytes }
    return (ctx, if buffer then some ⟨sizeInBytes, size⟩ else none)

/-- `dtp_server_run`, from the packet it reads on: the transfer it starts, if it starts one. -/
def serveRequest (E : ErrorTest) (host : ByteOrder) (getPayloadMeta : UInt8 → Option UInt32)
    (buffer : Bool) (ctx : ServerTransferCtx) (src : UInt16) (request : CspRequest) (now : UInt32) :
    Except Fault (Option SendState) := do
  let (ctx, response) ← setupServerTransfer host getPayloadMeta buffer ctx src request
  return response.map fun _ => startSendingData E { ctx with keepRunning := true } now

/-- `dtp_vmem_server_run`, from the message it receives to `keep_running = true`. -/
def setupVmemTransfer (ctx : ServerTransferCtx) (msg : DtpMsg) : Except Fault ServerTransferCtx :=
  do
  let ctx := { ctx with request := msg.metaReq, payloadSize := msg.size }
  let sizeInBytes ← computeTransferSize ctx
  return { ctx with sizeInBytes := sizeInBytes, srvNode := msg.srvNode, destPort := msg.destPort }

/-- A `DTP_REQUEST_START_TRANSFER`, from the handler through the queue to `start_sending_data`. -/
def serveStart (E : ErrorTest) (host : ByteOrder) (stack : Vector Interval 8)
    (ctx : ServerTransferCtx) (dst src : UInt16) (body : List UInt8) (now : UInt32) :
    Except Fault SendState := do
  let msg ← startMsg host stack dst src body
  let ctx ← setupVmemTransfer ctx msg
  return startSendingData E { ctx with keepRunning := true } now

/-! ### What goes through -/

namespace SendState

/-- The send machine has not run into what C leaves undefined, and its request will not make it do
so. -/
structure Sound (s : SendState) : Prop where
  /-- No fault so far. -/
  pc : ∀ f, s.pc ≠ .fault f
  /-- The intervals are there. -/
  le : s.ctx.request.nofIntervals.toNat ≤ 8
  /-- The open end can be computed. -/
  mtu : s.ctx.request.mtu ≠ 8

theorem Sound.endRound {s : SendState} (h : s.Sound) (i : ℕ) : (s.endRound i).Sound := by
  refine ⟨?_, by simpa using h.le, by simpa using h.mtu⟩
  intro f
  unfold SendState.endRound
  split_ifs <;> simp

theorem Sound.intervalStep {s : SendState} (h : s.Sound) (i : ℕ) : (s.intervalStep i).Sound := by
  unfold SendState.intervalStep
  split_ifs with hi
  · rw [s.ctx.request.intervalAt_eq_ok (show i < 8 by have := h.le; omega)]
    simp only [if_neg (MetaReq.chunk_ne_zero h.mtu)]
    split_ifs <;> exact ⟨by simp [enter], h.le, h.mtu⟩
  · exact ⟨by simp, h.le, h.mtu⟩

theorem Sound.step {s : SendState} (h : s.Sound) (t : Tick) : (s.step t).Sound := by
  unfold SendState.step
  cases hpc : s.pc with
  | interval i => exact h.intervalStep i
  | poll i c =>
    simp only [pollStep]
    split_ifs
    · apply Sound.endRound
      exact ⟨h.pc, h.le, h.mtu⟩
    · exact ⟨by simp [sendPacket], h.le, h.mtu⟩
    · exact h.endRound i
    · exact h.endRound i
  | finished => exact h
  | fault f => exact absurd hpc (h.pc f)

theorem Sound.run {s : SendState} (h : s.Sound) (ts : List Tick) : (s.run ts).Sound := by
  induction ts generalizing s with
  | nil => exact h
  | cons t ts ih => exact ih (h.step t)

end SendState

/-- A request whose metrics can be computed is sent without a fault, whatever the world does. -/
theorem run_ne_fault (E : ErrorTest) {ctx : ServerTransferCtx} (ht : ctx.request.throughput ≠ 0)
    (hm : ctx.request.mtu ≠ 8) (h1 : 1 ≤ ctx.request.nofIntervals.toNat)
    (h8 : ctx.request.nofIntervals.toNat ≤ 8) (now : UInt32) (ts : List Tick) (f : Fault) :
    ((startSendingData E ctx now).run ts).pc ≠ .fault f := by
  obtain ⟨m, hmetrics⟩ :=
    (computeDtpMetrics_ok_iff E ctx.request ctx.payloadSize).mpr ⟨ht, hm, h1, h8⟩
  have hsound : (startSendingData E ctx now).Sound := by
    rw [startSendingData, hmetrics]
    exact ⟨by simp, h8, hm⟩
  exact (hsound.run ts).pc f

/-- A request whose metrics cannot be computed is a fault at once. -/
theorem start_eq_fault (E : ErrorTest) (ctx : ServerTransferCtx)
    (h : ¬ (ctx.request.throughput ≠ 0 ∧ ctx.request.mtu ≠ 8 ∧ 1 ≤ ctx.request.nofIntervals.toNat ∧
      ctx.request.nofIntervals.toNat ≤ 8))
    (now : UInt32) : ∃ f, (startSendingData E ctx now).pc = .fault f := by
  rw [← computeDtpMetrics_ok_iff E _ ctx.payloadSize] at h
  unfold startSendingData
  cases hm : computeDtpMetrics E ctx.request ctx.payloadSize with
  | ok m => exact absurd ⟨m, hm⟩ h
  | error f => exact ⟨f, rfl⟩

theorem computeTransferSize_eq_ok (ctx : ServerTransferCtx)
    (h : ctx.request.nofIntervals.toNat ≤ 8) :
    ∃ size, computeTransferSize ctx = .ok size := by
  rw [computeTransferSize, MetaReq.forIntervals_eq_foldlM _ h]
  exact ⟨_, foldlM_ok _ _ _⟩

theorem computeTransferSize_eq_error (ctx : ServerTransferCtx)
    (h : 8 < ctx.request.nofIntervals.toNat) :
    ∃ f, computeTransferSize ctx = .error f :=
  ctx.request.forIntervals_eq_error h _ _

/-- The context is set up for a message with no more than eight intervals. -/
theorem setupVmemTransfer_eq_ok (ctx : ServerTransferCtx) {msg : DtpMsg}
    (h : msg.metaReq.nofIntervals.toNat ≤ 8) :
    ∃ total, setupVmemTransfer ctx msg =
      .ok ⟨msg.srvNode, msg.destPort, total, ctx.keepRunning, msg.metaReq, msg.size,
        ctx.clientAliveTs⟩ := by
  obtain ⟨total, htotal⟩ :=
    computeTransferSize_eq_ok { ctx with request := msg.metaReq, payloadSize := msg.size } h
  exact ⟨total, by rw [setupVmemTransfer, htotal]; rfl⟩

/-! ### Serving whatever arrives -/

/-- A request of these bytes is served without a fault on the path of `setup_server_transfer`:
whatever payloads there are, whatever the context holds, and whatever the world does while the data
is sent. -/
def MetaFaultless (E : ErrorTest) (host : ByteOrder) (data : List UInt8) : Prop :=
  ∀ getPayloadMeta buffer ctx src dst now ts, ∃ s, serveRequest E host getPayloadMeta buffer ctx src
    ⟨dst, data⟩ now = .ok s ∧
    ∀ t ∈ s, ∀ f, (t.run ts).pc ≠ .fault f

/-- A start request of these bytes is served without a fault on the path of
`vmem_dtp_request_handler`. -/
def StartFaultless (E : ErrorTest) (host : ByteOrder) (body : List UInt8) : Prop :=
  ∀ stack ctx dst src now ts, ∃ s, serveStart E host stack ctx dst src body now = .ok s ∧
    ∀ f, (s.run ts).pc ≠ .fault f

/-- What a request is served with, once its payload is found: nothing if it has too many intervals.
-/
theorem serveRequest_some (E : ErrorTest) (host : ByteOrder)
    {getPayloadMeta : UInt8 → Option UInt32} {size : UInt32} (buffer : Bool)
    (ctx : ServerTransferCtx) (src : UInt16) (request : CspRequest) (now : UInt32)
    (hsize : getPayloadMeta (MetaReq.ofBytes host request.data).payloadId = some size) :
    serveRequest E host getPayloadMeta buffer ctx src request now =
      (computeTransferSize { copyRequest host ctx src request with payloadSize := size }).map
        fun total =>
        if buffer then some (startSendingData E { copyRequest host ctx src request with
          payloadSize := size, sizeInBytes := total, keepRunning := true } now)
        else none := by
  have hid : getPayloadMeta (copyRequest host ctx src request).request.payloadId = some size :=
    hsize
  rw [serveRequest, setupServerTransfer]
  simp only [hid]
  cases computeTransferSize { copyRequest host ctx src request with payloadSize := size } with
  | error f => rfl
  | ok total => cases buffer <;> rfl

theorem metaFaultless_iff (E : ErrorTest) (host : ByteOrder) (data : List UInt8) :
    MetaFaultless E host data ↔ (MetaReq.ofBytes host data).throughput ≠ 0 ∧
      (MetaReq.ofBytes host data).mtu ≠ 8 ∧
      1 ≤ (MetaReq.ofBytes host data).nofIntervals.toNat ∧
        (MetaReq.ofBytes host data).nofIntervals.toNat ≤ 8 := by
  constructor
  · intro h
    by_contra hbad
    obtain ⟨s, hs, hfault⟩ :=
      h (fun _ => some 0) true ⟨0, 0, 0, false, MetaReq.ofBytes host data, 0, 0⟩ 0 0 0 []
    rw [serveRequest_some E host true _ 0 ⟨0, data⟩ 0 rfl] at hs
    by_cases h8 : (MetaReq.ofBytes host data).nofIntervals.toNat ≤ 8
    · obtain ⟨total, htotal⟩ :=
        computeTransferSize_eq_ok { copyRequest host _ 0 ⟨0, data⟩ with payloadSize := 0 } h8
      rw [htotal] at hs
      obtain ⟨f, hf⟩ := start_eq_fault E { copyRequest host _ 0 ⟨0, data⟩ with
        payloadSize := 0, sizeInBytes := total, keepRunning := true } hbad 0
      exact hfault _ (Except.ok.inj hs).symm f hf
    · obtain ⟨f, hf⟩ :=
        computeTransferSize_eq_error { copyRequest host _ 0 ⟨0, data⟩ with payloadSize := 0 }
        (not_le.mp h8)
      rw [hf] at hs
      cases hs
  · rintro ⟨ht, hm, h1, h8⟩ getPayloadMeta buffer ctx src dst now ts
    cases hsize : getPayloadMeta (MetaReq.ofBytes host data).payloadId with
    | none =>
      refine ⟨none, ?_, by simp⟩
      simp only [serveRequest, setupServerTransfer, copyRequest, hsize]
      rfl
    | some size =>
      obtain ⟨total, htotal⟩ :=
          computeTransferSize_eq_ok { copyRequest host ctx src ⟨dst, data⟩ with
        payloadSize := size } h8
      rw [serveRequest_some E host buffer ctx src ⟨dst, data⟩ now hsize, htotal]
      refine ⟨_, rfl, ?_⟩
      intro t hmem f
      cases buffer with
      | false => simp at hmem
      | true =>
        obtain rfl : _ = t := Option.some.inj hmem
        exact run_ne_fault E ht hm h1 h8 now ts f

/-- What a start request with no more than eight intervals is served with. -/
theorem serveStart_eq_ok (E : ErrorTest) (host : ByteOrder) (stack : Vector Interval 8)
    (ctx : ServerTransferCtx) (dst src : UInt16) (body : List UInt8) (now : UInt32)
    (h : (MetaReq.ofBytes host (body.drop 16)).nofIntervals.toNat ≤ 8) :
    ∃ ctx', serveStart E host stack ctx dst src body now = .ok (startSendingData E ctx' now) ∧
      ctx'.request.throughput = host.be32toh (MetaReq.ofBytes host (body.drop 16)).throughput ∧
      ctx'.request.mtu = host.be16toh (MetaReq.ofBytes host (body.drop 16)).mtu ∧
      ctx'.request.nofIntervals = (MetaReq.ofBytes host (body.drop 16)).nofIntervals := by
  obtain ⟨msg, hmsg, hfields⟩ := startMsg_eq_ok host stack dst src body h
  obtain ⟨total, htotal⟩ :=
    setupVmemTransfer_eq_ok ctx (show msg.metaReq.nofIntervals.toNat ≤ 8 by rwa [hfields.2.2])
  refine ⟨⟨msg.srvNode, msg.destPort, total, true, msg.metaReq, msg.size, ctx.clientAliveTs⟩, ?_,
    hfields⟩
  simp only [serveStart, hmsg, htotal, bind, Except.bind]
  rfl

theorem startFaultless_iff (E : ErrorTest) (host : ByteOrder) (body : List UInt8) :
    StartFaultless E host body ↔
      host.be32toh (MetaReq.ofBytes host (body.drop 16)).throughput ≠ 0 ∧
      host.be16toh (MetaReq.ofBytes host (body.drop 16)).mtu ≠ 8 ∧
      1 ≤ (MetaReq.ofBytes host (body.drop 16)).nofIntervals.toNat ∧
      (MetaReq.ofBytes host (body.drop 16)).nofIntervals.toNat ≤ 8 := by
  constructor
  · intro h
    by_contra hbad
    let stack : Vector Interval 8 := Vector.replicate 8 ⟨0, 0⟩
    let ctx : ServerTransferCtx := ⟨0, 0, 0, false, MetaReq.ofBytes host body, 0, 0⟩
    obtain ⟨s, hs, hfault⟩ := h stack ctx 0 0 0 []
    by_cases h8 : (MetaReq.ofBytes host (body.drop 16)).nofIntervals.toNat ≤ 8
    · obtain ⟨ctx', hserve, ht, hm, hn⟩ := serveStart_eq_ok E host stack ctx 0 0 body 0 h8
      rw [← ht, ← hm, ← hn] at hbad
      obtain ⟨f, hf⟩ := start_eq_fault E ctx' hbad 0
      obtain rfl := Except.ok.inj (hserve.symm.trans hs)
      exact hfault f hf
    · obtain ⟨f, hf⟩ := startMsg_eq_error host stack 0 0 body (not_le.mp h8)
      rw [serveStart, hf] at hs
      cases hs
  · rintro ⟨ht, hm, h1, h8⟩ stack ctx dst src now ts
    obtain ⟨ctx', hserve, ht', hm', hn'⟩ := serveStart_eq_ok E host stack ctx dst src body now h8
    rw [← ht'] at ht
    rw [← hm'] at hm
    rw [← hn'] at h1 h8
    exact ⟨_, hserve, run_ne_fault E ht hm h1 h8 now ts⟩

/-- The requests that are served without a fault, on either path. -/
theorem requests_faultless_iff (E : ErrorTest) (host : ByteOrder) (data body : List UInt8) :
    (MetaFaultless E host data ↔
      (MetaReq.ofBytes host data).throughput ≠ 0 ∧ (MetaReq.ofBytes host data).mtu ≠ 8 ∧
        1 ≤ (MetaReq.ofBytes host data).nofIntervals.toNat ∧
          (MetaReq.ofBytes host data).nofIntervals.toNat ≤ 8) ∧
    (StartFaultless E host body ↔
      host.be32toh (MetaReq.ofBytes host (body.drop 16)).throughput ≠ 0 ∧
        host.be16toh (MetaReq.ofBytes host (body.drop 16)).mtu ≠ 8 ∧
        1 ≤ (MetaReq.ofBytes host (body.drop 16)).nofIntervals.toNat ∧
        (MetaReq.ofBytes host (body.drop 16)).nofIntervals.toNat ≤ 8) :=
  ⟨metaFaultless_iff E host data, startFaultless_iff E host body⟩

/-- The bytes of a request for 1000 bytes a second with an `mtu` of `8`. -/
def emptyPackets : List UInt8 :=
  [0xE8, 3, 0, 0, 1, 0, 0, 0, 1, 0, 0, 0, 8, 0, 0, 0] ++ List.replicate 64 0

/-- The bytes of a start request with nine intervals, an `mtu` of `12` and 1000 bytes a second. -/
def nineIntervals : List UInt8 :=
  List.replicate 16 0 ++ [0, 0, 3, 0xE8, 9, 0, 0, 0, 0, 0, 0, 1, 0, 12, 0, 0] ++ List.replicate 64 0

/-- On a little-endian server the first of these is a division by zero, and the second an access
outside the intervals. -/
theorem requests_faulty :
    ¬ MetaFaultless .exact .little emptyPackets ∧
      ¬ StartFaultless .exact .little nineIntervals := by
  let ctx : ServerTransferCtx := ⟨0, 0, 0, false, oneInterval 12 ⟨0, 0⟩, 0, 0⟩
  constructor
  · intro h
    obtain ⟨s, hs, hfault⟩ := h (fun _ => some 100) true ctx 0 0 0 []
    have hpc :
      (serveRequest .exact .little (fun _ => some 100) true ctx 0 ⟨0, emptyPackets⟩ 0).toOption.map
        (Option.map (·.pc)) = some (some (.fault .divByZero)) := by decide +kernel
    rw [hs] at hpc
    obtain ⟨t, ht, htpc⟩ := Option.map_eq_some_iff.mp (Option.some.inj hpc)
    exact hfault t ht _ htpc
  · intro h
    obtain ⟨s, hs, -⟩ := h (Vector.replicate 8 ⟨0, 0⟩) ctx 0 0 0 []
    have hnone : (serveStart .exact .little
        (Vector.replicate 8 ⟨0, 0⟩) ctx 0 0 nineIntervals 0).toOption.map (·.pc) = none := by
      decide +kernel
    rw [hs] at hnone
    cases hnone

end LibDtp
