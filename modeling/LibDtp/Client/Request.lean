import LibDtp.Vmem.Server

/-!
# What a client asks for

The two requests a client can send for a transfer: `send_remote_meta_req` of `dtp_protocol.c`, which
copies the request of a session into a packet, and `vmem_request_dtp_start_download` of
`dtp_vmem_client.c`, which encodes it field by field for the VMEM server.

## The model

A request is the bytes of the packet that is sent. The client writes to the fields of a structure
that lies over the packet's buffer, and what it does not write to is what the buffer held before:
the reserved bytes on both paths, and the first word, the payload id and the unused intervals on the
second. The byte orders of the two hosts are parameters.

## What is proved

* `ofBytes_toBytes` — a host reads a meta request that a host of its own byte order has copied.
* `start_request_decoded` — the VMEM server decodes what `vmem_request_dtp_start_download` has
  encoded, whatever the byte orders of the two are.
* `keep_alive_survives_iff` — the keep-alive interval, which both ends narrow to 16 bits on the
  wrong side of the byte swap, arrives only between big-endian hosts, or if it is `0`.
-/

namespace LibDtp

open Bytes

/-- The bytes of an `interval_t`. -/
def Interval.toBytes (host : ByteOrder) (i : Interval) : List UInt8 :=
  host.store 4 i.start.toNat ++ host.store 4 i.stop.toNat

/-- The bytes of a `dtp_meta_req_t`, whose two reserved bytes hold `reserved`. -/
def MetaReq.toBytes (host : ByteOrder) (reserved : UInt8 × UInt8) (r : MetaReq) : List UInt8 :=
  host.store 4 r.throughput.toNat ++ ([r.nofIntervals, r.payloadId, reserved.1, reserved.2] ++
    (host.store 4 r.sessionId.toNat ++
      (host.store 2 r.mtu.toNat ++ (host.store 2 r.keepAliveInterval.toNat ++
      r.intervals.toList.flatMap (Interval.toBytes host)))))

/-- `htobe32` of a 16-bit field, put back in it. -/
def keepAliveToWire (host : ByteOrder) (x : UInt16) : UInt16 := (host.htobe32 x.toUInt32).toUInt16

/-- The data of the packet of `send_remote_meta_req`, in a buffer whose reserved bytes are those of
the session. -/
def sendRemoteMetaReq (host : ByteOrder) (reserved : UInt8 × UInt8) (request : MetaReq) :
    List UInt8 :=
  MetaReq.toBytes host reserved
    { request with keepAliveInterval := keepAliveToWire host request.keepAliveInterval }

/-- `dtp_start_req_t`. -/
structure StartReq where
  /-- `session_id`, which nobody reads. -/
  sessionId : UInt32
  /-- Where the payload is. -/
  vaddr : UInt64
  /-- How long it is. -/
  size : UInt32
  /-- The request. -/
  metaReq : MetaReq
  /-- The reserved bytes of the request. -/
  reserved : UInt8 × UInt8

/-- The bytes of a `dtp_start_req_t`. -/
def StartReq.toBytes (host : ByteOrder) (r : StartReq) : List UInt8 :=
  host.store 4 r.sessionId.toNat ++ (host.store 8 r.vaddr.toNat ++ (host.store 4 r.size.toNat ++
    r.metaReq.toBytes host r.reserved))

/-- The loop of `vmem_request_dtp_start_download`: each of the first `n` intervals is written, in a
packet that holds `out`. -/
def encodeIntervals (host : ByteOrder) (src : Vector Interval 8) (n : ℕ) (out : Vector Interval 8) :
    Vector Interval 8 :=
  Vector.ofFn fun i =>
    if i < n then ⟨host.htobe32 (src.get i).start, host.htobe32 (src.get i).stop⟩ else out.get i

/-- The request of `vmem_request_dtp_start_download`, in a packet that holds `buffer`. -/
def startReq (host : ByteOrder) (buffer : StartReq) (request : MetaReq) (sessionId : UInt32)
    (vaddr : UInt64) (size : UInt32) : StartReq :=
  let nofIntervals := if request.nofIntervals > 8 then 8 else request.nofIntervals
  { buffer with
    vaddr := host.htobe64 vaddr
    size := host.htobe32 size
    metaReq := { buffer.metaReq with
      throughput := host.htobe32 request.throughput
      mtu := host.htobe16 request.mtu
      sessionId := host.htobe32 sessionId
      keepAliveInterval := keepAliveToWire host request.keepAliveInterval
      nofIntervals := nofIntervals
      intervals :=
        encodeIntervals host request.intervals nofIntervals.toNat buffer.metaReq.intervals } }

/-- The packet of `vmem_request_dtp_start_download`. -/
def vmemRequestDtpStartDownload (host : ByteOrder) (buffer : StartReq) (request : MetaReq)
    (sessionId : UInt32) (vaddr : UInt64) (size : UInt32) : VmemRequest :=
  ⟨dtpRequestStartTransfer, (startReq host buffer request sessionId vaddr size).toBytes host⟩

/-! ### Where the fields are -/

theorem drop_flatMap_toBytes (host : ByteOrder) (l : List Interval) (i : ℕ) :
    (l.flatMap (Interval.toBytes host)).drop (8 * i) =
      (l.drop i).flatMap (Interval.toBytes host) := by
  induction l generalizing i with
  | nil => simp
  | cons a l ih =>
    cases i with
    | zero => rfl
    | succ i =>
      have hlen : (Interval.toBytes host a).length = 8 := by simp [Interval.toBytes]
      rw [List.flatMap_cons, List.drop_succ_cons, ← ih, List.drop_append, hlen,
        List.drop_of_length_le (by rw [hlen]; omega), List.nil_append]
      congr 1

/-- The words of a `dtp_meta_req_t`, at their offsets. -/
structure MetaReq.LaidOut (host : ByteOrder) (r : MetaReq) (bs : List UInt8) : Prop where
  /-- `throughput`, at offset 0. -/
  throughput : (bs.drop 0).take 4 = host.store 4 r.throughput.toNat
  /-- `nof_intervals`, at offset 4. -/
  nofIntervals : bs.getD 4 0 = r.nofIntervals
  /-- `payload_id`, at offset 5. -/
  payloadId : bs.getD 5 0 = r.payloadId
  /-- `session_id`, at offset 8. -/
  sessionId : (bs.drop 8).take 4 = host.store 4 r.sessionId.toNat
  /-- `mtu`, at offset 12. -/
  mtu : (bs.drop 12).take 2 = host.store 2 r.mtu.toNat
  /-- `keep_alive_interval`, at offset 14. -/
  keepAliveInterval : (bs.drop 14).take 2 = host.store 2 r.keepAliveInterval.toNat
  /-- `start` of the intervals, from offset 16 on. -/
  start : ∀ i : Fin 8, (bs.drop (16 + 8 * i)).take 4 = host.store 4 (r.intervals.get i).start.toNat
  /-- `end` of the intervals, from offset 20 on. -/
  stop : ∀ i : Fin 8, (bs.drop (20 + 8 * i)).take 4 = host.store 4 (r.intervals.get i).stop.toNat

theorem MetaReq.laidOut_toBytes (host : ByteOrder) (reserved : UInt8 × UInt8) (r : MetaReq) :
    r.LaidOut host (r.toBytes host reserved) := by
  have hdrop : ∀ n i, n ≤ i → ∀ v, (host.store n v).drop i = [] :=
    fun n i h v => List.drop_of_length_le (by simpa using h)
  have hintervals : ∀ i : Fin 8, (r.toBytes host reserved).drop (16 + 8 * i) =
      (r.intervals.get i).toBytes host ++ (r.intervals.toList.drop (i + 1)).flatMap
          (Interval.toBytes host) := by
    intro i
    have hi : i.val < r.intervals.toList.length := by simp
    have hget : r.intervals.toList[i.val] = r.intervals.get i := by simp [Vector.get]
    have hhead : (r.toBytes host reserved).drop 16 =
        r.intervals.toList.flatMap (Interval.toBytes host) := by
      simp [MetaReq.toBytes, List.drop_append, hdrop]
    rw [← List.drop_drop, hhead, drop_flatMap_toBytes, List.drop_eq_getElem_cons hi,
      List.flatMap_cons, hget]
  refine ⟨?_, ?_, ?_, ?_, ?_, ?_, ?_, ?_⟩
  · simp [MetaReq.toBytes]
  · simp [MetaReq.toBytes]
  · simp [MetaReq.toBytes, List.getElem?_append]
  · simp [MetaReq.toBytes, List.drop_append, hdrop]
  · simp [MetaReq.toBytes, List.drop_append, hdrop]
  · simp [MetaReq.toBytes, List.drop_append, hdrop]
  · intro i
    rw [hintervals i]
    simp [Interval.toBytes]
  · intro i
    rw [show 20 + 8 * i.val = 16 + 8 * i.val + 4 by omega, ← List.drop_drop, hintervals i]
    simp [Interval.toBytes]

/-- A host reads what a host of its own byte order has copied. -/
theorem MetaReq.ofBytes_toBytes (host : ByteOrder) (reserved : UInt8 × UInt8) (r : MetaReq) :
    MetaReq.ofBytes host (r.toBytes host reserved) = r := by
  have h := r.laidOut_toBytes host reserved
  obtain ⟨throughput, nofIntervals, payloadId, sessionId, mtu, keepAliveInterval, intervals⟩ := r
  have hintervals : (Vector.ofFn fun i : Fin 8 =>
      (⟨host.word32 (MetaReq.toBytes host reserved
          ⟨throughput, nofIntervals, payloadId, sessionId, mtu, keepAliveInterval, intervals⟩)
            (16 + 8 * i),
        host.word32 (MetaReq.toBytes host reserved
          ⟨throughput, nofIntervals, payloadId, sessionId, mtu, keepAliveInterval, intervals⟩)
            (20 + 8 * i)⟩ : Interval)) =
      intervals := by
    apply Vector.ext
    intro i hi
    rw [Vector.getElem_ofFn, host.word32_of_take (h.start ⟨i, hi⟩),
      host.word32_of_take (h.stop ⟨i, hi⟩)]
    rfl
  rw [MetaReq.ofBytes, host.word32_of_take h.throughput, h.nofIntervals, h.payloadId,
    host.word32_of_take h.sessionId, host.word16_of_take h.mtu,
    host.word16_of_take h.keepAliveInterval, hintervals]

/-! ### The VMEM request -/

/-- The intervals the handler decodes. -/
theorem decodeIntervals_spec (host : ByteOrder) (wire : MetaReq) {n : ℕ} (h : n ≤ 8)
    (out : Vector Interval 8) :
    ∃ out', decodeIntervals host wire n out = .ok out' ∧ ∀ i : Fin 8, i.val < n →
      out'.get i =
        ⟨host.be32toh (wire.intervals.get i).start, host.be32toh (wire.intervals.get i).stop⟩ := by
  induction n with
  | zero => exact ⟨out, rfl, fun i hi => absurd hi (Nat.not_lt_zero _)⟩
  | succ n ih =>
    obtain ⟨out', hout, hget⟩ := ih (by omega)
    refine ⟨_, by rw [decodeIntervals, hout, wire.intervalAt_eq_ok (by omega)]; rfl, fun i hi => ?_⟩
    change (out'.setIfInBounds n _)[i.val] = _
    by_cases hn : n = i.val
    · subst hn
      rw [Vector.getElem_setIfInBounds_self]
      rfl
    · rw [Vector.getElem_setIfInBounds_ne i.isLt hn]
      exact hget i (by omega)

section StartReq

variable (host : ByteOrder) (r : StartReq)

/-- A word that is stored is passed by. -/
theorem drop_store_of_le {n i : ℕ} (h : n ≤ i) (v : ℕ) : (host.store n v).drop i = [] :=
  List.drop_of_length_le (by simpa using h)

/-- Where the meta request is in a `dtp_start_req_t`. -/
theorem StartReq.drop_toBytes : (r.toBytes host).drop 16 = r.metaReq.toBytes host r.reserved := by
  simp [StartReq.toBytes, List.drop_append, drop_store_of_le]

/-- Where the address is. -/
theorem StartReq.vaddr_toBytes : ((r.toBytes host).drop 4).take 8 = host.store 8 r.vaddr.toNat := by
  simp [StartReq.toBytes]

/-- Where the size is. -/
theorem StartReq.size_toBytes : ((r.toBytes host).drop 12).take 4 = host.store 4 r.size.toNat := by
  simp [StartReq.toBytes, List.drop_append, drop_store_of_le]

end StartReq

theorem MetaReq.get_ofBytes (host : ByteOrder) (bs : List UInt8) (i : Fin 8) :
    (MetaReq.ofBytes host bs).intervals.get i =
      ⟨host.word32 bs (16 + 8 * i), host.word32 bs (20 + 8 * i)⟩ := by
  change (Vector.ofFn _)[i.val] = _
  rw [Vector.getElem_ofFn]

/-- The message the handler makes of a request: its number of intervals, and the words decoded. -/
theorem startMsg_toBytes (client server : ByteOrder) (r : StartReq)
    (h8 : r.metaReq.nofIntervals.toNat ≤ 8) (stack : Vector Interval 8) (dst src : UInt16) :
    ∃ intervals, (∀ i : Fin 8, i.val < r.metaReq.nofIntervals.toNat → intervals.get i =
        ⟨server.be32toh (server.word32 (r.metaReq.toBytes client r.reserved) (16 + 8 * i)),
          server.be32toh (server.word32 (r.metaReq.toBytes client r.reserved) (20 + 8 * i))⟩) ∧
      startMsg server stack dst src (r.toBytes client) = .ok
        { srvNode := dst
          destPort := src
          vaddr := server.be64toh (server.word64 (r.toBytes client) 4)
          size := server.be32toh (server.word32 (r.toBytes client) 12)
          metaReq :=
            { throughput := server.be32toh (server.word32 (r.metaReq.toBytes client r.reserved) 0)
              nofIntervals := r.metaReq.nofIntervals
              payloadId := r.metaReq.payloadId
              sessionId := server.be32toh (server.word32 (r.metaReq.toBytes client r.reserved) 8)
              mtu := server.be16toh (server.word16 (r.metaReq.toBytes client r.reserved) 12)
              keepAliveInterval :=
                keepAliveToHost server (server.word16 (r.metaReq.toBytes client r.reserved) 14)
              intervals := intervals } } := by
  have hlaid := r.metaReq.laidOut_toBytes client r.reserved
  have hnof : (MetaReq.ofBytes server (r.metaReq.toBytes client r.reserved)).nofIntervals =
    r.metaReq.nofIntervals :=
    hlaid.nofIntervals
  have hid : (MetaReq.ofBytes server (r.metaReq.toBytes client r.reserved)).payloadId =
    r.metaReq.payloadId :=
    hlaid.payloadId
  obtain ⟨out, hout, hget⟩ :=
    decodeIntervals_spec server
      (MetaReq.ofBytes server (r.metaReq.toBytes client r.reserved)) h8 stack
  refine ⟨out, fun i hi => ?_, ?_⟩
  · rw [hget i hi, MetaReq.get_ofBytes]
  · rw [startMsg, r.drop_toBytes client, hnof, hid, hout]
    rfl

/-- The handler decodes what the client has encoded: the message it enqueues for the packet of
`vmem_request_dtp_start_download` has the client's parameters and intervals, whatever the byte
orders of the two hosts. -/
theorem start_request_decoded (client server : ByteOrder) (buffer : StartReq) (request : MetaReq)
    (h8 : request.nofIntervals.toNat ≤ 8) (sessionId : UInt32) (vaddr : UInt64) (size : UInt32)
    (s : VmemServer) (env : HandlerEnv) (hqueued : env.queued = true) :
    ∃ msg, (s.vmemDtpRequestHandler server env
        (vmemRequestDtpStartDownload client buffer request sessionId vaddr size)).1.queue =
          s.queue ++ [msg] ∧
      msg.metaReq.throughput = request.throughput ∧ msg.metaReq.mtu = request.mtu ∧
        msg.metaReq.sessionId = sessionId ∧
      msg.metaReq.nofIntervals = request.nofIntervals ∧ msg.vaddr = vaddr ∧ msg.size = size ∧
      ∀ i : Fin 8, i.val < request.nofIntervals.toNat →
        (msg.metaReq.intervals.get i).start = (request.intervals.get i).start ∧
          (msg.metaReq.intervals.get i).stop = (request.intervals.get i).stop := by
  have hnof : (startReq client buffer request sessionId vaddr size).metaReq.nofIntervals =
      request.nofIntervals := by
    apply if_neg
    rw [gt_iff_lt, UInt8.lt_iff_toNat_lt]
    exact not_lt.mpr h8
  have hlaid := (startReq client buffer request sessionId vaddr size).metaReq.laidOut_toBytes client
    buffer.reserved
  have hinterval : ∀ i : Fin 8, i.val < request.nofIntervals.toNat →
      (startReq client buffer request sessionId vaddr size).metaReq.intervals.get i =
        ⟨client.htobe32 (request.intervals.get i).start,
            client.htobe32 (request.intervals.get i).stop⟩ := by
    intro i hi
    have hi' : i.val < (startReq client buffer request sessionId vaddr
      size).metaReq.nofIntervals.toNat := by rwa [hnof]
    change (encodeIntervals client request.intervals _ buffer.metaReq.intervals)[i.val] = _
    rw [encodeIntervals, Vector.getElem_ofFn]
    exact if_pos hi'
  have hqueue : ∀ msg, startMsg server env.stack env.dst env.src
      ((startReq client buffer request sessionId vaddr size).toBytes client) = .ok msg →
      (s.vmemDtpRequestHandler server env
        (vmemRequestDtpStartDownload client buffer request sessionId vaddr size)).1.queue =
            s.queue ++ [msg] := by
    intro msg hmsg
    simp only [VmemServer.vmemDtpRequestHandler, vmemRequestDtpStartDownload, if_true,
      VmemServer.handleStart, hmsg, hqueued]
  obtain ⟨intervals, hintervals, hmsg⟩ := startMsg_toBytes client server
    (startReq client buffer request sessionId vaddr size) (by rwa [hnof]) env.stack env.dst env.src
  refine ⟨_, hqueue _ hmsg, server.be32toh_of_take client hlaid.throughput,
    server.be16toh_of_take client hlaid.mtu,
    server.be32toh_of_take client hlaid.sessionId, hnof, ?_, ?_, fun i hi => ?_⟩
  · exact server.be64toh_of_take client (StartReq.vaddr_toBytes client _)
  · exact server.be32toh_of_take client (StartReq.size_toBytes client _)
  · have hstart := hlaid.start i
    have hstop := hlaid.stop i
    rw [hinterval i hi] at hstart hstop
    rw [hintervals i (by rwa [hnof])]
    exact ⟨server.be32toh_of_take client hstart, server.be32toh_of_take client hstop⟩

/-- A little-endian client asks a big-endian server for the packets `0` to `3` and `9`. -/
theorem start_request_decoded_two_intervals :
    ∃ msg, (VmemServer.init.vmemDtpRequestHandler .big
      ⟨4, 5, Vector.replicate 8 ⟨0, 0⟩, 0, true, true⟩
        (vmemRequestDtpStartDownload .little
          ⟨0, 0, 0, ⟨0, 0, 0, 0, 0, 0, Vector.replicate 8 ⟨0, 0⟩⟩, 0, 0⟩
          ⟨1000, 2, 0, 0, 12, 0, #v[⟨0, 3⟩, ⟨9, 9⟩, ⟨0, 0⟩, ⟨0, 0⟩, ⟨0, 0⟩, ⟨0, 0⟩, ⟨0, 0⟩, ⟨0, 0⟩]⟩
            7 0x20000000 40)).1.queue =
          [msg] ∧
      msg.metaReq.throughput = 1000 ∧ msg.metaReq.mtu = 12 ∧ msg.metaReq.sessionId = 7 ∧
        msg.metaReq.nofIntervals = 2 ∧
      msg.vaddr = 0x20000000 ∧ msg.size = 40 := by
  obtain ⟨msg, hqueue, h1, h2, h3, h4, h5, h6, -⟩ := start_request_decoded .little .big
    ⟨0, 0, 0, ⟨0, 0, 0, 0, 0, 0, Vector.replicate 8 ⟨0, 0⟩⟩, 0, 0⟩
    ⟨1000, 2, 0, 0, 12, 0, #v[⟨0, 3⟩, ⟨9, 9⟩, ⟨0, 0⟩, ⟨0, 0⟩, ⟨0, 0⟩, ⟨0, 0⟩, ⟨0, 0⟩, ⟨0, 0⟩]⟩
      (by decide) 7 0x20000000 40
    VmemServer.init ⟨4, 5, Vector.replicate 8 ⟨0, 0⟩, 0, true, true⟩ rfl
  exact ⟨msg, hqueue, h1, h2, h3, h4, h5, h6⟩

/-! ### The keep-alive interval -/

/-- The interval comes back only on a big-endian host, or if it is `0`: a 16-bit word has nothing in
its upper half, and that is all a little-endian host puts back in it. -/
theorem keepAliveToHost_keepAliveToWire (host : ByteOrder) (x : UInt16) :
    keepAliveToHost host (keepAliveToWire host x) = x ↔ host = .big ∨ x = 0 := by
  have hx := x.toNat_lt
  cases host with
  | big =>
    have hto : ∀ y : UInt32, ByteOrder.big.htobe32 y = y := by
      intro y
      rw [ByteOrder.htobe32, ByteOrder.load_store,
        Nat.mod_eq_of_lt (show y.toNat < 256 ^ 4 from y.toNat_lt), UInt32.ofNat_toNat]
    have hof : ∀ y : UInt32, ByteOrder.big.be32toh y = y := by
      intro y
      rw [ByteOrder.be32toh, ByteOrder.load_store,
        Nat.mod_eq_of_lt (show y.toNat < 256 ^ 4 from y.toNat_lt), UInt32.ofNat_toNat]
    simp [keepAliveToHost, keepAliveToWire, hto, hof]
  | little =>
    have hwire : keepAliveToWire .little x = 0 := by
      rw [keepAliveToWire, ← UInt16.toNat_inj, UInt32.toNat_toUInt16, ByteOrder.htobe32,
        UInt32.toNat_ofNat']
      simp only [ByteOrder.load, ByteOrder.store, leBytes, List.reverse_cons, List.reverse_nil,
        List.nil_append,
        List.cons_append, leValue, UInt16.toNat_toUInt32, UInt8.toNat_ofNat', UInt16.toNat_zero,
        show x.toNat / 256 / 256 = 0 by omega]
      omega
    have hzero : keepAliveToHost .little 0 = 0 := by decide
    rw [hwire, hzero]
    simp [eq_comm]

/-- What is set up for a request on the first path. -/
theorem request_setupServerTransfer {host : ByteOrder} {getPayloadMeta : UInt8 → Option UInt32}
    {buffer : Bool} {ctx ctx' : ServerTransferCtx} {dst : UInt16} {request : CspRequest}
    {resp : Option MetaResp}
    (h : setupServerTransfer host getPayloadMeta buffer ctx dst request = .ok (ctx', resp)) :
    ctx'.request = (copyRequest host ctx dst request).request := by
  simp only [setupServerTransfer] at h
  cases hmeta : getPayloadMeta (copyRequest host ctx dst request).request.payloadId with
  | none =>
    simp only [hmeta, Except.ok.injEq, Prod.mk.injEq] at h
    rw [← h.1]
  | some size =>
    simp only [hmeta] at h
    cases hsize :
        computeTransferSize { copyRequest host ctx dst request with payloadSize := size } with
    | error f =>
      rw [hsize] at h
      cases h
    | ok total =>
      rw [hsize] at h
      obtain ⟨h, -⟩ := Prod.mk.inj (Except.ok.inj h)
      rw [← h]

/-- What is set up for a request on the second. -/
theorem request_setupVmemTransfer {ctx ctx' : ServerTransferCtx} {msg : DtpMsg}
    (h : setupVmemTransfer ctx msg = .ok ctx') :
    ctx'.request = msg.metaReq := by
  cases hsize :
      computeTransferSize { ctx with request := msg.metaReq, payloadSize := msg.size } with
  | error f =>
    simp only [setupVmemTransfer, hsize] at h
    cases h
  | ok total =>
    simp only [setupVmemTransfer, hsize] at h
    cases h
    rfl

/-- The server of a request of either path has the client's keep-alive interval: whatever payloads
the server has, and whatever the packets and the stack hold. -/
def KeepAliveSurvives (host : ByteOrder) (request : MetaReq) : Prop :=
  (∀ reserved getPayloadMeta buffer ctx ctx' dst src resp,
    setupServerTransfer host getPayloadMeta buffer ctx src
      ⟨dst, sendRemoteMetaReq host reserved request⟩ = .ok (ctx', resp) →
      ctx'.request.keepAliveInterval = request.keepAliveInterval) ∧
  ∀ buffer sessionId vaddr size stack dst src msg ctx ctx',
    startMsg host stack dst src
      (vmemRequestDtpStartDownload host buffer request sessionId vaddr size).body = .ok msg →
      setupVmemTransfer ctx msg = .ok ctx' →
        ctx'.request.keepAliveInterval = request.keepAliveInterval

/-- The clamp on the number of intervals. -/
theorem nofIntervals_startReq (host : ByteOrder) (buffer : StartReq) (request : MetaReq)
    (sessionId : UInt32) (vaddr : UInt64) (size : UInt32) :
    (startReq host buffer request sessionId vaddr size).metaReq.nofIntervals.toNat ≤ 8 := by
  change (if request.nofIntervals > 8 then 8 else request.nofIntervals).toNat ≤ 8
  split_ifs with h
  · decide
  · rw [gt_iff_lt, UInt8.lt_iff_toNat_lt] at h
    exact not_lt.mp h

/-- The interval in the message of a VMEM request. -/
theorem startMsg_keepAlive (host : ByteOrder) (buffer : StartReq) (request : MetaReq)
    (sessionId : UInt32) (vaddr : UInt64) (size : UInt32) (stack : Vector Interval 8)
    (dst src : UInt16) :
    ∃ msg, startMsg host stack dst src
      (vmemRequestDtpStartDownload host buffer request sessionId vaddr size).body = .ok msg ∧
      msg.metaReq.nofIntervals.toNat ≤ 8 ∧
      msg.metaReq.keepAliveInterval =
        keepAliveToHost host (keepAliveToWire host request.keepAliveInterval) := by
  have h8 := nofIntervals_startReq host buffer request sessionId vaddr size
  have hlaid :=
    (startReq host buffer request sessionId vaddr size).metaReq.laidOut_toBytes host buffer.reserved
  obtain ⟨intervals, -, hmsg⟩ := startMsg_toBytes host host _ h8 stack dst src
  exact ⟨_, hmsg, h8, congrArg (keepAliveToHost host) (host.word16_of_take hlaid.keepAliveInterval)⟩

/-- The keep-alive interval survives exactly if the hosts are big-endian, or there is none. -/
theorem keep_alive_survives_iff (host : ByteOrder) (request : MetaReq) :
    KeepAliveSurvives host request ↔ host = .big ∨ request.keepAliveInterval = 0 := by
  rw [← keepAliveToHost_keepAliveToWire]
  constructor
  · rintro ⟨-, hvmem⟩
    obtain ⟨msg, hmsg, h8, halive⟩ :=
      startMsg_keepAlive host ⟨0, 0, 0, request, 0, 0⟩ request 0 0 0 request.intervals 0 0
    obtain ⟨total, hsetup⟩ := setupVmemTransfer_eq_ok ⟨0, 0, 0, false, request, 0, 0⟩ h8
    rw [← halive]
    exact hvmem _ _ _ _ _ _ _ msg _ _ hmsg hsetup
  · intro h
    refine ⟨fun reserved getPayloadMeta buffer ctx ctx' dst src resp hsetup => ?_,
      fun buffer sessionId vaddr size stack dst src msg ctx ctx' hmsg hsetup => ?_⟩
    · rw [request_setupServerTransfer hsetup]
      simp only [copyRequest, sendRemoteMetaReq, MetaReq.ofBytes_toBytes, h]
    · obtain ⟨msg', hmsg', -, halive⟩ :=
        startMsg_keepAlive host buffer request sessionId vaddr size stack dst src
      obtain rfl := Except.ok.inj (hmsg.symm.trans hmsg')
      rw [request_setupVmemTransfer hsetup, halive, h]

/-- Five seconds, from a little-endian client to a little-endian server: the server takes it for "no
keep-alive". -/
theorem keep_alive_lost : ¬ ∀ host request, KeepAliveSurvives host request := by
  intro h
  have hfirst := (h .little ⟨1000, 1, 0, 7, 12, 5000, Vector.replicate 8 ⟨0, uint32Max⟩⟩).1 (0, 0)
    (fun _ => some 40) true
    ⟨0, 0, 0, false, ⟨0, 0, 0, 0, 0, 0, Vector.replicate 8 ⟨0, 0⟩⟩, 0, 0⟩
    ⟨4, 5, 40, false, ⟨1000, 1, 0, 7, 12, 0, Vector.replicate 8 ⟨0, uint32Max⟩⟩, 40, 0⟩ 4 5
      (some ⟨40, 40⟩) rfl
  exact absurd hfirst (by decide)

end LibDtp
