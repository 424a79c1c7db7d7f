import LibDtp.Foundation.Bytes
import LibDtp.Protocol.Basic

/-!
# Requests on the wire

The two ways in which a transfer request reaches a server: as the bytes of a `dtp_meta_req_t`, which
`setup_server_transfer` copies, and inside a `dtp_start_req_t`, which `vmem_dtp_request_handler`
decodes field by field into a `dtp_msg_t`.

## The model

A request is the bytes of the buffer it was received in, whatever they are; neither of the two
functions looks at `packet->length`. The server's byte order is a parameter: a `memcpy` reads a word
in the server's own order, and `be16toh`, `be32toh` and `be64toh` then take it for a big-endian one.

`dtp_meta_req_t` is laid out as on the usual hosts:

| bytes | field |
|---|---|
| 0–3 | `throughput` |
| 4 | `nof_intervals` |
| 5 | `payload_id` |
| 6–7 | `reserved1`, `reserved2` |
| 8–11 | `session_id` |
| 12–13 | `mtu` |
| 14–15 | `keep_alive_interval` |
| 16–79 | `intervals`, eight pairs of words |

and `dtp_start_req_t`, which is packed, is `session_id`, `vaddr`, `size` and then the meta request.
-/

namespace LibDtp

open Bytes

/-- A `dtp_meta_req_t` as `memcpy` reads it. -/
def MetaReq.ofBytes (host : ByteOrder) (bs : List UInt8) : MetaReq where
  throughput := host.word32 bs 0
  nofIntervals := bs.getD 4 0
  payloadId := bs.getD 5 0
  sessionId := host.word32 bs 8
  mtu := host.word16 bs 12
  keepAliveInterval := host.word16 bs 14
  intervals := Vector.ofFn fun i => ⟨host.word32 bs (16 + 8 * i), host.word32 bs (20 + 8 * i)⟩

/-- `be32toh` of a 16-bit field, put back in it. -/
def keepAliveToHost (host : ByteOrder) (x : UInt16) : UInt16 := (host.be32toh x.toUInt32).toUInt16

/-- `dtp_msg_t`. Its `msg` is always `DTP_START_VMEM_TRANSFER` and is left out. -/
structure DtpMsg where
  /-- The node the request was sent to. -/
  srvNode : UInt16
  /-- The node the request came from. -/
  destPort : UInt16
  /-- Where the payload is. -/
  vaddr : UInt64
  /-- How long it is. -/
  size : UInt32
  /-- The request. -/
  metaReq : MetaReq
  deriving DecidableEq

/-- The loop of `vmem_dtp_request_handler` over the first `n` intervals: each is read from the
request, decoded and stored in the message. -/
def decodeIntervals (host : ByteOrder) (wire : MetaReq) :
    ℕ → Vector Interval 8 → Except Fault (Vector Interval 8)
  | 0, out => .ok out
  | n + 1, out => do
    let out ← decodeIntervals host wire n out
    let interval ← wire.intervalAt n
    return out.setIfInBounds n ⟨host.be32toh interval.start, host.be32toh interval.stop⟩

/-- The message `vmem_dtp_request_handler` makes of a `DTP_REQUEST_START_TRANSFER`. `stack` is what
the uninitialised `msg.meta.intervals` holds. -/
def startMsg (host : ByteOrder) (stack : Vector Interval 8) (dst src : UInt16) (body : List UInt8) :
    Except Fault DtpMsg := do
  let wire := MetaReq.ofBytes host (body.drop 16)
  let intervals ← decodeIntervals host wire wire.nofIntervals.toNat stack
  return { srvNode := dst
           destPort := src
           vaddr := host.be64toh (host.word64 body 4)
           size := host.be32toh (host.word32 body 12)
           metaReq := { throughput := host.be32toh wire.throughput
                        nofIntervals := wire.nofIntervals
                        payloadId := wire.payloadId
                        sessionId := host.be32toh wire.sessionId
                        mtu := host.be16toh wire.mtu
                        keepAliveInterval := keepAliveToHost host wire.keepAliveInterval
                        intervals := intervals } }

/-! ### Which requests are decoded -/

theorem decodeIntervals_eq_ok (host : ByteOrder) (wire : MetaReq) {n : ℕ} (h : n ≤ 8)
    (out : Vector Interval 8) :
    ∃ out', decodeIntervals host wire n out = .ok out' := by
  induction n with
  | zero => exact ⟨out, rfl⟩
  | succ n ih =>
    obtain ⟨out', hout⟩ := ih (by omega)
    exact ⟨_, by rw [decodeIntervals, hout, wire.intervalAt_eq_ok (by omega)]; rfl⟩

theorem decodeIntervals_eq_error (host : ByteOrder) (wire : MetaReq) {n : ℕ} (h : 8 < n)
    (out : Vector Interval 8) :
    ∃ f, decodeIntervals host wire n out = .error f := by
  cases n with
  | zero => omega
  | succ n =>
    rw [decodeIntervals]
    cases decodeIntervals host wire n out with
    | error f => exact ⟨f, rfl⟩
    | ok out => exact ⟨.outOfRange, by rw [wire.intervalAt_eq_error (by omega)]; rfl⟩

/-- `request->meta.session_id` of a start request. -/
def startSessionId (host : ByteOrder) (body : List UInt8) : UInt32 :=
  host.be32toh (MetaReq.ofBytes host (body.drop 16)).sessionId

/-- `request->session_id` of a stop request. -/
def stopSessionId (host : ByteOrder) (body : List UInt8) : UInt32 :=
  host.be32toh (host.word32 body 0)

theorem sessionId_of_startMsg {host : ByteOrder} {stack : Vector Interval 8} {dst src : UInt16}
    {body : List UInt8} {msg : DtpMsg} (h : startMsg host stack dst src body = .ok msg) :
    msg.metaReq.sessionId = startSessionId host body := by
  rw [startMsg] at h
  cases hd : decodeIntervals host (MetaReq.ofBytes host (body.drop 16))
      (MetaReq.ofBytes host (body.drop 16)).nofIntervals.toNat stack with
  | error f =>
    rw [hd] at h
    cases h
  | ok out =>
    rw [hd] at h
    cases h
    rfl

/-- A start request is decoded if it has no more than eight intervals; the message then has the
request's fields. -/
theorem startMsg_eq_ok (host : ByteOrder) (stack : Vector Interval 8) (dst src : UInt16)
    (body : List UInt8) (h : (MetaReq.ofBytes host (body.drop 16)).nofIntervals.toNat ≤ 8) :
    ∃ msg, startMsg host stack dst src body = .ok msg ∧
      msg.metaReq.throughput = host.be32toh (MetaReq.ofBytes host (body.drop 16)).throughput ∧
      msg.metaReq.mtu = host.be16toh (MetaReq.ofBytes host (body.drop 16)).mtu ∧
      msg.metaReq.nofIntervals = (MetaReq.ofBytes host (body.drop 16)).nofIntervals := by
  obtain ⟨out, hout⟩ := decodeIntervals_eq_ok host (MetaReq.ofBytes host (body.drop 16)) h stack
  refine ⟨_, by rw [startMsg, hout]; rfl, ?_, ?_, ?_⟩ <;> rfl

/-- If it has more, the handler reads past the end of the intervals. -/
theorem startMsg_eq_error (host : ByteOrder) (stack : Vector Interval 8) (dst src : UInt16)
    (body : List UInt8) (h : 8 < (MetaReq.ofBytes host (body.drop 16)).nofIntervals.toNat) :
    ∃ f, startMsg host stack dst src body = .error f := by
  obtain ⟨f, hf⟩ := decodeIntervals_eq_error host (MetaReq.ofBytes host (body.drop 16)) h stack
  exact ⟨f, by rw [startMsg, hf]; rfl⟩

end LibDtp
