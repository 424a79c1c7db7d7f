import LibDtp.Client.Segments
import LibDtp.Foundation.Files

/-!
# Client sessions

A session of the client, from `dtp_prepare_session` on, with the hooks of
`dtp_client_posix_session_hooks.c`, which write what is received to a file and save the session in a
second one next to it.

## The model

`Session` is `dtp_t`, and the two files are `Disk`. The `FILE` the hooks write to is not a state of
its own: every write is at a position of its own, and takes effect at once. `malloc` and the `stdio`
calls succeed, except that the meta file may not be there.

A session is prepared in a free slot of the pool, which holds whatever the session before it left
there; only its `hook_ctx` and its `dtp_errno` are known, as `dtp_release_session` and
`apm_on_release` clear them.

## What is proved

* `apmOnDeserialize_apmOnSerialize` — a session read from the meta file has what was saved: the
  parameters, the byte count and the segments. Its request is the complement of the segments, or the
  first eight of it.
-/

namespace LibDtp

open Bytes Files Ranges

/-- `dtp_errno_t`. -/
inductive DtpErrno where
  /-- `DTP_NO_ERR`. -/
  | noErr
  /-- `DTP_EINVAL`. -/
  | einval
  /-- `DTP_ENOMORE_SESSIONS`. -/
  | enomoreSessions
  /-- `DTP_ESESSION_NOT_FOUND`. -/
  | esessionNotFound
  /-- `DTP_CONNECTION_FAILED`. -/
  | connectionFailed
  /-- `DTP_MALLOC_FAILED`. -/
  | mallocFailed
  /-- `DTP_NOT_IMPLEMENTED`. -/
  | notImplemented
  /-- `DTP_SESSION_EXHAUSTED`. -/
  | sessionExhausted
  deriving DecidableEq, Repr

/-- `hook_ctx_t`. -/
structure HookCtx where
  /-- When the progress was last shown. -/
  lastPacketTs : UInt32
  /-- What is received in this session. -/
  segments : SegmentsCtx
  /-- What was received in earlier ones. -/
  receivedSegments : Option SegmentsCtx
  deriving DecidableEq

/-- `dtp_t`. -/
structure Session where
  /-- Is a transfer going on? -/
  active : Bool
  /-- `remote_cfg.node`. -/
  node : UInt16
  /-- `hooks.hook_ctx`. -/
  hookCtx : Option HookCtx
  /-- How many bytes have been received. -/
  bytesReceived : UInt32
  /-- How many there are. -/
  payloadSize : UInt32
  /-- `dtp_errno`. -/
  errno : DtpErrno
  /-- `request_meta`. -/
  request : MetaReq
  /-- How long to wait for data, in seconds. -/
  timeout : UInt8
  deriving DecidableEq

/-- The file a session is received to, and its meta file. -/
structure Disk where
  /-- What has been written. -/
  output : List UInt8
  /-- The meta file, if there is one. -/
  metaFile : Option (List UInt8)
  deriving DecidableEq

/-- `DTP_SESSION_VERSION`. -/
def dtpSessionVersion : UInt32 := 2

/-! ### The hooks -/

/-- `apm_on_start`. -/
def apmOnStart (s : Session) (d : Disk) : Session × Disk :=
  let ctx :=
    s.hookCtx.getD { lastPacketTs := 0, segments := initSegmentsCtx, receivedSegments := none }
  ({ s with hookCtx := some ctx }, if s.bytesReceived > 0 then d else { d with output := [] })

/-- The packet number of a packet. -/
def packetSeq (r : MetaReq) (p : Packet) : UInt32 := (p.offset.toUInt64 / r.chunk).toUInt32

/-- `apm_on_data_packet`. -/
def apmOnDataPacket (s : Session) (d : Disk) (p : Packet) (now : UInt32) : Session × Disk :=
  match s.hookCtx with
  | none => (s, d)
  | some ctx =>
    let seq := packetSeq s.request p
    let ts := if now - ctx.lastPacketTs > 150 ∨ s.bytesReceived = s.payloadSize then now
      else ctx.lastPacketTs
    ({ s with hookCtx := some { ctx with
      lastPacketTs := ts, segments := updateSegments ctx.segments seq } },
      { d with output := writeAt d.output (seq.toUInt64 * s.request.chunk).toNat
                           (p.data.take (p.length.toUInt64 - 8).toNat) })

/-- `apm_on_end`. What it computes only to print it is left out here; see `missingSegments`. -/
def apmOnEnd (s : Session) : Session :=
  match s.hookCtx with
  | none => s
  | some ctx =>
    let segments := closeSegments ctx.segments
    match ctx.receivedSegments with
    | none => { s with hookCtx := some { ctx with segments := segments } }
    | some received =>
      { s with hookCtx := some { ctx with segments := mergeSegments segments received } }

/-- `write_segment_to_file`. -/
def segmentBytes (host : ByteOrder) (s : Segment) : List UInt8 :=
  host.store 4 s.start.toNat ++ host.store 4 s.stop.toNat

/-- What `apm_on_serialize` writes. -/
def sessionBytes (host : ByteOrder) (s : Session) (segments : SegmentsCtx) : List UInt8 :=
  host.store 4 dtpSessionVersion.toNat ++
    (host.store 2 s.node.toNat ++ (host.store 2 s.request.mtu.toNat ++
    (s.timeout :: (host.store 4 s.request.throughput.toNat ++ (s.request.payloadId ::
      (host.store 4 s.request.sessionId.toNat ++ (host.store 4 s.bytesReceived.toNat ++
        (host.store 4 s.payloadSize.toNat ++ (host.store 4 segments.nofSegments.toNat ++
          segments.segments.flatMap (segmentBytes host))))))))))

/-- `apm_on_serialize`. -/
def apmOnSerialize (host : ByteOrder) (s : Session) (d : Disk) : Disk :=
  match s.hookCtx with
  | none => d
  | some ctx => { d with metaFile := some (sessionBytes host s ctx.segments) }

/-- `create_meta_data`. -/
def createMetaData (idx : ℕ) (s : Segment) (r : MetaReq) : Bool × MetaReq :=
  if idx < 8 then
    (true, { r with
      intervals := r.intervals.setIfInBounds idx ⟨s.start, s.stop⟩,
        nofIntervals := UInt8.ofNat (idx + 1) })
  else (false, r)

/-- The loop of `apm_on_deserialize` over the segments in the file. -/
def readSegments (host : ByteOrder) : ℕ → SegmentsCtx → List UInt8 → SegmentsCtx
  | 0, ctx, _ => ctx
  | n + 1, ctx, f =>
    let (start, f) := fread32 host 0 f
    let (stop, f) := fread32 host 0 f
    readSegments host n (addSegment ctx start stop) f

/-- A request for some segments. -/
def requestSegments (r : MetaReq) (segments : SegmentsCtx) : MetaReq :=
  if segments.nofSegments ≠ 0 then forEachSegment createMetaData 0 segments.segments r
  else { r with nofIntervals := 0 }

/-- The missing segments that `apm_on_deserialize` computes in order to ask for them: it divides by
the size of a chunk. -/
def segmentsToRequest (r : MetaReq) (payloadSize : UInt32) (received : SegmentsCtx) :
    Except Fault SegmentsCtx :=
  if r.chunk = 0 then .error .divByZero
  else .ok (getComplementSegment received 0 (payloadSize.toUInt64 / r.chunk).toUInt32)

/-- The intervals `apm_on_deserialize` asks for, given what has been received. -/
def requestMissing (r : MetaReq) (payloadSize : UInt32) (received : SegmentsCtx) :
    Except Fault MetaReq :=
  (segmentsToRequest r payloadSize received).map (requestSegments r)

/-- `apm_on_deserialize`, from the version on, if it is the right one. -/
def readSession (host : ByteOrder) (s : Session) (f : List UInt8) : Except Fault Session := do
  let (node, f) := fread16 host s.node f
  let (mtu, f) := fread16 host s.request.mtu f
  let (timeout, f) := fread8 s.timeout f
  let (throughput, f) := fread32 host s.request.throughput f
  let (payloadId, f) := fread8 s.request.payloadId f
  let (sessionId, f) := fread32 host s.request.sessionId f
  let (bytesReceived, f) := fread32 host s.bytesReceived f
  let (payloadSize, f) := fread32 host s.payloadSize f
  let (nofSegments, f) := fread32 host 0 f
  let received := readSegments host nofSegments.toNat initSegmentsCtx f
  let request ← requestMissing { s.request with
    mtu := mtu, throughput := throughput, payloadId := payloadId,
      sessionId := sessionId } payloadSize received
  return { s with
    node := node
    timeout := timeout
    bytesReceived := bytesReceived
    payloadSize := payloadSize
    request := request
    hookCtx := some
      { lastPacketTs := 0, segments := initSegmentsCtx, receivedSegments := some received } }

/-- `apm_on_deserialize`. -/
def apmOnDeserialize (host : ByteOrder) (s : Session) (d : Disk) : Except Fault Session :=
  match d.metaFile with
  | none => .ok { s with errno := .einval }
  | some f =>
    let (version, f) := fread32 host 0 f
    if version ≠ dtpSessionVersion then .ok s else readSession host s f

/-! ### Preparing a session -/

/-- `dtp_acquire_session`, in a free slot. -/
def acquireSession (slot : Session) : Session :=
  { slot with
    bytesReceived := 0
    active := false
    request := { slot.request with
      nofIntervals := 1
      intervals := slot.request.intervals.setIfInBounds 0 ⟨0, uint32Max⟩
      sessionId := 0 } }

/-- The parameters of `dtp_prepare_session`. -/
structure Params where
  /-- `server`. -/
  server : UInt32
  /-- `session_id`. -/
  sessionId : UInt32
  /-- `max_throughput`. -/
  maxThroughput : UInt32
  /-- `timeout`. -/
  timeout : UInt8
  /-- `payload_id`. -/
  payloadId : UInt8
  /-- `mtu`. -/
  mtu : UInt16
  /-- `keep_alive_interval`. -/
  keepAliveInterval : UInt32

/-- `start_download`. -/
def startDownload (s : Session) (p : Params) : Session :=
  { s with request := { s.request with keepAliveInterval := p.keepAliveInterval.toUInt16 } }

/-- The six calls of `dtp_set_opt` in `dtp_prepare_session`. -/
def configureSession (s : Session) (p : Params) : Session :=
  { s with
    node := p.server.toUInt16
    timeout := p.timeout
    request := { s.request with
      throughput := p.maxThroughput, payloadId := p.payloadId, mtu := p.mtu,
        sessionId := p.sessionId } }

/-- Why `dtp_prepare_session` does not return a session. -/
inductive PrepareError where
  /-- There is nothing more to fetch: the session is released with `DTP_SESSION_EXHAUSTED`. -/
  | sessionExhausted
  /-- It does not return at all. -/
  | fault (f : Fault)
  deriving DecidableEq, Repr

/-- `dtp_prepare_session`, with the session that `apm_on_deserialize` has read. -/
def prepareRead (s : Session) (p : Params) : Except PrepareError Session :=
  if s.errno = .noErr then
    if s.bytesReceived = s.payloadSize ∨ s.request.nofIntervals = 0 then .error .sessionExhausted
    else .ok (startDownload s p)
  else .ok (startDownload (configureSession s p) p)

/-- `dtp_prepare_session`, in a free slot: the session, if it returns one. -/
def prepareSession (host : ByteOrder) (slot : Session) (p : Params) (resume : Bool) (d : Disk) :
    Except PrepareError Session :=
  let s := acquireSession slot
  if resume then
    match apmOnDeserialize host s d with
    | .ok s => prepareRead s p
    | .error f => .error (.fault f)
  else .ok (startDownload (configureSession s p) p)

/-- A slot that a new session may be prepared in. -/
structure Session.Free (slot : Session) : Prop where
  /-- `apm_on_release` has cleared it. -/
  hookCtx : slot.hookCtx = none
  /-- `dtp_release_session` has cleared it. -/
  errno : slot.errno = .noErr

/-- A session is acquired to ask for the whole payload. -/
theorem requested_acquireSession (slot : Session) :
    (acquireSession slot).request.requested = [⟨0, uint32Max⟩] := by
  change (slot.request.intervals.setIfInBounds 0 ⟨0, uint32Max⟩).toList.take 1 = _
  have hlen : slot.request.intervals.toList.length = 8 := Vector.length_toList
  rw [Vector.toList_setIfInBounds]
  generalize slot.request.intervals.toList = l at hlen ⊢
  cases l with
  | nil => cases hlen
  | cons i l => rfl

/-! ### Saving and reading back -/

/-- The segments that were written are read. -/
theorem readSegments_flatMap (host : ByteOrder) (l : List Segment) (ctx : SegmentsCtx) :
    readSegments host l.length ctx (l.flatMap (segmentBytes host)) =
      { ctx with
        segments := ctx.segments ++ l, nofSegments := ctx.nofSegments +
          UInt32.ofNat l.length } := by
  induction l generalizing ctx with
  | nil => simp [readSegments]
  | cons s l ih =>
    rw [List.length_cons, readSegments, List.flatMap_cons, segmentBytes, List.append_assoc,
      fread32_store]
    simp only [fread32_store]
    rw [ih, addSegment]
    simp [UInt32.add_assoc, UInt32.add_comm 1]

/-- The segments of a session that is read from its meta file. -/
def SegmentsCtx.reread (ctx : SegmentsCtx) : SegmentsCtx :=
  ⟨ctx.segments, .null, ctx.nofSegments, false, false⟩

/-- The parameters of a request that was saved, put into another one. -/
def MetaReq.restoring (r saved : MetaReq) : MetaReq :=
  { r with
    mtu := saved.mtu
    throughput := saved.throughput
    payloadId := saved.payloadId
    sessionId := saved.sessionId }

/-- A slot with what was saved of a session: its segments are those of earlier sessions now. -/
def Session.restored (slot s : Session) (segments : SegmentsCtx) (request : MetaReq) : Session :=
  { slot with
    node := s.node
    timeout := s.timeout
    bytesReceived := s.bytesReceived
    payloadSize := s.payloadSize
    request := request
    hookCtx := some
      { lastPacketTs := 0, segments := initSegmentsCtx, receivedSegments := some segments.reread } }

/-- What is read from the meta file is what was saved. -/
theorem apmOnDeserialize_apmOnSerialize (host : ByteOrder) {s : Session} {ctx : HookCtx}
    (hctx : s.hookCtx = some ctx)
    (hnof : ctx.segments.nofSegments.toNat = ctx.segments.segments.length) (slot : Session)
    (d : Disk) :
    apmOnDeserialize host slot (apmOnSerialize host s d) =
      (requestMissing (slot.request.restoring s.request) s.payloadSize ctx.segments.reread).map
        (slot.restored s ctx.segments) := by
  have hread : readSegments host ctx.segments.nofSegments.toNat initSegmentsCtx
      (ctx.segments.segments.flatMap (segmentBytes host)) = ctx.segments.reread := by
    rw [hnof, readSegments_flatMap, ← hnof]
    simp [initSegmentsCtx, SegmentsCtx.reread]
  have hversion : ¬ dtpSessionVersion ≠ dtpSessionVersion := by simp
  simp only [apmOnSerialize, hctx, apmOnDeserialize, sessionBytes, fread32_store, if_neg hversion,
    readSession, fread16_store, fread8_cons, hread, MetaReq.restoring]
  cases requestMissing _ _ _ <;> rfl

/-! ### The request for what is missing -/

/-- A segment as an interval of a request. -/
def Segment.interval (s : Segment) : Interval := ⟨s.start, s.stop⟩

/-- The ninth segment and those after it are left out. -/
theorem forEachSegment_createMetaData_eight (l : List Segment) (r : MetaReq) :
    forEachSegment createMetaData 8 l r = r := by
  cases l <;> simp [forEachSegment, createMetaData]

theorem forEachSegment_createMetaData_cons {idx : ℕ} (hidx : idx < 8) (s : Segment)
    (l : List Segment) (r : MetaReq) :
    forEachSegment createMetaData idx (s :: l) r = forEachSegment createMetaData (idx + 1) l
      { r with
        intervals := r.intervals.setIfInBounds idx s.interval
        nofIntervals := UInt8.ofNat (idx + 1) } := by
  simp [forEachSegment, createMetaData, hidx, Segment.interval]

/-- The intervals that `create_meta_data` fills in for the segments from index `idx` on. -/
theorem take_createMetaData {idx : ℕ} (hidx : idx ≤ 8) (l : List Segment) (r : MetaReq) :
    (forEachSegment createMetaData idx l r).intervals.toList.take (min 8 (idx + l.length)) =
      (r.intervals.toList.take idx ++ l.map Segment.interval).take 8 := by
  induction l generalizing idx r with
  | nil => simp [forEachSegment, min_eq_right hidx, List.take_take]
  | cons s l ih =>
    have hlen : r.intervals.toList.length = 8 := Vector.length_toList
    by_cases hlt : idx < 8
    · have hset : (r.intervals.setIfInBounds idx s.interval).toList.take (idx + 1) =
          r.intervals.toList.take idx ++ [s.interval] := by
        rw [Vector.toList_setIfInBounds, List.take_succ_eq_append_getElem
          (by simp [hlen, hlt]), List.take_set_of_le le_rfl,
          List.getElem_set_self]
      have hrest := ih (show idx + 1 ≤ 8 by omega) { r with
        intervals := r.intervals.setIfInBounds idx s.interval,
          nofIntervals := UInt8.ofNat (idx + 1) }
      rw [hset] at hrest
      rw [forEachSegment_createMetaData_cons hlt]
      simpa [Nat.add_assoc, Nat.add_comm 1] using hrest
    · obtain rfl : idx = 8 := by omega
      rw [forEachSegment_createMetaData_eight]
      simp [hlen]

/-- How many intervals it counts, and that it changes nothing else. -/
theorem nofIntervals_createMetaData {idx : ℕ} (hidx : idx < 8) {l : List Segment} (hl : l ≠ [])
    (r : MetaReq) :
    forEachSegment createMetaData idx l r = { r with
      intervals := (forEachSegment createMetaData idx l r).intervals
      nofIntervals := UInt8.ofNat (min 8 (idx + l.length)) } := by
  induction l generalizing idx r with
  | nil => exact absurd rfl hl
  | cons s l ih =>
    rw [forEachSegment_createMetaData_cons hidx]
    by_cases hnil : l = []
    · subst hnil
      simp [forEachSegment, min_eq_right (show idx + 1 ≤ 8 by omega)]
    · by_cases hlast : idx + 1 < 8
      · rw [ih hlast hnil]
        simp [Nat.add_assoc, Nat.add_comm 1]
      · obtain rfl : idx = 7 := by omega
        rw [forEachSegment_createMetaData_eight,
          min_eq_left (by simp only [List.length_cons]; omega)]

/-- A request for some segments has the first eight of them. -/
theorem requestSegments_spec {segments : SegmentsCtx} {out : List Range} (hout : segments.Lists out)
    (hlen : out.length < 2 ^ 32) (r : MetaReq) :
    (requestSegments r segments).requested = (segments.segments.take 8).map Segment.interval ∧
      ((requestSegments r segments).nofIntervals = 0 ↔ out = []) ∧
        (requestSegments r segments).nofIntervals.toNat ≤ 8 ∧
      requestSegments r segments = { r with
        intervals := (requestSegments r segments).intervals
        nofIntervals := (requestSegments r segments).nofIntervals } := by
  have hlength : segments.segments.length = out.length := by
    rw [← hout.segments, length_ranges]
  have hzero : segments.nofSegments = 0 ↔ out = [] := by
    rw [hout.nofSegments, ← UInt32.toNat_inj, UInt32.toNat_ofNat_of_lt' hlen, UInt32.toNat_zero,
      List.length_eq_zero_iff]
  by_cases hnil : out = []
  · have hempty : segments.segments = [] := by rw [← List.length_eq_zero_iff, hlength, hnil]; rfl
    have hreq : requestSegments r segments = { r with nofIntervals := 0 } := by
      rw [requestSegments, if_neg (by simpa using hzero.mpr hnil)]
    rw [hreq, hempty]
    exact ⟨by simp [MetaReq.requested], by simp [hnil], Nat.zero_le 8, rfl⟩
  · have hne : segments.segments ≠ [] :=
      fun h => hnil (by rw [← List.length_eq_zero_iff, ← hlength, h]; rfl)
    have hreq : requestSegments r segments =
        forEachSegment createMetaData 0 segments.segments r := by
      rw [requestSegments, if_pos (fun h => hnil (hzero.mp h))]
    have hfields := nofIntervals_createMetaData (show 0 < 8 by omega) hne r
    have htake := take_createMetaData (Nat.zero_le 8) segments.segments r
    have hmin : (UInt8.ofNat (min 8 (0 + segments.segments.length))).toNat =
      min 8 (0 + segments.segments.length) :=
      UInt8.toNat_ofNat_of_lt' (lt_of_le_of_lt (min_le_left _ _) (by decide))
    have hnof : (forEachSegment createMetaData 0 segments.segments r).nofIntervals =
        UInt8.ofNat (min 8 (0 + segments.segments.length)) := by rw [hfields]
    rw [hreq]
    refine ⟨?_, ?_, ?_, ?_⟩
    · rw [MetaReq.requested, hnof, hmin, htake]
      simp [List.map_take]
    · rw [hnof, ← UInt8.toNat_inj, hmin]
      have := List.length_pos_iff.mpr hne
      simp only [hnil, iff_false, UInt8.toNat_zero]
      omega
    · rw [hnof, hmin]
      exact min_le_left _ _
    · rw [hnof]
      exact hfields

/-- The parameters of a request are not changed when the intervals are filled in. -/
theorem params_createMetaData (idx : ℕ) (l : List Segment) (r : MetaReq) :
    forEachSegment createMetaData idx l r = { r with
      intervals := (forEachSegment createMetaData idx l r).intervals
      nofIntervals := (forEachSegment createMetaData idx l r).nofIntervals } := by
  induction l generalizing idx r with
  | nil => rfl
  | cons s l ih =>
    by_cases hidx : idx < 8
    · rw [forEachSegment_createMetaData_cons hidx, ih]
    · simp [forEachSegment, createMetaData, hidx]

theorem params_requestSegments (r : MetaReq) (segments : SegmentsCtx) :
    requestSegments r segments = { r with
      intervals := (requestSegments r segments).intervals
      nofIntervals := (requestSegments r segments).nofIntervals } := by
  simp only [requestSegments]
  split_ifs
  · exact params_createMetaData 0 _ r
  · rfl

/-- What a session that is resumed asks for, if it can be computed. -/
theorem requestMissing_eq {r : MetaReq} (h : r.chunk ≠ 0) (payloadSize : UInt32)
    (received : SegmentsCtx) :
    requestMissing r payloadSize received =
      .ok (requestSegments r
        (getComplementSegment received 0 (payloadSize.toUInt64 / r.chunk).toUInt32)) := by
  rw [requestMissing, segmentsToRequest, if_neg h]
  rfl

theorem requestMissing_of_ok {r q : MetaReq} {payloadSize : UInt32} {received : SegmentsCtx}
    (h : requestMissing r payloadSize received = .ok q) : r.chunk ≠ 0 ∧
      q = requestSegments r
        (getComplementSegment received 0 (payloadSize.toUInt64 / r.chunk).toUInt32) := by
  by_cases hchunk : r.chunk = 0
  · rw [requestMissing, segmentsToRequest, if_pos hchunk] at h
    cases h
  · rw [requestMissing_eq hchunk] at h
    exact ⟨hchunk, (Except.ok.inj h).symm⟩

/-- A session is prepared from what was saved. -/
theorem prepareSession_apmOnSerialize (host : ByteOrder) {s : Session} {ctx : HookCtx}
    (hctx : s.hookCtx = some ctx)
    (hnof : ctx.segments.nofSegments.toNat = ctx.segments.segments.length)
    (hmtu : 8 < s.request.mtu.toNat) {slot : Session} (hslot : slot.Free) (p : Params) (d : Disk) :
    ∃ q, requestMissing ((acquireSession slot).request.restoring s.request) s.payloadSize
      ctx.segments.reread = .ok q ∧
      prepareSession host slot p true (apmOnSerialize host s d) =
        if s.bytesReceived = s.payloadSize ∨ q.nofIntervals = 0 then .error .sessionExhausted
        else .ok (startDownload ((acquireSession slot).restored s ctx.segments q) p) := by
  have hchunk : ((acquireSession slot).request.restoring s.request).chunk ≠ 0 :=
    MetaReq.chunk_ne_zero (MetaReq.mtu_ne_of_lt hmtu)
  refine ⟨_, requestMissing_eq hchunk _ _, ?_⟩
  rw [prepareSession, if_pos rfl, apmOnDeserialize_apmOnSerialize host hctx hnof,
    requestMissing_eq hchunk]
  exact if_pos hslot.errno

end LibDtp
