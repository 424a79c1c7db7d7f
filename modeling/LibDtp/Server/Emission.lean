import LibDtp.Server.Send
import LibDtp.Foundation.Chunks

/-!
# What the server sends

The payload is cut into chunks of `mtu - 8` bytes; packet number `k` carries chunk
`k` and its offset. A request names packet numbers, and `emission` is what it stands for: for
each of its intervals in turn, the packets with those numbers that exist. This module
proves that the send machine produces exactly that.

## The model

An interval `Fits` a payload when its bounds can be computed in 32 bits and lie in
the payload: the server checks none of it. A tick is `Polite` when the `read` callback returns
no more than it was asked for, and `Reads` the payload when it returns all of it.

## What is proved

* `counted_run` — along any run, as long as the intervals fit, the counters are exact and
  inside the interval.
* `sent_isPrefix` — a run over a payload that is read in full sends a prefix of
  the emission, however it is interrupted and whenever it finds no buffer; if it comes to
  its end without being stopped it has sent all of it.
-/

namespace LibDtp

open Chunks

/-- The payload bytes of a full packet. -/
def MetaReq.eff (r : MetaReq) : ℕ := r.mtu.toNat - 8

/-- The bounds of an interval can be computed in 32 bits and lie in a payload of `size`
bytes cut into chunks of `eff`. -/
structure Interval.Fits (size eff : ℕ) (i : Interval) : Prop where
  /-- The interval starts in the payload, or right after it. -/
  start_le : i.start.toNat * eff ≤ size
  /-- It is open, or it ends no earlier than just before its start, at a 32-bit offset. -/
  stop : i.stop = uint32Max ∨ i.start.toNat ≤ i.stop.toNat + 1 ∧ (i.stop.toNat + 1) * eff < 2 ^ 32

/-- Where the interval ends in the payload, in exact arithmetic. -/
def Interval.stopByte (size eff : ℕ) (i : Interval) : ℕ :=
  if i.stop = uint32Max then size else min ((i.stop.toNat + 1) * eff) size

/-- The packet numbers of an interval, of the `count` there are. -/
def Interval.numbers (count : ℕ) (i : Interval) : List ℕ :=
  List.range' i.start.toNat
    ((if i.stop = uint32Max then count else min (i.stop.toNat + 1) count) - i.start.toNat)

/-- Packet number `k` of a payload. -/
def chunkPacket (payload : List UInt8) (r : MetaReq) (k : ℕ) : Packet where
  offset := UInt32.ofNat (k * r.eff)
  sessionId := r.sessionId
  length := UInt16.ofNat (len payload.length r.eff k + 8)
  data := part payload r.eff k

/-- A packet with chunk `k` of a payload. -/
structure Packet.IsChunk (payload : List UInt8) (eff k : ℕ) (p : Packet) : Prop where
  /-- The chunk exists. -/
  lt : k < count payload.length eff
  /-- Where it is. -/
  offset : p.offset.toNat = k * eff
  /-- How long it is, with the header. -/
  length : p.length.toNat = len payload.length eff k + 8
  /-- Its bytes. -/
  data : p.data = part payload eff k

/-- The packet numbers a request names, in order. -/
def MetaReq.numbers (r : MetaReq) (count : ℕ) : List ℕ := r.requested.flatMap (·.numbers count)

/-- The packets a request stands for, in order. -/
def emission (payload : List UInt8) (r : MetaReq) : List Packet :=
  (r.numbers (count payload.length r.eff)).map (chunkPacket payload r)

/-- The `read` callback returns no more than it is asked for. -/
def Tick.Polite (t : Tick) : Prop := ∀ offset size, (t.read offset size).count ≤ size

/-- The `read` callback reads the payload, in full wherever there is enough of it. -/
def Tick.Reads (payload : List UInt8) (t : Tick) : Prop :=
  t.Polite ∧ ∀ offset size : UInt32, offset.toNat + size.toNat ≤ payload.length →
    t.read offset size = ⟨size, (payload.drop offset.toNat).take size.toNat⟩

/-! ### Arithmetic of the bounds -/

theorem MetaReq.eff_pos {r : MetaReq} (h : 8 < r.mtu.toNat) : 0 < r.eff := by
  unfold MetaReq.eff
  omega

theorem MetaReq.eff_lt (r : MetaReq) : r.eff < 65536 := by
  have := r.mtu.toNat_lt
  unfold MetaReq.eff
  omega

theorem isChunk_chunkPacket {payload : List UInt8} {r : MetaReq} {k : ℕ} (hmtu : 8 < r.mtu.toNat)
    (hlt : payload.length < 2 ^ 32) (hk : k < count payload.length r.eff) :
    (chunkPacket payload r k).IsChunk payload r.eff k := by
  have he := MetaReq.eff_pos hmtu
  have hoff := (lt_count_iff he).mp hk
  have hlen : len payload.length r.eff k ≤ r.eff := len_le
  have hmtu' := r.mtu.toNat_lt
  refine ⟨hk, ?_, ?_, rfl⟩
  · exact UInt32.toNat_ofNat_of_lt' (by change k * r.eff < 2 ^ 32; omega)
  · apply UInt16.toNat_ofNat_of_lt'
    change len payload.length r.eff k + 8 < 2 ^ 16
    rw [MetaReq.eff] at hlen
    rw [MetaReq.eff]
    omega

/-- The number of the packet that a byte is in. -/
theorem MetaReq.toNat_div_chunk {r : MetaReq} (h : 8 < r.mtu.toNat) (n : UInt32) :
    (n.toUInt64 / r.chunk).toUInt32.toNat = n.toNat / r.eff := by
  have hn := n.toNat_lt
  have hle : n.toNat / r.eff ≤ n.toNat := Nat.div_le_self _ _
  rw [UInt64.toNat_toUInt32, UInt64.toNat_div, UInt32.toNat_toUInt64,
    show r.chunk.toNat = r.eff from r.toNat_chunk h,
    Nat.mod_eq_of_lt (by omega)]

theorem toNat_add_one {a : UInt32} (h : a ≠ uint32Max) : (a + 1).toNat = a.toNat + 1 := by
  have hlt := a.toNat_lt
  have hne : a.toNat ≠ 4294967295 := fun h' => h (by rw [← UInt32.toNat_inj]; exact h')
  rw [UInt32.toNat_add, show (1 : UInt32).toNat = 1 from rfl]
  omega

theorem Interval.Fits.start_le_stopByte {size eff : ℕ} {i : Interval} (h : i.Fits size eff) :
    i.start.toNat * eff ≤ i.stopByte size eff := by
  unfold Interval.stopByte
  split_ifs with ho
  · exact h.start_le
  · obtain ⟨hle, -⟩ := h.stop.resolve_left ho
    exact le_min (Nat.mul_le_mul_right _ hle) h.start_le

theorem Interval.stopByte_le (size eff : ℕ) (i : Interval) : i.stopByte size eff ≤ size := by
  unfold Interval.stopByte
  split_ifs
  · exact le_rfl
  · exact min_le_right _ _

/-- An interval holds packet `k` exactly when the packet starts before the interval's end. -/
theorem Interval.lt_numbers_iff {size eff : ℕ} (he : 0 < eff) (i : Interval) (k : ℕ) :
    k < (if i.stop = uint32Max then count size eff else min (i.stop.toNat + 1) (count size eff)) ↔
      k * eff < i.stopByte size eff := by
  unfold Interval.stopByte
  split_ifs
  · exact lt_count_iff he
  · rw [lt_min_iff, lt_min_iff, lt_count_iff he, Nat.mul_lt_mul_right he]

theorem Interval.length_numbers_gt_iff {size eff : ℕ} (he : 0 < eff) (i : Interval) (n : ℕ) :
    n < (i.numbers (count size eff)).length ↔ (i.start.toNat + n) * eff < i.stopByte size eff := by
  rw [Interval.numbers, List.length_range', ← i.lt_numbers_iff he]
  omega

theorem Interval.getElem_numbers {count : ℕ} (i : Interval) {n : ℕ}
    (h : n < (i.numbers count).length) :
    (i.numbers count)[n] = i.start.toNat + n := by
  simp [Interval.numbers]

theorem Interval.mem_numbers {size eff : ℕ} (he : 0 < eff) (i : Interval) (k : ℕ) :
    k ∈ i.numbers (count size eff) ↔ i.start.toNat ≤ k ∧ k * eff < i.stopByte size eff := by
  rw [Interval.numbers, List.mem_range'_1, ← i.lt_numbers_iff he]
  omega

theorem MetaReq.mem_numbers_lt {r : MetaReq} (he : 0 < r.eff) {size k : ℕ}
    (h : k ∈ r.numbers (count size r.eff)) :
    k < count size r.eff := by
  obtain ⟨i, -, hk⟩ := List.mem_flatMap.mp h
  rw [lt_count_iff he]
  exact lt_of_lt_of_le ((i.mem_numbers he k).mp hk).2 (i.stopByte_le _ _)

/-- `interval_start`, as the server computes it. -/
def Interval.intervalStart (chunk : UInt64) (cur : Interval) : UInt32 :=
  (cur.start.toUInt64 * chunk).toUInt32

/-- `interval_stop`, as it is first computed. -/
def Interval.rawStop (chunk : UInt64) (size : UInt32) (cur : Interval) : UInt32 :=
  if cur.stop ≠ uint32Max then ((cur.stop + 1).toUInt64 * chunk).toUInt32 else size

/-- `interval_stop`, clamped to the payload. -/
def Interval.intervalStop (chunk : UInt64) (size : UInt32) (cur : Interval) : UInt32 :=
  if cur.stop ≠ uint32Max ∧ cur.rawStop chunk size > size then size else cur.rawStop chunk size

/-- `interval_stop` as it is first computed, in exact arithmetic. -/
def Interval.exactRawStop (size eff : ℕ) (cur : Interval) : ℕ :=
  if cur.stop = uint32Max then size else (cur.stop.toNat + 1) * eff

/-- What is observed agrees with exact arithmetic and stays inside the payload. -/
def SendObs.Exact (r : MetaReq) (size : ℕ) : SendObs → Prop
  | .bounds i start rawStop stop bytes => ∃ cur, r.requested[i]? = some cur ∧
      start.toNat = cur.start.toNat * r.eff ∧ rawStop.toNat = cur.exactRawStop size r.eff ∧
      stop.toNat = cur.stopByte size r.eff ∧
        (bytes.toNat : ℤ) = cur.stopByte size r.eff - cur.start.toNat * r.eff
  | .read offset n => offset.toNat + n.toNat ≤ size
  | .advance before n after => after.toNat = before.toNat + n.toNat
  | _ => True

theorem Interval.toNat_intervalStart (chunk : UInt64) (cur : Interval) :
    (cur.intervalStart chunk).toNat = cur.start.toNat * chunk.toNat % 2 ^ 32 := by
  rw [Interval.intervalStart, UInt64.toNat_toUInt32, UInt64.toNat_mul, UInt32.toNat_toUInt64]
  omega

theorem Interval.toNat_rawStop (chunk : UInt64) (size : UInt32) (cur : Interval) :
    (cur.rawStop chunk size).toNat = cur.exactRawStop size.toNat chunk.toNat % 2 ^ 32 := by
  have hs := size.toNat_lt
  unfold Interval.rawStop Interval.exactRawStop
  by_cases ho : cur.stop = uint32Max
  · rw [if_neg (not_not.mpr ho), if_pos ho]
    omega
  · rw [if_pos ho, if_neg ho, UInt64.toNat_toUInt32, UInt64.toNat_mul, UInt32.toNat_toUInt64,
      toNat_add_one ho]
    omega

/-- The bounds of an interval that fits are exact. -/
theorem Interval.Fits.bounds {size : UInt32} {chunk : UInt64} {cur : Interval}
    (h : cur.Fits size.toNat chunk.toNat) :
    (cur.intervalStart chunk).toNat = cur.start.toNat * chunk.toNat ∧
      (cur.rawStop chunk size).toNat = cur.exactRawStop size.toNat chunk.toNat ∧
      (cur.intervalStop chunk size).toNat = cur.stopByte size.toNat chunk.toNat := by
  have hs := size.toNat_lt
  have hraw : (cur.rawStop chunk size).toNat = cur.exactRawStop size.toNat chunk.toNat := by
    rw [cur.toNat_rawStop, Nat.mod_eq_of_lt]
    unfold Interval.exactRawStop
    split_ifs with ho
    · exact hs
    · exact (h.stop.resolve_left ho).2
  refine ⟨?_, hraw, ?_⟩
  · rw [cur.toNat_intervalStart, Nat.mod_eq_of_lt]
    exact lt_of_le_of_lt h.start_le hs
  · unfold Interval.intervalStop Interval.stopByte
    by_cases ho : cur.stop = uint32Max
    · rw [if_neg fun h => h.1 ho, hraw, Interval.exactRawStop, if_pos ho, if_pos ho]
    · rw [Interval.exactRawStop, if_neg ho] at hraw
      rw [if_neg ho]
      split_ifs with hgt
      · rw [gt_iff_lt, UInt32.lt_iff_toNat_lt, hraw] at hgt
        rw [min_eq_right hgt.2.le]
      · rw [gt_iff_lt, UInt32.lt_iff_toNat_lt, hraw, not_and, not_lt] at hgt
        rw [hraw, min_eq_left (hgt ho)]

/-! ### What stays the same -/

namespace SendState

/-- The intervals still to be visited are those from here on. -/
def position (s : SendState) : ℕ :=
  match s.pc with
  | .interval i => i
  | .poll i _ => i + 1
  | .finished => 8
  | .fault _ => 8

/-- The state works on request `r` and a payload of `size` bytes, and has changed nothing of
the intervals it has not visited yet. -/
structure Serves (r : MetaReq) (size : UInt32) (s : SendState) : Prop where
  /-- The packet size. -/
  mtu : s.ctx.request.mtu = r.mtu
  /-- The session. -/
  sessionId : s.ctx.request.sessionId = r.sessionId
  /-- How many intervals there are. -/
  nofIntervals : s.ctx.request.nofIntervals = r.nofIntervals
  /-- The payload's size. -/
  size : s.ctx.payloadSize = size
  /-- The intervals to come. -/
  intervals : ∀ j : ℕ, s.position ≤ j → s.ctx.request.intervalAt j = r.intervalAt j

theorem Serves.eff {r : MetaReq} {size : UInt32} {s : SendState} (h : Serves r size s) :
    s.ctx.request.eff = r.eff := by
  rw [MetaReq.eff, h.mtu, MetaReq.eff]

theorem Serves.chunk {r : MetaReq} {size : UInt32} {s : SendState} (h : Serves r size s) :
    s.ctx.request.chunk = r.chunk := by
  rw [MetaReq.chunk, h.mtu, MetaReq.chunk]

/-- Writing the end of interval `i` leaves the other intervals as they are. -/
theorem intervalAt_setEnd (r : MetaReq) {i j : ℕ} (stop : UInt32) (h : i < j) :
    (r.setEnd i stop).intervalAt j = r.intervalAt j := by
  unfold MetaReq.intervalAt
  split_ifs with hj
  · congr 1
    exact Vector.getElem_setIfInBounds_ne (by omega) (by omega)
  · rfl

theorem pc_endRound (s : SendState) (i : ℕ) :
    (s.endRound i).pc = .poll i 0 ∨ (s.endRound i).pc = .interval (i + 1) := by
  unfold endRound
  split_ifs
  · exact Or.inl rfl
  · exact Or.inr rfl

@[simp] theorem position_endRound (s : SendState) (i : ℕ) : (s.endRound i).position = i + 1 := by
  unfold endRound
  split_ifs <;> rfl

@[simp] theorem ctx_endRound (s : SendState) (i : ℕ) : (s.endRound i).ctx = s.ctx := by
  unfold endRound
  split_ifs <;> rfl

@[simp] theorem transfer_endRound (s : SendState) (i : ℕ) :
    (s.endRound i).transfer = s.transfer := by
  unfold endRound
  split_ifs <;> rfl

@[simp] theorem log_endRound (s : SendState) (i : ℕ) : (s.endRound i).log = s.log := by
  unfold endRound
  split_ifs <;> rfl

/-- What a step does to the context: it may write the end of an interval to the request, and it may
find that the client is gone. -/
theorem ctx_step (s : SendState) (t : Tick) :
    ∃ request gone, request.sessionId = s.ctx.request.sessionId ∧
    (gone = true → s.clientGone t.now = true) ∧
    (s.step t).ctx =
      { s.ctx with request := request, keepRunning := s.ctx.keepRunning && !gone } := by
  have hsame : ∀ s' : SendState, s'.ctx = s.ctx →
    ∃ request gone, request.sessionId = s.ctx.request.sessionId ∧
      (gone = true → s.clientGone t.now = true) ∧
      s'.ctx = { s.ctx with request := request, keepRunning := s.ctx.keepRunning && !gone } :=
    fun s' h => ⟨s.ctx.request, false, rfl, by simp, by simp [h]⟩
  cases hpc : s.pc with
  | interval i =>
    simp only [step, hpc, intervalStep]
    split
    · cases s.ctx.request.intervalAt i with
      | error f => exact hsame _ rfl
      | ok cur =>
        dsimp only
        split
        · exact hsame _ rfl
        · split
          · exact hsame _ rfl
          · exact ⟨s.ctx.request.setEnd i _, false, rfl,
              by simp, by rw [Bool.not_false, Bool.and_true]; rfl⟩
    · exact hsame _ rfl
  | poll i c =>
    simp only [step, hpc, pollStep]
    split_ifs
    · exact hsame _ (ctx_endRound _ i)
    · exact ⟨s.ctx.request, _, rfl, id, rfl⟩
    · exact hsame _ (ctx_endRound s i)
    · exact hsame _ (ctx_endRound s i)
  | finished => exact hsame _ (by simp only [step, hpc])
  | fault f => exact hsame _ (by simp only [step, hpc])

/-- Of the request, it writes nothing else. -/
theorem request_step (s : SendState) (t : Tick) :
    ∃ intervals, (s.step t).ctx.request = { s.ctx.request with intervals := intervals } := by
  cases hpc : s.pc with
  | interval i =>
    simp only [step, hpc, intervalStep]
    split
    · cases s.ctx.request.intervalAt i with
      | error f => exact ⟨_, rfl⟩
      | ok cur =>
        dsimp only
        split
        · exact ⟨_, rfl⟩
        · split
          · exact ⟨_, rfl⟩
          · exact ⟨_, rfl⟩
    · exact ⟨_, rfl⟩
  | poll i c =>
    simp only [step, hpc, pollStep]
    split_ifs
    · exact ⟨_, by rw [ctx_endRound]⟩
    · exact ⟨_, rfl⟩
    · exact ⟨_, by rw [ctx_endRound]⟩
    · exact ⟨_, by rw [ctx_endRound]⟩
  | finished => exact ⟨_, by simp only [step, hpc]; rfl⟩
  | fault f => exact ⟨_, by simp only [step, hpc]; rfl⟩

theorem getElem?_requested {r : MetaReq} {i : ℕ} {cur : Interval} (h : r.requested[i]? = some cur) :
    i < r.nofIntervals.toNat ∧ r.intervalAt i = .ok cur := by
  have hlt : i < r.nofIntervals.toNat := by
    by_contra hge
    rw [MetaReq.requested, List.getElem?_take_eq_none (not_lt.mp hge)] at h
    cases h
  rw [MetaReq.requested, List.getElem?_take_of_lt hlt] at h
  obtain ⟨hi, rfl⟩ := List.getElem?_eq_some_iff.mp h
  rw [Vector.length_toList] at hi
  refine ⟨hlt, ?_⟩
  rw [r.intervalAt_eq_ok hi, Vector.getElem_toList]

/-- The bounds the server computes for an interval it comes to. -/
theorem intervalStep_eq_enter {r : MetaReq} {size : UInt32} {s : SendState} {i : ℕ} {cur : Interval}
    (h : Serves r size s) (hpc : s.pc = .interval i) (hm : 8 < r.mtu.toNat)
    (hi : r.requested[i]? = some cur) (hk : s.ctx.keepRunning = true) :
    ∃ request, (request = s.ctx.request ∨ ∃ e, request = s.ctx.request.setEnd i e) ∧
      s.intervalStep i = s.enter i request (cur.intervalStart r.chunk) (cur.rawStop r.chunk size)
        (cur.intervalStop r.chunk size) := by
  obtain ⟨hlt, hat⟩ := getElem?_requested hi
  have h0 : r.chunk ≠ 0 := by
    intro h0
    have := r.toNat_chunk hm
    rw [h0, UInt64.toNat_zero] at this
    omega
  unfold intervalStep
  rw [h.nofIntervals, if_pos ⟨hlt, hk⟩,
    h.intervals i (by simp [position, hpc]), hat, h.chunk, h.size]
  dsimp only
  by_cases ho : cur.stop = uint32Max
  · have hraw : cur.rawStop r.chunk size = size := if_neg (not_not.mpr ho)
    have hstop : cur.intervalStop r.chunk size = size := by
      rw [Interval.intervalStop, if_neg fun h => h.1 ho, hraw]
    rw [if_neg (not_not.mpr ho), if_neg h0, hraw, hstop]
    exact ⟨_, Or.inr ⟨_, rfl⟩, rfl⟩
  · rw [if_pos ho]
    refine ⟨_, Or.inl rfl, ?_⟩
    simp only [Interval.intervalStop, Interval.rawStop, Interval.intervalStart, ne_eq, ho,
      not_false_eq_true, if_true, true_and]

theorem Serves.enter {r : MetaReq} {size : UInt32} {s : SendState} {i : ℕ} (h : Serves r size s)
    (hpc : s.pc = .interval i) {request : MetaReq}
    (hreq : request = s.ctx.request ∨ ∃ e, request = s.ctx.request.setEnd i e)
    (start rawStop stop : UInt32) :
    Serves r size (s.enter i request start rawStop stop) := by
  have hpos : s.position = i := by simp [position, hpc]
  rcases hreq with rfl | ⟨e, rfl⟩
  · exact ⟨h.mtu, h.sessionId, h.nofIntervals, h.size, fun j hj =>
      h.intervals j (by rw [hpos]; exact Nat.le_of_succ_le hj)⟩
  · refine ⟨h.mtu, h.sessionId, h.nofIntervals, h.size, fun j hj => ?_⟩
    have hj' : i < j := hj
    exact (intervalAt_setEnd _ e hj').trans (h.intervals j (by rw [hpos]; exact hj'.le))

theorem Serves.endRound {r : MetaReq} {size : UInt32} {s : SendState} {i : ℕ} {c : UInt32}
    (h : Serves r size s) (hpc : s.pc = .poll i c) (log : List SendObs) :
    Serves r size (SendState.endRound { s with log := log } i) := by
  refine ⟨?_, ?_, ?_, ?_, ?_⟩
  · rw [ctx_endRound]; exact h.mtu
  · rw [ctx_endRound]; exact h.sessionId
  · rw [ctx_endRound]; exact h.nofIntervals
  · rw [ctx_endRound]; exact h.size
  · intro j hj
    rw [position_endRound] at hj
    rw [ctx_endRound]
    exact h.intervals j (by simpa [position, hpc] using hj)

theorem Serves.sendPacket {r : MetaReq} {size : UInt32} {s : SendState} {i : ℕ} {c : UInt32}
    (h : Serves r size s) (hpc : s.pc = .poll i c) (rd : ReadResult) (now : UInt32) :
    Serves r size (s.sendPacket i c rd now) :=
  ⟨h.mtu, h.sessionId, h.nofIntervals, h.size, fun j hj => h.intervals j (by
    have hj' : i + 1 ≤ j := hj
    simpa [position, hpc] using hj')⟩

/-! ### The counters -/

/-- The counters of a transfer inside interval `cur` of a payload of `size` bytes. -/
structure Inside (size eff : ℕ) (cur : Interval) (tr : Transfer) : Prop where
  /-- Not more has been sent than there is. -/
  sent_le : tr.sentInInterval.toNat ≤ tr.bytesInInterval.toNat
  /-- The offset of the next packet. -/
  bytesSent : tr.bytesSent.toNat = cur.start.toNat * eff + tr.sentInInterval.toNat
  /-- The length of the interval. -/
  bytesInInterval : cur.start.toNat * eff + tr.bytesInInterval.toNat = cur.stopByte size eff

/-- What is left of the interval. -/
def left (s : SendState) : ℕ := s.transfer.bytesInInterval.toNat - s.transfer.sentInInterval.toNat

theorem more_iff {s : SendState}
    (h : s.transfer.sentInInterval.toNat ≤ s.transfer.bytesInInterval.toNat)
    (hm : 8 < s.ctx.request.mtu.toNat) : s.more = true ↔ s.ctx.request.eff < s.left := by
  have hle : s.transfer.sentInInterval ≤ s.transfer.bytesInInterval := UInt32.le_iff_toNat_le.mpr h
  unfold more
  rw [decide_eq_true_iff, gt_iff_lt, UInt64.lt_iff_toNat_lt, UInt32.toNat_toUInt64,
    MetaReq.toNat_chunk hm, UInt32.toNat_sub_of_le _ _ hle]
  rfl

/-- The next packet carries a full chunk, or what is left. -/
theorem toNat_nextLength {s : SendState}
    (h : s.transfer.sentInInterval.toNat ≤ s.transfer.bytesInInterval.toNat)
    (hm : 8 < s.ctx.request.mtu.toNat) : s.nextLength.toNat = min s.ctx.request.eff s.left + 8 := by
  have hle : s.transfer.sentInInterval ≤ s.transfer.bytesInInterval := UInt32.le_iff_toNat_le.mpr h
  have hmt := s.ctx.request.mtu.toNat_lt
  have hmore := more_iff h hm
  unfold nextLength
  split_ifs with hb
  · rw [min_eq_left (hmore.mp hb).le, MetaReq.eff]
    omega
  · have hl : s.left ≤ s.ctx.request.eff := not_lt.mp fun hlt => hb (hmore.mpr hlt)
    rw [min_eq_right hl, UInt64.toNat_toUInt16, UInt64.toNat_add, UInt32.toNat_toUInt64,
      UInt32.toNat_sub_of_le _ _ hle, show (8 : UInt64).toNat = 8 from rfl]
    unfold left MetaReq.eff at *
    omega

theorem toNat_nextSize {s : SendState}
    (h : s.transfer.sentInInterval.toNat ≤ s.transfer.bytesInInterval.toNat)
    (hm : 8 < s.ctx.request.mtu.toNat) : s.nextSize.toNat = min s.ctx.request.eff s.left := by
  have hlen := toNat_nextLength h hm
  have hlt := s.nextLength.toNat_lt
  rw [nextSize, UInt64.toNat_toUInt32, UInt64.toNat_sub, UInt16.toNat_toUInt64,
    show (8 : UInt64).toNat = 8 from rfl, hlen]
  omega

/-- The `read` callback is asked for a full chunk, or for what is left. -/
theorem Inside.toNat_nextSize {r : MetaReq} {size : ℕ} {cur : Interval} {s : SendState}
    (h : Inside size r.eff cur s.transfer) (hm : 8 < r.mtu.toNat)
    (hmtu : s.ctx.request.mtu = r.mtu) :
    s.nextSize.toNat = min r.eff s.left := by
  rw [SendState.toNat_nextSize h.sent_le (by rwa [hmtu]), MetaReq.eff, hmtu, MetaReq.eff]

/-- Every call of the `read` callback stays inside the interval. -/
theorem Inside.read_le {r : MetaReq} {size : ℕ} {cur : Interval} {s : SendState}
    (h : Inside size r.eff cur s.transfer) (hm : 8 < r.mtu.toNat)
    (hmtu : s.ctx.request.mtu = r.mtu) :
    s.transfer.bytesSent.toNat + s.nextSize.toNat ≤ cur.stopByte size r.eff := by
  rw [h.toNat_nextSize hm hmtu, h.bytesSent, ← h.bytesInInterval]
  have := h.sent_le
  unfold left
  omega

/-- Sending a packet keeps the counters exact. -/
theorem Inside.advance {r : MetaReq} {size : ℕ} {cur : Interval} {s : SendState}
    (h : Inside size r.eff cur s.transfer) (hm : 8 < r.mtu.toNat) (hmtu : s.ctx.request.mtu = r.mtu)
    (hsize : size < 2 ^ 32) {n : UInt32} (hn : n ≤ s.nextSize) :
    (s.transfer.bytesSent + n).toNat = s.transfer.bytesSent.toNat + n.toNat ∧
      (s.transfer.sentInInterval + n).toNat = s.transfer.sentInInterval.toNat + n.toNat ∧
      s.transfer.sentInInterval.toNat + n.toNat ≤ s.transfer.bytesInInterval.toNat := by
  have hread := h.read_le hm hmtu
  have hstop := cur.stopByte_le size r.eff
  have hlt := s.transfer.bytesInInterval.toNat_lt
  rw [UInt32.le_iff_toNat_le] at hn
  have hsz := h.toNat_nextSize hm hmtu
  have hle : s.transfer.sentInInterval.toNat + n.toNat ≤ s.transfer.bytesInInterval.toNat := by
    have := h.sent_le
    unfold left at hsz
    omega
  refine ⟨?_, ?_, hle⟩
  · rw [UInt32.toNat_add, Nat.mod_eq_of_lt (by omega)]
  · rw [UInt32.toNat_add, Nat.mod_eq_of_lt (by omega)]

/-- The counters on entering an interval that fits. -/
theorem inside_enter {r : MetaReq} {size : UInt32} {cur : Interval} (hm : 8 < r.mtu.toNat)
    (hf : cur.Fits size.toNat r.eff) (s : SendState) (i : ℕ) (request : MetaReq) :
    Inside size.toNat r.eff cur
      (s.enter i request (cur.intervalStart r.chunk) (cur.rawStop r.chunk size)
      (cur.intervalStop r.chunk size)).transfer := by
  have hc : r.chunk.toNat = r.eff := r.toNat_chunk hm
  rw [← hc] at hf
  obtain ⟨hstart, -, hstop⟩ := hf.bounds
  have hle := hf.start_le_stopByte
  rw [hc] at hstart hstop hle
  refine ⟨Nat.zero_le _, hstart, ?_⟩
  show _ + (cur.intervalStop r.chunk size - cur.intervalStart r.chunk).toNat = _
  rw [UInt32.toNat_sub_of_le _ _ (by rw [UInt32.le_iff_toNat_le, hstart, hstop]; exact hle),
    hstart, hstop]
  omega

/-- The counters are exact, inside whichever interval is being sent, and so is everything
observed so far. -/
structure Counted (r : MetaReq) (size : UInt32) (s : SendState) : Prop where
  /-- The state works on the request. -/
  serves : Serves r size s
  /-- The counters. -/
  inside : ∀ i c, s.pc = .poll i c → ∃ cur, r.requested[i]? = some cur ∧
    Inside size.toNat r.eff cur s.transfer
  /-- The log. -/
  exact : ∀ o ∈ s.log, o.Exact r size.toNat

theorem Counted.endRound {r : MetaReq} {size : UInt32} {s : SendState} {i : ℕ} {c : UInt32}
    (h : Counted r size s) (hpc : s.pc = .poll i c) {log : List SendObs}
    (hlog : ∀ o ∈ log, o.Exact r size.toNat) :
    Counted r size (SendState.endRound { s with log := log } i) := by
  refine ⟨h.serves.endRound hpc log, fun j d hj => ?_, ?_⟩
  · obtain ⟨cur, hcur, hin⟩ := h.inside i c hpc
    rw [transfer_endRound]
    rcases pc_endRound { s with log := log } i with hp | hp
    · rw [hp] at hj
      cases hj
      exact ⟨cur, hcur, hin⟩
    · rw [hp] at hj
      cases hj
  · rw [log_endRound]
    exact hlog

theorem getElem?_requested_of_lt {r : MetaReq} (hr : r.Usable) {i : ℕ}
    (h : i < r.nofIntervals.toNat) :
    ∃ cur, r.requested[i]? = some cur := by
  refine ⟨_, List.getElem?_eq_getElem ?_⟩
  rw [r.length_requested hr.le]
  exact h

/-- Entering an interval that fits. -/
theorem Counted.enter {r : MetaReq} {size : UInt32} {s : SendState} {i : ℕ} {cur : Interval}
    (hr : r.Usable) (h : Counted r size s) (hpc : s.pc = .interval i)
    (hcur : r.requested[i]? = some cur) (hf : cur.Fits size.toNat r.eff) {request : MetaReq}
    (hreq : request = s.ctx.request ∨ ∃ e, request = s.ctx.request.setEnd i e) :
    Counted r size (s.enter i request (cur.intervalStart r.chunk) (cur.rawStop r.chunk size)
      (cur.intervalStop r.chunk size)) := by
  have hin := inside_enter hr.mtu hf s i request
  rw [← show r.chunk.toNat = r.eff from r.toNat_chunk hr.mtu] at hf
  obtain ⟨hstart, hraw, hstop⟩ := hf.bounds
  rw [show r.chunk.toNat = r.eff from r.toNat_chunk hr.mtu] at hstart hraw hstop
  refine ⟨h.serves.enter hpc hreq _ _ _, ?_, ?_⟩
  · intro j d hj
    cases hj
    exact ⟨cur, hcur, hin⟩
  · intro o ho
    rcases List.mem_append.mp ho with ho | ho
    · exact h.exact o ho
    · rw [List.mem_singleton.mp ho]
      have hbytes : _ + (cur.intervalStop r.chunk size - cur.intervalStart r.chunk).toNat = _ :=
        hin.bytesInInterval
      exact ⟨cur, hcur, hstart, hraw, hstop, by omega⟩

/-- Sending a packet inside an interval. -/
theorem Counted.sendPacket {r : MetaReq} {size : UInt32} {s : SendState} {i : ℕ} {c : UInt32}
    (hr : r.Usable) (h : Counted r size s) (hpc : s.pc = .poll i c) {rd : ReadResult}
    (hrd : rd.count ≤ s.nextSize) (now : UInt32) :
    Counted r size (s.sendPacket i c rd now) := by
  obtain ⟨cur, hcur, hin⟩ := h.inside i c hpc
  obtain ⟨hbytes, hsent, hle⟩ := hin.advance hr.mtu h.serves.mtu size.toNat_lt hrd
  refine ⟨h.serves.sendPacket hpc rd now, ?_, ?_⟩
  · intro j d hj
    cases hj
    refine ⟨cur, hcur, ⟨?_, ?_, hin.bytesInInterval⟩⟩
    · exact hsent ▸ hle
    · show (s.transfer.bytesSent + rd.count).toNat =
        _ + (s.transfer.sentInInterval + rd.count).toNat
      rw [hbytes, hsent, hin.bytesSent]
      omega
  · intro o ho
    rcases List.mem_append.mp ho with ho | ho
    · exact h.exact o ho
    · simp only [List.mem_cons, List.not_mem_nil, or_false] at ho
      rcases ho with rfl | rfl | rfl | rfl
      · trivial
      · exact (hin.read_le hr.mtu h.serves.mtu).trans (cur.stopByte_le _ _)
      · exact hbytes
      · trivial

/-- A turn of the `while` ends the round, or sends a packet. -/
theorem pollStep_cases (s : SendState) (i : ℕ) (c : UInt32) (t : Tick) :
    ¬ (c < s.transfer.nofPacketsPerRound ∧ s.ctx.keepRunning = true ∧ t.buffer = true) ∧
      s.pollStep i c t = s.endRound i ∨
      (c < s.transfer.nofPacketsPerRound ∧ s.ctx.keepRunning = true ∧ t.buffer = true) ∧
        ((t.read s.transfer.bytesSent s.nextSize).count = 0 ∧
            s.pollStep i c t = endRound
              { s with log := s.log ++ [.buffer, .read s.transfer.bytesSent s.nextSize] } i ∨
          (t.read s.transfer.bytesSent s.nextSize).count ≠ 0 ∧
            s.pollStep i c t =
              s.sendPacket i c (t.read s.transfer.bytesSent s.nextSize) t.now) := by
  simp only [pollStep]
  split_ifs with hgo hb hz
  · exact Or.inr ⟨⟨hgo.1, hgo.2, hb⟩, Or.inl ⟨hz, rfl⟩⟩
  · exact Or.inr ⟨⟨hgo.1, hgo.2, hb⟩, Or.inr ⟨hz, rfl⟩⟩
  · exact Or.inl ⟨fun h => hb h.2.2, rfl⟩
  · exact Or.inl ⟨fun h => hgo ⟨h.1, h.2.1⟩, rfl⟩

/-- What a step does, for a state that serves a usable request. -/
inductive Moves (r : MetaReq) (size : UInt32) (t : Tick) (s : SendState) : SendState → Prop where
  /-- It is over. -/
  | ended : (s.pc = .finished ∨ ∃ f, s.pc = .fault f) → Moves r size t s s
  /-- There is no interval left, or the transfer has been stopped. -/
  | finish {i : ℕ} : s.pc = .interval i → ¬ (i < r.nofIntervals.toNat ∧ s.ctx.keepRunning = true) →
      Moves r size t s { s with pc := .finished }
  /-- The next interval is entered. -/
  | enter {i : ℕ} {cur : Interval} {request : MetaReq} : s.pc = .interval i → r.requested[i]? = some
      cur →
      s.ctx.keepRunning = true →
        (request = s.ctx.request ∨ ∃ e, request = s.ctx.request.setEnd i e) →
      Moves r size t s (s.enter i request (cur.intervalStart r.chunk) (cur.rawStop r.chunk size)
        (cur.intervalStop r.chunk size))
  /-- The round is over, or there is no buffer. -/
  | round {i : ℕ} {c : UInt32} : s.pc = .poll i c →
      ¬ (c < s.transfer.nofPacketsPerRound ∧ s.ctx.keepRunning = true ∧ t.buffer = true) →
      Moves r size t s (s.endRound i)
  /-- The `read` callback returns nothing. -/
  | empty {i : ℕ} {c : UInt32} : s.pc = .poll i c →
      (t.read s.transfer.bytesSent s.nextSize).count = 0 →
      Moves r size t s
        (endRound { s with log := s.log ++ [.buffer, .read s.transfer.bytesSent s.nextSize] } i)
  /-- A packet is sent. -/
  | send {i : ℕ} {c : UInt32} : s.pc = .poll i c → s.ctx.keepRunning = true →
      (t.read s.transfer.bytesSent s.nextSize).count ≠ 0 →
      Moves r size t s (s.sendPacket i c (t.read s.transfer.bytesSent s.nextSize) t.now)

theorem moves_step {r : MetaReq} {size : UInt32} {s : SendState} (hr : r.Usable)
    (h : Serves r size s) (t : Tick) :
    Moves r size t s (s.step t) := by
  cases hpc : s.pc with
  | finished => simpa [SendState.step, hpc] using Moves.ended (Or.inl hpc)
  | fault f => simpa [SendState.step, hpc] using Moves.ended (Or.inr ⟨f, hpc⟩)
  | interval i =>
    simp only [SendState.step, hpc]
    by_cases hgo : i < r.nofIntervals.toNat ∧ s.ctx.keepRunning = true
    · obtain ⟨cur, hcur⟩ := getElem?_requested_of_lt hr hgo.1
      obtain ⟨request, hreq, henter⟩ := intervalStep_eq_enter h hpc hr.mtu hcur hgo.2
      rw [henter]
      exact .enter hpc hcur hgo.2 hreq
    · rw [intervalStep, h.nofIntervals, if_neg hgo]
      exact .finish hpc hgo
  | poll i c =>
    simp only [SendState.step, hpc]
    obtain ⟨hno, hstep⟩ | ⟨hgo, ⟨hz, hstep⟩ | ⟨hz, hstep⟩⟩ := s.pollStep_cases i c t <;> rw [hstep]
    · exact .round hpc hno
    · exact .empty hpc hz
    · exact .send hpc hgo.2.1 hz

/-- A step keeps the counters exact, if the interval it enters fits. -/
theorem Counted.step {r : MetaReq} {size : UInt32} {s : SendState} (hr : r.Usable)
    (hfit : ∀ i cur, s.pc = .interval i → r.requested[i]? = some cur → cur.Fits size.toNat r.eff)
    (h : Counted r size s) {t : Tick} (ht : t.Polite) : Counted r size (s.step t) := by
  have hmoves := moves_step hr h.serves t
  generalize s.step t = s' at hmoves ⊢
  cases hmoves with
  | ended _ => exact h
  | finish hpc hgo =>
    refine ⟨⟨h.serves.mtu, h.serves.sessionId, h.serves.nofIntervals, h.serves.size, ?_⟩, ?_,
      h.exact⟩
    · intro j hj
      have hj8 : ¬ (0 ≤ (j : ℤ) ∧ (j : ℤ) < 8) := by
        have : 8 ≤ j := hj
        omega
      rw [MetaReq.intervalAt_eq_error _ hj8, MetaReq.intervalAt_eq_error _ hj8]
    · intro j d hj
      cases hj
  | enter hpc hcur hk hreq => exact h.enter hr hpc hcur (hfit _ _ hpc hcur) hreq
  | round hpc _ => exact h.endRound hpc h.exact
  | empty hpc _ =>
    obtain ⟨cur, hcur, hin⟩ := h.inside _ _ hpc
    refine h.endRound hpc fun o ho => ?_
    rcases List.mem_append.mp ho with ho | ho
    · exact h.exact o ho
    · simp only [List.mem_cons, List.not_mem_nil, or_false] at ho
      rcases ho with rfl | rfl
      · trivial
      · exact (hin.read_le hr.mtu h.serves.mtu).trans (cur.stopByte_le _ _)
  | send hpc hk hz => exact h.sendPacket hr hpc (ht _ _) _

/-- Along a run, the counters stay exact as long as the intervals fit. -/
theorem counted_run {r : MetaReq} {size : UInt32} {s : SendState} (hr : r.Usable)
    (hfit : ∀ cur ∈ r.requested, cur.Fits size.toNat r.eff) (h : Counted r size s) (ts : List Tick)
    (hts : ∀ t ∈ ts, t.Polite) : Counted r size (s.run ts) :=
  List.foldlRecOn ts SendState.step h fun _ hs _ ht =>
    hs.step hr (fun _ _ _ hcur => hfit _ (List.mem_of_getElem? hcur)) (hts _ ht)

/-- The start of `start_sending_data` on a usable request. -/
theorem counted_start (E : ErrorTest) {ctx : ServerTransferCtx} (hr : ctx.request.Usable)
    (now : UInt32) :
    Counted ctx.request ctx.payloadSize (startSendingData E ctx now) ∧
      (startSendingData E ctx now).pc = .interval 0 ∧ (startSendingData E ctx now).log = [] ∧
      (startSendingData E ctx now).ctx = { ctx with clientAliveTs := now } ∧
      1 ≤ (startSendingData E ctx now).transfer.nofPacketsPerRound.toNat := by
  obtain ⟨m, hm, -, hper, -⟩ := computeDtpMetrics_spec E ctx.payloadSize hr
  unfold startSendingData
  rw [hm]
  refine ⟨⟨⟨rfl, rfl, rfl, rfl, fun _ _ => rfl⟩, ?_, ?_⟩, rfl, rfl, rfl, hper⟩
  · intro i c hi
    cases hi
  · intro o ho
    cases ho

/-! ### The packets -/

@[simp] theorem sentPackets_append (l₁ l₂ : List SendObs) :
    sentPackets (l₁ ++ l₂) = sentPackets l₁ ++ sentPackets l₂ := List.filterMap_append

@[simp] theorem sent_endRound (s : SendState) (i : ℕ) : (s.endRound i).sent = s.sent := by
  rw [sent, log_endRound, sent]

theorem sent_enter (s : SendState) (i : ℕ) (request : MetaReq) (start rawStop stop : UInt32) :
    (s.enter i request start rawStop stop).sent = s.sent := by
  simp [sent, SendState.enter, sentPackets]

theorem sent_sendPacket (s : SendState) (i : ℕ) (c : UInt32) (rd : ReadResult) (now : UInt32) :
    (s.sendPacket i c rd now).sent =
      s.sent ++ [⟨s.transfer.bytesSent, s.ctx.request.sessionId, s.nextLength, rd.data⟩] := by
  simp [sent, SendState.sendPacket, sentPackets]

/-- The packet numbers of the first `i` intervals of a request. -/
def numbersBefore (r : MetaReq) (count i : ℕ) : List ℕ :=
  (r.requested.take i).flatMap (·.numbers count)

theorem numbersBefore_succ {r : MetaReq} {count i : ℕ} {cur : Interval}
    (h : r.requested[i]? = some cur) :
    numbersBefore r count (i + 1) = numbersBefore r count i ++ cur.numbers count := by
  rw [numbersBefore, List.take_add_one, h]
  simp [numbersBefore]

theorem numbersBefore_of_length_le {r : MetaReq} {count i : ℕ} (h : r.requested.length ≤ i) :
    numbersBefore r count i = r.numbers count := by
  rw [numbersBefore, List.take_of_length_le h, MetaReq.numbers]

/-- The numbers sent so far in an interval continue those of the intervals before it. -/
theorem numbersBefore_append_take {r : MetaReq} {count i : ℕ} {cur : Interval}
    (h : r.requested[i]? = some cur) (n : ℕ) :
    numbersBefore r count i ++ (cur.numbers count).take n <+: r.numbers count := by
  have h1 : numbersBefore r count (i + 1) <+: r.numbers count := by
    rw [numbersBefore, MetaReq.numbers]
    conv_rhs => rw [← List.take_append_drop (i + 1) r.requested]
    rw [List.flatMap_append]
    exact List.prefix_append _ _
  rw [numbersBefore_succ h] at h1
  exact (List.prefix_append_right_inj _ |>.mpr (List.take_prefix _ _)).trans h1

/-- The sent packets are those the request stands for, as far as the run has got. -/
structure Emitting (payload : List UInt8) (r : MetaReq) (s : SendState) : Prop where
  /-- They are a prefix of the emission. -/
  isPrefix : s.sent <+: emission payload r
  /-- At the `for`, all the intervals before have been sent. -/
  atInterval : ∀ i, s.pc = .interval i → s.ctx.keepRunning = true →
    s.sent = (numbersBefore r (count payload.length r.eff) i).map (chunkPacket payload r)
  /-- In the poll function, so many packets of the interval as the counters say. -/
  atPoll : ∀ i c, s.pc = .poll i c → ∃ cur n, r.requested[i]? = some cur ∧
    s.transfer.sentInInterval.toNat = min (n * r.eff) s.transfer.bytesInInterval.toNat ∧
    s.sent = (numbersBefore r (count payload.length r.eff) i ++
      (cur.numbers (count payload.length r.eff)).take n).map (chunkPacket payload r)
  /-- At the end, all of them. -/
  atEnd : s.pc = .finished → s.ctx.keepRunning = true → s.sent = emission payload r

/-- A packet that starts inside an interval ends where its chunk does, or inside it. -/
theorem min_stopByte {size eff : ℕ} (cur : Interval) {k : ℕ} (h : k * eff < cur.stopByte size eff) :
    min eff (cur.stopByte size eff - k * eff) = len size eff k := by
  unfold Interval.stopByte at *
  split_ifs at h ⊢ with ho
  · rfl
  · have hk : k + 1 ≤ cur.stop.toNat + 1 := by
      by_contra hlt
      have := Nat.mul_le_mul_right eff (show cur.stop.toNat + 1 ≤ k by omega)
      omega
    have := Nat.mul_le_mul_right eff hk
    rw [Nat.succ_mul k] at this
    rw [len]
    omega

section Payload

variable {payload : List UInt8} {r : MetaReq} {size : UInt32} {s : SendState}

/-- A read inside an interval returns a full chunk, or what is left. -/
theorem read_eq (hm : 8 < r.mtu.toNat) (hmtu : s.ctx.request.mtu = r.mtu) {cur : Interval}
    (hin : Inside payload.length r.eff cur s.transfer) {t : Tick} (ht : t.Reads payload) :
    t.read s.transfer.bytesSent s.nextSize =
        ⟨s.nextSize, (payload.drop s.transfer.bytesSent.toNat).take s.nextSize.toNat⟩ ∧
      s.nextSize.toNat = min r.eff s.left :=
  ⟨ht.2 _ _ ((hin.read_le hm hmtu).trans (cur.stopByte_le _ _)), hin.toNat_nextSize hm hmtu⟩

/-- In the poll function, with something left, the next packet to be sent is the one the
counters point to, and they then point to the one after it. -/
theorem next_packet (hm : 8 < r.mtu.toNat) (hsize : payload.length < 2 ^ 32)
    (hmtu : s.ctx.request.mtu = r.mtu) (hid : s.ctx.request.sessionId = r.sessionId)
    {cur : Interval} (hin : Inside payload.length r.eff cur s.transfer) {n : ℕ}
    (hn : s.transfer.sentInInterval.toNat = min (n * r.eff) s.transfer.bytesInInterval.toNat)
    {t : Tick} (ht : t.Reads payload) (hz : (t.read s.transfer.bytesSent s.nextSize).count ≠ 0) :
    n < (cur.numbers (count payload.length r.eff)).length ∧
      (s.transfer.sentInInterval + (t.read s.transfer.bytesSent s.nextSize).count).toNat =
        min ((n + 1) * r.eff) s.transfer.bytesInInterval.toNat ∧
      (⟨s.transfer.bytesSent, s.ctx.request.sessionId, s.nextLength,
        (t.read s.transfer.bytesSent s.nextSize).data⟩ : Packet) =
          chunkPacket payload r (cur.start.toNat + n) := by
  have he := MetaReq.eff_pos hm
  have hm' : 8 < s.ctx.request.mtu.toNat := by rw [hmtu]; exact hm
  have heff : s.ctx.request.eff = r.eff := by rw [MetaReq.eff, hmtu, MetaReq.eff]
  obtain ⟨hread, hns⟩ := read_eq hm hmtu hin ht
  have hleft : 0 < s.left := by
    have hne : s.nextSize.toNat ≠ 0 := by
      intro h0
      apply hz
      rw [hread]
      exact UInt32.toNat_inj.mp h0
    omega
  have hsent : s.transfer.sentInInterval.toNat = n * r.eff := by
    unfold left at hleft
    omega
  have hbytes := hin.bytesSent
  have hstop := hin.bytesInInterval
  have hk : (cur.start.toNat + n) * r.eff = s.transfer.bytesSent.toNat := by
    rw [Nat.add_mul, hbytes, hsent]
  have hlt : (cur.start.toNat + n) * r.eff < cur.stopByte payload.length r.eff := by
    rw [← hstop, hk, hbytes]
    unfold left at hleft
    omega
  have hlen : min r.eff s.left = len payload.length r.eff (cur.start.toNat + n) := by
    rw [← min_stopByte cur hlt, ← hstop, hk, hbytes, left]
    congr 1
    omega
  obtain ⟨-, hadd, -⟩ := hin.advance hm hmtu hsize (ht.1 s.transfer.bytesSent s.nextSize)
  refine ⟨(cur.length_numbers_gt_iff he n).mpr hlt, ?_, ?_⟩
  · rw [hadd, hread, hns, hsent, Nat.succ_mul, left]
    omega
  rw [chunkPacket, hk, ← hlen, hread]
  congr 1
  · simp
  · rw [← UInt16.toNat_inj, toNat_nextLength hin.sent_le hm', heff, UInt16.toNat_ofNat',
      Nat.mod_eq_of_lt]
    have := r.eff_lt
    have := r.mtu.toNat_lt
    unfold MetaReq.eff
    omega
  · rw [part, hk, hns, hlen, len]
    rw [List.take_eq_take_iff, List.length_drop]
    omega

/-- Going to the end of a round keeps account of the packets. If nothing is left of the interval,
all its packets have been taken. -/
theorem Emitting.endRound (hr : r.Usable) (hsize : size.toNat = payload.length)
    (hc : Counted r size s) (h : Emitting payload r s) {i : ℕ} {c : UInt32} (hpc : s.pc = .poll i c)
    (log : List SendObs) (hlog : sentPackets log = s.sent) :
    Emitting payload r (SendState.endRound { s with log := log } i) := by
  have he := MetaReq.eff_pos hr.mtu
  have hsent : (SendState.endRound { s with log := log } i).sent = s.sent := by
    rw [sent_endRound]; exact hlog
  obtain ⟨cur, n, hcur, hn, hs⟩ := h.atPoll i c hpc
  refine ⟨by rw [hsent]; exact h.isPrefix, ?_, ?_, ?_⟩
  · intro j hj hk
    rw [hsent, hs]
    unfold SendState.endRound at hj hk
    split_ifs at hj hk with hmore
    cases hj
    obtain ⟨cur', hcur', hin⟩ := hc.inside i c hpc
    obtain rfl : cur = cur' := Option.some.inj (hcur.symm.trans hcur')
    have hdone : s.transfer.bytesInInterval.toNat ≤ n * r.eff := by
      have hk' : s.ctx.keepRunning = true := hk
      simp only [hk', and_true, UInt32.lt_iff_toNat_lt, not_lt] at hmore
      omega
    rw [numbersBefore_succ hcur, List.take_of_length_le]
    by_contra hlen
    rw [not_le, cur.length_numbers_gt_iff he, Nat.add_mul, ← hsize, ← hin.bytesInInterval] at hlen
    omega
  · intro j d hj
    rw [transfer_endRound, hsent]
    rcases pc_endRound { s with log := log } i with hp | hp
    · rw [hp] at hj
      cases hj
      exact ⟨cur, n, hcur, hn, hs⟩
    · rw [hp] at hj
      cases hj
  · intro hj
    rcases pc_endRound { s with log := log } i with hp | hp <;> rw [hp] at hj <;> cases hj

/-- A step over a payload that is read in full keeps account of the packets. -/
theorem Emitting.step (hr : r.Usable) (hsize : size.toNat = payload.length) (hc : Counted r size s)
    (h : Emitting payload r s) {t : Tick} (ht : t.Reads payload) :
    Emitting payload r (s.step t) := by
  have hmoves := moves_step hr hc.serves t
  generalize s.step t = s' at hmoves ⊢
  cases hmoves with
  | ended _ => exact h
  | @finish i hpc hgo =>
    refine ⟨h.isPrefix, ?_, ?_, ?_⟩
    · intro j hj
      cases hj
    · intro j d hj
      cases hj
    · intro _ hk
      have hk' : s.ctx.keepRunning = true := hk
      show s.sent = _
      rw [h.atInterval i hpc hk', numbersBefore_of_length_le, emission]
      rw [r.length_requested hr.le]
      exact not_lt.mp fun hlt => hgo ⟨hlt, hk'⟩
  | @enter i cur request hpc hcur hk hreq =>
    have hs := h.atInterval i hpc hk
    refine ⟨by rw [sent_enter]; exact h.isPrefix, ?_, ?_, ?_⟩
    · intro j hj
      cases hj
    · intro j d hj
      cases hj
      refine ⟨cur, 0, hcur, ?_, ?_⟩
      · simp [SendState.enter]
      · rw [sent_enter, hs, List.take_zero, List.append_nil]
    · intro hj
      cases hj
  | round hpc _ => exact h.endRound hr hsize hc hpc _ rfl
  | empty hpc _ => exact h.endRound hr hsize hc hpc _ (by simp [sent, sentPackets])
  | @send i c hpc hk hz =>
    obtain ⟨cur, n, hcur, hn, hs⟩ := h.atPoll i c hpc
    obtain ⟨cur', hcur', hin⟩ := hc.inside i c hpc
    obtain rfl : cur = cur' := Option.some.inj (hcur.symm.trans hcur')
    obtain ⟨hlt, hcounter, hpkt⟩ :=
      next_packet hr.mtu (hsize ▸ size.toNat_lt) hc.serves.mtu hc.serves.sessionId
      (hsize ▸ hin) hn ht hz
    have hnew : (s.sendPacket i c (t.read s.transfer.bytesSent s.nextSize) t.now).sent =
        (numbersBefore r (count payload.length r.eff) i ++
          (cur.numbers (count payload.length r.eff)).take (n + 1)).map (chunkPacket payload r) := by
      rw [sent_sendPacket, hpkt, hs, List.take_succ_eq_append_getElem hlt, cur.getElem_numbers hlt]
      simp
    refine ⟨?_, ?_, ?_, ?_⟩
    · rw [hnew, emission]
      exact (numbersBefore_append_take hcur _).map _
    · intro j hj
      cases hj
    · intro j d hj
      cases hj
      exact ⟨cur, n + 1, hcur, hcounter, hnew⟩
    · intro hj
      cases hj

theorem emitting_run (hr : r.Usable) (hsize : size.toNat = payload.length)
    (hfit : ∀ cur ∈ r.requested, cur.Fits size.toNat r.eff) (hc : Counted r size s)
    (h : Emitting payload r s) (ts : List Tick) (hts : ∀ t ∈ ts, t.Reads payload) :
    Emitting payload r (s.run ts) := by
  induction ts generalizing s with
  | nil => exact h
  | cons t ts ih =>
    have ht := hts t (List.mem_cons_self ..)
    exact ih (hc.step hr (fun _ _ _ hcur => hfit _ (List.mem_of_getElem? hcur)) ht.1)
      (h.step hr hsize hc ht)
      fun t' ht' => hts t' (List.mem_cons_of_mem _ ht')

/-- The start of `start_sending_data` has sent nothing. -/
theorem emitting_start (E : ErrorTest) {ctx : ServerTransferCtx} (hr : ctx.request.Usable)
    (now : UInt32) :
    Emitting payload ctx.request (startSendingData E ctx now) := by
  obtain ⟨-, hpc, hlog, -, -⟩ := counted_start E hr now
  have hsent : (startSendingData E ctx now).sent = [] := by rw [sent, hlog]; rfl
  refine ⟨by rw [hsent]; exact List.nil_prefix, ?_, ?_, ?_⟩
  · intro i hi _
    rw [hpc] at hi
    cases hi
    simp [hsent, numbersBefore]
  · intro i c hi
    rw [hpc] at hi
    cases hi
  · intro hi
    rw [hpc] at hi
    cases hi

/-- Whatever happens, a run over a payload that is read in full sends a prefix of the
emission; all of it if it comes to its end without being stopped. -/
theorem sent_isPrefix (E : ErrorTest) {ctx : ServerTransferCtx} (hr : ctx.request.Usable)
    (hsize : ctx.payloadSize.toNat = payload.length)
    (hfit : ∀ cur ∈ ctx.request.requested, cur.Fits payload.length ctx.request.eff) (now : UInt32)
    (ts : List Tick) (hts : ∀ t ∈ ts, t.Reads payload) :
    ((startSendingData E ctx now).run ts).sent <+: emission payload ctx.request ∧
      (((startSendingData E ctx now).run ts).pc = .finished →
        ((startSendingData E ctx now).run ts).ctx.keepRunning = true →
        ((startSendingData E ctx now).run ts).sent = emission payload ctx.request) := by
  rw [← hsize] at hfit
  have h := emitting_run hr hsize hfit (counted_start E hr now).1 (emitting_start E hr now) ts hts
  exact ⟨h.isPrefix, h.atEnd⟩

end Payload

end SendState

end LibDtp
