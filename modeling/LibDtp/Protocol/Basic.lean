import Mathlib.Data.List.TakeDrop
import Mathlib.Data.Vector.Basic

/-!
# The protocol's types

The types of `dtp_protocol.h` and `dtp.h` that both ends share: the transfer
request, the data packet, the results, and the faults a request can drive the
code into.

The widths are the source's own (`uint32_t` is `UInt32`, and so on), so that a
sum or a product wraps here exactly where it wraps there. `sizeof` is a `size_t`,
which is 64 bits wide on the hosts modelled: `mtu - (2 * sizeof(uint32_t))` is
therefore computed in `UInt64` and narrowed where the source narrows it.

C leaves a division by zero and an access outside an array undefined. Here each
of them is a `Fault`, so that "the code never does this" is a statement.
-/

namespace LibDtp

/-- `dtp_result`. -/
inductive DtpResult where
  /-- `DTP_OK`. -/
  | ok
  /-- `DTP_ERR`. -/
  | err
  /-- `DTP_CANCELLED`. -/
  | cancelled
  deriving DecidableEq, Repr

/-- What C leaves undefined, and a loop that does not end. -/
inductive Fault where
  /-- An integer division by zero. -/
  | divByZero
  /-- An access outside an `intervals` array, or outside a packet. -/
  | outOfRange
  /-- A loop took more turns than it is allowed here. -/
  | outOfFuel
  deriving DecidableEq, Repr

/-- A call without a fault that has returned, and what can be computed of its result. -/
theorem returned_of_any {α : Type} {x : Except Fault (Option α)} {P : α → Prop} [DecidablePred P]
    (h : x.toOption.join.any (fun a => decide (P a)) = true) : ∃ a, x = .ok (some a) ∧ P a := by
  obtain ⟨a, ha, hP⟩ := (Option.any_eq_true _ _).mp h
  cases x with
  | error f => cases ha
  | ok o =>
    cases o with
    | none => cases ha
    | some b =>
      obtain rfl : b = a := Option.some.inj ha
      exact ⟨b, rfl, of_decide_eq_true hP⟩

/-- A computation in two parts that has not failed. -/
theorem exists_of_bind_eq_ok {α β : Type} {x : Except Fault α} {f : α → Except Fault β} {b : β}
    (h : (x >>= f) = .ok b) :
    ∃ a, x = .ok a ∧ f a = .ok b := by
  cases x with
  | error e => cases h
  | ok a => exact ⟨a, rfl, h⟩

/-- A call without a fault, and what can be computed of its result. -/
theorem ok_of_any {ε α : Type} {x : Except ε α} {P : α → Prop} [DecidablePred P]
    (h : x.toOption.any (fun a => decide (P a)) = true) : ∃ a, x = .ok a ∧ P a := by
  obtain ⟨a, ha, hP⟩ := (Option.any_eq_true _ _).mp h
  cases x with
  | error f => cases ha
  | ok b =>
    obtain rfl : b = a := Option.some.inj ha
    exact ⟨b, rfl, of_decide_eq_true hP⟩

/-- `a / b`, as C has it. -/
def div (a b : UInt32) : Except Fault UInt32 := if b = 0 then .error .divByZero else .ok (a / b)

theorem div_eq_ok {a b : UInt32} (h : b ≠ 0) : div a b = .ok (a / b) := if_neg h

/-- `UINT32_MAX`. -/
def uint32Max : UInt32 := 0xFFFFFFFF

/-- `interval_t`: the packet numbers `start` to `stop`, both included. The source's
name for `stop` is `end`. -/
structure Interval where
  /-- The first packet. -/
  start : UInt32
  /-- The last packet; `UINT32_MAX` stands for the rest of the payload. -/
  stop : UInt32
  deriving DecidableEq, Repr

/-- `dtp_meta_req_t`, the transfer request. -/
structure MetaReq where
  /-- The highest throughput the server may use, in bytes a second. -/
  throughput : UInt32
  /-- How many of the intervals are in use. -/
  nofIntervals : UInt8
  /-- The payload asked for. -/
  payloadId : UInt8
  /-- The session the transfer belongs to. -/
  sessionId : UInt32
  /-- The size of a data packet, header included. -/
  mtu : UInt16
  /-- How often the client says it is alive, in milliseconds. -/
  keepAliveInterval : UInt16
  /-- The intervals to send. -/
  intervals : Vector Interval 8
  deriving DecidableEq

namespace MetaReq

/-- `request->mtu - (2 * sizeof(uint32_t))`: the payload bytes of a full packet. -/
def chunk (r : MetaReq) : UInt64 := r.mtu.toUInt64 - 8

/-- `request->intervals[i]`. -/
def intervalAt (r : MetaReq) (i : ℤ) : Except Fault Interval :=
  if h : 0 ≤ i ∧ i < 8 then .ok (r.intervals.get ⟨i.toNat, by omega⟩) else .error .outOfRange

/-- `for (i = 0; i < n; i++)` over the intervals of a request. -/
def forIntervals {β : Type} (r : MetaReq) (n : ℕ) (f : β → Interval → Except Fault β) (init : β) :
    Except Fault β :=
  (List.range n).foldlM (fun acc (i : ℕ) => do f acc (← r.intervalAt i)) init

/-- The intervals a request uses. -/
def requested (r : MetaReq) : List Interval := r.intervals.toList.take r.nofIntervals.toNat

/-- A request the code handles without a fault: a data packet has room for data,
the throughput is positive and between one and eight intervals are in use. -/
structure Usable (r : MetaReq) : Prop where
  /-- A packet carries data. -/
  mtu : 8 < r.mtu.toNat
  /-- Something may be sent. -/
  throughput : 0 < r.throughput.toNat
  /-- There is an interval. -/
  pos : 1 ≤ r.nofIntervals.toNat
  /-- The intervals fit in the request. -/
  le : r.nofIntervals.toNat ≤ 8

theorem intervalAt_eq_ok (r : MetaReq) {i : ℕ} (h : i < 8) :
    r.intervalAt i = .ok r.intervals[i] := by
  have hi : (0 : ℤ) ≤ i ∧ (i : ℤ) < 8 := by omega
  rw [intervalAt, dif_pos hi]
  rfl

theorem intervalAt_eq_error (r : MetaReq) {i : ℤ} (h : ¬ (0 ≤ i ∧ i < 8)) :
    r.intervalAt i = .error .outOfRange := dif_neg h

/-- A loop over at most eight intervals is a loop over the list of them. -/
theorem forIntervals_eq_foldlM {β : Type} (r : MetaReq) {n : ℕ} (h : n ≤ 8)
    (f : β → Interval → Except Fault β) (init : β) :
    r.forIntervals n f init = (r.intervals.toList.take n).foldlM f init := by
  unfold forIntervals
  induction n with
  | zero => simp
  | succ n ih =>
    have hn : n < r.intervals.toList.length := by rw [Vector.length_toList]; exact h
    rw [List.range_succ, List.foldlM_append, ih (by omega), List.take_succ_eq_append_getElem hn,
      List.foldlM_append]
    refine bind_congr fun acc => ?_
    simp only [List.foldlM_cons, List.foldlM_nil,
      intervalAt_eq_ok r (show n < 8 by omega), bind_pure,
      Vector.getElem_toList]
    rfl

/-- A loop that runs past the eighth interval ends in a fault. -/
theorem forIntervals_eq_error {β : Type} (r : MetaReq) {n : ℕ} (h : 8 < n)
    (f : β → Interval → Except Fault β) (init : β) : ∃ e, r.forIntervals n f init = .error e := by
  obtain ⟨k, rfl⟩ : ∃ k, n = 9 + k := ⟨n - 9, by omega⟩
  have h9 : ∃ e, (List.range 9).foldlM (fun acc (i : ℕ) => do f acc (← r.intervalAt i)) init =
      .error e := by
    rw [List.range_succ, List.foldlM_append]
    cases (List.range 8).foldlM (fun acc (i : ℕ) => do f acc (← r.intervalAt i)) init with
    | error e => exact ⟨e, rfl⟩
    | ok acc => exact ⟨.outOfRange, by simp [intervalAt, bind, Except.bind]⟩
  obtain ⟨e, he⟩ := h9
  refine ⟨e, ?_⟩
  unfold forIntervals
  rw [List.range_add, List.foldlM_append, he]
  rfl

theorem length_requested (r : MetaReq) (h : r.nofIntervals.toNat ≤ 8) :
    r.requested.length = r.nofIntervals.toNat := by
  simp [requested, h]

/-- A full packet's payload, as a number. -/
theorem toNat_chunk {r : MetaReq} (h : 8 < r.mtu.toNat) : r.chunk.toNat = r.mtu.toNat - 8 := by
  have : (8 : UInt64) ≤ r.mtu.toUInt64 := by
    rw [UInt64.le_iff_toNat_le, UInt16.toNat_toUInt64]
    exact h.le
  rw [chunk, UInt64.toNat_sub_of_le _ _ this, UInt16.toNat_toUInt64]
  rfl

/-- A full packet has no payload if there is only room for the header. -/
theorem chunk_eq_zero_iff {r : MetaReq} : r.chunk = 0 ↔ r.mtu = 8 := by
  have hlt := r.mtu.toNat_lt
  rw [← UInt64.toNat_inj, ← UInt16.toNat_inj, chunk, UInt64.toNat_sub, UInt16.toNat_toUInt64,
    UInt64.toNat_zero, show (8 : UInt64).toNat = 8 from rfl, show (8 : UInt16).toNat = 8 from rfl]
  omega

theorem chunk_ne_zero {r : MetaReq} (h : r.mtu ≠ 8) : r.chunk ≠ 0 := chunk_eq_zero_iff.not.mpr h

theorem mtu_ne_of_lt {r : MetaReq} (h : 8 < r.mtu.toNat) : r.mtu ≠ 8 := by
  rintro heq
  rw [heq] at h
  exact absurd h (by decide)

end MetaReq

/-- `dtp_meta_resp_t`. -/
structure MetaResp where
  /-- How much will be sent. -/
  sizeInBytes : UInt32
  /-- How much there is. -/
  totalPayloadSize : UInt32
  deriving DecidableEq, Repr

/-- A data packet: the two header words `data32[0]` and `data32[1]`, the length CSP
reports for it, and the bytes from `data32[2]` on. -/
structure Packet where
  /-- `data32[0]`: where in the payload the data starts. -/
  offset : UInt32
  /-- `data32[1]`. -/
  sessionId : UInt32
  /-- `packet->length`, header included. -/
  length : UInt16
  /-- The data. -/
  data : List UInt8
  deriving DecidableEq, Repr

end LibDtp
