import LibDtp.Protocol.Basic
import Mathlib.Tactic.IntervalCases
import Mathlib.Tactic.Linarith
import Mathlib.Tactic.NormNum

/-!
# The transfer metrics

`compute_dtp_metrics`, which both ends call on the same request: the server to
pace the packets, the client to know how many to expect, which one is the last
and how long the transfer may take.

## The model

The pacing starts from whole packets a second, or whole seconds a packet, and
then looks for a shorter round by dividing the round time and the packets of a
round by ten as long as the resulting throughput stays within 5 % of the one asked
for. The source decides "within 5 %" in single precision. That test is a parameter
here, an `ErrorTest`: all that is used of it is that a resulting throughput of zero,
an error of 100 %, fails it. `ErrorTest.exact` is the comparison it approximates.

`resulting_throughput` is only printed and is left out; its divisor
`round_time_ms` is checked.

## What is proved

* `pacing_of_ne` — for a positive chunk size and throughput the search ends without a
  fault, with at least one packet a round and a round of at least 10 ms.
* `computeDtpMetrics_spec` — so a usable request has metrics, with the packet
  count and the last packet given by its intervals.
* `computeDtpMetrics_ok_iff` — and only a request with a chunk size and a
  throughput other than zero and between one and eight intervals has.
-/

namespace LibDtp

/-- The test `error < 5.0` on the throughput asked for and the one a round would give. -/
structure ErrorTest where
  /-- Is the error below 5 %? -/
  below : UInt32 → UInt32 → Bool
  /-- A throughput of zero is 100 % off. -/
  below_zero : ∀ throughput, below throughput 0 = false

/-- `|throughput - resulting| / throughput * 100 < 5`, exactly. -/
def ErrorTest.exact : ErrorTest where
  below throughput resulting :=
    decide (((throughput.toNat : ℤ) - resulting.toNat).natAbs * 100 < 5 * throughput.toNat)
  below_zero throughput := by
    simp only [UInt32.toNat_zero, Nat.cast_zero, sub_zero, Int.natAbs_natCast,
      decide_eq_false_iff_not]
    omega

/-- `dtp_metrics_t`. -/
structure Metrics where
  /-- The time of a round, in milliseconds. -/
  roundTimeMs : UInt32
  /-- How many packets are sent in a round. -/
  packetsPerRound : UInt32
  /-- How many packets the transfer has. -/
  nofPackets : UInt32
  /-- The highest packet number of the transfer. -/
  lastPacket : UInt32
  /-- How long the transfer is expected to take, in milliseconds. -/
  totalDurationMs : UInt32
  deriving DecidableEq, Repr

/-- The search for a shorter round, `do { factor *= 10; … } while (error < 5.0)`, with a
bound on its turns. -/
def pacingLoop (E : ErrorTest) (throughput mtu packetsPerRound roundTimeMs : UInt32) :
    ℕ → UInt32 → Except Fault UInt32
  | 0, _ => .error .outOfFuel
  | fuel + 1, factor => do
    let factor := factor * 10
    let period ← div roundTimeMs factor
    let perRound ← div packetsPerRound factor
    let bytesPerMs ← div (perRound * mtu) period
    let resulting := (bytesPerMs.toUInt64 * 1000).toUInt32
    -- the round would be shorter than 10 ms
    if period < 10 then pure factor
    else if E.below throughput resulting then
      pacingLoop E throughput mtu packetsPerRound roundTimeMs fuel factor
    else pure factor

/-- The first part of `compute_dtp_metrics`: the round time and the packets of a round. -/
def pacing (E : ErrorTest) (throughput mtu : UInt32) : Except Fault (UInt32 × UInt32) := do
  let packetsSec ← div throughput mtu
  let secsPacket ← div mtu throughput
  let start := if secsPacket > packetsSec then (secsPacket * 1000, 1) else (1000, packetsSec)
  let factor ← pacingLoop E throughput mtu start.2 start.1 10 1
  -- roll back one factor of ten
  let factor := factor / 10
  let roundTimeMs ← div start.1 factor
  let packetsPerRound ← div start.2 factor
  if roundTimeMs = 0 then throw .divByZero
  pure (roundTimeMs, packetsPerRound)

/-- The end of an interval, with the open end replaced by `payload_size / mtu`. -/
def closedEnd (payloadSize mtu stop : UInt32) : Except Fault UInt32 :=
  if stop = uint32Max then div payloadSize mtu else .ok stop

/-- `compute_dtp_metrics`. -/
def computeDtpMetrics (E : ErrorTest) (request : MetaReq) (payloadSize : UInt32) :
    Except Fault Metrics := do
  let mtu := request.chunk.toUInt32
  let pace ← pacing E request.throughput mtu
  let nofPackets ← request.forIntervals request.nofIntervals.toNat (fun n cur => do
    let stop ← closedEnd payloadSize mtu cur.stop
    pure (n + ((stop - cur.start) + 1))) 0
  let duration ← div (nofPackets * pace.1) pace.2
  let last ← request.intervalAt (request.nofIntervals.toNat - 1)
  let lastPacket ← closedEnd payloadSize mtu last.stop
  pure { roundTimeMs := pace.1, packetsPerRound := pace.2, nofPackets := nofPackets,
         lastPacket := lastPacket, totalDurationMs := if duration < 1000 then 1000 else duration }

/-! ### The pacing -/

theorem ne_zero_of_pos {a : UInt32} (h : 0 < a.toNat) : a ≠ 0 := by
  rintro rfl
  exact absurd h (by decide)

/-- Powers of ten up to `10^9` fit in 32 bits. -/
theorem toNat_ofNat_ten_pow {k : ℕ} (h : k ≤ 9) : (UInt32.ofNat (10 ^ k)).toNat = 10 ^ k := by
  rw [UInt32.toNat_ofNat', Nat.mod_eq_of_lt]
  calc 10 ^ k ≤ 10 ^ 9 := Nat.pow_le_pow_right (by omega) h
    _ < 2 ^ 32 := by norm_num

theorem ofNat_ten_pow_succ (k : ℕ) : UInt32.ofNat (10 ^ k) * 10 = UInt32.ofNat (10 ^ (k + 1)) := by
  rw [pow_succ, UInt32.ofNat_mul]
  rfl

/-- The search, entered with a factor `10^j` for which the round is at least 10 ms and has a packet,
ends with a factor `10^(k+1)` such that the same holds of `10^k`. Ten turns would need a round of
more than `2 ^ 32` ms. A round with no packet has throughput zero, which the test rejects. -/
theorem pacingLoop_spec (E : ErrorTest) (throughput mtu packetsPerRound roundTimeMs : UInt32)
    (fuel j : ℕ) (hfuel : 10 ≤ fuel + j) (hround : 10 ^ (j + 1) ≤ roundTimeMs.toNat)
    (hper : 10 ^ j ≤ packetsPerRound.toNat) :
    ∃ k, pacingLoop E throughput mtu packetsPerRound roundTimeMs fuel (UInt32.ofNat (10 ^ j)) =
        .ok (UInt32.ofNat (10 ^ (k + 1))) ∧
      k ≤ 8 ∧ 10 ^ (k + 1) ≤ roundTimeMs.toNat ∧ 10 ^ k ≤ packetsPerRound.toNat := by
  induction fuel generalizing j with
  | zero =>
    have h1 : 10 ^ 11 ≤ 10 ^ (j + 1) := Nat.pow_le_pow_right (by omega) (by omega)
    have h2 := roundTimeMs.toNat_lt
    norm_num at h1 h2
    omega
  | succ fuel ih =>
    have hj : j ≤ 8 := by
      by_contra hj
      have h1 : 10 ^ 10 ≤ 10 ^ (j + 1) := Nat.pow_le_pow_right (by omega) (by omega)
      have h2 := roundTimeMs.toNat_lt
      norm_num at h1 h2
      omega
    have hfac : (UInt32.ofNat (10 ^ (j + 1))).toNat = 10 ^ (j + 1) := toNat_ofNat_ten_pow (by omega)
    have hfac0 : UInt32.ofNat (10 ^ (j + 1)) ≠ 0 := ne_zero_of_pos (by rw [hfac]; positivity)
    have hperiod : (roundTimeMs / UInt32.ofNat (10 ^ (j + 1))).toNat =
        roundTimeMs.toNat / 10 ^ (j + 1) := by
      rw [UInt32.toNat_div, hfac]
    have hperiod0 : roundTimeMs / UInt32.ofNat (10 ^ (j + 1)) ≠ 0 := by
      apply ne_zero_of_pos
      rw [hperiod]
      exact Nat.div_pos hround (by positivity)
    rw [pacingLoop, ofNat_ten_pow_succ, div_eq_ok hfac0, div_eq_ok hfac0]
    simp only [bind, Except.bind, div_eq_ok hperiod0]
    split_ifs with hshort hbelow
    · exact ⟨j, rfl, hj, hround, hper⟩
    · refine ih (j + 1) (by omega) ?_ ?_
      · rw [UInt32.lt_iff_toNat_lt, hperiod, not_lt] at hshort
        rw [pow_succ]
        calc 10 ^ (j + 1) * 10 ≤ 10 ^ (j + 1) * (roundTimeMs.toNat / 10 ^ (j + 1)) :=
              Nat.mul_le_mul_left _ hshort
          _ ≤ roundTimeMs.toNat := Nat.mul_div_le _ _
      · by_contra hlt
        have hzero : packetsPerRound / UInt32.ofNat (10 ^ (j + 1)) = 0 := by
          rw [← UInt32.toNat_inj, UInt32.toNat_div, hfac, Nat.div_eq_of_lt (not_le.mp hlt)]
          rfl
        rw [hzero, UInt32.zero_mul, UInt32.zero_div] at hbelow
        exact absurd hbelow (by simp [E.below_zero])
    · exact ⟨j, rfl, hj, hround, hper⟩

/-- Rolling back one factor of ten from a search that starts with a round of at least
10 ms that has a packet. -/
theorem rollback_spec (E : ErrorTest) (throughput mtu packetsPerRound roundTimeMs : UInt32)
    (hround : 10 ≤ roundTimeMs.toNat) (hper : 1 ≤ packetsPerRound.toNat) :
    ∃ factor, pacingLoop E throughput mtu packetsPerRound roundTimeMs 10 1 = .ok factor ∧
      factor / 10 ≠ 0 ∧ 10 ≤ (roundTimeMs / (factor / 10)).toNat ∧
      1 ≤ (packetsPerRound / (factor / 10)).toNat := by
  obtain ⟨k, hk, hk8, hr, hp⟩ := pacingLoop_spec E throughput mtu packetsPerRound roundTimeMs 10 0
    le_rfl (by simpa using hround) (by simpa using hper)
  have hback : (UInt32.ofNat (10 ^ (k + 1)) / 10).toNat = 10 ^ k := by
    rw [UInt32.toNat_div, toNat_ofNat_ten_pow (by omega), pow_succ]
    exact Nat.mul_div_cancel _ (by norm_num)
  refine ⟨_, hk, ne_zero_of_pos (by rw [hback]; positivity), ?_, ?_⟩
  · rw [UInt32.toNat_div, hback, Nat.le_div_iff_mul_le (by positivity), mul_comm, ← pow_succ]
    exact hr
  · rw [UInt32.toNat_div, hback, Nat.le_div_iff_mul_le (by positivity), one_mul]
    exact hp

/-- The pacing of a positive chunk size and throughput, provided that a round of whole seconds, if
that is what it starts from, does not wrap to less than 10 ms. Fewer than one packet a second would
mean more than zero seconds a packet. -/
theorem pacing_of_round (E : ErrorTest) {throughput mtu : UInt32} (ht : throughput ≠ 0)
    (hm : mtu ≠ 0)
    (hround : throughput / mtu < mtu / throughput → 10 ≤ (mtu / throughput * 1000).toNat) :
    ∃ pace, pacing E throughput mtu = .ok pace ∧ 10 ≤ pace.1.toNat ∧ 1 ≤ pace.2.toNat := by
  have hstart : ∀ start : UInt32 × UInt32, 10 ≤ start.1.toNat → 1 ≤ start.2.toNat →
      ∃ pace, (do
        let factor ← pacingLoop E throughput mtu start.2 start.1 10 1
        let roundTimeMs ← div start.1 (factor / 10)
        let packetsPerRound ← div start.2 (factor / 10)
        if roundTimeMs = 0 then throw .divByZero
        pure (roundTimeMs, packetsPerRound) : Except Fault (UInt32 × UInt32)) = .ok pace ∧
        10 ≤ pace.1.toNat ∧ 1 ≤ pace.2.toNat := by
    intro start h1 h2
    obtain ⟨factor, hf, hf0, hr, hp⟩ := rollback_spec E throughput mtu start.2 start.1 h1 h2
    refine ⟨(start.1 / (factor / 10), start.2 / (factor / 10)), ?_, hr, hp⟩
    have hr0 : start.1 / (factor / 10) ≠ 0 := ne_zero_of_pos (by omega)
    simp only [hf, bind, Except.bind, div_eq_ok hf0, if_neg hr0]
    rfl
  rw [pacing, div_eq_ok hm, div_eq_ok ht]
  simp only [bind, Except.bind]
  split_ifs with h
  · exact hstart _ (hround h) le_rfl
  · refine hstart _ (show 10 ≤ (1000 : UInt32).toNat by decide) ?_
    rw [gt_iff_lt, UInt32.lt_iff_toNat_lt, UInt32.toNat_div, UInt32.toNat_div, not_lt] at h
    have ht' : 0 < throughput.toNat := Nat.pos_of_ne_zero fun h0 => ht (by rwa [← UInt32.toNat_inj])
    have hm' : 0 < mtu.toNat := Nat.pos_of_ne_zero fun h0 => hm (by rwa [← UInt32.toNat_inj])
    rw [UInt32.toNat_div]
    rcases Nat.lt_or_ge throughput.toNat mtu.toNat with hlt | hge
    · have := Nat.div_pos hlt.le ht'
      omega
    · exact Nat.div_pos hge hm'

theorem toNat_chunk_toUInt32 (r : MetaReq) :
    r.chunk.toUInt32.toNat = (r.mtu.toNat + 4294967288) % 4294967296 := by
  have hm := r.mtu.toNat_lt
  rw [MetaReq.chunk, UInt64.toNat_toUInt32, UInt64.toNat_sub, UInt16.toNat_toUInt64,
    show (8 : UInt64).toNat = 8 from rfl]
  omega

/-- A round of whole seconds does not wrap when a packet has at most `2^16` bytes. -/
theorem secs_mul_of_small {throughput mtu : UInt32} (hm : mtu.toNat < 65536)
    (h : throughput / mtu < mtu / throughput) : 10 ≤ (mtu / throughput * 1000).toNat := by
  rw [UInt32.lt_iff_toNat_lt] at h
  rw [UInt32.toNat_mul]
  have hle : (mtu / throughput).toNat ≤ mtu.toNat := by
    rw [UInt32.toNat_div]
    exact Nat.div_le_self _ _
  rw [show (1000 : UInt32).toNat = 1000 from rfl, Nat.mod_eq_of_lt (by omega)]
  omega

/-- Nor does it wrap to less than 10 ms when the chunk size itself has wrapped below zero,
`mtu < 2 * sizeof(uint32_t)`: the residues below 10 of a multiple of 1000 belong to rounds
that no throughput gives. They are checked for 37 throughputs and 8 chunk sizes. -/
theorem secs_mul_of_wrapped {throughput mtu : UInt32} (hm : 4294967288 ≤ mtu.toNat)
    (h : throughput / mtu < mtu / throughput) : 10 ≤ (mtu / throughput * 1000).toNat := by
  have hlt := mtu.toNat_lt
  have htl := throughput.toNat_lt
  rw [UInt32.lt_iff_toNat_lt, UInt32.toNat_div, UInt32.toNat_div] at h
  rw [UInt32.toNat_mul, UInt32.toNat_div, show (1000 : UInt32).toNat = 1000 from rfl]
  have hpos : 0 < mtu.toNat / throughput.toNat := Nat.zero_lt_of_lt h
  have ht : 0 < throughput.toNat := Nat.pos_of_ne_zero fun h0 => by simp [h0] at hpos
  clear h
  generalize throughput.toNat = t at *
  generalize mtu.toNat = m at *
  rcases Nat.lt_or_ge t 38 with hs | hs
  · have hall : ∀ t < 38, 0 < t → ∀ k < 8, 10 ≤ (4294967288 + k) / t * 1000 % 2 ^ 32 := by
      decide +kernel
    obtain ⟨k, rfl⟩ := Nat.exists_eq_add_of_le hm
    exact hall t hs ht k (by omega)
  · have hq : m / t < 115964117 := by
      rw [Nat.div_lt_iff_lt_mul ht]
      nlinarith
    generalize m / t = q at *
    by_contra hc
    obtain ⟨k, hk⟩ : ∃ k, q * 1000 = 4294967296 * k + q * 1000 % 2 ^ 32 :=
      ⟨q * 1000 / 2 ^ 32, by omega⟩
    generalize hr : q * 1000 % 2 ^ 32 = r at *
    interval_cases r <;> omega

/-- The pacing of a request that is not rejected outright. -/
theorem pacing_of_ne (E : ErrorTest) {r : MetaReq} (ht : r.throughput ≠ 0) (hm : r.mtu ≠ 8) :
    ∃ pace, pacing E r.throughput r.chunk.toUInt32 = .ok pace ∧ 10 ≤ pace.1.toNat ∧
      1 ≤ pace.2.toNat := by
  have hlt := r.mtu.toNat_lt
  have hne : r.mtu.toNat ≠ 8 := fun h => hm (by rw [← UInt16.toNat_inj]; exact h)
  have hc := toNat_chunk_toUInt32 r
  refine pacing_of_round E ht (ne_zero_of_pos (by omega)) fun h => ?_
  rcases Nat.lt_or_gt_of_ne hne with h8 | h8
  · exact secs_mul_of_wrapped (by omega) h
  · exact secs_mul_of_small (by omega) h

/-! ### The metrics -/

/-- The end of an interval when the chunk size is positive. -/
def endOr (payloadSize mtu stop : UInt32) : UInt32 :=
  if stop = uint32Max then payloadSize / mtu else stop

theorem closedEnd_eq_ok {payloadSize mtu stop : UInt32} (h : mtu ≠ 0) :
    closedEnd payloadSize mtu stop = .ok (endOr payloadSize mtu stop) := by
  unfold closedEnd endOr
  split_ifs
  · exact div_eq_ok h
  · rfl

/-- The number of packets the intervals hold, as `compute_dtp_metrics` adds it up. -/
def packetCount (payloadSize mtu : UInt32) (is : List Interval) : UInt32 :=
  is.foldl (fun n cur => n + ((endOr payloadSize mtu cur.stop - cur.start) + 1)) 0

theorem foldlM_ok {α β : Type} (f : β → α → β) (l : List α) (init : β) :
    l.foldlM (fun b a => (.ok (f b a) : Except Fault β)) init = .ok (l.foldl f init) := by
  induction l generalizing init with
  | nil => rfl
  | cons a l ih => exact ih (f init a)

/-- What the metrics of a request are, given its pacing. -/
theorem computeDtpMetrics_of_ne (E : ErrorTest) {r : MetaReq} (payloadSize : UInt32)
    (ht : r.throughput ≠ 0) (hm : r.mtu ≠ 8) (h1 : 1 ≤ r.nofIntervals.toNat)
    (h8 : r.nofIntervals.toNat ≤ 8) :
    ∃ m, computeDtpMetrics E r payloadSize = .ok m ∧ 10 ≤ m.roundTimeMs.toNat ∧
      1 ≤ m.packetsPerRound.toNat ∧
      m.nofPackets = packetCount payloadSize r.chunk.toUInt32 r.requested ∧
      r.requested.getLast?.map (fun i => endOr payloadSize r.chunk.toUInt32 i.stop) =
        some m.lastPacket := by
  obtain ⟨pace, hp, hround, hper⟩ := pacing_of_ne E ht hm
  have hlt := r.mtu.toNat_lt
  have hne : r.mtu.toNat ≠ 8 := fun h => hm (by rw [← UInt16.toNat_inj]; exact h)
  have hc : r.chunk.toUInt32 ≠ 0 := ne_zero_of_pos (by rw [toNat_chunk_toUInt32]; omega)
  have hcount : r.forIntervals r.nofIntervals.toNat (fun n cur => do
      let stop ← closedEnd payloadSize r.chunk.toUInt32 cur.stop
      pure (n + ((stop - cur.start) + 1))) 0 =
      .ok (packetCount payloadSize r.chunk.toUInt32 r.requested) := by
    rw [r.forIntervals_eq_foldlM h8]
    simp only [closedEnd_eq_ok hc]
    exact foldlM_ok _ _ _
  have hlast : r.intervalAt (r.nofIntervals.toNat - 1) =
      .ok (r.intervals.get ⟨r.nofIntervals.toNat - 1, by omega⟩) := by
    rw [show ((r.nofIntervals.toNat : ℤ) - 1) = ((r.nofIntervals.toNat - 1 : ℕ) : ℤ) by omega]
    exact r.intervalAt_eq_ok (by omega)
  unfold computeDtpMetrics
  dsimp only
  rw [hp, hcount, hlast]
  simp only [bind, Except.bind, div_eq_ok (ne_zero_of_pos hper), closedEnd_eq_ok hc]
  refine ⟨_, rfl, hround, hper, rfl, ?_⟩
  have hlen : r.requested.length = r.nofIntervals.toNat := r.length_requested h8
  rw [List.getLast?_eq_getElem?, hlen, MetaReq.requested, List.getElem?_take_of_lt (by omega),
    List.getElem?_eq_getElem (by rw [Vector.length_toList]; omega), Option.map_some,
      Vector.getElem_toList]
  rfl

/-- A usable request has metrics. -/
theorem computeDtpMetrics_spec (E : ErrorTest) {r : MetaReq} (payloadSize : UInt32)
    (hr : r.Usable) :
    ∃ m, computeDtpMetrics E r payloadSize = .ok m ∧ 10 ≤ m.roundTimeMs.toNat ∧
      1 ≤ m.packetsPerRound.toNat ∧
      m.nofPackets = packetCount payloadSize r.chunk.toUInt32 r.requested ∧
      r.requested.getLast?.map (fun i => endOr payloadSize r.chunk.toUInt32 i.stop) =
        some m.lastPacket := by
  refine computeDtpMetrics_of_ne E payloadSize (ne_zero_of_pos hr.throughput)
    (fun h => ?_) hr.pos hr.le
  have := hr.mtu
  rw [h] at this
  exact absurd this (by decide)

/-- The requests `compute_dtp_metrics` handles without a fault, exactly. Each violated condition
stops the computation at its own division or access. -/
theorem computeDtpMetrics_ok_iff (E : ErrorTest) (r : MetaReq) (payloadSize : UInt32) :
    (∃ m, computeDtpMetrics E r payloadSize = .ok m) ↔
      r.throughput ≠ 0 ∧ r.mtu ≠ 8 ∧ 1 ≤ r.nofIntervals.toNat ∧ r.nofIntervals.toNat ≤ 8 := by
  constructor
  · rintro ⟨m, h⟩
    unfold computeDtpMetrics at h
    dsimp only at h
    have hc : r.chunk.toUInt32 ≠ 0 := by
      intro h0
      rw [h0] at h
      simp [pacing, div, bind, Except.bind] at h
    have ht : r.throughput ≠ 0 := by
      intro h0
      rw [h0] at h
      simp [pacing, div, bind, Except.bind, hc] at h
    have hm : r.mtu ≠ 8 := by
      intro h8
      apply hc
      rw [← UInt32.toNat_inj, toNat_chunk_toUInt32, h8]
      rfl
    refine ⟨ht, hm, ?_, ?_⟩
    · by_contra h0
      obtain ⟨pace, hp, -, hper⟩ := pacing_of_ne E ht hm
      have h0' : r.nofIntervals.toNat = 0 := by omega
      rw [hp, h0'] at h
      simp only [MetaReq.forIntervals, List.range_zero, List.foldlM_nil, bind, Except.bind, pure,
        Except.pure,
        div_eq_ok (ne_zero_of_pos hper),
          r.intervalAt_eq_error (show ¬ (0 ≤ ((0 : ℕ) : ℤ) - 1 ∧ _) by omega)] at h
      cases h
    · by_contra h8
      obtain ⟨pace, hp, -, -⟩ := pacing_of_ne E ht hm
      rw [hp] at h
      obtain ⟨e, he⟩ := r.forIntervals_eq_error (not_le.mp h8) (fun n cur => do
        let stop ← closedEnd payloadSize r.chunk.toUInt32 cur.stop
        pure (n + ((stop - cur.start) + 1))) 0
      rw [he] at h
      cases h
  · rintro ⟨ht, hm, h1, h8⟩
    obtain ⟨m, h, -⟩ := computeDtpMetrics_of_ne E payloadSize ht hm h1 h8
    exact ⟨m, h⟩

end LibDtp
