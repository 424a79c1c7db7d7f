import LibDtp.Protocol.Metrics

/-!
# What the pacing is worth

How the throughput that `compute_dtp_metrics` arrives at relates to the one that was asked for, and
how long it expects the transfer to take.

## The model

The search for a shorter round has three turns at most. `pacing_eq` says what comes out of it
without the search: a round of whole seconds with one packet for a throughput of less than a packet
a second, and otherwise a round of 1000, 100 or 10 ms, `roundScale` saying which.

## What is proved

* `throughput_bound_iff` — the throughput that was asked for is kept exactly if it is at least a
  packet a second, or divides the packet: the seconds of a packet are rounded down.
* `pacing_adequate` — the search ends, no turn of it divides by zero or wraps, and more than half of
  the throughput is used.
* `duration_exact_iff` — when the expected duration is what its terms are worth: their product is
  taken in 32 bits.
-/

namespace LibDtp

/-- `__throughput`, in the turn of the search that tries `factor`. -/
def turnThroughput (mtu packetsPerRound roundTimeMs factor : UInt32) : UInt32 :=
  (((packetsPerRound / factor * mtu) / (roundTimeMs / factor)).toUInt64 * 1000).toUInt32

/-- Does the search go on after it has tried `factor`? -/
def turnGoesOn (E : ErrorTest) (throughput mtu packetsPerRound roundTimeMs factor : UInt32) :
    Bool :=
  decide (10 ≤ roundTimeMs / factor) && E.below throughput
    (turnThroughput mtu packetsPerRound roundTimeMs factor)

/-- One turn. -/
theorem pacingLoop_succ (E : ErrorTest) {throughput mtu packetsPerRound roundTimeMs factor : UInt32}
    (fuel : ℕ) (hfactor : factor * 10 ≠ 0) (hperiod : roundTimeMs / (factor * 10) ≠ 0) :
    pacingLoop E throughput mtu packetsPerRound roundTimeMs (fuel + 1) factor =
      if turnGoesOn E throughput mtu packetsPerRound roundTimeMs (factor * 10) then
        pacingLoop E throughput mtu packetsPerRound roundTimeMs fuel (factor * 10)
      else .ok (factor * 10) := by
  rw [pacingLoop, div_eq_ok hfactor, div_eq_ok hfactor]
  simp only [bind, Except.bind, div_eq_ok hperiod]
  change (if _ < 10 then _ else if E.below throughput
    (turnThroughput _ _ _ _) = true then _ else _) = _
  by_cases hshort : roundTimeMs / (factor * 10) < 10
  · have hstop : turnGoesOn E throughput mtu packetsPerRound roundTimeMs (factor * 10) = false := by
      simp [turnGoesOn, UInt32.not_le.mpr hshort]
    rw [if_pos hshort, hstop]
    rfl
  · have hgo : turnGoesOn E throughput mtu packetsPerRound roundTimeMs (factor * 10) =
        E.below throughput (turnThroughput mtu packetsPerRound roundTimeMs (factor * 10)) := by
      simp [turnGoesOn, UInt32.not_lt.mp hshort]
    rw [if_neg hshort, hgo]
    rfl

/-- By how much a round of a second is cut, in the end. -/
def roundScale (E : ErrorTest) (throughput mtu : UInt32) : UInt32 :=
  if E.below throughput (turnThroughput mtu (throughput / mtu) 1000 10) then
    if E.below throughput (turnThroughput mtu (throughput / mtu) 1000 100) then 100 else 10
  else 1

theorem roundScale_cases (E : ErrorTest) (throughput mtu : UInt32) :
    roundScale E throughput mtu = 1 ∨ roundScale E throughput mtu = 10 ∨
      roundScale E throughput mtu = 100 := by
  simp only [roundScale]
  split_ifs <;> simp

/-- The search from a round of a second. A round of a millisecond is too short. -/
theorem pacingLoop_second (E : ErrorTest) (throughput mtu : UInt32) :
    pacingLoop E throughput mtu (throughput / mtu) 1000 10 1 =
      .ok (roundScale E throughput mtu * 10) := by
  have hgo : ∀ factor : UInt32, 10 ≤ 1000 / factor →
    turnGoesOn E throughput mtu (throughput / mtu) 1000 factor =
      E.below throughput (turnThroughput mtu (throughput / mtu) 1000 factor) := by
    intro factor h
    simp [turnGoesOn, h]
  rw [pacingLoop_succ E 9
    (by decide) (by decide), show (1 : UInt32) * 10 = 10 from rfl, hgo 10 (by decide), roundScale]
  split_ifs with h10 h100
  · rw [pacingLoop_succ E 8 (by decide) (by decide), show (10 : UInt32) * 10 = 100 from rfl,
      hgo 100 (by decide), if_pos h100,
      pacingLoop_succ E 7 (by decide) (by decide)]
    have hstop : turnGoesOn E throughput mtu (throughput / mtu) 1000 (100 * 10) = false := by
      simp only [turnGoesOn,
        show ¬ ((10 : UInt32) ≤ 1000 / (100 * 10)) by decide, decide_false, Bool.false_and]
    rw [hstop]
    rfl
  · rw [pacingLoop_succ E 8 (by decide) (by decide), show (10 : UInt32) * 10 = 100 from rfl,
      hgo 100 (by decide), if_neg h100]
  · rfl

/-- The search from a round of whole seconds, which has one packet. -/
theorem pacingLoop_seconds (E : ErrorTest) (throughput mtu : UInt32) {roundTimeMs : UInt32}
    (hround : roundTimeMs / 10 ≠ 0) :
    pacingLoop E throughput mtu 1 roundTimeMs 10 1 = .ok 10 := by
  have hzero : turnThroughput mtu 1 roundTimeMs 10 = 0 := by
    rw [turnThroughput, show (1 : UInt32) / 10 = 0 from rfl, UInt32.zero_mul, UInt32.zero_div]
    rfl
  have hstop : turnGoesOn E throughput mtu 1 roundTimeMs (1 * 10) = false := by
    rw [turnGoesOn, show (1 : UInt32) * 10 = 10 from rfl, hzero, E.below_zero, Bool.and_false]
  rw [pacingLoop_succ E 9 (by decide) hround, hstop]
  rfl

/-- The round of a packet that takes some seconds does not wrap. -/
theorem toNat_seconds (throughput : UInt32) {mtu : UInt32} (hsmall : mtu.toNat < 65536) :
    (mtu / throughput * 1000).toNat = mtu.toNat / throughput.toNat * 1000 := by
  have hle : mtu.toNat / throughput.toNat ≤ mtu.toNat := Nat.div_le_self _ _
  rw [UInt32.toNat_mul, UInt32.toNat_div, show (1000 : UInt32).toNat = 1000 from rfl]
  omega

section

variable {throughput mtu : UInt32} (ht : 1 ≤ throughput.toNat) (hm : 1 ≤ mtu.toNat)
include ht

theorem seconds_div_ten_ne (hsmall : mtu.toNat < 65536) (hslow : throughput.toNat < mtu.toNat) :
    mtu / throughput * 1000 / 10 ≠ 0 := by
  have hsecs : 1 ≤ mtu.toNat / throughput.toNat := Nat.div_pos hslow.le ht
  apply ne_zero_of_pos
  rw [UInt32.toNat_div, toNat_seconds throughput hsmall, show (10 : UInt32).toNat = 10 from rfl]
  omega

include hm

/-- The two kinds of pacing: less than a packet a second, or at least one. -/
theorem secs_gt_iff : mtu / throughput > throughput / mtu ↔ throughput.toNat < mtu.toNat := by
  rw [gt_iff_lt, UInt32.lt_iff_toNat_lt, UInt32.toNat_div, UInt32.toNat_div]
  constructor
  · intro h
    by_contra hge
    have h1 := Nat.div_pos (not_lt.mp hge) hm
    have h2 : mtu.toNat / throughput.toNat ≤ 1 := by
      rw [← Nat.lt_succ_iff, Nat.div_lt_iff_lt_mul ht]
      omega
    omega
  · intro h
    rw [Nat.div_eq_of_lt h]
    exact Nat.div_pos h.le ht

/-- What the pacing is, for a packet of less than `2^16` bytes. -/
theorem pacing_eq (E : ErrorTest) (hsmall : mtu.toNat < 65536) :
    pacing E throughput mtu = .ok (if throughput.toNat < mtu.toNat then (mtu / throughput * 1000, 1)
      else (1000 / roundScale E throughput mtu,
        throughput / mtu / roundScale E throughput mtu)) := by
  have ht0 : throughput ≠ 0 := ne_zero_of_pos ht
  have hm0 : mtu ≠ 0 := ne_zero_of_pos hm
  rw [pacing, div_eq_ok hm0, div_eq_ok ht0]
  simp only [bind, Except.bind, secs_gt_iff ht hm]
  split_ifs with hslow
  · have hperiod := seconds_div_ten_ne ht hsmall hslow
    have hround0 : mtu / throughput * 1000 ≠ 0 := by
      intro h0
      rw [h0] at hperiod
      exact hperiod rfl
    rw [pacingLoop_seconds E throughput mtu hperiod]
    simp only [show (10 : UInt32) / 10 = 1 from rfl,
      div_eq_ok (show (1 : UInt32) ≠ 0 by decide), UInt32.div_one, if_neg hround0]
    rfl
  · rw [pacingLoop_second]
    obtain ⟨hback, hscale0, hround0⟩ : roundScale E throughput mtu * 10 / 10 =
      roundScale E throughput mtu ∧
        roundScale E throughput mtu ≠ 0 ∧ 1000 / roundScale E throughput mtu ≠ 0 := by
      rcases roundScale_cases E throughput mtu with hscale | hscale | hscale <;> rw [hscale] <;>
        decide
    simp only [hback, div_eq_ok hscale0, if_neg hround0]
    rfl

end

/-! ### The turns of the search -/

/-- What `compute_dtp_metrics` starts the search with: a round and its packets. -/
def pacingStart (throughput mtu : UInt32) : UInt32 × UInt32 :=
  if mtu / throughput > throughput / mtu then (mtu / throughput * 1000, 1)
    else (1000, throughput / mtu)

/-- The values `factor` has when a turn of the search begins. -/
inductive PacingTurn (E : ErrorTest) (throughput mtu packetsPerRound roundTimeMs : UInt32) :
    UInt32 → Prop where
  /-- The first turn. -/
  | first : PacingTurn E throughput mtu packetsPerRound roundTimeMs 1
  /-- The next one, if there is one. -/
  | next {factor : UInt32} (h : PacingTurn E throughput mtu packetsPerRound roundTimeMs factor)
      (hgo : turnGoesOn E throughput mtu packetsPerRound roundTimeMs (factor * 10) = true) :
      PacingTurn E throughput mtu packetsPerRound roundTimeMs (factor * 10)

/-- In a turn that begins with `factor`, no divisor is zero and no product wraps. -/
structure TurnFits (mtu packetsPerRound roundTimeMs factor : UInt32) : Prop where
  /-- `factor *= 10`. -/
  next : factor.toNat * 10 < 2 ^ 32
  /-- The divisor of the round and its packets. -/
  factor_ne : factor * 10 ≠ 0
  /-- The divisor of the bytes of a round. -/
  period_ne : roundTimeMs / (factor * 10) ≠ 0
  /-- The bytes of a round. -/
  bytes : (packetsPerRound / (factor * 10)).toNat * mtu.toNat < 2 ^ 32
  /-- The bytes of a second. -/
  resulting : (packetsPerRound / (factor * 10) * mtu / (roundTimeMs / (factor * 10))).toNat * 1000 <
    2 ^ 32

/-- Cutting a second and its packets into `f` parts does not give more than there was. -/
theorem scaled_le {t e f : ℕ} (hf : f * (1000 / f) = 1000) :
    t / e / f * e / (1000 / f) * 1000 ≤ t := by
  calc t / e / f * e / (1000 / f) * 1000 = t / e / f * e / (1000 / f) * (1000 / f) * f := by
        rw [Nat.mul_assoc, Nat.mul_comm (1000 / f) f, hf]
    _ ≤ t / e / f * e * f := Nat.mul_le_mul_right f (Nat.div_mul_le_self _ _)
    _ = t / e / f * f * e := by rw [Nat.mul_right_comm]
    _ ≤ t / e * e := Nat.mul_le_mul_right e (Nat.div_mul_le_self _ _)
    _ ≤ t := Nat.div_mul_le_self _ _

/-- The bytes of such a part. -/
theorem scaled_bytes_le (t e f : ℕ) : t / e / f * e ≤ t :=
  (Nat.mul_le_mul_right e (Nat.div_le_self _ _)).trans (Nat.div_mul_le_self _ _)

/-- The bytes of a second, in a round that is a part of a second. -/
theorem toNat_bytesPerMs (throughput mtu : UInt32) {factor : UInt32} :
    (throughput / mtu / factor * mtu / (1000 / factor)).toNat =
      throughput.toNat / mtu.toNat / factor.toNat * mtu.toNat / (1000 / factor.toNat) := by
  have hle := scaled_bytes_le throughput.toNat mtu.toNat factor.toNat
  have hlt := throughput.toNat_lt
  rw [UInt32.toNat_div, UInt32.toNat_mul, UInt32.toNat_div, UInt32.toNat_div, UInt32.toNat_div,
    show (1000 : UInt32).toNat = 1000 from rfl, Nat.mod_eq_of_lt (by omega)]

theorem toNat_turnThroughput (throughput mtu : UInt32) {factor : UInt32}
    (hf : factor.toNat * (1000 / factor.toNat) = 1000) :
    (turnThroughput mtu (throughput / mtu) 1000 factor).toNat =
      throughput.toNat / mtu.toNat / factor.toNat * mtu.toNat / (1000 / factor.toNat) * 1000 := by
  have hle := scaled_le (t := throughput.toNat) (e := mtu.toNat) hf
  have hlt := throughput.toNat_lt
  rw [turnThroughput, UInt64.toNat_toUInt32, UInt64.toNat_mul, UInt32.toNat_toUInt64,
    toNat_bytesPerMs, show (1000 : UInt64).toNat = 1000 from rfl]
  omega

/-- The turns of a search that starts from a second. A fourth turn would need a round of a
millisecond. -/
theorem pacingTurn_second {E : ErrorTest} {throughput mtu factor : UInt32}
    (h : PacingTurn E throughput mtu (throughput / mtu) 1000 factor) :
    factor = 1 ∨ factor = 10 ∨ factor = 100 := by
  induction h with
  | first => exact .inl rfl
  | next _ hgo ih =>
    rcases ih with rfl | rfl | rfl
    · exact .inr (.inl rfl)
    · exact .inr (.inr rfl)
    · simp only [turnGoesOn,
        show ¬ ((10 : UInt32) ≤ 1000 / (100 * 10)) by decide, decide_false, Bool.false_and] at hgo
      cases hgo

theorem turnFits_second {E : ErrorTest} {throughput mtu factor : UInt32}
    (h : PacingTurn E throughput mtu (throughput / mtu) 1000 factor) :
    TurnFits mtu (throughput / mtu) 1000 factor := by
  obtain ⟨hfactor, hfactor0, hperiod, hscale⟩ : factor.toNat * 10 < 2 ^ 32 ∧ factor * 10 ≠ 0 ∧
    1000 / (factor * 10) ≠ 0 ∧
      (factor * 10).toNat * (1000 / (factor * 10).toNat) = 1000 := by
    rcases pacingTurn_second h with rfl | rfl | rfl <;> decide
  have hlt := throughput.toNat_lt
  refine ⟨hfactor, hfactor0, hperiod, ?_, ?_⟩
  · rw [UInt32.toNat_div, UInt32.toNat_div]
    exact (scaled_bytes_le _ _ _).trans_lt hlt
  · rw [toNat_bytesPerMs]
    exact (scaled_le hscale).trans_lt hlt

/-- A search that starts from whole seconds has one turn. -/
theorem turnFits_seconds {E : ErrorTest} {throughput mtu roundTimeMs factor : UInt32}
    (hround : roundTimeMs / 10 ≠ 0) (h : PacingTurn E throughput mtu 1 roundTimeMs factor) :
    TurnFits mtu 1 roundTimeMs factor := by
  obtain rfl : factor = 1 := by
    induction h with
    | first => rfl
    | next _ hgo ih =>
      rw [ih, turnGoesOn, turnThroughput, show (1 : UInt32) / (1 * 10) = 0 from rfl,
        UInt32.zero_mul, UInt32.zero_div, show ((0 : UInt32).toUInt64 * 1000).toUInt32 = 0 from rfl,
        E.below_zero, Bool.and_false]
          at hgo
      cases hgo
  refine ⟨by decide, by decide, hround, ?_, ?_⟩
  · rw [show (1 : UInt32) / (1 * 10) = 0 from rfl]
    simp
  · rw [show (1 : UInt32) / (1 * 10) = 0 from rfl, UInt32.zero_mul, UInt32.zero_div]
    decide

/-! ### The throughput -/

/-- What the metrics of a request are made of. -/
theorem computeDtpMetrics_inv {E : ErrorTest} {r : MetaReq} {payloadSize : UInt32} {m : Metrics}
    (h : computeDtpMetrics E r payloadSize = .ok m) :
    pacing E r.throughput r.chunk.toUInt32 = .ok (m.roundTimeMs, m.packetsPerRound) ∧
      m.nofPackets = packetCount payloadSize r.chunk.toUInt32 r.requested ∧
      m.totalDurationMs = if m.nofPackets * m.roundTimeMs / m.packetsPerRound < 1000 then 1000
        else m.nofPackets * m.roundTimeMs / m.packetsPerRound := by
  obtain ⟨ht, hm, h1, h8⟩ := (computeDtpMetrics_ok_iff E r payloadSize).mp ⟨m, h⟩
  obtain ⟨m', hm', -, -, hnof, -⟩ := computeDtpMetrics_of_ne E payloadSize ht hm h1 h8
  obtain rfl : m = m' := Except.ok.inj (h.symm.trans hm')
  obtain ⟨pace, hpace, h⟩ := exists_of_bind_eq_ok h
  obtain ⟨n, -, h⟩ := exists_of_bind_eq_ok h
  obtain ⟨duration, hduration, h⟩ := exists_of_bind_eq_ok h
  obtain ⟨last, -, h⟩ := exists_of_bind_eq_ok h
  obtain ⟨lastPacket, -, h⟩ := exists_of_bind_eq_ok h
  cases h
  have hquotient : duration = n * pace.1 / pace.2 := by
    simp only [div] at hduration
    split_ifs at hduration
    exact (Except.ok.inj hduration).symm
  subst hquotient
  exact ⟨hpace, hnof, rfl⟩

theorem roundScale_mul (E : ErrorTest) (throughput mtu : UInt32) :
    (roundScale E throughput mtu).toNat * (1000 / (roundScale E throughput mtu).toNat) = 1000 := by
  rcases roundScale_cases E throughput mtu with h | h | h <;> rw [h] <;> rfl

/-- A round that was cut passes the test. -/
theorem below_roundScale {E : ErrorTest} {throughput mtu : UInt32}
    (h : roundScale E throughput mtu ≠ 1) :
    E.below throughput (turnThroughput mtu (throughput / mtu) 1000 (roundScale E throughput mtu)) =
      true := by
  revert h
  simp only [roundScale]
  split_ifs with h10 h100
  · exact fun _ => h100
  · exact fun _ => h10
  · exact fun h => absurd rfl h

/-- The two kinds of pacing, in numbers. -/
theorem pacing_cases {E : ErrorTest} {throughput mtu : UInt32} {pace : UInt32 × UInt32}
    (ht : 1 ≤ throughput.toNat) (hm : 1 ≤ mtu.toNat) (hsmall : mtu.toNat < 65536)
    (h : pacing E throughput mtu = .ok pace) :
    (throughput.toNat < mtu.toNat ∧ pace.1.toNat = mtu.toNat / throughput.toNat * 1000 ∧
      pace.2.toNat = 1) ∨
    (mtu.toNat ≤ throughput.toNat ∧ pace.1.toNat = 1000 / (roundScale E throughput mtu).toNat ∧
      pace.2.toNat = throughput.toNat / mtu.toNat / (roundScale E throughput mtu).toNat) := by
  rw [pacing_eq ht hm E hsmall] at h
  obtain rfl := Except.ok.inj h
  split_ifs with hslow
  · exact .inl ⟨hslow, toNat_seconds throughput hsmall, rfl⟩
  · exact .inr ⟨not_lt.mp hslow, UInt32.toNat_div _ _, by rw [UInt32.toNat_div, UInt32.toNat_div]⟩

/-- A chunk, in numbers. -/
theorem toNat_chunk_of_lt {r : MetaReq} (hmtu : 8 < r.mtu.toNat) :
    r.chunk.toUInt32.toNat = r.mtu.toNat - 8 ∧ 1 ≤ r.chunk.toUInt32.toNat ∧
      r.chunk.toUInt32.toNat < 65536 := by
  have hlt := r.mtu.toNat_lt
  rw [toNat_chunk_toUInt32]
  omega

/-- **When the throughput that was asked for is kept.** For every request, exactly if it is at least
a packet a second, or divides the bytes of a packet. The seconds of a packet are rounded down, and
have to be all of them. -/
theorem throughput_bound_iff {r : MetaReq} {payloadSize : UInt32} {m : Metrics}
    (hmtu : 8 < r.mtu.toNat) (h : computeDtpMetrics .exact r payloadSize = .ok m) :
    m.packetsPerRound.toNat * (r.mtu.toNat - 8) * 1000 ≤ r.throughput.toNat * m.roundTimeMs.toNat ↔
      r.mtu.toNat - 8 ≤ r.throughput.toNat ∨ r.throughput.toNat ∣ r.mtu.toNat - 8 := by
  obtain ⟨ht, -⟩ := (computeDtpMetrics_ok_iff _ r payloadSize).mp ⟨m, h⟩
  have ht' : 1 ≤ r.throughput.toNat := Nat.pos_of_ne_zero fun h0 => ht (by rwa [← UInt32.toNat_inj])
  obtain ⟨heff, hm, hsmall⟩ := toNat_chunk_of_lt hmtu
  have hcases := pacing_cases ht' hm hsmall (computeDtpMetrics_inv h).1
  have hscale := roundScale_mul .exact r.throughput r.chunk.toUInt32
  rw [heff] at hcases hm
  generalize r.mtu.toNat - 8 = e at *
  generalize r.throughput.toNat = t at *
  rcases hcases with ⟨hslow, hround, hper⟩ | ⟨hfast, hround, hper⟩
  · have hdvd : e ≤ t * (e / t) ↔ t ∣ e := by
      rw [Nat.dvd_iff_div_mul_eq, Nat.mul_comm t]
      exact ⟨fun h => le_antisymm (Nat.div_mul_le_self e t) h, fun h => h.ge⟩
    rw [hround, hper, Nat.one_mul, ← Nat.mul_assoc, Nat.mul_le_mul_right_iff (by omega), hdvd]
    exact ⟨.inr, fun h => h.resolve_left (by omega)⟩
  · refine iff_of_true ?_ (.inl hfast)
    rw [hround, hper]
    generalize (roundScale ErrorTest.exact r.throughput r.chunk.toUInt32).toNat = f at *
    calc t / e / f * e * 1000 = t / e / f * f * e * (1000 / f) := by
          rw [Nat.mul_right_comm (t / e / f) f e, Nat.mul_assoc _ f, hscale]
      _ ≤ t / e * e * (1000 / f) :=
        Nat.mul_le_mul_right _ (Nat.mul_le_mul_right e (Nat.div_mul_le_self _ _))
      _ ≤ t * (1000 / f) := Nat.mul_le_mul_right _ (Nat.div_mul_le_self _ _)

/-- A request for the first packet of a payload. -/
def slowRequest (throughput : UInt32) (mtu : UInt16) : MetaReq where
  throughput := throughput
  nofIntervals := 1
  payloadId := 0
  sessionId := 0
  mtu := mtu
  keepAliveInterval := 0
  intervals := Vector.replicate 8 ⟨0, 0⟩

theorem throughput_bound_whole : ∃ m, computeDtpMetrics .exact (slowRequest 3 14) 6 = .ok m ∧
    m.packetsPerRound.toNat * 6 * 1000 ≤ 3 * m.roundTimeMs.toNat := by
  have hm : computeDtpMetrics .exact (slowRequest 3 14) 6 = .ok ⟨2000, 1, 1, 0, 2000⟩ := by
    decide +kernel
  exact ⟨_, hm, (throughput_bound_iff (by decide) hm).mpr (.inr (by decide))⟩

/-- 5 bytes a packet at 3 bytes a second: a packet is sent every second. -/
theorem throughput_bound_exceeded :
    ¬ ∀ (r : MetaReq) (payloadSize : UInt32) (m : Metrics), 8 < r.mtu.toNat →
    computeDtpMetrics .exact r payloadSize = .ok m →
      m.packetsPerRound.toNat * (r.mtu.toNat - 8) * 1000 ≤ r.throughput.toNat *
        m.roundTimeMs.toNat := by
  intro h
  have hm : computeDtpMetrics .exact (slowRequest 3 13) 5 = .ok ⟨1000, 1, 1, 0, 1000⟩ := by
    decide +kernel
  exact absurd (h _ _ _ (by decide) hm) (by decide)

/-- The search ends, and all its turns fit. -/
theorem pacingStart_spec (E : ErrorTest) {throughput mtu : UInt32} (ht : 1 ≤ throughput.toNat)
    (hm : 1 ≤ mtu.toNat) (hsmall : mtu.toNat < 65536) :
    (∃ factor, pacingLoop E throughput mtu (pacingStart throughput mtu).2
      (pacingStart throughput mtu).1 10 1 = .ok factor) ∧
    ∀ factor, PacingTurn E throughput mtu (pacingStart throughput mtu).2
      (pacingStart throughput mtu).1 factor →
      TurnFits mtu (pacingStart throughput mtu).2 (pacingStart throughput mtu).1 factor := by
  by_cases hslow : throughput.toNat < mtu.toNat
  · have hround := seconds_div_ten_ne ht hsmall hslow
    rw [pacingStart, if_pos ((secs_gt_iff ht hm).mpr hslow)]
    exact ⟨⟨_, pacingLoop_seconds E throughput mtu hround⟩, fun factor h =>
      turnFits_seconds hround h⟩
  · rw [pacingStart, if_neg (fun h => hslow ((secs_gt_iff ht hm).mp h))]
    exact ⟨⟨_, pacingLoop_second E throughput mtu⟩, fun factor h => turnFits_second h⟩

/-- A round that is a part of a second, in numbers: the test that accepts it leaves more than half
of the throughput. -/
theorem half_lt_of_below {throughput mtu factor : UInt32}
    (hf : factor.toNat * (1000 / factor.toNat) = 1000)
    (h : ErrorTest.exact.below throughput (turnThroughput mtu (throughput / mtu) 1000 factor) =
      true) :
    throughput.toNat * (1000 / factor.toNat) <
      2 * (throughput.toNat / mtu.toNat / factor.toNat) * mtu.toNat * 1000 := by
  have herror := of_decide_eq_true h
  rw [toNat_turnThroughput throughput mtu hf] at herror
  rw [Nat.mul_assoc 2]
  generalize throughput.toNat = t at *
  generalize t / mtu.toNat / factor.toNat * mtu.toNat = bytes at *
  have hperiod : 0 < 1000 / factor.toNat := Nat.pos_of_ne_zero fun h0 => by simp [h0] at hf
  generalize 1000 / factor.toNat = period at *
  have hhalf : t < 2 * (bytes / period) * 1000 := by omega
  calc t * period < 2 * (bytes / period) * 1000 * period :=
    Nat.mul_lt_mul_of_pos_right hhalf hperiod
    _ = 2 * (bytes / period * period) * 1000 := by rw [Nat.mul_right_comm, Nat.mul_assoc 2]
    _ ≤ 2 * bytes * 1000 := Nat.mul_le_mul_right _ (Nat.mul_le_mul_left 2 (Nat.div_mul_le_self _ _))

/-- **The search for a round.** For every throughput and packet it ends, without a division by zero
or a product that wraps in any turn, with at least one packet and 10 ms a round, and more than half
of the throughput is used. -/
theorem pacing_adequate {r : MetaReq} (ht : 1 ≤ r.throughput.toNat) (hmtu : 8 < r.mtu.toNat) :
    (∃ factor, pacingLoop .exact r.throughput r.chunk.toUInt32
      (pacingStart r.throughput r.chunk.toUInt32).2
      (pacingStart r.throughput r.chunk.toUInt32).1 10 1 = .ok factor) ∧
    (∀ factor, PacingTurn .exact r.throughput r.chunk.toUInt32
      (pacingStart r.throughput r.chunk.toUInt32).2
      (pacingStart r.throughput r.chunk.toUInt32).1 factor →
      TurnFits r.chunk.toUInt32 (pacingStart r.throughput r.chunk.toUInt32).2
        (pacingStart r.throughput r.chunk.toUInt32).1 factor) ∧
    ∃ pace, pacing .exact r.throughput r.chunk.toUInt32 = .ok pace ∧ 1 ≤ pace.2.toNat ∧
      10 ≤ pace.1.toNat ∧
      r.throughput.toNat * pace.1.toNat < 2 * pace.2.toNat * (r.mtu.toNat - 8) * 1000 := by
  obtain ⟨heff, hm, hsmall⟩ := toNat_chunk_of_lt hmtu
  obtain ⟨hends, hfits⟩ := pacingStart_spec .exact ht hm hsmall
  have hmtu8 : r.mtu ≠ 8 := by
    intro h
    rw [h] at hmtu
    exact absurd hmtu (by decide)
  obtain ⟨pace, hpace, hround, hper⟩ := pacing_of_ne .exact (ne_zero_of_pos ht) hmtu8
  refine ⟨hends, hfits, pace, hpace, hper, hround, ?_⟩
  rw [← heff]
  rcases pacing_cases ht hm hsmall hpace with ⟨-, hslow, hone⟩ | ⟨hfast, hscaled, hper'⟩
  · have hle := Nat.mul_div_le r.chunk.toUInt32.toNat r.throughput.toNat
    rw [hslow, hone, ← Nat.mul_assoc]
    omega
  · rw [hscaled, hper']
    by_cases hone : roundScale .exact r.throughput r.chunk.toUInt32 = 1
    · have hpos := Nat.div_pos hfast hm
      have hlt := Nat.lt_mul_div_succ r.throughput.toNat hm
      rw [hone, show (1 : UInt32).toNat = 1 from rfl, Nat.div_one, Nat.div_one,
        Nat.mul_lt_mul_right (by decide)]
      nlinarith
    · exact half_lt_of_below (roundScale_mul _ _ _) (below_roundScale hone)

theorem pacing_adequate_kilobyte : 1 ≤ (slowRequest 1000 208).throughput.toNat ∧
    ∃ pace, pacing .exact (slowRequest 1000 208).throughput (slowRequest 1000 208).chunk.toUInt32 =
      .ok pace ∧
      1 ≤ pace.2.toNat ∧ 10 ≤ pace.1.toNat ∧ 1000 * pace.1.toNat < 2 * pace.2.toNat * 200 * 1000 :=
  ⟨by decide, (@pacing_adequate (slowRequest 1000 208) (by decide) (by decide)).2.2⟩

/-! ### The duration -/

/-- The packets some intervals name. -/
def namedPackets (payloadSize mtu : UInt32) (is : List Interval) : ℕ :=
  (is.map fun i => (endOr payloadSize mtu i.stop).toNat - i.start.toNat + 1).sum

/-- They are counted modulo `2^32`. -/
theorem toNat_packetCount_of_le {payloadSize mtu : UInt32} {is : List Interval}
    (his : ∀ i ∈ is, i.start ≤ endOr payloadSize mtu i.stop) :
    (packetCount payloadSize mtu is).toNat = namedPackets payloadSize mtu is % 2 ^ 32 := by
  have hgen : ∀ n : UInt32,
    (is.foldl (fun n cur => n + ((endOr payloadSize mtu cur.stop - cur.start) + 1)) n).toNat =
      (n.toNat + namedPackets payloadSize mtu is) % 2 ^ 32 := by
    induction is with
    | nil =>
      intro n
      have hn := n.toNat_lt
      simp only [List.foldl_nil, namedPackets, List.map_nil, List.sum_nil]
      omega
    | cons i is ih =>
      intro n
      have hi := UInt32.toNat_sub_of_le _ _ (his i (List.mem_cons_self ..))
      rw [List.foldl_cons, ih fun j hj => his j (List.mem_cons_of_mem _ hj), UInt32.toNat_add,
        UInt32.toNat_add, hi, show (1 : UInt32).toNat = 1 from rfl]
      simp only [namedPackets, List.map_cons, List.sum_cons]
      omega
  have hzero := hgen 0
  rwa [UInt32.toNat_zero, Nat.zero_add] at hzero

/-- The expected duration is what its terms are worth, if that fits. -/
def Metrics.DurationExact (m : Metrics) : Prop :=
  max 1000 (m.nofPackets.toNat * m.roundTimeMs.toNat / m.packetsPerRound.toNat) < 2 ^ 32 →
    m.totalDurationMs.toNat =
      max 1000 (m.nofPackets.toNat * m.roundTimeMs.toNat / m.packetsPerRound.toNat)

/-- When a quotient of at least 1000 survives that its dividend wraps. What wrapping takes away is
at least one of the divisor. -/
theorem wrapped_div_iff {a b : ℕ} (hb : b < 2 ^ 32) (hb0 : 0 < b) :
    (max 1000 (a / b) < 2 ^ 32 → max 1000 (a % 2 ^ 32 / b) = max 1000 (a / b)) ↔
      a < 2 ^ 32 ∨ a / b ≤ 1000 ∨ 2 ^ 32 ≤ a / b := by
  have hle : a % 2 ^ 32 / b ≤ a / b := Nat.div_le_div_right (Nat.mod_le _ _)
  constructor
  · intro h
    by_contra hno
    obtain ⟨hwraps, hlong, hfits⟩ : 2 ^ 32 ≤ a ∧ 1000 < a / b ∧ a / b < 2 ^ 32 := by omega
    have hgap : a % 2 ^ 32 / b + 1 ≤ a / b := by
      rw [Nat.le_div_iff_mul_le hb0, Nat.succ_mul]
      have hmul := Nat.div_mul_le_self (a % 2 ^ 32) b
      omega
    have heq := h (by omega)
    omega
  · rintro (hfits | hshort | hlong)
    · rw [Nat.mod_eq_of_lt hfits]
      exact fun _ => rfl
    · omega
    · omega

/-- The milliseconds of a round, for each of the packets a request names. -/
def roundProduct (E : ErrorTest) (r : MetaReq) (payloadSize : UInt32) : ℕ :=
  namedPackets payloadSize r.chunk.toUInt32 r.requested % 2 ^ 32 *
    (1000 / (roundScale E r.throughput r.chunk.toUInt32).toNat)

/-- The packets of a round that is a part of a second. -/
def scaledPackets (E : ErrorTest) (r : MetaReq) : ℕ :=
  r.throughput.toNat / (r.mtu.toNat - 8) / (roundScale E r.throughput r.chunk.toUInt32).toNat

/-- **When the expected duration is exact.** For every request whose intervals do not end before
they start: exactly if the throughput is less than a packet a second, or the packets times the round
fit in 32 bits, or the duration is no more than the second that is expected in any case, or does not
fit itself. -/
theorem duration_exact_iff (E : ErrorTest) {r : MetaReq} {payloadSize : UInt32} {m : Metrics}
    (hmtu : 8 < r.mtu.toNat)
    (his : ∀ i ∈ r.requested, i.start ≤ endOr payloadSize r.chunk.toUInt32 i.stop)
    (h : computeDtpMetrics E r payloadSize = .ok m) :
    m.DurationExact ↔ r.throughput.toNat < r.mtu.toNat - 8 ∨ roundProduct E r payloadSize < 2 ^ 32 ∨
      roundProduct E r payloadSize / scaledPackets E r ≤ 1000 ∨
        2 ^ 32 ≤ roundProduct E r payloadSize / scaledPackets E r := by
  obtain ⟨ht, hm8, h1, h8⟩ := (computeDtpMetrics_ok_iff E r payloadSize).mp ⟨m, h⟩
  have ht' : 1 ≤ r.throughput.toNat := Nat.pos_of_ne_zero fun h0 => ht (by rwa [← UInt32.toNat_inj])
  obtain ⟨heff, hm, hsmall⟩ := toNat_chunk_of_lt hmtu
  obtain ⟨m', hm', -, hper, -, -⟩ := computeDtpMetrics_of_ne E payloadSize ht hm8 h1 h8
  obtain rfl : m = m' := Except.ok.inj (h.symm.trans hm')
  obtain ⟨hpace, hnof, hduration⟩ := computeDtpMetrics_inv h
  have htotal : m.totalDurationMs.toNat =
      max 1000 (m.nofPackets.toNat * m.roundTimeMs.toNat % 2 ^ 32 / m.packetsPerRound.toNat) := by
    rw [← UInt32.toNat_mul, ← UInt32.toNat_div, hduration]
    have h1000 : (1000 : UInt32).toNat = 1000 := rfl
    split_ifs with hshort
    · rw [UInt32.lt_iff_toNat_lt, h1000] at hshort
      rw [h1000, Nat.max_eq_left hshort.le]
    · rw [UInt32.lt_iff_toNat_lt, h1000, not_lt] at hshort
      rw [Nat.max_eq_right hshort]
  rw [Metrics.DurationExact, htotal, wrapped_div_iff m.packetsPerRound.toNat_lt hper, hnof,
    toNat_packetCount_of_le his]
  rcases pacing_cases ht' hm hsmall hpace with ⟨hslow, -, hone⟩ | ⟨hfast, hround, hper'⟩
  · rw [heff] at hslow
    refine iff_of_true ?_ (.inl hslow)
    rw [hone, Nat.div_one]
    omega
  · rw [hround, hper', heff]
    rw [heff] at hfast
    exact ⟨.inr, fun h => h.resolve_left (not_lt.mpr hfast)⟩

/-- A request for the packets up to `stop`, at `throughput` bytes a second. -/
def longRequest (throughput : UInt32) (mtu : UInt16) (stop : UInt32) : MetaReq :=
  { slowRequest throughput mtu with intervals := Vector.replicate 8 ⟨0, stop⟩ }

theorem duration_exact_megabyte :
    ∃ m, computeDtpMetrics .exact (longRequest 3000 208 4999) 1000000 = .ok m ∧
      m.DurationExact := by
  have hm : computeDtpMetrics .exact (longRequest 3000 208 4999) 1000000 =
    .ok ⟨1000, 15, 5000, 4999, 333333⟩ := by decide +kernel
  refine ⟨_, hm,
    (duration_exact_iff .exact (by decide) ?_ hm).mpr (.inr (.inl (by decide +kernel)))⟩
  intro i hi
  obtain rfl : i = ⟨0, 4999⟩ := by simpa [longRequest, slowRequest, MetaReq.requested] using hi
  decide

/-- 858993600 bytes in packets of 200 bytes, at 3000 bytes a second: more than three days, of which
a second is expected. -/
theorem duration_exact_wrapped : (longRequest 3000 208 4294967).Usable ∧
    (longRequest 3000 208 4294967).requested = [⟨0, 4294967⟩] ∧
      4294967 * 200 < (858993600 : UInt32).toNat ∧
    ∃ m, computeDtpMetrics .exact (longRequest 3000 208 4294967) 858993600 = .ok m ∧
      ¬ m.DurationExact := by
  have hm : computeDtpMetrics .exact (longRequest 3000 208 4294967) 858993600 =
      .ok ⟨1000, 15, 4294968, 4294967, 1000⟩ := by
    decide +kernel
  refine ⟨⟨by decide, by decide, by decide, by decide⟩, by simp [longRequest, slowRequest,
    MetaReq.requested], by decide,
    _, hm, fun hexact => ?_⟩
  exact absurd (hexact (by decide)) (by decide)

end LibDtp
