import LibDtp.Client.MetaFile

/-!
# The deadline of a transfer

With every packet it accepts, `start_receiving_data` computes anew when the transfer should be over:
from the bytes received in the milliseconds so far it takes a throughput, and from the throughput
the time the whole transfer takes. The loop goes on only as long as that time has not come.

## The model

The events of a run carry the readings of the clock; they are `Clocked` if the clock never goes
back. `StaysLive` says of an event that the loop does not stop on time right after it; `TimeLeft`
says the same of the numbers the deadline is computed from, `Ahead`: two divisions are rounded down,
and the slack they leave must not be more than what is still to come.

## What is proved

* `lt_div_div_iff` — what the two divisions do to the margin.
* `deadline_iff` — along any run, the loop stays live exactly if at each new deadline the
  throughput, less the remainder of the division, is at most what is still to come, and the deadline
  fits in 32 bits.
-/

namespace LibDtp

open Runs

/-- The times in some events. -/
def timesOf (es : List RecvEvent) : List UInt32 := es.filterMap fun
  | .packet _ now _ => some now
  | _ => none

/-- The clock starts at `start` and never goes back. -/
def Clocked (start : UInt32) (es : List RecvEvent) : Prop := (start :: timesOf es).Pairwise (· ≤ ·)

instance (start : UInt32) (es : List RecvEvent) : Decidable (Clocked start es) :=
  inferInstanceAs (Decidable (List.Pairwise _ _))

/-- The deadline computed at `now`, after `n` packets of `eff` bytes of the `total` there are, is
after `now`: it fits in 32 bits, and the bytes in a millisecond are no more than the bytes still to
come and the remainder. If it does not fit, it happens to be after `now` nevertheless. -/
def Ahead (eff n total start now : ℕ) : Prop :=
  let bytes := n * eff % 2 ^ 32
  let deadline := start + eff * total / (bytes / (now - start))
  deadline < 2 ^ 32 ∧ bytes / (now - start) + bytes ≤ eff * total + bytes % (now - start) ∨
    2 ^ 32 ≤ deadline ∧ now < deadline % 2 ^ 32

instance (eff n total start now : ℕ) : Decidable (Ahead eff n total start now) :=
  inferInstanceAs (Decidable (_ ∨ _))

namespace RecvState

/-- A packet is accepted after which more are expected, and a new deadline is computed. -/
structure Recomputes (s : RecvState) (p : Packet) (now : UInt32) : Prop where
  /-- The loop is running. -/
  running : s.result = none
  /-- It is not the packet before. -/
  accepted : packetSeq s.session.request p ≠ s.prevPacketSeq
  /-- More are expected. -/
  more : s.nofPackets + 1 < s.metric.nofPackets
  /-- `ts_diff > 0`. -/
  tsDiff : now - s.startTsMs > 0
  /-- `curr_throughput > 0`. -/
  currThroughput : ((s.nofPackets + 1).toUInt64 * s.session.request.chunk).toUInt32 /
    (now - s.startTsMs) > 0

/-- A packet for which a new deadline is computed does not stop the loop on time. -/
def StaysLive (s : RecvState) : RecvEvent → Prop
  | .packet p now hookNow => s.Recomputes p now →
      now < (s.step (.packet p now hookNow)).expectedEotTsMs ∧
        (s.step (.packet p now hookNow)).nowTsMs + (s.step (.packet p now hookNow)).idleMs <
          (s.step (.packet p now hookNow)).expectedEotTsMs
  | _ => True

/-- The numbers a new deadline is computed from leave time. -/
def TimeLeft (s : RecvState) : RecvEvent → Prop
  | .packet p now _ => s.Recomputes p now →
      Ahead s.session.request.eff
        (s.nofPackets.toNat + 1) s.metric.nofPackets.toNat s.startTsMs.toNat now.toNat
  | _ => True

end RecvState

theorem mem_timesOf_of_mem {e : RecvEvent} {es : List RecvEvent} (he : e ∈ es) {t : UInt32}
    (ht : t ∈ timesOf [e]) :
    t ∈ timesOf es := by
  obtain ⟨e', he', hnow⟩ := List.mem_filterMap.mp ht
  rw [List.mem_singleton.mp he'] at hnow
  exact List.mem_filterMap.mpr ⟨e, he, hnow⟩

/-! ### The arithmetic -/

/-- A moment adjusted by its difference to another one is the other one. -/
theorem add_sub_self (a b : UInt32) : a + (b - a) = b := by
  rw [UInt32.add_comm, UInt32.sub_add_cancel]

/-- `b` bytes in `t` milliseconds, and `a` bytes in all: the time for all of them is more than `t`.
-/
theorem lt_div_div_iff {a b t : ℕ} (h : 0 < b / t) : t < a / (b / t) ↔ b / t + b ≤ a + b % t := by
  rw [← Nat.succ_le_iff, Nat.le_div_iff_mul_le h, Nat.succ_mul]
  have := Nat.div_add_mod b t
  omega

/-- A deadline is after `now` as the code compares them. -/
theorem ahead_iff {eff n total start now : ℕ} (hstart : start ≤ now)
    (hpos : 0 < n * eff % 2 ^ 32 / (now - start)) :
    now < (start + eff * total / (n * eff % 2 ^ 32 / (now - start))) % 2 ^ 32 ↔
      Ahead eff n total start now := by
  simp only [Ahead, ← lt_div_div_iff hpos]
  generalize eff * total / (n * eff % 2 ^ 32 / (now - start)) = duration
  rcases lt_or_ge (start + duration) (2 ^ 32) with hfits | hwraps
  · rw [Nat.mod_eq_of_lt hfits]
    omega
  · omega

namespace RecvState

theorem nofPackets_lt {s : RecvState} (h : s.result = none) :
    s.nofPackets < s.metric.nofPackets := by
  simp only [result] at h
  split at h
  · cases h
  · split_ifs at h with hgo
    exact hgo.2

/-- The packets counted, and the bytes in them. -/
theorem toNat_bytesSent {s : RecvState} (hm : 8 < s.session.request.mtu.toNat)
    (h : s.result = none) :
    ((s.nofPackets + 1).toUInt64 * s.session.request.chunk).toUInt32.toNat =
      (s.nofPackets.toNat + 1) * s.session.request.eff % 2 ^ 32 := by
  have hlt := UInt32.lt_iff_toNat_lt.mp (nofPackets_lt h)
  have hmax := s.metric.nofPackets.toNat_lt
  have heff := s.session.request.eff_lt
  have hmul : (s.nofPackets.toNat + 1) * s.session.request.eff ≤ 2 ^ 32 * 65536 :=
    Nat.mul_le_mul (by omega) heff.le
  rw [UInt64.toNat_toUInt32, UInt64.toNat_mul, UInt32.toNat_toUInt64, UInt32.toNat_add,
    show (1 : UInt32).toNat = 1 from rfl,
    Nat.mod_eq_of_lt (show s.nofPackets.toNat + 1 < 2 ^ 32 by omega),
    show s.session.request.chunk.toNat =
      s.session.request.eff from s.session.request.toNat_chunk hm,
    Nat.mod_eq_of_lt (show (s.nofPackets.toNat + 1) * s.session.request.eff < 2 ^ 64 by omega)]

/-- The deadline that is computed, as a number. -/
theorem toNat_adjustedEot {s : RecvState} (hm : 8 < s.session.request.mtu.toNat) {p : Packet}
    {now : UInt32} (hclock : s.startTsMs ≤ now) (h : s.Recomputes p now) :
    0 < (s.nofPackets.toNat + 1) * s.session.request.eff % 2 ^ 32 /
      (now.toNat - s.startTsMs.toNat) ∧
      (s.adjustedEot now (s.nofPackets + 1)).toNat =
        (s.startTsMs.toNat + s.session.request.eff * s.metric.nofPackets.toNat /
        ((s.nofPackets.toNat + 1) * s.session.request.eff % 2 ^ 32 /
          (now.toNat - s.startTsMs.toNat))) % 2 ^ 32 := by
  have hbytes := toNat_bytesSent hm h.running
  have hdiff := UInt32.toNat_sub_of_le now s.startTsMs hclock
  have hmax := s.metric.nofPackets.toNat_lt
  have heff := s.session.request.eff_lt
  have hmul : s.session.request.eff * s.metric.nofPackets.toNat ≤ 65536 * 2 ^ 32 :=
    Nat.mul_le_mul heff.le hmax.le
  have hpos := h.currThroughput
  rw [gt_iff_lt, UInt32.lt_iff_toNat_lt, UInt32.toNat_div, hbytes, hdiff, UInt32.toNat_zero] at hpos
  refine ⟨hpos, ?_⟩
  simp only [adjustedEot, if_pos h.tsDiff, if_pos h.currThroughput, add_sub_self]
  rw [UInt32.toNat_add, UInt64.toNat_toUInt32, UInt64.toNat_div, UInt64.toNat_mul,
    UInt32.toNat_toUInt64,
    UInt32.toNat_toUInt64, UInt32.toNat_div, hbytes, hdiff,
    show s.session.request.chunk.toNat =
      s.session.request.eff from s.session.request.toNat_chunk hm,
    Nat.mod_eq_of_lt (show s.session.request.eff * s.metric.nofPackets.toNat < 2 ^ 64 by omega)]
  omega

/-- The loop stays live after a packet if and only if there is time left. -/
theorem staysLive_iff {s : RecvState} (hm : 8 < s.session.request.mtu.toNat) {e : RecvEvent}
    (hclock : ∀ t ∈ timesOf [e], s.startTsMs ≤ t) : s.StaysLive e ↔ s.TimeLeft e := by
  cases e with
  | stop => exact Iff.rfl
  | timeout => exact Iff.rfl
  | packet p now hookNow =>
    refine forall_congr' fun h => ?_
    have hle := hclock now (List.mem_singleton_self now)
    obtain ⟨hpos, heot⟩ := toNat_adjustedEot hm hle h
    have hstep : s.step (.packet p now hookNow) =
        (s.accept p now hookNow).afterPacket (packetSeq s.session.request p) := by
      simp only [step, h.running, onPacket, if_neg h.accepted]
    have hfields : ∀ (t : RecvState) (seq : UInt32), (t.afterPacket seq).expectedEotTsMs =
      t.expectedEotTsMs ∧
        (t.afterPacket seq).nowTsMs = t.nowTsMs ∧ (t.afterPacket seq).idleMs = t.idleMs := by
      intro t seq
      simp only [afterPacket]
      split_ifs <;> exact ⟨rfl, rfl, rfl⟩
    obtain ⟨hexpected, hnow, hidle⟩ :=
      hfields (s.accept p now hookNow) (packetSeq s.session.request p)
    rw [hstep, hexpected, hnow, hidle]
    change now < s.adjustedEot now (s.nofPackets + 1) ∧
      now + 0 < s.adjustedEot now (s.nofPackets + 1) ↔ _
    rw [UInt32.add_zero, and_self, UInt32.lt_iff_toNat_lt, heot,
      ahead_iff (UInt32.le_iff_toNat_le.mp hle) hpos]

/-- What a deadline is computed from does not change. -/
theorem step_fixed (s : RecvState) (e : RecvEvent) : (s.step e).startTsMs = s.startTsMs ∧
    (s.step e).session.request = s.session.request := by
  have hmoves := s.moves_step e
  generalize s.step e = s' at hmoves ⊢
  cases hmoves with
  | ended => exact ⟨rfl, rfl⟩
  | idle => exact ⟨rfl, rfl⟩
  | repeated => exact ⟨rfl, rfl⟩
  | accept p now hookNow =>
    constructor
    · simp only [afterPacket]
      split_ifs <;> rfl
    · rw [session_afterPacket]
      simp only [accept, apmOnDataPacket]
      split <;> rfl

end RecvState

/-- Along a run with a clock that does not go back, the loop never stops on time right after a
packet if and only if there is time left at each new deadline. -/
theorem deadline_iff (s : Session) (d : Disk) (metric : Metrics) (start : UInt32)
    (es : List RecvEvent) (hm : 8 < s.request.mtu.toNat) (hclock : Clocked start es) :
    Along RecvState.step RecvState.StaysLive (.initial s d metric start) es ↔
      Along RecvState.step RecvState.TimeLeft (.initial s d metric start) es := by
  refine @along_congr _ _ _ _ _ _ _
    (fun st : RecvState => st.startTsMs = start ∧ st.session.request = s.request) ?_ ?_ ⟨rfl, rfl⟩
  · rintro e he st ⟨hstart, hreq⟩
    refine RecvState.staysLive_iff (by rw [hreq]; exact hm) fun t ht => ?_
    rw [hstart]
    exact (List.pairwise_cons.mp hclock).1 t (mem_timesOf_of_mem he ht)
  · rintro st e ⟨hstart, hreq⟩
    obtain ⟨hstart', hreq'⟩ := st.step_fixed e
    exact ⟨hstart'.trans hstart, hreq'.trans hreq⟩

/-- The packets of a payload of ten bytes arrive, in chunks of four, each with its time. -/
def arrivalsAt (kts : List (ℕ × UInt32)) : List RecvEvent :=
  kts.map fun kt => .packet (chunkPacket tenBytes (oneInterval 12 ⟨0, uint32Max⟩) kt.1) kt.2 kt.2

/-- A session for that payload receives. -/
def receiving : RecvState :=
  .initial { (apmOnStart freshSession ⟨[], none⟩).1 with active := true } ⟨[], none⟩
    ⟨100, 25, 3, 2, 1000⟩ 0

/-- With two packets in two milliseconds and one to come, the loop stays live. -/
theorem deadline_two_ms :
    Along RecvState.step RecvState.StaysLive receiving (arrivalsAt [(0, 0), (1, 2), (2, 3)]) := by
  refine (deadline_iff _ _ _ 0 (arrivalsAt [(0, 0), (1, 2), (2, 3)]) (by decide) (by decide)).mpr
    ⟨?_, ?_, ?_, trivial⟩
  · exact fun h => absurd h.tsDiff (by decide)
  · exact fun _ => by decide +kernel
  · exact fun h => absurd h.more (by decide +kernel)

/-- With two packets in one millisecond and one to come, the deadline is the millisecond that has
just come, and the transfer ends as cancelled. -/
theorem deadline_passed : enterReceive .exact freshSession ⟨[], none⟩ 0 = .ok receiving ∧
    Clocked 0 (arrivalsAt [(0, 0), (1, 1)]) ∧
    ¬ Along RecvState.step RecvState.StaysLive receiving (arrivalsAt [(0, 0), (1, 1)]) ∧
    (run RecvState.step receiving (arrivalsAt [(0, 0), (1, 1)])).nofPackets = 2 ∧
    (run RecvState.step receiving (arrivalsAt [(0, 0), (1, 1)])).result = some .cancelled := by
  refine ⟨by rfl, by decide, ?_, by decide +kernel, by decide +kernel⟩
  rintro ⟨-, hlive, -⟩
  have hrecomputes : (run RecvState.step receiving (arrivalsAt [(0, 0)])).Recomputes
      (chunkPacket tenBytes (oneInterval 12 ⟨0, uint32Max⟩) 1) 1 :=
    ⟨by decide +kernel, by decide +kernel, by decide +kernel, by decide +kernel, by decide +kernel⟩
  exact absurd (hlive hrecomputes).1 (by decide +kernel)

end LibDtp
