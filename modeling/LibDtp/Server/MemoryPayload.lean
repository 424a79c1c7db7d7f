import LibDtp.Foundation.Memory
import LibDtp.Server.FilePayload

/-!
# The built-in payload

`test_memory_payload_read` of `dtp_file_payload.c`: the payload 255 has no file, but repeats the
sixteen characters of `test_data` without end.

## The model

Memory is a function from addresses, so that what is written in front of a buffer or behind it can
be seen. The loop copies `test_data` in blocks, the first of which may be short, until `size` bytes
or more have been written, and then writes once more what it takes for the excess. `so_far` has 32
bits; there is no result if the loop takes more turns than it is allowed.

The id and the context of the call are not used, and the last value of `so_far` is not either; they
are left out.

## What is proved

* `testMemoryPayloadRead_spec` — everything that is written, in the buffer or outside it, is what
  the payload has at that place, up to the next multiple of sixteen and, for a short read, back to
  the one before.
* `memory_read_exact_iff` — so a call, or some calls one after the other, stay in the buffer exactly
  if they end at a multiple of sixteen, and do not start with a call that stays between two of them.
* `readParts_bytes` — the bytes in the buffer are those of the payload however it is read, and
* `header_kept_iff` — a packet loses its header only to a call that stays between two multiples of
  sixteen.
-/

namespace LibDtp

open Memory

/-- `test_data`, the digits and the letters from `A` to `F`, with the zero at its end. -/
def testData : List UInt8 := [48, 49, 50, 51, 52, 53, 54, 55, 56, 57, 65, 66, 67, 68, 69, 70, 0]

/-- `memcpy` of the first `n` bytes of `src`. -/
def memcpy (m : ℤ → UInt8) (dst : ℤ) (src : List UInt8) (n : ℕ) : ℤ → UInt8 :=
  write m dst (src.take n)

/-- The `while` loop: the memory and `so_far` when it is left, if it is left in fewer than `fuel`
turns. -/
def copyBlocks (output : ℤ) (size : UInt32) :
    ℕ → (ℤ → UInt8) → UInt32 → UInt8 → Option ((ℤ → UInt8) × UInt32)
  | 0, _, _, _ => none
  | fuel + 1, m, soFar, start =>
    if soFar < size then
      copyBlocks output size fuel
        (memcpy m (output + soFar.toNat) (testData.drop start.toNat) (16 - start.toNat))
        (soFar + (16 - start.toUInt32)) 0
    else some (m, soFar)

/-- `test_memory_payload_read`, with `output` at an address: the memory after it, and what it
returns. -/
def testMemoryPayloadRead (fuel : ℕ) (m : ℤ → UInt8) (output : ℤ) (offset size : UInt32) :
    Option ((ℤ → UInt8) × UInt32) :=
  (copyBlocks output size fuel m 0 (offset % 16).toUInt8).map fun r =>
    if r.2 > size then (memcpy r.1 (output + r.2.toNat - 16) testData (r.2 - size).toNat, size)
      else (r.1, size)

/-- Some calls one after the other, each of which goes on where the one before it has stopped. -/
def readParts (fuel : ℕ) : (ℤ → UInt8) → ℤ → UInt32 → List UInt32 → Option (ℤ → UInt8)
  | m, _, _, [] => some m
  | m, output, offset, size :: sizes =>
    (testMemoryPayloadRead fuel m output offset size).bind fun r =>
      readParts fuel r.1 (output + r.2.toNat) (offset + r.2) sizes

/-- The sum of some sizes. -/
def totalSize (sizes : List UInt32) : ℕ := (sizes.map UInt32.toNat).sum

/-- A buffer of `n` bytes at `output` has been filled with the payload from `offset` on, and nothing
else has been changed. -/
structure Filled (m m' : ℤ → UInt8) (output : ℤ) (offset : UInt32) (n : ℕ) : Prop where
  /-- The bytes of the payload. -/
  bytes : ∀ k < n, testData[(offset.toNat + k) % 16]? = some (m' (output + k))
  /-- The rest of the memory. -/
  frame : ∀ x, x < output ∨ output + n ≤ x → m' x = m x

/-! ### The payload -/

/-- The byte of the payload at a place. -/
def testByte (i : ℤ) : UInt8 := testData.getD (i % 16).toNat 0

/-- What belongs at an address, if the payload from `a` on is read to `output`. -/
def pattern (output a x : ℤ) : UInt8 := testByte (a + (x - output))

theorem getElem?_testData {i : ℕ} (h : i < 16) {j : ℤ} (hj : j % 16 = i) :
    testData[i]? = some (testByte j) := by
  have hlt : i < testData.length := h.trans (by decide)
  rw [testByte, hj, Int.toNat_natCast, List.getD_eq_getElem?_getD, List.getElem?_eq_getElem hlt,
    Option.getD_some]

/-- A piece of `test_data` that is copied where it belongs. -/
theorem memcpy_eq_painted {m : ℤ → UInt8} {output a dst : ℤ} {start n : ℕ} (hn : start + n ≤ 16)
    (hdst : (a + (dst - output)) % 16 = start % 16) :
    memcpy m dst (testData.drop start) n = painted (pattern output a)
    (Set.Ico dst (dst + n)) m := by
  have hlen : ((testData.drop start).take n).length = n := by
    rw [List.length_take, List.length_drop, show testData.length = 17 from rfl]
    omega
  rw [memcpy, write_eq_painted (p := pattern output a), hlen]
  intro i hi
  rw [hlen] at hi
  rw [List.getElem?_take_of_lt hi, List.getElem?_drop]
  exact getElem?_testData (by omega) (by omega)

/-- Going on from one buffer to the next. -/
theorem pattern_add (output a n : ℤ) : pattern (output + n) (a + n) = pattern output a := by
  funext x
  rw [pattern, pattern]
  congr 1
  omega

/-! ### One call -/

/-- The next multiple of sixteen. -/
def roundUp (b : ℤ) : ℤ := (b + 15) / 16 * 16

theorem roundUp_spec (b : ℤ) : b ≤ roundUp b ∧ roundUp b < b + 16 ∧ roundUp b % 16 = 0 := by
  rw [roundUp]
  omega

/-- The state of the loop: `start` is where the place that is written next lies in `test_data`, and
is zero but for the first turn. -/
structure CopyState (a : ℤ) (soFar : UInt32) (start : UInt8) : Prop where
  /-- The place. -/
  start_eq : (start.toNat : ℤ) = (a + soFar.toNat) % 16
  /-- The first turn. -/
  first : start.toNat = 0 ∨ soFar.toNat = 0

theorem CopyState.initial {a : ℤ} {offset : UInt32} (ha : a % 16 = offset.toNat % 16) :
    CopyState a 0 (offset % 16).toUInt8 := by
  have hlt : offset.toNat % 16 < 16 := Nat.mod_lt _ (by decide)
  have hstart : (offset % 16).toUInt8.toNat = offset.toNat % 16 := by
    rw [UInt32.toNat_toUInt8, UInt32.toNat_mod, show (16 : UInt32).toNat = 16 from rfl]
    omega
  refine ⟨?_, .inr rfl⟩
  rw [hstart, UInt32.toNat_zero]
  omega

/-- `so_far` after a turn. -/
theorem CopyState.toNat_next {a : ℤ} {soFar : UInt32} {start : UInt8}
    (h : CopyState a soFar start) :
    (soFar + (16 - start.toUInt32)).toNat = (soFar.toNat + (16 - start.toNat)) % 2 ^ 32 := by
  have hstart := h.start_eq
  have hle : start.toUInt32 ≤ 16 := by
    rw [UInt32.le_iff_toNat_le, UInt8.toNat_toUInt32, show (16 : UInt32).toNat = 16 from rfl]
    omega
  rw [UInt32.toNat_add, UInt32.toNat_sub_of_le _ _ hle, UInt8.toNat_toUInt32,
    show (16 : UInt32).toNat = 16 from rfl]

theorem CopyState.next {a : ℤ} {soFar : UInt32} {start : UInt8} (h : CopyState a soFar start) :
    CopyState a (soFar + (16 - start.toUInt32)) 0 := by
  have hstart := h.start_eq
  refine ⟨?_, .inl rfl⟩
  rw [h.toNat_next, UInt8.toNat_zero]
  omega

variable {output a : ℤ} {size soFar : UInt32} {start : UInt8} {m : ℤ → UInt8}

/-- When the loop is left, it has come to a multiple of sixteen. -/
theorem CopyState.leave (h : CopyState a soFar start) (hpos : 0 < size.toNat)
    (hdone : ¬ soFar < size) :
    roundUp (a + size.toNat) ≤ a + soFar.toNat := by
  obtain ⟨-, hlt, hmultiple⟩ := roundUp_spec (a + size.toNat)
  have hstart := h.start_eq
  rw [UInt32.lt_iff_toNat_lt] at hdone
  rcases h.first with hzero | hzero <;> omega

/-- Otherwise the next turn does not go beyond the next multiple of sixteen. -/
theorem CopyState.next_le (h : CopyState a soFar start) (hmore : soFar < size) :
    a + soFar.toNat + (16 - start.toNat) ≤ roundUp (a + size.toNat) := by
  obtain ⟨hge, -, hmultiple⟩ := roundUp_spec (a + size.toNat)
  have hstart := h.start_eq
  rw [UInt32.lt_iff_toNat_lt] at hmore
  omega

/-- The loop ends at the next multiple of sixteen, if that is still a number of 32 bits. -/
theorem copyBlocks_eq (hpos : 0 < size.toNat) (hend : roundUp (a + size.toNat) - a < 2 ^ 32)
    {fuel : ℕ} (h : CopyState a soFar start) (hle : a + soFar.toNat ≤ roundUp (a + size.toNat))
    (hfuel : roundUp (a + size.toNat) - (a + soFar.toNat) + start.toNat ≤ 16 * fuel) :
    ∃ last : UInt32, a + last.toNat = roundUp (a + size.toNat) ∧
      copyBlocks output size (fuel + 1) m soFar start =
      some (painted (pattern output a) (Set.Ico (output + soFar.toNat) (output + last.toNat)) m,
        last) := by
  induction fuel generalizing m soFar start with
  | zero =>
    have hge := (roundUp_spec (a + size.toNat)).1
    have hdone : ¬ soFar < size := by
      rw [UInt32.lt_iff_toNat_lt]
      omega
    refine ⟨soFar, le_antisymm hle (h.leave hpos hdone), ?_⟩
    rw [copyBlocks, if_neg hdone, Set.Ico_self, painted_empty]
  | succ fuel ih =>
    rw [copyBlocks]
    by_cases hmore : soFar < size
    · have hstart := h.start_eq
      have hnext := h.next_le hmore
      have hsoFar : (soFar + (16 - start.toUInt32)).toNat = soFar.toNat + (16 - start.toNat) := by
        rw [h.toNat_next]
        omega
      have hblock : memcpy m (output + soFar.toNat) (testData.drop start.toNat) (16 - start.toNat) =
          painted (pattern output a)
            (Set.Ico (output + soFar.toNat) (output + soFar.toNat + (16 - start.toNat : ℕ))) m :=
        memcpy_eq_painted (by omega) (by omega)
      obtain ⟨last, hlast, hrest⟩ := @ih (soFar + (16 - start.toUInt32)) 0
        (memcpy m (output + soFar.toNat) (testData.drop start.toNat) (16 - start.toNat)) h.next
        (by rw [hsoFar]; omega) (by rw [hsoFar, UInt8.toNat_zero]; omega)
      refine ⟨last, hlast, ?_⟩
      rw [if_pos hmore, hrest, hblock, painted_painted, hsoFar]
      congr 3
      ext x
      simp only [Set.mem_union, Set.mem_Ico]
      omega
    · refine ⟨soFar, le_antisymm hle (h.leave hpos hmore), ?_⟩
      rw [if_neg hmore, Set.Ico_self, painted_empty]

/-- If it is not, the loop does not end: `so_far` starts from zero again before it has come to
`size`. -/
theorem copyBlocks_eq_none (hend : 2 ^ 32 ≤ roundUp (a + size.toNat) - a)
    (h : CopyState a soFar start) (fuel : ℕ) :
    copyBlocks output size fuel m soFar start = none := by
  induction fuel generalizing m soFar start with
  | zero => rfl
  | succ fuel ih =>
    have hmore : soFar < size := by
      by_contra hdone
      have hlt := soFar.toNat_lt
      have hround := (roundUp_spec (a + size.toNat)).2.1
      have hleave := h.leave (by omega) hdone
      omega
    rw [copyBlocks, if_pos hmore]
    exact ih h.next

/-- More turns do not change the result. -/
theorem copyBlocks_mono {fuel fuel' : ℕ} (hle : fuel ≤ fuel') {r : (ℤ → UInt8) × UInt32}
    (h : copyBlocks output size fuel m soFar start = some r) :
    copyBlocks output size fuel' m soFar start = some r := by
  induction fuel generalizing fuel' m soFar start with
  | zero => cases h
  | succ fuel ih =>
    cases fuel' with
    | zero => omega
    | succ fuel' =>
      rw [copyBlocks] at h ⊢
      split_ifs at h ⊢ with hmore
      · exact ih (by omega) h
      · exact h

/-- The places of the payload that a read of `n` bytes at `a` writes: up to the next multiple of
sixteen, and once more some of the sixteen before it. -/
def reach (a : ℤ) (n : ℕ) : Set ℤ :=
  {y | n ≠ 0 ∧ (a ≤ y ∧ y < roundUp (a + n) ∨
    roundUp (a + n) - 16 ≤ y ∧ y < roundUp (a + n) - 16 + (roundUp (a + n) - (a + n)))}

variable {offset : UInt32}

/-- The blocks of the loop, and the excess that is written after it. -/
theorem blocks_union_excess {n last : ℕ} (hn : n ≠ 0) (hlast : a + last = roundUp (a + n)) :
    Set.Ico output (output + last) ∪ Set.Ico (output + last - 16)
    (output + last - 16 + (last - n : ℕ)) =
      {x | a + (x - output) ∈ reach a n} := by
  obtain ⟨hge, -, -⟩ := roundUp_spec (a + n)
  ext x
  simp only [reach, ← hlast, Set.mem_union, Set.mem_Ico, Set.mem_ofPred_eq]
  omega

/-- A call whose blocks end within 32 bits returns, and has written what belongs there to the places
in its reach. -/
theorem testMemoryPayloadRead_eq (ha : a % 16 = offset.toNat % 16)
    (hend : roundUp (a + size.toNat) - a < 2 ^ 32) {fuel : ℕ} (hfuel : 2 ^ 28 < fuel) :
    testMemoryPayloadRead fuel m output offset size =
      some (painted (pattern output a) {x | a + (x - output) ∈ reach a size.toNat} m, size) := by
  obtain ⟨fuel, rfl⟩ := Nat.exists_eq_succ_of_ne_zero (show fuel ≠ 0 by omega)
  have hstate := CopyState.initial ha
  rcases Nat.eq_zero_or_pos size.toNat with hzero | hpos
  · obtain rfl : size = 0 := UInt32.toNat_inj.mp hzero
    have hnone : {x | a + (x - output) ∈ reach a (0 : UInt32).toNat} = ∅ := by
      ext x
      simp [reach]
    rw [hnone, painted_empty]
    rfl
  · obtain ⟨hge, hlt, hmultiple⟩ := roundUp_spec (a + size.toNat)
    have hstart := hstate.start_eq
    rw [UInt32.toNat_zero] at hstart
    obtain ⟨last, hlast, hblocks⟩ := @copyBlocks_eq output a size 0 _ m hpos hend fuel hstate
      (by rw [UInt32.toNat_zero]; omega) (by rw [UInt32.toNat_zero]; omega)
    rw [UInt32.toNat_zero, Nat.cast_zero, add_zero] at hblocks
    have hreach := @blocks_union_excess output a _ _ hpos.ne' hlast
    rw [testMemoryPayloadRead, hblocks, Option.map_some, ← hreach, ← painted_painted]
    congr 1
    dsimp only
    split_ifs with hmore
    · have hexcess : (last - size).toNat = last.toNat - size.toNat :=
        UInt32.toNat_sub_of_le _ _ (UInt32.le_of_lt hmore)
      have hpatch := @memcpy_eq_painted
        (painted (pattern output a) (Set.Ico output (output + last.toNat)) m) output a
        (output + last.toNat - 16) 0 (last - size).toNat (by omega) (by omega)
      rw [List.drop_zero] at hpatch
      rw [hpatch, hexcess]
    · have hle : last.toNat - size.toNat = 0 := by
        rw [gt_iff_lt, UInt32.lt_iff_toNat_lt] at hmore
        omega
      rw [hle, Nat.cast_zero, add_zero, Set.Ico_self, painted_empty]

/-- Other calls do not return. -/
theorem testMemoryPayloadRead_eq_none (ha : a % 16 = offset.toNat % 16)
    (hend : 2 ^ 32 ≤ roundUp (a + size.toNat) - a) (fuel : ℕ) :
    testMemoryPayloadRead fuel m output offset size = none := by
  rw [testMemoryPayloadRead, copyBlocks_eq_none hend (.initial ha)]
  rfl

/-- **What a call does**, if it returns: everything it has written, in the buffer or outside it,
belongs where it is. -/
theorem testMemoryPayloadRead_spec (ha : a % 16 = offset.toNat % 16) {fuel : ℕ}
    {r : (ℤ → UInt8) × UInt32} (h : testMemoryPayloadRead fuel m output offset size = some r) :
    r = (painted (pattern output a) {x | a + (x - output) ∈ reach a size.toNat} m, size) := by
  by_cases hend : roundUp (a + size.toNat) - a < 2 ^ 32
  · obtain ⟨r', hblocks, rfl⟩ := Option.map_eq_some_iff.mp h
    have hmore : testMemoryPayloadRead (fuel + (2 ^ 28 + 1)) m output offset size = some _ :=
      Option.map_eq_some_iff.mpr ⟨r', copyBlocks_mono (by omega) hblocks, rfl⟩
    rw [testMemoryPayloadRead_eq ha hend (by omega)] at hmore
    exact (Option.some.inj hmore).symm
  · rw [testMemoryPayloadRead_eq_none ha (not_lt.mp hend)] at h
    cases h

/-! ### Some calls -/

/-- The places that some calls write, from `a` on. -/
def reachAll (a : ℤ) : List UInt32 → Set ℤ
  | [] => ∅
  | size :: sizes => reach a size.toNat ∪ reachAll (a + size.toNat) sizes

@[simp] theorem totalSize_cons (size : UInt32) (sizes : List UInt32) :
    totalSize (size :: sizes) = size.toNat + totalSize sizes := rfl

@[simp] theorem reach_zero : reach a 0 = ∅ := by
  ext y
  simp [reach]

/-- Rounding up keeps the order. -/
theorem roundUp_mono {b c : ℤ} (h : b ≤ c) : roundUp b ≤ roundUp c := by
  rw [roundUp, roundUp]
  omega

/-- The place a call goes on from, in the payload and modulo sixteen. -/
theorem add_toNat_mod (ha : a % 16 = offset.toNat % 16) :
    (a + size.toNat) % 16 = (offset + size).toNat % 16 := by
  rw [UInt32.toNat_add]
  omega

/-- What some calls do, if they all return. -/
theorem readParts_spec {fuel : ℕ} {sizes : List UInt32} {m' : ℤ → UInt8}
    (ha : a % 16 = offset.toNat % 16) (h : readParts fuel m output offset sizes = some m') :
    m' = painted (pattern output a) {x | a + (x - output) ∈ reachAll a sizes} m := by
  induction sizes generalizing m output offset a with
  | nil =>
    obtain rfl := Option.some.inj h
    exact painted_empty.symm
  | cons size sizes ih =>
    obtain ⟨r, hr, hrest⟩ := Option.bind_eq_some_iff.mp h
    obtain rfl := testMemoryPayloadRead_spec ha hr
    rw [ih (add_toNat_mod ha) hrest, pattern_add, painted_painted]
    congr 1
    ext x
    simp only [reachAll, Set.mem_union, Set.mem_ofPred_eq]
    rw [show a + size.toNat + (x - (output + size.toNat)) = a + (x - output) by omega]

/-- They all return if their blocks end within 32 bits. -/
theorem exists_readParts {fuel : ℕ} (hfuel : 2 ^ 28 < fuel) {sizes : List UInt32}
    (ha : a % 16 = offset.toNat % 16) (hend : roundUp (a + totalSize sizes) - a < 2 ^ 32) :
    ∃ m', readParts fuel m output offset sizes = some m' := by
  induction sizes generalizing m output offset a with
  | nil => exact ⟨m, rfl⟩
  | cons size sizes ih =>
    rw [totalSize_cons, Nat.cast_add, ← add_assoc] at hend
    have hfirst : roundUp (a + size.toNat) ≤ roundUp (a + size.toNat + totalSize sizes) :=
      roundUp_mono (by omega)
    rw [readParts, testMemoryPayloadRead_eq ha (by omega) hfuel]
    refine ih (add_toNat_mod ha) ?_
    dsimp only
    omega

/-- Nothing is written behind the next multiple of sixteen, -/
theorem lt_of_mem_reachAll {sizes : List UInt32} {y : ℤ} (hy : y ∈ reachAll a sizes) :
    y < roundUp (a + totalSize sizes) := by
  induction sizes generalizing a with
  | nil => exact absurd hy (Set.notMem_empty y)
  | cons size sizes ih =>
    rw [totalSize_cons, Nat.cast_add, ← add_assoc]
    rcases hy with ⟨-, hfirst⟩ | hrest
    · obtain ⟨hge, hlt, -⟩ := roundUp_spec (a + size.toNat)
      have hmono : roundUp (a + size.toNat) ≤ roundUp (a + size.toNat + totalSize sizes) :=
        roundUp_mono (by omega)
      omega
    · exact ih hrest

/-- nor in front of the one before. -/
theorem le_of_mem_reachAll {sizes : List UInt32} {y : ℤ} (hy : y ∈ reachAll a sizes) :
    a - a % 16 ≤ y := by
  induction sizes generalizing a with
  | nil => exact absurd hy (Set.notMem_empty y)
  | cons size sizes ih =>
    rcases hy with ⟨hne, hfirst⟩ | hrest
    · obtain ⟨hge, -, hmultiple⟩ := roundUp_spec (a + size.toNat)
      omega
    · have hle := ih hrest
      omega

/-- Calls that ask for nothing write nothing. -/
theorem reachAll_eq_empty {sizes : List UInt32} (h : totalSize sizes = 0) :
    reachAll a sizes = ∅ := by
  induction sizes generalizing a with
  | nil => rfl
  | cons size sizes ih =>
    obtain ⟨hfirst, hrest⟩ := Nat.add_eq_zero_iff.mp h
    rw [reachAll, hfirst, reach_zero, ih hrest, Set.empty_union]

/-- All between the start and the next multiple of sixteen is written, if there is something to
write. -/
theorem mem_reachAll {sizes : List UInt32} (hpos : 0 < totalSize sizes) {y : ℤ} (hlo : a ≤ y)
    (hhi : y < roundUp (a + totalSize sizes)) : y ∈ reachAll a sizes := by
  induction sizes generalizing a with
  | nil => exact absurd hpos (Nat.lt_irrefl 0)
  | cons size sizes ih =>
    rw [totalSize_cons, Nat.cast_add, ← add_assoc] at hhi
    rw [totalSize_cons] at hpos
    by_cases hfirst : size.toNat ≠ 0 ∧ y < roundUp (a + size.toNat)
    · exact Or.inl ⟨hfirst.1, .inl ⟨hlo, hfirst.2⟩⟩
    · obtain ⟨hge, -, -⟩ := roundUp_spec (a + size.toNat)
      have hlo' : a + size.toNat ≤ y := by
        by_cases hzero : size.toNat = 0
        · omega
        · have hnot : ¬ y < roundUp (a + size.toNat) := fun h => hfirst ⟨hzero, h⟩
          omega
      have hpos' : 0 < totalSize sizes := by
        by_contra hno
        have hzero : totalSize sizes = 0 := by omega
        rw [hzero, Nat.cast_zero, add_zero] at hhi
        exact hfirst ⟨by omega, hhi⟩
      exact Or.inr (ih hpos' hlo' hhi)

/-- The first call that asks for something. -/
def firstSize (sizes : List UInt32) : Option UInt32 := sizes.find? (· ≠ 0)

/-- Something in front of the start is written exactly if the start is not a multiple of sixteen,
and the first call stays in front of the next one. -/
theorem exists_mem_reachAll_lt_iff {sizes : List UInt32} :
    (∃ y ∈ reachAll a sizes, y < a) ↔ ∃ n, firstSize sizes = some n ∧ a % 16 ≠ 0 ∧
      a % 16 + n.toNat < 16 := by
  induction sizes generalizing a with
  | nil => simp [reachAll, firstSize]
  | cons size sizes ih =>
    by_cases hzero : size = 0
    · subst hzero
      have hfirst : firstSize (0 :: sizes) = firstSize sizes := rfl
      have hreach : reachAll a (0 :: sizes) = reachAll a sizes := by
        rw [reachAll, UInt32.toNat_zero, reach_zero, Set.empty_union, Nat.cast_zero, add_zero]
      rw [hfirst, hreach, ih]
    · have hfirst : firstSize (size :: sizes) = some size := by
        simp [firstSize, hzero]
      have hne : size.toNat ≠ 0 := fun h => hzero (UInt32.toNat_inj.mp h)
      obtain ⟨hge, hlt, hmultiple⟩ := roundUp_spec (a + size.toNat)
      rw [hfirst]
      constructor
      · rintro ⟨y, hy, hya⟩
        refine ⟨size, rfl, ?_⟩
        rcases hy with ⟨-, hreach⟩ | hrest
        · omega
        · have hle := le_of_mem_reachAll hrest
          omega
      · rintro ⟨n, hn, hmod, hshort⟩
        obtain rfl := Option.some.inj hn
        refine ⟨a - a % 16, Or.inl ⟨hne, .inr ?_⟩, by omega⟩
        omega

/-- Some calls write exactly what they are asked for if and only if the last one ends at a multiple
of sixteen, and the first one does not stay between two of them. -/
theorem reachAll_eq_iff {sizes : List UInt32} : reachAll a sizes = Set.Ico a (a + totalSize sizes) ↔
    (totalSize sizes = 0 ∨ (a + totalSize sizes) % 16 = 0) ∧
      ∀ n, firstSize sizes = some n → a % 16 = 0 ∨ 16 ≤ a % 16 + n.toNat := by
  obtain ⟨hge, hlt, hmultiple⟩ := roundUp_spec (a + totalSize sizes)
  have hfront : (∀ n, firstSize sizes = some n → a % 16 = 0 ∨ 16 ≤ a % 16 + n.toNat) ↔
      ∀ y ∈ reachAll a sizes, a ≤ y := by
    have hiff := (@exists_mem_reachAll_lt_iff a sizes).not
    push Not at hiff
    rw [hiff]
    refine forall_congr' fun n => forall_congr' fun _ => ?_
    omega
  rw [hfront]
  constructor
  · intro h
    refine ⟨?_, fun y hy => ?_⟩
    · by_contra hno
      have hmem := @mem_reachAll a sizes (by omega) (a + totalSize sizes) (by omega) (by omega)
      rw [h, Set.mem_Ico] at hmem
      omega
    · rw [h] at hy
      exact hy.1
  · rintro ⟨hend, hlow⟩
    ext y
    rw [Set.mem_Ico]
    constructor
    · intro hy
      refine ⟨hlow y hy, ?_⟩
      rcases hend with hzero | hend
      · rw [reachAll_eq_empty hzero] at hy
        exact absurd hy (Set.notMem_empty y)
      · have hback := lt_of_mem_reachAll hy
        omega
    · rintro ⟨hlo, hhi⟩
      exact mem_reachAll (by omega) hlo (by omega)

/-- A buffer is filled, and nothing else, if it has the pattern and nothing else has changed. -/
theorem filled_iff {m' : ℤ → UInt8} {n : ℕ} : Filled m m' output offset n ↔
    (∀ x ∈ Set.Ico output (output + n), m' x = pattern output offset.toNat x) ∧
      ∀ x ∉ Set.Ico output (output + n), m' x = m x := by
  have hbyte : ∀ k : ℕ, testData[(offset.toNat + k) % 16]? =
      some (pattern output offset.toNat (output + k)) := by
    intro k
    rw [pattern]
    exact getElem?_testData (Nat.mod_lt _ (by decide)) (by omega)
  constructor
  · rintro ⟨hbytes, hframe⟩
    refine ⟨fun x hx => ?_, fun x hx => hframe x ?_⟩
    · obtain ⟨k, hk⟩ := Int.eq_ofNat_of_zero_le (show 0 ≤ x - output by have := hx.1; omega)
      obtain rfl : x = output + k := by omega
      have hk' : k < n := by
        have := hx.2
        omega
      have hgot := hbytes k hk'
      rw [hbyte] at hgot
      exact (Option.some.inj hgot).symm
    · rw [Set.mem_Ico] at hx
      omega
  · rintro ⟨hbytes, hframe⟩
    refine ⟨fun k hk => ?_, fun x hx => hframe x ?_⟩
    · rw [hbyte, hbytes _ (Set.mem_Ico.mpr (by omega))]
    · rw [Set.mem_Ico]
      omega

/-- The places of the payload, and the addresses they are written to. -/
theorem preimage_reachAll_eq_iff {sizes : List UInt32} :
    {x | a + (x - output) ∈ reachAll a sizes} = Set.Ico output (output + totalSize sizes) ↔
      reachAll a sizes = Set.Ico a (a + totalSize sizes) := by
  rw [Set.ext_iff, Set.ext_iff]
  constructor
  · intro h y
    have hy := h (output + (y - a))
    rw [Set.mem_ofPred_eq, show a + (output + (y - a) - output) = y by omega] at hy
    rw [hy, Set.mem_Ico, Set.mem_Ico]
    omega
  · intro h x
    rw [Set.mem_ofPred_eq, h, Set.mem_Ico, Set.mem_Ico]
    omega

/-- Calls one after the other, whatever the memory holds. -/
theorem readParts_filled_iff {sizes : List UInt32} (hlt : totalSize sizes < 2 ^ 32) :
    (∀ m output, ∃ fuel m', readParts fuel m output offset sizes = some m' ∧
      Filled m m' output offset (totalSize sizes)) ↔
      (totalSize sizes = 0 ∨ 16 ∣ offset.toNat + totalSize sizes) ∧
        ∀ n, firstSize sizes = some n → 16 ∣ offset.toNat ∨ 16 ≤ offset.toNat % 16 + n.toNat := by
  have hcond : ((totalSize sizes = 0 ∨ 16 ∣ offset.toNat + totalSize sizes) ∧
        ∀ n, firstSize sizes = some n → 16 ∣ offset.toNat ∨ 16 ≤ offset.toNat % 16 + n.toNat) ↔
      reachAll offset.toNat sizes =
          Set.Ico (offset.toNat : ℤ) (offset.toNat + totalSize sizes) := by
    rw [reachAll_eq_iff]
    refine and_congr (by omega) (forall_congr' fun n => forall_congr' fun _ => by omega)
  have ha : (offset.toNat : ℤ) % 16 = offset.toNat % 16 := rfl
  have : Nontrivial UInt8 := ⟨0, 1, by decide⟩
  rw [hcond]
  constructor
  · intro h
    rw [← @preimage_reachAll_eq_iff 0 offset.toNat sizes]
    refine (@forall_painted_iff _ _ (pattern 0 offset.toNat) _ _ _).mp fun m => ?_
    obtain ⟨fuel, m', hm', hfilled⟩ := h m 0
    rw [readParts_spec ha hm'] at hfilled
    exact filled_iff.mp hfilled
  · intro h m output
    have hend : roundUp (offset.toNat + totalSize sizes) - offset.toNat < 2 ^ 32 := by
      obtain ⟨hge, hround, hmultiple⟩ := roundUp_spec (offset.toNat + totalSize sizes)
      have hdvd := (hcond.mpr h).1
      omega
    obtain ⟨m', hm'⟩ :=
      @exists_readParts output offset.toNat m offset (2 ^ 28 + 1) (Nat.lt_succ_self _) sizes ha hend
    refine ⟨_, m', hm', ?_⟩
    rw [readParts_spec ha hm', filled_iff]
    exact forall_painted_iff.mpr (preimage_reachAll_eq_iff.mpr h) m

/-- One call is the case of a single part. -/
theorem readParts_singleton {fuel : ℕ} {m' : ℤ → UInt8} :
    readParts fuel m output offset [size] = some m' ↔
    testMemoryPayloadRead fuel m output offset size = some (m', size) := by
  have hsize : ∀ r, testMemoryPayloadRead fuel m output offset size = some r → r.2 = size := by
    intro r hr
    rw [testMemoryPayloadRead_spec (a := offset.toNat) rfl hr]
  rw [readParts]
  cases hr : testMemoryPayloadRead fuel m output offset size with
  | none => simp
  | some r =>
    rw [Option.bind_some, readParts, Option.some_inj, Option.some_inj, Prod.ext_iff]
    exact ⟨fun h => ⟨h, hsize r hr⟩, fun h => h.1⟩

/-- **When a read of the built-in payload stays in its buffer.** For every offset and size: one
call, exactly if nothing is asked for or it ends at a multiple of sixteen; and calls one after the
other that make up the same range, exactly if that holds and the first of them does not stay between
two multiples of sixteen. -/
theorem memory_read_exact_iff (offset size : UInt32) {sizes : List UInt32}
    (hsizes : totalSize sizes = size.toNat) :
    ((∀ m output, ∃ fuel m', testMemoryPayloadRead fuel m output offset size = some (m', size) ∧
        Filled m m' output offset size.toNat) ↔
      size = 0 ∨ 16 ∣ offset.toNat + size.toNat) ∧
    ((∀ m output, ∃ fuel m', readParts fuel m output offset sizes = some m' ∧
      Filled m m' output offset size.toNat) ↔
      (size = 0 ∨ 16 ∣ offset.toNat + size.toNat) ∧
        ∀ n, firstSize sizes = some n → 16 ∣ offset.toNat ∨ 16 ≤ offset.toNat % 16 + n.toNat) := by
  have htotal : totalSize [size] = size.toNat := rfl
  have hone := @readParts_filled_iff offset [size] (by rw [htotal]; exact size.toNat_lt)
  have hparts := @readParts_filled_iff offset sizes (by rw [hsizes]; exact size.toNat_lt)
  simp only [readParts_singleton, htotal] at hone
  rw [hsizes] at hparts
  rw [← UInt32.toNat_inj, UInt32.toNat_zero]
  refine ⟨?_, hparts⟩
  rw [hone]
  constructor
  · exact fun h => h.1
  · intro h
    refine ⟨h, fun n hn => ?_⟩
    obtain rfl : size = n := List.mem_singleton.mp (List.mem_of_find?_eq_some hn) |>.symm
    have hne : size.toNat ≠ 0 := by
      intro hzero
      obtain rfl : size = 0 := UInt32.toNat_inj.mp hzero
      cases hn
    omega

/-- From the fifth byte of the payload on, by calls that end at multiples of sixteen or go on to the
next one. -/
theorem memory_read_exact_aligned : totalSize [12, 4, 28] = (44 : UInt32).toNat ∧
    (∃ fuel m', testMemoryPayloadRead fuel (fun _ => 0) 8 4 44 = some (m', 44) ∧
      Filled (fun _ => 0) m' 8 4 44) ∧
    ∃ fuel m', readParts fuel (fun _ => 0) 8 4 [12, 4, 28] = some m' ∧
      Filled (fun _ => 0) m' 8 4 44 := by
  have hsizes : totalSize [12, 4, 28] = (44 : UInt32).toNat := rfl
  obtain ⟨hone, hparts⟩ := memory_read_exact_iff 4 44 hsizes
  refine ⟨hsizes,
    hone.mpr (.inr (by decide)) _ _, hparts.mpr ⟨.inr (by decide), fun n hn => ?_⟩ _ _⟩
  obtain rfl : 12 = n := Option.some.inj hn
  exact .inr (by decide)

/-- Four bytes from the fifth on, for the second packet of a transfer in chunks of four: eight bytes
behind them are written, and the four in front of them, which are the session id of the packet. -/
theorem memory_read_exact_overrun :
    (testMemoryPayloadRead 2 (fun _ => 0) 8 4 4).map
      (fun r => [r.1 3, r.1 4, r.1 7, r.1 8, r.1 11, r.1 12, r.1 19, r.1 20]) =
      some [0, 48, 51, 52, 55, 56, 70, 0] ∧
    ¬ ∀ (offset size : UInt32) (m : ℤ → UInt8) (output : ℤ), ∃ fuel m',
      testMemoryPayloadRead fuel m output offset size = some (m', size) ∧
        Filled m m' output offset size.toNat := by
  refine ⟨by decide +kernel, fun h => ?_⟩
  obtain ⟨fuel, m', hm', hfilled⟩ := h 4 4 (fun _ => 0) 8
  obtain ⟨r, hr, hbyte⟩ : ∃ r, testMemoryPayloadRead 2 (fun _ => 0) 8 4 4 = some r ∧ r.1 7 = 51 :=
    ⟨_, rfl, by decide +kernel⟩
  have hsame : m' = r.1 := by
    rw [testMemoryPayloadRead_spec (a := 4) rfl hr]
    exact congrArg Prod.fst (testMemoryPayloadRead_spec (a := 4) rfl hm')
  have hframe := hfilled.frame 7 (.inl (by decide))
  rw [hsame, hbyte] at hframe
  cases hframe

/-! ### What holds in any case -/

/-- However a range is read, the bytes in it are the same, if the calls return. -/
theorem readParts_bytes {fuel : ℕ} {sizes : List UInt32} {m' : ℤ → UInt8}
    (h : readParts fuel m output offset sizes = some m') {k : ℕ} (hk : k < totalSize sizes) :
    testData[(offset.toNat + k) % 16]? = some (m' (output + k)) := by
  have hge := (roundUp_spec (offset.toNat + totalSize sizes)).1
  have hmem :
    output + (k : ℤ) ∈ {x | (offset.toNat : ℤ) + (x - output) ∈ reachAll offset.toNat sizes} :=
    mem_reachAll (by omega) (by omega) (by omega)
  rw [readParts_spec (a := offset.toNat) rfl h, painted_of_mem hmem, pattern]
  exact getElem?_testData (Nat.mod_lt _ (by decide)) (by omega)

/-- What a call writes of the eight bytes in front of its buffer. -/
theorem exists_mem_reach_header_iff {n : ℕ} : (∃ y ∈ reach a n, a - 8 ≤ y ∧ y < a) ↔
    n ≠ 0 ∧ a % 16 ≠ 0 ∧ a % 16 + n < 16 ∧ 2 * (a % 16) + n < 24 := by
  obtain ⟨hge, hlt, hmultiple⟩ := roundUp_spec (a + n)
  constructor
  · rintro ⟨y, ⟨hne, hreach⟩, hlo, hhi⟩
    omega
  · rintro ⟨hne, hmod, hshort, hearly⟩
    refine ⟨max (a - a % 16) (a - 8), ⟨hne, .inr ?_⟩, ?_⟩ <;> omega

/-- The eight bytes of the header of a packet, in front of its data, are kept by every call exactly
if nothing is asked for, or the call starts at a multiple of sixteen or reaches the next one, or
what it writes too early ends in front of the header. -/
theorem header_kept_iff (offset size : UInt32) :
    (∀ fuel m output r, testMemoryPayloadRead fuel m output offset size = some r →
      ∀ x, output - 8 ≤ x → x < output → r.1 x = m x) ↔
    size = 0 ∨ 16 ∣ offset.toNat ∨ 16 ≤ offset.toNat % 16 + size.toNat ∨
      24 ≤ 2 * (offset.toNat % 16) + size.toNat := by
  have hreach := @exists_mem_reach_header_iff offset.toNat size.toNat
  rw [← UInt32.toNat_inj, UInt32.toNat_zero]
  constructor
  · intro h
    by_contra hno
    obtain ⟨y, hy, hlo, hhi⟩ := hreach.mpr (by omega)
    have hlt := (roundUp_spec (offset.toNat + size.toNat)).2.1
    have : Nontrivial UInt8 := ⟨0, 1, by decide⟩
    obtain ⟨b, hb⟩ := exists_ne (pattern offset.toNat offset.toNat y)
    have hread := @testMemoryPayloadRead_eq offset.toNat offset.toNat size (fun _ => b) offset rfl
      (by omega) (2 ^ 28 + 1)
      (Nat.lt_succ_self _)
    have hmem :
        y ∈ {x | (offset.toNat : ℤ) + (x - offset.toNat) ∈ reach offset.toNat size.toNat} := by
      rwa [Set.mem_ofPred_eq, show (offset.toNat : ℤ) + (y - offset.toNat) = y by omega]
    have hkept := h _ _ _ _ hread y hlo hhi
    dsimp only at hkept
    rw [painted_of_mem hmem] at hkept
    exact hb hkept.symm
  · intro h fuel m output r hr x hlo hhi
    rw [testMemoryPayloadRead_spec (a := offset.toNat) rfl hr]
    refine painted_of_notMem fun hx => ?_
    obtain ⟨hne, hmod, hshort, hearly⟩ := hreach.mp ⟨_, hx, by omega, by omega⟩
    omega

end LibDtp
