import LibDtp.Foundation.Bytes

/-!
# Files

A file is the list of its bytes. `fwrite` at a position replaces what is there, and fills up with
zeros where the position lies behind the end; `fread` of a word takes what there is, and leaves the
bytes of the word for which there is nothing as they were.
-/

namespace Files

open Bytes

/-- `fseek` to `pos` and `fwrite` of `data`. -/
def writeAt (file : List UInt8) (pos : ℕ) (data : List UInt8) : List UInt8 :=
  if data = [] then file
  else file.take pos ++ List.replicate (pos - file.length) 0 ++ data ++ file.drop
    (pos + data.length)

variable {file data : List UInt8} {pos i : ℕ}

/-- What was written is there. -/
theorem getElem?_writeAt (h1 : pos ≤ i) (h2 : i < pos + data.length) :
    (writeAt file pos data)[i]? = data[i - pos]? := by
  have hne : data ≠ [] := by
    rintro rfl
    simp only [List.length_nil, Nat.add_zero] at h2
    omega
  have hlen : (file.take pos ++ List.replicate (pos - file.length) 0).length = pos := by
    simp only [List.length_append, List.length_take, List.length_replicate]
    omega
  rw [writeAt, if_neg hne, List.getElem?_append_left (by rw [List.length_append, hlen]; exact h2),
    List.getElem?_append_right (by rw [hlen]; exact h1), hlen]

/-- What was there before, and was not written over, is still there. -/
theorem getElem?_writeAt_of_outside {b : UInt8} (h : i < pos ∨ pos + data.length ≤ i)
    (hi : file[i]? = some b) :
    (writeAt file pos data)[i]? = some b := by
  unfold writeAt
  split_ifs
  · exact hi
  · have hlt : i < file.length := (List.getElem?_eq_some_iff.mp hi).1
    have hlen : (file.take pos ++ List.replicate (pos - file.length) 0).length = pos := by
      simp only [List.length_append, List.length_take, List.length_replicate]
      omega
    rcases h with h | h
    · rw [List.getElem?_append_left (by rw [List.length_append, hlen]; omega),
        List.getElem?_append_left (by rw [hlen]; exact h),
        List.getElem?_append_left (by rw [List.length_take]; omega), List.getElem?_take_of_lt h]
      exact hi
    · rw [List.getElem?_append_right
        (by rw [List.length_append, hlen]; exact h), List.length_append, hlen,
        List.getElem?_drop, show pos + data.length + (i - (pos + data.length)) = i by omega]
      exact hi

/-- What is written to an empty file is its end. -/
theorem length_writeAt_nil (h : data ≠ []) : (writeAt [] pos data).length = pos + data.length := by
  rw [writeAt, if_neg h]
  simp

/-- The file ends where it did, or with what was written. -/
theorem length_writeAt_le {n : ℕ} (hfile : file.length ≤ n) (hdata : pos + data.length ≤ n) :
    (writeAt file pos data).length ≤ n := by
  unfold writeAt
  split_ifs
  · exact hfile
  · simp only [List.length_append, List.length_take, List.length_replicate, List.length_drop]
    omega

/-- `fread` of an `n`-byte word, which holds `old`: the word, and what is left of the file. -/
def fread (o : ByteOrder) (n old : ℕ) (bs : List UInt8) : ℕ × List UInt8 :=
  (o.load (bs.take n ++ (o.store n old).drop bs.length), bs.drop n)

/-- A word that was written is read. -/
theorem fread_store (o : ByteOrder) (n old v : ℕ) (rest : List UInt8) :
    fread o n old (o.store n v ++ rest) = (v % 256 ^ n, rest) := by
  have hlen := o.length_store n v
  rw [fread, List.take_append_of_le_length
    (by omega), List.take_of_length_le (by omega), List.drop_append_of_le_length (by omega),
    List.drop_of_length_le (by simp), List.drop_of_length_le (by omega), List.append_nil,
      List.nil_append, o.load_store]

/-- `fread` of a byte. -/
def fread8 (old : UInt8) (bs : List UInt8) : UInt8 × List UInt8 := (bs.headD old, bs.tail)

/-- `fread` of a `uint16_t`. -/
def fread16 (o : ByteOrder) (old : UInt16) (bs : List UInt8) : UInt16 × List UInt8 :=
  (UInt16.ofNat (fread o 2 old.toNat bs).1, (fread o 2 old.toNat bs).2)

/-- `fread` of a `uint32_t`. -/
def fread32 (o : ByteOrder) (old : UInt32) (bs : List UInt8) : UInt32 × List UInt8 :=
  (UInt32.ofNat (fread o 4 old.toNat bs).1, (fread o 4 old.toNat bs).2)

@[simp] theorem fread8_cons (old v : UInt8) (rest : List UInt8) :
    fread8 old (v :: rest) = (v, rest) := rfl

@[simp] theorem fread16_store (o : ByteOrder) (old v : UInt16) (rest : List UInt8) :
    fread16 o old (o.store 2 v.toNat ++ rest) = (v, rest) := by
  rw [fread16, fread_store, Nat.mod_eq_of_lt (show v.toNat < 256 ^ 2 from v.toNat_lt),
    UInt16.ofNat_toNat]

@[simp] theorem fread32_store (o : ByteOrder) (old v : UInt32) (rest : List UInt8) :
    fread32 o old (o.store 4 v.toNat ++ rest) = (v, rest) := by
  rw [fread32, fread_store, Nat.mod_eq_of_lt (show v.toNat < 256 ^ 4 from v.toNat_lt),
    UInt32.ofNat_toNat]

end Files
