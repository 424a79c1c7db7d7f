import Mathlib.Data.Nat.Basic
import Mathlib.Tactic.Ring

/-!
# Bytes

Words as the bytes a host stores them in. The byte order is a parameter, so that a statement can be
about hosts of either kind, or about two hosts of different kinds.

`store o n v` is the `n` bytes of `v` and `load o bs` is the number the bytes spell; each undoes the
other on words of that width.
-/

namespace Bytes

/-- The order in which a host stores the bytes of a word. -/
inductive ByteOrder where
  /-- The least significant byte comes first. -/
  | little
  /-- The most significant byte comes first. -/
  | big
  deriving DecidableEq, Repr

/-- The low `n` bytes of `v`, the least significant one first. -/
def leBytes : ℕ → ℕ → List UInt8
  | 0, _ => []
  | n + 1, v => UInt8.ofNat v :: leBytes n (v / 256)

/-- The number that bytes spell, the least significant one first. -/
def leValue : List UInt8 → ℕ
  | [] => 0
  | b :: bs => b.toNat + 256 * leValue bs

@[simp] theorem length_leBytes (n v : ℕ) : (leBytes n v).length = n := by
  induction n generalizing v with
  | zero => rfl
  | succ n ih => simp [leBytes, ih]

theorem leValue_leBytes (n v : ℕ) : leValue (leBytes n v) = v % 256 ^ n := by
  induction n generalizing v with
  | zero => simp [leBytes, leValue, Nat.mod_one]
  | succ n ih =>
    rw [leBytes, leValue, ih, Nat.pow_succ, Nat.mul_comm (256 ^ n), Nat.mod_mul]
    simp

theorem leBytes_leValue (bs : List UInt8) : leBytes bs.length (leValue bs) = bs := by
  induction bs with
  | nil => rfl
  | cons b bs ih =>
    have hb := b.toNat_lt
    have hdiv : (b.toNat + 256 * leValue bs) / 256 = leValue bs := by omega
    rw [List.length_cons, leBytes, leValue, hdiv, ih]
    simp

theorem leValue_lt (bs : List UInt8) : leValue bs < 256 ^ bs.length := by
  induction bs with
  | nil => simp [leValue]
  | cons b bs ih =>
    have hb := b.toNat_lt
    rw [leValue, List.length_cons, Nat.pow_succ]
    omega

namespace ByteOrder

/-- The bytes of an `n`-byte word. -/
def store (o : ByteOrder) (n v : ℕ) : List UInt8 :=
  match o with
  | .little => leBytes n v
  | .big => (leBytes n v).reverse

/-- The word that bytes hold. -/
def load (o : ByteOrder) (bs : List UInt8) : ℕ :=
  match o with
  | .little => leValue bs
  | .big => leValue bs.reverse

@[simp] theorem length_store (o : ByteOrder) (n v : ℕ) : (o.store n v).length = n := by
  cases o <;> simp [store]

/-- What was stored is loaded again, up to the width of the word. -/
theorem load_store (o : ByteOrder) (n v : ℕ) : o.load (o.store n v) = v % 256 ^ n := by
  cases o <;> simp [store, load, leValue_leBytes]

/-- What was loaded is stored again. -/
theorem store_load (o : ByteOrder) {n : ℕ} {bs : List UInt8} (h : bs.length = n) :
    o.store n (o.load bs) = bs := by
  subst h
  cases o with
  | little => exact leBytes_leValue bs
  | big =>
    have := leBytes_leValue bs.reverse
    rw [List.length_reverse] at this
    simp [store, load, this]

theorem load_lt (o : ByteOrder) (bs : List UInt8) : o.load bs < 256 ^ bs.length := by
  cases o with
  | little => exact leValue_lt bs
  | big => simpa [load] using leValue_lt bs.reverse

/-- The 16-bit word at offset `i`. -/
def word16 (o : ByteOrder) (bs : List UInt8) (i : ℕ) : UInt16 :=
  UInt16.ofNat (o.load ((bs.drop i).take 2))

/-- The 32-bit word at offset `i`. -/
def word32 (o : ByteOrder) (bs : List UInt8) (i : ℕ) : UInt32 :=
  UInt32.ofNat (o.load ((bs.drop i).take 4))

/-- The 64-bit word at offset `i`. -/
def word64 (o : ByteOrder) (bs : List UInt8) (i : ℕ) : UInt64 :=
  UInt64.ofNat (o.load ((bs.drop i).take 8))

/-- `be16toh`: the word whose bytes, in the host's order, are read as big-endian. -/
def be16toh (o : ByteOrder) (x : UInt16) : UInt16 :=
  UInt16.ofNat (ByteOrder.big.load (o.store 2 x.toNat))

/-- `be32toh`. -/
def be32toh (o : ByteOrder) (x : UInt32) : UInt32 :=
  UInt32.ofNat (ByteOrder.big.load (o.store 4 x.toNat))

/-- `be64toh`. -/
def be64toh (o : ByteOrder) (x : UInt64) : UInt64 :=
  UInt64.ofNat (ByteOrder.big.load (o.store 8 x.toNat))

/-- `htobe16`: the word whose bytes, in the host's order, are the big-endian ones. -/
def htobe16 (o : ByteOrder) (x : UInt16) : UInt16 :=
  UInt16.ofNat (o.load (ByteOrder.big.store 2 x.toNat))

/-- `htobe32`. -/
def htobe32 (o : ByteOrder) (x : UInt32) : UInt32 :=
  UInt32.ofNat (o.load (ByteOrder.big.store 4 x.toNat))

/-- `htobe64`. -/
def htobe64 (o : ByteOrder) (x : UInt64) : UInt64 :=
  UInt64.ofNat (o.load (ByteOrder.big.store 8 x.toNat))

/-- A word sent as big-endian is received, by a host of either order. -/
@[simp] theorem be32toh_htobe32 (o : ByteOrder) (x : UInt32) : o.be32toh (o.htobe32 x) = x := by
  have hlt := o.load_lt (ByteOrder.big.store 4 x.toNat)
  rw [length_store] at hlt
  rw [be32toh, htobe32, UInt32.toNat_ofNat_of_lt' hlt, store_load o (length_store _ _ _),
    load_store, Nat.mod_eq_of_lt (show x.toNat < 256 ^ 4 from x.toNat_lt), UInt32.ofNat_toNat]

/-! ### Big-endian words between two hosts

The bytes of a `htobe` word are the big-endian ones, whatever the order of the host that stores it,
and a `be...toh` of a word that was read is what a big-endian host would read. -/

section Network

variable (o : ByteOrder) {bs : List UInt8} {i : ℕ}

theorem store_htobe16 (x : UInt16) :
    o.store 2 (o.htobe16 x).toNat = ByteOrder.big.store 2 x.toNat := by
  have hlt := o.load_lt (ByteOrder.big.store 2 x.toNat)
  rw [length_store] at hlt
  rw [htobe16, UInt16.toNat_ofNat_of_lt' hlt, store_load o (length_store _ _ _)]

theorem store_htobe32 (x : UInt32) :
    o.store 4 (o.htobe32 x).toNat = ByteOrder.big.store 4 x.toNat := by
  have hlt := o.load_lt (ByteOrder.big.store 4 x.toNat)
  rw [length_store] at hlt
  rw [htobe32, UInt32.toNat_ofNat_of_lt' hlt, store_load o (length_store _ _ _)]

theorem store_htobe64 (x : UInt64) :
    o.store 8 (o.htobe64 x).toNat = ByteOrder.big.store 8 x.toNat := by
  have hlt := o.load_lt (ByteOrder.big.store 8 x.toNat)
  rw [length_store] at hlt
  rw [htobe64, UInt64.toNat_ofNat_of_lt' hlt, store_load o (length_store _ _ _)]

theorem be16toh_word16 (h : ((bs.drop i).take 2).length = 2) :
    o.be16toh (o.word16 bs i) = ByteOrder.big.word16 bs i := by
  have hlt := o.load_lt ((bs.drop i).take 2)
  rw [h] at hlt
  rw [be16toh, word16, UInt16.toNat_ofNat_of_lt' hlt, store_load o h, word16]

theorem be32toh_word32 (h : ((bs.drop i).take 4).length = 4) :
    o.be32toh (o.word32 bs i) = ByteOrder.big.word32 bs i := by
  have hlt := o.load_lt ((bs.drop i).take 4)
  rw [h] at hlt
  rw [be32toh, word32, UInt32.toNat_ofNat_of_lt' hlt, store_load o h, word32]

theorem be64toh_word64 (h : ((bs.drop i).take 8).length = 8) :
    o.be64toh (o.word64 bs i) = ByteOrder.big.word64 bs i := by
  have hlt := o.load_lt ((bs.drop i).take 8)
  rw [h] at hlt
  rw [be64toh, word64, UInt64.toNat_ofNat_of_lt' hlt, store_load o h, word64]

end Network

/-! ### Words that are stored and read back -/

section Stored

variable (o : ByteOrder) {bs : List UInt8} {i : ℕ}

theorem word16_of_take {x : UInt16} (h : (bs.drop i).take 2 = o.store 2 x.toNat) :
    o.word16 bs i = x := by
  rw [word16, h, load_store, Nat.mod_eq_of_lt (show x.toNat < 256 ^ 2 from x.toNat_lt),
    UInt16.ofNat_toNat]

theorem word32_of_take {x : UInt32} (h : (bs.drop i).take 4 = o.store 4 x.toNat) :
    o.word32 bs i = x := by
  rw [word32, h, load_store, Nat.mod_eq_of_lt (show x.toNat < 256 ^ 4 from x.toNat_lt),
    UInt32.ofNat_toNat]

theorem word64_of_take {x : UInt64} (h : (bs.drop i).take 8 = o.store 8 x.toNat) :
    o.word64 bs i = x := by
  rw [word64, h, load_store, Nat.mod_eq_of_lt (show x.toNat < 256 ^ 8 from x.toNat_lt),
    UInt64.ofNat_toNat]

/-- A 16-bit word that a host sends as a big-endian one is what the other host receives. -/
theorem be16toh_of_take (o' : ByteOrder) {x : UInt16}
    (h : (bs.drop i).take 2 = o'.store 2 (o'.htobe16 x).toNat) :
    o.be16toh (o.word16 bs i) = x := by
  rw [be16toh_word16 o (by rw [h, length_store])]
  rw [store_htobe16] at h
  exact word16_of_take _ h

/-- A 32-bit word. -/
theorem be32toh_of_take (o' : ByteOrder) {x : UInt32}
    (h : (bs.drop i).take 4 = o'.store 4 (o'.htobe32 x).toNat) :
    o.be32toh (o.word32 bs i) = x := by
  rw [be32toh_word32 o (by rw [h, length_store])]
  rw [store_htobe32] at h
  exact word32_of_take _ h

/-- A 64-bit word. -/
theorem be64toh_of_take (o' : ByteOrder) {x : UInt64}
    (h : (bs.drop i).take 8 = o'.store 8 (o'.htobe64 x).toNat) :
    o.be64toh (o.word64 bs i) = x := by
  rw [be64toh_word64 o (by rw [h, length_store])]
  rw [store_htobe64] at h
  exact word64_of_take _ h

end Stored

end ByteOrder

end Bytes
