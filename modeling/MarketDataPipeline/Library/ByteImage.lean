/-
# MarketDataPipeline.Library.ByteImage — memory images of packed, fixed-width data.

An `Image α` is the memory layout of a type whose every bit pattern is a value: `put` is the image of
a value, `get` takes a value off the front of a byte string and fails exactly when the string is
shorter than the image (a copy past the end of a buffer).  Images compose: `prod` lays two of them out
without padding between them, `iso` renames the fields, so a packed struct is a product of its
members.

Integers are stored the way a little-endian host stores them (`leDigits`, least significant byte
first).  `bigEndian` is network order.  `leDigits_eq_bigEndian` turns a statement about the bits of
two words into one about the order of their bytes; it is what a byte-swap is proved correct with.
-/
import Mathlib.Data.Nat.Bitwise
import Mathlib.Logic.Equiv.Prod
import Mathlib.Tactic.IntervalCases

namespace MarketDataPipeline.Library.ByteImage

universe u v

/-! ## Little-endian digits -/

/-- The `w` low bytes of `n`, least significant first. -/
def leDigits : Nat → Nat → List UInt8
  | 0, _ => []
  | w + 1, n => UInt8.ofNat n :: leDigits w (n / 256)

/-- The number that a string of bytes denotes, least significant first. -/
def leValue : List UInt8 → Nat
  | [] => 0
  | b :: bs => b.toNat + 256 * leValue bs

/-- The `w` low bytes of `n`, most significant first: network order. -/
def bigEndian (w n : Nat) : List UInt8 := (leDigits w n).reverse

@[simp] theorem leDigits_length (w n : Nat) : (leDigits w n).length = w := by
  induction w generalizing n with
  | zero => rfl
  | succ w ih => rw [leDigits, List.length_cons, ih]

@[simp] theorem bigEndian_length (w n : Nat) : (bigEndian w n).length = w := by
  rw [bigEndian, List.length_reverse, leDigits_length]

theorem leValue_leDigits {w n : Nat} (h : n < 256 ^ w) : leValue (leDigits w n) = n := by
  induction w generalizing n with
  | zero => simp only [pow_zero, Nat.lt_one_iff] at h; simp [leDigits, leValue, h]
  | succ w ih =>
    have hq : n / 256 < 256 ^ w := by
      rw [Nat.pow_succ] at h
      exact Nat.div_lt_of_lt_mul (by omega)
    rw [leDigits, leValue, ih hq, UInt8.toNat_ofNat']
    omega

theorem leValue_lt (bs : List UInt8) : leValue bs < 256 ^ bs.length := by
  induction bs with
  | nil => simp [leValue]
  | cons b bs ih =>
    have hb := b.toNat_lt
    rw [leValue, List.length_cons, Nat.pow_succ]
    omega

theorem leDigits_leValue (bs : List UInt8) : leDigits bs.length (leValue bs) = bs := by
  induction bs with
  | nil => rfl
  | cons b bs ih =>
    have hb := b.toNat_lt
    have hdiv : (b.toNat + 256 * leValue bs) / 256 = leValue bs := by omega
    have hlow : UInt8.ofNat (b.toNat + 256 * leValue bs) = b := by
      apply UInt8.toNat_inj.mp
      rw [UInt8.toNat_ofNat']
      omega
    rw [List.length_cons, leValue, leDigits, hdiv, ih, hlow]

theorem leDigits_getElem (w n i : Nat) (hi : i < (leDigits w n).length) :
    (leDigits w n)[i] = UInt8.ofNat (n / 2 ^ (8 * i)) := by
  induction w generalizing n i with
  | zero => simp [leDigits] at hi
  | succ w ih =>
    cases i with
    | zero => simp [leDigits]
    | succ i =>
      simp only [leDigits, List.getElem_cons_succ]
      rw [ih, Nat.div_div_eq_div_mul, show 8 * (i + 1) = 8 + 8 * i by omega, Nat.pow_add]

/-- Bytes are compared bit by bit. -/
theorem ofNat_eq_of_testBit {a b : Nat} (h : ∀ r, r < 8 → a.testBit r = b.testBit r) :
    UInt8.ofNat a = UInt8.ofNat b := by
  apply UInt8.toNat_inj.mp
  rw [UInt8.toNat_ofNat', UInt8.toNat_ofNat']
  apply Nat.eq_of_testBit_eq
  intro r
  rw [Nat.testBit_mod_two_pow, Nat.testBit_mod_two_pow]
  by_cases hr : r < 8
  · rw [h r hr]
  · simp [hr]

/-- **Byte order from bits.** If bit `r` of byte `i` of `a` is bit `r` of byte `w - 1 - i` of `b`, then
`a` stored least significant byte first reads as `b` written most significant byte first. -/
theorem leDigits_eq_bigEndian {w a b : Nat}
    (h : ∀ k, k < 8 * w → a.testBit k = b.testBit (8 * (w - 1 - k / 8) + k % 8)) :
    leDigits w a = bigEndian w b := by
  apply List.ext_getElem
  · simp
  · intro i hi _
    have hw : i < w := by simpa using hi
    simp only [bigEndian, List.getElem_reverse, leDigits_getElem]
    apply ofNat_eq_of_testBit
    intro r hr
    rw [Nat.testBit_div_two_pow, Nat.testBit_div_two_pow, leDigits_length, Nat.add_comm r,
      Nat.add_comm r, h (8 * i + r) (by omega),
      show (8 * i + r) / 8 = i by omega, show (8 * i + r) % 8 = r by omega]

/-! ## Byte lanes of a word -/

/-- Bit `k` of the mask `0xFF` moved up `m` bytes. -/
theorem testBit_lane (m k : Nat) : (255 <<< (8 * m)).testBit k = decide (k / 8 = m) := by
  have h255 : ∀ j, Nat.testBit 255 j = decide (j < 8) := fun j => Nat.testBit_two_pow_sub_one 8 j
  rw [Nat.testBit_shiftLeft, h255]
  by_cases h : k / 8 = m
  · simp [h]; omega
  · simp [h]; omega

/-- Byte `m` of `n`, masked out and moved up `t` bytes. -/
theorem testBit_lane_up (n m t k : Nat) :
    ((n &&& 255 <<< (8 * m)) <<< (8 * t)).testBit k
      = (decide (k / 8 = m + t) && n.testBit (k - 8 * t)) := by
  rw [Nat.testBit_shiftLeft, Nat.testBit_and, testBit_lane]
  by_cases hk : 8 * t ≤ k
  · have hm : ((k - 8 * t) / 8 = m) = (k / 8 = m + t) := by apply propext; omega
    simp [hk, hm, Bool.and_comm]
  · have hm : ¬ (k / 8 = m + t) := by omega
    simp [hk, hm]

/-- Byte `m` of `n`, masked out and moved down `t` bytes. -/
theorem testBit_lane_down (n m t k : Nat) :
    ((n &&& 255 <<< (8 * m)) >>> (8 * t)).testBit k
      = (decide (k / 8 + t = m) && n.testBit (8 * t + k)) := by
  rw [Nat.testBit_shiftRight, Nat.testBit_and, testBit_lane]
  have hm : ((8 * t + k) / 8 = m) = (k / 8 + t = m) := by apply propext; omega
  simp [hm, Bool.and_comm]

/-! ## Images -/

/-- A packed memory layout: every string of `size` bytes is the image of exactly one value. -/
structure Image (α : Type u) where
  size : Nat
  put : α → List UInt8
  get : List UInt8 → Option (α × List UInt8)
  put_length : ∀ a, (put a).length = size
  get_put : ∀ a t, get (put a ++ t) = some (a, t)
  put_of_get : ∀ {b a t}, get b = some (a, t) → b = put a ++ t
  get_isSome : ∀ {b}, size ≤ b.length → (get b).isSome

namespace Image

variable {α : Type u} {β : Type v}

theorem get_eq_none {I : Image α} {b : List UInt8} (h : b.length < I.size) : I.get b = none := by
  cases hb : I.get b with
  | none => rfl
  | some p =>
    have hlen := congrArg List.length (I.put_of_get hb)
    rw [List.length_append, I.put_length] at hlen
    omega

/-- Enough bytes always hold a value, and it is the value of the first `size` of them. -/
theorem get_eq_some {I : Image α} {b : List UInt8} (h : I.size ≤ b.length) :
    ∃ a, I.get b = some (a, b.drop I.size) ∧ I.put a = b.take I.size := by
  obtain ⟨⟨a, t⟩, hat⟩ := Option.isSome_iff_exists.mp (I.get_isSome h)
  have hb := I.put_of_get hat
  refine ⟨a, ?_, ?_⟩
  · rw [hat, hb, List.drop_left' (I.put_length a)]
  · rw [hb, List.take_left' (I.put_length a)]

theorem put_injective (I : Image α) {a a' : α} (h : I.put a = I.put a') : a = a' := by
  have h1 := I.get_put a []
  rw [h, I.get_put a' []] at h1
  exact (congrArg Prod.fst (Option.some.inj h1)).symm

/-- What `get` reads depends only on the first `size` bytes. -/
theorem get_append {I : Image α} {b : List UInt8} {a : α} {t : List UInt8}
    (h : I.get b = some (a, t)) (t' : List UInt8) : I.get (b ++ t') = some (a, t ++ t') := by
  rw [I.put_of_get h, List.append_assoc, I.get_put]

/-- Two images one after the other, without padding. -/
def prod (I : Image α) (J : Image β) : Image (α × β) where
  size := I.size + J.size
  put p := I.put p.1 ++ J.put p.2
  get b := (I.get b).bind fun p => (J.get p.2).map fun q => ((p.1, q.1), q.2)
  put_length p := by rw [List.length_append, I.put_length, J.put_length]
  get_put p t := by
    rw [List.append_assoc, I.get_put]
    simp [J.get_put]
  put_of_get {b p t} h := by
    obtain ⟨⟨a, u⟩, ha, hJ⟩ := Option.bind_eq_some_iff.mp h
    obtain ⟨⟨c, w⟩, hc, hp⟩ := Option.map_eq_some_iff.mp hJ
    simp only [Prod.mk.injEq] at hc hp
    obtain ⟨rfl, rfl⟩ := hp
    rw [I.put_of_get ha, J.put_of_get hc, List.append_assoc]
  get_isSome {b} h := by
    obtain ⟨a, ha, -⟩ := get_eq_some (I := I) (b := b) (by omega)
    obtain ⟨c, hc, -⟩ := get_eq_some (I := J) (b := b.drop I.size)
      (by rw [List.length_drop]; omega)
    simp [ha, hc]

/-- The same layout seen through a bijection, such as a record and the tuple of its fields. -/
def iso (I : Image α) (e : α ≃ β) : Image β where
  size := I.size
  put b := I.put (e.symm b)
  get bs := (I.get bs).map fun p => (e p.1, p.2)
  put_length b := I.put_length _
  get_put b t := by simp [I.get_put]
  put_of_get {bs b t} h := by
    obtain ⟨⟨a, u⟩, ha, hp⟩ := Option.map_eq_some_iff.mp h
    simp only [Prod.mk.injEq] at hp
    obtain ⟨rfl, rfl⟩ := hp
    rw [I.put_of_get ha, Equiv.symm_apply_apply]
  get_isSome {b} h := by
    rw [Option.isSome_map]
    exact I.get_isSome h

/-- A `w`-byte word on a little-endian host, for a type that is the numbers below `256 ^ w`. -/
def word (w : Nat) (toNat : α → Nat) (ofNat : Nat → α) (lt : ∀ a, toNat a < 256 ^ w)
    (ofNat_toNat : ∀ a, ofNat (toNat a) = a)
    (toNat_ofNat : ∀ n, n < 256 ^ w → toNat (ofNat n) = n) : Image α where
  size := w
  put a := leDigits w (toNat a)
  get b := if w ≤ b.length then some (ofNat (leValue (b.take w)), b.drop w) else none
  put_length a := leDigits_length _ _
  get_put a t := by
    rw [if_pos (by simp), List.take_left' (leDigits_length _ _),
      List.drop_left' (leDigits_length _ _), leValue_leDigits (lt a), ofNat_toNat]
  put_of_get {b a t} h := by
    split at h
    · next hw =>
      simp only [Option.some.injEq, Prod.mk.injEq] at h
      obtain ⟨rfl, rfl⟩ := h
      have hlen : (b.take w).length = w := List.length_take_of_le hw
      have hval := leValue_lt (b.take w)
      have hdig := leDigits_leValue (b.take w)
      rw [hlen] at hval hdig
      rw [toNat_ofNat _ hval, hdig, List.take_append_drop]
    · cases h
  get_isSome {b} h := by rw [if_pos h]; rfl

/-- `uint8_t`. -/
def u8 : Image UInt8 :=
  word 1 UInt8.toNat UInt8.ofNat (fun a => a.toNat_lt) (fun _ => UInt8.ofNat_toNat)
    (fun n hn => by rw [UInt8.toNat_ofNat']; omega)

/-- `uint16_t`. -/
def u16 : Image UInt16 :=
  word 2 UInt16.toNat UInt16.ofNat (fun a => a.toNat_lt) (fun _ => UInt16.ofNat_toNat)
    (fun n hn => by rw [UInt16.toNat_ofNat']; omega)

/-- `uint32_t`. -/
def u32 : Image UInt32 :=
  word 4 UInt32.toNat UInt32.ofNat (fun a => a.toNat_lt) (fun _ => UInt32.ofNat_toNat)
    (fun n hn => by rw [UInt32.toNat_ofNat']; omega)

/-- `uint64_t`. -/
def u64 : Image UInt64 :=
  word 8 UInt64.toNat UInt64.ofNat (fun a => a.toNat_lt) (fun _ => UInt64.ofNat_toNat)
    (fun n hn => by rw [UInt64.toNat_ofNat']; omega)

/-- An array of `n` raw bytes. -/
def bytes (n : Nat) : Image (Vector UInt8 n) where
  size := n
  put a := a.toList
  get b := if h : n ≤ b.length then
      some (⟨(b.take n).toArray, by simpa using h⟩, b.drop n) else none
  put_length a := by simp
  get_put a t := by
    rw [dif_pos (by simp)]
    congr 2
    · apply Vector.toList_inj.mp
      simp [Vector.toList]
    · exact List.drop_left' (by simp)
  put_of_get {b a t} h := by
    split at h
    · simp only [Option.some.injEq, Prod.mk.injEq] at h
      obtain ⟨rfl, rfl⟩ := h
      simp [Vector.toList]
    · cases h
  get_isSome {b} h := by rw [dif_pos h]; rfl

@[simp] theorem prod_size (I : Image α) (J : Image β) : (I.prod J).size = I.size + J.size := rfl
@[simp] theorem iso_size (I : Image α) (e : α ≃ β) : (I.iso e).size = I.size := rfl
@[simp] theorem u8_size : u8.size = 1 := rfl
@[simp] theorem u16_size : u16.size = 2 := rfl
@[simp] theorem u32_size : u32.size = 4 := rfl
@[simp] theorem u64_size : u64.size = 8 := rfl
@[simp] theorem bytes_size (n : Nat) : (bytes n).size = n := rfl

@[simp] theorem prod_put (I : Image α) (J : Image β) (p : α × β) :
    (I.prod J).put p = I.put p.1 ++ J.put p.2 := rfl
@[simp] theorem iso_put (I : Image α) (e : α ≃ β) (b : β) : (I.iso e).put b = I.put (e.symm b) := rfl

end Image

end MarketDataPipeline.Library.ByteImage
