/-
# `Bleep.Utility.UInt128` — `UINT128_t` is arithmetic modulo `2 ^ 128`

`UINT128_t` keeps a number as two 64-bit words.  Every operator is translated as
`UInt256.cpp` has it: the shifts with their six branches, the sums and differences with
the carry read off a wrapped comparison, and the product with its rows unrolled over
32-bit parts.

`UINT128_t.modular` is what the operators compute, by the lemmas of `Lib.WordPair` at
words of 64 bits.  An overload for integral types is stated at the `uint64_t` its argument
is converted to (`UINT128_t.agree`).
-/
import Bleep.Lib.WordPair

open WordPair

namespace Bleep

/-! ## The class -/

/-- Two 64-bit words. -/
structure UINT128_t where
  upper : UInt64
  lower : UInt64
  deriving DecidableEq, Repr

namespace UINT128_t

/-- `UINT128_t(rhs)` for an integral `rhs`. -/
def ofUInt64 (rhs : UInt64) : UINT128_t := ⟨0, rhs⟩

instance (n : Nat) : OfNat UINT128_t n := ⟨ofUInt64 (UInt64.ofNat n)⟩

/-- `operator<<`. -/
def shiftLeft (self rhs : UINT128_t) : UINT128_t :=
  let shift := rhs.lower
  if rhs.upper ≠ 0 ∨ shift ≥ 128 then ⟨0, 0⟩
  else if shift = 64 then ⟨self.lower, 0⟩
  else if shift = 0 then self
  else if shift < 64 then
    ⟨(self.upper <<< shift) + (self.lower >>> (64 - shift)), self.lower <<< shift⟩
  else if 128 > shift ∧ shift > 64 then ⟨self.lower <<< (shift - 64), 0⟩
  else ⟨0, 0⟩

/-- `operator>>`. -/
def shiftRight (self rhs : UINT128_t) : UINT128_t :=
  let shift := rhs.lower
  if rhs.upper ≠ 0 ∨ shift ≥ 128 then ⟨0, 0⟩
  else if shift = 64 then ⟨0, self.upper⟩
  else if shift = 0 then self
  else if shift < 64 then
    ⟨self.upper >>> shift, (self.upper <<< (64 - shift)) + (self.lower >>> shift)⟩
  else if 128 > shift ∧ shift > 64 then ⟨0, self.upper >>> (shift - 64)⟩
  else ⟨0, 0⟩

instance : ShiftLeft UINT128_t := ⟨shiftLeft⟩
instance : ShiftRight UINT128_t := ⟨shiftRight⟩

/-- `operator==`. -/
def eq (self rhs : UINT128_t) : Bool := self.upper == rhs.upper && self.lower == rhs.lower

/-- `operator!=`. -/
def ne (self rhs : UINT128_t) : Bool := self.upper != rhs.upper || self.lower != rhs.lower

/-- `operator>`. -/
def gt (self rhs : UINT128_t) : Bool :=
  if self.upper = rhs.upper then self.lower > rhs.lower else self.upper > rhs.upper

/-- `operator<`. -/
def lt (self rhs : UINT128_t) : Bool :=
  if self.upper = rhs.upper then self.lower < rhs.lower else self.upper < rhs.upper

/-- `operator>=`. -/
def ge (self rhs : UINT128_t) : Bool := self.gt rhs || self.eq rhs

/-- `operator<=`. -/
def le (self rhs : UINT128_t) : Bool := self.lt rhs || self.eq rhs

/-- `operator+`: the low words wrapped if their sum is below the first of them. -/
def add (self rhs : UINT128_t) : UINT128_t :=
  ⟨self.upper + rhs.upper + (decide (self.lower + rhs.lower < self.lower)).toUInt64,
    self.lower + rhs.lower⟩

/-- `operator-`: the low words borrowed if their difference is above the first of them. -/
def sub (self rhs : UINT128_t) : UINT128_t :=
  ⟨self.upper - rhs.upper - (decide (self.lower - rhs.lower > self.lower)).toUInt64,
    self.lower - rhs.lower⟩

instance : Add UINT128_t := ⟨add⟩
instance : Sub UINT128_t := ⟨sub⟩

/-- The low 32 bits, `0xffffffff`. -/
def mask32 : UInt64 := 0xffffffff

/-- The parts are numbered from 0 to 3. -/
instance neZero_four : NeZero 4 := ⟨by decide⟩

/-- The four 32-bit parts, the highest first. -/
def parts (self : UINT128_t) : Fin 4 → UInt64 :=
  ![self.upper >>> 32, self.upper &&& mask32, self.lower >>> 32,
    self.lower &&& mask32]

/-- The rows of `operator*`, added up by the weight of their parts. -/
def addRows (products : Fin 4 → Fin 4 → UInt64) : UINT128_t :=
  -- first row
  let fourth32 := products 0 3 &&& mask32
  let third32 := (products 0 2 &&& mask32) + (products 0 3 >>> 32)
  let second32 := (products 0 1 &&& mask32) + (products 0 2 >>> 32)
  let first32 := (products 0 0 &&& mask32) + (products 0 1 >>> 32)
  -- second row
  let third32 := third32 + (products 1 3 &&& mask32)
  let second32 := second32 + ((products 1 2 &&& mask32) + (products 1 3 >>> 32))
  let first32 := first32 + ((products 1 1 &&& mask32) + (products 1 2 >>> 32))
  -- third row
  let second32 := second32 + (products 2 3 &&& mask32)
  let first32 := first32 + ((products 2 2 &&& mask32) + (products 2 3 >>> 32))
  -- fourth row
  let first32 := first32 + (products 3 3 &&& mask32)
  -- move carry to next digit
  let third32 := third32 + (fourth32 >>> 32)
  let second32 := second32 + (third32 >>> 32)
  let first32 := first32 + (second32 >>> 32)
  -- remove carry from current digit
  let fourth32 := fourth32 &&& mask32
  let third32 := third32 &&& mask32
  let second32 := second32 &&& mask32
  let first32 := first32 &&& mask32
  -- combine components
  ⟨(first32 <<< 32) ||| second32, (third32 <<< 32) ||| fourth32⟩

/-- `operator*`: `products[3 - x][y] = top[x] * bottom[y]`, and the rows added up. -/
def mul (self rhs : UINT128_t) : UINT128_t :=
  let top := self.parts
  let bottom := rhs.parts
  addRows fun r y => top (3 - r) * bottom y

instance : Mul UINT128_t := ⟨mul⟩

/-- `while (word) { word >>= 1; out++; }`. -/
def countBits (word : UInt64) (out : UInt8) : UInt8 :=
  if word = 0 then out else countBits (word >>> 1) (out + 1)
  termination_by word.toNat
  decreasing_by
    have hpos : 0 < word.toNat := Nat.pos_of_ne_zero fun h => ‹¬word = 0› (UInt64.toNat_inj.mp h)
    simp only [UInt64.toNat_shiftRight, UInt64.toNat_one, Nat.reduceMod, Nat.shiftRight_one]
    omega

/-- `bits`. -/
def bits (self : UINT128_t) : UInt8 :=
  if self.upper ≠ 0 then countBits self.upper 64 else countBits self.lower 0

/-! The overloads for integral types, at the word their argument is converted to. -/

def shiftLeftT (self : UINT128_t) (rhs : UInt64) : UINT128_t := self <<< ofUInt64 rhs

def shiftRightT (self : UINT128_t) (rhs : UInt64) : UINT128_t := self >>> ofUInt64 rhs

def eqT (self : UINT128_t) (rhs : UInt64) : Bool := self.upper == 0 && self.lower == rhs

def neT (self : UINT128_t) (rhs : UInt64) : Bool :=
  (self.upper ||| (self.lower != rhs).toUInt64) != 0

def gtT (self : UINT128_t) (rhs : UInt64) : Bool := self.upper != 0 || self.lower > rhs

def ltT (self : UINT128_t) (rhs : UInt64) : Bool :=
  if self.upper = 0 then self.lower < rhs else false

def geT (self : UINT128_t) (rhs : UInt64) : Bool := self.gtT rhs || self.eqT rhs

def leT (self : UINT128_t) (rhs : UInt64) : Bool := self.ltT rhs || self.eqT rhs

def addT (self : UINT128_t) (rhs : UInt64) : UINT128_t :=
  ⟨self.upper + (decide (self.lower + rhs < self.lower)).toUInt64, self.lower + rhs⟩

def subT (self : UINT128_t) (rhs : UInt64) : UINT128_t :=
  ⟨self.upper - (decide (self.lower - rhs > self.lower)).toUInt64, self.lower - rhs⟩

def mulT (self : UINT128_t) (rhs : UInt64) : UINT128_t := self * ofUInt64 rhs

end UINT128_t

/-! ## Words -/

section Words

variable {a s : UInt64}

theorem toNat_shl (h : s.toNat < 64) : (a <<< s).toNat = a.toNat * 2 ^ s.toNat % 2 ^ 64 := by
  rw [UInt64.toNat_shiftLeft, Nat.mod_eq_of_lt h, Nat.shiftLeft_eq]

theorem toNat_shr (h : s.toNat < 64) : (a >>> s).toNat = a.toNat / 2 ^ s.toNat := by
  rw [UInt64.toNat_shiftRight, Nat.mod_eq_of_lt h, Nat.shiftRight_eq_div_pow]

theorem toNat_mask32 (a : UInt64) : (a &&& UINT128_t.mask32).toNat = a.toNat % 2 ^ 32 := by
  rw [UInt64.toNat_and]
  exact Nat.and_two_pow_sub_one_eq_mod a.toNat 32

theorem toNat_shr32 (a : UInt64) : (a >>> 32).toNat = a.toNat / 2 ^ 32 :=
  toNat_shr (s := 32) (by decide)

theorem toNat_flag (b : Bool) : b.toUInt64.toNat = if b = true then 1 else 0 := by
  cases b <;> rfl

/-- What is subtracted comes back modulo `2 ^ 64`. -/
theorem toNat_sub_add (a b : UInt64) : (a - b).toNat + b.toNat ≡ a.toNat [MOD 2 ^ 64] := by
  have hb := b.toNat_lt
  rw [UInt64.toNat_sub]
  calc (2 ^ 64 - b.toNat + a.toNat) % 2 ^ 64 + b.toNat
      ≡ 2 ^ 64 - b.toNat + a.toNat + b.toNat [MOD 2 ^ 64] := (Nat.mod_modEq _ _).add_right _
    _ = 2 ^ 64 + a.toNat := by omega
    _ ≡ a.toNat [MOD 2 ^ 64] := Nat.add_modEq_left

/-! The two shift amounts that the splits of a shift leave. -/

theorem toNat_64_sub (h : s.toNat ≤ 64) : (64 - s).toNat = 64 - s.toNat :=
  UInt64.toNat_sub_of_le _ _ (UInt64.le_iff_toNat_le.mpr h)

theorem toNat_sub_64 (h : 64 ≤ s.toNat) : (s - 64).toNat = s.toNat - 64 :=
  UInt64.toNat_sub_of_le _ _ (UInt64.le_iff_toNat_le.mpr h)

/-- The last test of a shift is always passed. -/
theorem shift_mid (hs : s.toNat < 128) (h64 : s ≠ 64) (hlt : ¬s < 64) :
    128 > s ∧ s > 64 := by
  rw [ne_eq, ← UInt64.toNat_inj] at h64
  rw [UInt64.lt_iff_toNat_lt] at hlt
  have h' : (64 : UInt64).toNat = 64 := rfl
  refine ⟨UInt64.lt_iff_toNat_lt.mpr hs, UInt64.lt_iff_toNat_lt.mpr ?_⟩
  omega

end Words

/-! ## What the operators compute -/

namespace UINT128_t

/-- The number the words stand for. -/
def toNat (a : UINT128_t) : Nat := val (2 ^ 64) a.upper.toNat a.lower.toNat

theorem two_pow_128 : 2 ^ 128 = 2 ^ 64 * 2 ^ 64 := by norm_num

theorem toNat_lt (a : UINT128_t) : a.toNat < 2 ^ 128 :=
  two_pow_128 ▸ val_lt a.upper.toNat_lt a.lower.toNat_lt

theorem toNat_inj {a b : UINT128_t} : a.toNat = b.toNat ↔ a = b := by
  cases a
  cases b
  simp only [toNat, val_inj (UInt64.toNat_lt _) (UInt64.toNat_lt _), UInt64.toNat_inj, mk.injEq]

/-- A result that is right modulo `2 ^ 128` is the number modulo `2 ^ 128`. -/
theorem toNat_eq_mod {a : UINT128_t} {x : Nat} (h : a.toNat ≡ x [MOD 2 ^ 64 * 2 ^ 64]) :
    a.toNat = x % 2 ^ 128 := by
  rw [two_pow_128]
  exact eq_mod_of_modEq a.upper.toNat_lt a.lower.toNat_lt h

theorem toNat_ofUInt64 (rhs : UInt64) : (ofUInt64 rhs).toNat = rhs.toNat := by
  simp [toNat, ofUInt64, val]

theorem toNat_ofNat (n : Nat) : (OfNat.ofNat n : UINT128_t).toNat = n % 2 ^ 64 :=
  (toNat_ofUInt64 _).trans UInt64.toNat_ofNat'

theorem toNat_add (a b : UINT128_t) : (a + b).toNat = (a.toNat + b.toNat) % 2 ^ 128 := by
  refine toNat_eq_mod (add_modEq (carry_eq a.lower.toNat_lt b.lower.toNat_lt) ?_)
  show (a.upper + b.upper + _ : UInt64).toNat ≡ _ [MOD 2 ^ 64]
  simp only [UInt64.toNat_add, toNat_flag, decide_eq_true_eq, UInt64.lt_iff_toNat_lt]
  exact (Nat.mod_modEq _ _).trans ((Nat.mod_modEq _ _).add_right _)

theorem toNat_sub_add (a b : UINT128_t) :
    (a - b).toNat + b.toNat ≡ a.toNat [MOD 2 ^ 64 * 2 ^ 64] := by
  have hlo : a.lower.toNat + (decide (a.lower - b.lower > a.lower)).toUInt64.toNat * 2 ^ 64
      = (a.lower - b.lower).toNat + b.lower.toNat := by
    rw [toNat_flag]
    simp only [gt_iff_lt, decide_eq_true_eq, UInt64.lt_iff_toNat_lt, UInt64.toNat_sub]
    exact borrow_eq a.lower.toNat_lt b.lower.toNat_lt
  refine sub_modEq hlo ?_
  rw [Nat.add_right_comm]
  exact ((Bleep.toNat_sub_add _ _).add_right _).trans (Bleep.toNat_sub_add _ _)

theorem toNat_sub (a b : UINT128_t) :
    (a - b).toNat = (2 ^ 128 - b.toNat + a.toNat) % 2 ^ 128 := by
  have hb := b.toNat_lt
  refine toNat_eq_mod (Nat.ModEq.add_right_cancel' b.toNat ((toNat_sub_add a b).trans ?_))
  calc a.toNat ≡ 2 ^ 128 + a.toNat [MOD 2 ^ 64 * 2 ^ 64] := by
        rw [← two_pow_128]
        exact Nat.add_modEq_left.symm
    _ = 2 ^ 128 - b.toNat + a.toNat + b.toNat := by omega

theorem toNat_sub_of_le {a b : UINT128_t} (h : b.toNat ≤ a.toNat) :
    (a - b).toNat = a.toNat - b.toNat := by
  have ha := a.toNat_lt
  rw [toNat_sub, Nat.mod_eq_sub_mod (by omega), Nat.mod_eq_of_lt (by omega)]
  omega

theorem shift_ge_iff {b : UINT128_t} : b.upper ≠ 0 ∨ b.lower ≥ 128 ↔ 128 ≤ b.toNat := by
  have hlo := b.lower.toNat_lt
  rw [ne_eq, ← UInt64.toNat_inj, ge_iff_le, UInt64.le_iff_toNat_le, toNat, val]
  show ¬b.upper.toNat = 0 ∨ 128 ≤ b.lower.toNat ↔ _
  omega

theorem toNat_eq_lower {b : UINT128_t} (h : ¬(b.upper ≠ 0 ∨ b.lower ≥ 128)) :
    b.toNat = b.lower.toNat ∧ b.lower.toNat < 128 := by
  have hlt : b.toNat < 128 := not_le.mp (mt shift_ge_iff.mpr h)
  rw [not_or, not_not] at h
  have hb : b.toNat = b.lower.toNat := by simp [toNat, val, h.1]
  exact ⟨hb, hb ▸ hlt⟩

theorem toNat_shiftLeft (a b : UINT128_t) :
    (a <<< b).toNat = a.toNat * 2 ^ b.toNat % 2 ^ 128 := by
  show (a.shiftLeft b).toNat = _
  simp only [shiftLeft]
  split
  case isTrue h =>
    rw [mul_two_pow_mod_of_le _ (shift_ge_iff.mp h)]
    rfl
  case isFalse h =>
    obtain ⟨hb, hs⟩ := toNat_eq_lower h
    rw [hb]
    refine toNat_eq_mod ?_
    split_ifs with h64 h0 hlt hmid
    · -- the low word moves up whole
      rw [h64]
      exact shl_modEq_of_ge (Nat.le_refl 64) (by simp; rfl)
    · rw [h0, UInt64.toNat_zero, pow_zero, Nat.mul_one]
    · have hlt := UInt64.lt_iff_toNat_lt.mp hlt
      have h0' : 0 < b.lower.toNat := Nat.pos_of_ne_zero fun h => h0 (UInt64.toNat_inj.mp h)
      have hsub := toNat_64_sub hlt.le
      rw [toNat, toNat_shl hlt]
      refine shl_modEq_of_le hlt.le ?_
      rw [UInt64.toNat_add, toNat_shl hlt, toNat_shr (by rw [hsub]; omega), hsub]
      exact (Nat.mod_modEq _ _).trans ((Nat.mod_modEq _ _).add_right _)
    · have hge : 64 ≤ b.lower.toNat := (UInt64.lt_iff_toNat_lt.mp hmid.2).le
      have hsub := toNat_sub_64 hge
      refine shl_modEq_of_ge hge ?_
      rw [toNat_shl (by rw [hsub]; omega), hsub]
      exact Nat.mod_modEq _ _
    · exact absurd (shift_mid hs h64 hlt) hmid

theorem toNat_shiftRight (a b : UINT128_t) :
    (a >>> b).toNat = a.toNat / 2 ^ b.toNat := by
  show (a.shiftRight b).toNat = _
  simp only [shiftRight]
  split
  case isTrue h =>
    rw [div_two_pow_of_le a.toNat_lt (shift_ge_iff.mp h)]
    rfl
  case isFalse h =>
    obtain ⟨hb, hs⟩ := toNat_eq_lower h
    have hal := a.lower.toNat_lt
    rw [hb]
    split_ifs with h64 h0 hlt hmid
    · -- the high word moves down whole
      rw [h64]
      show val _ 0 _ = a.toNat / 2 ^ 64
      rw [toNat, ← shr_of_ge (Nat.le_refl 64) hal]
      simp [val]
    · rw [h0, UInt64.toNat_zero, pow_zero, Nat.div_one]
    · have hlt := UInt64.lt_iff_toNat_lt.mp hlt
      have h0' : 0 < b.lower.toNat := Nat.pos_of_ne_zero fun h => h0 (UInt64.toNat_inj.mp h)
      have hsub := toNat_64_sub hlt.le
      have hlow : (a.upper <<< (64 - b.lower) + a.lower >>> b.lower).toNat
          = a.upper.toNat * 2 ^ (64 - b.lower.toNat) % 2 ^ 64
            + a.lower.toNat / 2 ^ b.lower.toNat := by
        rw [UInt64.toNat_add, toNat_shl (by rw [hsub]; omega), toNat_shr hlt, hsub]
        exact Nat.mod_eq_of_lt (shr_low_lt hlt.le hal)
      rw [toNat, toNat_shr hlt, hlow]
      exact shr_of_le hlt.le
    · have hge : 64 ≤ b.lower.toNat := (UInt64.lt_iff_toNat_lt.mp hmid.2).le
      have hsub := toNat_sub_64 hge
      show val _ 0 _ = _
      rw [toNat_shr (by rw [hsub]; omega), hsub, toNat, ← shr_of_ge hge hal]
      simp [val]
    · exact absurd (shift_mid hs h64 hlt) hmid

/-! ### Comparisons -/

theorem eq_iff {a b : UINT128_t} : a.eq b = true ↔ a.toNat = b.toNat := by
  rw [toNat_inj]
  cases a
  cases b
  simp [eq]

theorem ne_iff {a b : UINT128_t} : a.ne b = true ↔ a.toNat ≠ b.toNat := by
  have hne : a.ne b = !a.eq b := by simp [ne, eq, bne, Bool.not_and]
  rw [hne, Bool.not_eq_true', ← Bool.not_eq_true, eq_iff]

theorem lt_iff {a b : UINT128_t} : a.lt b = true ↔ a.toNat < b.toNat := by
  rw [toNat, toNat, val_lt_val a.lower.toNat_lt b.lower.toNat_lt, lt]
  by_cases h : a.upper = b.upper
  · rw [if_pos h, if_pos (congrArg _ h), decide_eq_true_eq, UInt64.lt_iff_toNat_lt]
  · rw [if_neg h, if_neg (mt UInt64.toNat_inj.mp h), decide_eq_true_eq,
      UInt64.lt_iff_toNat_lt]

theorem gt_iff {a b : UINT128_t} : a.gt b = true ↔ b.toNat < a.toNat := by
  rw [← lt_iff, gt, lt]
  simp only [eq_comm (a := a.upper), gt_iff_lt]

theorem ge_iff {a b : UINT128_t} : a.ge b = true ↔ b.toNat ≤ a.toNat := by
  rw [ge, Bool.or_eq_true, gt_iff, eq_iff, Nat.le_iff_lt_or_eq, eq_comm]

theorem le_iff {a b : UINT128_t} : a.le b = true ↔ a.toNat ≤ b.toNat := by
  rw [le, Bool.or_eq_true, lt_iff, eq_iff, Nat.le_iff_lt_or_eq]

/-! ### Products -/

theorem toNat_parts (a : UINT128_t) : a.toNat = digits (2 ^ 32) (a.parts 0).toNat
    (a.parts 1).toNat (a.parts 2).toNat (a.parts 3).toNat := by
  show a.toNat = digits (2 ^ 32) (a.upper >>> 32).toNat (a.upper &&& mask32).toNat
    (a.lower >>> 32).toNat (a.lower &&& mask32).toNat
  simp only [toNat_shr32, toNat_mask32, digits, toNat, val]
  omega

theorem parts_lt (a : UINT128_t) (i : Fin 4) : (a.parts i).toNat < 2 ^ 32 := by
  have hup := a.upper.toNat_lt
  have hlo := a.lower.toNat_lt
  match i with
  | 0 => show (a.upper >>> 32).toNat < _; rw [toNat_shr32]; omega
  | 1 => show (a.upper &&& mask32).toNat < _; rw [toNat_mask32]; omega
  | 2 => show (a.lower >>> 32).toNat < _; rw [toNat_shr32]; omega
  | 3 => show (a.lower &&& mask32).toNat < _; rw [toNat_mask32]; omega

theorem toNat_mul_parts (a b : UINT128_t) (i j : Fin 4) :
    (a.parts i * b.parts j).toNat = (a.parts i).toNat * (b.parts j).toNat := by
  rw [UInt64.toNat_mul]
  refine Nat.mod_eq_of_lt ?_
  calc (a.parts i).toNat * (b.parts j).toNat < 2 ^ 32 * 2 ^ 32 :=
        Nat.mul_lt_mul'' (a.parts_lt i) (b.parts_lt j)
    _ = 2 ^ 64 := by norm_num

theorem toNat_join32 (x y : UInt64) :
    (((x &&& mask32) <<< 32) ||| (y &&& mask32)).toNat
      = x.toNat % 2 ^ 32 * 2 ^ 32 + y.toNat % 2 ^ 32 := by
  have hx : ((x &&& mask32) <<< 32).toNat = (x.toNat % 2 ^ 32) <<< 32 := by
    rw [toNat_shl (s := 32) (by decide), toNat_mask32, Nat.shiftLeft_eq]
    refine Nat.mod_eq_of_lt ?_
    have := Nat.mod_lt x.toNat (Nat.two_pow_pos 32)
    show _ * 2 ^ 32 < _
    omega
  rw [UInt64.toNat_or, hx, toNat_mask32,
    ← Nat.shiftLeft_add_eq_or_of_lt (Nat.mod_lt _ (Nat.two_pow_pos 32)), Nat.shiftLeft_eq]

theorem toNat_add_small {x y : UInt64} {m n : Nat} (hx : x.toNat < m * 2 ^ 32)
    (hy : y.toNat < n * 2 ^ 32) (hmn : m + n ≤ 2 ^ 32) :
    (x + y).toNat = x.toNat + y.toNat ∧ (x + y).toNat < (m + n) * 2 ^ 32 := by
  have hsum : x.toNat + y.toNat < (m + n) * 2 ^ 32 := by
    rw [Nat.add_mul]
    exact Nat.add_lt_add hx hy
  have hadd : (x + y).toNat = x.toNat + y.toNat := by
    rw [UInt64.toNat_add]
    exact Nat.mod_eq_of_lt (hsum.trans_le (Nat.mul_le_mul_right _ hmn))
  exact ⟨hadd, hadd ▸ hsum⟩

theorem toNat_lo_lt (x : UInt64) : (x &&& mask32).toNat < 1 * 2 ^ 32 := by
  rw [toNat_mask32, Nat.one_mul]
  exact Nat.mod_lt _ (Nat.two_pow_pos 32)

theorem toNat_hi_lt (x : UInt64) : (x >>> 32).toNat < 1 * 2 ^ 32 := by
  have hx := x.toNat_lt
  rw [toNat_shr32]
  omega

theorem toNat_addRows (p : Fin 4 → Fin 4 → UInt64) :
    (addRows p).toNat ≡ digits (2 ^ 32)
      ((p 0 0).toNat % 2 ^ 32 + (p 0 1).toNat / 2 ^ 32 + (p 1 1).toNat % 2 ^ 32
        + (p 1 2).toNat / 2 ^ 32 + (p 2 2).toNat % 2 ^ 32 + (p 2 3).toNat / 2 ^ 32
        + (p 3 3).toNat % 2 ^ 32)
      ((p 0 1).toNat % 2 ^ 32 + (p 0 2).toNat / 2 ^ 32 + (p 1 2).toNat % 2 ^ 32
        + (p 1 3).toNat / 2 ^ 32 + (p 2 3).toNat % 2 ^ 32)
      ((p 0 2).toNat % 2 ^ 32 + (p 0 3).toNat / 2 ^ 32 + (p 1 3).toNat % 2 ^ 32)
      ((p 0 3).toNat % 2 ^ 32) [MOD (2 ^ 32) ^ 4] := by
  have hlo := toNat_lo_lt
  have hhi := toNat_hi_lt
  have hlohi x y := toNat_add_small (hlo x) (hhi y) (by norm_num)
  -- the columns
  have h₃ := toNat_add_small (hlohi (p 0 2) (p 0 3)).2 (hlo (p 1 3)) (by norm_num)
  have h₂ := toNat_add_small (hlohi (p 0 1) (p 0 2)).2 (hlohi (p 1 2) (p 1 3)).2 (by norm_num)
  have h₂' := toNat_add_small h₂.2 (hlo (p 2 3)) (by norm_num)
  have h₁ := toNat_add_small (hlohi (p 0 0) (p 0 1)).2 (hlohi (p 1 1) (p 1 2)).2 (by norm_num)
  have h₁' := toNat_add_small h₁.2 (hlohi (p 2 2) (p 2 3)).2 (by norm_num)
  have h₁'' := toNat_add_small h₁'.2 (hlo (p 3 3)) (by norm_num)
  -- the columns with a carry
  have g₃ c := (toNat_add_small h₃.2 (hhi c) (by norm_num)).1
  have g₂ c := (toNat_add_small h₂'.2 (hhi c) (by norm_num)).1
  have g₁ c := (toNat_add_small h₁''.2 (hhi c) (by norm_num)).1
  refine Nat.ModEq.trans ?_ (carries _ _ _ _ _)
  show val (2 ^ 64) (((_ &&& mask32) <<< 32) ||| (_ &&& mask32)).toNat
    (((_ &&& mask32) <<< 32) ||| (_ &&& mask32)).toNat ≡ _ [MOD _]
  simp only [toNat_join32, g₁, h₁'', h₁', h₁, g₂, h₂', h₂, g₃, h₃, (hlohi _ _).1, toNat_mask32,
    toNat_shr32, ← Nat.add_assoc]
  refine congrArg (· % (2 ^ 32) ^ 4) ?_
  simp only [val, digits]
  ring

theorem toNat_mul (a b : UINT128_t) : (a * b).toNat = a.toNat * b.toNat % 2 ^ 128 := by
  have hD : 2 ^ 64 * 2 ^ 64 = (2 ^ 32) ^ 4 := by norm_num
  have hmul : a * b = addRows fun r y => a.parts (3 - r) * b.parts y := rfl
  refine toNat_eq_mod ?_
  rw [toNat_parts a, toNat_parts b, hD, hmul]
  refine (toNat_addRows _).trans ?_
  simp only [toNat_mul_parts]
  exact schoolbook (2 ^ 32) (fun i => (a.parts i).toNat) (fun j => (b.parts j).toNat)

/-! ### Bit lengths -/

theorem toNat_countBits (word : UInt64) (out : UInt8) (h : out.toNat + word.toNat.size < 256) :
    (countBits word out).toNat = out.toNat + word.toNat.size := by
  induction word, out using countBits.induct with
  | case1 out => simp [countBits]
  | case2 word out hne ih =>
      have hword : word.toNat ≠ 0 := fun h0 => hne (UInt64.toNat_inj.mp h0)
      have hhalf : (word >>> 1).toNat = word.toNat / 2 := by
        rw [toNat_shr (s := 1) (by decide)]
        rfl
      have hsize := size_half hword
      have hout : (out + 1).toNat = out.toNat + 1 := by
        rw [UInt8.toNat_add]
        exact Nat.mod_eq_of_lt (by show _ + 1 < 256; omega)
      rw [countBits, if_neg hne, ih (by rw [hout, hhalf]; omega), hout, hhalf]
      omega

theorem toNat_bits (a : UINT128_t) : a.bits.toNat = a.toNat.size := by
  have hup := Nat.size_le.mpr a.upper.toNat_lt
  have hlo := Nat.size_le.mpr a.lower.toNat_lt
  rw [bits]
  by_cases h : a.upper = 0
  · rw [if_neg (not_not.mpr h), toNat_countBits _ _ (by show 0 + _ < _; omega)]
    simp [toNat, val, h]
  · have hne : a.upper.toNat ≠ 0 := fun h0 => h (UInt64.toNat_inj.mp h0)
    rw [if_pos h, toNat_countBits _ _ (by show 64 + _ < _; omega), toNat, val,
      size_add_of_pos hne a.lower.toNat_lt]
    rfl

/-- The operators of the class. -/
def operators : Operators UINT128_t where
  add := (· + ·)
  sub := (· - ·)
  mul := (· * ·)
  shl := (· <<< ·)
  shr := (· >>> ·)
  lt := lt
  le := le
  gt := gt
  ge := ge
  eq := eq
  ne := ne
  bits a := a.bits.toNat

theorem modular : operators.Modular 128 toNat where
  toNat_lt := toNat_lt
  toNat_inj _ _ := toNat_inj
  add := toNat_add
  sub a b := Operators.sub_emod_of_modEq (toNat_lt _) (two_pow_128 ▸ toNat_sub_add a b)
  mul := toNat_mul
  shl := toNat_shiftLeft
  shr := toNat_shiftRight
  lt _ _ := lt_iff
  le _ _ := le_iff
  gt _ _ := gt_iff
  ge _ _ := ge_iff
  eq _ _ := eq_iff
  ne _ _ := ne_iff
  bits := toNat_bits

/-! ### The overloads for integral types -/

theorem addT_eq (a : UINT128_t) (rhs : UInt64) : a.addT rhs = a + ofUInt64 rhs := by
  show a.addT rhs = a.add (ofUInt64 rhs)
  rw [addT, add, ofUInt64, UInt64.add_zero]

theorem subT_eq (a : UINT128_t) (rhs : UInt64) : a.subT rhs = a - ofUInt64 rhs := by
  show a.subT rhs = a.sub (ofUInt64 rhs)
  rw [subT, sub, ofUInt64, UInt64.sub_zero]

theorem eqT_eq (a : UINT128_t) (rhs : UInt64) : a.eqT rhs = a.eq (ofUInt64 rhs) := rfl

theorem neT_eq (a : UINT128_t) (rhs : UInt64) : a.neT rhs = a.ne (ofUInt64 rhs) := by
  show (a.upper ||| (a.lower != rhs).toUInt64 != 0) = (a.upper != 0 || a.lower != rhs)
  cases a.lower != rhs with
  | false =>
      rw [Bool.or_false]
      exact congrArg (· != 0) (UInt64.or_zero)
  | true =>
      rw [Bool.or_true, bne_iff_ne]
      intro h
      exact absurd (UInt64.or_eq_zero_iff.mp h).2 (by decide)

theorem gtT_eq (a : UINT128_t) (rhs : UInt64) : a.gtT rhs = a.gt (ofUInt64 rhs) := by
  simp only [gtT, gt, ofUInt64]
  by_cases h : a.upper = 0
  · simp [h]
  · simp [h, UInt64.pos_iff_ne_zero]

theorem ltT_eq (a : UINT128_t) (rhs : UInt64) : a.ltT rhs = a.lt (ofUInt64 rhs) := by
  show (if a.upper = 0 then decide (a.lower < rhs) else false)
    = if a.upper = 0 then decide (a.lower < rhs) else decide (a.upper < 0)
  split
  · rfl
  · simp

theorem geT_eq (a : UINT128_t) (rhs : UInt64) : a.geT rhs = a.ge (ofUInt64 rhs) := by
  rw [geT, gtT_eq, eqT_eq, ge]

theorem leT_eq (a : UINT128_t) (rhs : UInt64) : a.leT rhs = a.le (ofUInt64 rhs) := by
  rw [leT, ltT_eq, eqT_eq, le]

/-- The overloads for integral types. -/
def overloads : Overloads UINT128_t UInt64 where
  add := addT
  sub := subT
  mul := mulT
  shl := shiftLeftT
  shr := shiftRightT
  lt := ltT
  le := leT
  gt := gtT
  ge := geT
  eq := eqT
  ne := neT

theorem agree : overloads.Agree operators ofUInt64 where
  add := addT_eq
  sub := subT_eq
  mul _ _ := rfl
  shl _ _ := rfl
  shr _ _ := rfl
  lt := ltT_eq
  le := leT_eq
  gt := gtT_eq
  ge := geT_eq
  eq := eqT_eq
  ne := neT_eq

/-! The tests against `0` and the shift by one that `UINT256_t` makes. -/

theorem toNat_zero : (0 : UINT128_t).toNat = 0 := rfl

theorem add_zero (a : UINT128_t) : a + 0 = a := by
  rw [← toNat_inj, toNat_add, toNat_zero, Nat.add_zero, Nat.mod_eq_of_lt a.toNat_lt]

theorem sub_zero (a : UINT128_t) : a - 0 = a := by
  rw [← toNat_inj, toNat_sub_of_le (Nat.zero_le _), toNat_zero, Nat.sub_zero]

theorem neT_zero_iff {a : UINT128_t} : a.neT 0 = true ↔ a.toNat ≠ 0 := by
  rw [neT_eq, ne_iff]
  rfl

theorem eqT_zero_iff {a : UINT128_t} : a.eqT 0 = true ↔ a.toNat = 0 := by
  rw [eqT_eq, eq_iff]
  rfl

theorem gtT_zero_iff {a : UINT128_t} : a.gtT 0 = true ↔ 0 < a.toNat := by
  rw [gtT_eq, gt_iff]
  rfl

theorem toNat_half (a : UINT128_t) : (a.shiftRightT 1).toNat = a.toNat / 2 := by
  rw [shiftRightT, toNat_shiftRight]
  rfl

end UINT128_t

end Bleep
