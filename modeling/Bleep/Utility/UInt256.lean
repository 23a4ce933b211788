/-
# `Bleep.Utility.UInt256` — `UINT256_t` is arithmetic modulo `2 ^ 256`

`UINT256_t` is two `UINT128_t`, and its operators are those of `UINT128_t` put together
once more: the shifts and the sums with the same branches, the product over four 64-bit
parts, whose columns are `UINT128_t` and are combined by three 256-bit sums.

`uint_arithmetic` is what both classes compute.
-/
import Bleep.Utility.UInt128

open WordPair

namespace Bleep

/-! ## The class -/

/-- Two `UINT128_t`. -/
structure UINT256_t where
  upper : UINT128_t
  lower : UINT128_t
  deriving DecidableEq, Repr

namespace UINT256_t

/-- `UINT256_t(rhs)` for a `UINT128_t`. -/
def ofUINT128 (rhs : UINT128_t) : UINT256_t := ⟨0, rhs⟩

/-- `UINT256_t(rhs)` for an integral `rhs`. -/
def ofUInt64 (rhs : UInt64) : UINT256_t := ⟨⟨0, 0⟩, UINT128_t.ofUInt64 rhs⟩

/-- `operator<<`. -/
def shiftLeft (self rhs : UINT256_t) : UINT256_t :=
  let shift := rhs.lower
  if rhs.upper.gtT 0 || shift.ge 256 then ofUInt64 0
  else if shift.eq 128 then ⟨self.lower, 0⟩
  else if shift.eq 0 then self
  else if shift.lt 128 then
    ⟨(self.upper <<< shift) + (self.lower >>> (128 - shift)), self.lower <<< shift⟩
  else if UINT128_t.gt 256 shift && shift.gt 128 then ⟨self.lower <<< (shift - 128), 0⟩
  else ofUInt64 0

/-- `operator>>`. -/
def shiftRight (self rhs : UINT256_t) : UINT256_t :=
  let shift := rhs.lower
  if rhs.upper.gtT 0 || shift.ge 256 then ofUInt64 0
  else if shift.eq 128 then ofUINT128 self.upper
  else if shift.eq 0 then self
  else if shift.lt 128 then
    ⟨self.upper >>> shift, (self.upper <<< (128 - shift)) + (self.lower >>> shift)⟩
  else if UINT128_t.gt 256 shift && shift.gt 128 then ofUINT128 (self.upper >>> (shift - 128))
  else ofUInt64 0

instance : ShiftLeft UINT256_t := ⟨shiftLeft⟩
instance : ShiftRight UINT256_t := ⟨shiftRight⟩

/-- `operator==`. -/
def eq (self rhs : UINT256_t) : Bool := self.upper.eq rhs.upper && self.lower.eq rhs.lower

/-- `operator!=`. -/
def ne (self rhs : UINT256_t) : Bool := self.upper.ne rhs.upper || self.lower.ne rhs.lower

/-- `operator>`. -/
def gt (self rhs : UINT256_t) : Bool :=
  if self.upper.eq rhs.upper then self.lower.gt rhs.lower
  else if self.upper.gt rhs.upper then true else false

/-- `operator<`. -/
def lt (self rhs : UINT256_t) : Bool :=
  if self.upper.eq rhs.upper then self.lower.lt rhs.lower
  else if self.upper.lt rhs.upper then true else false

/-- `operator>=`. -/
def ge (self rhs : UINT256_t) : Bool := self.gt rhs || self.eq rhs

/-- `operator<=`. -/
def le (self rhs : UINT256_t) : Bool := self.lt rhs || self.eq rhs

/-- `operator+`: the carry is a `UINT128_t`. -/
def add (self rhs : UINT256_t) : UINT256_t :=
  ⟨self.upper + rhs.upper + (if (self.lower + rhs.lower).lt self.lower then 1 else 0),
    self.lower + rhs.lower⟩

/-- `operator-`: the borrow is a `bool`, subtracted by the overload for integral types. -/
def sub (self rhs : UINT256_t) : UINT256_t :=
  ⟨(self.upper - rhs.upper).subT ((self.lower - rhs.lower).gt self.lower).toUInt64,
    self.lower - rhs.lower⟩

instance : Add UINT256_t := ⟨add⟩
instance : Sub UINT256_t := ⟨sub⟩

/-- The four 64-bit parts, the highest first. -/
def parts (self : UINT256_t) : Fin 4 → UINT128_t :=
  ![UINT128_t.ofUInt64 self.upper.upper, UINT128_t.ofUInt64 self.upper.lower,
    UINT128_t.ofUInt64 self.lower.upper, UINT128_t.ofUInt64 self.lower.lower]

/-- The rows of `operator*`, added up by the weight of their parts. -/
def addRows (products : Fin 4 → Fin 4 → UINT128_t) : UINT256_t :=
  let lower r x := UINT128_t.ofUInt64 (products r x).lower
  let upper r x := UINT128_t.ofUInt64 (products r x).upper
  -- first row
  let fourth64 := lower 0 3
  let third64 := lower 0 2 + upper 0 3
  let second64 := lower 0 1 + upper 0 2
  let first64 := lower 0 0 + upper 0 1
  -- second row
  let third64 := third64 + lower 1 3
  let second64 := second64 + lower 1 2 + upper 1 3
  let first64 := first64 + lower 1 1 + upper 1 2
  -- third row
  let second64 := second64 + lower 2 3
  let first64 := first64 + lower 2 2 + upper 2 3
  -- fourth row
  let first64 := first64 + lower 3 3
  -- combines the values, taking care of carry over
  ⟨first64 <<< (64 : UINT128_t), 0⟩
    + ⟨UINT128_t.ofUInt64 third64.upper, third64 <<< (64 : UINT128_t)⟩
    + ⟨second64, 0⟩
    + ofUINT128 fourth64

/-- `operator*`: `products[3 - y][x] = top[x] * bottom[y]`, and the rows added up. -/
def mul (self rhs : UINT256_t) : UINT256_t :=
  let top := self.parts
  let bottom := rhs.parts
  addRows fun r x => top x * bottom (3 - r)

instance : Mul UINT256_t := ⟨mul⟩

/-- `while (word != 0) { word = word >> 1; out++; }`. -/
def countBits (word : UINT128_t) (out : UInt16) : UInt16 :=
  if word.neT 0 then countBits (word.shiftRightT 1) (out + 1) else out
  termination_by word.toNat
  decreasing_by
    rw [UINT128_t.toNat_half]
    exact Nat.div_lt_self (Nat.pos_of_ne_zero (UINT128_t.neT_zero_iff.mp ‹_›)) Nat.one_lt_two

/-- `bits`. -/
def bits (self : UINT256_t) : UInt16 :=
  if self.upper.neT 0 then countBits self.upper 128 else countBits self.lower 0

/-! The overloads for integral types, at the word their argument is converted to. -/

def shiftLeftT (self : UINT256_t) (rhs : UInt64) : UINT256_t := self <<< ofUInt64 rhs

def shiftRightT (self : UINT256_t) (rhs : UInt64) : UINT256_t := self >>> ofUInt64 rhs

def eqT (self : UINT256_t) (rhs : UInt64) : Bool :=
  self.upper.eqT 0 && self.lower.eq (UINT128_t.ofUInt64 rhs)

def neT (self : UINT256_t) (rhs : UInt64) : Bool :=
  self.upper.gtT 0 || self.lower.ne (UINT128_t.ofUInt64 rhs)

def gtT (self : UINT256_t) (rhs : UInt64) : Bool :=
  self.upper.gtT 0 || self.lower.gt (UINT128_t.ofUInt64 rhs)

def ltT (self : UINT256_t) (rhs : UInt64) : Bool :=
  if self.upper.eqT 0 then self.lower.lt (UINT128_t.ofUInt64 rhs) else false

def geT (self : UINT256_t) (rhs : UInt64) : Bool := self.gtT rhs || self.eqT rhs

def leT (self : UINT256_t) (rhs : UInt64) : Bool := self.ltT rhs || self.eqT rhs

def addT (self : UINT256_t) (rhs : UInt64) : UINT256_t :=
  let rhs := UINT128_t.ofUInt64 rhs
  ⟨self.upper.addT ((self.lower + rhs).lt self.lower).toUInt64, self.lower + rhs⟩

def subT (self : UINT256_t) (rhs : UInt64) : UINT256_t :=
  ⟨self.upper.subT ((self.lower.subT rhs).gt self.lower).toUInt64, self.lower.subT rhs⟩

def mulT (self : UINT256_t) (rhs : UInt64) : UINT256_t := self * ofUInt64 rhs

/-! ## What the operators compute -/

/-- The number the two halves stand for. -/
def toNat (a : UINT256_t) : Nat := val (2 ^ 128) a.upper.toNat a.lower.toNat

theorem two_pow_256 : 2 ^ 256 = 2 ^ 128 * 2 ^ 128 := by norm_num

theorem toNat_lt (a : UINT256_t) : a.toNat < 2 ^ 256 :=
  two_pow_256 ▸ val_lt a.upper.toNat_lt a.lower.toNat_lt

theorem toNat_inj {a b : UINT256_t} : a.toNat = b.toNat ↔ a = b := by
  cases a
  cases b
  simp only [toNat, val_inj (UINT128_t.toNat_lt _) (UINT128_t.toNat_lt _),
    UINT128_t.toNat_inj, mk.injEq]

/-- A result that is right modulo `2 ^ 256` is the number modulo `2 ^ 256`. -/
theorem toNat_eq_mod {a : UINT256_t} {x : Nat} (h : a.toNat ≡ x [MOD 2 ^ 128 * 2 ^ 128]) :
    a.toNat = x % 2 ^ 256 := by
  rw [two_pow_256]
  exact eq_mod_of_modEq a.upper.toNat_lt a.lower.toNat_lt h

theorem toNat_ofUINT128 (rhs : UINT128_t) : (ofUINT128 rhs).toNat = rhs.toNat := by
  rw [toNat, ofUINT128, UINT128_t.toNat_zero, val, Nat.zero_mul, Nat.zero_add]

theorem toNat_ofUInt64 (rhs : UInt64) : (ofUInt64 rhs).toNat = rhs.toNat :=
  (toNat_ofUINT128 _).trans (UINT128_t.toNat_ofUInt64 rhs)

theorem toNat_add (a b : UINT256_t) : (a + b).toNat = (a.toNat + b.toNat) % 2 ^ 256 := by
  have hlo := carry_eq a.lower.toNat_lt b.lower.toNat_lt
  rw [← UINT128_t.toNat_add] at hlo
  refine toNat_eq_mod (add_modEq hlo ?_)
  show (a.upper + b.upper + _ : UINT128_t).toNat ≡ _ [MOD 2 ^ 128]
  have hcarry : (if (a.lower + b.lower).lt a.lower then 1 else 0 : UINT128_t).toNat
      = if (a.lower + b.lower).toNat < a.lower.toNat then 1 else 0 := by
    simp only [UINT128_t.lt_iff]
    split <;> rfl
  rw [UINT128_t.toNat_add, UINT128_t.toNat_add, hcarry]
  exact (Nat.mod_modEq _ _).trans ((Nat.mod_modEq _ _).add_right _)

theorem toNat_sub_add (a b : UINT256_t) :
    (a - b).toNat + b.toNat ≡ a.toNat [MOD 2 ^ 128 * 2 ^ 128] := by
  have hlo : a.lower.toNat + ((a.lower - b.lower).gt a.lower).toUInt64.toNat * 2 ^ 128
      = (a.lower - b.lower).toNat + b.lower.toNat := by
    simp only [toNat_flag, UINT128_t.gt_iff, UINT128_t.toNat_sub]
    exact borrow_eq a.lower.toNat_lt b.lower.toNat_lt
  refine sub_modEq hlo ?_
  rw [Nat.add_right_comm]
  show (UINT128_t.subT _ _).toNat + _ + _ ≡ _ [MOD _]
  rw [UINT128_t.subT_eq, ← UINT128_t.toNat_ofUInt64, UINT128_t.two_pow_128]
  exact ((UINT128_t.toNat_sub_add _ _).add_right _).trans (UINT128_t.toNat_sub_add _ _)

/-! ### Shifts -/

theorem shift_ge_iff {b : UINT256_t} :
    (b.upper.gtT 0 || b.lower.ge 256) = true ↔ 256 ≤ b.toNat := by
  have hlo := b.lower.toNat_lt
  rw [Bool.or_eq_true, UINT128_t.gtT_zero_iff, UINT128_t.ge_iff, toNat, val]
  show 0 < b.upper.toNat ∨ 256 ≤ b.lower.toNat ↔ _
  omega

theorem toNat_eq_lower {b : UINT256_t} (h : ¬(b.upper.gtT 0 || b.lower.ge 256) = true) :
    b.toNat = b.lower.toNat ∧ b.lower.toNat < 256 := by
  have hlt : b.toNat < 256 := not_le.mp (mt shift_ge_iff.mpr h)
  rw [Bool.or_eq_true, not_or, UINT128_t.gtT_zero_iff, Nat.pos_iff_ne_zero, not_not] at h
  have hb : b.toNat = b.lower.toNat := by rw [toNat, val, h.1, Nat.zero_mul, Nat.zero_add]
  exact ⟨hb, hb ▸ hlt⟩

/-- The last test of a shift is always passed. -/
theorem shift_mid {s : UINT128_t} (hs : s.toNat < 256) (h128 : ¬s.eq 128 = true)
    (hlt : ¬s.lt 128 = true) : (UINT128_t.gt 256 s && s.gt 128) = true := by
  rw [UINT128_t.eq_iff] at h128
  rw [UINT128_t.lt_iff] at hlt
  rw [Bool.and_eq_true, UINT128_t.gt_iff, UINT128_t.gt_iff]
  have h' : (128 : UINT128_t).toNat = 128 := rfl
  refine ⟨hs, ?_⟩
  omega

theorem toNat_shiftLeft (a b : UINT256_t) :
    (a <<< b).toNat = a.toNat * 2 ^ b.toNat % 2 ^ 256 := by
  show (a.shiftLeft b).toNat = _
  simp only [shiftLeft]
  split
  case isTrue h =>
    rw [mul_two_pow_mod_of_le _ (shift_ge_iff.mp h)]
    rfl
  case isFalse h =>
    obtain ⟨hb, hs⟩ := toNat_eq_lower h
    rw [hb]
    refine toNat_eq_mod ?_
    split_ifs with h128 h0 hlt hmid
    · -- the low half moves up whole
      have hs : b.lower.toNat = 128 := UINT128_t.eq_iff.mp h128
      rw [hs, toNat, UINT128_t.toNat_zero]
      exact shl_modEq_of_ge (Nat.le_refl 128) (by rw [Nat.sub_self, pow_zero, Nat.mul_one])
    · have hs : b.lower.toNat = 0 := UINT128_t.eq_iff.mp h0
      rw [hs, pow_zero, Nat.mul_one]
    · have hlt : b.lower.toNat < 128 := UINT128_t.lt_iff.mp hlt
      have hsub : ((128 : UINT128_t) - b.lower).toNat = 128 - b.lower.toNat :=
        UINT128_t.toNat_sub_of_le hlt.le
      rw [toNat, UINT128_t.toNat_shiftLeft]
      refine shl_modEq_of_le hlt.le ?_
      rw [UINT128_t.toNat_add, UINT128_t.toNat_shiftLeft, UINT128_t.toNat_shiftRight, hsub]
      exact (Nat.mod_modEq _ _).trans ((Nat.mod_modEq _ _).add_right _)
    · rw [Bool.and_eq_true] at hmid
      have hge : 128 ≤ b.lower.toNat := (UINT128_t.gt_iff.mp hmid.2).le
      have hsub : (b.lower - (128 : UINT128_t)).toNat = b.lower.toNat - 128 :=
        UINT128_t.toNat_sub_of_le hge
      rw [toNat, UINT128_t.toNat_zero]
      refine shl_modEq_of_ge hge ?_
      rw [UINT128_t.toNat_shiftLeft, hsub]
      exact Nat.mod_modEq _ _
    · exact absurd (shift_mid hs h128 hlt) hmid

theorem toNat_shiftRight (a b : UINT256_t) :
    (a >>> b).toNat = a.toNat / 2 ^ b.toNat := by
  show (a.shiftRight b).toNat = _
  have hal := a.lower.toNat_lt
  simp only [shiftRight]
  split
  case isTrue h =>
    rw [div_two_pow_of_le a.toNat_lt (shift_ge_iff.mp h)]
    rfl
  case isFalse h =>
    obtain ⟨hb, hs⟩ := toNat_eq_lower h
    rw [hb]
    split_ifs with h128 h0 hlt hmid
    · -- the high half moves down whole
      have hs : b.lower.toNat = 128 := UINT128_t.eq_iff.mp h128
      rw [hs, toNat_ofUINT128, toNat, ← shr_of_ge (Nat.le_refl 128) hal, Nat.sub_self, pow_zero,
        Nat.div_one]
    · have hs : b.lower.toNat = 0 := UINT128_t.eq_iff.mp h0
      rw [hs, pow_zero, Nat.div_one]
    · have hlt : b.lower.toNat < 128 := UINT128_t.lt_iff.mp hlt
      have hsub : ((128 : UINT128_t) - b.lower).toNat = 128 - b.lower.toNat :=
        UINT128_t.toNat_sub_of_le hlt.le
      have hlow : (a.upper <<< ((128 : UINT128_t) - b.lower) + a.lower >>> b.lower).toNat
          = a.upper.toNat * 2 ^ (128 - b.lower.toNat) % 2 ^ 128
            + a.lower.toNat / 2 ^ b.lower.toNat := by
        rw [UINT128_t.toNat_add, UINT128_t.toNat_shiftLeft, UINT128_t.toNat_shiftRight, hsub]
        exact Nat.mod_eq_of_lt (shr_low_lt hlt.le hal)
      rw [toNat, UINT128_t.toNat_shiftRight, hlow]
      exact shr_of_le hlt.le
    · rw [Bool.and_eq_true] at hmid
      have hge : 128 ≤ b.lower.toNat := (UINT128_t.gt_iff.mp hmid.2).le
      have hsub : (b.lower - (128 : UINT128_t)).toNat = b.lower.toNat - 128 :=
        UINT128_t.toNat_sub_of_le hge
      rw [toNat_ofUINT128, UINT128_t.toNat_shiftRight, hsub, toNat, ← shr_of_ge hge hal]
    · exact absurd (shift_mid hs h128 hlt) hmid

/-! ### Comparisons -/

theorem eq_iff {a b : UINT256_t} : a.eq b = true ↔ a.toNat = b.toNat := by
  rw [eq, Bool.and_eq_true, UINT128_t.eq_iff, UINT128_t.eq_iff, toNat, toNat,
    val_inj a.lower.toNat_lt b.lower.toNat_lt]

theorem ne_iff {a b : UINT256_t} : a.ne b = true ↔ a.toNat ≠ b.toNat := by
  rw [ne, Bool.or_eq_true, UINT128_t.ne_iff, UINT128_t.ne_iff, ← not_and_or, toNat, toNat,
    ne_eq, val_inj a.lower.toNat_lt b.lower.toNat_lt]

theorem lt_iff {a b : UINT256_t} : a.lt b = true ↔ a.toNat < b.toNat := by
  rw [toNat, toNat, val_lt_val a.lower.toNat_lt b.lower.toNat_lt, lt]
  by_cases h : a.upper.toNat = b.upper.toNat
  · rw [if_pos (UINT128_t.eq_iff.mpr h), if_pos h, UINT128_t.lt_iff]
  · rw [if_neg (mt UINT128_t.eq_iff.mp h), if_neg h, ← UINT128_t.lt_iff]
    simp

theorem gt_iff {a b : UINT256_t} : a.gt b = true ↔ b.toNat < a.toNat := by
  rw [toNat, toNat, val_lt_val b.lower.toNat_lt a.lower.toNat_lt, gt]
  by_cases h : b.upper.toNat = a.upper.toNat
  · rw [if_pos (UINT128_t.eq_iff.mpr h.symm), if_pos h, UINT128_t.gt_iff]
  · rw [if_neg (mt UINT128_t.eq_iff.mp (Ne.symm h)), if_neg h, ← UINT128_t.gt_iff]
    simp

theorem ge_iff {a b : UINT256_t} : a.ge b = true ↔ b.toNat ≤ a.toNat := by
  rw [ge, Bool.or_eq_true, gt_iff, eq_iff, Nat.le_iff_lt_or_eq, eq_comm]

theorem le_iff {a b : UINT256_t} : a.le b = true ↔ a.toNat ≤ b.toNat := by
  rw [le, Bool.or_eq_true, lt_iff, eq_iff, Nat.le_iff_lt_or_eq]

/-! ### Products -/

/-- The words of a `UINT128_t`, as the code makes them `UINT128_t` again. -/
theorem toNat_lo (x : UINT128_t) : (UINT128_t.ofUInt64 x.lower).toNat = x.toNat % 2 ^ 64 := by
  rw [UINT128_t.toNat_ofUInt64, UINT128_t.toNat, val_mod x.lower.toNat_lt]

theorem toNat_hi (x : UINT128_t) : (UINT128_t.ofUInt64 x.upper).toNat = x.toNat / 2 ^ 64 := by
  rw [UINT128_t.toNat_ofUInt64, UINT128_t.toNat, val_div x.lower.toNat_lt]

theorem toNat_ofUInt64_lt (x : UInt64) : (UINT128_t.ofUInt64 x).toNat < 1 * 2 ^ 64 := by
  rw [UINT128_t.toNat_ofUInt64, Nat.one_mul]
  exact x.toNat_lt

theorem toNat_add_small {x y : UINT128_t} {m n : Nat} (hx : x.toNat < m * 2 ^ 64)
    (hy : y.toNat < n * 2 ^ 64) (hmn : m + n ≤ 2 ^ 64) :
    (x + y).toNat = x.toNat + y.toNat ∧ (x + y).toNat < (m + n) * 2 ^ 64 := by
  have hsum : x.toNat + y.toNat < (m + n) * 2 ^ 64 := by
    rw [Nat.add_mul]
    exact Nat.add_lt_add hx hy
  have hadd : (x + y).toNat = x.toNat + y.toNat := by
    rw [UINT128_t.toNat_add, UINT128_t.two_pow_128]
    exact Nat.mod_eq_of_lt (hsum.trans_le (Nat.mul_le_mul_right _ hmn))
  exact ⟨hadd, hadd ▸ hsum⟩

theorem toNat_parts (a : UINT256_t) : a.toNat = digits (2 ^ 64) (a.parts 0).toNat
    (a.parts 1).toNat (a.parts 2).toNat (a.parts 3).toNat := by
  show a.toNat = digits (2 ^ 64) (UINT128_t.ofUInt64 a.upper.upper).toNat
    (UINT128_t.ofUInt64 a.upper.lower).toNat (UINT128_t.ofUInt64 a.lower.upper).toNat
    (UINT128_t.ofUInt64 a.lower.lower).toNat
  simp only [UINT128_t.toNat_ofUInt64]
  simp only [digits, toNat, UINT128_t.toNat, val]
  ring

theorem parts_lt (a : UINT256_t) (i : Fin 4) : (a.parts i).toNat < 2 ^ 64 := by
  match i with
  | 0 => exact toNat_ofUInt64_lt a.upper.upper
  | 1 => exact toNat_ofUInt64_lt a.upper.lower
  | 2 => exact toNat_ofUInt64_lt a.lower.upper
  | 3 => exact toNat_ofUInt64_lt a.lower.lower

theorem toNat_mul_parts (a b : UINT256_t) (i j : Fin 4) :
    (a.parts i * b.parts j).toNat = (a.parts i).toNat * (b.parts j).toNat := by
  rw [UINT128_t.toNat_mul, UINT128_t.two_pow_128]
  exact Nat.mod_eq_of_lt (Nat.mul_lt_mul'' (a.parts_lt i) (b.parts_lt j))

/-- The four columns, each at its place. -/
theorem toNat_columns (f s t u : UINT128_t) :
    ((⟨f <<< (64 : UINT128_t), 0⟩ : UINT256_t)
      + ⟨UINT128_t.ofUInt64 t.upper, t <<< (64 : UINT128_t)⟩ + ⟨s, 0⟩ + ofUINT128 u).toNat
      ≡ digits (2 ^ 64) f.toNat s.toNat t.toNat u.toNat [MOD (2 ^ 64) ^ 4] := by
  have hD : (2 ^ 64) ^ 4 = 2 ^ 256 := by norm_num
  have hf :
      (⟨f <<< (64 : UINT128_t), 0⟩ : UINT256_t).toNat ≡ f.toNat * (2 ^ 64) ^ 3 [MOD 2 ^ 256] := by
    rw [toNat, UINT128_t.toNat_zero, UINT128_t.toNat_shiftLeft, val, two_pow_256, Nat.add_zero]
    refine ((Nat.mod_modEq _ _).mul_right' _).trans (congrArg (· % _) ?_)
    show f.toNat * 2 ^ 64 * 2 ^ 128 = _
    ring
  have ht : (⟨UINT128_t.ofUInt64 t.upper, t <<< (64 : UINT128_t)⟩ : UINT256_t).toNat
      = t.toNat * 2 ^ 64 := by
    have hlow : t.toNat % 2 ^ 64 = t.lower.toNat := val_mod t.lower.toNat_lt
    rw [toNat, toNat_hi, UINT128_t.toNat_shiftLeft, val]
    show t.toNat / 2 ^ 64 * 2 ^ 128 + t.toNat * 2 ^ 64 % 2 ^ 128 = _
    rw [UINT128_t.two_pow_128, Nat.mul_mod_mul_right, ← Nat.mul_assoc, ← Nat.add_mul,
      Nat.div_add_mod']
  have hs : (⟨s, 0⟩ : UINT256_t).toNat = s.toNat * (2 ^ 64) ^ 2 := by
    rw [toNat, UINT128_t.toNat_zero, val, Nat.add_zero]
    ring
  rw [hD, toNat_add, toNat_add, toNat_add, toNat_ofUINT128, ht, hs]
  calc _ ≡ (f.toNat * (2 ^ 64) ^ 3 + t.toNat * 2 ^ 64) + s.toNat * (2 ^ 64) ^ 2 + u.toNat
        [MOD 2 ^ 256] :=
        (Nat.mod_modEq _ _).trans (((Nat.mod_modEq _ _).trans (((Nat.mod_modEq _ _).trans
          (hf.add_right _)).add_right _)).add_right _)
    _ = digits (2 ^ 64) f.toNat s.toNat t.toNat u.toNat := by
        rw [digits]
        ring

theorem toNat_addRows (p : Fin 4 → Fin 4 → UINT128_t) :
    (addRows p).toNat ≡ digits (2 ^ 64)
      ((p 0 0).toNat % 2 ^ 64 + (p 0 1).toNat / 2 ^ 64 + (p 1 1).toNat % 2 ^ 64
        + (p 1 2).toNat / 2 ^ 64 + (p 2 2).toNat % 2 ^ 64 + (p 2 3).toNat / 2 ^ 64
        + (p 3 3).toNat % 2 ^ 64)
      ((p 0 1).toNat % 2 ^ 64 + (p 0 2).toNat / 2 ^ 64 + (p 1 2).toNat % 2 ^ 64
        + (p 1 3).toNat / 2 ^ 64 + (p 2 3).toNat % 2 ^ 64)
      ((p 0 2).toNat % 2 ^ 64 + (p 0 3).toNat / 2 ^ 64 + (p 1 3).toNat % 2 ^ 64)
      ((p 0 3).toNat % 2 ^ 64) [MOD (2 ^ 64) ^ 4] := by
  have hw := toNat_ofUInt64_lt
  have h₃ := toNat_add_small (hw (p 0 2).lower) (hw (p 0 3).upper) (by norm_num)
  have h₃' := toNat_add_small h₃.2 (hw (p 1 3).lower) (by norm_num)
  have h₂ := toNat_add_small (hw (p 0 1).lower) (hw (p 0 2).upper) (by norm_num)
  have h₂' := toNat_add_small h₂.2 (hw (p 1 2).lower) (by norm_num)
  have h₂'' := toNat_add_small h₂'.2 (hw (p 1 3).upper) (by norm_num)
  have h₂''' := toNat_add_small h₂''.2 (hw (p 2 3).lower) (by norm_num)
  have h₁ := toNat_add_small (hw (p 0 0).lower) (hw (p 0 1).upper) (by norm_num)
  have h₁' := toNat_add_small h₁.2 (hw (p 1 1).lower) (by norm_num)
  have h₁'' := toNat_add_small h₁'.2 (hw (p 1 2).upper) (by norm_num)
  have g₁ := toNat_add_small h₁''.2 (hw (p 2 2).lower) (by norm_num)
  have g₁' := toNat_add_small g₁.2 (hw (p 2 3).upper) (by norm_num)
  have g₁'' := toNat_add_small g₁'.2 (hw (p 3 3).lower) (by norm_num)
  refine (toNat_columns _ _ _ _).trans (congrArg (· % (2 ^ 64) ^ 4) ?_)
  rw [g₁''.1, g₁'.1, g₁.1, h₁''.1, h₁'.1, h₁.1, h₂'''.1, h₂''.1, h₂'.1, h₂.1, h₃'.1, h₃.1]
  simp only [toNat_lo, toNat_hi]

theorem toNat_mul (a b : UINT256_t) : (a * b).toNat = a.toNat * b.toNat % 2 ^ 256 := by
  have hD : 2 ^ 128 * 2 ^ 128 = (2 ^ 64) ^ 4 := by norm_num
  have hmul : a * b = addRows fun r x => a.parts x * b.parts (3 - r) := rfl
  have hp i j : (a.parts i * b.parts j).toNat = (b.parts j).toNat * (a.parts i).toNat := by
    rw [toNat_mul_parts, Nat.mul_comm]
  refine toNat_eq_mod ?_
  rw [Nat.mul_comm a.toNat, toNat_parts a, toNat_parts b, hD, hmul]
  refine (toNat_addRows _).trans ?_
  simp only [hp]
  exact schoolbook (2 ^ 64) (fun i => (b.parts i).toNat) (fun j => (a.parts j).toNat)

/-! ### Bit lengths -/

theorem toNat_countBits (word : UINT128_t) (out : UInt16)
    (h : out.toNat + word.toNat.size < 2 ^ 16) :
    (countBits word out).toNat = out.toNat + word.toNat.size := by
  induction word, out using countBits.induct with
  | case1 word out hne ih =>
      have hsize := size_half (UINT128_t.neT_zero_iff.mp hne)
      have hout : (out + 1).toNat = out.toNat + 1 := by
        rw [UInt16.toNat_add]
        exact Nat.mod_eq_of_lt (by show _ + 1 < 2 ^ 16; omega)
      rw [countBits, if_pos hne, ih (by rw [hout, UINT128_t.toNat_half]; omega), hout,
        UINT128_t.toNat_half]
      omega
  | case2 word out hzero =>
      have hword : word.toNat = 0 := not_not.mp (mt UINT128_t.neT_zero_iff.mpr hzero)
      rw [countBits, if_neg hzero, hword, Nat.size_zero]
      rfl

theorem toNat_bits (a : UINT256_t) : a.bits.toNat = a.toNat.size := by
  have hup := Nat.size_le.mpr a.upper.toNat_lt
  have hlo := Nat.size_le.mpr a.lower.toNat_lt
  rw [bits]
  by_cases h : a.upper.neT 0 = true
  · rw [if_pos h, toNat_countBits _ _ (by show 128 + _ < _; omega), toNat, val,
      size_add_of_pos (UINT128_t.neT_zero_iff.mp h) a.lower.toNat_lt]
    rfl
  · have hup0 : a.upper.toNat = 0 := not_not.mp (mt UINT128_t.neT_zero_iff.mpr h)
    rw [if_neg h, toNat_countBits _ _ (by show 0 + _ < _; omega), toNat, val, hup0,
      Nat.zero_mul, Nat.zero_add]
    exact Nat.zero_add _

/-- The operators of the class. -/
def operators : Operators UINT256_t where
  add := (· + ·)
  sub := (· - ·)
  mul := (· * ·)
  shl := (· <<< ·)
  shr := (· >>> ·)
  lt := lt
  le := le
  gt := gt
  ge := ge
  eq := eq
  ne := ne
  bits a := a.bits.toNat

theorem modular : operators.Modular 256 toNat where
  toNat_lt := toNat_lt
  toNat_inj _ _ := toNat_inj
  add := toNat_add
  sub a b := Operators.sub_emod_of_modEq (toNat_lt _) (two_pow_256 ▸ toNat_sub_add a b)
  mul := toNat_mul
  shl := toNat_shiftLeft
  shr := toNat_shiftRight
  lt _ _ := lt_iff
  le _ _ := le_iff
  gt _ _ := gt_iff
  ge _ _ := ge_iff
  eq _ _ := eq_iff
  ne _ _ := ne_iff
  bits := toNat_bits

/-! ### The overloads for integral types -/

theorem addT_eq (a : UINT256_t) (rhs : UInt64) : a.addT rhs = a + ofUInt64 rhs := by
  have hflag (c : Bool) : a.upper.addT c.toUInt64 = a.upper + 0 + (if c then 1 else 0) := by
    rw [UINT128_t.addT_eq, UINT128_t.add_zero]
    cases c <;> rfl
  exact congrArg (UINT256_t.mk · _) (hflag _)

theorem subT_eq (a : UINT256_t) (rhs : UInt64) : a.subT rhs = a - ofUInt64 rhs := by
  have hup : a.upper - 0 = a.upper := a.upper.sub_zero
  show a.subT rhs = ⟨(a.upper - 0).subT _, a.lower - UINT128_t.ofUInt64 rhs⟩
  rw [subT, UINT128_t.subT_eq a.lower, hup]
  rfl

theorem eqT_eq (a : UINT256_t) (rhs : UInt64) : a.eqT rhs = a.eq (ofUInt64 rhs) := rfl

theorem neT_eq (a : UINT256_t) (rhs : UInt64) : a.neT rhs = a.ne (ofUInt64 rhs) := by
  have hup : a.upper.gtT 0 = a.upper.ne ⟨0, 0⟩ := by
    rw [Bool.eq_iff_iff, UINT128_t.gtT_zero_iff, UINT128_t.ne_iff]
    exact Nat.pos_iff_ne_zero
  rw [neT, ne, hup]
  rfl

theorem gtT_eq (a : UINT256_t) (rhs : UInt64) : a.gtT rhs = a.gt (ofUInt64 rhs) := by
  have hr := rhs.toNat_lt
  have hlo := a.lower.toNat_lt
  rw [Bool.eq_iff_iff, gt_iff, toNat_ofUInt64, gtT, Bool.or_eq_true, UINT128_t.gtT_zero_iff,
    UINT128_t.gt_iff, UINT128_t.toNat_ofUInt64, toNat, val]
  omega

theorem ltT_eq (a : UINT256_t) (rhs : UInt64) : a.ltT rhs = a.lt (ofUInt64 rhs) := by
  have hr := rhs.toNat_lt
  have hif : a.ltT rhs = (a.upper.eqT 0 && a.lower.lt (UINT128_t.ofUInt64 rhs)) := by
    rw [ltT]
    cases a.upper.eqT 0 <;> rfl
  rw [hif, Bool.eq_iff_iff, lt_iff, toNat_ofUInt64, Bool.and_eq_true, UINT128_t.eqT_zero_iff,
    UINT128_t.lt_iff, UINT128_t.toNat_ofUInt64, toNat, val]
  omega

theorem geT_eq (a : UINT256_t) (rhs : UInt64) : a.geT rhs = a.ge (ofUInt64 rhs) := by
  rw [geT, gtT_eq, eqT_eq, ge]

theorem leT_eq (a : UINT256_t) (rhs : UInt64) : a.leT rhs = a.le (ofUInt64 rhs) := by
  rw [leT, ltT_eq, eqT_eq, le]

/-- The overloads for integral types. -/
def overloads : Overloads UINT256_t UInt64 where
  add := addT
  sub := subT
  mul := mulT
  shl := shiftLeftT
  shr := shiftRightT
  lt := ltT
  le := leT
  gt := gtT
  ge := geT
  eq := eqT
  ne := neT

theorem agree : overloads.Agree operators ofUInt64 where
  add := addT_eq
  sub := subT_eq
  mul _ _ := rfl
  shl _ _ := rfl
  shr _ _ := rfl
  lt := ltT_eq
  le := leT_eq
  gt := gtT_eq
  ge := geT_eq
  eq := eqT_eq
  ne := neT_eq

end UINT256_t

/-- Both classes compute modulo the power of two of their width, shifts by the width or
more included, and their overloads for integral types do the same. -/
theorem uint_arithmetic :
    UINT128_t.operators.Modular 128 UINT128_t.toNat
      ∧ UINT128_t.overloads.Agree UINT128_t.operators UINT128_t.ofUInt64
      ∧ (∀ rhs, (UINT128_t.ofUInt64 rhs).toNat = rhs.toNat)
      ∧ UINT256_t.operators.Modular 256 UINT256_t.toNat
      ∧ UINT256_t.overloads.Agree UINT256_t.operators UINT256_t.ofUInt64
      ∧ (∀ rhs, (UINT256_t.ofUInt64 rhs).toNat = rhs.toNat)
      ∧ (∀ a b : UINT256_t, 256 ≤ b.toNat → (a <<< b).toNat = 0 ∧ (a >>> b).toNat = 0) :=
  ⟨UINT128_t.modular, UINT128_t.agree, UINT128_t.toNat_ofUInt64, UINT256_t.modular,
    UINT256_t.agree, UINT256_t.toNat_ofUInt64, fun _ _ => UINT256_t.modular.shift_of_le⟩

end Bleep
