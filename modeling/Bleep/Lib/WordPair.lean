/-
# `Bleep.Lib.WordPair` — arithmetic on a number kept as two words

A number below `B * B` is kept as a high and a low word below `B`.  The words wrap;
what the operations on the pair compute is stated here for any `B`, so that a class of
pairs of machine words and a class of pairs of such pairs are verified by the same lemmas.

Carries and borrows are read off wrapped words (`carry_eq`, `borrow_eq`), an addition or a
subtraction of pairs is right when its carry is (`add_modEq`, `sub_modEq`), a shift moves
bits between the words (`shl_*`, `shr_*`), and a product is the schoolbook product of four
digits of half a word each, whose digits above the fourth are dropped (`schoolbook`).

`Operators.Modular` says what it is for the operators of a class of unsigned integers to
be those of the numbers modulo `2 ^ w`.
-/
import Mathlib

/-! ## Unsigned integers of a fixed width -/

/-- The operators of a class of unsigned integers. -/
structure Operators (α : Type) where
  add : α → α → α
  sub : α → α → α
  mul : α → α → α
  shl : α → α → α
  shr : α → α → α
  lt : α → α → Bool
  le : α → α → Bool
  gt : α → α → Bool
  ge : α → α → Bool
  eq : α → α → Bool
  ne : α → α → Bool
  bits : α → Nat

/-- The same operators with a second operand of another type. -/
structure Overloads (α β : Type) where
  add : α → β → α
  sub : α → β → α
  mul : α → β → α
  shl : α → β → α
  shr : α → β → α
  lt : α → β → Bool
  le : α → β → Bool
  gt : α → β → Bool
  ge : α → β → Bool
  eq : α → β → Bool
  ne : α → β → Bool

/-- An overload does what the operator does with the operand converted. -/
structure Overloads.Agree {α β : Type} (v : Overloads α β) (o : Operators α)
    (conv : β → α) : Prop where
  add a b : v.add a b = o.add a (conv b)
  sub a b : v.sub a b = o.sub a (conv b)
  mul a b : v.mul a b = o.mul a (conv b)
  shl a b : v.shl a b = o.shl a (conv b)
  shr a b : v.shr a b = o.shr a (conv b)
  lt a b : v.lt a b = o.lt a (conv b)
  le a b : v.le a b = o.le a (conv b)
  gt a b : v.gt a b = o.gt a (conv b)
  ge a b : v.ge a b = o.ge a (conv b)
  eq a b : v.eq a b = o.eq a (conv b)
  ne a b : v.ne a b = o.ne a (conv b)

/-- The values are the numbers below `2 ^ w`, and the operators compute modulo `2 ^ w`. -/
structure Operators.Modular {α : Type} (o : Operators α) (w : Nat) (toNat : α → Nat) :
    Prop where
  toNat_lt a : toNat a < 2 ^ w
  toNat_inj a b : toNat a = toNat b ↔ a = b
  add a b : toNat (o.add a b) = (toNat a + toNat b) % 2 ^ w
  sub a b : (toNat (o.sub a b) : Int) = ((toNat a : Int) - toNat b) % 2 ^ w
  mul a b : toNat (o.mul a b) = toNat a * toNat b % 2 ^ w
  shl a b : toNat (o.shl a b) = toNat a * 2 ^ toNat b % 2 ^ w
  shr a b : toNat (o.shr a b) = toNat a / 2 ^ toNat b
  lt a b : o.lt a b = true ↔ toNat a < toNat b
  le a b : o.le a b = true ↔ toNat a ≤ toNat b
  gt a b : o.gt a b = true ↔ toNat b < toNat a
  ge a b : o.ge a b = true ↔ toNat b ≤ toNat a
  eq a b : o.eq a b = true ↔ toNat a = toNat b
  ne a b : o.ne a b = true ↔ toNat a ≠ toNat b
  bits a : o.bits a = (toNat a).size

theorem mul_two_pow_mod_of_le {w s : Nat} (x : Nat) (h : w ≤ s) : x * 2 ^ s % 2 ^ w = 0 :=
  Nat.mod_eq_zero_of_dvd ((pow_dvd_pow 2 h).trans (Nat.dvd_mul_left _ _))

theorem div_two_pow_of_le {w s x : Nat} (hx : x < 2 ^ w) (h : w ≤ s) : x / 2 ^ s = 0 :=
  Nat.div_eq_of_lt (hx.trans_le (Nat.pow_le_pow_right Nat.two_pos h))

namespace Operators.Modular

variable {α : Type} {o : Operators α} {w : Nat} {toNat : α → Nat}

theorem shift_of_le (h : o.Modular w toNat) {a b : α} (hb : w ≤ toNat b) :
    toNat (o.shl a b) = 0 ∧ toNat (o.shr a b) = 0 := by
  constructor
  · rw [h.shl, mul_two_pow_mod_of_le _ hb]
  · rw [h.shr, div_two_pow_of_le (h.toNat_lt a) hb]

end Operators.Modular

/-- A difference modulo `M` is known from its sum with what was subtracted. -/
theorem Operators.sub_emod_of_modEq {M r x y : Nat} (hr : r < M) (h : r + y ≡ x [MOD M]) :
    (r : Int) = ((x : Int) - y) % M := by
  have hd : (x : Int) - y ≡ r [ZMOD M] := by
    have h' : ((r + y : Nat) : Int) ≡ x [ZMOD M] := Int.natCast_modEq_iff.mpr h
    push_cast at h'
    simpa using (h'.sub_right (y : Int)).symm
  rw [hd.eq, Int.emod_eq_of_lt (Int.natCast_nonneg r) (Int.ofNat_lt.mpr hr)]

/-! ## Bit lengths -/

theorem size_half {n : Nat} (hn : n ≠ 0) : n.size = (n / 2).size + 1 := by
  have hiff k : n.size ≤ k + 1 ↔ (n / 2).size ≤ k := by
    rw [Nat.size_le, Nat.size_le, Nat.div_lt_iff_lt_mul Nat.two_pos, pow_succ]
  have hpos : 0 < n.size := Nat.size_pos.mpr (Nat.pos_of_ne_zero hn)
  refine Nat.le_antisymm ((hiff _).mpr (Nat.le_refl _)) ?_
  have hle := (hiff (n.size - 1)).mp (by omega)
  omega

theorem size_add_of_pos {w u l : Nat} (hu : u ≠ 0) (hl : l < 2 ^ w) :
    (u * 2 ^ w + l).size = w + u.size := by
  have hiff k : (u * 2 ^ w + l).size ≤ w + k ↔ u.size ≤ k := by
    rw [Nat.size_le, Nat.size_le, pow_add, Nat.mul_comm (2 ^ w), ← Nat.div_lt_iff_lt_mul
      (Nat.two_pow_pos w), Nat.add_comm, Nat.add_mul_div_right _ _ (Nat.two_pow_pos w),
      Nat.div_eq_of_lt hl, Nat.zero_add]
  have hlow : w < (u * 2 ^ w + l).size :=
    Nat.lt_size.mpr (by have := Nat.mul_le_mul_right (2 ^ w) (Nat.pos_of_ne_zero hu); omega)
  refine Nat.le_antisymm ((hiff _).mpr (Nat.le_refl _)) ?_
  have hle := (hiff ((u * 2 ^ w + l).size - w)).mp (by omega)
  omega

namespace WordPair

variable {B : Nat}

/-- The number kept as the words `hi` and `lo` below `B`. -/
def val (B hi lo : Nat) : Nat := hi * B + lo

theorem val_lt {hi lo : Nat} (hhi : hi < B) (hlo : lo < B) : val B hi lo < B * B := by
  calc hi * B + lo < hi * B + B := Nat.add_lt_add_left hlo _
    _ = (hi + 1) * B := (Nat.succ_mul hi B).symm
    _ ≤ B * B := Nat.mul_le_mul_right B hhi

theorem eq_mod_of_modEq {hi lo x : Nat} (hhi : hi < B) (hlo : lo < B)
    (h : val B hi lo ≡ x [MOD B * B]) : val B hi lo = x % (B * B) := by
  rw [← Nat.mod_eq_of_lt (val_lt hhi hlo)]
  exact h

theorem val_div {hi lo : Nat} (hlo : lo < B) : val B hi lo / B = hi := by
  have hB : 0 < B := Nat.zero_lt_of_lt hlo
  rw [val, Nat.add_comm, Nat.add_mul_div_right _ _ hB, Nat.div_eq_of_lt hlo, Nat.zero_add]

theorem val_mod {hi lo : Nat} (hlo : lo < B) : val B hi lo % B = lo := by
  rw [val, Nat.add_comm, Nat.add_mul_mod_self_right, Nat.mod_eq_of_lt hlo]

theorem val_inj {u l v m : Nat} (hl : l < B) (hm : m < B) :
    val B u l = val B v m ↔ u = v ∧ l = m := by
  constructor
  · intro h
    have hdiv := congrArg (· / B) h
    have hmod := congrArg (· % B) h
    simp only [val_div hl, val_div hm] at hdiv
    simp only [val_mod hl, val_mod hm] at hmod
    exact ⟨hdiv, hmod⟩
  · rintro ⟨rfl, rfl⟩
    rfl

theorem val_or {w u l v m : Nat} (hl : l < 2 ^ w) (hm : m < 2 ^ w) :
    val (2 ^ w) (u ||| v) (l ||| m) = val (2 ^ w) u l ||| val (2 ^ w) v m := by
  have hor := Nat.or_lt_two_pow hl hm
  simp only [val, ← Nat.shiftLeft_eq, Nat.shiftLeft_add_eq_or_of_lt hl,
    Nat.shiftLeft_add_eq_or_of_lt hm, Nat.shiftLeft_add_eq_or_of_lt hor]
  rw [Nat.shiftLeft_or_distrib]
  ac_rfl

theorem val_lt_val {u l v m : Nat} (hl : l < B) (hm : m < B) :
    val B u l < val B v m ↔ if u = v then l < m else u < v := by
  split
  case isTrue h =>
    subst h
    exact Nat.add_lt_add_iff_left
  case isFalse h =>
    constructor
    · intro hlt
      by_contra hge
      have hvu : v + 1 ≤ u := by omega
      have hle := Nat.mul_le_mul_right B hvu
      rw [Nat.succ_mul] at hle
      simp only [val] at hlt
      omega
    · intro huv
      have hle := Nat.mul_le_mul_right B (Nat.succ_le_of_lt huv)
      rw [Nat.succ_mul] at hle
      simp only [val]
      omega

/-! ## Sums and differences -/

/-- A wrapped sum is below its first operand just when it wrapped. -/
theorem carry_eq {l m : Nat} (hl : l < B) (hm : m < B) :
    l + m = (if (l + m) % B < l then 1 else 0) * B + (l + m) % B := by
  rcases Nat.lt_or_ge (l + m) B with h | h
  · rw [Nat.mod_eq_of_lt h, if_neg (by omega)]
    omega
  · have hw : (l + m) % B = l + m - B := by
      rw [Nat.mod_eq_sub_mod h, Nat.mod_eq_of_lt (by omega)]
    rw [hw, if_pos (by omega)]
    omega

/-- A wrapped difference is above its first operand just when it borrowed. -/
theorem borrow_eq {l m : Nat} (hl : l < B) (hm : m < B) :
    l + (if l < (B - m + l) % B then 1 else 0) * B = (B - m + l) % B + m := by
  rcases Nat.lt_or_ge l m with h | h
  · rw [Nat.mod_eq_of_lt (by omega : B - m + l < B), if_pos (by omega)]
    omega
  · have hw : (B - m + l) % B = l - m := by
      rw [Nat.mod_eq_sub_mod (by omega), Nat.mod_eq_of_lt (by omega)]
      omega
    rw [hw, if_neg (by omega)]
    omega

theorem add_modEq {u l v m c s t : Nat} (hlo : l + m = c * B + t)
    (hhi : s ≡ u + v + c [MOD B]) :
    val B s t ≡ val B u l + val B v m [MOD B * B] := by
  calc s * B + t ≡ (u + v + c) * B + t [MOD B * B] := (hhi.mul_right' B).add_right t
    _ = u * B + v * B + (l + m) := by rw [hlo]; ring
    _ = u * B + l + (v * B + m) := by ring

theorem sub_modEq {u l v m c s t : Nat} (hlo : l + c * B = t + m)
    (hhi : s + v + c ≡ u [MOD B]) :
    val B s t + val B v m ≡ val B u l [MOD B * B] := by
  -- the borrow is taken from the high word on both sides
  refine Nat.ModEq.add_right_cancel' (c * B) ?_
  calc s * B + t + (v * B + m) + c * B = (s + v + c) * B + (t + m) := by ring
    _ ≡ u * B + (t + m) [MOD B * B] := (hhi.mul_right' B).add_right (t + m)
    _ = u * B + l + c * B := by rw [← hlo]; ring

/-! ## Shifts

The words have `w` bits.  A shift by less than `w` moves bits from one word into the
other, one by `w` or more moves a whole word. -/

variable {w s : Nat}

/-- The bits that leave the low word on the left enter the high one. -/
theorem shl_low (l : Nat) (hs : s ≤ w) :
    l * 2 ^ s = l / 2 ^ (w - s) * 2 ^ w + l * 2 ^ s % 2 ^ w := by
  have hw : 2 ^ w = 2 ^ (w - s) * 2 ^ s := by rw [← pow_add, Nat.sub_add_cancel hs]
  have hdiv : l * 2 ^ s / 2 ^ w = l / 2 ^ (w - s) := by
    rw [hw, Nat.mul_div_mul_right _ _ (Nat.two_pow_pos s)]
  rw [← hdiv, Nat.mul_comm _ (2 ^ w)]
  exact (Nat.div_add_mod _ _).symm

theorem shl_modEq_of_le {u l t : Nat} (hs : s ≤ w)
    (hhi : t ≡ u * 2 ^ s + l / 2 ^ (w - s) [MOD 2 ^ w]) :
    val (2 ^ w) t (l * 2 ^ s % 2 ^ w) ≡ val (2 ^ w) u l * 2 ^ s [MOD 2 ^ w * 2 ^ w] := by
  calc t * 2 ^ w + l * 2 ^ s % 2 ^ w
      ≡ (u * 2 ^ s + l / 2 ^ (w - s)) * 2 ^ w + l * 2 ^ s % 2 ^ w [MOD 2 ^ w * 2 ^ w] :=
        (hhi.mul_right' _).add_right _
    _ = u * 2 ^ s * 2 ^ w + l * 2 ^ s := by rw [Nat.add_mul, Nat.add_assoc, ← shl_low l hs]
    _ = (u * 2 ^ w + l) * 2 ^ s := by ring

theorem shl_modEq_of_ge {u l t : Nat} (hs : w ≤ s) (hhi : t ≡ l * 2 ^ (s - w) [MOD 2 ^ w]) :
    val (2 ^ w) t 0 ≡ val (2 ^ w) u l * 2 ^ s [MOD 2 ^ w * 2 ^ w] := by
  have hsw : 2 ^ s = 2 ^ (s - w) * 2 ^ w := by rw [← pow_add, Nat.sub_add_cancel hs]
  have hdrop : u * 2 ^ w * 2 ^ s ≡ 0 [MOD 2 ^ w * 2 ^ w] :=
    Nat.modEq_zero_iff_dvd.mpr ⟨u * 2 ^ (s - w), by rw [hsw]; ring⟩
  calc t * 2 ^ w + 0 ≡ l * 2 ^ (s - w) * 2 ^ w [MOD 2 ^ w * 2 ^ w] := hhi.mul_right' _
    _ = 0 + l * 2 ^ s := by rw [hsw]; ring
    _ ≡ u * 2 ^ w * 2 ^ s + l * 2 ^ s [MOD 2 ^ w * 2 ^ w] := hdrop.symm.add_right _
    _ = (u * 2 ^ w + l) * 2 ^ s := by ring

/-- The bits that leave the high word on the right enter the low one, without a carry. -/
theorem shr_low_lt {u l : Nat} (hs : s ≤ w) (hl : l < 2 ^ w) :
    u * 2 ^ (w - s) % 2 ^ w + l / 2 ^ s < 2 ^ w := by
  have hw : 2 ^ w = 2 ^ s * 2 ^ (w - s) := by rw [← pow_add, Nat.add_sub_cancel' hs]
  have hmod : u * 2 ^ (w - s) % 2 ^ w = u % 2 ^ s * 2 ^ (w - s) := by
    rw [hw, Nat.mul_mod_mul_right]
  have hlow : l / 2 ^ s < 2 ^ (w - s) := by
    rw [Nat.div_lt_iff_lt_mul (Nat.two_pow_pos s), Nat.mul_comm, ← hw]
    exact hl
  calc u * 2 ^ (w - s) % 2 ^ w + l / 2 ^ s
      < u % 2 ^ s * 2 ^ (w - s) + 2 ^ (w - s) := by rw [hmod]; omega
    _ = (u % 2 ^ s + 1) * 2 ^ (w - s) := (Nat.succ_mul _ _).symm
    _ ≤ 2 ^ s * 2 ^ (w - s) :=
        Nat.mul_le_mul_right _ (Nat.mod_lt u (Nat.two_pow_pos s))
    _ = 2 ^ w := hw.symm

theorem shr_of_le {u l : Nat} (hs : s ≤ w) :
    val (2 ^ w) (u / 2 ^ s) (u * 2 ^ (w - s) % 2 ^ w + l / 2 ^ s)
      = val (2 ^ w) u l / 2 ^ s := by
  have hw : 2 ^ w = 2 ^ s * 2 ^ (w - s) := by rw [← pow_add, Nat.add_sub_cancel' hs]
  have hhi : u / 2 ^ s * 2 ^ w + u * 2 ^ (w - s) % 2 ^ w = u * 2 ^ (w - s) := by
    have hdiv : u * 2 ^ (w - s) / 2 ^ w = u / 2 ^ s := by
      rw [hw, Nat.mul_div_mul_right _ _ (Nat.two_pow_pos (w - s))]
    rw [← hdiv]
    exact Nat.div_add_mod' _ _
  calc u / 2 ^ s * 2 ^ w + (u * 2 ^ (w - s) % 2 ^ w + l / 2 ^ s)
      = l / 2 ^ s + u * 2 ^ (w - s) := by rw [← Nat.add_assoc, hhi, Nat.add_comm]
    _ = (l + u * 2 ^ (w - s) * 2 ^ s) / 2 ^ s :=
        (Nat.add_mul_div_right _ _ (Nat.two_pow_pos s)).symm
    _ = (u * 2 ^ w + l) / 2 ^ s := by rw [hw]; congr 1; ring

theorem shr_of_ge {u l : Nat} (hs : w ≤ s) (hl : l < 2 ^ w) :
    u / 2 ^ (s - w) = val (2 ^ w) u l / 2 ^ s := by
  have hsw : 2 ^ s = 2 ^ w * 2 ^ (s - w) := by rw [← pow_add, Nat.add_sub_cancel' hs]
  rw [hsw, ← Nat.div_div_eq_div_mul, val_div hl]

/-! ## Products -/

/-- The number of four digits, the highest first. -/
def digits (D a₀ a₁ a₂ a₃ : Nat) : Nat := a₀ * D ^ 3 + a₁ * D ^ 2 + a₂ * D + a₃

/-- The schoolbook product of four digits by four.  Each product of two digits is split
into a low and a high digit; those of weight `D ^ 4` and above are never added up. -/
theorem schoolbook (D : Nat) (a b : Fin 4 → Nat) :
    digits D
      (a 3 * b 0 % D + a 3 * b 1 / D + a 2 * b 1 % D + a 2 * b 2 / D
        + a 1 * b 2 % D + a 1 * b 3 / D + a 0 * b 3 % D)
      (a 3 * b 1 % D + a 3 * b 2 / D + a 2 * b 2 % D + a 2 * b 3 / D + a 1 * b 3 % D)
      (a 3 * b 2 % D + a 3 * b 3 / D + a 2 * b 3 % D)
      (a 3 * b 3 % D)
      ≡ digits D (a 0) (a 1) (a 2) (a 3) * digits D (b 0) (b 1) (b 2) (b 3) [MOD D ^ 4] := by
  -- what has weight `D ^ 4` or more
  let dropped := a 0 * b 0 * D ^ 2 + (a 0 * b 1 + a 1 * b 0) * D
    + (a 0 * b 2 + a 1 * b 1 + a 2 * b 0)
    + (a 3 * b 0 / D + a 2 * b 1 / D + a 1 * b 2 / D + a 0 * b 3 / D)
  have hsplit (i j : Fin 4) : D * (a i * b j / D) + a i * b j % D = a i * b j :=
    Nat.div_add_mod _ _
  refine (Nat.add_modulus_mul_modEq_iff (b := dropped)).mp ?_
  refine congrArg (· % D ^ 4) ?_
  calc _ = ((D * (a 3 * b 0 / D) + a 3 * b 0 % D) + (D * (a 2 * b 1 / D) + a 2 * b 1 % D)
          + (D * (a 1 * b 2 / D) + a 1 * b 2 % D)
          + (D * (a 0 * b 3 / D) + a 0 * b 3 % D)) * D ^ 3
        + (a 0 * b 0 * D ^ 2 + (a 0 * b 1 + a 1 * b 0) * D
          + (a 0 * b 2 + a 1 * b 1 + a 2 * b 0)) * D ^ 4
        + ((D * (a 3 * b 1 / D) + a 3 * b 1 % D) + (D * (a 2 * b 2 / D) + a 2 * b 2 % D)
          + (D * (a 1 * b 3 / D) + a 1 * b 3 % D)) * D ^ 2
        + ((D * (a 3 * b 2 / D) + a 3 * b 2 % D)
          + (D * (a 2 * b 3 / D) + a 2 * b 3 % D)) * D
        + (D * (a 3 * b 3 / D) + a 3 * b 3 % D) := by
        simp only [digits, dropped]
        ring
    _ = digits D (a 0) (a 1) (a 2) (a 3) * digits D (b 0) (b 1) (b 2) (b 3) := by
        simp only [hsplit, digits]
        ring

theorem carries (D f₀ f₁ f₂ f₃ : Nat) :
    digits D
      ((f₀ + (f₁ + (f₂ + f₃ / D) / D) / D) % D)
      ((f₁ + (f₂ + f₃ / D) / D) % D)
      ((f₂ + f₃ / D) % D)
      (f₃ % D)
      ≡ digits D f₀ f₁ f₂ f₃ [MOD D ^ 4] := by
  let g₂ := f₂ + f₃ / D
  let g₁ := f₁ + g₂ / D
  let g₀ := f₀ + g₁ / D
  refine (Nat.add_modulus_mul_modEq_iff (b := g₀ / D)).mp (congrArg (· % D ^ 4) ?_)
  show digits D (g₀ % D) (g₁ % D) (g₂ % D) (f₃ % D) + D ^ 4 * (g₀ / D) = digits D f₀ f₁ f₂ f₃
  calc _ = (D * (g₀ / D) + g₀ % D) * D ^ 3 + g₁ % D * D ^ 2 + g₂ % D * D + f₃ % D := by
        simp only [digits]
        ring
    _ = f₀ * D ^ 3 + (D * (g₁ / D) + g₁ % D) * D ^ 2 + g₂ % D * D + f₃ % D := by
        rw [Nat.div_add_mod]
        simp only [g₀]
        ring
    _ = f₀ * D ^ 3 + f₁ * D ^ 2 + (D * (g₂ / D) + g₂ % D) * D + f₃ % D := by
        rw [Nat.div_add_mod]
        simp only [g₁]
        ring
    _ = f₀ * D ^ 3 + f₁ * D ^ 2 + f₂ * D + (D * (f₃ / D) + f₃ % D) := by
        rw [Nat.div_add_mod]
        simp only [g₂]
        ring
    _ = digits D f₀ f₁ f₂ f₃ := by rw [Nat.div_add_mod, digits]

end WordPair
