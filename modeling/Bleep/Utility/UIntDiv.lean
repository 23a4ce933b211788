/-
# `Bleep.Utility.UIntDiv` — division at both widths is Euclidean

`UINT128_t::divmod` brings down the bits of the dividend one by one; `UINT256_t::divmod`
aligns the divisor with the dividend and takes it off while it is shifted back.  Both have
the same early exits, and `%` is taken from `divmod` at the small width but computed back
from the quotient at the large one.

The two loops are `Loop.run` with the graded invariants of `Lib.LongDivision`: the grade
is the number of quotient bits still to come.  In every round the numbers in the words are
those of the division on unbounded numbers, so no shift drops a bit (`DivState.Exact`).
-/
import Bleep.Lib.LongDivision
import Bleep.Utility.UInt256

open WordPair

namespace Bleep

/-- What a division can end with instead of a result: the exception it throws, or the
bound on the tests of its loop. -/
inductive DivError
  | domain_error
  | running
  deriving DecidableEq, Repr

/-! ## The functions -/

namespace UINT128_t

/-- `operator|`. -/
def or (self rhs : UINT128_t) : UINT128_t := ⟨self.upper ||| rhs.upper, self.lower ||| rhs.lower⟩

/-- `operator&` with an integral `rhs`. -/
def andT (self : UINT128_t) (rhs : UInt64) : UINT128_t := ⟨0, self.lower &&& rhs⟩

/-- The variables of the loop of `divmod`: its counter and the pair `qr`. -/
structure DivState where
  x : UInt8
  first : UINT128_t
  second : UINT128_t

/-- `x > 0`. -/
def divTest (s : DivState) : Bool := s.x > 0

/-- A round of `divmod`, with the `x--` at its end. -/
def divBody (lhs rhs : UINT128_t) (s : DivState) : DivState :=
  let first := s.first.shiftLeftT 1
  let second := s.second.shiftLeftT 1
  let second :=
    if ((lhs.shiftRightT (s.x.toUInt64 - 1)).andT 1).neT 0 then second.addT 1 else second
  if second.gt rhs || second.eq rhs then ⟨s.x - 1, first.addT 1, second - rhs⟩
  else ⟨s.x - 1, first, second⟩

/-- The variables before the first round. -/
def divStart (lhs : UINT128_t) : DivState := ⟨lhs.bits, 0, 0⟩

/-- `divmod`. -/
def divmod (fuel : Nat) (lhs rhs : UINT128_t) : Except DivError (UINT128_t × UINT128_t) :=
  if rhs.eqT 0 then .error .domain_error
  else if rhs.eqT 1 then .ok (lhs, 0)
  else if lhs.eq rhs then .ok (1, 0)
  else if lhs.eqT 0 || lhs.lt rhs then .ok (0, lhs)
  else match Loop.run divTest (divBody lhs rhs) fuel (divStart lhs) with
    | some s => .ok (s.first, s.second)
    | none => .error .running

/-- `operator/`. -/
def div (fuel : Nat) (self rhs : UINT128_t) : Except DivError UINT128_t :=
  (divmod fuel self rhs).map Prod.fst

/-- `operator%`. -/
def mod (fuel : Nat) (self rhs : UINT128_t) : Except DivError UINT128_t :=
  (divmod fuel self rhs).map Prod.snd

end UINT128_t

namespace UINT256_t

/-- `operator|`. -/
def or (self rhs : UINT256_t) : UINT256_t := ⟨self.upper.or rhs.upper, self.lower.or rhs.lower⟩

/-- The variables of the loop of `divmod`. -/
structure DivState where
  first : UINT256_t
  second : UINT256_t
  copyd : UINT256_t
  adder : UINT256_t

/-- `qr.second > rhs || qr.second == rhs`. -/
def divTest (rhs : UINT256_t) (s : DivState) : Bool := s.second.gt rhs || s.second.eq rhs

/-- A round of `divmod`. -/
def divBody (s : DivState) : DivState :=
  if s.second.gt s.copyd || s.second.eq s.copyd then
    ⟨s.first.or s.adder, s.second - s.copyd, s.copyd.shiftRightT 1, s.adder.shiftRightT 1⟩
  else ⟨s.first, s.second, s.copyd.shiftRightT 1, s.adder.shiftRightT 1⟩

/-- The variables before the first round. -/
def divStart (lhs rhs : UINT256_t) : DivState :=
  let shift := lhs.bits.toUInt64 - rhs.bits.toUInt64
  let copyd := rhs.shiftLeftT shift
  let adder := (ofUInt64 1).shiftLeftT shift
  if copyd.gt lhs then ⟨ofUInt64 0, lhs, copyd.shiftRightT 1, adder.shiftRightT 1⟩
  else ⟨ofUInt64 0, lhs, copyd, adder⟩

/-- `divmod`. -/
def divmod (fuel : Nat) (lhs rhs : UINT256_t) : Except DivError (UINT256_t × UINT256_t) :=
  if rhs.eqT 0 then .error .domain_error
  else if rhs.eqT 1 then .ok (lhs, ofUInt64 0)
  else if lhs.eq rhs then .ok (ofUInt64 1, ofUInt64 0)
  else if lhs.eqT 0 || lhs.lt rhs then .ok (ofUInt64 0, lhs)
  else match Loop.run (divTest rhs) divBody fuel (divStart lhs rhs) with
    | some s => .ok (s.first, s.second)
    | none => .error .running

/-- `operator/`. -/
def div (fuel : Nat) (self rhs : UINT256_t) : Except DivError UINT256_t :=
  (divmod fuel self rhs).map Prod.fst

/-- `operator%`: `*this - (rhs * (*this / rhs))`. -/
def mod (fuel : Nat) (self rhs : UINT256_t) : Except DivError UINT256_t :=
  (div fuel self rhs).map fun q => self - rhs * q

/-- `operator%` with an integral `rhs`. -/
def modT (fuel : Nat) (self : UINT256_t) (rhs : UInt64) : Except DivError UINT256_t :=
  mod fuel self (ofUInt64 rhs)

/-- `getint`. -/
def getint (self : UINT256_t) : UInt64 := self.lower.lower

end UINT256_t

/-! ## Bit by bit -/

namespace UINT128_t

variable {a b : UINT128_t}

theorem toNat_double (h : 2 * a.toNat < 2 ^ 128) : (a.shiftLeftT 1).toNat = 2 * a.toNat := by
  rw [shiftLeftT, toNat_shiftLeft, toNat_ofUInt64, UInt64.toNat_one, pow_one, Nat.mul_comm,
    Nat.mod_eq_of_lt h]

theorem toNat_succ (h : a.toNat + 1 < 2 ^ 128) : (a.addT 1).toNat = a.toNat + 1 := by
  rw [addT_eq, toNat_add, toNat_ofUInt64, UInt64.toNat_one, Nat.mod_eq_of_lt h]

theorem toNat_andT_one (a : UINT128_t) : (a.andT 1).toNat = a.toNat % 2 := by
  have hlow : (a.andT 1).toNat = (a.lower &&& 1).toNat := toNat_ofUInt64 _
  rw [hlow, UInt64.toNat_and, UInt64.toNat_one, Nat.and_one_is_mod, toNat, val]
  omega

theorem toNat_or (a b : UINT128_t) : (a.or b).toNat = a.toNat ||| b.toNat := by
  rw [or, toNat, toNat, toNat, UInt64.toNat_or, UInt64.toNat_or]
  exact val_or a.lower.toNat_lt b.lower.toNat_lt

/-- The test of a round on the bit it brings down. -/
theorem bit_iff {x : UInt64} :
    ((a.shiftRightT x).andT 1).neT 0 = true ↔ a.toNat / 2 ^ x.toNat % 2 = 1 := by
  rw [neT_zero_iff, toNat_andT_one, shiftRightT, toNat_shiftRight, toNat_ofUInt64]
  omega

/-- What the loop keeps: `first` and `second` divide the bits of `lhs` above the `k` that
are still to come. -/
structure DivState.Inv (a b : UINT128_t) (k : Nat) (s : DivState) : Prop where
  x : s.x.toNat = k
  qr : Euclid (a.toNat / 2 ^ k) b.toNat s.first.toNat s.second.toNat

/-- The words hold the numbers of the next round before they are reduced: the doubled
quotient and remainder and the bit that is brought down lose nothing. -/
structure DivState.Exact (s : DivState) : Prop where
  first : (s.first.shiftLeftT 1).toNat = 2 * s.first.toNat
  second : (s.second.shiftLeftT 1).toNat = 2 * s.second.toNat
  bring : ((s.second.shiftLeftT 1).addT 1).toNat = 2 * s.second.toNat + 1
  count : ((s.first.shiftLeftT 1).addT 1).toNat = 2 * s.first.toNat + 1

theorem DivState.Inv.exact {k : Nat} {s : DivState} (h : s.Inv a b (k + 1)) : s.Exact := by
  have hpre := Euclid.prefix_succ a.toNat k
  have hle : a.toNat / 2 ^ k ≤ a.toNat := Nat.div_le_self _ _
  have ha := a.toNat_lt
  have hfirst : s.first.toNat ≤ a.toNat / 2 ^ (k + 1) := by
    rw [← h.qr.div_mod.1]
    exact Nat.div_le_self _ _
  have hsecond : s.second.toNat ≤ a.toNat / 2 ^ (k + 1) := by
    rw [← h.qr.div_mod.2]
    exact Nat.mod_le _ _
  have h1 : (s.first.shiftLeftT 1).toNat = 2 * s.first.toNat := toNat_double (by omega)
  have h2 : (s.second.shiftLeftT 1).toNat = 2 * s.second.toNat := toNat_double (by omega)
  refine ⟨h1, h2, ?_, ?_⟩
  · rw [toNat_succ (by omega), h2]
  · rw [toNat_succ (by omega), h1]

theorem toNat_pred {x : UInt8} {k : Nat} (h : x.toNat = k + 1) :
    (x - 1).toNat = k ∧ (x.toUInt64 - 1).toNat = k := by
  have h8 : (1 : UInt8) ≤ x := UInt8.le_iff_toNat_le.mpr (by rw [h]; exact Nat.le_add_left 1 k)
  have h64 : (1 : UInt64) ≤ x.toUInt64 :=
    UInt64.le_iff_toNat_le.mpr (by rw [UInt8.toNat_toUInt64, h]; exact Nat.le_add_left 1 k)
  rw [UInt8.toNat_sub_of_le _ _ h8, UInt64.toNat_sub_of_le _ _ h64, UInt8.toNat_toUInt64, h]
  exact ⟨rfl, rfl⟩

theorem divBody_inv {k : Nat} {s : DivState} (h : s.Inv a b (k + 1)) :
    (divBody a b s).Inv a b k := by
  have hex := h.exact
  obtain ⟨hx, hx64⟩ := toNat_pred h.x
  have hbr := h.qr.bring (b := a.toNat / 2 ^ k % 2) (Nat.mod_lt _ Nat.two_pos)
  rw [← Euclid.prefix_succ] at hbr
  -- the remainder with the bit brought down
  obtain ⟨w, hw, hwdef⟩ : ∃ w : UINT128_t,
      w.toNat = 2 * s.second.toNat + a.toNat / 2 ^ k % 2
      ∧ (if ((a.shiftRightT (s.x.toUInt64 - 1)).andT 1).neT 0
          then (s.second.shiftLeftT 1).addT 1 else s.second.shiftLeftT 1) = w := by
    refine ⟨_, ?_, rfl⟩
    by_cases hbit : a.toNat / 2 ^ k % 2 = 1
    · rw [if_pos (bit_iff.mpr (by rw [hx64]; exact hbit)), hex.bring, hbit]
    · rw [if_neg (mt bit_iff.mp (by rw [hx64]; exact hbit)), hex.second]
      omega
  simp only [divBody, hwdef]
  rw [← hw] at hbr
  have hge : (w.gt b || w.eq b) = true ↔ b.toNat ≤ w.toNat := ge_iff
  by_cases hle : b.toNat ≤ w.toNat
  · rw [if_pos (hge.mpr hle)]
    rw [if_pos hle] at hbr
    refine ⟨hx, ?_⟩
    rw [hex.count, toNat_sub_of_le hle]
    exact hbr
  · rw [if_neg (mt hge.mp hle)]
    rw [if_neg hle] at hbr
    refine ⟨hx, ?_⟩
    rw [hex.first]
    exact hbr

theorem divLoop_ranked (a b : UINT128_t) :
    Loop.Ranked divTest (divBody a b) (fun k s => s.Inv a b k) where
  stop s h := by
    rw [divTest, decide_eq_false_iff_not, gt_iff_lt, UInt8.lt_iff_toNat_lt, h.x]
    exact Nat.lt_irrefl 0
  round k s h _ := divBody_inv h

theorem divStart_inv (hb : b.toNat ≠ 0) : (divStart a).Inv a b a.bits.toNat where
  x := rfl
  qr := by
    rw [toNat_bits, Nat.div_eq_of_lt (Nat.lt_size_self _)]
    show Euclid 0 b.toNat (0 : UINT128_t).toNat (0 : UINT128_t).toNat
    rw [toNat_zero]
    exact .of_lt (Nat.pos_of_ne_zero hb)

theorem bits_le (a : UINT128_t) : a.bits.toNat ≤ 128 := by
  rw [toNat_bits]
  exact Nat.size_le.mpr a.toNat_lt

theorem divmod_zero (fuel : Nat) (a : UINT128_t) (hb : b.toNat = 0) :
    divmod fuel a b = .error .domain_error := by
  rw [divmod, if_pos (eqT_zero_iff.mpr hb)]

theorem divmod_spec {fuel : Nat} (hfuel : 128 < fuel) (hb : b.toNat ≠ 0) :
    ∃ q r, divmod fuel a b = .ok (q, r) ∧ Euclid a.toNat b.toNat q.toNat r.toNat := by
  have h1 : b.eqT 1 = true ↔ b.toNat = 1 := by
    rw [eqT_eq, eq_iff]
    rfl
  rw [divmod, if_neg (mt eqT_zero_iff.mp hb)]
  split_ifs with hone hself hlt
  · refine ⟨a, 0, rfl, ?_⟩
    rw [h1.mp hone]
    exact .one _
  · refine ⟨1, 0, rfl, ?_⟩
    rw [eq_iff.mp hself]
    exact .self hb
  · refine ⟨0, a, rfl, .of_lt ?_⟩
    rw [Bool.or_eq_true, eqT_zero_iff, lt_iff] at hlt
    omega
  · obtain ⟨s, k, hrun, hstop, hinv⟩ := (divLoop_ranked a b).run (divStart_inv hb)
      ((bits_le a).trans_lt hfuel)
    refine ⟨s.first, s.second, by rw [hrun], ?_⟩
    have hk : k = 0 := by
      rw [divTest, decide_eq_false_iff_not, gt_iff_lt, UInt8.lt_iff_toNat_lt, hinv.x] at hstop
      exact Nat.eq_zero_of_not_pos hstop
    have hqr := hinv.qr
    rwa [hk, pow_zero, Nat.div_one] at hqr

end UINT128_t

/-! ## By a divisor that is shifted back -/

namespace UINT256_t

variable {a b : UINT256_t}

theorem toNat_or (a b : UINT256_t) : (a.or b).toNat = a.toNat ||| b.toNat := by
  rw [or, toNat, toNat, toNat, UINT128_t.toNat_or, UINT128_t.toNat_or]
  exact val_or a.lower.toNat_lt b.lower.toNat_lt

theorem toNat_half (a : UINT256_t) : (a.shiftRightT 1).toNat = a.toNat / 2 := by
  rw [shiftRightT, toNat_shiftRight, toNat_ofUInt64, UInt64.toNat_one, pow_one]

theorem toNat_sub_of_le (h : b.toNat ≤ a.toNat) : (a - b).toNat = a.toNat - b.toNat := by
  have hsum := toNat_sub_add a b
  have ha := a.toNat_lt
  have hb := b.toNat_lt
  rw [← two_pow_256] at hsum
  have hmod : (a - b).toNat ≡ a.toNat - b.toNat [MOD 2 ^ 256] := by
    refine Nat.ModEq.add_right_cancel' b.toNat ?_
    rwa [Nat.sub_add_cancel h]
  exact hmod.eq_of_lt_of_lt (toNat_lt _) (by omega)

theorem eqT_iff {rhs : UInt64} : a.eqT rhs = true ↔ a.toNat = rhs.toNat := by
  rw [eqT_eq, eq_iff, toNat_ofUInt64]

/-- What the loop keeps: the last `j` bits of the quotient are still to come, and while
there are any, `copyd` is `rhs` and `adder` is `1` at the place of the next. -/
structure DivState.Inv (a b : UINT256_t) (j : Nat) (s : DivState) : Prop where
  qr : Scaled a.toNat b.toNat j s.first.toNat s.second.toNat
  copyd : ∀ i, j = i + 1 → s.copyd.toNat = b.toNat * 2 ^ i
  adder : ∀ i, j = i + 1 → s.adder.toNat = 2 ^ i

/-- No bit of the divisor or of the quotient bit is shifted out. -/
def DivState.Exact (b : UINT256_t) (s : DivState) : Prop :=
  ∃ i, s.copyd.toNat = b.toNat * 2 ^ i ∧ s.adder.toNat = 2 ^ i

theorem divTest_iff {s : DivState} : divTest b s = true ↔ b.toNat ≤ s.second.toNat := ge_iff

theorem half_pow (m i : Nat) : m * 2 ^ (i + 1) / 2 = m * 2 ^ i := by
  rw [pow_succ, ← Nat.mul_assoc, Nat.mul_div_cancel _ Nat.two_pos]

theorem divBody_inv {j : Nat} {s : DivState} (h : s.Inv a b (j + 1)) :
    (divBody s).Inv a b j := by
  have hcopyd := h.copyd j rfl
  have hadder := h.adder j rfl
  have hstep := h.qr.step
  have hc i (hi : j = i + 1) : (s.copyd.shiftRightT 1).toNat = b.toNat * 2 ^ i := by
    rw [toNat_half, hcopyd, hi, half_pow]
  have ha i (hi : j = i + 1) : (s.adder.shiftRightT 1).toNat = 2 ^ i := by
    rw [toNat_half, hadder, hi, ← Nat.one_mul (2 ^ (i + 1)), half_pow, Nat.one_mul]
  have hge : (s.second.gt s.copyd || s.second.eq s.copyd) = true
      ↔ s.copyd.toNat ≤ s.second.toNat := ge_iff
  rw [← hcopyd, ← hadder] at hstep
  rw [divBody]
  by_cases hle : s.copyd.toNat ≤ s.second.toNat
  · rw [if_pos hle] at hstep
    rw [if_pos (hge.mpr hle)]
    refine ⟨?_, hc, ha⟩
    rw [toNat_or, toNat_sub_of_le hle]
    exact hstep
  · rw [if_neg hle] at hstep
    rw [if_neg (mt hge.mp hle)]
    exact ⟨hstep, hc, ha⟩

theorem divLoop_ranked (a b : UINT256_t) :
    Loop.Ranked (divTest b) divBody (fun j s => s.Inv a b j) where
  stop s h := by
    have hlt := h.qr.lt
    rw [pow_zero, Nat.mul_one] at hlt
    rw [← Bool.not_eq_true, divTest_iff]
    omega
  round j s h _ := divBody_inv h

theorem toNat_shift (hle : b.toNat ≤ a.toNat) :
    (a.bits.toUInt64 - b.bits.toUInt64).toNat = a.toNat.size - b.toNat.size := by
  have hsize : b.bits.toNat ≤ a.bits.toNat := by
    rw [toNat_bits, toNat_bits]
    exact Nat.size_le_size hle
  have hle64 : b.bits.toUInt64 ≤ a.bits.toUInt64 := by
    rw [UInt64.le_iff_toNat_le, UInt16.toNat_toUInt64, UInt16.toNat_toUInt64]
    exact hsize
  rw [UInt64.toNat_sub_of_le _ _ hle64, UInt16.toNat_toUInt64, UInt16.toNat_toUInt64,
    toNat_bits, toNat_bits]

theorem divStart_inv (hb : b.toNat ≠ 0) (hle : b.toNat ≤ a.toNat) :
    ∃ j ≤ 256, (divStart a b).Inv a b j := by
  have hsize := Nat.size_le_size hle
  have hasize : a.toNat.size ≤ 256 := Nat.size_le.mpr a.toNat_lt
  have hbsize : 0 < b.toNat.size := Nat.size_pos.mpr (Nat.pos_of_ne_zero hb)
  obtain ⟨k, hk⟩ : ∃ k, k = a.toNat.size - b.toNat.size := ⟨_, rfl⟩
  have halign : Scaled a.toNat b.toNat (k + 1) 0 a.toNat := hk ▸ Scaled.align hsize hb
  -- the aligned divisor and the bit at its place
  have hcopyd : (b.shiftLeftT (a.bits.toUInt64 - b.bits.toUInt64)).toNat = b.toNat * 2 ^ k := by
    rw [shiftLeftT, toNat_shiftLeft, toNat_ofUInt64, toNat_shift hle, hk]
    exact Nat.mod_eq_of_lt
      ((Scaled.align_lt hsize).trans_le (Nat.pow_le_pow_right Nat.two_pos hasize))
  have hadder : ((ofUInt64 1).shiftLeftT (a.bits.toUInt64 - b.bits.toUInt64)).toNat = 2 ^ k := by
    rw [shiftLeftT, toNat_shiftLeft, toNat_ofUInt64, toNat_ofUInt64, toNat_shift hle,
      UInt64.toNat_one, Nat.one_mul, hk]
    exact Nat.mod_eq_of_lt (Nat.pow_lt_pow_right Nat.one_lt_two (by omega))
  have hzero : (ofUInt64 0).toNat = 0 := toNat_ofUInt64 0
  have hgt_iff : (b.shiftLeftT (a.bits.toUInt64 - b.bits.toUInt64)).gt a = true
      ↔ a.toNat < b.toNat * 2 ^ k := by rw [gt_iff, hcopyd]
  simp only [divStart]
  by_cases hgt : a.toNat < b.toNat * 2 ^ k
  · rw [if_pos (hgt_iff.mpr hgt)]
    refine ⟨k, by omega, ⟨?_, ?_, ?_⟩⟩
    · rw [hzero]
      exact ⟨halign.eq, hgt, Nat.dvd_zero _⟩
    · rintro i rfl
      rw [toNat_half, hcopyd, half_pow]
    · rintro i rfl
      rw [toNat_half, hadder, ← Nat.one_mul (2 ^ (i + 1)), half_pow, Nat.one_mul]
  · rw [if_neg (mt hgt_iff.mp hgt)]
    refine ⟨k + 1, by omega, ⟨?_, ?_, ?_⟩⟩
    · rw [hzero]
      exact halign
    · rintro i hi
      rw [hcopyd, Nat.succ.inj hi]
    · rintro i hi
      rw [hadder, Nat.succ.inj hi]

theorem divmod_zero (fuel : Nat) (a : UINT256_t) (hb : b.toNat = 0) :
    divmod fuel a b = .error .domain_error := by
  rw [divmod, if_pos (eqT_iff.mpr hb)]

theorem divmod_spec {fuel : Nat} (hfuel : 256 < fuel) (hb : b.toNat ≠ 0) :
    ∃ q r, divmod fuel a b = .ok (q, r) ∧ Euclid a.toNat b.toNat q.toNat r.toNat := by
  have hzero : (ofUInt64 0).toNat = 0 := toNat_ofUInt64 0
  rw [divmod, if_neg (mt eqT_iff.mp hb)]
  split_ifs with hone hself hlt
  · refine ⟨a, _, rfl, ?_⟩
    rw [eqT_iff.mp hone, hzero]
    exact .one _
  · refine ⟨_, _, rfl, ?_⟩
    rw [eq_iff.mp hself, hzero, toNat_ofUInt64]
    exact .self hb
  · refine ⟨_, a, rfl, ?_⟩
    rw [hzero]
    refine .of_lt ?_
    rw [Bool.or_eq_true, eqT_iff, lt_iff] at hlt
    have h0 : (0 : UInt64).toNat = 0 := rfl
    omega
  · rw [Bool.or_eq_true, not_or, lt_iff, not_lt] at hlt
    obtain ⟨j, hj, hinv⟩ := divStart_inv hb hlt.2
    obtain ⟨s, i, hrun, hstop, hend⟩ := (divLoop_ranked a b).run hinv (hj.trans_lt hfuel)
    rw [← Bool.not_eq_true, divTest_iff, not_le] at hstop
    exact ⟨s.first, s.second, by rw [hrun], hend.qr.euclid hstop⟩

/-- The remainder that is computed back from the quotient. -/
theorem mod_spec {fuel : Nat} (hfuel : 256 < fuel) (hb : b.toNat ≠ 0) :
    ∃ r, mod fuel a b = .ok r ∧ r.toNat = a.toNat % b.toNat := by
  obtain ⟨q, r, hqr, heuclid⟩ := divmod_spec (a := a) hfuel hb
  refine ⟨a - b * q, by rw [mod, div, hqr]; rfl, ?_⟩
  have hle : b.toNat * q.toNat ≤ a.toNat := by
    rw [heuclid.eq]
    exact Nat.le_add_right _ _
  have hmul : (b * q).toNat = b.toNat * q.toNat := by
    rw [toNat_mul]
    exact Nat.mod_eq_of_lt (hle.trans_lt a.toNat_lt)
  have heq := heuclid.eq
  rw [heuclid.div_mod.2, toNat_sub_of_le (by rw [hmul]; exact hle), hmul]
  omega

/-- A remainder modulo a word, as `getint` reads it. -/
theorem modT_spec {fuel : Nat} (hfuel : 256 < fuel) (a : UINT256_t) {rhs : UInt64}
    (hrhs : rhs ≠ 0) :
    ∃ r, modT fuel a rhs = .ok r ∧ r.toNat = a.toNat % rhs.toNat
      ∧ r.getint.toNat = a.toNat % rhs.toNat := by
  have hne : rhs.toNat ≠ 0 := fun h => hrhs (UInt64.toNat_inj.mp h)
  obtain ⟨r, hr, hmod⟩ := mod_spec (a := a) (b := ofUInt64 rhs) hfuel (by rwa [toNat_ofUInt64])
  rw [toNat_ofUInt64] at hmod
  refine ⟨r, hr, hmod, ?_⟩
  -- the remainder is below a word, so it is its lowest word
  have hlt : r.toNat < 2 ^ 64 := hmod ▸ (Nat.mod_lt _ (Nat.pos_of_ne_zero hne)).trans rhs.toNat_lt
  have hlow : r.toNat % 2 ^ 64 = r.lower.lower.toNat := by
    have h128 : r.toNat % 2 ^ 128 = r.lower.toNat := val_mod r.lower.toNat_lt
    rw [← val_mod r.lower.lower.toNat_lt]
    show _ = r.lower.toNat % 2 ^ 64
    rw [← h128, Nat.mod_mod_of_dvd _ (pow_dvd_pow 2 (by norm_num))]
  rw [← hmod, ← Nat.mod_eq_of_lt hlt, hlow]
  rfl

end UINT256_t

/-! ## Both widths -/

/-- `/` and `%` are Euclidean, as numbers and by the operators of the class, and `0` is the
only divisor they refuse.  No loop of theirs tests more than 257 times. -/
structure EuclidDivision {α : Type} (o : Operators α) (toNat : α → Nat)
    (div mod : Nat → α → α → Except DivError α) : Prop where
  result : ∀ fuel a b, 257 ≤ fuel → toNat b ≠ 0 → ∃ q r,
    div fuel a b = .ok q ∧ mod fuel a b = .ok r
      ∧ toNat q = toNat a / toNat b ∧ toNat r = toNat a % toNat b
      ∧ o.add (o.mul b q) r = a ∧ o.lt r b = true
  div_error : ∀ fuel a b, 257 ≤ fuel →
    (div fuel a b = .error .domain_error ↔ toNat b = 0)
  mod_error : ∀ fuel a b, 257 ≤ fuel →
    (mod fuel a b = .error .domain_error ↔ toNat b = 0)

section Division

variable {α : Type} {o : Operators α} {toNat : α → Nat}

theorem operators_euclid {w : Nat} (h : o.Modular w toNat) {a b q r : α}
    (he : Euclid (toNat a) (toNat b) (toNat q) (toNat r)) :
    o.add (o.mul b q) r = a ∧ o.lt r b = true := by
  constructor
  · rw [← h.toNat_inj, h.add, h.mul, Nat.mod_add_mod, ← he.eq, Nat.mod_eq_of_lt (h.toNat_lt a)]
  · rw [h.lt]
    exact he.lt

/-- A division that has a result for every divisor but `0` refuses only `0`. -/
theorem EuclidDivision.of_result {div mod : Nat → α → α → Except DivError α}
    (hzero : ∀ fuel a b, toNat b = 0 →
      div fuel a b = .error .domain_error ∧ mod fuel a b = .error .domain_error)
    (hresult : ∀ fuel a b, 257 ≤ fuel → toNat b ≠ 0 → ∃ q r,
      div fuel a b = .ok q ∧ mod fuel a b = .ok r
        ∧ toNat q = toNat a / toNat b ∧ toNat r = toNat a % toNat b
        ∧ o.add (o.mul b q) r = a ∧ o.lt r b = true) :
    EuclidDivision o toNat div mod where
  result := hresult
  div_error fuel a b hfuel := by
    refine ⟨fun herr => by_contra fun hb => ?_, fun hb => (hzero fuel a b hb).1⟩
    obtain ⟨q, r, hq, -⟩ := hresult fuel a b hfuel hb
    rw [hq] at herr
    cases herr
  mod_error fuel a b hfuel := by
    refine ⟨fun herr => by_contra fun hb => ?_, fun hb => (hzero fuel a b hb).2⟩
    obtain ⟨q, r, -, hr, -⟩ := hresult fuel a b hfuel hb
    rw [hr] at herr
    cases herr

end Division

theorem UINT128_t.euclidDivision :
    EuclidDivision UINT128_t.operators UINT128_t.toNat UINT128_t.div UINT128_t.mod := by
  refine .of_result (fun fuel a b hb => ?_) (fun fuel a b hfuel hb => ?_)
  · rw [UINT128_t.div, UINT128_t.mod, UINT128_t.divmod_zero fuel a hb]
    exact ⟨rfl, rfl⟩
  · obtain ⟨q, r, hqr, he⟩ := UINT128_t.divmod_spec (a := a) (by omega : 128 < fuel) hb
    rw [UINT128_t.div, UINT128_t.mod, hqr]
    exact ⟨q, r, rfl, rfl, he.div_mod.1.symm, he.div_mod.2.symm,
      operators_euclid UINT128_t.modular he⟩

theorem UINT256_t.euclidDivision :
    EuclidDivision UINT256_t.operators UINT256_t.toNat UINT256_t.div UINT256_t.mod := by
  refine .of_result (fun fuel a b hb => ?_) (fun fuel a b hfuel hb => ?_)
  · rw [UINT256_t.mod, UINT256_t.div, UINT256_t.divmod_zero fuel a hb]
    exact ⟨rfl, rfl⟩
  · obtain ⟨q, r, hqr, he⟩ := UINT256_t.divmod_spec (a := a) (by omega : 256 < fuel) hb
    obtain ⟨r', hr', hmod⟩ := UINT256_t.mod_spec (a := a) (by omega : 256 < fuel) hb
    have hr : r' = r := UINT256_t.toNat_inj.mp (by rw [hmod, he.div_mod.2])
    rw [UINT256_t.div, hqr, hr', hr]
    exact ⟨q, r, rfl, rfl, he.div_mod.1.symm, he.div_mod.2.symm,
      operators_euclid UINT256_t.modular he⟩

/-- Division is Euclidean at both widths, every round of either loop is entered with
numbers that no shift has cut, and a 256-bit hash is reduced below 1024 and below 64. -/
theorem uint_division :
    EuclidDivision UINT128_t.operators UINT128_t.toNat UINT128_t.div UINT128_t.mod
      ∧ EuclidDivision UINT256_t.operators UINT256_t.toNat UINT256_t.div UINT256_t.mod
      ∧ (∀ a b s, b.toNat ≠ 0 →
          Loop.Enters UINT128_t.divTest (UINT128_t.divBody a b) (UINT128_t.divStart a) s →
          UINT128_t.divTest s = true → s.Exact)
      ∧ (∀ a b s, b.toNat ≠ 0 → b.toNat ≤ a.toNat →
          Loop.Enters (UINT256_t.divTest b) UINT256_t.divBody (UINT256_t.divStart a b) s →
          UINT256_t.divTest b s = true → s.Exact b)
      ∧ (∀ fuel (hash : UINT256_t), 257 ≤ fuel →
          (∃ h, hash.modT fuel 1024 = .ok h ∧ h.toNat < 1024 ∧ h.getint.toNat < 1024)
          ∧ ∃ h, hash.modT fuel 64 = .ok h ∧ h.toNat < 64 ∧ h.getint.toNat < 64) := by
  refine ⟨UINT128_t.euclidDivision, UINT256_t.euclidDivision, ?_, ?_, ?_⟩
  · intro a b s hb hs htest
    obtain ⟨k, -, hk⟩ := (UINT128_t.divLoop_ranked a b).enters (UINT128_t.divStart_inv hb) hs
    cases k with
    | zero => rw [(UINT128_t.divLoop_ranked a b).stop s hk] at htest; cases htest
    | succ k => exact hk.exact
  · intro a b s hb hle hs htest
    obtain ⟨j, -, hj⟩ := UINT256_t.divStart_inv hb hle
    obtain ⟨k, -, hk⟩ := (UINT256_t.divLoop_ranked a b).enters hj hs
    cases k with
    | zero => rw [(UINT256_t.divLoop_ranked a b).stop s hk] at htest; cases htest
    | succ k => exact ⟨k, hk.copyd k rfl, hk.adder k rfl⟩
  · intro fuel hash hfuel
    obtain ⟨h, hok, hmod, hint⟩ :=
      UINT256_t.modT_spec (by omega : 256 < fuel) hash (by decide : (1024 : UInt64) ≠ 0)
    obtain ⟨h', hok', hmod', hint'⟩ :=
      UINT256_t.modT_spec (by omega : 256 < fuel) hash (by decide : (64 : UInt64) ≠ 0)
    have hlt : hash.toNat % (1024 : UInt64).toNat < 1024 := Nat.mod_lt _ (by decide)
    have hlt' : hash.toNat % (64 : UInt64).toNat < 64 := Nat.mod_lt _ (by decide)
    exact ⟨⟨h, hok, hmod ▸ hlt, hint ▸ hlt⟩, h', hok', hmod' ▸ hlt', hint' ▸ hlt'⟩

end Bleep
