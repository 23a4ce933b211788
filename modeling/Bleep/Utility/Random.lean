/-
# `Bleep.Utility.Random` — `GenRandomNumSet`

`GenRandomNumSet(maxNum, maxCount)` draws numbers below `maxNum` until it has `maxCount`
different ones, or all of them if there are fewer.  The loop draws a number, adds it to the
set and only then compares the size of the set with the one it wants, so it never stops at an
empty set; and the remainder it takes has `maxNum` as its divisor.  If the arguments are equal
there is no loop and the numbers are listed in order, which is how two zeros get their empty
list.

So of two arguments that are not negative both or neither have to be zero, and then the call
returns what it should for every sequence in which each remainder keeps coming
(`genRandomNumSet_iff`).
-/
import Bleep.Lib.Draws

namespace Bleep.Random

/-- What a call can end with instead of a list: the signal that a remainder by zero raises,
or the bound on its draws. -/
inductive RandError
  | division_by_zero
  | running
  deriving DecidableEq, Repr

/-- What `rand()` returns, one call after the other.  `RAND_MAX` is the largest `int`. -/
structure Rand where
  draw : Nat → Int32
  nonneg : ∀ i, 0 ≤ draw i

/-! ## The function -/

/-- The loop of `GenRandomNumSet`, with the `i`-th call of `rand()` next. -/
def genLoop (rand : Rand) (maxNum maxSize : Int32) :
    (fuel i : Nat) → (numSet : Std.TreeSet Int32) → (numList : List Int32) →
      Except RandError (List Int32)
  | 0, _, _, _ => .error .running
  | fuel + 1, i, numSet, numList =>
      if maxNum = 0 then .error .division_by_zero
      else
        let num := rand.draw i % maxNum
        let (found, numSet) := numSet.containsThenInsert num
        let numList := if found then numList else numList ++ [num]
        if Int32.ofNat numSet.size = maxSize then .ok numList
        else genLoop rand maxNum maxSize fuel (i + 1) numSet numList

/-- What the `for` loop lists: the numbers below `maxSize`. -/
def numbers (maxSize : Int32) : List Int32 := (List.range maxSize.toNatClampNeg).map Int32.ofNat

/-- How many numbers there are to be. -/
def maxSize (maxNum maxCount : Int32) : Int32 := if maxNum < maxCount then maxNum else maxCount

/-- `GenRandomNumSet`, with at most `fuel` draws. -/
def genRandomNumSet (rand : Rand) (maxNum maxCount : Int32) (fuel : Nat) :
    Except RandError (List Int32) :=
  if maxNum = maxCount then .ok (numbers (maxSize maxNum maxCount))
  else genLoop rand maxNum (maxSize maxNum maxCount) fuel 0 ∅ []

/-! ## What it is for -/

/-- Each remainder comes infinitely often. -/
def Rand.Fair (rand : Rand) (maxNum : Int32) : Prop :=
  ∀ r, 0 ≤ r → r < maxNum → ∀ n, ∃ i ≥ n, rand.draw i % maxNum = r

/-- As many different numbers below `maxNum` as there are to be. -/
structure IsNumSet (maxNum maxCount : Int32) (numList : List Int32) : Prop where
  length : (numList.length : Int) = min maxNum.toInt maxCount.toInt
  nodup : numList.Nodup
  range : ∀ num ∈ numList, 0 ≤ num ∧ num < maxNum

/-- With enough draws the call returns such numbers, always the same. -/
def Delivers (rand : Rand) (maxNum maxCount : Int32) : Prop :=
  ∃ numList draws, (∀ fuel, draws ≤ fuel →
    genRandomNumSet rand maxNum maxCount fuel = .ok numList) ∧ IsNumSet maxNum maxCount numList

/-! ## The numbers there are -/

theorem length_numbers (maxNum : Int32) : (numbers maxNum).length = maxNum.toInt.toNat := by
  rw [numbers, List.length_map, List.length_range, Int32.toNat_toInt]

theorem toInt_ofNat_of_le {maxNum : Int32} {n : Nat} (h : n ≤ maxNum.toInt.toNat) :
    (Int32.ofNat n).toInt = n := by
  have hint := maxNum.toInt_lt
  exact Int32.toInt_ofNat_of_lt (by omega)

theorem mem_numbers {maxNum num : Int32} : num ∈ numbers maxNum ↔ 0 ≤ num ∧ num < maxNum := by
  rw [numbers, List.mem_map, Int32.le_iff_toInt_le, Int32.lt_iff_toInt_lt, Int32.toInt_zero]
  simp only [List.mem_range, ← Int32.toNat_toInt]
  constructor
  · rintro ⟨n, hn, rfl⟩
    rw [toInt_ofNat_of_le hn.le]
    omega
  · rintro ⟨hpos, hlt⟩
    have hn : num.toInt.toNat < maxNum.toInt.toNat := by omega
    refine ⟨num.toInt.toNat, hn, ?_⟩
    rw [← Int32.toInt_inj, toInt_ofNat_of_le hn.le]
    omega

theorem nodup_numbers (maxNum : Int32) : (numbers maxNum).Nodup := by
  refine List.Nodup.map_on ?_ List.nodup_range
  intro m hm n hn heq
  rw [List.mem_range, ← Int32.toNat_toInt] at hm hn
  rw [← Int32.toInt_inj, toInt_ofNat_of_le hm.le, toInt_ofNat_of_le hn.le] at heq
  omega

/-- The remainders that the calls of `rand()` give. -/
def Rand.mod (rand : Rand) (maxNum : Int32) (i : Nat) : Int32 := rand.draw i % maxNum

theorem mod_mem_numbers (rand : Rand) {maxNum : Int32} (h : 0 < maxNum) (i : Nat) :
    rand.mod maxNum i ∈ numbers maxNum := by
  have hdraw := rand.nonneg i
  rw [Int32.lt_iff_toInt_lt] at h
  rw [Int32.le_iff_toInt_le] at hdraw
  rw [Int32.toInt_zero] at h hdraw
  rw [mem_numbers, Rand.mod, Int32.le_iff_toInt_le, Int32.lt_iff_toInt_lt, Int32.toInt_mod,
    Int32.toInt_zero]
  exact ⟨Int.tmod_nonneg _ hdraw, Int.tmod_lt_of_pos _ h⟩

/-! ## The loop -/

open Draws

/-- The set and the list of the loop have the same numbers. -/
structure Kept (numSet : Std.TreeSet Int32) (numList : List Int32) : Prop where
  size : numSet.size = numList.length
  mem : ∀ num, num ∈ numSet ↔ num ∈ numList

theorem Kept.contains {numSet : Std.TreeSet Int32} {numList : List Int32} (h : Kept numSet numList)
    (num : Int32) : numSet.contains num = numList.contains num := by
  rw [Bool.eq_iff_iff, List.contains_iff_mem, ← h.mem]
  exact Iff.rfl

theorem Kept.insert {numSet : Std.TreeSet Int32} {numList : List Int32} (h : Kept numSet numList)
    (num : Int32) : Kept (numSet.insert num) (addNew numList num) := by
  constructor
  · rw [Std.TreeSet.size_insert, h.contains, addNew]
    split
    · exact h.size
    · rw [h.size, List.length_append, List.length_singleton]
  · intro x
    rw [Std.TreeSet.mem_insert, mem_addNew, h.mem, Std.LawfulEqCmp.compare_eq_iff_eq, or_comm,
      eq_comm]

/-- The test that ends the loop. -/
def enough (maxSize : Int32) (numList : List Int32) : Bool := Int32.ofNat numList.length = maxSize

section Loop

variable (rand : Rand) {maxNum : Int32} (maxSize : Int32) (fuel i : Nat)
  {numSet : Std.TreeSet Int32} {numList : List Int32}

theorem genLoop_succ (h : maxNum ≠ 0) (hk : Kept numSet numList) :
    genLoop rand maxNum maxSize (fuel + 1) i numSet numList
      = if Int32.ofNat (addNew numList (rand.mod maxNum i)).length = maxSize then
          .ok (addNew numList (rand.mod maxNum i))
        else genLoop rand maxNum maxSize fuel (i + 1) (numSet.insert (rand.mod maxNum i))
          (addNew numList (rand.mod maxNum i)) := by
  rw [← (hk.insert (rand.mod maxNum i)).size, addNew, ← hk.contains]
  simp only [genLoop, if_neg h, Std.TreeSet.containsThenInsert_fst,
    Std.TreeSet.containsThenInsert_snd]
  rfl

/-- The loop draws remainders until it has enough. -/
theorem genLoop_eq (h : maxNum ≠ 0) (hk : Kept numSet numList) :
    genLoop rand maxNum maxSize fuel i numSet numList
      = (drawUntil (rand.mod maxNum) (enough maxSize) fuel i numList).elim
          (.error .running) .ok := by
  induction fuel generalizing i numSet numList with
  | zero => rfl
  | succ fuel ih =>
      rw [genLoop_succ rand maxSize fuel i h hk, ih (i + 1) (hk.insert _), drawUntil]
      simp only [enough, decide_eq_true_eq]
      split
      · rfl
      · rfl

end Loop

/-! ## The call -/

section Call

variable (rand : Rand) {maxNum maxCount : Int32} (fuel : Nat)

theorem genRandomNumSet_self :
    genRandomNumSet rand maxNum maxNum fuel = .ok (numbers maxNum) := by
  simp only [genRandomNumSet, maxSize, ite_self, if_pos]

theorem isNumSet_numbers (h : 0 ≤ maxNum) : IsNumSet maxNum maxNum (numbers maxNum) := by
  rw [Int32.le_iff_toInt_le, Int32.toInt_zero] at h
  refine ⟨?_, nodup_numbers maxNum, fun num hnum => mem_numbers.mp hnum⟩
  rw [length_numbers, min_self]
  exact Int.toNat_of_nonneg h

theorem genRandomNumSet_zero (h : maxCount ≠ 0) :
    genRandomNumSet rand 0 maxCount (fuel + 1) = .error .division_by_zero := by
  simp only [genRandomNumSet, if_neg h.symm, genLoop, if_pos]

theorem toInt_maxSize (maxNum maxCount : Int32) :
    (maxSize maxNum maxCount).toInt = min maxNum.toInt maxCount.toInt := by
  simp only [maxSize, Int32.lt_iff_toInt_lt]
  split
  · omega
  · omega

theorem genRandomNumSet_eq (h : maxNum ≠ 0) (hne : maxNum ≠ maxCount) :
    genRandomNumSet rand maxNum maxCount fuel
      = (drawUntil (rand.mod maxNum) (enough (maxSize maxNum maxCount)) fuel 0
          (firsts (rand.mod maxNum) 0)).elim (.error .running) .ok := by
  have hempty : Kept ∅ [] := ⟨Std.TreeSet.size_emptyc, fun _ => by simp⟩
  rw [genRandomNumSet, if_neg hne]
  exact genLoop_eq rand _ fuel 0 h hempty

/-- The size of a list of remainders is an `int`, so the test compares numbers. -/
theorem enough_firsts (h : 0 < maxNum) (n : Nat) :
    enough (maxSize maxNum maxCount) (firsts (rand.mod maxNum) n) = true ↔
      ((firsts (rand.mod maxNum) n).length : Int) = min maxNum.toInt maxCount.toInt := by
  have hle : (firsts (rand.mod maxNum) n).length ≤ maxNum.toInt.toNat :=
    (length_firsts_le (mod_mem_numbers rand h) n).trans_eq (length_numbers maxNum)
  rw [enough, decide_eq_true_eq, ← Int32.toInt_inj, toInt_ofNat_of_le hle, toInt_maxSize]

/-- The list is never empty when the loop looks at it. -/
theorem genRandomNumSet_none (h : 0 < maxNum) :
    genRandomNumSet rand maxNum 0 fuel = .error .running := by
  have hne : maxNum ≠ 0 := (Int32.ne_of_lt h).symm
  have hstop (n : Nat) :
      enough (maxSize maxNum 0) (firsts (rand.mod maxNum) (n + 1)) = false := by
    have hsome : (firsts (rand.mod maxNum) (n + 1)).length ≠ 0 :=
      fun hnone => addNew_ne_nil _ _ (List.eq_nil_of_length_eq_zero hnone)
    rw [Bool.eq_false_iff, ne_eq, enough_firsts rand h, Int32.toInt_zero]
    rw [Int32.lt_iff_toInt_lt, Int32.toInt_zero] at h
    omega
  rw [genRandomNumSet_eq rand fuel hne hne, drawUntil_eq_none hstop]
  rfl

theorem isNumSet_firsts (h : 0 < maxNum) {n : Nat}
    (hn : enough (maxSize maxNum maxCount) (firsts (rand.mod maxNum) n) = true) :
    IsNumSet maxNum maxCount (firsts (rand.mod maxNum) n) := by
  refine ⟨(enough_firsts rand h n).mp hn, nodup_firsts _ n, fun num hnum => ?_⟩
  obtain ⟨i, -, rfl⟩ := mem_firsts.mp hnum
  exact mem_numbers.mp (mod_mem_numbers rand h i)

theorem exists_enough (h : 0 < maxNum) (hcount : 0 < maxCount) (hfair : rand.Fair maxNum) :
    ∃ n, 0 < n ∧ enough (maxSize maxNum maxCount) (firsts (rand.mod maxNum) n) = true := by
  have hcomes : ∀ num ∈ numbers maxNum, ∃ i, rand.mod maxNum i = num := by
    intro num hnum
    obtain ⟨hpos, hlt⟩ := mem_numbers.mp hnum
    obtain ⟨i, -, hi⟩ := hfair num hpos hlt 0
    exact ⟨i, hi⟩
  simp only [enough_firsts rand h]
  rw [Int32.lt_iff_toInt_lt, Int32.toInt_zero] at h hcount
  have hle : (min maxNum.toInt maxCount.toInt).toNat ≤ (numbers maxNum).length := by
    rw [length_numbers]
    omega
  obtain ⟨n, hn⟩ := exists_length_firsts (nodup_numbers maxNum) hcomes hle
  refine ⟨n, ?_, by omega⟩
  rcases Nat.eq_zero_or_pos n with rfl | hpos
  · rw [firsts, List.length_nil] at hn
    omega
  · exact hpos

theorem delivers_of_pos (h : 0 < maxNum) (hcount : 0 < maxCount) (hne : maxNum ≠ maxCount)
    (hfair : rand.Fair maxNum) : Delivers rand maxNum maxCount := by
  obtain ⟨n, hn, henough⟩ := exists_enough rand h hcount hfair
  obtain ⟨m, -, hstop, hrun⟩ := exists_drawUntil hn henough
  refine ⟨firsts (rand.mod maxNum) m, m, fun fuel hfuel => ?_, isNumSet_firsts rand h hstop⟩
  rw [genRandomNumSet_eq rand fuel (Int32.ne_of_lt h).symm hne, hrun fuel (by omega)]
  rfl

theorem not_delivers {e : RandError}
    (h : ∀ fuel, genRandomNumSet rand maxNum maxCount (fuel + 1) = .error e) :
    ¬ Delivers rand maxNum maxCount := by
  rintro ⟨numList, draws, hrun, -⟩
  cases (h draws).symm.trans (hrun (draws + 1) (Nat.le_succ draws))

end Call

/-- **`GenRandomNumSet`** of two arguments that are not negative returns as many different
numbers below the first one as it should, for every sequence in which each remainder keeps
coming, exactly if both are zero or neither is. -/
theorem genRandomNumSet_iff (rand : Rand) {maxNum maxCount : Int32} (hNum : 0 ≤ maxNum)
    (hCount : 0 ≤ maxCount) (hfair : rand.Fair maxNum) :
    Delivers rand maxNum maxCount ↔ (maxNum = 0 ↔ maxCount = 0) := by
  constructor
  · intro hdel
    by_contra hone
    by_cases hzero : maxNum = 0
    · subst hzero
      have hcount : maxCount ≠ 0 := fun hcount => hone ⟨fun _ => hcount, fun _ => rfl⟩
      exact not_delivers rand (fun fuel => genRandomNumSet_zero rand fuel hcount) hdel
    · obtain rfl : maxCount = 0 := by
        by_contra hcount
        exact hone (iff_of_false hzero hcount)
      have hpos : 0 < maxNum := Int32.lt_of_le_of_ne hNum (Ne.symm hzero)
      exact not_delivers rand (fun fuel => genRandomNumSet_none rand (fuel + 1) hpos) hdel
  · intro hboth
    by_cases hne : maxNum = maxCount
    · subst hne
      exact ⟨numbers maxNum, 0, fun fuel _ => genRandomNumSet_self rand fuel,
        isNumSet_numbers hNum⟩
    · have hzero : maxNum ≠ 0 := fun h => hne (h.trans (hboth.mp h).symm)
      have hcount : maxCount ≠ 0 := fun h => hzero (hboth.mpr h)
      exact delivers_of_pos rand (Int32.lt_of_le_of_ne hNum hzero.symm)
        (Int32.lt_of_le_of_ne hCount hcount.symm) hne hfair

/-- The numbers below 5 in turn, again and again. -/
def roundRobin : Rand where
  draw i := Int32.ofNat (i % 5)
  nonneg i := by
    have hlt : i % 5 ≤ (5 : Int32).toInt.toNat := (Nat.mod_lt i (Nat.succ_pos 4)).le
    rw [Int32.le_iff_toInt_le, toInt_ofNat_of_le hlt, Int32.toInt_zero]
    exact Int.natCast_nonneg _

theorem fair_roundRobin : roundRobin.Fair 5 := by
  intro r hpos hlt n
  obtain ⟨k, hk, rfl⟩ := List.mem_map.mp (mem_numbers.mpr ⟨hpos, hlt⟩)
  have hk : k < 5 := List.mem_range.mp hk
  have hmod : ∀ k < 5, Int32.ofNat k % 5 = Int32.ofNat k := by decide
  refine ⟨5 * n + k, by omega, ?_⟩
  show Int32.ofNat ((5 * n + k) % 5) % 5 = Int32.ofNat k
  rw [Nat.mul_add_mod, Nat.mod_eq_of_lt hk, hmod k hk]

/-- Two numbers below 5. -/
theorem genRandomNumSet_two :
    genRandomNumSet roundRobin 5 2 2 = .ok [0, 1] ∧ Delivers roundRobin 5 2 :=
  ⟨by decide +kernel,
    (genRandomNumSet_iff roundRobin (by decide) (by decide) fair_roundRobin).mpr (by decide)⟩

/-- No number below 5, and five of the numbers below 0. -/
theorem genRandomNumSet_fails :
    (roundRobin.Fair 5 ∧ ¬ Delivers roundRobin 5 0) ∧
      roundRobin.Fair 0 ∧ ¬ Delivers roundRobin 0 5 := by
  refine ⟨⟨fair_roundRobin, ?_⟩, ?_, ?_⟩
  · exact not_delivers roundRobin fun fuel => genRandomNumSet_none roundRobin (fuel + 1) (by decide)
  · intro r hpos hlt
    exact absurd (Int32.lt_of_le_of_lt hpos hlt) Int32.lt_irrefl
  · exact not_delivers roundRobin fun fuel => genRandomNumSet_zero roundRobin fuel (by decide)

end Bleep.Random
