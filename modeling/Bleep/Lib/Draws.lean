/-
# `Bleep.Lib.Draws` — drawing until enough different values have come

An endless sequence of values is drawn one after the other, and a value is kept when it comes
for the first time: `firsts draw n` is what the first `n` draws leave.  Each draw adds one
value at most, so every number of values is passed on the way to a larger one
(`exists_length_firsts`), and values that all come are all kept in the end.

`drawUntil` is the loop that draws first and then asks whether to stop.  It never asks about
the empty list.
-/
import Mathlib

namespace Draws

variable {α : Type} [DecidableEq α]

/-- A list of different values, after one more has come. -/
def addNew (l : List α) (x : α) : List α := if l.contains x then l else l ++ [x]

/-- The different values of the first `n` draws, in the order they came. -/
def firsts (draw : Nat → α) : Nat → List α
  | 0 => []
  | n + 1 => addNew (firsts draw n) (draw n)

/-- Draw the `i`-th value and the following ones until `stop`; `none` when `fuel` draws were
not enough. -/
def drawUntil (draw : Nat → α) (stop : List α → Bool) : (fuel i : Nat) → List α → Option (List α)
  | 0, _, _ => none
  | fuel + 1, i, l =>
      let l := addNew l (draw i)
      if stop l then some l else drawUntil draw stop fuel (i + 1) l

variable {draw : Nat → α} {stop : List α → Bool} {l : List α} {x : α}

/-! ## One more value -/

theorem mem_addNew {y : α} : y ∈ addNew l x ↔ y ∈ l ∨ y = x := by
  rw [addNew]
  split
  · next h =>
      refine ⟨.inl, ?_⟩
      rintro (hy | rfl)
      · exact hy
      · exact List.contains_iff_mem.mp h
  · rw [List.mem_append, List.mem_singleton]

theorem nodup_addNew (h : l.Nodup) (x : α) : (addNew l x).Nodup := by
  rw [addNew]
  split
  · exact h
  · next hx =>
      refine List.nodup_append.mpr ⟨h, List.nodup_singleton x, ?_⟩
      rintro y hy _ hx' rfl
      obtain rfl := List.mem_singleton.mp hx'
      exact hx (List.contains_iff_mem.mpr hy)

theorem length_addNew_le (l : List α) (x : α) : (addNew l x).length ≤ l.length + 1 := by
  rw [addNew]
  split
  · exact Nat.le_succ _
  · rw [List.length_append, List.length_singleton]

theorem addNew_ne_nil (l : List α) (x : α) : addNew l x ≠ [] :=
  List.ne_nil_of_mem (mem_addNew.mpr (.inr rfl))

/-! ## The values of the first draws -/

theorem mem_firsts {n : Nat} : x ∈ firsts draw n ↔ ∃ i < n, draw i = x := by
  induction n with
  | zero =>
      refine iff_of_false List.not_mem_nil ?_
      rintro ⟨i, hi, -⟩
      exact Nat.not_lt_zero i hi
  | succ n ih =>
      rw [firsts, mem_addNew, ih]
      constructor
      · rintro (⟨i, hi, hx⟩ | rfl)
        · exact ⟨i, Nat.lt_succ_of_lt hi, hx⟩
        · exact ⟨n, Nat.lt_succ_self n, rfl⟩
      · rintro ⟨i, hi, hx⟩
        rcases Nat.lt_succ_iff_lt_or_eq.mp hi with hi | rfl
        · exact .inl ⟨i, hi, hx⟩
        · exact .inr hx.symm

theorem nodup_firsts (draw : Nat → α) (n : Nat) : (firsts draw n).Nodup := by
  induction n with
  | zero => exact .nil
  | succ n ih => exact nodup_addNew ih _

theorem firsts_subset {m n : Nat} (h : m ≤ n) : firsts draw m ⊆ firsts draw n := by
  intro x hx
  obtain ⟨i, hi, rfl⟩ := mem_firsts.mp hx
  exact mem_firsts.mpr ⟨i, Nat.lt_of_lt_of_le hi h, rfl⟩

theorem length_firsts_le (h : ∀ i, draw i ∈ l) (n : Nat) : (firsts draw n).length ≤ l.length := by
  refine ((nodup_firsts draw n).subperm ?_).length_le
  intro x hx
  obtain ⟨i, -, rfl⟩ := mem_firsts.mp hx
  exact h i

theorem exists_subset_firsts (h : ∀ x ∈ l, ∃ i, draw i = x) : ∃ n, l ⊆ firsts draw n := by
  induction l with
  | nil => exact ⟨0, List.nil_subset _⟩
  | cons x l ih =>
      obtain ⟨n, hn⟩ := ih fun y hy => h y (List.mem_cons_of_mem x hy)
      obtain ⟨i, hi⟩ := h x List.mem_cons_self
      refine ⟨max n (i + 1), List.cons_subset.mpr ⟨?_, ?_⟩⟩
      · exact mem_firsts.mpr ⟨i, le_max_right n (i + 1), hi⟩
      · exact List.Subset.trans hn (firsts_subset (le_max_left n (i + 1)))

theorem exists_length_of_le {k n : Nat} (h : k ≤ (firsts draw n).length) :
    ∃ m, (firsts draw m).length = k := by
  induction n with
  | zero => exact ⟨0, (Nat.le_zero.mp h).symm⟩
  | succ n ih =>
      rcases Nat.lt_or_ge (firsts draw n).length k with hlt | hle
      · have hstep : (firsts draw (n + 1)).length ≤ (firsts draw n).length + 1 :=
          length_addNew_le _ _
        exact ⟨n + 1, by omega⟩
      · exact ih hle

/-- If the values of `l` all come, every number of values up to that of `l` does. -/
theorem exists_length_firsts (hl : l.Nodup) (h : ∀ x ∈ l, ∃ i, draw i = x) {k : Nat}
    (hk : k ≤ l.length) : ∃ n, (firsts draw n).length = k := by
  obtain ⟨n, hn⟩ := exists_subset_firsts h
  exact exists_length_of_le (hk.trans (hl.subperm hn).length_le)

/-! ## The loop -/

/-- The loop ends if it is to stop at one of the draws, and all bounds from there on are
enough. -/
theorem exists_drawUntil {i n : Nat} (hn : i < n) (hstop : stop (firsts draw n) = true) :
    ∃ m, i < m ∧ stop (firsts draw m) = true ∧
      ∀ fuel, m ≤ i + fuel → drawUntil draw stop fuel i (firsts draw i) = some (firsts draw m) := by
  induction hd : n - i - 1 generalizing i with
  | zero =>
      obtain rfl : n = i + 1 := by omega
      refine ⟨i + 1, hn, hstop, fun fuel hfuel => ?_⟩
      obtain ⟨fuel, rfl⟩ := Nat.exists_eq_succ_of_ne_zero (by omega : fuel ≠ 0)
      exact if_pos hstop
  | succ d ih =>
      by_cases hnow : stop (firsts draw (i + 1)) = true
      · refine ⟨i + 1, Nat.lt_succ_self i, hnow, fun fuel hfuel => ?_⟩
        obtain ⟨fuel, rfl⟩ := Nat.exists_eq_succ_of_ne_zero (by omega : fuel ≠ 0)
        exact if_pos hnow
      · obtain ⟨m, hm, hsm, hrun⟩ := ih (i := i + 1) (by omega) (by omega)
        refine ⟨m, Nat.lt_of_succ_lt hm, hsm, fun fuel hfuel => ?_⟩
        obtain ⟨fuel, rfl⟩ := Nat.exists_eq_succ_of_ne_zero (by omega : fuel ≠ 0)
        exact (if_neg hnow).trans (hrun fuel (by omega))

theorem drawUntil_eq_none (h : ∀ n, stop (firsts draw (n + 1)) = false)
    (fuel i : Nat) : drawUntil draw stop fuel i (firsts draw i) = none := by
  induction fuel generalizing i with
  | zero => rfl
  | succ fuel ih =>
      have hnow : ¬ stop (firsts draw (i + 1)) = true := by
        rw [h i]
        exact Bool.false_ne_true
      exact (if_neg hnow).trans (ih (i + 1))

end Draws
