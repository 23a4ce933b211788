/-
# `Bleep.Lib.Descent` — systems in which something goes down

What a system still has to do is measured by a value that need not be a function of
its state (`Measured s x`): it may speak of what the state stands for.  If some steps
lower the value and the others leave it, then

  * only finitely many steps of a run lower it (`marks_end`);
  * if from every state that is not done some steps lower it, a state that is done can
    be reached (`exists_done`).

The values need not be well founded as a whole: it is enough that nothing descends
for ever from the one that measures the first state.
-/
import Mathlib

namespace Descent

variable {σ α : Type} {lower : α → α → Prop} {Measured : σ → α → Prop} {x : α}

/-- A step that is no mark leaves the value, and a mark lowers it: after the last mark
there is none. -/
theorem marks_end {f : Nat → σ} {Mark : Nat → Prop}
    (hstep : ∀ i x, Measured (f i) x →
      (Mark i → ∃ y, lower y x ∧ Measured (f (i + 1)) y) ∧
        (¬ Mark i → Measured (f (i + 1)) x))
    (hacc : Acc lower x) : ∀ {i : Nat}, Measured (f i) x → ∃ n ≥ i, ∀ j ≥ n, ¬ Mark j := by
  induction hacc with
  | intro x _ ih =>
      intro i hi
      by_cases hmark : ∃ j ≥ i, Mark j ∧ Measured (f j) x
      · obtain ⟨j, hij, hj, hm⟩ := hmark
        obtain ⟨y, hy, hm'⟩ := (hstep j x hm).1 hj
        obtain ⟨n, hn, hnone⟩ := ih y hy hm'
        exact ⟨n, by omega, hnone⟩
      · -- the value stays what it is
        have hstays : ∀ k, Measured (f (i + k)) x := by
          intro k
          induction k with
          | zero => exact hi
          | succ k ihk =>
              refine (hstep (i + k) x ihk).2 fun hm => hmark ⟨i + k, ?_, hm, ihk⟩
              exact Nat.le_add_right i k
        refine ⟨i, Nat.le_refl i, fun j hj hm => hmark ⟨j, hj, hm, ?_⟩⟩
        obtain ⟨k, rfl⟩ := Nat.exists_eq_add_of_le hj
        exact hstays k

/-- Where some steps always lower the value or get all done, all gets done. -/
theorem exists_done {Step : σ → σ → Prop} {Done : σ → Prop}
    (hnext : ∀ s x, Measured s x → ∃ s' y, Relation.ReflTransGen Step s s' ∧ Measured s' y ∧
      (Done s' ∨ lower y x))
    (hacc : Acc lower x) : ∀ {s : σ}, Measured s x →
      ∃ s' y, Relation.ReflTransGen Step s s' ∧ Measured s' y ∧ Done s' := by
  induction hacc with
  | intro x _ ih =>
      intro s hs
      obtain ⟨s', y, hsteps, hs', hdone | hy⟩ := hnext s x hs
      · exact ⟨s', y, hsteps, hs', hdone⟩
      · obtain ⟨t, z, hrest, ht, hdone⟩ := ih y hy hs'
        exact ⟨t, z, hsteps.trans hrest, ht, hdone⟩

end Descent
