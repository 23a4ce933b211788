/-
# `Bleep.Lib.Keyed` — stores where the first value under a key wins

A store takes values in and forgets keys.  A value has a key, keys may be
identified by a relation `same`, and a value whose key is there already is not
taken in.  What such a store answers is a statement about the history of its
operations: the oldest value that was added under the key and not forgotten
since (`Oldest`).  `Insertion.get_run` says so for every implementation of the
three laws of `Insertion`.
-/
import Mathlib

namespace Keyed

variable {σ K V : Type}

inductive Op (K V : Type) where
  | add (v : V)
  | remove (k : K)

section Histories

variable (same : K → K → Prop) (key : V → K)

/-- `v` was added under `k`, and `k` was not removed since. -/
def Live (ops : List (Op K V)) (k : K) (v : V) : Prop :=
  ∃ pre post, ops = pre ++ .add v :: post ∧ same k (key v) ∧ ∀ x, .remove x ∈ post → ¬ same k x

/-- `v` is the first of the values that are live under `k`. -/
def Oldest (ops : List (Op K V)) (k : K) (v : V) : Prop :=
  ∃ pre post, ops = pre ++ .add v :: post ∧ same k (key v) ∧
    (∀ x, .remove x ∈ post → ¬ same k x) ∧ ∀ w, ¬ Live same key pre k w

variable {same key} {ops : List (Op K V)} {k : K} {v w : V}

theorem Oldest.live (h : Oldest same key ops k v) : Live same key ops k v := by
  obtain ⟨pre, post, hops, hk, hpost, -⟩ := h
  exact ⟨pre, post, hops, hk, hpost⟩

theorem not_live_nil : ¬ Live same key [] k v := by
  rintro ⟨pre, post, hops, -, -⟩
  exact List.append_ne_nil_of_right_ne_nil pre (List.cons_ne_nil _ _) hops.symm

/-- The last operation of a history is the addition looked for or comes after it. -/
theorem snoc_cases {ops pre post : List (Op K V)} {o a : Op K V}
    (h : ops ++ [o] = pre ++ a :: post) :
    (o = a ∧ ops = pre ∧ post = []) ∨ ∃ post', post = post' ++ [o] ∧ ops = pre ++ a :: post' := by
  induction post using List.reverseRecOn with
  | nil =>
      obtain ⟨rfl, ho⟩ := List.append_inj' h rfl
      exact .inl ⟨List.head_eq_of_cons_eq ho, rfl, rfl⟩
  | append_singleton post' x _ =>
      rw [← List.cons_append, ← List.append_assoc] at h
      obtain ⟨rfl, ho⟩ := List.append_inj' h rfl
      obtain rfl := List.head_eq_of_cons_eq ho
      exact .inr ⟨post', rfl, rfl⟩

theorem live_add : Live same key (ops ++ [.add v]) k w ↔
    (same k (key v) ∧ w = v) ∨ Live same key ops k w := by
  constructor
  · rintro ⟨pre, post, hops, hk, hpost⟩
    rcases snoc_cases hops with ⟨ho, rfl, rfl⟩ | ⟨post', rfl, rfl⟩
    · obtain rfl := Op.add.inj ho
      exact .inl ⟨hk, rfl⟩
    · exact .inr ⟨pre, post', rfl, hk, fun x hx => hpost x (List.mem_append_left _ hx)⟩
  · rintro (⟨hk, rfl⟩ | ⟨pre, post, rfl, hk, hpost⟩)
    · exact ⟨ops, [], rfl, hk, fun x hx => nomatch hx⟩
    · refine ⟨pre, post ++ [.add v], by rw [List.append_assoc]; rfl, hk, fun x hx => ?_⟩
      rcases List.mem_append.mp hx with hx | hx
      · exact hpost x hx
      · exact nomatch List.mem_singleton.mp hx

theorem live_remove {x : K} : Live same key (ops ++ [.remove x]) k w ↔
    ¬ same k x ∧ Live same key ops k w := by
  constructor
  · rintro ⟨pre, post, hops, hk, hpost⟩
    rcases snoc_cases hops with ⟨ho, -, -⟩ | ⟨post', rfl, rfl⟩
    · exact nomatch ho
    · exact ⟨hpost x (List.mem_append_right _ List.mem_cons_self), pre, post', rfl, hk,
        fun x hx => hpost x (List.mem_append_left _ hx)⟩
  · rintro ⟨hx, pre, post, rfl, hk, hpost⟩
    refine ⟨pre, post ++ [.remove x], by rw [List.append_assoc]; rfl, hk, fun y hy => ?_⟩
    rcases List.mem_append.mp hy with hy | hy
    · exact hpost y hy
    · obtain rfl := Op.remove.inj (List.mem_singleton.mp hy)
      exact hx

theorem oldest_add : Oldest same key (ops ++ [.add v]) k w ↔
    (same k (key v) ∧ (∀ u, ¬ Live same key ops k u) ∧ w = v) ∨ Oldest same key ops k w := by
  constructor
  · rintro ⟨pre, post, hops, hk, hpost, hpre⟩
    rcases snoc_cases hops with ⟨ho, rfl, rfl⟩ | ⟨post', rfl, rfl⟩
    · obtain rfl := Op.add.inj ho
      exact .inl ⟨hk, hpre, rfl⟩
    · exact .inr ⟨pre, post', rfl, hk, fun x hx => hpost x (List.mem_append_left _ hx), hpre⟩
  · rintro (⟨hk, hnone, rfl⟩ | ⟨pre, post, rfl, hk, hpost, hpre⟩)
    · exact ⟨ops, [], rfl, hk, fun x hx => absurd hx List.not_mem_nil, hnone⟩
    · refine ⟨pre, post ++ [.add v], by rw [List.append_assoc]; rfl, hk, fun x hx => ?_, hpre⟩
      rcases List.mem_append.mp hx with hx | hx
      · exact hpost x hx
      · exact nomatch List.mem_singleton.mp hx

theorem oldest_remove {x : K} : Oldest same key (ops ++ [.remove x]) k w ↔
    ¬ same k x ∧ Oldest same key ops k w := by
  constructor
  · rintro ⟨pre, post, hops, hk, hpost, hpre⟩
    rcases snoc_cases hops with ⟨ho, -, -⟩ | ⟨post', rfl, rfl⟩
    · exact nomatch ho
    · exact ⟨hpost x (List.mem_append_right _ List.mem_cons_self), pre, post', rfl, hk,
        fun x hx => hpost x (List.mem_append_left _ hx), hpre⟩
  · rintro ⟨hx, pre, post, rfl, hk, hpost, hpre⟩
    refine ⟨pre, post ++ [.remove x], by rw [List.append_assoc]; rfl, hk, fun y hy => ?_, hpre⟩
    rcases List.mem_append.mp hy with hy | hy
    · exact hpost y hy
    · obtain rfl := Op.remove.inj (List.mem_singleton.mp hy)
      exact hx

theorem exists_oldest (h : Live same key ops k w) : ∃ v, Oldest same key ops k v := by
  induction ops using List.reverseRecOn generalizing w with
  | nil => exact absurd h not_live_nil
  | append_singleton ops o ih =>
      cases o with
      | add u =>
          by_cases hlive : ∃ v, Live same key ops k v
          · obtain ⟨v, hv⟩ := hlive
            exact (ih hv).imp fun _ hv => oldest_add.mpr (.inr hv)
          · have hnone : ∀ v, ¬ Live same key ops k v := fun v hv => hlive ⟨v, hv⟩
            rcases live_add.mp h with ⟨hk, -⟩ | h
            · exact ⟨u, oldest_add.mpr (.inl ⟨hk, hnone, rfl⟩)⟩
            · exact absurd h (hnone w)
      | remove x =>
          obtain ⟨hx, h⟩ := live_remove.mp h
          exact (ih h).imp fun _ hv => oldest_remove.mpr ⟨hx, hv⟩

end Histories

/-! ## Stores -/

/-- The laws of a store: what is looked up after each operation. -/
structure Insertion (same : K → K → Prop) (key : V → K) (empty : σ) (add : σ → V → σ)
    (remove : σ → K → σ) (get : σ → K → Option V) : Prop where
  get_empty : ∀ k, get empty k = none
  get_add : ∀ s v k w, get (add s v) k = some w ↔
    (same k (key v) ∧ get s k = none ∧ w = v) ∨ get s k = some w
  get_remove : ∀ s x k w, get (remove s x) k = some w ↔ ¬ same k x ∧ get s k = some w

section Stores

variable {same : K → K → Prop} {key : V → K} {empty : σ} {add : σ → V → σ} {remove : σ → K → σ}
  {get : σ → K → Option V}

def apply (add : σ → V → σ) (remove : σ → K → σ) (s : σ) : Op K V → σ
  | .add v => add s v
  | .remove k => remove s k

/-- The store after a history. -/
def run (empty : σ) (add : σ → V → σ) (remove : σ → K → σ) (ops : List (Op K V)) : σ :=
  ops.foldl (apply add remove) empty

/-- **A lookup answers the oldest value that is live.** -/
theorem Insertion.get_run (h : Insertion same key empty add remove get) (ops : List (Op K V))
    (k : K) (w : V) : get (run empty add remove ops) k = some w ↔ Oldest same key ops k w := by
  induction ops using List.reverseRecOn generalizing w with
  | nil =>
      constructor
      · intro hg
        exact nomatch (h.get_empty k).symm.trans hg
      · intro ho
        exact absurd ho.live not_live_nil
  | append_singleton ops o ih =>
      have hnone : get (run empty add remove ops) k = none ↔ ∀ u, ¬ Live same key ops k u := by
        constructor
        · intro hg u hu
          obtain ⟨v, hv⟩ := exists_oldest hu
          exact nomatch hg.symm.trans ((ih v).mpr hv)
        · intro hu
          cases hg : get (run empty add remove ops) k with
          | none => rfl
          | some v => exact absurd ((ih v).mp hg).live (hu v)
      have hrun : run empty add remove (ops ++ [o]) =
          apply add remove (run empty add remove ops) o := by
        simp only [run, List.foldl_append, List.foldl_cons, List.foldl_nil]
      rw [hrun]
      cases o with
      | add v =>
          show get (add _ v) k = some w ↔ _
          rw [h.get_add, oldest_add, hnone, ih]
      | remove x =>
          show get (remove _ x) k = some w ↔ _
          rw [h.get_remove, oldest_remove, ih]

theorem Insertion.isSome_run (h : Insertion same key empty add remove get) (ops : List (Op K V))
    (k : K) : (get (run empty add remove ops) k).isSome = true ↔ ∃ w, Live same key ops k w := by
  rw [Option.isSome_iff_exists]
  constructor
  · rintro ⟨v, hv⟩
    exact ⟨v, ((h.get_run ops k v).mp hv).live⟩
  · rintro ⟨w, hw⟩
    exact (exists_oldest hw).imp fun v hv => (h.get_run ops k v).mpr hv

end Stores

end Keyed
