/-
# `Bleep.Lib.TransSys` — labelled transition systems and their conditional runs

A system is a set of starting states and a step relation labelled by actions.
Two things are asked of it again and again:

  * an invariant holds of every state a run reaches — `Under.invariant`;
  * an invariant holds of every state reached by a run *each of whose actions
    meets a condition in the state it is taken in* — the same rule, since
    `Under C` carries the condition and plain reachability is `Under ⊤`.

A third form is needed when the assumption is about the whole run but can be
read off its last state because it can only be lost on the way, never
regained: `Under.invariant_of_stable`.

For a system whose actions are functions, `exec` runs a list of actions and
checks the condition before each, so that a concrete run is a computation
(`exec_under`).
-/
import Mathlib

/-- A labelled transition system. -/
structure TransSys (σ α : Type) where
  init : σ → Prop
  step : σ → α → σ → Prop

namespace TransSys

variable {σ α : Type} {M : TransSys σ α}

/-- `M.Under C s`: some run reaches `s`, and every action of it meets `C` in
the state it is taken in. -/
inductive Under (M : TransSys σ α) (C : σ → α → Prop) : σ → Prop
  | start {s : σ} : M.init s → Under M C s
  | step {s t : σ} {a : α} : Under M C s → C s a → M.step s a t → Under M C t

/-- Plain reachability: the condition asks nothing. -/
abbrev Reach (M : TransSys σ α) : σ → Prop := M.Under fun _ _ => True

theorem Under.mono {C D : σ → α → Prop} (hCD : ∀ s a, M.Under C s → C s a → D s a) {s : σ}
    (h : M.Under C s) : M.Under D s := by
  induction h with
  | start hi => exact .start hi
  | step hu hc hs ih => exact .step ih (hCD _ _ hu hc) hs

theorem Under.reach {C : σ → α → Prop} {s : σ} (h : M.Under C s) : M.Reach s :=
  h.mono fun _ _ _ _ => trivial

/-- **The invariant rule.**  The step case may use that the state before the
step is itself reached. -/
theorem Under.invariant {C : σ → α → Prop} {P : σ → Prop}
    (h0 : ∀ s, M.init s → P s)
    (hs : ∀ s a t, M.Under C s → P s → C s a → M.step s a t → P t)
    {s : σ} (h : M.Under C s) : P s := by
  induction h with
  | start hi => exact h0 _ hi
  | step hr hc hst ih => exact hs _ _ _ hr ih hc hst

/-- The invariant rule under an assumption `H` that a step can lose but not
gain: if `H` holds at the end of a run it held throughout. -/
theorem Under.invariant_of_stable {C : σ → α → Prop} {H P : σ → Prop}
    (hH : ∀ s a t, M.Under C s → M.step s a t → H t → H s)
    (h0 : ∀ s, M.init s → P s)
    (hs : ∀ s a t, M.Under C s → P s → H t → C s a → M.step s a t → P t)
    {s : σ} (h : M.Under C s) (hs' : H s) : P s := by
  induction h with
  | start hi => exact h0 _ hi
  | step hr hc hst ih => exact hs _ _ _ hr (ih (hH _ _ _ hr hst hs')) hs' hc hst

/-! ## From one state to a later one -/

/-- Some steps lead from `s` to `t`. -/
abbrev Later (M : TransSys σ α) : σ → σ → Prop :=
  Relation.ReflTransGen fun s t => ∃ a, M.step s a t

theorem Under.later {s t : σ} (h : M.Reach s) (hl : M.Later s t) : M.Reach t := by
  induction hl with
  | refl => exact h
  | tail _ hs ih =>
      obtain ⟨a, hs⟩ := hs
      exact .step ih trivial hs

/-- What a step keeps, in reached states and under a stable assumption, a run
keeps. -/
theorem Later.keeps {H P : σ → Prop} (hH : ∀ s a t, M.Reach s → M.step s a t → H t → H s)
    (hs : ∀ s a t, M.Reach s → H t → M.step s a t → P s → P t) {s t : σ} (hr : M.Reach s)
    (hl : M.Later s t) (ht : H t) (hP : P s) : P t := by
  induction hl with
  | refl => exact hP
  | @tail u v hsu huv ih =>
      obtain ⟨a, hst⟩ := huv
      have hu := Under.later hr hsu
      exact hs _ _ _ hu ht hst (ih (hH _ _ _ hu hst ht))

/-! ## Systems whose actions are functions -/

section Exec

variable (next : σ → α → Option σ) (C : σ → α → Bool)

/-- Run the actions in order, testing `C` before each; `none` as soon as a test
fails or an action is not enabled. -/
def exec : σ → List α → Option σ
  | s, [] => some s
  | s, a :: l => if C s a then (next s a).bind fun t => exec t l else none

theorem exec_under (hn : ∀ s a t, next s a = some t → M.step s a t) :
    ∀ (l : List α) {s t : σ}, M.Under (fun s a => C s a = true) s →
      exec next C s l = some t → M.Under (fun s a => C s a = true) t
  | [], s, t, hs, h => by
      simp only [exec, Option.some.injEq] at h
      exact h ▸ hs
  | a :: l, s, t, hs, h => by
      simp only [exec] at h
      split at h
      · next hc =>
          obtain ⟨u, hu, ht⟩ := Option.bind_eq_some_iff.mp h
          exact exec_under hn l (.step hs hc (hn _ _ _ hu)) ht
      · exact nomatch h

theorem exec_any (hn : ∀ s a t, next s a = some t → M.step s a t) {s : σ} (hs : M.init s)
    {l : List α} {test : σ → Bool} (h : (exec next C s l).any test = true) :
    ∃ t, exec next C s l = some t ∧ M.Under (fun s a => C s a = true) t ∧ test t = true := by
  obtain ⟨t, ht, htest⟩ := (Option.any_eq_true _ _).mp h
  exact ⟨t, ht, exec_under next C hn l (.start hs) ht, htest⟩

theorem exec_later (hn : ∀ s a t, next s a = some t → M.step s a t) :
    ∀ (l : List α) {s t : σ}, exec next C s l = some t → M.Later s t
  | [], s, t, h => by
      simp only [exec, Option.some.injEq] at h
      exact h ▸ .refl
  | a :: l, s, t, h => by
      simp only [exec] at h
      split at h
      · obtain ⟨u, hu, ht⟩ := Option.bind_eq_some_iff.mp h
        exact .head ⟨a, hn _ _ _ hu⟩ (exec_later hn l ht)
      · exact nomatch h

end Exec

end TransSys
