/-
# `Bleep.Lib.EventLoop` — loops that handle what they post

A queue from which the oldest event is taken, and whose handler puts events at the end.
If what it posts is of smaller rank than what it handles, a loop that handles until the
queue is empty ends, however many events each handler posts: the ranks in the queue are
a hydra (`wellFounded_progress`).

For a program that does other things besides, that is: in an endless run the other things
happen again and again (`marks_recur`).
-/
import Mathlib

namespace EventLoop

variable {σ ε : Type} (rank : ε → Nat)

/-- The oldest event is taken, and events of smaller rank are posted. -/
def Consumes (queue queue' : List ε) : Prop :=
  ∃ event rest posted, queue = event :: rest ∧ queue' = rest ++ posted ∧
    ∀ e ∈ posted, rank e < rank event

theorem wellFounded_consumes : WellFounded fun queue' queue => Consumes rank queue queue' := by
  let ranks : List ε → Multiset Nat := fun queue => queue.map rank
  refine Subrelation.wf ?_ (InvImage.wf ranks (wellFounded_lt (α := Nat)).cutExpand)
  rintro queue' queue ⟨event, rest, posted, rfl, rfl, hsmall⟩
  refine ⟨posted.map rank, rank event, ?_, ?_⟩
  · intro r hr
    obtain ⟨e, he, rfl⟩ := List.mem_map.mp (Multiset.mem_coe.mp hr)
    exact hsmall e he
  · refine Multiset.coe_eq_coe.mpr ?_
    rw [List.map_append, List.map_cons]
    exact List.perm_append_singleton (rank event) (rest.map rank ++ posted.map rank)

variable (queue : σ → List ε) (size : σ → Nat)

/-- An event is handled, or something gets smaller behind the same queue. -/
def Progress (s s' : σ) : Prop :=
  Consumes rank (queue s) (queue s') ∨ queue s' = queue s ∧ size s' < size s

/-- **The loop ends.** -/
theorem wellFounded_progress :
    WellFounded fun s' s : σ => Progress rank queue size s s' := by
  refine Subrelation.wf ?_ (InvImage.wf (fun s => (queue s, size s))
    (WellFounded.prod_lex (wellFounded_consumes rank) wellFounded_lt))
  rintro s' s (h | ⟨hqueue, hsize⟩)
  · exact .left _ _ h
  · show Prod.Lex _ _ (queue s', size s') (queue s, size s)
    rw [hqueue]
    exact .right _ hsize

variable {rank queue size}

/-- What is no progress comes again and again. -/
theorem marks_recur {f : Nat → σ} {Mark : Nat → Prop}
    (h : ∀ i, Progress rank queue size (f i) (f (i + 1)) ∨ Mark i) (n : Nat) :
    ∃ m ≥ n, Mark m := by
  by_contra hnone
  have hdesc : ∀ i, Progress rank queue size (f (n + i)) (f (n + (i + 1))) := fun i =>
    (h (n + i)).resolve_right fun hmark => hnone ⟨n + i, Nat.le_add_right n i, hmark⟩
  exact (wellFounded_iff_isEmpty_descending_chain.mp
    (wellFounded_progress rank queue size)).false ⟨fun i => f (n + i), hdesc⟩

end EventLoop
