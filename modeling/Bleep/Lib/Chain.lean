/-
# `Bleep.Lib.Chain` — following predecessors in a table

A table `look : K → Option V` whose entries name at most one predecessor
(`pred : V → Option K`) is a forest seen from its leaves.  `Chain look pred k l`
says that following predecessors from `k` visits exactly the keys `l` and ends
at an entry without one.

The facts a user needs: the chain is determined by where it starts
(`Chain.unique`), hence repeats no key (`Chain.nodup`) and is no longer than
any list of all the keys (`Chain.length_le`); it survives every extension of
the table (`Chain.mono`) and is found in every table that agrees on
predecessors (`Chain.transfer`); a number that grows by one from an entry to the
entries it precedes is the length of the chain (`Chain.length_eq`).
-/
import Mathlib

variable {K V : Type} {look look' : K → Option V} {pred : V → Option K}

/-- Following predecessors from the key visits the list, ending at a root. -/
inductive Chain (look : K → Option V) (pred : V → Option K) : K → List K → Prop
  | root {k : K} {v : V} : look k = some v → pred v = none → Chain look pred k [k]
  | link {k p : K} {v : V} {l : List K} : look k = some v → pred v = some p →
      Chain look pred p l → Chain look pred k (k :: l)

namespace Chain

theorem exists_cons {k : K} {l : List K} (h : Chain look pred k l) : ∃ t, l = k :: t := by
  cases h with
  | root _ _ => exact ⟨[], rfl⟩
  | link _ _ _ => exact ⟨_, rfl⟩

theorem look_isSome {k : K} {l : List K} (h : Chain look pred k l) : ∃ v, look k = some v := by
  cases h with
  | root hv _ => exact ⟨_, hv⟩
  | link hv _ _ => exact ⟨_, hv⟩

theorem unique {k : K} {l l' : List K} (h : Chain look pred k l) (h' : Chain look pred k l') :
    l = l' := by
  induction h generalizing l' with
  | root hv hp =>
      cases h' with
      | root _ _ => rfl
      | link hv' hp' _ =>
          rw [hv, Option.some.injEq] at hv'
          subst hv'
          exact nomatch hp.symm.trans hp'
  | link hv hp _ ih =>
      cases h' with
      | root hv' hp' =>
          rw [hv, Option.some.injEq] at hv'
          subst hv'
          exact nomatch hp'.symm.trans hp
      | link hv' hp' hc =>
          rw [hv, Option.some.injEq] at hv'
          subst hv'
          rw [hp, Option.some.injEq] at hp'
          subst hp'
          rw [ih hc]

theorem mono (hext : ∀ k v, look k = some v → look' k = some v) {k : K} {l : List K}
    (h : Chain look pred k l) : Chain look' pred k l := by
  induction h with
  | root hv hp => exact .root (hext _ _ hv) hp
  | link hv hp _ ih => exact .link (hext _ _ hv) hp ih

/-- A chain of one table is a chain of another that has its first key, if the two
name the same predecessors and the other has the predecessors of its entries. -/
theorem transfer (hpred : ∀ k v v', look k = some v → look' k = some v' → pred v' = pred v)
    (hclosed : ∀ k v p, look' k = some v → pred v = some p → ∃ w, look' p = some w) {k : K}
    {l : List K} (h : Chain look pred k l) : (∃ v, look' k = some v) → Chain look' pred k l := by
  induction h with
  | root hv hp =>
      rintro ⟨v', hv'⟩
      exact .root hv' ((hpred _ _ _ hv hv').trans hp)
  | link hv hp _ ih =>
      rintro ⟨v', hv'⟩
      have hp' := (hpred _ _ _ hv hv').trans hp
      exact .link hv' hp' (ih (hclosed _ _ _ hv' hp'))

/-- From every key of a chain starts a chain, a suffix of it. -/
theorem of_mem {k x : K} {l : List K} (h : Chain look pred k l) (hx : x ∈ l) :
    ∃ l', Chain look pred x l' ∧ l' <:+ l := by
  induction h with
  | root hv hp =>
      rw [List.mem_singleton] at hx
      subst hx
      exact ⟨_, .root hv hp, List.suffix_rfl⟩
  | @link k p v l hv hp hc ih =>
      rcases List.mem_cons.mp hx with rfl | hx
      · exact ⟨_, .link hv hp hc, List.suffix_rfl⟩
      · obtain ⟨l', hl', hs⟩ := ih hx
        exact ⟨l', hl', hs.trans (List.suffix_cons _ _)⟩

theorem pred_getElem? {k : K} {l : List K} (h : Chain look pred k l) :
    ∀ {d : Nat} {x : K} {v : V}, l[d]? = some x → look x = some v → pred v = l[d + 1]? := by
  induction h with
  | @root k w hw hp =>
      intro d x v hx hv
      cases d with
      | zero =>
          obtain rfl := Option.some.inj hx
          obtain rfl := Option.some.inj (hw.symm.trans hv)
          exact hp
      | succ d => exact nomatch hx
  | @link k p w l hw hp hc ih =>
      intro d x v hx hv
      cases d with
      | zero =>
          obtain rfl := Option.some.inj hx
          obtain rfl := Option.some.inj (hw.symm.trans hv)
          obtain ⟨t, rfl⟩ := hc.exists_cons
          exact hp
      | succ d => exact ih hx hv

theorem of_append {x : K} {s p : List K} :
    ∀ {k : K}, Chain look pred k (p ++ x :: s) → Chain look pred x (x :: s) := by
  induction p with
  | nil =>
      intro k h
      obtain ⟨t, ht⟩ := h.exists_cons
      obtain ⟨rfl, -⟩ := List.cons.inj ht
      exact h
  | cons y p ih =>
      intro k h
      generalize hl : y :: p ++ x :: s = l at h
      cases h with
      | root _ _ => exact nomatch (List.append_eq_nil_iff.mp (List.cons.inj hl).2).2
      | link _ _ hc => exact ih ((List.cons.inj hl).2 ▸ hc)

/-- No key is visited twice: from a repeated key the walk would have two
lengths. -/
theorem nodup {k : K} {l : List K} (h : Chain look pred k l) : l.Nodup := by
  induction h with
  | root _ _ => simp
  | @link k p v l hv hp hc ih =>
      refine List.nodup_cons.mpr ⟨fun hmem => ?_, ih⟩
      obtain ⟨l', hl', hs⟩ := hc.of_mem hmem
      have heq : k :: l = l' := (Chain.link hv hp hc).unique hl'
      have hle := hs.length_le
      rw [← heq, List.length_cons] at hle
      omega

theorem length_le {k : K} {l ks : List K} (hks : ∀ k v, look k = some v → k ∈ ks)
    (h : Chain look pred k l) : l.length ≤ ks.length := by
  refine (List.subperm_of_subset h.nodup fun x hx => ?_).length_le
  obtain ⟨l', hl', -⟩ := h.of_mem hx
  obtain ⟨v, hv⟩ := hl'.look_isSome
  exact hks x v hv

/-- Two chains that share a key have a last common key; they are the same from there on,
and share nothing before it. -/
theorem exists_common (hpred : ∀ k v v', look k = some v → look' k = some v' → pred v' = pred v)
    (hclosed : ∀ k v p, look' k = some v → pred v = some p → ∃ w, look' p = some w) {k k' : K}
    {l l' : List K} (h : Chain look pred k l) (h' : Chain look' pred k' l')
    (hx : ∃ x ∈ l', x ∈ l) :
    ∃ f p p' s, l = p ++ f :: s ∧ l' = p' ++ f :: s ∧ (∀ x ∈ p, x ∉ l') ∧ ∀ x ∈ p', x ∉ l := by
  classical
  obtain ⟨f, hf⟩ : ∃ f, l'.find? (fun x => decide (x ∈ l)) = some f := by
    rw [← Option.isSome_iff_exists, List.find?_isSome]
    obtain ⟨x, hx', hx⟩ := hx
    exact ⟨x, hx', decide_eq_true hx⟩
  obtain ⟨hfl, p', s', hl', hp'⟩ := List.find?_eq_some_iff_append.mp hf
  obtain ⟨p, s, hl⟩ := List.append_of_mem (of_decide_eq_true hfl)
  have hs' : Chain look' pred f (f :: s') := of_append (hl' ▸ h')
  have hs : Chain look' pred f (f :: s) :=
    (of_append (hl ▸ h)).transfer hpred hclosed hs'.look_isSome
  obtain ⟨-, rfl⟩ := List.cons.inj (hs'.unique hs)
  have hno : ∀ x ∈ p', x ∉ l := by
    intro x hx
    simpa using hp' x hx
  refine ⟨f, p, p', s', hl, hl', fun x hx hxl' => ?_, hno⟩
  rw [hl', List.mem_append] at hxl'
  rcases hxl' with hxp' | hxs
  · exact hno x hxp' (hl ▸ List.mem_append_left _ hx)
  · have hnd := h.nodup
    rw [hl] at hnd
    exact (List.nodup_append.mp hnd).2.2 x hx x hxs rfl

/-- A depth that is `0` at the roots and one more than the predecessor's
elsewhere is the length of the walk to the root. -/
theorem length_eq {d : V → Nat} (h0 : ∀ k v, look k = some v → pred v = none → d v = 0)
    (hd : ∀ k v p w, look k = some v → pred v = some p → look p = some w → d v = d w + 1)
    {k : K} {l : List K} (h : Chain look pred k l) :
    ∀ v, look k = some v → l.length = d v + 1 := by
  induction h with
  | @root k w hw hp =>
      intro v hv
      rw [hw, Option.some.injEq] at hv
      subst hv
      rw [h0 _ _ hw hp]
      rfl
  | @link k p w l hw hp hc ih =>
      intro v hv
      rw [hw, Option.some.injEq] at hv
      subst hv
      obtain ⟨u, hu⟩ := hc.look_isSome
      rw [List.length_cons, ih u hu, hd _ _ _ _ hw hp hu]

theorem exists_root {k : K} {l : List K} (h : Chain look pred k l) :
    ∃ r v, l.getLast? = some r ∧ look r = some v ∧ pred v = none := by
  induction h with
  | @root k v hv hp => exact ⟨k, v, rfl, hv, hp⟩
  | @link k p v l hv hp hc ih =>
      obtain ⟨r, w, hr, hw⟩ := ih
      obtain ⟨t, rfl⟩ := hc.exists_cons
      exact ⟨r, w, by rw [List.getLast?_cons_cons]; exact hr, hw⟩

/-- Two neighbours on a chain are an entry and its predecessor. -/
theorem isChain {k : K} {l : List K} (h : Chain look pred k l) :
    l.IsChain fun a b => ∃ v, look a = some v ∧ pred v = some b := by
  induction h with
  | root _ _ => simp
  | @link k p v l hv hp hc ih =>
      obtain ⟨t, rfl⟩ := hc.exists_cons
      exact List.isChain_cons_cons.mpr ⟨⟨v, hv, hp⟩, ih⟩

end Chain
