/-
# `Bleep.Lib.Delivery` — when delivering comes to an end

Handlers answer messages with messages, so delivering what is in flight may
never end even if no process does anything of its own.  It does end
(`not_endless`) if the states of the processes give every message a weight, and
each delivery

  * makes progress: something well-founded read off the configuration goes
    down; or
  * leaves that and all weights as they are, and the message outweighs its
    answers.

Whether a message is of the second kind may depend on the states, so a delivery
that makes progress may change every weight.

What goes down is often the number of items some processes still lack
(`lacking`).  And where delivering ends and never gets stuck, some deliveries
leave nothing in flight (`exists_drained`).
-/
import Bleep.Lib.Network

namespace Protocol

variable {N S P L ε : Type} [DecidableEq N] (pr : Protocol N S P L ε)

/-- From here messages can be delivered for ever. -/
def Endless (c : Config N S P) : Prop :=
  ∃ f : Nat → Config N S P, f 0 = c ∧ ∀ i, ∃ k, pr.Step (f i) (.deliver k) (f (i + 1))

/-- The weight of all the messages in flight. -/
def load (weight : (N → S) → Packet N P → Nat) (c : Config N S P) : Nat :=
  (c.wire.map (weight c.node)).sum

variable {pr} {weight : (N → S) → Packet N P → Nat}

/-- The delivered message is traded for its answers. -/
theorem load_post {c : Config N S P} {k : Nat} {pk : Packet N P} {s : S} {out : List (N × P)}
    (hpk : c.wire[k]? = some pk)
    (hw : ∀ q, weight (c.post pk.dest s out (c.wire.eraseIdx k)).node q = weight c.node q)
    (hlt : ((packets pk.dest out).map (weight c.node)).sum < weight c.node pk) :
    load weight (c.post pk.dest s out (c.wire.eraseIdx k)) < load weight c := by
  have hperm :
      load weight c = weight c.node pk + ((c.wire.eraseIdx k).map (weight c.node)).sum := by
    have := ((wire_perm hpk).map (weight c.node)).sum_eq
    rw [List.map_cons, List.sum_cons] at this
    exact this.symm
  have hpost : load weight (c.post pk.dest s out (c.wire.eraseIdx k)) =
      ((c.wire.eraseIdx k).map (weight c.node)).sum +
        ((packets pk.dest out).map (weight c.node)).sum := by
    rw [load, funext hw, Config.post_wire, List.map_append, List.sum_append]
  omega

theorem not_endless {β : Type} [Preorder β] [WellFoundedLT β] (Inv : Config N S P → Prop)
    (left : Config N S P → β) (weight : (N → S) → Packet N P → Nat)
    (hkeep : ∀ c k c', Inv c → pr.Step c (.deliver k) c' → Inv c')
    (hdrop : ∀ (c : Config N S P) (k : Nat) (pk : Packet N P) (s : S) (out : List (N × P)),
      Inv c → c.wire[k]? = some pk →
      pr.recv pk.dest pk.src pk.body (c.node pk.dest) = .ok (s, out) →
      let c' := c.post pk.dest s out (c.wire.eraseIdx k)
      left c' < left c ∨
        left c' = left c ∧ (∀ q, weight c'.node q = weight c.node q) ∧
          ((packets pk.dest out).map (weight c.node)).sum < weight c.node pk)
    {c : Config N S P} (hc : Inv c) : ¬ pr.Endless c := by
  rintro ⟨f, rfl, hf⟩
  have hinv : ∀ i, Inv (f i) := by
    intro i
    induction i with
    | zero => exact hc
    | succ i ih =>
        obtain ⟨k, hk⟩ := hf i
        exact hkeep _ _ _ ih hk
  have hlex : ∀ c k c', Inv c → pr.Step c (.deliver k) c' →
      Prod.Lex (· < ·) (· < ·) (left c', load weight c') (left c, load weight c) := by
    intro c k c' hc hs
    cases hs with
    | @deliver _ pk s out hpk hr =>
        rw [Prod.lex_def]
        rcases hdrop c k pk s out hc hpk hr with hlt | ⟨heq, hw, hlt⟩
        · exact .inl hlt
        · exact .inr ⟨heq, load_post hpk hw hlt⟩
  have hwf : WellFounded (Prod.Lex (· < ·) (· < ·) : β × Nat → β × Nat → Prop) :=
    WellFounded.prod_lex wellFounded_lt wellFounded_lt
  refine (wellFounded_iff_isEmpty_descending_chain.mp hwf).false
    ⟨fun i => (left (f i), load weight (f i)), fun i => ?_⟩
  obtain ⟨k, hk⟩ := hf i
  exact hlex _ k _ (hinv i) hk

/-! ## What the processes lack -/

section Lacking

variable {K : Type} [Fintype N] {items : Finset K} {has has' : N → K → Bool}

omit [DecidableEq N] in
/-- How many of the items are lacking, in all processes together. -/
def lacking (items : Finset K) (has : N → K → Bool) : Nat :=
  ((Finset.univ ×ˢ items).filter fun x => has x.1 x.2 = false).card

omit [DecidableEq N] in
theorem lacking_lt (hgrow : ∀ n k, has n k = true → has' n k = true) {n : N} {k : K}
    (hk : k ∈ items) (hnot : has n k = false) (hnow : has' n k = true) :
    lacking items has' < lacking items has := by
  refine Finset.card_lt_card ⟨?_, fun hsub => ?_⟩
  · intro x hx
    obtain ⟨hmem, hx'⟩ := Finset.mem_filter.mp hx
    refine Finset.mem_filter.mpr ⟨hmem, ?_⟩
    cases h : has x.1 x.2 with
    | false => rfl
    | true => cases hx'.symm.trans (hgrow _ _ h)
  · have hin : (n, k) ∈ (Finset.univ ×ˢ items).filter fun x => has x.1 x.2 = false :=
      Finset.mem_filter.mpr ⟨Finset.mem_product.mpr ⟨Finset.mem_univ n, hk⟩, hnot⟩
    cases (Finset.mem_filter.mp (hsub hin)).2.symm.trans hnow

end Lacking

/-! ## Delivering all there is -/

/-- Some deliveries lead from one configuration to the other. -/
abbrev Delivered (pr : Protocol N S P L ε) : Config N S P → Config N S P → Prop :=
  Relation.ReflTransGen fun c c' => ∃ k, pr.Step c (.deliver k) c'

/-- If delivering ends, and as long as something is in flight some message can be
delivered so that `Good` is kept, then all can be delivered. -/
theorem exists_drained {Good : Config N S P → Prop}
    (hnext : ∀ c, Good c → c.wire ≠ [] → ∃ k c', pr.Step c (.deliver k) c' ∧ Good c')
    (hend : ∀ c, Good c → ¬ pr.Endless c) {c : Config N S P} (hc : Good c) :
    ∃ c', pr.Delivered c c' ∧ Good c' ∧ c'.wire = [] := by
  have hwf : WellFounded fun c' c => Good c ∧ ∃ k, pr.Step c (.deliver k) c' := by
    refine wellFounded_iff_isEmpty_descending_chain.mpr ⟨fun ⟨f, hf⟩ => ?_⟩
    exact hend (f 0) (hf 0).1 ⟨f, rfl, fun i => (hf i).2⟩
  induction c using hwf.induction with
  | _ c ih =>
      by_cases hw : c.wire = []
      · exact ⟨c, .refl, hc, hw⟩
      · obtain ⟨k, c', hs, hc'⟩ := hnext c hc hw
        obtain ⟨d, hd, hgood, hdw⟩ := ih c' ⟨hc, k, hs⟩ hc'
        exact ⟨d, .head ⟨k, hs⟩ hd, hgood, hdw⟩

end Protocol
