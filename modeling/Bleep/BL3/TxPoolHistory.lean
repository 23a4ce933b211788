/-
# `Bleep.BL3.TxPoolHistory` — what the pool answers, after any calls

`TxPool` is a finite map keyed by sender, receiver and amount: `insert` does not
replace, so under each key it keeps the *first* transaction added since the key
was removed (`txPool_of_calls`, from `Keyed.Insertion.get_run`).

The transaction hash is not part of the key.  A pool that was given one of two
transactions that differ in the hash alone contains, returns and removes "both"
(`txPool_conflates`).
-/
import Bleep.Lib.Keyed
import Bleep.BL3.Transaction

namespace Bleep

open SimpleTransactionId Keyed

variable {H A : Type} [LinearOrder A]

/-- The calls that change a pool. -/
inductive PoolCall (H A : Type) where
  | addTx (tx : SimpleTransaction H A)
  | addTxs (txs : List (SimpleTransaction H A))
  | removeTxs (txIds : List (SimpleTransactionId H A))

/-- A single insertion or erasure. -/
abbrev PoolOp (H A : Type) := Keyed.Op (SimpleTransactionId H A) (SimpleTransaction H A)

/-- The insertions and erasures of a call, in order. -/
def PoolCall.ops : PoolCall H A → List (PoolOp H A)
  | .addTx tx => [.add tx]
  | .addTxs txs => txs.map .add
  | .removeTxs txIds => txIds.map .remove

namespace TxPool

def call (p : TxPool H A) : PoolCall H A → TxPool H A
  | .addTx tx => p.addTx tx
  | .addTxs txs => p.addTxs txs
  | .removeTxs txIds => p.removeTxs txIds

/-- The pool after a sequence of calls. -/
def ofCalls (calls : List (PoolCall H A)) : TxPool H A := calls.foldl call empty

/-- The transaction was added under the key of `tid`, and not removed since. -/
abbrev Pending (ops : List (PoolOp H A)) (tid : SimpleTransactionId H A)
    (tx : SimpleTransaction H A) : Prop :=
  Live SameKey SimpleTransaction.getId ops tid tx

/-- The first of the pending transactions under the key of `tid`. -/
abbrev First (ops : List (PoolOp H A)) (tid : SimpleTransactionId H A)
    (tx : SimpleTransaction H A) : Prop :=
  Oldest SameKey SimpleTransaction.getId ops tid tx

/-! ## The three laws -/

variable (p : TxPool H A)

theorem getTx_empty (tid : SimpleTransactionId H A) : (empty : TxPool H A).getTx tid = none := by
  simp [getTx, empty]

theorem getTx_addTx (tx w : SimpleTransaction H A) (tid : SimpleTransactionId H A) :
    (p.addTx tx).getTx tid = some w ↔
      (SameKey tid tx.getId ∧ p.getTx tid = none ∧ w = tx) ∨ p.getTx tid = some w := by
  have hnone : SameKey tid tx.getId → (tx.getId ∉ p.items ↔ p.getTx tid = none) := by
    intro hk
    rw [← Std.TreeMap.mem_congr (cmp_eq.mpr hk), ← Option.not_isSome_iff_eq_none,
      ← p.containTx_eq_isSome]
    exact Iff.rfl
  simp only [getTx, addTx, Std.TreeMap.getElem?_insertIfNew, cmp_eq]
  constructor
  · intro h
    split at h
    · next hk =>
        obtain rfl := Option.some.inj h
        exact .inl ⟨hk.1.symm, (hnone hk.1.symm).mp hk.2, rfl⟩
    · exact .inr h
  · rintro (⟨hk, hget, rfl⟩ | h)
    · rw [if_pos ⟨hk.symm, (hnone hk).mpr hget⟩]
    · refine (if_neg ?_).trans h
      rintro ⟨hk, hmem⟩
      have hget : p.getTx tid = none := (hnone hk.symm).mp hmem
      cases hget.symm.trans h

theorem getTx_erase (x tid : SimpleTransactionId H A) (w : SimpleTransaction H A) :
    (p.erase x).getTx tid = some w ↔ ¬ SameKey tid x ∧ p.getTx tid = some w := by
  simp only [getTx, erase, Std.TreeMap.getElem?_erase, cmp_eq]
  constructor
  · intro h
    split at h
    · cases h
    · next hk => exact ⟨fun hs => hk hs.symm, h⟩
  · rintro ⟨hk, h⟩
    exact (if_neg fun hs => hk hs.symm).trans h

theorem insertion : Insertion SameKey SimpleTransaction.getId (empty : TxPool H A) addTx erase
    getTx where
  get_empty := getTx_empty
  get_add s v k w := s.getTx_addTx v w k
  get_remove s x k w := s.getTx_erase x k w

theorem ofCalls_eq (calls : List (PoolCall H A)) :
    ofCalls calls = Keyed.run empty addTx erase (calls.flatMap PoolCall.ops) := by
  have hcall : ∀ (p : TxPool H A) (c : PoolCall H A),
      p.call c = c.ops.foldl (Keyed.apply addTx erase) p := by
    intro p c
    cases c with
    | addTx tx => rfl
    | addTxs txs =>
        show txs.foldl addTx p = (txs.map Op.add).foldl _ p
        rw [List.foldl_map]
        rfl
    | removeTxs txIds =>
        show txIds.foldl erase p = (txIds.map Op.remove).foldl _ p
        rw [List.foldl_map]
        rfl
  have hfold : ∀ (calls : List (PoolCall H A)) (p : TxPool H A), calls.foldl call p =
      (calls.flatMap PoolCall.ops).foldl (Keyed.apply addTx erase) p := by
    intro calls
    induction calls with
    | nil => exact fun p => rfl
    | cons c calls ih =>
        intro p
        rw [List.flatMap_cons, List.foldl_append, ← hcall, List.foldl_cons, ih]
  exact hfold calls empty

/-! ## Counting and listing -/

theorem keys_pairwise : p.keys.Pairwise fun x y => ¬ SameKey x y := by
  rw [keys, List.pairwise_map]
  refine Std.TreeMap.distinct_keys_toList.imp ?_
  intro x y hxy hsame
  exact hxy (cmp_eq.mpr hsame)

theorem length_keys : p.keys.length = p.getPendingTxNum := by
  rw [keys, List.length_map, getPendingTxNum, Std.TreeMap.length_toList]

theorem containTx_iff_mem_keys (tid : SimpleTransactionId H A) :
    p.containTx tid = true ↔ ∃ k ∈ p.keys, SameKey tid k := by
  constructor
  · exact p.exists_mem_keys
  · rintro ⟨k, hk, hsame⟩
    obtain ⟨⟨k', tx⟩, hmem, rfl⟩ := List.mem_map.mp hk
    rw [p.containTx_congr hsame, p.containTx_eq_isSome]
    have hget := (Std.TreeMap.mem_toList_iff_getKey?_eq_some_and_getElem?_eq_some.mp hmem).2
    exact Option.isSome_iff_exists.mpr ⟨tx, hget⟩

theorem getTxs_pairwise (num : Nat) :
    (p.getTxs num).Pairwise fun x y => ¬ SameKey x.getId y.getId := by
  unfold getTxs
  split
  · exact .nil
  · rw [List.pairwise_map]
    refine (Std.TreeMap.distinct_keys_toList.sublist (List.take_sublist _ _)).imp_of_mem ?_
    rintro ⟨k, tx⟩ ⟨k', tx'⟩ hm hm' hne hsame
    -- each entry is stored under its own transaction's key
    have hkey : ∀ {k : SimpleTransactionId H A} {tx : SimpleTransaction H A},
        (k, tx) ∈ p.items.toList.take num → SameKey k tx.getId := fun hm =>
      p.keyed _ _ (Std.TreeMap.mem_toList_iff_getKey?_eq_some_and_getElem?_eq_some.mp
        (List.mem_of_mem_take hm)).2
    exact hne (cmp_eq.mpr (((hkey hm).trans hsame).trans (hkey hm').symm))

/-- There are `n` pending transactions if some `n` of them have pairwise different
keys. -/
theorem le_getPendingTxNum_iff {n : Nat} :
    n ≤ p.getPendingTxNum ↔ ∃ txs : List (SimpleTransaction H A), txs.length = n ∧
      (txs.Pairwise fun x y => ¬ SameKey x.getId y.getId) ∧ ∀ tx ∈ txs, p.Has tx := by
  constructor
  · intro hn
    exact ⟨p.getTxs n, p.length_getTxs hn, p.getTxs_pairwise n, fun tx => p.has_of_mem_getTxs⟩
  · rintro ⟨txs, rfl, hpw, hhas⟩
    have hnodup : txs.Nodup := hpw.imp fun {x y} hne (he : x = y) => hne (he ▸ SameKey.refl _)
    have hsub : txs ⊆ p.items.toList.map Prod.snd := by
      intro tx htx
      have hget : p.items[tx.getId]? = some tx := hhas tx htx
      obtain ⟨k, hk⟩ := Option.isSome_iff_exists.mp
        ((Std.TreeMap.contains_eq_isSome_getKey?).symm.trans
          ((p.containTx_iff).mpr ⟨tx, hget, .refl _⟩))
      have hfind := Std.TreeMap.find?_toList_eq_some_iff_getKey?_eq_some_and_getElem?_eq_some.mpr
        ⟨hk, hget⟩
      exact List.mem_map.mpr ⟨_, List.mem_of_find?_eq_some hfind, rfl⟩
    have hle := (List.subperm_of_subset hnodup hsub).length_le
    rwa [List.length_map, Std.TreeMap.length_toList] at hle

/-! ### Counting what goes -/

@[simp] theorem getPendingTxNum_empty : (empty : TxPool H A).getPendingTxNum = 0 :=
  Std.TreeMap.size_emptyc

theorem getPendingTxNum_addTx {tx : SimpleTransaction H A} (h : p.containTx tx.getId = false) :
    (p.addTx tx).getPendingTxNum = p.getPendingTxNum + 1 := by
  show (p.items.insertIfNew tx.getId tx).size = p.items.size + 1
  rw [Std.TreeMap.size_insertIfNew, if_neg]
  rw [Std.TreeMap.mem_iff_contains]
  exact fun hc => nomatch h.symm.trans hc

theorem getPendingTxNum_erase (tid : SimpleTransactionId H A) :
    (p.erase tid).getPendingTxNum + (if p.containTx tid then 1 else 0) = p.getPendingTxNum := by
  have hsize : (p.erase tid).getPendingTxNum =
      if p.containTx tid then p.getPendingTxNum - 1 else p.getPendingTxNum :=
    Std.TreeMap.size_erase
  cases hc : p.containTx tid with
  | false => simp [hsize, hc]
  | true =>
      have hpos : 1 ≤ p.getPendingTxNum := by
        obtain ⟨tx, htx, -⟩ := (p.containTx_iff).mp hc
        exact p.le_getPendingTxNum_iff.mpr ⟨[tx], rfl, List.pairwise_singleton _ _,
          by simpa using htx⟩
      simp only [hsize, hc, if_true]
      omega

/-- Ids with different keys are taken out one by one. -/
theorem getPendingTxNum_removeTxs {tids : List (SimpleTransactionId H A)}
    (h : tids.Pairwise fun x y => ¬ SameKey x y) :
    (p.removeTxs tids).getPendingTxNum + tids.countP p.containTx = p.getPendingTxNum := by
  induction tids generalizing p with
  | nil => rfl
  | cons x tids ih =>
      obtain ⟨hx, hrest⟩ := List.pairwise_cons.mp h
      have hih := ih (p.erase x) hrest
      have herase := p.getPendingTxNum_erase x
      -- the others are there before `x` is taken out if they are there after
      have hcount : tids.countP (p.erase x).containTx = tids.countP p.containTx := by
        refine List.countP_congr fun y hy => ?_
        rw [containTx_erase]
        exact and_iff_right fun hs => hx y hy hs.symm
      rw [hcount] at hih
      show ((p.erase x).removeTxs tids).getPendingTxNum + _ = _
      rw [List.countP_cons]
      omega

/-! ## The pool after any calls -/

/-- **The pool is a finite map keyed by sender, receiver and amount.**  After any
calls it contains an id exactly if a transaction with this key was added and not
removed since; it returns the first such transaction; `GetPendingTxNum` is the
number of keys; and `GetTxs(n)` returns `n` pending transactions with different
keys, or nothing where there are fewer. -/
theorem txPool_of_calls (calls : List (PoolCall H A)) :
    (∀ tid, (ofCalls calls).containTx tid = true ↔
        ∃ tx, Pending (calls.flatMap PoolCall.ops) tid tx) ∧
      (∀ tid tx, (ofCalls calls).getTx tid = some tx ↔
        First (calls.flatMap PoolCall.ops) tid tx) ∧
      (∃ ks : List (SimpleTransactionId H A), ks.Pairwise (fun x y => ¬ SameKey x y) ∧
        (∀ tid, (∃ tx, Pending (calls.flatMap PoolCall.ops) tid tx) ↔ ∃ k ∈ ks, SameKey tid k) ∧
        (ofCalls calls).getPendingTxNum = ks.length) ∧
      ∀ n, (n ≤ (ofCalls calls).getPendingTxNum →
          ((ofCalls calls).getTxs n).length = n ∧
          ((ofCalls calls).getTxs n).Pairwise (fun x y => ¬ SameKey x.getId y.getId) ∧
          ∀ tx ∈ (ofCalls calls).getTxs n, First (calls.flatMap PoolCall.ops) tx.getId tx) ∧
        ((ofCalls calls).getPendingTxNum < n → (ofCalls calls).getTxs n = []) := by
  have hget : ∀ tid tx, (ofCalls calls).getTx tid = some tx ↔
      First (calls.flatMap PoolCall.ops) tid tx := by
    intro tid tx
    rw [ofCalls_eq]
    exact insertion.get_run _ _ _
  have hcontain : ∀ tid, (ofCalls calls).containTx tid = true ↔
      ∃ tx, Pending (calls.flatMap PoolCall.ops) tid tx := by
    intro tid
    rw [containTx_eq_isSome, ofCalls_eq]
    exact insertion.isSome_run _ _
  refine ⟨hcontain, hget, ⟨(ofCalls calls).keys, keys_pairwise _, fun tid => ?_,
    (length_keys _).symm⟩, fun n => ⟨fun hn => ⟨length_getTxs _ hn, getTxs_pairwise _ n, ?_⟩,
      fun hn => ?_⟩⟩
  · rw [← hcontain, containTx_iff_mem_keys]
  · intro tx htx
    exact (hget _ _).mp (has_of_mem_getTxs _ htx)
  · rw [getTxs, if_pos hn]

/-- Two transactions that differ in their hash. -/
def twins : SimpleTransaction Nat Int × SimpleTransaction Nat Int := (.make 1 2 3 4, .make 1 2 3 5)

/-- The pool that was given one of the twins contains the id of the other, which
was never added, and returns the first for it; it does not take the second in. -/
theorem txPool_conflates :
    (ofCalls [.addTx twins.1]).containTx twins.2.getId = true ∧
      (∀ tx, Op.add tx ∈ [PoolCall.addTx twins.1].flatMap PoolCall.ops → tx.getId ≠ twins.2.getId) ∧
      (ofCalls [.addTx twins.1]).getTx twins.2.getId = some twins.1 ∧
      twins.1.getId ≠ twins.2.getId ∧
      (ofCalls [.addTx twins.1, .addTx twins.2]).getPendingTxNum = 1 := by
  refine ⟨by decide +kernel, ?_, by decide +kernel, by decide, by decide +kernel⟩
  intro tx htx
  obtain rfl := Op.add.inj (List.mem_singleton.mp htx)
  decide

end TxPool

end Bleep
