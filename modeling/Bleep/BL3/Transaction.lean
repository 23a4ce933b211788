/-
# `Bleep.BL3.Transaction` — transactions and the pool of pending ones

`SimpleTransactionId`, `SimpleTransaction` and `TxPool` of `BL3_protocol`.

A 256-bit hash is a value of a type `H`; the code prints it with `str()` and
uses the printed form as a key, and the model uses the same `H` for both.  A
`float` amount is a value of a linear order `A`: the code only compares
amounts, and a `float` other than NaN is determined by its comparisons.

The order the pool is sorted by, `operator<`, reads sender, receiver and amount
and **not** `tx_hash`.  Two ids that differ in the hash alone are one key of
the map (`SimpleTransactionId.SameKey`), and this is what adding, looking up and
removing go by.
-/
import Mathlib

namespace Bleep

/-- `class SimpleTransactionId`.  `amount` is a `float` that is not NaN; the NaN that a
received block may bring is told apart in `BL3.RefusedBlocks`. -/
structure SimpleTransactionId (H A : Type) where
  sender : Int
  receiver : Int
  amount : A
  tx_hash : H
  deriving DecidableEq, Repr

/-- `class SimpleTransaction`.  The three fields of the id are stored a second
time. -/
structure SimpleTransaction (H A : Type) where
  _id : SimpleTransactionId H A
  sender_id : Int
  receiver_id : Int
  amount : A
  deriving DecidableEq, Repr

variable {H A : Type}

/-- `SimpleTransaction(sid, rid, a)` after `_id.SetTxHash(hash)`. -/
def SimpleTransaction.make (sid rid : Int) (a : A) (hash : H) : SimpleTransaction H A :=
  { _id := ⟨sid, rid, a, hash⟩, sender_id := sid, receiver_id := rid, amount := a }

def SimpleTransaction.getId (tx : SimpleTransaction H A) : SimpleTransactionId H A := tx._id

namespace SimpleTransactionId

/-- The same key of the map: equal but for the hash. -/
def SameKey (x y : SimpleTransactionId H A) : Prop :=
  x.sender = y.sender ∧ x.receiver = y.receiver ∧ x.amount = y.amount

instance [DecidableEq A] (x y : SimpleTransactionId H A) : Decidable (SameKey x y) :=
  inferInstanceAs (Decidable (_ ∧ _ ∧ _))

@[refl] theorem SameKey.refl (x : SimpleTransactionId H A) : SameKey x x := ⟨rfl, rfl, rfl⟩

theorem SameKey.symm {x y : SimpleTransactionId H A} (h : SameKey x y) : SameKey y x :=
  ⟨h.1.symm, h.2.1.symm, h.2.2.symm⟩

theorem SameKey.trans {x y z : SimpleTransactionId H A} (h : SameKey x y) (h' : SameKey y z) :
    SameKey x z := ⟨h.1.trans h'.1, h.2.1.trans h'.2.1, h.2.2.trans h'.2.2⟩

end SimpleTransactionId

variable [LinearOrder A]

namespace SimpleTransactionId

/-- `operator<`. -/
def lt (x y : SimpleTransactionId H A) : Bool :=
  if x.sender ≠ y.sender then x.sender < y.sender
  else if x.receiver ≠ y.receiver then x.receiver < y.receiver
  else x.amount < y.amount

/-- The three-way comparison of `operator<`. -/
def cmp (x y : SimpleTransactionId H A) : Ordering :=
  compareLex (compareOn sender) (compareLex (compareOn receiver) (compareOn amount)) x y

instance : Std.TransCmp (cmp : SimpleTransactionId H A → _ → _) :=
  inferInstanceAs (Std.TransCmp
    (compareLex (compareOn sender) (compareLex (compareOn receiver) (compareOn amount))))

theorem cmp_lt {x y : SimpleTransactionId H A} : cmp x y = .lt ↔ x.lt y = true := by
  simp only [cmp, lt, compareLex, compareOn]
  rcases lt_trichotomy x.sender y.sender with h | h | h
  · simp [compare_lt_iff_lt.mpr h, h.ne, h]
  · simp only [h, compare_eq_iff_eq.mpr, Ordering.then_eq_lt]
    rcases lt_trichotomy x.receiver y.receiver with h' | h' | h'
    · simp [compare_lt_iff_lt.mpr h', h'.ne, h']
    · simp [h', compare_lt_iff_lt]
    · simp [compare_gt_iff_gt.mpr h', h'.ne', h'.le]
  · simp [compare_gt_iff_gt.mpr h, h.ne', h.le]

theorem cmp_eq {x y : SimpleTransactionId H A} : cmp x y = .eq ↔ SameKey x y := by
  simp [cmp, SameKey, compareLex, compareOn, Ordering.then_eq_eq]

end SimpleTransactionId

open SimpleTransactionId

/-! ## The pool -/

/-- `class TxPool`: a `std::map` from ids to transactions.  Every entry is
stored under its own transaction's id. -/
structure TxPool (H A : Type) [LinearOrder A] where
  items : Std.TreeMap (SimpleTransactionId H A) (SimpleTransaction H A) SimpleTransactionId.cmp
  keyed : ∀ (k : SimpleTransactionId H A) (tx : SimpleTransaction H A),
    items[k]? = some tx → SameKey k tx.getId

namespace TxPool

def empty : TxPool H A where
  items := ∅
  keyed k tx h := by simp at h

def getPendingTxNum (p : TxPool H A) : Nat := p.items.size

/-- `GetTxs(num)`: the first `num` transactions in the order of the map, or none
at all if there are fewer. -/
def getTxs (p : TxPool H A) (num : Nat) : List (SimpleTransaction H A) :=
  if p.getPendingTxNum < num then [] else (p.items.toList.take num).map Prod.snd

def containTx (p : TxPool H A) (tid : SimpleTransactionId H A) : Bool := p.items.contains tid

def getTx (p : TxPool H A) (tid : SimpleTransactionId H A) : Option (SimpleTransaction H A) :=
  p.items[tid]?

/-- `AddTx`: `std::map::insert`, which leaves an entry that is there alone. -/
def addTx (p : TxPool H A) (tx : SimpleTransaction H A) : TxPool H A where
  items := p.items.insertIfNew tx.getId tx
  keyed k t h := by
    rw [Std.TreeMap.getElem?_insertIfNew] at h
    split at h
    · next hk =>
        simp only [Option.some.injEq] at h
        exact h ▸ (cmp_eq.mp hk.1).symm
    · exact p.keyed k t h

def addTxs (p : TxPool H A) (txs : List (SimpleTransaction H A)) : TxPool H A :=
  txs.foldl addTx p

/-- `items.erase(txId)`. -/
def erase (p : TxPool H A) (tid : SimpleTransactionId H A) : TxPool H A where
  items := p.items.erase tid
  keyed k t h := by
    rw [Std.TreeMap.getElem?_erase] at h
    split at h
    · exact nomatch h
    · exact p.keyed k t h

def removeTxs (p : TxPool H A) (tids : List (SimpleTransactionId H A)) : TxPool H A :=
  tids.foldl erase p

/-! ### What the operations do to membership -/

variable (p : TxPool H A)

/-- A transaction of the pool. -/
def Has (tx : SimpleTransaction H A) : Prop := p.items[tx.getId]? = some tx

instance [DecidableEq H] (tx : SimpleTransaction H A) : Decidable (p.Has tx) :=
  inferInstanceAs (Decidable (_ = _))

theorem containTx_iff {tid : SimpleTransactionId H A} :
    p.containTx tid = true ↔ ∃ tx, p.Has tx ∧ SameKey tid tx.getId := by
  rw [containTx, Std.TreeMap.contains_eq_isSome_getElem?, Option.isSome_iff_exists]
  constructor
  · rintro ⟨tx, h⟩
    have he := p.keyed _ _ h
    exact ⟨tx, by rw [Has, ← Std.TreeMap.getElem?_congr (cmp_eq.mpr he)]; exact h, he⟩
  · rintro ⟨tx, h, he⟩
    exact ⟨tx, by rw [Std.TreeMap.getElem?_congr (cmp_eq.mpr he)]; exact h⟩

theorem containTx_congr {x y : SimpleTransactionId H A} (h : SameKey x y) :
    p.containTx x = p.containTx y :=
  Std.TreeMap.contains_congr (cmp_eq.mpr h)

theorem has_of_getTx {tid : SimpleTransactionId H A} {tx : SimpleTransaction H A}
    (h : p.getTx tid = some tx) : p.Has tx ∧ SameKey tid tx.getId := by
  have he := p.keyed _ _ h
  refine ⟨?_, he⟩
  rw [Has, ← Std.TreeMap.getElem?_congr (cmp_eq.mpr he)]
  exact h

theorem containTx_eq_isSome (tid : SimpleTransactionId H A) :
    p.containTx tid = (p.getTx tid).isSome :=
  Std.TreeMap.contains_eq_isSome_getElem?

/-- The ids the pool is keyed by. -/
def keys : List (SimpleTransactionId H A) := p.items.toList.map Prod.fst

theorem exists_mem_keys {tid : SimpleTransactionId H A} (h : p.containTx tid = true) :
    ∃ x ∈ p.keys, SameKey tid x := by
  obtain ⟨x, hx⟩ := Option.isSome_iff_exists.mp
    ((Std.TreeMap.contains_eq_isSome_getKey?).symm.trans h)
  obtain ⟨tx, htx⟩ := Option.isSome_iff_exists.mp ((p.containTx_eq_isSome tid).symm.trans h)
  have hfind := Std.TreeMap.find?_toList_eq_some_iff_getKey?_eq_some_and_getElem?_eq_some.mpr
    ⟨hx, htx⟩
  refine ⟨x, List.mem_map.mpr ⟨_, List.mem_of_find?_eq_some hfind, rfl⟩, ?_⟩
  exact (cmp_eq.mp (by simpa using List.find?_some hfind)).symm

@[simp] theorem containTx_empty (tid : SimpleTransactionId H A) :
    (empty : TxPool H A).containTx tid = false := by
  simp [containTx, empty]

theorem containTx_addTx (tx : SimpleTransaction H A) (tid : SimpleTransactionId H A) :
    (p.addTx tx).containTx tid = true ↔ SameKey tid tx.getId ∨ p.containTx tid = true := by
  simp only [containTx, addTx, Std.TreeMap.contains_insertIfNew, Bool.or_eq_true, beq_iff_eq,
    cmp_eq]
  exact or_congr_left ⟨SameKey.symm, SameKey.symm⟩

theorem containTx_addTxs (txs : List (SimpleTransaction H A)) (tid : SimpleTransactionId H A) :
    (p.addTxs txs).containTx tid = true ↔
      (∃ tx ∈ txs, SameKey tid tx.getId) ∨ p.containTx tid = true := by
  induction txs generalizing p with
  | nil => simp [addTxs]
  | cons tx txs ih =>
      have := ih (p.addTx tx)
      rw [addTxs] at this ⊢
      rw [List.foldl_cons, this, containTx_addTx]
      simp only [List.mem_cons, exists_eq_or_imp]
      exact or_left_comm.trans or_assoc.symm

theorem containTx_erase (x tid : SimpleTransactionId H A) :
    (p.erase x).containTx tid = true ↔ ¬ SameKey tid x ∧ p.containTx tid = true := by
  simp only [containTx, erase, Std.TreeMap.contains_erase, Bool.and_eq_true, bne_iff_ne, ne_eq,
    cmp_eq]
  exact and_congr_left fun _ => not_congr ⟨SameKey.symm, SameKey.symm⟩

theorem containTx_removeTxs (tids : List (SimpleTransactionId H A))
    (tid : SimpleTransactionId H A) :
    (p.removeTxs tids).containTx tid = true ↔
      (∀ x ∈ tids, ¬ SameKey tid x) ∧ p.containTx tid = true := by
  induction tids generalizing p with
  | nil => simp [removeTxs]
  | cons x tids ih =>
      have := ih (p.erase x)
      rw [removeTxs] at this ⊢
      rw [List.foldl_cons, this, containTx_erase]
      simp only [List.mem_cons, forall_eq_or_imp]
      tauto

/-! ### What the operations do to the transactions themselves -/

theorem not_has_empty (tx : SimpleTransaction H A) : ¬ (empty : TxPool H A).Has tx := by
  simp [Has, empty]

theorem has_addTx (tx t : SimpleTransaction H A) :
    (p.addTx tx).Has t ↔ (t = tx ∧ p.containTx tx.getId = false) ∨ p.Has t := by
  have hmem : (tx.getId ∈ p.items) = (p.containTx tx.getId = true) := rfl
  simp only [Has, addTx, Std.TreeMap.getElem?_insertIfNew, hmem, cmp_eq, Bool.not_eq_true]
  constructor
  · intro h
    split at h
    · next hk => exact .inl ⟨(Option.some.inj h).symm, hk.2⟩
    · exact .inr h
  · rintro (⟨rfl, h⟩ | h)
    · rw [if_pos ⟨.refl _, h⟩]
    · refine (if_neg ?_).trans h
      rintro ⟨hk, hf⟩
      have := (p.containTx_iff).mpr ⟨t, h, hk⟩
      exact nomatch hf.symm.trans this

theorem has_addTxs {txs : List (SimpleTransaction H A)} {t : SimpleTransaction H A}
    (h : (p.addTxs txs).Has t) : t ∈ txs ∨ p.Has t := by
  induction txs generalizing p with
  | nil => exact .inr h
  | cons tx txs ih =>
      rcases ih (p.addTx tx) h with h | h
      · exact .inl (List.mem_cons_of_mem _ h)
      · rcases (p.has_addTx tx t).mp h with ⟨rfl, -⟩ | h
        · exact .inl List.mem_cons_self
        · exact .inr h

theorem has_erase {x : SimpleTransactionId H A} {t : SimpleTransaction H A} :
    (p.erase x).Has t ↔ ¬ SameKey t.getId x ∧ p.Has t := by
  simp only [Has, erase, Std.TreeMap.getElem?_erase, cmp_eq]
  constructor
  · intro h
    split at h
    · exact nomatch h
    · next hk => exact ⟨fun he => hk he.symm, h⟩
  · rintro ⟨hk, h⟩
    rw [if_neg fun he => hk he.symm]
    exact h

theorem has_removeTxs {tids : List (SimpleTransactionId H A)} {t : SimpleTransaction H A} :
    (p.removeTxs tids).Has t ↔ (∀ x ∈ tids, ¬ SameKey t.getId x) ∧ p.Has t := by
  induction tids generalizing p with
  | nil => simp [removeTxs]
  | cons x tids ih =>
      have := ih (p.erase x)
      rw [removeTxs] at this ⊢
      rw [List.foldl_cons, this, has_erase]
      simp only [List.mem_cons, forall_eq_or_imp]
      tauto

/-! ### The transactions a block is made of -/

theorem has_of_mem_getTxs {num : Nat} {t : SimpleTransaction H A} (h : t ∈ p.getTxs num) :
    p.Has t := by
  rw [getTxs] at h
  split at h
  · exact absurd h List.not_mem_nil
  · obtain ⟨⟨k, t'⟩, hk, rfl⟩ := List.mem_map.mp h
    have hk' := List.mem_of_mem_take hk
    have hget := (Std.TreeMap.mem_toList_iff_getKey?_eq_some_and_getElem?_eq_some.mp hk').2
    have he := p.keyed _ _ hget
    rw [Has, ← Std.TreeMap.getElem?_congr (cmp_eq.mpr he)]
    exact hget

theorem length_getTxs {num : Nat} (h : num ≤ p.getPendingTxNum) :
    (p.getTxs num).length = num := by
  rw [getTxs, if_neg (by omega), List.length_map, List.length_take, Std.TreeMap.length_toList]
  exact Nat.min_eq_left h

end TxPool

end Bleep
