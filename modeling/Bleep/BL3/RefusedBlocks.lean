/-
# `Bleep.BL3.RefusedBlocks` — does a block that is refused change anything?

`_RecvPOWBlockBlkHandler` takes the block's transactions out of the pool before
`AppendBlock` looks for the parent.  So the answer is no exactly for blocks that
are stored already, or whose transactions are all there and touch nothing in the
pool (`rejected_iff`).

Two things about a block's transactions are not in `POWBlock`, and are here.
`tx_list` is a list of pointers, and the handler follows each.  And an amount may
be NaN: `operator<` then finds neither of two ids less, whatever the other amount
is, and `erase` removes every pending transaction of that sender and receiver.

A pool with a NaN in it has no order.  So in the runs considered here no such
transaction comes to the pool (`Ordered`); in blocks they may come at any time.
-/
import Bleep.BL3.PoWOpen

namespace Bleep

variable {N H A W : Type} [LinearOrder A]

/-! ## Amounts that may be NaN -/

namespace SimpleTransactionId

section Less

variable (isNaN : A → Bool) (x y : SimpleTransactionId H A)

/-- `operator<`; no comparison with a NaN holds. -/
def less : Bool :=
  if x.sender ≠ y.sender then x.sender < y.sender
  else if x.receiver ≠ y.receiver then x.receiver < y.receiver
  else !isNaN x.amount && !isNaN y.amount && x.amount < y.amount

/-- Neither is less than the other: to a map they are one key. -/
def Equivalent : Prop := x.less isNaN y = false ∧ y.less isNaN x = false

instance : Decidable (x.Equivalent isNaN y) := inferInstanceAs (Decidable (_ ∧ _))

end Less

variable {isNaN : A → Bool} {x y : SimpleTransactionId H A}

theorem equivalent_iff : x.Equivalent isNaN y ↔ x.sender = y.sender ∧ x.receiver = y.receiver ∧
    (isNaN x.amount = true ∨ isNaN y.amount = true ∨ x.amount = y.amount) := by
  unfold Equivalent less
  by_cases h : x.sender = y.sender
  · by_cases h' : x.receiver = y.receiver
    · cases isNaN x.amount with
      | true => simp [h, h']
      | false =>
          cases isNaN y.amount with
          | true => simp [h, h']
          | false =>
              simp only [h, h', ne_eq, not_true_eq_false, if_false, Bool.not_false, Bool.true_and,
                decide_eq_false_iff_not, not_lt, true_and, Bool.false_eq_true, false_or]
              exact And.comm.trans le_antisymm_iff.symm
    · have hne : y.receiver ≠ x.receiver := fun he => h' he.symm
      simp only [h, h', hne, ne_eq, not_true_eq_false, not_false_eq_true, if_false, if_true,
        decide_eq_false_iff_not, not_lt, false_and, and_false, iff_false, not_and]
      exact fun hle hle' => h' (Int.le_antisymm hle' hle)
  · have hne : y.sender ≠ x.sender := fun he => h he.symm
    simp only [h, hne, ne_eq, not_false_eq_true, if_true, decide_eq_false_iff_not, not_lt,
      false_and, iff_false, not_and]
    exact fun hle hle' => h (Int.le_antisymm hle' hle)

theorem equivalent_iff_sameKey (hx : isNaN x.amount = false) (hy : isNaN y.amount = false) :
    x.Equivalent isNaN y ↔ SameKey x y := by
  rw [equivalent_iff, hx, hy]
  simp [SameKey]

end SimpleTransactionId

open SimpleTransactionId

namespace TxPool

variable (isNaN : A → Bool) (p : TxPool H A)

/-- No pending amount is NaN. -/
def NoNaN : Prop := ∀ tid, p.containTx tid = true → isNaN tid.amount = false

/-- `items.erase(txId)`: all keys go that are equivalent to the id. -/
def eraseEquivalent (tid : SimpleTransactionId H A) : TxPool H A where
  items := p.items.filter fun k _ => !decide (k.Equivalent isNaN tid)
  keyed k tx h := by
    refine p.keyed k tx ?_
    rw [Std.TreeMap.getElem?_filter, Option.pfilter_eq_some_iff] at h
    exact h.1

/-- `RemoveTxs`. -/
def removeEquivalents (tids : List (SimpleTransactionId H A)) : TxPool H A :=
  tids.foldl (eraseEquivalent isNaN) p

variable {isNaN p}

theorem toList_removeEquivalents (tids : List (SimpleTransactionId H A)) :
    (p.removeEquivalents isNaN tids).items.toList =
      p.items.toList.filter fun e => tids.all fun x => !decide (e.1.Equivalent isNaN x) := by
  induction tids generalizing p with
  | nil => exact (List.filter_eq_self.mpr fun _ _ => rfl).symm
  | cons x tids ih =>
      have hrest := ih (p := p.eraseEquivalent isNaN x)
      rw [eraseEquivalent, Std.TreeMap.toList_filter, List.filter_filter] at hrest
      refine hrest.trans (List.filter_congr fun e _ => ?_)
      rw [List.all_cons, Bool.and_comm]

/-- The entries stay if and only if no key is equivalent to one of the ids. -/
theorem removeEquivalents_toList_iff {tids : List (SimpleTransactionId H A)} :
    (p.removeEquivalents isNaN tids).items.toList = p.items.toList ↔
      ∀ x ∈ tids, ∀ k ∈ p.keys, ¬k.Equivalent isNaN x := by
  rw [toList_removeEquivalents, List.filter_eq_self]
  constructor
  · intro h x hx k hk
    obtain ⟨e, he, rfl⟩ := List.mem_map.mp hk
    simpa using List.all_eq_true.mp (h e he) x hx
  · intro h e he
    refine List.all_eq_true.mpr fun x hx => ?_
    simpa using h x hx e.1 (List.mem_map_of_mem he)

theorem containTx_of_mem_keys {k : SimpleTransactionId H A} (h : k ∈ p.keys) :
    p.containTx k = true := by
  obtain ⟨e, he, rfl⟩ := List.mem_map.mp h
  rw [containTx_eq_isSome, getTx,
    (Std.TreeMap.mem_toList_iff_getKey?_eq_some_and_getElem?_eq_some.mp he).2]
  rfl

theorem containTx_of_removeEquivalents {tids : List (SimpleTransactionId H A)}
    {tid : SimpleTransactionId H A} (h : (p.removeEquivalents isNaN tids).containTx tid = true) :
    p.containTx tid = true := by
  obtain ⟨x, hx, hk⟩ := exists_mem_keys _ h
  rw [keys, toList_removeEquivalents] at hx
  obtain ⟨e, he, rfl⟩ := List.mem_map.mp hx
  rw [p.containTx_congr hk]
  exact containTx_of_mem_keys (List.mem_map_of_mem (List.mem_filter.mp he).1)

theorem has_iff_mem {tx : SimpleTransaction H A} :
    p.Has tx ↔ ∃ k, (k, tx) ∈ p.items.toList := by
  constructor
  · intro h
    have hin : tx.getId ∈ p.items := Std.TreeMap.mem_iff_isSome_getElem?.mpr (by rw [h]; rfl)
    have hfind := Std.TreeMap.find?_toList_eq_some_iff_getKey?_eq_some_and_getElem?_eq_some.mpr
      ⟨Std.TreeMap.getKey?_eq_some_getKey hin, h⟩
    exact ⟨_, List.mem_of_find?_eq_some hfind⟩
  · rintro ⟨k, hk⟩
    obtain ⟨-, hget⟩ :=
      Std.TreeMap.mem_toList_iff_getKey?_eq_some_and_getElem?_eq_some.mp hk
    exact (p.has_of_getTx hget).1

theorem has_removeEquivalents (hp : p.NoNaN isNaN) {tids : List (SimpleTransactionId H A)}
    (ht : ∀ x ∈ tids, isNaN x.amount = false) {tx : SimpleTransaction H A} :
    (p.removeEquivalents isNaN tids).Has tx ↔ (p.removeTxs tids).Has tx := by
  have hall {k : SimpleTransactionId H A} (hk : (k, tx) ∈ p.items.toList) :
      (tids.all fun x => !decide (k.Equivalent isNaN x)) = true ↔
        ∀ x ∈ tids, ¬SameKey tx.getId x := by
    obtain ⟨-, hget⟩ :=
      Std.TreeMap.mem_toList_iff_getKey?_eq_some_and_getElem?_eq_some.mp hk
    have hkey := p.keyed _ _ hget
    have hno := hp k (containTx_of_mem_keys (List.mem_map_of_mem hk))
    simp only [List.all_eq_true, Bool.not_eq_true', decide_eq_false_iff_not]
    refine forall₂_congr fun x hx => not_congr ?_
    rw [equivalent_iff_sameKey hno (ht x hx)]
    exact ⟨hkey.symm.trans, hkey.trans⟩
  rw [has_removeTxs, has_iff_mem, has_iff_mem, toList_removeEquivalents]
  constructor
  · rintro ⟨k, hk⟩
    obtain ⟨hk, hkeep⟩ := List.mem_filter.mp hk
    exact ⟨(hall hk).mp hkeep, k, hk⟩
  · rintro ⟨hno, k, hk⟩
    exact ⟨k, List.mem_filter.mpr ⟨hk, (hall hk).mpr hno⟩⟩

end TxPool

/-! ## The handler -/

/-- A block as it is read from a message: `tx_list` is a list of pointers, and `blk`
the block with those that are not null. -/
structure RawBlock (H A W : Type) where
  blk : POWBlock H A W
  tx_list : List (Option (SimpleTransaction H A))
  present : blk.tx_list = tx_list.reduceOption

/-- The ids of a list of transactions, each found through its pointer. -/
def txidsOf : List (Option (SimpleTransaction H A)) →
    Except Fault (List (SimpleTransactionId H A))
  | [] => .ok []
  | none :: _ => .error .nullDeref
  | some tx :: txs => do
      let txids ← txidsOf txs
      return tx.getId :: txids

omit [LinearOrder A] in
theorem txidsOf_eq {txs : List (Option (SimpleTransaction H A))} (h : none ∉ txs) :
    txidsOf txs = .ok (txs.reduceOption.map SimpleTransaction.getId) := by
  induction txs with
  | nil => rfl
  | cons o txs ih =>
      obtain ⟨hne, hrest⟩ := not_or.mp fun h' => h (List.mem_cons.mpr h')
      cases o with
      | none => exact absurd rfl hne
      | some tx =>
          rw [txidsOf, ih hrest]
          rfl

omit [LinearOrder A] in
theorem txidsOf_null {txs : List (Option (SimpleTransaction H A))} (h : none ∈ txs) :
    txidsOf txs = .error .nullDeref := by
  induction txs with
  | nil => exact absurd h List.not_mem_nil
  | cons o txs ih =>
      cases o with
      | none => rfl
      | some tx =>
          have hrest : none ∈ txs := by simpa using h
          rw [txidsOf, ih hrest]
          rfl

section Handler

variable [DecidableEq H] [OfNat W 1] [Add W] [LE W] [DecidableLE W] (isNaN : A → Bool)

namespace BL_ProtocolLayerPoW

variable (L : BL_ProtocolLayerPoW H A W)

/-- An unknown block's transactions leave the pool and the block goes to the tree. -/
def acceptRawBlk (b : RawBlock H A W) : Except Fault (BL_ProtocolLayerPoW H A W) :=
  if !L.blocktree.containBlock b.blk.block_hash then do
    let txids ← txidsOf b.tx_list
    let L := L.mapTxPool (·.removeEquivalents isNaN txids)
    let blocktree ← L.blocktree.appendBlock b.blk
    return { L with blocktree }
  else .ok L

/-- `_RecvPOWBlockBlkHandler`, with the block as it was read. -/
def recvRawBlkHandler [DecidableEq N] [Zero H] [OfNat W 0] (sha : Sha256 H A W)
    (neighborIds : List N) (source : N) (b : RawBlock H A W) :
    Except Fault (BL_ProtocolLayerPoW H A W × Sends N H A W) := do
  let lasthash := L.blocktree.getLastHash
  let L ← L.acceptRawBlk isNaN b
  let L := if lasthash ≠ L.blocktree.getLastHash then L.restartMining sha else L
  return L.continueInv neighborIds source

variable {L}

theorem acceptRawBlk_known {b : RawBlock H A W}
    (h : L.blocktree.containBlock b.blk.block_hash = true) : L.acceptRawBlk isNaN b = .ok L :=
  if_neg (by rw [h]; decide)

theorem acceptRawBlk_null {b : RawBlock H A W}
    (h : L.blocktree.containBlock b.blk.block_hash = false) (hnull : none ∈ b.tx_list) :
    L.acceptRawBlk isNaN b = .error .nullDeref := by
  unfold acceptRawBlk
  rw [h, txidsOf_null hnull]
  rfl

theorem acceptRawBlk_new (hr : L.blocktree.Rooted) {b : RawBlock H A W}
    (h : L.blocktree.containBlock b.blk.block_hash = false) (hnull : none ∉ b.tx_list) :
    L.acceptRawBlk isNaN b =
      .ok { L.mapTxPool (·.removeEquivalents isNaN b.blk.txids) with
        blocktree := L.blocktree.linkBlock b.blk } := by
  have hids : txidsOf b.tx_list = .ok b.blk.txids := by
    rw [txidsOf_eq hnull, ← b.present]
    rfl
  unfold acceptRawBlk
  rw [h, hids]
  exact bind_ok.mpr ⟨_, rfl, bind_ok.mpr ⟨_, BlockTree.appendBlock_ok hr b.blk, rfl⟩⟩

/-- What accepting a block does to tree and pool. -/
theorem acceptRawBlk_ok (hr : L.blocktree.Rooted) {b : RawBlock H A W}
    {L' : BL_ProtocolLayerPoW H A W} (h : L.acceptRawBlk isNaN b = .ok L') :
    L' = L ∨ L' = { L.mapTxPool (·.removeEquivalents isNaN b.blk.txids) with
      blocktree := L.blocktree.linkBlock b.blk } := by
  cases hc : L.blocktree.containBlock b.blk.block_hash with
  | true => exact .inl (Except.ok.inj (h.symm.trans (acceptRawBlk_known isNaN hc)))
  | false =>
      by_cases hnull : none ∈ b.tx_list
      · exact nomatch h.symm.trans (acceptRawBlk_null isNaN hc hnull)
      · exact .inr (Except.ok.inj (h.symm.trans (acceptRawBlk_new isNaN hr hc hnull)))

end BL_ProtocolLayerPoW

namespace PoWNode

variable [DecidableEq N] [Zero H] [OfNat W 0] (sha : Sha256 H A W)

/-- A node is sent a block. -/
def recvRaw (p : PoWNode N H A W) (neighborIds : List N) (source : N) (b : RawBlock H A W) :
    Except Fault (PoWNode N H A W × Sends N H A W) := do
  let (layer, out) ← p.layer.recvRawBlkHandler isNaN sha neighborIds source b
  return ({ p with layer }, out)

variable {isNaN} {p p' : PoWNode N H A W} {nb : List N} {source : N} {b : RawBlock H A W}

/-- What comes after accepting the block leaves tree and pool alone, and the miner too if
the tip is what it was. -/
theorem recvRaw_of_accept {L : BL_ProtocolLayerPoW H A W}
    (h : p.layer.acceptRawBlk isNaN b = .ok L) (nb : List N) (source : N) :
    ∃ p' out, p.recvRaw isNaN sha nb source b = .ok (p', out) ∧
      p'.layer.blocktree = L.blocktree ∧ p'.layer.txPool = L.txPool ∧
      (p.layer.blocktree.getLastHash = L.blocktree.getLastHash →
        p'.layer.powMiner = L.powMiner) := by
  have hlayer : ∃ L', BL_ProtocolLayerPoW.Untouched L L' ∧
      (p.layer.blocktree.getLastHash = L.blocktree.getLastHash → L' = L) ∧
      p.layer.recvRawBlkHandler isNaN sha nb source b = .ok (L'.continueInv nb source) := by
    refine ⟨_, ?_, fun heq => if_neg fun hne => hne heq, bind_ok.mpr ⟨L, h, rfl⟩⟩
    split
    · exact L.restartMining_untouched sha
    · exact .refl L
  obtain ⟨L', hu, hsame, hL'⟩ := hlayer
  have hpool : L'.txPool = L.txPool := congrArg TxGossipProtocol.txPool hu.gossip
  obtain ⟨htree, htx, hminer⟩ := L'.continueInv_frame nb source
  refine ⟨_, _, bind_ok.mpr ⟨_, hL', rfl⟩, htree.trans hu.blocktree, htx.trans hpool, ?_⟩
  exact fun heq => hminer.trans (congrArg _ (hsame heq))

theorem accept_of_recvRaw {out : Sends N H A W}
    (h : p.recvRaw isNaN sha nb source b = .ok (p', out)) :
    ∃ L, p.layer.acceptRawBlk isNaN b = .ok L := by
  obtain ⟨_, h, -⟩ := bind_ok.mp h
  obtain ⟨L, hL, -⟩ := bind_ok.mp h
  exact ⟨L, hL⟩

end PoWNode

end Handler

/-! ## Runs -/

/-- What can happen to one node, where blocks come as they are read. -/
inductive RawAct (N H A W : Type) where
  | other (a : OpenAct N H A W)
  | recvBlk (neighborIds : List N) (source : N) (b : RawBlock H A W)

/-- No transaction comes to the pool whose amount is NaN, and no block but as it is
read. -/
def Ordered (isNaN : A → Bool) (_p : PoWNode N H A W) : RawAct N H A W → Prop
  | .other (.fire _ l) => ∀ tid, l.Brings tid → isNaN tid.amount = false
  | .other (.recv _ _ obj) => (∀ b, obj ≠ .blkBlk b) ∧
      ∀ tid, obj.Brings tid → isNaN tid.amount = false
  | .recvBlk _ _ _ => True

section System

variable [DecidableEq N] [DecidableEq H] [Zero H] [Zero A] [OfNat W 0] [OfNat W 1] [Add W]
  [LE W] [DecidableLE W] [DecidableEq W]

/-- A node in an arbitrary environment. -/
def rawSys (isNaN : A → Bool) (sha : Sha256 H A W) :
    TransSys (PoWNode N H A W) (RawAct N H A W) where
  init p := p = .init sha
  step p a p' := match a with
    | .other a => (openSys sha).step p a p'
    | .recvBlk neighborIds source b =>
        ∃ out, p.recvRaw isNaN sha neighborIds source b = .ok (p', out)

variable {isNaN : A → Bool} {sha : Sha256 H A W} {p p' : PoWNode N H A W}

theorem noNaN_of_open (hr : p.layer.blocktree.Rooted) (hp : p.layer.txPool.NoNaN isNaN)
    {a : OpenAct N H A W} (hc : Ordered isNaN p (.other a)) (h : (openSys sha).step p a p') :
    p'.layer.txPool.NoNaN isNaN := by
  obtain ⟨out, h⟩ := h
  intro tid hin
  cases a with
  | fire nb l =>
      rcases PoWNode.fire_ok hr h with htx | ⟨b, hmine, -⟩ | ⟨b, queue, -, rfl, -⟩
      · exact ((htx.pool tid).mp hin).elim (hc tid) (hp tid)
      · rw [BL_ProtocolLayerPoW.txPool, hmine.layer] at hin
        exact hp tid hin
      · exact hp tid ((TxPool.containTx_removeTxs _ _ _).mp hin).2
  | recv nb source obj =>
      obtain ⟨hblk, hnew⟩ := hc
      cases PoWNode.recv_ok hr (Option.some.inj h) with
      | tx _ htx => exact ((htx.pool tid).mp hin).elim (hnew tid) (hp tid)
      | blkAlone _ => exact absurd rfl (hblk _)
      | blkNext _ _ => exact absurd rfl (hblk _)
      | blkLast _ _ => exact absurd rfl (hblk _)
      | _ => exact hp tid hin

theorem ordered_invariant (h : (rawSys isNaN sha).Under (Ordered isNaN) p) :
    p.layer.blocktree.Rooted ∧ p.layer.txPool.NoNaN isNaN := by
  refine h.invariant (P := fun p => p.layer.blocktree.Rooted ∧ p.layer.txPool.NoNaN isNaN) ?_ ?_
  · rintro p rfl
    refine ⟨BlockTree.rooted_init sha, fun tid hin => ?_⟩
    exact nomatch (TxPool.containTx_empty tid).symm.trans hin
  · rintro p a p' - ⟨hr, hp⟩ hc hs
    cases a with
    | other a => exact ⟨(grows_openStep hr hs).rooted hr, noNaN_of_open hr hp hc hs⟩
    | recvBlk nb source b =>
        obtain ⟨out, hs⟩ := hs
        obtain ⟨L, hL⟩ := PoWNode.accept_of_recvRaw sha hs
        obtain ⟨q, out', hq, htree, hpool, -⟩ :=
          PoWNode.recvRaw_of_accept sha hL nb source
        obtain ⟨rfl, -⟩ := Prod.mk.inj (Except.ok.inj (hs.symm.trans hq))
        rw [htree, hpool]
        rcases BL_ProtocolLayerPoW.acceptRawBlk_ok isNaN hr hL with rfl | rfl
        · exact ⟨hr, hp⟩
        · exact ⟨hr.linkBlock b.blk, fun tid hin =>
            hp tid (TxPool.containTx_of_removeEquivalents hin)⟩

end System

/-! ## Refused blocks -/

section Refused

variable [DecidableEq N] [DecidableEq H] [Zero H] {isNaN : A → Bool} {sha : Sha256 H A UInt64}
  {p : PoWNode N H A UInt64}

/-- Handling the message leaves the tree with its tip, the entries of the pool and the miner
as they are. -/
def LeavesAlone (isNaN : A → Bool) (sha : Sha256 H A UInt64) (p : PoWNode N H A UInt64)
    (nb : List N) (source : N) (b : RawBlock H A UInt64) : Prop :=
  ∃ p' out, p.recvRaw isNaN sha nb source b = .ok (p', out) ∧
    p'.layer.blocktree = p.layer.blocktree ∧
    p'.layer.txPool.items.toList = p.layer.txPool.items.toList ∧
    p'.layer.powMiner = p.layer.powMiner

/-- **A refused block changes nothing** if and only if it is stored, or all its
transactions are there and none of them is, to the pool, a pending one. -/
theorem rejected_iff [Zero A] (h : (rawSys isNaN sha).Under (Ordered isNaN) p) (nb : List N)
    (source : N) (b : RawBlock H A UInt64)
    (hp : p.layer.blocktree.containBlockHash b.blk.prev_block_hash = false) :
    LeavesAlone isNaN sha p nb source b ↔
      p.layer.blocktree.containBlock b.blk.block_hash = true ∨
        ∀ x ∈ b.tx_list, ∃ tx, x = some tx ∧
          ∀ k ∈ p.layer.txPool.keys, ¬k.Equivalent isNaN tx.getId := by
  obtain ⟨hr, -⟩ := ordered_invariant h
  cases hc : p.layer.blocktree.containBlock b.blk.block_hash with
  | true =>
      obtain ⟨p', out, hrecv, htree, hpool, hminer⟩ := PoWNode.recvRaw_of_accept sha
        (BL_ProtocolLayerPoW.acceptRawBlk_known isNaN hc) nb source
      exact iff_of_true ⟨p', out, hrecv, htree, by rw [hpool], hminer rfl⟩ (.inl rfl)
  | false =>
      rw [or_iff_right Bool.false_ne_true]
      by_cases hnull : none ∈ b.tx_list
      · -- the handler stops
        refine iff_of_false ?_ fun hall => ?_
        · rintro ⟨p', out, hrecv, -⟩
          obtain ⟨L, hL⟩ := PoWNode.accept_of_recvRaw sha hrecv
          exact nomatch hL.symm.trans (BL_ProtocolLayerPoW.acceptRawBlk_null isNaN hc hnull)
        · obtain ⟨tx, htx, -⟩ := hall none hnull
          cases htx
      · have hlink : p.layer.blocktree.linkBlock b.blk = p.layer.blocktree :=
          BlockTree.linkBlock_of_unknown hp
        obtain ⟨p', out, hrecv, htree, hpool, hminer⟩ := PoWNode.recvRaw_of_accept sha
          (BL_ProtocolLayerPoW.acceptRawBlk_new isNaN hr hc hnull) nb source
        have hkeep : LeavesAlone isNaN sha p nb source b ↔
            (p.layer.txPool.removeEquivalents isNaN b.blk.txids).items.toList =
              p.layer.txPool.items.toList := by
          constructor
          · rintro ⟨q, out', hq, -, hsame, -⟩
            obtain ⟨rfl, -⟩ := Prod.mk.inj (Except.ok.inj (hrecv.symm.trans hq))
            rwa [hpool] at hsame
          · intro hsame
            exact ⟨p', out, hrecv, htree.trans hlink, by rwa [hpool],
              hminer (congrArg BlockTree.getLastHash hlink.symm)⟩
        rw [hkeep, TxPool.removeEquivalents_toList_iff, POWBlock.txids, b.present]
        constructor
        · intro hno x hx
          cases x with
          | none => exact absurd hx hnull
          | some tx =>
              have hmem := List.mem_map_of_mem (f := SimpleTransaction.getId)
                (List.reduceOption_mem_iff.mpr hx)
              exact ⟨tx, rfl, hno _ hmem⟩
        · intro hall x hx
          obtain ⟨tx, htx, rfl⟩ := List.mem_map.mp hx
          obtain ⟨_, ⟨⟩, hno⟩ := hall _ (List.reduceOption_mem_iff.mp htx)
          exact hno

end Refused

/-- NaN among the bits of a `float`. -/
def floatNaN (bits : Nat) : Bool := 0x7f800000 < bits % 0x80000000

/-- A node with one pending transaction. -/
def onePending : PoWNode Nat Nat Nat UInt64 :=
  { freshNode with layer := freshNode.layer.txgentimerCallback nonceSha64 (.make 0 0 0 0) }

theorem onePending_reached : (rawSys floatNaN nonceSha64).Under (Ordered floatNaN) onePending := by
  refine .step (a := .other (.fire [] (.txgen 0 0 0 0))) (.start rfl) ?_ ⟨[], rfl⟩
  rintro tid ⟨-, -, ha⟩
  rw [ha]
  rfl

/-- A block whose parent is not known. -/
def orphan (txs : List (Option (SimpleTransaction Nat Nat))) : RawBlock Nat Nat UInt64 where
  blk := { forkBlock 5 6 with prev_block_hash := 5, tx_list := txs.reduceOption }
  tx_list := txs
  present := rfl

/-- Without transactions, or with one of another sender, it changes nothing. -/
theorem rejected_iff_empty :
    LeavesAlone floatNaN nonceSha64 onePending [] 1 (orphan []) ∧
      LeavesAlone floatNaN nonceSha64 onePending [] 1 (orphan [some (.make 3 0 0 0)]) := by
  have hiff (txs : List (Option (SimpleTransaction Nat Nat))) :=
    rejected_iff onePending_reached [] 1 (orphan txs)
      (by decide +kernel : onePending.layer.blocktree.containBlockHash 5 = false)
  refine ⟨(hiff _).mpr (.inr fun _ hx => nomatch hx), (hiff _).mpr (.inr fun x hx => ?_)⟩
  obtain rfl := List.mem_singleton.mp hx
  refine ⟨_, rfl, ?_⟩
  decide +kernel

/-- A block that has the pending transaction, or one of its sender and receiver whose
amount is NaN, takes it away; a block with a null pointer stops the node. -/
theorem orphan_takes : (rawSys floatNaN nonceSha64).Under (Ordered floatNaN) onePending ∧
    onePending.layer.blocktree.containBlockHash 5 = false ∧
    ∀ x ∈ [some (.make 0 0 0 0), some (.make 0 0 0x7fc00000 0), none],
      ¬LeavesAlone floatNaN nonceSha64 onePending [] 1 (orphan [x]) := by
  have hrun : ([some (.make 0 0 0 0), some (.make 0 0 0x7fc00000 0), none].all fun x =>
      match onePending.recvRaw floatNaN nonceSha64 [] 1 (orphan [x]) with
      | .ok (p', _) => decide (p'.layer.txPool.items.size ≠ onePending.layer.txPool.items.size)
      | .error _ => true) = true := by decide +kernel
  refine ⟨onePending_reached, by decide +kernel, fun x hx => ?_⟩
  rintro ⟨p', out, hrecv, -, hpool, -⟩
  have hne := List.all_eq_true.mp hrun x hx
  rw [hrecv] at hne
  refine of_decide_eq_true hne ?_
  rw [← Std.TreeMap.length_toList, ← Std.TreeMap.length_toList, hpool]

end Bleep
