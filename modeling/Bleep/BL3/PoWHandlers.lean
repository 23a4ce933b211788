/-
# `Bleep.BL3.PoWHandlers` — what each handler of the proof-of-work layer does

One lemma for each handler, so that no invariant has to look inside one.  The
handlers of blocks answer on every rooted tree, with a state that can be
written down (`acceptBlk_eq`, `emuBlockMiningComplete_eq`,
`recvPOWBlockBlkHandler_eq`); the three others are inverted
(`recvPOWBlockInvHandler_ok`, `recvPOWBlockGetBlocksHandler_ok`,
`recvPOWBlockGetDataHandler_ok`) and shown to answer under what they assert.

Mining touches the miner alone (`Untouched`), and what has to do with
transactions leaves tree, inventory and block pool as they were (`SameChain`).
-/
import Bleep.BL3.Rooted
import Bleep.BL3.ProtocolLayerPoW

namespace Bleep.BL_ProtocolLayerPoW

variable {N H A W : Type} [LinearOrder A] (L : BL_ProtocolLayerPoW H A W)

/-! ## Mining -/

section Mining

/-- Nothing that has to do with blocks differs, the miner apart. -/
structure SameChain (L L' : BL_ProtocolLayerPoW H A W) : Prop where
  blocktree : L'.blocktree = L.blocktree
  processingBlkinv : L'.processingBlkinv = L.processingBlkinv
  processing : L'.processing = L.processing
  blkPool : L'.blkPool = L.blkPool

/-- Only the miner may differ. -/
structure Untouched (L L' : BL_ProtocolLayerPoW H A W) : Prop extends SameChain L L' where
  gossip : L'.txGossipProtocol = L.txGossipProtocol

theorem SameChain.trans {L L' L'' : BL_ProtocolLayerPoW H A W} (h : SameChain L L')
    (h' : SameChain L' L'') : SameChain L L'' :=
  ⟨h'.blocktree.trans h.blocktree, h'.processingBlkinv.trans h.processingBlkinv,
    h'.processing.trans h.processing, h'.blkPool.trans h.blkPool⟩

theorem Untouched.refl : Untouched L L := ⟨⟨rfl, rfl, rfl, rfl⟩, rfl⟩

/-- The miner runs if there are enough transactions for a block. -/
def KeepsMining (L : BL_ProtocolLayerPoW H A W) : Prop :=
  txNumPerBlock ≤ L.txPool.getPendingTxNum → L.powMiner.isMining = true

variable [Zero H] [OfNat W 0] (sha : Sha256 H A W)

/-- The miner works on a candidate made from this state, which had the
transactions for it. -/
structure Fresh (L : BL_ProtocolLayerPoW H A W) : Prop where
  pending : txNumPerBlock ≤ L.txPool.getPendingTxNum
  miner : L.powMiner =
    { candidateBlk := some (L.makeCandidateBlock sha), isMining := true, timer := true }

theorem emulateMining_untouched : Untouched L (L.emulateMining sha) := ⟨⟨rfl, rfl, rfl, rfl⟩, rfl⟩

theorem emulateMining_fresh (h : txNumPerBlock ≤ L.txPool.getPendingTxNum) :
    (L.emulateMining sha).Fresh sha := ⟨h, rfl⟩

/-- `mineIfIdle` leaves a running miner alone. -/
theorem mineIfIdle_cases :
    L.mineIfIdle sha = L ∧ (txNumPerBlock ≤ L.txPool.getPendingTxNum → L.powMiner.isMining = true) ∨
      L.powMiner.isMining = false ∧ txNumPerBlock ≤ L.txPool.getPendingTxNum ∧
        L.mineIfIdle sha = L.emulateMining sha := by
  unfold mineIfIdle
  split
  · next h =>
      cases hm : L.powMiner.isMining with
      | true => exact .inl ⟨rfl, fun _ => rfl⟩
      | false => exact .inr ⟨rfl, h, rfl⟩
  · next h => exact .inl ⟨rfl, fun h' => absurd h' h⟩

theorem mineIfIdle_untouched : Untouched L (L.mineIfIdle sha) := by
  rcases L.mineIfIdle_cases sha with ⟨h, -⟩ | ⟨-, -, h⟩
  · exact h.symm ▸ .refl L
  · exact h.symm ▸ L.emulateMining_untouched sha

theorem mineIfIdle_miner :
    (L.mineIfIdle sha).powMiner = L.powMiner ∨ (L.mineIfIdle sha).Fresh sha := by
  rcases L.mineIfIdle_cases sha with ⟨h, -⟩ | ⟨-, hp, h⟩
  · exact .inl (by rw [h])
  · exact .inr (h.symm ▸ L.emulateMining_fresh sha hp)

theorem txgentimerCallback_sameChain (tx : SimpleTransaction H A) :
    SameChain L (L.txgentimerCallback sha tx) := by
  unfold txgentimerCallback
  split
  · obtain ⟨h, -⟩ := mineIfIdle_untouched
      { L.mapTxPool (·.addTx tx) with
        txGossipProtocol := (L.mapTxPool (·.addTx tx)).txGossipProtocol.pushTxToBroadcast tx } sha
    exact ⟨h.blocktree, h.processingBlkinv, h.processing, h.blkPool⟩
  · exact ⟨rfl, rfl, rfl, rfl⟩

theorem txgentimerCallback_miner (tx : SimpleTransaction H A) :
    (L.txgentimerCallback sha tx).powMiner = L.powMiner ∨
      (L.txgentimerCallback sha tx).Fresh sha := by
  unfold txgentimerCallback
  split
  · exact (mineIfIdle_miner _ sha).imp id fun h => ⟨h.pending, h.miner⟩
  · exact .inl rfl

theorem txgentimerCallback_txPool (tx : SimpleTransaction H A) :
    (L.txgentimerCallback sha tx).txPool =
      if L.txPool.containTx tx.getId then L.txPool else L.txPool.addTx tx := by
  unfold txgentimerCallback
  cases hc : L.txPool.containTx tx.getId with
  | true => rfl
  | false =>
      have hu := mineIfIdle_untouched
        { L.mapTxPool (·.addTx tx) with
          txGossipProtocol := (L.mapTxPool (·.addTx tx)).txGossipProtocol.pushTxToBroadcast tx } sha
      exact congrArg TxGossipProtocol.txPool hu.gossip

theorem restartMining_untouched : Untouched L (L.restartMining sha) := by
  unfold restartMining
  by_cases hm : L.powMiner.isMining = true
  · simp only [hm, if_true]
    split
    · exact ⟨⟨rfl, rfl, rfl, rfl⟩, rfl⟩
    · exact ⟨⟨rfl, rfl, rfl, rfl⟩, rfl⟩
  · simp only [hm, Bool.false_eq_true, if_false]
    split
    · exact ⟨⟨rfl, rfl, rfl, rfl⟩, rfl⟩
    · exact .refl L

/-- After a restart the miner works on a fresh candidate, or it is idle: it was
stopped, or it was idle before. -/
theorem restartMining_miner :
    (L.restartMining sha).Fresh sha ∨
      ((L.restartMining sha).powMiner.isMining = false ∧
        (L.restartMining sha).powMiner.candidateBlk = L.powMiner.candidateBlk ∧
        ((L.restartMining sha).powMiner.timer = true →
          L.powMiner.isMining = false ∧ L.powMiner.timer = true)) := by
  unfold restartMining
  cases hm : L.powMiner.isMining with
  | true =>
      simp only [if_true]
      split
      · next h => exact .inl ⟨h, rfl⟩
      · exact .inr ⟨rfl, rfl, fun h => nomatch h⟩
  | false =>
      simp only [Bool.false_eq_true, if_false]
      split
      · next h => exact .inl ⟨h, rfl⟩
      · exact .inr ⟨hm, rfl, fun ht => ⟨trivial, ht⟩⟩

theorem mineIfIdle_keepsMining : (L.mineIfIdle sha).KeepsMining := by
  intro h
  rcases L.mineIfIdle_cases sha with ⟨he, hm⟩ | ⟨-, -, he⟩
  · rw [he] at h ⊢
    exact hm h
  · rw [he]
    rfl

theorem txgentimerCallback_keepsMining (h : L.KeepsMining) (tx : SimpleTransaction H A) :
    (L.txgentimerCallback sha tx).KeepsMining := by
  unfold txgentimerCallback
  split
  · exact mineIfIdle_keepsMining _ sha
  · exact h

theorem restartMining_keepsMining : (L.restartMining sha).KeepsMining := by
  intro h
  have hu := L.restartMining_untouched sha
  have hn : txNumPerBlock ≤ L.txPool.getPendingTxNum := by
    rw [txPool, hu.gossip] at h
    exact h
  unfold restartMining
  split <;> simp only [hn, if_true] <;> rfl

theorem txgentimerCallback_txGenNum (tx : SimpleTransaction H A) :
    (L.txgentimerCallback sha tx).txGenNum = L.txGenNum + 1 := by
  unfold txgentimerCallback
  split
  · refine congrArg (· + 1) ?_
    rcases mineIfIdle_cases { L.mapTxPool (·.addTx tx) with
      txGossipProtocol :=
        (L.mapTxPool (·.addTx tx)).txGossipProtocol.pushTxToBroadcast tx } sha with
      ⟨he, -⟩ | ⟨-, -, he⟩
    · rw [he]
      rfl
    · rw [he]
      rfl
  · rfl

end Mining

/-! ## Blocks -/

section Blocks

variable {L} [DecidableEq H] [OfNat W 1] [Add W] [LE W] [DecidableLE W]

/-- The state `acceptBlk` answers with. -/
def accepted (L : BL_ProtocolLayerPoW H A W) (blk : POWBlock H A W) : BL_ProtocolLayerPoW H A W :=
  if L.blocktree.containBlock blk.block_hash then L
  else { L.mapTxPool (·.removeTxs blk.txids) with blocktree := L.blocktree.linkBlock blk }

theorem acceptBlk_eq (hr : L.blocktree.Rooted) (blk : POWBlock H A W) :
    L.acceptBlk blk = .ok (L.accepted blk) := by
  unfold acceptBlk accepted
  cases hc : L.blocktree.containBlock blk.block_hash with
  | true => rfl
  | false =>
      have : (L.mapTxPool (·.removeTxs blk.txids)).blocktree.appendBlock blk =
          .ok (L.blocktree.linkBlock blk) := BlockTree.appendBlock_ok hr blk
      simp only [Bool.not_false, if_true, this]
      rfl

theorem accepted_blocktree (blk : POWBlock H A W) :
    (L.accepted blk).blocktree =
      if L.blocktree.containBlock blk.block_hash then L.blocktree
      else L.blocktree.linkBlock blk := by
  unfold accepted
  split <;> rfl

theorem accepted_frame (blk : POWBlock H A W) :
    (L.accepted blk).processing = L.processing ∧
      (L.accepted blk).processingBlkinv = L.processingBlkinv ∧
      (L.accepted blk).powMiner = L.powMiner ∧ (L.accepted blk).blkPool = L.blkPool := by
  unfold accepted
  split <;> exact ⟨rfl, rfl, rfl, rfl⟩

section Zero

variable [Zero H] [OfNat W 0] (sha : Sha256 H A W)

/-- The state after a received block was accepted and mining restarted. -/
def afterBlk (L : BL_ProtocolLayerPoW H A W) (blk : POWBlock H A W) : BL_ProtocolLayerPoW H A W :=
  if L.blocktree.getLastHash ≠ (L.accepted blk).blocktree.getLastHash then
    (L.accepted blk).restartMining sha
  else L.accepted blk

theorem afterBlk_of_tip_eq {blk : POWBlock H A W}
    (h : L.blocktree.getLastHash = (L.accepted blk).blocktree.getLastHash) :
    L.afterBlk sha blk = L.accepted blk := if_neg fun hne => hne h

theorem afterBlk_of_tip_ne {blk : POWBlock H A W}
    (h : L.blocktree.getLastHash ≠ (L.accepted blk).blocktree.getLastHash) :
    L.afterBlk sha blk = (L.accepted blk).restartMining sha := if_pos h

theorem afterBlk_untouched (blk : POWBlock H A W) :
    Untouched (L.accepted blk) (L.afterBlk sha blk) := by
  unfold afterBlk
  split
  · exact restartMining_untouched _ sha
  · exact .refl _

theorem afterBlk_miner (blk : POWBlock H A W) :
    (L.afterBlk sha blk).Fresh sha ∨
      ((L.afterBlk sha blk).powMiner.candidateBlk = L.powMiner.candidateBlk ∧
        ((L.afterBlk sha blk).powMiner.timer = true → L.powMiner.timer = true)) := by
  obtain ⟨-, -, hm, -⟩ := L.accepted_frame blk
  unfold afterBlk
  split
  · rcases (L.accepted blk).restartMining_miner sha with hf | ⟨-, hc, hrun⟩
    · exact .inl hf
    · exact .inr ⟨by rw [hc, hm], fun ht => hm ▸ (hrun ht).2⟩
  · exact .inr ⟨by rw [hm], fun ht => hm ▸ ht⟩

theorem recvPOWBlockBlkHandler_eq [DecidableEq N] (hr : L.blocktree.Rooted) (neighborIds : List N)
    (source : N) (blk : POWBlock H A W) :
    L.recvPOWBlockBlkHandler sha neighborIds source blk =
      .ok ((L.afterBlk sha blk).continueInv neighborIds source) := by
  unfold recvPOWBlockBlkHandler
  rw [acceptBlk_eq hr]
  rfl

end Zero

/-- The state after the queued block was handled. -/
def completed (L : BL_ProtocolLayerPoW H A W) (minedBlk : POWBlock H A W) :
    BL_ProtocolLayerPoW H A W :=
  { L.mapTxPool (·.removeTxs minedBlk.txids) with
    blkPool := L.blkPool ++ [minedBlk]
    blocktree := L.blocktree.linkBlock minedBlk }

theorem emuBlockMiningComplete_eq (hr : L.blocktree.Rooted) (neighborIds : List N)
    (minedBlk : POWBlock H A W) :
    L.emuBlockMiningComplete neighborIds minedBlk =
      .ok (L.completed minedBlk, sendAll neighborIds (.blkInv [minedBlk.block_hash])) := by
  unfold emuBlockMiningComplete
  have : { L with blkPool := L.blkPool ++ [minedBlk] }.blocktree.appendBlock minedBlk =
      .ok (L.blocktree.linkBlock minedBlk) := BlockTree.appendBlock_ok hr minedBlk
  simp only [this]
  rfl

end Blocks

/-! ## Inventories and requests -/

section Requests

variable {L} [DecidableEq H]

theorem continueInv_cases [DecidableEq N] (neighborIds : List N) (source : N) :
    (L.processing = false ∧ L.continueInv neighborIds source = (L, [])) ∨
    (∃ h, L.processing = true ∧
      L.processingBlkinv.find? (fun h => !L.blocktree.containBlock h) = some h ∧
      L.continueInv neighborIds source = (L, [(source, .blkGetData h)])) ∨
    (L.processing = true ∧ (∀ h ∈ L.processingBlkinv, L.blocktree.containBlock h = true) ∧
      L.continueInv neighborIds source =
        ({ L with processing := false },
          relay neighborIds source (.blkInv L.processingBlkinv))) := by
  unfold continueInv
  cases hp : L.processing with
  | false => exact .inl ⟨rfl, rfl⟩
  | true =>
      cases hf : L.processingBlkinv.find? fun h => !L.blocktree.containBlock h with
      | some h => exact .inr (.inl ⟨h, rfl, rfl, rfl⟩)
      | none =>
          refine .inr (.inr ⟨rfl, fun h hh => ?_, rfl⟩)
          simpa using List.find?_eq_none.mp hf h hh

theorem continueInv_frame [DecidableEq N] (neighborIds : List N) (source : N) :
    (L.continueInv neighborIds source).1.blocktree = L.blocktree ∧
      (L.continueInv neighborIds source).1.txPool = L.txPool ∧
      (L.continueInv neighborIds source).1.powMiner = L.powMiner := by
  rcases L.continueInv_cases neighborIds source with ⟨-, he⟩ | ⟨_, -, -, he⟩ | ⟨-, -, he⟩
  · rw [he]
    exact ⟨rfl, rfl, rfl⟩
  · rw [he]
    exact ⟨rfl, rfl, rfl⟩
  · rw [he]
    exact ⟨rfl, rfl, rfl⟩

theorem recvPOWBlockGetBlocksHandler_ok {source : N} {locator : List H}
    {r : BL_ProtocolLayerPoW H A W × Sends N H A W}
    (h : L.recvPOWBlockGetBlocksHandler source locator = .ok r) :
    ∃ inv, r = (L, [(source, .blkInv inv)]) := by
  obtain ⟨c, -, h⟩ := bind_ok.mp h
  obtain ⟨chain, -, h⟩ := bind_ok.mp h
  exact ⟨chain.reverse, (Except.ok.inj h).symm⟩

theorem recvPOWBlockGetDataHandler_ok {source : N} {k : H}
    {r : BL_ProtocolLayerPoW H A W × Sends N H A W}
    (h : L.recvPOWBlockGetDataHandler source k = .ok r) :
    ∃ b, L.blocktree.Stores k b ∧ r = (L, [(source, .blkBlk b)]) := by
  obtain ⟨-, -, h⟩ := bind_ok.mp h
  obtain ⟨_, hc, h⟩ := bind_ok.mp h
  obtain ⟨b, hb, h⟩ := bind_ok.mp h
  obtain ⟨b', hb'⟩ := BlockTree.stores_iff.mp (mAssert_ok.mp hc)
  obtain rfl := Except.ok.inj ((BlockTree.getBlock_of_stores hb').symm.trans hb)
  exact ⟨b', hb', (Except.ok.inj h).symm⟩

theorem recvPOWBlockGetDataHandler_eq {source : N} {k : H} {b : POWBlock H A W}
    (hr : L.blocktree.Rooted) (hb : L.blocktree.Stores k b) :
    L.recvPOWBlockGetDataHandler source k = .ok (L, [(source, .blkBlk b)]) := by
  have hc := hb.contain
  unfold recvPOWBlockGetDataHandler
  rw [hr.containBlockHash_eq, hc, mAssert_true, mAssert_true, BlockTree.getBlock_of_stores hb]
  rfl

variable [OfNat W 0] [OfNat W 1] [DecidableEq W]

theorem recvPOWBlockInvHandler_ok {source : N} {hashes : List H}
    {r : BL_ProtocolLayerPoW H A W × Sends N H A W}
    (h : L.recvPOWBlockInvHandler source hashes = .ok r) :
    (L.processing = true ∧ r = (L, [])) ∨
    (L.processing = false ∧ ∃ front, hashes.head? = some front ∧
      ((L.blocktree.containBlockHash front = false ∧
          ∃ locator, L.blocktree.getBlockLocator = .ok locator ∧
            r = (L, [(source, .blkGetBlocks locator)])) ∨
       (L.blocktree.containBlockHash front = true ∧
          ∃ k, hashes.find? (fun h => !L.blocktree.containBlock h) = some k ∧
            r = ({ L with processingBlkinv := hashes, processing := true },
              [(source, .blkGetData k)])) ∨
       (L.blocktree.containBlockHash front = true ∧
          (∀ k ∈ hashes, L.blocktree.containBlock k = true) ∧
            r = ({ L with processingBlkinv := hashes, processing := false }, [])))) := by
  unfold recvPOWBlockInvHandler at h
  cases hp : L.processing with
  | true =>
      rw [hp, if_pos rfl] at h
      exact .inl ⟨rfl, (Except.ok.inj h).symm⟩
  | false =>
      rw [hp] at h
      refine .inr ⟨rfl, ?_⟩
      cases hh : hashes.head? with
      | none =>
          rw [hh] at h
          exact nomatch h
      | some front =>
          refine ⟨front, rfl, ?_⟩
          simp only [hh, Bool.false_eq_true, if_false] at h
          cases hf : L.blocktree.containBlockHash front with
          | false =>
              simp only [hf, Bool.not_false, if_true] at h
              obtain ⟨locator, hl, h⟩ := bind_ok.mp h
              exact .inl ⟨rfl, locator, hl, (Except.ok.inj h).symm⟩
          | true =>
              simp only [hf, Bool.not_true, Bool.false_eq_true, if_false] at h
              cases hk : hashes.find? fun h => !L.blocktree.containBlock h with
              | some k =>
                  simp only [hk] at h
                  obtain ⟨x, hx, h⟩ := bind_ok.mp h
                  obtain rfl := Except.ok.inj hx
                  obtain ⟨-, -, h⟩ := bind_ok.mp h
                  exact .inr (.inl ⟨rfl, k, rfl, (Except.ok.inj h).symm⟩)
              | none =>
                  simp only [hk] at h
                  obtain ⟨x, hx, h⟩ := bind_ok.mp h
                  obtain rfl := Except.ok.inj hx
                  obtain ⟨-, -, h⟩ := bind_ok.mp h
                  refine .inr (.inr ⟨rfl, fun k hk' => ?_, (Except.ok.inj h).symm⟩)
                  simpa using List.find?_eq_none.mp hk k hk'

theorem recvPOWBlockInvHandler_total (hr : L.blocktree.Rooted) (source : N) {hashes : List H}
    {front : H} (hf : hashes.head? = some front)
    (h : L.blocktree.containBlockHash front = true ∨ L.blocktree.treeheight ≠ 0) :
    ∃ r, L.recvPOWBlockInvHandler source hashes = .ok r := by
  unfold recvPOWBlockInvHandler
  cases L.processing with
  | true => exact ⟨_, rfl⟩
  | false =>
      simp only [hf, Bool.false_eq_true, if_false]
      cases hc : L.blocktree.containBlockHash front with
      | false =>
          obtain ⟨locator, hl⟩ := BlockTree.getBlockLocator_total hr.toGrounded
            (h.resolve_left (by rw [hc]; decide))
          simp only [hl, Bool.not_false, if_true]
          exact ⟨_, rfl⟩
      | true =>
          simp only [Bool.not_true, Bool.false_eq_true, if_false]
          cases hashes.find? fun h => !L.blocktree.containBlock h with
          | some k =>
              exact ⟨_, bind_ok.mpr ⟨_, rfl, bind_ok.mpr ⟨(), mAssert_ok.mpr (by simp), rfl⟩⟩⟩
          | none =>
              exact ⟨_, bind_ok.mpr ⟨_, rfl, bind_ok.mpr ⟨(), mAssert_ok.mpr (by simp), rfl⟩⟩⟩

end Requests

end Bleep.BL_ProtocolLayerPoW
