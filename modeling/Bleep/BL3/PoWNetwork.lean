/-
# `Bleep.BL3.PoWNetwork` — a network of proof-of-work nodes

A node is its layer and the mined blocks whose `EmuBlockMiningComplete` event is
still queued; `invFrom` is not in the code and remembers whose inventory the
node is processing.  The local actions are the timers and the handling of the
oldest queued block, which may come at any time: a message that waits in the
event queue is a message still in flight.

`Minted` are the blocks there are, genesis included.  Nothing in the code makes
two of them differ in their hashes, so this is an assumption about a state,
`DistinctHashes`; it can be lost by a later step but not gained.
-/
import Bleep.Lib.Network
import Bleep.BL3.PoWHandlers

namespace Bleep

open Protocol

variable {N H A W : Type} [LinearOrder A]

/-- One node. -/
structure PoWNode (N H A : Type) (W : Type := Nat) [LinearOrder A] where
  layer : BL_ProtocolLayerPoW H A W
  queue : List (POWBlock H A W)
  invFrom : Option N

/-- The node has mined this block. -/
def PoWNode.Mined (p : PoWNode N H A W) (b : POWBlock H A W) : Prop :=
  b ∈ p.layer.blkPool ∨ b ∈ p.queue

/-- The local actions of a node; the drawn transaction, the nonce and the clock
are the environment's choice. -/
inductive PoWAct (H A : Type) where
  | txgen (sender_id receiver_id : Int) (amount : A) (hash : H)
  | txbroadcast
  | miningTimer (nonce timestamp : Nat)
  | blockMiningComplete

/-- The transactions an action brings to the pool. -/
def PoWAct.Brings {H A : Type} : PoWAct H A → SimpleTransactionId H A → Prop
  | .txgen sender_id receiver_id amount hash, tid =>
      SimpleTransactionId.SameKey tid ⟨sender_id, receiver_id, amount, hash⟩
  | _, _ => False

namespace PoWNode

variable [DecidableEq N] [DecidableEq H] [Zero H] [OfNat W 0] [OfNat W 1] [Add W] [LE W]
  [DecidableLE W] [DecidableEq W]

def init [Zero A] (sha : Sha256 H A W) : PoWNode N H A W := ⟨.init sha, [], none⟩

variable (sha : Sha256 H A W) (neighborIds : List N) (p : PoWNode N H A W)

def fire : PoWAct H A → Option (Except Fault (PoWNode N H A W × Sends N H A W))
  | .txgen sid rid a hash =>
      some (.ok ({ p with layer := p.layer.txgentimerCallback sha (.make sid rid a hash) }, []))
  | .txbroadcast =>
      let (g, out) := p.layer.txGossipProtocol.txbroadcasttimerCallback neighborIds
      some (.ok ({ p with layer := { p.layer with txGossipProtocol := g } }, out))
  | .miningTimer nonce timestamp =>
      if p.layer.powMiner.timer then
        some do
          let (powMiner, blk) ← p.layer.powMiner.timerCallback sha nonce timestamp
          return ({ p with layer := { p.layer with powMiner }, queue := p.queue ++ [blk] }, [])
      else none
  | .blockMiningComplete =>
      match p.queue with
      | [] => none
      | minedBlk :: queue =>
          some do
            let (layer, out) ← p.layer.emuBlockMiningComplete neighborIds minedBlk
            return ({ p with layer, queue }, out)

def recv (source : N) (obj : MessageObject H A W) :
    Except Fault (PoWNode N H A W × Sends N H A W) := do
  let (layer, out) ← p.layer.recvMsgHandler sha neighborIds source obj
  let invFrom := if !p.layer.processing && layer.processing then some source else p.invFrom
  return ({ p with layer, invFrom }, out)

end PoWNode

namespace PoWNode

variable [DecidableEq H] [OfNat W 1] [Add W] [LE W] [DecidableLE W] {neighborIds : List N}
  {p p' : PoWNode N H A W} {out : Sends N H A W}

/-! ## What never goes back -/

/-- A step links at most one block into the tree. -/
def Grows (p p' : PoWNode N H A W) : Prop :=
  p'.layer.blocktree = p.layer.blocktree ∨
    ∃ b, p'.layer.blocktree = p.layer.blocktree.linkBlock b

theorem Grows.rooted (h : Grows p p') (hr : p.layer.blocktree.Rooted) :
    p'.layer.blocktree.Rooted := by
  rcases h with h | ⟨b, h⟩
  · exact h ▸ hr
  · exact h ▸ hr.linkBlock b

theorem Grows.entry (h : Grows p p') {k : H} {i : BlockTreeBlockIndex H A W}
    (hi : p.layer.blocktree.entry k = some i) : p'.layer.blocktree.entry k = some i := by
  rcases h with h | ⟨b, h⟩
  · exact h ▸ hi
  · exact h ▸ p.layer.blocktree.entry_linkBlock_mono b k i hi

theorem Grows.contain (h : Grows p p') {k : H} (hk : p.layer.blocktree.containBlock k = true) :
    p'.layer.blocktree.containBlock k = true := by
  obtain ⟨i, hi⟩ := BlockTree.containBlock_iff.mp hk
  exact BlockTree.containBlock_iff.mpr ⟨i, h.entry hi⟩

variable [Zero H] [OfNat W 0] {sha : Sha256 H A W}

/-! ## What a node can do

`fire_ok` and `recv_ok` say it once: every invariant below is proved from them. -/

/-- A step that has to do with transactions alone: it brings some of them to the
pool, may start the miner, and sends no message about blocks. -/
structure TxStep (sha : Sha256 H A W) (new : SimpleTransactionId H A → Prop)
    (p p' : PoWNode N H A W) (out : Sends N H A W) : Prop where
  chain : BL_ProtocolLayerPoW.SameChain p.layer p'.layer
  miner : p'.layer.powMiner = p.layer.powMiner ∨ p'.layer.Fresh sha
  pool : ∀ tid, p'.layer.txPool.containTx tid = true ↔
    new tid ∨ p.layer.txPool.containTx tid = true
  queue : p'.queue = p.queue
  invFrom : p'.invFrom = p.invFrom
  silent : ∀ x ∈ out, x.2.isPOWBlock = false

/-- The mining timer ends: the candidate becomes a queued block. -/
structure MineStep (sha : Sha256 H A W) (p p' : PoWNode N H A W) (b : POWBlock H A W) : Prop where
  running : p.layer.powMiner.timer = true
  block : ∃ c nonce timestamp, p.layer.powMiner.candidateBlk = some c ∧
    b = POWMiner.validBlk sha nonce timestamp c
  layer : p'.layer = { p.layer with
    powMiner := { p.layer.powMiner with timer := false, isMining := false } }
  queue : p'.queue = p.queue ++ [b]
  invFrom : p'.invFrom = p.invFrom

theorem fire_miningTimer {nonce timestamp : Nat}
    (h : p.fire sha neighborIds (.miningTimer nonce timestamp) = some (.ok (p', out))) :
    ∃ b, MineStep sha p p' b ∧ out = [] := by
  simp only [fire] at h
  split at h
  · next ht =>
      obtain ⟨⟨m, b⟩, hm, h⟩ := bind_ok.mp (Option.some.inj h)
      obtain ⟨rfl, rfl⟩ := Prod.mk.inj (Except.ok.inj h)
      unfold POWMiner.timerCallback at hm
      split at hm
      · exact nomatch hm
      · next c hc =>
          obtain ⟨rfl, rfl⟩ := Prod.mk.inj (Except.ok.inj hm)
          exact ⟨_, ⟨ht, ⟨c, nonce, timestamp, hc, rfl⟩, rfl, rfl, rfl⟩, rfl⟩
  · exact nomatch h

theorem fire_blockMiningComplete (hr : p.layer.blocktree.Rooted)
    (h : p.fire sha neighborIds .blockMiningComplete = some (.ok (p', out))) :
    ∃ b queue, p.queue = b :: queue ∧ p' = { p with layer := p.layer.completed b, queue } ∧
      out = sendAll neighborIds (.blkInv [b.block_hash]) := by
  simp only [fire] at h
  split at h
  · exact nomatch h
  · next b queue hq =>
      rw [BL_ProtocolLayerPoW.emuBlockMiningComplete_eq hr] at h
      obtain ⟨rfl, rfl⟩ := Prod.mk.inj (Except.ok.inj (Option.some.inj h))
      exact ⟨b, queue, hq, rfl, rfl⟩

theorem fire_ok (hr : p.layer.blocktree.Rooted) {l : PoWAct H A}
    (h : p.fire sha neighborIds l = some (.ok (p', out))) :
    TxStep sha l.Brings p p' out ∨ (∃ b, MineStep sha p p' b ∧ out = []) ∨
      ∃ b queue, p.queue = b :: queue ∧
        p' = { p with layer := p.layer.completed b, queue } ∧
        out = sendAll neighborIds (.blkInv [b.block_hash]) ∧ l = .blockMiningComplete := by
  cases l with
  | txgen sid rid a hash =>
      obtain ⟨rfl, rfl⟩ := Prod.mk.inj (Except.ok.inj (Option.some.inj h))
      refine .inl ⟨p.layer.txgentimerCallback_sameChain sha _,
        p.layer.txgentimerCallback_miner sha _, ?_, rfl, rfl, fun x hx => nomatch hx⟩
      intro tid
      rw [p.layer.txgentimerCallback_txPool sha]
      split
      · next hc =>
          -- a transaction that is there is not added again
          refine ⟨.inr, ?_⟩
          rintro (hnew | h)
          · rw [p.layer.txPool.containTx_congr hnew]
            exact hc
          · exact h
      · exact TxPool.containTx_addTx _ _ _
  | txbroadcast =>
      simp only [fire, Option.some.injEq, Except.ok.injEq, Prod.mk.injEq] at h
      obtain ⟨rfl, rfl⟩ := h
      refine .inl ⟨⟨rfl, rfl, rfl, rfl⟩, .inl rfl, ?_, rfl, rfl,
        p.layer.txGossipProtocol.txbroadcasttimerCallback_silent neighborIds⟩
      intro tid
      rw [BL_ProtocolLayerPoW.txPool, TxGossipProtocol.txbroadcasttimerCallback_txPool]
      exact (iff_of_eq (false_or _)).symm
  | miningTimer nonce timestamp => exact .inr (.inl (fire_miningTimer h))
  | blockMiningComplete =>
      obtain ⟨b, queue, hq, hp, hout⟩ := fire_blockMiningComplete hr h
      exact .inr (.inr ⟨b, queue, hq, hp, hout, rfl⟩)

theorem fire_grows (hr : p.layer.blocktree.Rooted) {l : PoWAct H A}
    (h : p.fire sha neighborIds l = some (.ok (p', out))) : Grows p p' := by
  rcases fire_ok hr h with htx | ⟨b, hmine, -⟩ | ⟨b, q, -, rfl, -⟩
  · exact .inl htx.chain.blocktree
  · exact .inl (by rw [hmine.layer])
  · exact .inr ⟨b, rfl⟩

theorem fire_mined (hr : p.layer.blocktree.Rooted) {l : PoWAct H A}
    (h : p.fire sha neighborIds l = some (.ok (p', out))) {b : POWBlock H A W} (hb : p.Mined b) :
    p'.Mined b := by
  rcases fire_ok hr h with htx | ⟨b', hmine, -⟩ | ⟨b', q, hq, rfl, -⟩
  · exact hb.imp (htx.chain.blkPool ▸ ·) (htx.queue ▸ ·)
  · rw [Mined, hmine.layer, hmine.queue]
    exact hb.imp id (List.mem_append_left _)
  · rcases hb with hb | hb
    · exact .inl (List.mem_append_left _ hb)
    · rw [hq] at hb
      rcases List.mem_cons.mp hb with rfl | hb
      · exact .inl (List.mem_append_right _ (List.mem_singleton_self _))
      · exact .inr hb

theorem fire_inventory (hr : p.layer.blocktree.Rooted) {l : PoWAct H A}
    (h : p.fire sha neighborIds l = some (.ok (p', out))) :
    p'.layer.processing = p.layer.processing ∧
      p'.layer.processingBlkinv = p.layer.processingBlkinv ∧ p'.invFrom = p.invFrom := by
  rcases fire_ok hr h with htx | ⟨b, hmine, -⟩ | ⟨b, q, -, rfl, -⟩
  · exact ⟨htx.chain.processing, htx.chain.processingBlkinv, htx.invFrom⟩
  · exact ⟨by rw [hmine.layer], by rw [hmine.layer], hmine.invFrom⟩
  · exact ⟨rfl, rfl, rfl⟩

theorem afterBlk_frame (sha : Sha256 H A W) (L : BL_ProtocolLayerPoW H A W) (b : POWBlock H A W) :
    (L.afterBlk sha b).blocktree = (L.accepted b).blocktree ∧
      (L.afterBlk sha b).processing = L.processing ∧
      (L.afterBlk sha b).processingBlkinv = L.processingBlkinv ∧
      (L.afterBlk sha b).blkPool = L.blkPool := by
  obtain ⟨hp, hi, -, hb⟩ := L.accepted_frame b
  have hu := L.afterBlk_untouched sha b
  exact ⟨hu.blocktree, hu.processing.trans hp, hu.processingBlkinv.trans hi, hu.blkPool.trans hb⟩

variable [DecidableEq N] [DecidableEq W]

/-- What the message handlers can do. -/
inductive RecvStep (sha : Sha256 H A W) (neighborIds : List N) (p : PoWNode N H A W) (source : N) :
    MessageObject H A W → PoWNode N H A W → Sends N H A W → Prop
  /-- A message about transactions. -/
  | tx {obj : MessageObject H A W} {p' : PoWNode N H A W} {out : Sends N H A W} :
      obj.isPOWBlock = false → TxStep sha obj.Brings p p' out →
        RecvStep sha neighborIds p source obj p' out
  /-- An inventory is dropped because another one is in hand. -/
  | invBusy {hs : List H} : p.layer.processing = true →
      RecvStep sha neighborIds p source (.blkInv hs) p []
  /-- The first hash of an inventory is unknown. -/
  | invUnknown {hs locator : List H} {front : H} : p.layer.processing = false →
      hs.head? = some front → p.layer.blocktree.containBlockHash front = false →
      p.layer.blocktree.getBlockLocator = .ok locator →
      RecvStep sha neighborIds p source (.blkInv hs) p [(source, .blkGetBlocks locator)]
  /-- An inventory is taken in hand and its first missing block requested. -/
  | invTaken {hs : List H} {front k : H} : p.layer.processing = false →
      hs.head? = some front → p.layer.blocktree.containBlockHash front = true →
      hs.find? (fun h => !p.layer.blocktree.containBlock h) = some k →
      RecvStep sha neighborIds p source (.blkInv hs)
        { p with layer := { p.layer with processingBlkinv := hs, processing := true },
                 invFrom := some source } [(source, .blkGetData k)]
  /-- All the blocks of an inventory are there. -/
  | invKnown {hs : List H} : p.layer.processing = false →
      (∀ k ∈ hs, p.layer.blocktree.containBlock k = true) →
      RecvStep sha neighborIds p source (.blkInv hs)
        { p with layer := { p.layer with processingBlkinv := hs, processing := false } } []
  | getBlocks {locator inv : List H} {common : H} {chain : List H} :
      p.layer.blocktree.findCommonBlock locator = .ok common →
      p.layer.blocktree.getChainFromBlock common = .ok chain → inv = chain.reverse →
      RecvStep sha neighborIds p source (.blkGetBlocks locator) p [(source, .blkInv inv)]
  | getData {k : H} {b : POWBlock H A W} : p.layer.blocktree.Stores k b →
      RecvStep sha neighborIds p source (.blkGetData k) p [(source, .blkBlk b)]
  /-- A block outside any inventory in hand. -/
  | blkAlone {b : POWBlock H A W} : p.layer.processing = false →
      RecvStep sha neighborIds p source (.blkBlk b) { p with layer := p.layer.afterBlk sha b } []
  /-- The inventory in hand goes on with its next missing block. -/
  | blkNext {b : POWBlock H A W} {k : H} : p.layer.processing = true →
      p.layer.processingBlkinv.find?
        (fun h => !(p.layer.accepted b).blocktree.containBlock h) = some k →
      RecvStep sha neighborIds p source (.blkBlk b) { p with layer := p.layer.afterBlk sha b }
        [(source, .blkGetData k)]
  /-- The inventory in hand is done with and relayed. -/
  | blkLast {b : POWBlock H A W} : p.layer.processing = true →
      (∀ h ∈ p.layer.processingBlkinv, (p.layer.accepted b).blocktree.containBlock h = true) →
      RecvStep sha neighborIds p source (.blkBlk b)
        { p with layer := { p.layer.afterBlk sha b with processing := false } }
        (relay neighborIds source (.blkInv p.layer.processingBlkinv))

theorem recv_ok (hr : p.layer.blocktree.Rooted) {source : N} {obj : MessageObject H A W}
    (h : p.recv sha neighborIds source obj = .ok (p', out)) :
    RecvStep sha neighborIds p source obj p' out := by
  obtain ⟨⟨L', out'⟩, hL, h⟩ := bind_ok.mp h
  obtain ⟨rfl, rfl⟩ := Prod.mk.inj (Except.ok.inj h)
  -- nothing but the inventory handler starts to process an inventory
  have hfrom : L'.processing = p.layer.processing ∨ L'.processing = false →
      { p with layer := L', invFrom := if !p.layer.processing && L'.processing then some source
          else p.invFrom } = { p with layer := L' } := by
    rintro (h | h)
    · cases hp : p.layer.processing <;> simp [h, hp]
    · simp [h]
  cases obj with
  | txInv txids =>
      simp only [BL_ProtocolLayerPoW.recvMsgHandler, Except.ok.injEq, Prod.mk.injEq] at hL
      obtain ⟨rfl, rfl⟩ := hL
      rw [hfrom (.inl rfl)]
      refine .tx rfl ⟨⟨rfl, rfl, rfl, rfl⟩, .inl rfl, ?_, rfl, rfl, ?_⟩
      · intro tid
        rw [BL_ProtocolLayerPoW.txPool, TxGossipProtocol.recvInventoryHandler_fst]
        exact (iff_of_eq (false_or _)).symm
      · exact p.layer.txGossipProtocol.recvInventoryHandler_silent source txids
  | txGetdata txids =>
      simp only [BL_ProtocolLayerPoW.recvMsgHandler, Except.ok.injEq, Prod.mk.injEq] at hL
      obtain ⟨rfl, rfl⟩ := hL
      rw [hfrom (.inl rfl)]
      refine .tx rfl ⟨⟨rfl, rfl, rfl, rfl⟩, .inl rfl, ?_, rfl, rfl, ?_⟩
      · intro tid
        rw [BL_ProtocolLayerPoW.txPool, TxGossipProtocol.recvGetdataHandler_fst]
        exact (iff_of_eq (false_or _)).symm
      · exact p.layer.txGossipProtocol.recvGetdataHandler_silent source txids
  | txTxs txs =>
      simp only [BL_ProtocolLayerPoW.recvMsgHandler, Except.ok.injEq, Prod.mk.injEq] at hL
      obtain ⟨rfl, rfl⟩ := hL
      have hu := BL_ProtocolLayerPoW.mineIfIdle_untouched
        { p.layer with txGossipProtocol :=
          (p.layer.txGossipProtocol.recvTxsHandler (W := W) neighborIds source txs).1 } sha
      rw [hfrom (.inl hu.processing)]
      refine .tx rfl ⟨?_, BL_ProtocolLayerPoW.mineIfIdle_miner _ sha, ?_, rfl, rfl, ?_⟩
      · exact ⟨hu.blocktree, hu.processingBlkinv, hu.processing, hu.blkPool⟩
      · intro tid
        rw [BL_ProtocolLayerPoW.txPool, hu.gossip]
        exact TxPool.containTx_addTxs _ _ _
      · exact p.layer.txGossipProtocol.recvTxsHandler_silent neighborIds source txs
  | blkInv hs =>
      rcases BL_ProtocolLayerPoW.recvPOWBlockInvHandler_ok hL with
        ⟨hp, hr'⟩ | ⟨hp, front, hh, ⟨hf, loc, hl, hr'⟩ | ⟨hf, k, hk, hr'⟩ | ⟨hf, hall, hr'⟩⟩
      · obtain ⟨rfl, rfl⟩ := Prod.mk.inj hr'
        rw [hfrom (.inl rfl)]
        exact .invBusy hp
      · obtain ⟨rfl, rfl⟩ := Prod.mk.inj hr'
        rw [hfrom (.inl rfl)]
        exact .invUnknown hp hh hf hl
      · obtain ⟨rfl, rfl⟩ := Prod.mk.inj hr'
        simp only [hp, Bool.not_false, Bool.and_self, if_true]
        exact .invTaken hp hh hf hk
      · obtain ⟨rfl, rfl⟩ := Prod.mk.inj hr'
        rw [hfrom (.inr rfl)]
        exact .invKnown hp hall
  | blkGetBlocks locator =>
      obtain ⟨c, hc, hL⟩ := bind_ok.mp hL
      obtain ⟨chain, hch, hL⟩ := bind_ok.mp hL
      obtain ⟨rfl, rfl⟩ := Prod.mk.inj (Except.ok.inj hL)
      rw [hfrom (.inl rfl)]
      exact .getBlocks hc hch rfl
  | blkGetData k =>
      obtain ⟨b, hb, hr'⟩ := BL_ProtocolLayerPoW.recvPOWBlockGetDataHandler_ok hL
      obtain ⟨rfl, rfl⟩ := Prod.mk.inj hr'
      rw [hfrom (.inl rfl)]
      exact .getData hb
  | blkBlk b =>
      have hL' :=
        (BL_ProtocolLayerPoW.recvPOWBlockBlkHandler_eq sha hr neighborIds source b).symm.trans hL
      obtain ⟨hpr, hpi, -⟩ := p.layer.accepted_frame b
      have hu := p.layer.afterBlk_untouched sha b
      rcases (p.layer.afterBlk sha b).continueInv_cases neighborIds source with
        ⟨hp, he⟩ | ⟨k, hp, hk, he⟩ | ⟨hp, hall, he⟩
      · rw [he] at hL'
        obtain ⟨rfl, rfl⟩ := Prod.mk.inj (Except.ok.inj hL')
        rw [hfrom (.inr hp)]
        exact .blkAlone (by rw [← hpr, ← hu.processing, hp])
      · rw [he] at hL'
        obtain ⟨rfl, rfl⟩ := Prod.mk.inj (Except.ok.inj hL')
        rw [hfrom (.inl (hu.processing.trans hpr))]
        rw [hu.blocktree, hu.processingBlkinv, hpi] at hk
        exact .blkNext (by rw [← hpr, ← hu.processing, hp]) hk
      · rw [he] at hL'
        obtain ⟨rfl, rfl⟩ := Prod.mk.inj (Except.ok.inj hL')
        rw [hfrom (.inr rfl)]
        have hinv := hu.processingBlkinv.trans hpi
        rw [hu.blocktree, hinv] at hall
        have hlast : RecvStep sha neighborIds p source (.blkBlk b) _ _ :=
          .blkLast (by rw [← hpr, ← hu.processing, hp]) hall
        rw [← hinv] at hlast
        exact hlast

/-- A message changes the tree only by the block it brings. -/
theorem recv_tree (hr : p.layer.blocktree.Rooted) {source : N} {obj : MessageObject H A W}
    (h : p.recv sha neighborIds source obj = .ok (p', out)) :
    p'.layer.blocktree = p.layer.blocktree ∨
      ∃ b, obj = .blkBlk b ∧ p'.layer.blocktree = (p.layer.accepted b).blocktree := by
  cases recv_ok hr h with
  | tx _ htx => exact .inl htx.chain.blocktree
  | blkAlone _ => exact .inr ⟨_, rfl, (afterBlk_frame sha p.layer _).1⟩
  | blkNext _ _ => exact .inr ⟨_, rfl, (afterBlk_frame sha p.layer _).1⟩
  | blkLast _ _ => exact .inr ⟨_, rfl, (afterBlk_frame sha p.layer _).1⟩
  | _ => exact .inl rfl

theorem recv_grows (hr : p.layer.blocktree.Rooted) {source : N} {obj : MessageObject H A W}
    (h : p.recv sha neighborIds source obj = .ok (p', out)) : Grows p p' := by
  rcases recv_tree hr h with h | ⟨b, -, h⟩
  · exact .inl h
  · rw [BL_ProtocolLayerPoW.accepted_blocktree] at h
    split at h
    · exact .inl h
    · exact .inr ⟨b, h⟩

theorem recv_queue (hr : p.layer.blocktree.Rooted) {source : N} {obj : MessageObject H A W}
    (h : p.recv sha neighborIds source obj = .ok (p', out)) : p'.queue = p.queue := by
  cases recv_ok hr h with
  | tx _ htx => exact htx.queue
  | _ => rfl

theorem recv_sends (hr : p.layer.blocktree.Rooted) {source m : N} {obj : MessageObject H A W}
    {b : POWBlock H A W} (h : p.recv sha neighborIds source obj = .ok (p', out))
    (hb : (m, .blkBlk b) ∈ out) : ∃ k, p.layer.blocktree.Stores k b := by
  -- the other answers are of another kind
  have hone : ∀ {o : MessageObject H A W}, (m, .blkBlk b) ∈ [(source, o)] → .blkBlk b = o :=
    fun h => (Prod.mk.inj (List.mem_singleton.mp h)).2
  cases recv_ok hr h with
  | tx _ htx => exact nomatch htx.silent _ hb
  | getData hk => exact ⟨_, MessageObject.blkBlk.inj (hone hb) ▸ hk⟩
  | blkLast _ _ => exact nomatch (mem_relay.mp hb).2.2
  | invUnknown _ _ _ _ => exact nomatch hone hb
  | invTaken _ _ _ _ => exact nomatch hone hb
  | getBlocks _ _ _ => exact nomatch hone hb
  | blkNext _ _ => exact nomatch hone hb
  | invBusy _ => exact nomatch hb
  | invKnown _ _ => exact nomatch hb
  | blkAlone _ => exact nomatch hb

theorem recv_mined (hr : p.layer.blocktree.Rooted) {source : N} {obj : MessageObject H A W}
    (h : p.recv sha neighborIds source obj = .ok (p', out)) (b : POWBlock H A W) :
    p'.Mined b ↔ p.Mined b := by
  have hpool : p'.layer.blkPool = p.layer.blkPool := by
    cases recv_ok hr h with
    | tx _ htx => exact htx.chain.blkPool
    | blkAlone _ => exact (afterBlk_frame sha p.layer _).2.2.2
    | blkNext _ _ => exact (afterBlk_frame sha p.layer _).2.2.2
    | blkLast _ _ => exact (afterBlk_frame sha p.layer _).2.2.2
    | _ => rfl
  rw [Mined, Mined, hpool, recv_queue hr h]

end PoWNode

variable [DecidableEq N] [DecidableEq H] [Zero H] [Zero A]

/-- The network: every node starts from the initial layer, and its neighbours
are given by `nbrs`. -/
def powProtocol (sha : Sha256 H A) (nbrs : N → List N) :
    Protocol N (PoWNode N H A) (MessageObject H A) (PoWAct H A) Fault where
  start _ := .init sha
  fire n l p := p.fire sha (nbrs n) l
  recv n source obj p := p.recv sha (nbrs n) source obj

abbrev PoWConfig (N H A : Type) [LinearOrder A] := Config N (PoWNode N H A) (MessageObject H A)

/-- The network as a transition system. -/
abbrev powSys (sha : Sha256 H A) (nbrs : N → List N) :
    TransSys (PoWConfig N H A) (Act N (PoWAct H A)) := (powProtocol sha nbrs).sys

theorem grows_step {sha : Sha256 H A} {nbrs : N → List N} {c c' : PoWConfig N H A}
    {a : Act N (PoWAct H A)} (hr : ∀ n, (c.node n).layer.blocktree.Rooted)
    (hs : (powSys sha nbrs).step c a c') (n : N) : PoWNode.Grows (c.node n) (c'.node n) := by
  cases hs with
  | fire hf =>
      exact c.forall_post (R := fun n q => PoWNode.Grows (c.node n) q) _ _ _ _
        (PoWNode.fire_grows (hr _) hf) (fun _ _ => .inl rfl) n
  | deliver _ hf =>
      exact c.forall_post (R := fun n q => PoWNode.Grows (c.node n) q) _ _ _ _
        (PoWNode.recv_grows (hr _) hf) (fun _ _ => .inl rfl) n
  | lose _ => exact .inl rfl

/-- **Every tree of every run is rooted**, whatever was mined and received. -/
theorem rooted_of_reach {sha : Sha256 H A} {nbrs : N → List N} {c : PoWConfig N H A}
    (h : (powSys sha nbrs).Reach c) (n : N) : (c.node n).layer.blocktree.Rooted := by
  refine h.invariant (P := fun c => ∀ n, (c.node n).layer.blocktree.Rooted) ?_ ?_ n
  · rintro c rfl n
    exact BlockTree.rooted_init sha
  · intro c a c' _ hr _ hs m
    exact (grows_step hr hs m).rooted (hr m)

/-! ## The blocks of a network -/

section Minted

omit [DecidableEq N] [DecidableEq H]

def Minted (sha : Sha256 H A) (c : PoWConfig N H A) (b : POWBlock H A) : Prop :=
  b = genesisBlock sha ∨ ∃ n, (c.node n).Mined b

def DistinctHashes (sha : Sha256 H A) (c : PoWConfig N H A) : Prop :=
  ∀ b b', Minted sha c b → Minted sha c b' → b.block_hash = b'.block_hash → b = b'

theorem Minted.post [DecidableEq N] {sha : Sha256 H A} {c : PoWConfig N H A} {n : N}
    {p : PoWNode N H A} {out : Sends N H A} {w : List (Packet N (MessageObject H A))}
    (hgrow : ∀ b, (c.node n).Mined b → p.Mined b) {b : POWBlock H A} (h : Minted sha c b) :
    Minted sha (c.post n p out w) b := by
  rcases h with h | ⟨m, hm⟩
  · exact .inl h
  · exact .inr ⟨m, c.forall_post (R := fun m q => (c.node m).Mined b → q.Mined b) _ _ _ _
      (hgrow b) (fun _ _ => id) m hm⟩

end Minted

theorem minted_step {sha : Sha256 H A} {nbrs : N → List N} {c c' : PoWConfig N H A}
    {a : Act N (PoWAct H A)} (hr : ∀ n, (c.node n).layer.blocktree.Rooted)
    (hs : (powSys sha nbrs).step c a c') {b : POWBlock H A} (h : Minted sha c b) :
    Minted sha c' b := by
  cases hs with
  | fire hf => exact h.post fun b hb => PoWNode.fire_mined (hr _) hf hb
  | deliver _ hf => exact h.post fun b hb => (PoWNode.recv_mined (hr _) hf b).mpr hb
  | lose _ => exact h

theorem distinctHashes_step {sha : Sha256 H A} {nbrs : N → List N} {c c' : PoWConfig N H A}
    {a : Act N (PoWAct H A)} (hr : (powSys sha nbrs).Reach c)
    (hs : (powSys sha nbrs).step c a c') (h : DistinctHashes sha c') : DistinctHashes sha c :=
  fun b b' hb hb' => h b b' (minted_step (rooted_of_reach hr) hs hb)
    (minted_step (rooted_of_reach hr) hs hb')

/-! ### Running a network of finitely many nodes -/

/-- A digest for concrete runs: headers are told apart by their nonces. -/
def nonceSha : Sha256 Nat Nat where
  txs l := l.length
  header nonce _ _ _ _ := nonce + 1

/-- The same for headers with an index of 64 bits. -/
def nonceSha64 : Sha256 Nat Nat UInt64 where
  txs l := l.length
  header nonce _ _ _ _ := nonce + 1

/-- A node generates two transactions, mines them and announces the block. -/
def mineAt (n : N) (nonce : Nat) : List (Act N (PoWAct Nat Nat)) :=
  [.fire n (.txgen nonce 0 0 0), .fire n (.txgen nonce 1 0 0), .fire n (.miningTimer nonce 0),
    .fire n .blockMiningComplete]

def mintedList (sha : Sha256 H A) (ns : List N) (c : PoWConfig N H A) : List (POWBlock H A) :=
  genesisBlock sha :: ns.flatMap fun n => (c.node n).layer.blkPool ++ (c.node n).queue

omit [DecidableEq N] [DecidableEq H] in
theorem distinctHashes_of_nodup {sha : Sha256 H A} {ns : List N} {c : PoWConfig N H A}
    (hns : ∀ n, n ∈ ns) (h : ((mintedList sha ns c).map POWBlock.block_hash).Nodup) :
    DistinctHashes sha c := by
  have hmem : ∀ b, Minted sha c b → b ∈ mintedList sha ns c := by
    rintro b (rfl | ⟨n, hn⟩)
    · exact List.mem_cons_self
    · refine List.mem_cons_of_mem _ (List.mem_flatMap.mpr ⟨n, hns n, ?_⟩)
      exact List.mem_append.mpr hn
  exact fun b b' hb hb' he => List.inj_on_of_nodup_map h (hmem b hb) (hmem b' hb') he

end Bleep
