/-
# `Bleep.BL3.PoWOpen` — one node in an arbitrary environment

The network of `PoWNetwork` sends its nodes only what other nodes of the same
program send.  Here there is one node, and everything around it is arbitrary:
its timers fire in any order, the queued blocks are handled at any time, and any
peer sends any message with any contents.  Two questions are asked of it.

*Which messages stop the process?*  The handlers of `POWBLOCK-INV`, `GETBLOCKS`
and `GETDATA` follow the pointer to the message's object, and state what they
expect of a peer's data as assertions, so each of the three can be sent in a form
that stops the node (`recv_stops`); and a block of the largest index there is
makes the height overflow to 0, after which inventories of unknown blocks do.
`Answerable` says exactly which forms are answered (`recv_answers_iff`).

*Does the miner stall?*  Whoever changes tip or pool has to start the miner
again.  The generator, the transaction handler and the block handler do;
`EmuBlockMiningComplete` does not, so a node that finds enough transactions left
over after its own block stays idle (`stalls`).  This is the only way to stall
(`keepsBusy_of_spare`).
-/
import Bleep.BL3.PoWNetwork
import Bleep.BL3.TxPoolHistory

namespace Bleep

open BlockTree SimpleTransactionId

variable {N H A W : Type} [LinearOrder A]

/-- What can happen to one node; the neighbours are those of the moment.  Messages
whose object is missing or of another class stop the node or are ignored
(`PoWNode.recvMsg`), and so bring it to no other state. -/
inductive OpenAct (N H A : Type) (W : Type := Nat) where
  | fire (neighborIds : List N) (l : PoWAct H A)
  | recv (neighborIds : List N) (source : N) (obj : MessageObject H A W)

section Open

variable [DecidableEq N] [DecidableEq H] [Zero H] [OfNat W 0] [OfNat W 1] [Add W] [LE W]
  [DecidableLE W] [DecidableEq W]

/-- The action on a node, and the messages it sends. -/
def OpenAct.perform (sha : Sha256 H A W) (p : PoWNode N H A W) :
    OpenAct N H A W → Option (Except Fault (PoWNode N H A W × Sends N H A W))
  | .fire neighborIds l => p.fire sha neighborIds l
  | .recv neighborIds source obj => some (p.recv sha neighborIds source obj)

/-- A node in an arbitrary environment. -/
def openSys [Zero A] (sha : Sha256 H A W) :
    TransSys (PoWNode N H A W) (OpenAct N H A W) where
  init p := p = .init sha
  step p a p' := ∃ out, a.perform sha p = some (.ok (p', out))

/-- The step as a function, for concrete runs. -/
def OpenAct.next (sha : Sha256 H A W) (p : PoWNode N H A W) (a : OpenAct N H A W) :
    Option (PoWNode N H A W) :=
  match a.perform sha p with
  | some (.ok (p', _)) => some p'
  | _ => none

theorem OpenAct.step_of_next [Zero A] {sha : Sha256 H A W} {p p' : PoWNode N H A W}
    {a : OpenAct N H A W} (h : a.next sha p = some p') : (openSys sha).step p a p' := by
  unfold OpenAct.next at h
  split at h
  · next q out hq =>
      obtain rfl := Option.some.inj h
      exact ⟨out, hq⟩
  · exact nomatch h

/-- A schedule, run from the initial node. -/
def openRun [Zero A] (sha : Sha256 H A W) (C : PoWNode N H A W → OpenAct N H A W → Bool)
    (acts : List (OpenAct N H A W)) : Option (PoWNode N H A W) :=
  TransSys.exec (fun p a => a.next sha p) C (.init sha) acts

theorem openRun_under [Zero A] {sha : Sha256 H A W}
    {C : PoWNode N H A W → OpenAct N H A W → Bool} {acts : List (OpenAct N H A W)}
    {p : PoWNode N H A W} (h : openRun sha C acts = some p) :
    (openSys sha).Under (fun p a => C p a = true) p :=
  TransSys.exec_under _ _ (fun _ _ _ => OpenAct.step_of_next) acts (.start rfl) h

variable {sha : Sha256 H A W} {p p' : PoWNode N H A W}

theorem grows_openStep [Zero A] (hr : p.layer.blocktree.Rooted) {a : OpenAct N H A W}
    (h : (openSys sha).step p a p') : PoWNode.Grows p p' := by
  obtain ⟨out, h⟩ := h
  cases a with
  | fire nb l => exact PoWNode.fire_grows hr h
  | recv nb source obj => exact PoWNode.recv_grows hr (Option.some.inj h)

/-- Whatever a node is sent, its tree stays rooted. -/
theorem rooted_of_open [Zero A] {C : PoWNode N H A W → OpenAct N H A W → Prop}
    (h : (openSys sha).Under C p) : p.layer.blocktree.Rooted := by
  refine h.invariant (P := fun p => p.layer.blocktree.Rooted) ?_ ?_
  · rintro p rfl
    exact rooted_init sha
  · intro p a p' _ hr _ hs
    exact (grows_openStep hr hs).rooted hr

/-! ## Messages about blocks -/

namespace PoWNode

/-- A message of some type, with an object of some class or with none. -/
def recvMsg (sha : Sha256 H A W) (p : PoWNode N H A W) (neighborIds : List N) (source : N)
    (type : MessageType) (ptrToObj : Option (WireObject N H A W)) :
    Except Fault (PoWNode N H A W × Sends N H A W) := do
  match ← readObject type ptrToObj with
  | none => return (p, [])
  | some obj => p.recv sha neighborIds source obj

/-- The handler returns, and with the tree it started from. -/
def Answers (sha : Sha256 H A W) (p : PoWNode N H A W) (neighborIds : List N) (source : N)
    (type : MessageType) (ptrToObj : Option (WireObject N H A W)) : Prop :=
  ∃ p' out, p.recvMsg sha neighborIds source type ptrToObj = .ok (p', out) ∧
    p'.layer.blocktree = p.layer.blocktree

/-- What the three handlers expect: an inventory that lists something, unless it
is not looked at, and a height, if the first hash is unknown; a locator with a hash
of the tip's chain; a request for a block that is there. -/
def Answerable (p : PoWNode N H A W) : MessageObject H A W → Prop
  | .blkInv hashlist => p.layer.processing = true ∨ ∃ front, hashlist.head? = some front ∧
      (p.layer.blocktree.containBlockHash front = true ∨ p.layer.blocktree.treeheight ≠ 0)
  | .blkGetBlocks blockLocator =>
      ∃ l, p.layer.blocktree.Path p.layer.blocktree.lasthash l ∧ ∃ x ∈ l, x ∈ blockLocator
  | .blkGetData blockhash => p.layer.blocktree.containBlock blockhash = true
  | _ => True

variable {nb : List N} {source : N}

theorem recv_answers {obj : MessageObject H A W} :
    (∃ p' out, p.recv sha nb source obj = .ok (p', out) ∧
        p'.layer.blocktree = p.layer.blocktree) ↔
      ∃ r, p.layer.recvMsgHandler sha nb source obj = .ok r ∧
        r.1.blocktree = p.layer.blocktree := by
  constructor
  · rintro ⟨p', out, h, ht⟩
    obtain ⟨r, hr, h⟩ := bind_ok.mp h
    obtain ⟨rfl, -⟩ := Prod.mk.inj (Except.ok.inj h)
    exact ⟨r, hr, ht⟩
  · rintro ⟨r, hr, ht⟩
    exact ⟨_, _, bind_ok.mpr ⟨r, hr, rfl⟩, ht⟩

theorem answers_iff {type : MessageType} (htype : type ∈ txgossipTypes ++ powblockTypes)
    (o : Option (WireObject N H A W)) :
    p.Answers sha nb source type o ↔ ∃ obj, o = some (.protocol obj) ∧ obj.type = type ∧
      ∃ r, p.layer.recvMsgHandler sha nb source obj = .ok r ∧
        r.1.blocktree = p.layer.blocktree := by
  have hread : readObject type o = castObject type o := if_pos htype
  constructor
  · rintro ⟨p', out, h, ht⟩
    obtain ⟨x, hx, h⟩ := bind_ok.mp h
    rw [hread] at hx
    match o with
    | none => cases hx
    | some (.addrAd _) => cases hx
    | some (.protocol obj) =>
        simp only [castObject] at hx
        split at hx
        · next heq =>
            obtain rfl := Except.ok.inj hx
            exact ⟨obj, rfl, heq, recv_answers.mp ⟨p', out, h, ht⟩⟩
        · cases hx
  · rintro ⟨obj, rfl, rfl, hr⟩
    obtain ⟨p', out, h, ht⟩ := recv_answers.mpr hr
    refine ⟨p', out, bind_ok.mpr ⟨some obj, hread.trans (if_pos rfl), h⟩, ht⟩

theorem blkInv_answered (hr : p.layer.blocktree.Rooted) (hashes : List H) :
    (∃ r, p.layer.recvMsgHandler sha nb source (.blkInv hashes) = .ok r ∧
      r.1.blocktree = p.layer.blocktree) ↔ p.Answerable (.blkInv hashes) := by
  constructor
  · rintro ⟨r, h, -⟩
    rcases BL_ProtocolLayerPoW.recvPOWBlockInvHandler_ok h with
      ⟨hp, -⟩ | ⟨-, front, hf, ⟨-, loc, hloc, -⟩ | ⟨hk, -⟩ | ⟨hk, -⟩⟩
    · exact .inl hp
    · refine .inr ⟨front, hf, .inr fun h0 => ?_⟩
      exact nomatch (getBlockLocator_zero h0).symm.trans hloc
    · exact .inr ⟨front, hf, .inl hk⟩
    · exact .inr ⟨front, hf, .inl hk⟩
  · intro h
    have htotal : ∃ r, p.layer.recvPOWBlockInvHandler source hashes = .ok r := by
      rcases h with hp | ⟨front, hf, h⟩
      · refine ⟨(p.layer, []), ?_⟩
        unfold BL_ProtocolLayerPoW.recvPOWBlockInvHandler
        rw [if_pos hp]
      · exact BL_ProtocolLayerPoW.recvPOWBlockInvHandler_total hr source hf h
    obtain ⟨r, hh⟩ := htotal
    refine ⟨r, hh, ?_⟩
    rcases BL_ProtocolLayerPoW.recvPOWBlockInvHandler_ok hh with
      ⟨-, rfl⟩ | ⟨-, _, -, ⟨-, _, -, rfl⟩ | ⟨-, _, -, rfl⟩ | ⟨-, -, rfl⟩⟩
    · rfl
    · rfl
    · rfl
    · rfl

theorem blkGetBlocks_answered (hr : p.layer.blocktree.Rooted) (locator : List H) :
    (∃ r, p.layer.recvMsgHandler sha nb source (.blkGetBlocks locator) = .ok r ∧
      r.1.blocktree = p.layer.blocktree) ↔ p.Answerable (.blkGetBlocks locator) := by
  obtain ⟨-, l, -, hl⟩ := hr.tip_path
  constructor
  · rintro ⟨r, h, -⟩
    obtain ⟨c, hc, -⟩ := bind_ok.mp h
    by_cases hx : ∃ x ∈ l, x ∈ locator
    · exact ⟨l, hl, hx⟩
    · exfalso
      have he := findCommonBlock_error hr.toGrounded hl fun x hxl hxloc => hx ⟨x, hxl, hxloc⟩
      exact nomatch he.symm.trans hc
  · rintro ⟨l', hl', hx⟩
    obtain rfl := hl.unique hl'
    obtain ⟨c, hfind, hc⟩ := findCommonBlock_of_common hr.toGrounded hl hx
    have hch := getChainFromBlock_eq hr.toGrounded hl (List.mem_of_find?_eq_some hfind)
    exact ⟨_, bind_ok.mpr ⟨c, hc, bind_ok.mpr ⟨_, hch, rfl⟩⟩, rfl⟩

theorem blkGetData_answered (hr : p.layer.blocktree.Rooted) (k : H) :
    (∃ r, p.layer.recvMsgHandler sha nb source (.blkGetData k) = .ok r ∧
      r.1.blocktree = p.layer.blocktree) ↔ p.Answerable (.blkGetData k) := by
  constructor
  · rintro ⟨r, h, -⟩
    obtain ⟨b, hb, -⟩ := BL_ProtocolLayerPoW.recvPOWBlockGetDataHandler_ok h
    exact hb.contain
  · intro h
    obtain ⟨b, hb⟩ := stores_iff.mp h
    exact ⟨_, BL_ProtocolLayerPoW.recvPOWBlockGetDataHandler_eq hr hb, rfl⟩

end PoWNode

end Open

/-- **A message about blocks is answered, and leaves the tree alone, exactly if it
has an object of its class that is answerable**; every other one stops the process. -/
theorem recv_answers_iff [DecidableEq N] [DecidableEq H] [Zero H] [Zero A] {sha : Sha256 H A UInt64}
    {p : PoWNode N H A UInt64}
    (h : (openSys sha).Reach p) (nb : List N) (source : N) (o : Option (WireObject N H A UInt64)) :
    (p.Answers sha nb source "POWBLOCK-INV" o ↔
        ∃ hashlist, o = some (.protocol (.blkInv hashlist)) ∧ p.Answerable (.blkInv hashlist)) ∧
      (p.Answers sha nb source "POWBLOCK-GETBLOCKS" o ↔
        ∃ blockLocator, o = some (.protocol (.blkGetBlocks blockLocator)) ∧
          p.Answerable (.blkGetBlocks blockLocator)) ∧
      (p.Answers sha nb source "POWBLOCK-GETDATA" o ↔
        ∃ blockhash, o = some (.protocol (.blkGetData blockhash)) ∧
          p.Answerable (.blkGetData blockhash)) := by
  have hr := rooted_of_open h
  refine ⟨?_, ?_, ?_⟩
  · rw [PoWNode.answers_iff (by decide)]
    constructor
    · rintro ⟨obj, rfl, htype, hans⟩
      obtain ⟨hashes, rfl⟩ := MessageObject.of_type_inv htype
      exact ⟨hashes, rfl, (PoWNode.blkInv_answered hr hashes).mp hans⟩
    · rintro ⟨hashes, rfl, hans⟩
      exact ⟨_, rfl, rfl, (PoWNode.blkInv_answered hr hashes).mpr hans⟩
  · rw [PoWNode.answers_iff (by decide)]
    constructor
    · rintro ⟨obj, rfl, htype, hans⟩
      obtain ⟨locator, rfl⟩ := MessageObject.of_type_getBlocks htype
      exact ⟨locator, rfl, (PoWNode.blkGetBlocks_answered hr locator).mp hans⟩
    · rintro ⟨locator, rfl, hans⟩
      exact ⟨_, rfl, rfl, (PoWNode.blkGetBlocks_answered hr locator).mpr hans⟩
  · rw [PoWNode.answers_iff (by decide)]
    constructor
    · rintro ⟨obj, rfl, htype, hans⟩
      obtain ⟨k, rfl⟩ := MessageObject.of_type_getData htype
      exact ⟨k, rfl, (PoWNode.blkGetData_answered hr k).mp hans⟩
    · rintro ⟨k, rfl, hans⟩
      exact ⟨_, rfl, rfl, (PoWNode.blkGetData_answered hr k).mpr hans⟩

/-- The node that the messages below are sent to. -/
abbrev freshNode : PoWNode Nat Nat Nat UInt64 := .init nonceSha64

/-- On the initial node: genesis is found, what was never seen is not. -/
theorem recv_answers_iff_init :
    freshNode.Answers nonceSha64 [] 1 "POWBLOCK-GETDATA" (some (.protocol (.blkGetData 1))) ∧
      ¬freshNode.Answers nonceSha64 [] 1 "POWBLOCK-GETDATA" (some (.protocol (.blkGetData 2))) := by
  have hstart : (openSys nonceSha64).Reach freshNode := .start rfl
  obtain ⟨-, -, hknown⟩ := recv_answers_iff hstart [] 1 (some (.protocol (.blkGetData 1)))
  obtain ⟨-, -, hunknown⟩ := recv_answers_iff hstart [] 1 (some (.protocol (.blkGetData 2)))
  refine ⟨hknown.mpr ⟨1, rfl, ?_⟩, fun h => ?_⟩
  · show freshNode.layer.blocktree.containBlock 1 = true
    decide
  · obtain ⟨k, hk, hans⟩ := hunknown.mp h
    have hno : freshNode.layer.blocktree.containBlock 2 = false := by decide
    cases hk
    exact nomatch hno.symm.trans hans

/-- A block over genesis. -/
def forkBlock (idx : UInt64) (hash : Nat) : POWBlock Nat Nat UInt64 where
  block_idx := idx
  tx_list := []
  block_hash := hash
  nonce := 0
  tx_hash := 0
  prev_block_hash := 1
  timestamp := 0
  difficulty := 0

/-- Two blocks over genesis, of which the second has the largest index there is. -/
def overflow : List (OpenAct Nat Nat Nat UInt64) :=
  [.recv [] 1 (.blkBlk (forkBlock 1 2)), .recv [] 1 (.blkBlk (forkBlock (-1) 3))]

/-- A message without an object, an empty inventory, a locator of another chain and a
request for an unknown block: each of them stops a node in its initial state.  An inventory
of an unknown block stops a node whose height has overflowed. -/
theorem recv_stops : (openSys nonceSha64).Reach freshNode ∧
    freshNode.recvMsg nonceSha64 [] 1 "POWBLOCK-INV" none = .error .nullDeref ∧
    freshNode.recvMsg nonceSha64 [] 1 "POWBLOCK-INV" (some (.protocol (.blkInv []))) =
      .error .nullDeref ∧
    freshNode.recvMsg nonceSha64 [] 1 "POWBLOCK-GETBLOCKS"
        (some (.protocol (.blkGetBlocks [7]))) =
      .error (.assertion "need to be returned before reaching genesis block") ∧
    freshNode.recvMsg nonceSha64 [] 1 "POWBLOCK-GETDATA" (some (.protocol (.blkGetData 7))) =
      .error (.assertion "hash must be synchronized already.") ∧
    ∃ p, (openSys nonceSha64).Reach p ∧
      p.recvMsg nonceSha64 [] 1 "POWBLOCK-INV" (some (.protocol (.blkInv [7]))) =
        .error (.assertion "At least genesis block should exist") := by
  have hrun : (openRun nonceSha64 (fun _ _ => true) overflow).any
      (fun p => match p.recv nonceSha64 [] 1 (.blkInv [7]) with
        | .ok _ => false
        | .error e => decide (e = .assertion "At least genesis block should exist")) = true := by
    decide +kernel
  obtain ⟨p, hp, he⟩ := (Option.any_eq_true _ _).mp hrun
  refine ⟨.start rfl, rfl, rfl, rfl, rfl, p, (openRun_under hp).reach, ?_⟩
  show p.recv nonceSha64 [] 1 (.blkInv [7]) = _
  split at he
  · cases he
  · next e heq => rw [heq, of_decide_eq_true he]

/-! ## The miner -/

section Miner

variable {p p' : PoWNode N H A}

namespace PoWNode

/-- Once the queue is drained, the miner runs if there is enough to mine. -/
def Busy (p : PoWNode N H A) : Prop := p.queue = [] → p.layer.KeepsMining

/-- There are enough pending transactions for a block besides those of `b`. -/
def Spare (p : PoWNode N H A) (b : POWBlock H A) : Prop :=
  ∃ txs : List (SimpleTransaction H A), txs.length = txNumPerBlock ∧
    (txs.Pairwise fun x y => ¬ SameKey x.getId y.getId) ∧
    ∀ tx ∈ txs, p.layer.txPool.Has tx ∧ ∀ x ∈ b.txids, ¬ SameKey tx.getId x

theorem spare_iff (p : PoWNode N H A) (b : POWBlock H A) :
    p.Spare b ↔ txNumPerBlock ≤ (p.layer.txPool.removeTxs b.txids).getPendingTxNum := by
  rw [TxPool.le_getPendingTxNum_iff]
  refine exists_congr fun txs => and_congr_right fun _ => and_congr_right fun _ =>
    forall₂_congr fun tx _ => ?_
  rw [TxPool.has_removeTxs]
  exact And.comm

/-- The last queued block is not handled by an idle miner with transactions to
spare. -/
def NoSpare (p : PoWNode N H A) : OpenAct N H A → Prop
  | .fire _ .blockMiningComplete =>
      ∀ b, p.queue = [b] → p.layer.powMiner.isMining = false → ¬ p.Spare b
  | _ => True


theorem keepsMining_of_removeTxs {L L' : BL_ProtocolLayerPoW H A}
    {tids : List (SimpleTransactionId H A)} (h : L.KeepsMining)
    (hp : L'.txPool = L.txPool.removeTxs tids) (hm : L'.powMiner = L.powMiner) :
    L'.KeepsMining := by
  intro hn
  rw [hm]
  refine h ?_
  rw [hp, TxPool.le_getPendingTxNum_iff] at hn
  obtain ⟨txs, hlen, hpw, hhas⟩ := hn
  refine (TxPool.le_getPendingTxNum_iff _).mpr ⟨txs, hlen, hpw, fun tx htx => ?_⟩
  exact ((TxPool.has_removeTxs _).mp (hhas tx htx)).2

variable [DecidableEq H]

/-- The handler of the last queued block leaves the node busy exactly if it had
no transactions to spare, or was mining anyway. -/
theorem busy_completed_iff {b : POWBlock H A} :
    PoWNode.Busy ({ p with layer := p.layer.completed b, queue := [] } : PoWNode N H A) ↔
      (p.layer.powMiner.isMining = false → ¬ p.Spare b) := by
  rw [spare_iff]
  show ([] = [] → _ ≤ _ → p.layer.powMiner.isMining = true) ↔ _
  cases p.layer.powMiner.isMining with
  | true => simp
  | false => simp [BL_ProtocolLayerPoW.completed, BL_ProtocolLayerPoW.mapTxPool]

variable [Zero H] {sha : Sha256 H A} {out : Sends N H A} {nb : List N}

theorem afterBlk_keepsMining {L : BL_ProtocolLayerPoW H A} (h : L.KeepsMining)
    (b : POWBlock H A) : (L.afterBlk sha b).KeepsMining := by
  unfold BL_ProtocolLayerPoW.afterBlk
  split
  · exact (L.accepted b).restartMining_keepsMining sha
  · unfold BL_ProtocolLayerPoW.accepted
    split
    · exact h
    · exact keepsMining_of_removeTxs h rfl rfl

theorem Busy.fire (h : p.Busy) (hr : p.layer.blocktree.Rooted) {l : PoWAct H A}
    (hc : p.NoSpare (.fire nb l)) (hf : p.fire sha nb l = some (.ok (p', out))) : p'.Busy := by
  cases l with
  | txgen sid rid a hash =>
      obtain ⟨rfl, -⟩ := Prod.mk.inj (Except.ok.inj (Option.some.inj hf))
      exact fun hq => p.layer.txgentimerCallback_keepsMining sha (h hq) _
  | txbroadcast =>
      simp only [PoWNode.fire, Option.some.injEq, Except.ok.injEq, Prod.mk.injEq] at hf
      obtain ⟨rfl, -⟩ := hf
      intro hq hn
      refine h hq ?_
      rwa [BL_ProtocolLayerPoW.txPool, TxGossipProtocol.txbroadcasttimerCallback_txPool] at hn
  | miningTimer nonce timestamp =>
      -- the mined block is queued
      obtain ⟨b, hmine, -⟩ := fire_miningTimer hf
      intro hq
      rw [hmine.queue] at hq
      exact absurd (List.append_eq_nil_iff.mp hq).2 (List.cons_ne_nil _ _)
  | blockMiningComplete =>
      obtain ⟨b, queue, hq, rfl, -⟩ := fire_blockMiningComplete hr hf
      intro hempty
      obtain rfl : queue = [] := hempty
      exact busy_completed_iff.mpr (hc b hq) rfl

variable [DecidableEq N]

theorem Busy.recvTx (h : p.Busy) {source : N} {obj : MessageObject H A}
    (hobj : obj.isPOWBlock = false) (hf : p.recv sha nb source obj = .ok (p', out)) : p'.Busy := by
  obtain ⟨⟨L, out'⟩, hL, hf⟩ := bind_ok.mp hf
  obtain ⟨rfl, -⟩ := Prod.mk.inj (Except.ok.inj hf)
  intro hq
  have hkeep : p.layer.KeepsMining := h hq
  cases obj with
  | txInv txids =>
      simp only [BL_ProtocolLayerPoW.recvMsgHandler, Except.ok.injEq, Prod.mk.injEq] at hL
      obtain ⟨rfl, -⟩ := hL
      intro hn
      refine hkeep ?_
      rwa [BL_ProtocolLayerPoW.txPool, TxGossipProtocol.recvInventoryHandler_fst] at hn
  | txGetdata txids =>
      simp only [BL_ProtocolLayerPoW.recvMsgHandler, Except.ok.injEq, Prod.mk.injEq] at hL
      obtain ⟨rfl, -⟩ := hL
      intro hn
      refine hkeep ?_
      rwa [BL_ProtocolLayerPoW.txPool, TxGossipProtocol.recvGetdataHandler_fst] at hn
  | txTxs txs =>
      obtain ⟨rfl, -⟩ := Prod.mk.inj (Except.ok.inj hL)
      exact BL_ProtocolLayerPoW.mineIfIdle_keepsMining _ sha
  | _ => cases hobj

theorem Busy.recv (h : p.Busy) (hr : p.layer.blocktree.Rooted) {source : N}
    {obj : MessageObject H A} (hf : p.recv sha nb source obj = .ok (p', out)) : p'.Busy := by
  cases recv_ok hr hf with
  | tx hobj _ => exact h.recvTx hobj hf
  | blkAlone _ => exact fun hq => afterBlk_keepsMining (h hq) _
  | blkNext _ _ => exact fun hq => afterBlk_keepsMining (h hq) _
  | blkLast _ _ => exact fun hq => afterBlk_keepsMining (h hq) _
  | _ => exact h

end PoWNode

/-- **The miner never stalls** in a run in which no idle miner is left with
transactions to spare after its own block. -/
theorem keepsBusy_of_spare [DecidableEq N] [DecidableEq H] [Zero H] [Zero A]
    {sha : Sha256 H A} (h : (openSys sha).Under PoWNode.NoSpare p) : p.Busy := by
  refine h.invariant (P := PoWNode.Busy) ?_ ?_
  · rintro p rfl _ hn
    have h0 : (PoWNode.init sha : PoWNode N H A).layer.txPool.getPendingTxNum = 0 :=
      TxPool.getPendingTxNum_empty
    rw [h0] at hn
    exact absurd hn (by decide)
  · intro p a p' hu hb hc hs
    have hr := rooted_of_open hu
    obtain ⟨out, hs⟩ := hs
    cases a with
    | fire nb l => exact hb.fire hr hc hs
    | recv nb source obj => exact hb.recv hr (Option.some.inj hs)

end Miner

/-- A node that generates `n` transactions. -/
def generate (n : Nat) : List (OpenAct Nat Nat Nat) :=
  (List.range n).map fun i => .fire [] (.txgen i 0 0 0)

/-- The current candidate is mined, and the block handled. -/
def mineOne (nonce : Nat) : List (OpenAct Nat Nat Nat) :=
  [.fire [] (.miningTimer nonce 0), .fire [] .blockMiningComplete]

/-- A test of the condition: the miner runs, or more than one block is queued, or
the pool holds no more than the block's own transactions. -/
def noSpareCheck (p : PoWNode Nat Nat Nat) : OpenAct Nat Nat Nat → Bool
  | .fire _ .blockMiningComplete =>
      p.queue.all fun b => (p.layer.txPool.removeTxs b.txids).getPendingTxNum < txNumPerBlock
  | _ => true

theorem noSpare_of_check {p : PoWNode Nat Nat Nat} {a : OpenAct Nat Nat Nat}
    (h : noSpareCheck p a = true) : p.NoSpare a := by
  cases a with
  | recv nb source obj => trivial
  | fire nb l =>
      cases l with
      | blockMiningComplete =>
          intro b hq _ hspare
          have hlt := List.all_eq_true.mp h b (hq ▸ List.mem_cons_self)
          have hle := (PoWNode.spare_iff p b).mp hspare
          exact absurd hle (Nat.not_le.mpr (of_decide_eq_true hlt))
      | _ => trivial

/-- Two transactions are mined, and two more are being mined. -/
theorem keepsBusy_twoBlocks : ∃ p : PoWNode Nat Nat Nat,
    (openSys nonceSha).Under PoWNode.NoSpare p ∧
    p.queue = [] ∧ txNumPerBlock ≤ p.layer.txPool.getPendingTxNum ∧
    p.layer.powMiner.isMining = true := by
  have hrun : ((openRun nonceSha noSpareCheck (generate 2 ++ mineOne 7 ++ generate 2)).map
      fun p : PoWNode Nat Nat Nat => decide (p.queue = [] ∧ p.layer.blkPool.length = 1 ∧
        txNumPerBlock ≤ p.layer.txPool.getPendingTxNum)) = some true := by decide +kernel
  obtain ⟨p, hp, hv⟩ := Option.map_eq_some_iff.mp hrun
  obtain ⟨hq, -, hn⟩ := of_decide_eq_true hv
  have hu : (openSys nonceSha).Under PoWNode.NoSpare p :=
    (openRun_under hp).mono fun _ _ _ => noSpare_of_check
  exact ⟨p, hu, hq, hn, keepsBusy_of_spare hu hq hn⟩

/-- Four transactions are generated and one block is mined: two transactions are
left, and nobody mines. -/
theorem stalls : ∃ p : PoWNode Nat Nat Nat, (openSys nonceSha).Reach p ∧ p.queue = [] ∧
    txNumPerBlock ≤ p.layer.txPool.getPendingTxNum ∧ p.layer.powMiner.isMining = false := by
  have hrun : ((openRun nonceSha (fun _ _ => true) (generate 4 ++ mineOne 7)).map
      fun p : PoWNode Nat Nat Nat => decide (p.queue = [] ∧
        txNumPerBlock ≤ p.layer.txPool.getPendingTxNum ∧ p.layer.powMiner.isMining = false)) =
      some true := by decide +kernel
  obtain ⟨p, hp, hv⟩ := Option.map_eq_some_iff.mp hrun
  exact ⟨p, (openRun_under hp).reach, of_decide_eq_true hv⟩

end Bleep
