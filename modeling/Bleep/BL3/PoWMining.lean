/-
# `Bleep.BL3.PoWMining` — what the miner works on

A candidate is made from the tip and the pool and then frozen.  It stays good as
long as tip and path stay as they are, so the question is which step changes
them under a running miner.  The block handler does, and restarts the miner;
`EmuBlockMiningComplete` does, and does not (`mines_stale`).

Three things must not happen in a run, and then the miner never works on stale
data (`neverStale_of_timely`):

  * a mined block that extends the tip is handled while the miner runs — a
    restart got in between its mining and its handling;
  * a transaction that is on the tip's path already enters the pool — neither
    the generator nor the gossip looks at the chain;
  * a received block moves the tip to another branch, and a transaction left in
    the pool is on that branch.

The node that handles a mined block extending the tip while it mines is stale
right afterwards (`stale_of_completed`), so the first of the three cannot be
dropped.
-/
import Bleep.BL3.PoWTxs
import Bleep.BL3.TxPoolHistory

namespace Bleep

open Protocol BlockTree SimpleTransactionId

variable {N H A : Type} [DecidableEq H]

namespace PoWNode

/-! ## What a block does to the tip -/

/-- The candidate a running miner works on. -/
structure Current (t : BlockTree H A) (c : POWBlock H A) : Prop where
  prev : c.prev_block_hash = t.lasthash
  idx : c.block_idx = t.treeheight
  full : c.tx_list.length = txNumPerBlock
  unspent : ∀ tx ∈ c.tx_list, ¬ OnTip t tx.getId

/-- A queued block extends the tip or comes too late to move it. -/
def Belated (t : BlockTree H A) (b : POWBlock H A) : Prop :=
  b.prev_block_hash = t.lasthash ∧ b.block_idx = t.treeheight ∨ b.block_idx < t.treeheight

section Tip

variable {t : BlockTree H A} {b : POWBlock H A}

/-- The tip and the height stay, or the block becomes the tip and the height
grows. -/
theorem tip_cases (hr : t.Rooted) (b : POWBlock H A) :
    ((t.linkBlock b).lasthash = t.lasthash ∧ (t.linkBlock b).treeheight = t.treeheight) ∨
      (t.containBlock b.prev_block_hash = true ∧ (t.linkBlock b).lasthash = b.block_hash ∧
        t.treeheight < (t.linkBlock b).treeheight ∧
        (t.lasthash = b.prev_block_hash ∨
          t.lasthash ≠ b.prev_block_hash ∧ t.treeheight ≤ b.block_idx)) := by
  rcases t.linkBlock_cases b with ⟨-, he⟩ | ⟨hp, -, -, htip⟩
  · rw [he]
    exact .inl ⟨rfl, rfl⟩
  · rw [hr.containBlockHash_eq] at hp
    rcases htip with ⟨hl, hn, hh⟩ | ⟨hl, hi, hn, hh⟩ | ⟨-, -, hn, hh⟩
    · exact .inr ⟨hp, hn, by omega, .inl hl⟩
    · exact .inr ⟨hp, hn, by omega, .inr ⟨hl, hi⟩⟩
    · exact .inl ⟨hn, hh⟩

theorem onTip_of_linkBlock (hr : t.Rooted) (hl : (t.linkBlock b).lasthash = t.lasthash)
    {tid : SimpleTransactionId H A} (h : OnTip (t.linkBlock b) tid) : OnTip t tid := by
  rw [OnTip, hl] at h
  exact h.of_linkBlock hr hr.tip

theorem stores_linkBlock_of_new (hr : t.Rooted)
    (hp : t.containBlock b.prev_block_hash = true) (hnew : t.containBlock b.block_hash = false) :
    (t.linkBlock b).Stores b.block_hash b := by
  refine ⟨some b.prev_block_hash, ?_⟩
  rw [entry_linkBlock, if_pos]
  · rfl
  · rw [hr.containBlockHash_eq, hr.containBlockHash_eq]
    exact ⟨hp, rfl, hnew⟩

theorem Current.linkBlock (hr : t.Rooted) (hl : (t.linkBlock b).lasthash = t.lasthash)
    (hh : (t.linkBlock b).treeheight = t.treeheight) {c : POWBlock H A} (h : Current t c) :
    Current (t.linkBlock b) c where
  prev := h.prev.trans hl.symm
  idx := h.idx.trans hh.symm
  full := h.full
  unspent tx htx hon := h.unspent tx htx (onTip_of_linkBlock hr hl hon)

theorem Belated.linkBlock (hr : t.Rooted) (b : POWBlock H A) {b' : POWBlock H A}
    (h : Belated t b') : Belated (t.linkBlock b) b' := by
  rcases tip_cases hr b with ⟨hl, hh⟩ | ⟨-, -, hh, -⟩
  · rw [Belated, hl, hh]
    exact h
  · refine .inr ?_
    rcases h with ⟨-, hidx⟩ | hidx
    · omega
    · omega

end Tip

/-! ## Not mining on stale data -/

variable [LinearOrder A]

/-- What holds of a node that does not mine on stale data: once the queue is
drained, a running miner's candidate is on the tip, full, and made of
transactions that no block of the chain contains. -/
def NeverStale (p : PoWNode N H A) : Prop :=
  p.queue = [] → p.layer.powMiner.isMining = true →
    ∃ c, p.layer.powMiner.candidateBlk = some c ∧
      c.prev_block_hash = p.layer.blocktree.lasthash ∧
      c.block_idx = p.layer.blocktree.treeheight ∧
      c.tx_list.length = txNumPerBlock ∧
      ∀ tx ∈ c.tx_list, ¬ OnTip p.layer.blocktree tx.getId

/-- The transaction is in the pool already, or not on the tip's path. -/
def Unspent (p : PoWNode N H A) (tid : SimpleTransactionId H A) : Prop :=
  p.layer.txPool.containTx tid = true ∨ ¬ OnTip p.layer.blocktree tid

/-- The condition on local actions. -/
def FireTimely (p : PoWNode N H A) (l : PoWAct H A) : Prop :=
  (∀ tid, l.Brings tid → p.Unspent tid) ∧
    ∀ b ∈ p.queue.head?, l = .blockMiningComplete →
      b.prev_block_hash = p.layer.blocktree.lasthash →
        p.layer.powMiner.isMining = false ∧ p.layer.blocktree.containBlock b.block_hash = false

/-- The condition on messages. -/
def RecvTimely (p : PoWNode N H A) (obj : MessageObject H A) : Prop :=
  (∀ tid, obj.Brings tid → p.Unspent tid) ∧
    ∀ b, obj = .blkBlk b → p.layer.blocktree.containBlock b.block_hash = false →
      p.layer.blocktree.lasthash ≠ b.prev_block_hash →
      p.layer.blocktree.treeheight ≤ b.block_idx →
      ∀ tid, p.layer.txPool.containTx tid = true → (∀ x ∈ b.txids, ¬ SameKey tid x) →
        ¬ OnPath p.layer.blocktree b.prev_block_hash tid

/-! ## The invariant of a node -/

structure MineOK (p : PoWNode N H A) : Prop where
  /-- No pending transaction is on the tip's path. -/
  pool : ∀ tid, p.layer.txPool.containTx tid = true → ¬ OnTip p.layer.blocktree tid
  mining : p.layer.powMiner.isMining = true →
    ∃ c, p.layer.powMiner.candidateBlk = some c ∧ Current p.layer.blocktree c
  timer : p.layer.powMiner.timer = true → p.layer.powMiner.isMining = true
  queue : ∀ b ∈ p.queue, Belated p.layer.blocktree b

theorem MineOK.neverStale {p : PoWNode N H A} (h : MineOK p) : p.NeverStale := by
  intro _ hm
  obtain ⟨c, hc, hcur⟩ := h.mining hm
  exact ⟨c, hc, hcur.prev, hcur.idx, hcur.full, hcur.unspent⟩

theorem Current.of_fresh [Zero H] {sha : Sha256 H A} {L : BL_ProtocolLayerPoW H A}
    (h : L.Fresh sha) (hpool : ∀ tid, L.txPool.containTx tid = true → ¬ OnTip L.blocktree tid) :
    Current L.blocktree (L.makeCandidateBlock sha) where
  prev := rfl
  idx := rfl
  full := L.txPool.length_getTxs h.pending
  unspent tx htx := by
    refine hpool _ ((TxPool.containTx_iff _).mpr ⟨tx, ?_, .refl _⟩)
    exact L.txPool.has_of_mem_getTxs htx

/-! ## Steps of a node -/

section Step

variable {sha : Sha256 H A} {nb : List N} {p p' : PoWNode N H A} {out : Sends N H A}

theorem MineOK.congr (h : MineOK p) (ht : p'.layer.blocktree = p.layer.blocktree)
    (hp : p'.layer.txPool = p.layer.txPool) (hm : p'.layer.powMiner = p.layer.powMiner)
    (hq : p'.queue = p.queue) : MineOK p' where
  pool := by rw [ht, hp]; exact h.pool
  mining := by rw [ht, hm]; exact h.mining
  timer := by rw [hm]; exact h.timer
  queue := by rw [ht, hq]; exact h.queue

theorem MineOK.mineStep {b : POWBlock H A} (h : MineOK p) (hs : MineStep sha p p' b) :
    MineOK p' := by
  obtain ⟨c, nonce, timestamp, hc, rfl⟩ := hs.block
  obtain ⟨c', hc', hcur⟩ := h.mining (h.timer hs.running)
  obtain rfl := Option.some.inj (hc.symm.trans hc')
  have htree : p'.layer.blocktree = p.layer.blocktree := by rw [hs.layer]
  refine ⟨?_, ?_, ?_, ?_⟩
  · rw [hs.layer]
    exact h.pool
  · rw [hs.layer]
    exact nofun
  · rw [hs.layer]
    exact nofun
  · intro b hb
    rw [htree]
    rw [hs.queue] at hb
    rcases List.mem_append.mp hb with hb | hb
    · exact h.queue b hb
    · rw [List.mem_singleton.mp hb]
      exact .inl ⟨hcur.prev, hcur.idx⟩

theorem pool_of_linked {t : BlockTree H A} (hr : t.Rooted) {b : POWBlock H A}
    {pool : TxPool H A} (hp : t.containBlock b.prev_block_hash = true)
    (hself : (t.linkBlock b).Stores b.block_hash b)
    (htip : (t.linkBlock b).lasthash = b.block_hash)
    (hoff : ∀ tid, pool.containTx tid = true → (∀ x ∈ b.txids, ¬ SameKey tid x) →
      ¬ OnPath t b.prev_block_hash tid) :
    ∀ tid, (pool.removeTxs b.txids).containTx tid = true → ¬ OnTip (t.linkBlock b) tid := by
  intro tid htid hon
  obtain ⟨hb, htid⟩ := (pool.containTx_removeTxs _ _).mp htid
  rw [OnTip, htip] at hon
  rcases hon.of_linked hr hp hself with ⟨x, hx, hsame⟩ | hon
  · exact hb x hx hsame
  · exact hoff tid htid hb hon

/-- The pool after a block was linked in and its transactions were taken out: a block
that moves the tip is stored, and its branch has none of the other transactions. -/
theorem pool_linkBlock {t : BlockTree H A} (hr : t.Rooted) {b : POWBlock H A} {pool : TxPool H A}
    (h : ∀ tid, pool.containTx tid = true → ¬ OnTip t tid)
    (hself : t.containBlock b.prev_block_hash = true →
      t.lasthash = b.prev_block_hash ∨ t.treeheight ≤ b.block_idx →
      (t.linkBlock b).Stores b.block_hash b)
    (hoff : t.lasthash ≠ b.prev_block_hash → t.treeheight ≤ b.block_idx →
      ∀ tid, pool.containTx tid = true → (∀ x ∈ b.txids, ¬ SameKey tid x) →
        ¬ OnPath t b.prev_block_hash tid) :
    ∀ tid, (pool.removeTxs b.txids).containTx tid = true → ¬ OnTip (t.linkBlock b) tid := by
  rcases tip_cases hr b with ⟨hl, -⟩ | ⟨hp, hl, -, hmove⟩
  · intro tid htid hon
    have hin := ((pool.containTx_removeTxs _ _).mp htid).2
    exact h tid hin (onTip_of_linkBlock hr hl hon)
  · refine pool_of_linked hr hp (hself hp (hmove.imp_right And.right)) hl ?_
    rcases hmove with hext | ⟨hne, hidx⟩
    · intro tid htid _
      rw [← hext]
      exact h tid htid
    · exact hoff hne hidx

/-- A mined block is handled: unless it extends the tip it leaves the tip alone,
and if it does the miner is idle. -/
theorem MineOK.completed (h : MineOK p) (hr : p.layer.blocktree.Rooted) {b : POWBlock H A}
    {queue : List (POWBlock H A)} (hq : p.queue = b :: queue)
    (hidle : b.prev_block_hash = p.layer.blocktree.lasthash →
      p.layer.powMiner.isMining = false ∧ p.layer.blocktree.containBlock b.block_hash = false) :
    MineOK { p with layer := p.layer.completed b, queue } := by
  have hbq : Belated p.layer.blocktree b := h.queue b (hq ▸ List.mem_cons_self)
  -- a block that moves the tip extends it
  have hext : p.layer.blocktree.lasthash = b.prev_block_hash ∨
      p.layer.blocktree.treeheight ≤ b.block_idx →
      b.prev_block_hash = p.layer.blocktree.lasthash := by
    rintro (hl | hidx)
    · exact hl.symm
    · rcases hbq with hb | hb
      · exact hb.1
      · omega
  refine ⟨?_, ?_, h.timer, ?_⟩
  · refine pool_linkBlock hr h.pool (fun hp hmove => ?_) fun hne hidx => ?_
    · exact stores_linkBlock_of_new hr hp (hidle (hext hmove)).2
    · exact absurd (hext (.inr hidx)).symm hne
  · intro hm
    obtain ⟨c, hc, hcur⟩ := h.mining hm
    rcases tip_cases hr b with ⟨hl, hh⟩ | ⟨-, -, -, hmove⟩
    · exact ⟨c, hc, hcur.linkBlock hr hl hh⟩
    · exact nomatch (hidle (hext (hmove.imp_right And.right))).1.symm.trans hm
  · intro b' hb'
    have hb : b' ∈ p.queue := hq ▸ List.mem_cons_of_mem _ hb'
    exact (h.queue b' hb).linkBlock hr b

variable [Zero H]

/-- If no pending transaction is on the tip's path and none that comes in is spent, none
is afterwards. -/
theorem pool_txStep {new : SimpleTransactionId H A → Prop}
    (h : ∀ tid, p.layer.txPool.containTx tid = true → ¬ OnTip p.layer.blocktree tid)
    (hs : TxStep sha new p p' out) (hnew : ∀ tid, new tid → p.Unspent tid) :
    ∀ tid, p'.layer.txPool.containTx tid = true → ¬ OnTip p'.layer.blocktree tid := by
  intro tid ht
  rw [hs.chain.blocktree]
  rcases (hs.pool tid).mp ht with hn | ht
  · rcases hnew tid hn with ht | hoff
    · exact h tid ht
    · exact hoff
  · exact h tid ht

theorem MineOK.txStep {new : SimpleTransactionId H A → Prop} (h : MineOK p)
    (hs : TxStep sha new p p' out) (hnew : ∀ tid, new tid → p.Unspent tid) : MineOK p' := by
  have hpool := pool_txStep h.pool hs hnew
  refine ⟨hpool, ?_, ?_, ?_⟩
  · intro hm
    rcases hs.miner with he | hf
    · rw [hs.chain.blocktree, he]
      exact h.mining (he ▸ hm)
    · exact ⟨_, by rw [hf.miner], Current.of_fresh hf hpool⟩
  · intro ht
    rcases hs.miner with he | hf
    · rw [he] at ht ⊢
      exact h.timer ht
    · rw [hf.miner]
  · rw [hs.queue, hs.chain.blocktree]
    exact h.queue

/-- A received block is handled: if it moves the tip, mining is restarted. -/
theorem MineOK.afterBlk (h : MineOK p) (hr : p.layer.blocktree.Rooted) {b : POWBlock H A}
    (hoff : p.layer.blocktree.containBlock b.block_hash = false →
      p.layer.blocktree.lasthash ≠ b.prev_block_hash →
      p.layer.blocktree.treeheight ≤ b.block_idx →
      ∀ tid, p.layer.txPool.containTx tid = true → (∀ x ∈ b.txids, ¬ SameKey tid x) →
        ¬ OnPath p.layer.blocktree b.prev_block_hash tid) :
    MineOK { p with layer := p.layer.afterBlk sha b } := by
  cases hc : p.layer.blocktree.containBlock b.block_hash with
  | true =>
      have hsame : p.layer.accepted b = p.layer := if_pos hc
      have heq : p.layer.afterBlk sha b = p.layer :=
        (BL_ProtocolLayerPoW.afterBlk_of_tip_eq sha (by rw [hsame])).trans hsame
      rw [heq]
      exact h
  | false =>
      have hacc : p.layer.accepted b = { p.layer.mapTxPool (·.removeTxs b.txids) with
          blocktree := p.layer.blocktree.linkBlock b } := if_neg (by rw [hc]; exact nofun)
      have hq : ∀ b' ∈ p.queue, Belated (p.layer.blocktree.linkBlock b) b' := fun b' hb' =>
        (h.queue b' hb').linkBlock hr b
      have hlinked := pool_linkBlock hr h.pool (fun hp _ => stores_linkBlock_of_new hr hp hc)
        (hoff hc)
      rcases tip_cases hr b with ⟨hl, hh⟩ | ⟨-, hl, -, -⟩
      · have heq : p.layer.afterBlk sha b = p.layer.accepted b := by
          refine BL_ProtocolLayerPoW.afterBlk_of_tip_eq sha ?_
          rw [hacc]
          exact hl.symm
        rw [heq, hacc]
        refine ⟨hlinked, fun hm => ?_, h.timer, hq⟩
        obtain ⟨c, hcand, hcur⟩ := h.mining hm
        exact ⟨c, hcand, hcur.linkBlock hr hl hh⟩
      · -- the old tip is stored and the block was not, so the tip differs
        have hne : p.layer.blocktree.lasthash ≠ b.block_hash := by
          intro he
          rw [← he, hr.tip] at hc
          exact nomatch hc
        have heq : p.layer.afterBlk sha b = (p.layer.accepted b).restartMining sha := by
          refine BL_ProtocolLayerPoW.afterBlk_of_tip_ne sha ?_
          rw [hacc]
          exact fun he => hne (he.trans hl)
        have hu := (p.layer.accepted b).restartMining_untouched sha
        have htree : ((p.layer.accepted b).restartMining sha).blocktree =
            p.layer.blocktree.linkBlock b := by rw [hu.blocktree, hacc]
        have hpool : ∀ tid, ((p.layer.accepted b).restartMining sha).txPool.containTx tid = true →
            ¬ OnTip ((p.layer.accepted b).restartMining sha).blocktree tid := by
          rw [htree, BL_ProtocolLayerPoW.txPool, hu.gossip, hacc]
          exact hlinked
        rw [heq]
        refine ⟨hpool, ?_, ?_, htree ▸ hq⟩
        · intro hm
          rcases (p.layer.accepted b).restartMining_miner sha with hf | ⟨hidle, -⟩
          · exact ⟨_, by rw [hf.miner], Current.of_fresh hf hpool⟩
          · exact nomatch hidle.symm.trans hm
        · intro ht
          rcases (p.layer.accepted b).restartMining_miner sha with hf | ⟨-, -, hrun⟩
          · rw [hf.miner]
          · obtain ⟨hidle, htimer⟩ := hrun ht
            obtain ⟨-, -, hm, -⟩ := p.layer.accepted_frame b
            rw [hm] at hidle htimer
            exact nomatch hidle.symm.trans (h.timer htimer)

theorem MineOK.fire (h : MineOK p) (hr : p.layer.blocktree.Rooted) {l : PoWAct H A}
    (hc : p.FireTimely l) (hf : p.fire sha nb l = some (.ok (p', out))) : MineOK p' := by
  rcases fire_ok hr hf with htx | ⟨b, hmine, -⟩ | ⟨b, queue, hq, rfl, -, hl⟩
  · exact h.txStep htx hc.1
  · exact h.mineStep hmine
  · exact h.completed hr hq (hc.2 b (hq ▸ rfl) hl)

theorem MineOK.recv [DecidableEq N] (h : MineOK p) (hr : p.layer.blocktree.Rooted) {source : N}
    {obj : MessageObject H A} (hc : p.RecvTimely obj)
    (hf : p.recv sha nb source obj = .ok (p', out)) : MineOK p' := by
  cases recv_ok hr hf with
  | tx _ htx => exact h.txStep htx hc.1
  | @blkAlone b _ => exact h.afterBlk hr (hc.2 b rfl)
  | @blkNext b _ _ _ => exact h.afterBlk hr (hc.2 b rfl)
  | @blkLast b _ _ =>
      have hb : MineOK { p with layer := p.layer.afterBlk sha b } := h.afterBlk hr (hc.2 b rfl)
      exact hb.congr rfl rfl rfl rfl
  | _ => exact h.congr rfl rfl rfl rfl

/-! ### What is frozen into a candidate

Whatever happens, a candidate and the block it becomes were made from a tip and a
pool. -/

/-- A candidate or a mined block extends the tip or comes too late to move it, and
lists no transaction twice. -/
structure Frozen (t : BlockTree H A) (b : POWBlock H A) : Prop where
  belated : Belated t b
  distinct : b.txids.Pairwise fun x y => ¬ SameKey x y

structure FrozenOK (p : PoWNode N H A) : Prop where
  timer : p.layer.powMiner.timer = true →
    ∃ c, p.layer.powMiner.candidateBlk = some c ∧ Frozen p.layer.blocktree c
  queue : ∀ b ∈ p.queue, Frozen p.layer.blocktree b

omit [DecidableEq H] in
theorem frozen_makeCandidateBlock (sha : Sha256 H A) (L : BL_ProtocolLayerPoW H A) :
    Frozen L.blocktree (L.makeCandidateBlock sha) where
  belated := .inl ⟨rfl, rfl⟩
  distinct := by
    show ((L.txPool.getTxs txNumPerBlock).map SimpleTransaction.getId).Pairwise _
    exact List.pairwise_map.mpr (L.txPool.getTxs_pairwise _)

omit [LinearOrder A] [Zero H] in
theorem Frozen.linkBlock {t : BlockTree H A} (hr : t.Rooted) (b : POWBlock H A)
    {b' : POWBlock H A} (h : Frozen t b') : Frozen (t.linkBlock b) b' :=
  ⟨h.belated.linkBlock hr b, h.distinct⟩

omit [DecidableEq H] in
theorem FrozenOK.txStep {new : SimpleTransactionId H A → Prop} (h : FrozenOK p)
    (hs : TxStep sha new p p' out) : FrozenOK p' := by
  refine ⟨fun ht => ?_, ?_⟩
  · rcases hs.miner with he | hfresh
    · rw [he] at ht ⊢
      rw [hs.chain.blocktree]
      exact h.timer ht
    · exact ⟨_, by rw [hfresh.miner], frozen_makeCandidateBlock sha _⟩
  · rw [hs.queue, hs.chain.blocktree]
    exact h.queue

theorem FrozenOK.fire (h : FrozenOK p) (hr : p.layer.blocktree.Rooted) {l : PoWAct H A}
    (hf : p.fire sha nb l = some (.ok (p', out))) : FrozenOK p' := by
  rcases fire_ok hr hf with htx | ⟨b, hmine, -⟩ | ⟨b, queue, hq, rfl, -, -⟩
  · exact h.txStep htx
  · obtain ⟨c, nonce, timestamp, hc, rfl⟩ := hmine.block
    obtain ⟨c', hc', hfc⟩ := h.timer hmine.running
    obtain rfl := Option.some.inj (hc.symm.trans hc')
    have htree : p'.layer.blocktree = p.layer.blocktree := by rw [hmine.layer]
    refine ⟨?_, ?_⟩
    · rw [hmine.layer]
      exact nofun
    · intro b hb
      rw [htree]
      rw [hmine.queue] at hb
      rcases List.mem_append.mp hb with hb | hb
      · exact h.queue b hb
      · rw [List.mem_singleton.mp hb]
        exact ⟨hfc.belated, hfc.distinct⟩
  · refine ⟨fun ht => ?_, fun b' hb' => ?_⟩
    · obtain ⟨c, hc, hfc⟩ := h.timer ht
      exact ⟨c, hc, hfc.linkBlock hr b⟩
    · exact (h.queue b' (hq ▸ List.mem_cons_of_mem _ hb')).linkBlock hr b

theorem FrozenOK.afterBlk (h : FrozenOK p) (hr : p.layer.blocktree.Rooted) (b : POWBlock H A) :
    FrozenOK { p with layer := p.layer.afterBlk sha b } := by
  have hu := p.layer.afterBlk_untouched sha b
  have htree : ∀ {b' : POWBlock H A}, Frozen p.layer.blocktree b' →
      Frozen (p.layer.afterBlk sha b).blocktree b' := by
    intro b' hb'
    rw [hu.blocktree, BL_ProtocolLayerPoW.accepted_blocktree]
    split
    · exact hb'
    · exact hb'.linkBlock hr b
  refine ⟨fun ht => ?_, fun b' hb' => htree (h.queue b' hb')⟩
  rcases p.layer.afterBlk_miner sha b with hf | ⟨hc, hrun⟩
  · exact ⟨_, by rw [hf.miner], frozen_makeCandidateBlock sha _⟩
  · obtain ⟨c, hc', hfc⟩ := h.timer (hrun ht)
    exact ⟨c, hc.trans hc', htree hfc⟩

theorem FrozenOK.recv [DecidableEq N] (h : FrozenOK p) (hr : p.layer.blocktree.Rooted)
    {source : N} {obj : MessageObject H A} (hf : p.recv sha nb source obj = .ok (p', out)) :
    FrozenOK p' := by
  cases recv_ok hr hf with
  | tx _ htx => exact h.txStep htx
  | @blkAlone b _ => exact h.afterBlk hr b
  | @blkNext b _ _ _ => exact h.afterBlk hr b
  | @blkLast b _ _ =>
      have hafter : FrozenOK { p with layer := p.layer.afterBlk sha b } := h.afterBlk hr b
      exact ⟨hafter.timer, hafter.queue⟩
  | _ => exact ⟨h.timer, h.queue⟩

end Step

theorem frozenOK_init [Zero H] [Zero A] (sha : Sha256 H A) :
    FrozenOK (.init sha : PoWNode N H A) where
  timer := nofun
  queue _ hb := nomatch hb

end PoWNode

/-! ## Runs -/

variable [LinearOrder A] {sha : Sha256 H A} {nbrs : N → List N} {c : PoWConfig N H A}

/-- The condition on the actions of a run. -/
def Timely (c : PoWConfig N H A) : Act N (PoWAct H A) → Prop
  | .fire n l => (c.node n).FireTimely l
  | .deliver i => ∀ pk ∈ c.wire[i]?, (c.node pk.dest).RecvTimely pk.body
  | .lose _ => True

/-- A test of the condition for runs of one node. -/
def timelyCheck (c : PoWConfig N H A) : Act N (PoWAct H A) → Bool
  | .fire n (.txgen sid rid a hash) =>
      decide (∀ x ∈ tipTxids (c.node n).layer.blocktree, ¬ SameKey ⟨sid, rid, a, hash⟩ x)
  | .fire n .blockMiningComplete =>
      !(c.node n).layer.powMiner.isMining &&
        (c.node n).queue.all fun b => !(c.node n).layer.blocktree.containBlock b.block_hash
  | .fire _ _ => true
  | _ => false

theorem timely_of_check (hr : ∀ n, (c.node n).layer.blocktree.Rooted) {a : Act N (PoWAct H A)}
    (h : timelyCheck c a = true) : Timely c a := by
  cases a with
  | fire n l =>
      cases l with
      | txgen sid rid amount hash =>
          refine ⟨fun tid htid => .inr fun hon => ?_, fun _ _ hl => by cases hl⟩
          obtain ⟨x, hx, hsame⟩ := (onTip_iff (hr n)).mp hon
          exact of_decide_eq_true h x hx (htid.symm.trans hsame)
      | blockMiningComplete =>
          obtain ⟨hidle, hnew⟩ := Bool.and_eq_true_iff.mp h
          refine ⟨fun _ htid => htid.elim, fun b hb _ _ => ⟨by simpa using hidle, ?_⟩⟩
          have hmem := List.mem_of_mem_head? hb
          simpa using List.all_eq_true.mp hnew b hmem
      | txbroadcast => exact ⟨fun _ htid => htid.elim, fun _ _ hl => by cases hl⟩
      | miningTimer nonce timestamp => exact ⟨fun _ htid => htid.elim, fun _ _ hl => by cases hl⟩
  | deliver i => cases h
  | lose i => cases h

open PoWNode in
theorem mineOK_init [Zero H] [Zero A] : MineOK (.init sha : PoWNode N H A) where
  pool tid h := nomatch (TxPool.containTx_empty tid).symm.trans h
  mining := nofun
  timer := nofun
  queue _ hb := nomatch hb

variable [DecidableEq N] [Zero H] [Zero A]

theorem mineOK_of_timely (h : (powSys sha nbrs).Under Timely c) (n : N) :
    PoWNode.MineOK (c.node n) := by
  refine h.invariant (P := fun c => ∀ n, PoWNode.MineOK (c.node n)) ?_ ?_ n
  · rintro c rfl n
    exact mineOK_init
  · intro c a c' hu hok hc hs m
    have hr := rooted_of_reach hu.reach
    cases hs with
    | @fire n l _ _ hf =>
        exact c.forall_post (R := fun _ q => PoWNode.MineOK q) _ _ _ _
          ((hok n).fire (hr n) hc hf) (fun k _ => hok k) m
    | @deliver i pk _ _ hpk hf =>
        exact c.forall_post (R := fun _ q => PoWNode.MineOK q) _ _ _ _
          ((hok pk.dest).recv (hr pk.dest) (hc pk hpk) hf) (fun k _ => hok k) m
    | lose _ => exact hok m

/-- **A node never mines on stale data** in a run whose steps are all timely. -/
theorem neverStale_of_timely (h : (powSys sha nbrs).Under Timely c) (n : N) :
    (c.node n).NeverStale :=
  (mineOK_of_timely h n).neverStale

/-- A node that mines again on the block it mined. -/
theorem neverStale_mineAgain : ∃ c, (powSys nonceSha theOther).Under Timely c ∧
    (c.node 0).queue = [] ∧ (c.node 0).layer.powMiner.isMining = true ∧
    ∃ b, (c.node 0).layer.powMiner.candidateBlk = some b ∧
      b.prev_block_hash = (c.node 0).layer.blocktree.lasthash ∧ b.block_idx = 2 := by
  have hrun : (((powProtocol nonceSha theOther).run timelyCheck
      (mineAt 0 7 ++ (mineAt 0 8).take 2)).map fun c : PoWConfig (Fin 2) Nat Nat =>
        decide ((c.node 0).queue = [] ∧ (c.node 0).layer.powMiner.isMining = true ∧
          (c.node 0).layer.blocktree.treeheight = 2)) = some true := by decide +kernel
  obtain ⟨c, hc, hv⟩ := Option.map_eq_some_iff.mp hrun
  obtain ⟨hq, hm, hh⟩ := of_decide_eq_true hv
  have hu : (powSys nonceSha theOther).Under Timely c :=
    ((powProtocol nonceSha theOther).run_under hc).mono fun _ _ hu =>
      timely_of_check (rooted_of_reach hu.reach)
  obtain ⟨b, hb, hprev, hidx, -⟩ := neverStale_of_timely hu 0 hq hm
  exact ⟨c, hu, hq, hm, b, hb, hprev, hidx.trans hh⟩

omit [DecidableEq N] [Zero A] in
/-- The node that mines while it handles a mined block extending the tip goes on
with its old candidate. -/
theorem stale_of_completed {p p' : PoWNode N H A} {out : Sends N H A} {nb : List N}
    (hr : p.layer.blocktree.Rooted) (hok : PoWNode.MineOK p) {b : POWBlock H A}
    (hq : p.queue = [b]) (hprev : b.prev_block_hash = p.layer.blocktree.lasthash)
    (hm : p.layer.powMiner.isMining = true)
    (hf : p.fire sha nb .blockMiningComplete = some (.ok (p', out))) : ¬ p'.NeverStale := by
  obtain ⟨c, hc, hcur⟩ := hok.mining hm
  have hp' : p' = { p with layer := p.layer.completed b, queue := [] } := by
    obtain ⟨b', queue, hq', hp', -⟩ := PoWNode.fire_blockMiningComplete hr hf
    obtain ⟨rfl, rfl⟩ := List.cons.inj (hq.symm.trans hq')
    exact hp'
  have hheight : p'.layer.blocktree.treeheight = p.layer.blocktree.treeheight + 1 := by
    rw [hp']
    rcases p.layer.blocktree.linkBlock_cases b with ⟨hno, -⟩ | ⟨-, -, -, ⟨-, -, hh⟩ | hother⟩
    · rw [hr.containBlockHash_eq, hprev, hr.tip] at hno
      exact nomatch hno
    · exact hh
    · exact absurd hprev.symm (hother.elim And.left And.left)
  intro hns
  obtain ⟨c', hc', -, hidx, -⟩ := hns (by rw [hp']) (by rw [hp']; exact hm)
  have hsame : p'.layer.powMiner.candidateBlk = some c := by
    rw [hp']
    exact hc
  obtain rfl := Option.some.inj (hc'.symm.trans hsame)
  have := hcur.idx
  omega

/-- The mining timer and the transaction timer run back to back: the miner is
restarted on the old tip before the mined block is handled. -/
def restartInBetween : List (Act (Fin 2) (PoWAct Nat Nat)) :=
  (mineAt 0 7).take 3 ++ [.fire 0 (.txgen 7 2 0 0), .fire 0 .blockMiningComplete]

/-- The miner works on the old tip, and on transactions of the new one. -/
theorem mines_stale : ∃ c, (powSys nonceSha theOther).Reach c ∧
    (c.node 0).queue = [] ∧ (c.node 0).layer.powMiner.isMining = true ∧
    ∃ b, (c.node 0).layer.powMiner.candidateBlk = some b ∧
      b.prev_block_hash ≠ (c.node 0).layer.blocktree.lasthash ∧
      b.block_idx ≠ (c.node 0).layer.blocktree.treeheight ∧
      ∀ tx ∈ b.tx_list, OnTip (c.node 0).layer.blocktree tx.getId := by
  have hrun : ((powProtocol nonceSha theOther).run (fun _ a => decide (Keeps a))
      restartInBetween).bind (fun c : PoWConfig (Fin 2) Nat Nat =>
        (c.node 0).layer.powMiner.candidateBlk.map fun b =>
          decide ((c.node 0).queue = [] ∧ (c.node 0).layer.powMiner.isMining = true ∧
            b.prev_block_hash ≠ (c.node 0).layer.blocktree.lasthash ∧
            b.block_idx ≠ (c.node 0).layer.blocktree.treeheight ∧
            ∀ tx ∈ b.tx_list, ∃ x ∈ tipTxids (c.node 0).layer.blocktree, SameKey tx.getId x)) =
      some true := by decide +kernel
  obtain ⟨c, hc, hrest⟩ := Option.bind_eq_some_iff.mp hrun
  obtain ⟨b, hb, hv⟩ := Option.map_eq_some_iff.mp hrest
  obtain ⟨hq, hm, hprev, hidx, htx⟩ := of_decide_eq_true hv
  have hr := ((powProtocol nonceSha theOther).run_under hc).reach
  refine ⟨c, hr, hq, hm, b, hb, hprev, hidx, fun tx h => ?_⟩
  exact (onTip_iff (rooted_of_reach hr 0)).mpr (htx tx h)

end Bleep
