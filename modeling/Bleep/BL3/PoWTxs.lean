/-
# `Bleep.BL3.PoWTxs` — where a transaction can go

A transaction leaves a pool in one way: it is in a block that the node appends,
one it received or one it mined.  Nothing brings it back when the tip moves to a
branch without that block.  So what holds of every transaction that was ever in
the pool is that it is still there or in *some* stored block (`tx_kept`), not
that it is there or in a block of the tip's chain (`tx_abandoned`).

Transactions are compared as the code compares them, by sender, receiver and
amount (`SameKey`).
-/
import Bleep.BL3.PoWSync

namespace Bleep

open Protocol BlockTree SimpleTransactionId

variable {N H A : Type} [DecidableEq H]

/-! ## The chain of the tip -/

/-- The transaction is in a block between this one and genesis. -/
def OnPath (t : BlockTree H A) (k : H) (tid : SimpleTransactionId H A) : Prop :=
  ∃ l x b, t.Path k l ∧ x ∈ l ∧ t.Stores x b ∧ ∃ y ∈ b.txids, SameKey tid y

/-- The transaction is in a block between the tip and genesis. -/
def OnTip (t : BlockTree H A) (tid : SimpleTransactionId H A) : Prop := OnPath t t.lasthash tid

/-- The ids of the transactions between the tip and genesis. -/
def tipTxids (t : BlockTree H A) : List (SimpleTransactionId H A) :=
  match t.getChainFromBlock t.genesis with
  | .ok l => l.flatMap fun k => (t.entry k).elim [] fun i => i.block.txids
  | .error _ => []

theorem onTip_iff {t : BlockTree H A} (hr : t.Rooted) {tid : SimpleTransactionId H A} :
    OnTip t tid ↔ ∃ x ∈ tipTxids t, SameKey tid x := by
  obtain ⟨i, l, -, hl⟩ := hr.toGrounded.tip_path
  simp only [tipTxids, getChainFromBlock_genesis hr.toGrounded hl, List.mem_flatMap]
  constructor
  · rintro ⟨l', k, b, hl', hk, ⟨p, hp⟩, x, hx, hsame⟩
    obtain rfl := hl.unique hl'
    exact ⟨x, ⟨k, hk, by rw [hp]; exact hx⟩, hsame⟩
  · rintro ⟨x, ⟨k, hk, hx⟩, hsame⟩
    cases he : t.entry k with
    | none =>
        rw [he] at hx
        exact nomatch hx
    | some i =>
        rw [he] at hx
        exact ⟨l, k, i.block, hl, hk, ⟨i.prevblockhash, he⟩, x, hx, hsame⟩

theorem OnPath.congr {t : BlockTree H A} {k : H} {x y : SimpleTransactionId H A}
    (hs : SameKey x y) (h : OnPath t k x) : OnPath t k y := by
  obtain ⟨l, x', b, hl, hx, hb, z, hz, hsame⟩ := h
  exact ⟨l, x', b, hl, hx, hb, z, hz, hs.symm.trans hsame⟩

theorem OnPath.of_linkBlock {t : BlockTree H A} (hr : t.Rooted) {b : POWBlock H A} {k : H}
    (hk : t.containBlock k = true) {tid : SimpleTransactionId H A}
    (h : OnPath (t.linkBlock b) k tid) : OnPath t k tid := by
  obtain ⟨l', x, c, hl', hx, hc, hin⟩ := h
  obtain ⟨i, hi⟩ := containBlock_iff.mp hk
  obtain ⟨l, hl⟩ := hr.path k i hi
  obtain rfl := (hl.linkBlock b).unique hl'
  obtain ⟨c', hc'⟩ := stores_iff.mp (hl.contain_of_mem hx)
  obtain rfl := hc.unique (hc'.linkBlock b)
  exact ⟨l, x, c, hl, hx, hc', hin⟩

/-- The path of a block just linked in is the block and the path of its parent. -/
theorem OnPath.of_linked {t : BlockTree H A} (hr : t.Rooted) {b : POWBlock H A}
    (hp : t.containBlock b.prev_block_hash = true)
    (hb : (t.linkBlock b).Stores b.block_hash b) {tid : SimpleTransactionId H A}
    (h : OnPath (t.linkBlock b) b.block_hash tid) :
    (∃ x ∈ b.txids, SameKey tid x) ∨ OnPath t b.prev_block_hash tid := by
  obtain ⟨l, x, c, hl, hx, hc, hin⟩ := h
  -- the transaction is in the block itself or further down
  have hself : x = b.block_hash → ∃ x ∈ b.txids, SameKey tid x := by
    rintro rfl
    exact hb.unique hc ▸ hin
  cases hl with
  | root _ _ => exact .inl (hself (List.mem_singleton.mp hx))
  | @link _ p i l hi hpred hl =>
      rcases List.mem_cons.mp hx with hx | hx
      · exact .inl (hself hx)
      · obtain ⟨q, hq⟩ := hb
        obtain rfl := Option.some.inj (hq.symm.trans hi)
        obtain rfl := (hr.linkBlock b).linked _ _ p hq hpred
        exact .inr (OnPath.of_linkBlock hr hp ⟨l, x, c, hl, hx, hc, hin⟩)

/-! ## Nothing is lost -/

variable [LinearOrder A] {p p' : PoWNode N H A} {tid : SimpleTransactionId H A}

/-- The transaction is in a block of the tree. -/
def InBlock (t : BlockTree H A) (tid : SimpleTransactionId H A) : Prop :=
  ∃ k b, t.Stores k b ∧ ∃ x ∈ b.txids, SameKey tid x

/-- The transaction is in the pool or in a block of the tree. -/
def Kept (p : PoWNode N H A) (tid : SimpleTransactionId H A) : Prop :=
  p.layer.txPool.containTx tid = true ∨ InBlock p.layer.blocktree tid

/-- Taking a stored block's transactions out of the pool keeps every
transaction. -/
theorem kept_of_removeTxs {q : PoWNode N H A} {t : BlockTree H A} {pool : TxPool H A}
    {b : POWBlock H A} {k : H} (h : pool.containTx tid = true ∨ InBlock t tid)
    (hgrow : ∀ k b, t.Stores k b → q.layer.blocktree.Stores k b)
    (hb : q.layer.blocktree.Stores k b) (hq : q.layer.txPool = pool.removeTxs b.txids) :
    Kept q tid := by
  rcases h with h | ⟨k', b', hb', hx⟩
  · by_cases hin : ∃ x ∈ b.txids, SameKey tid x
    · exact .inr ⟨k, b, hb, hin⟩
    · refine .inl ?_
      rw [hq, TxPool.containTx_removeTxs]
      exact ⟨fun x hx hsame => hin ⟨x, hx, hsame⟩, h⟩
  · exact .inr ⟨k', b', hgrow k' b' hb', hx⟩

theorem Kept.grows (h : Kept p tid) (hg : PoWNode.Grows p p')
    (hpool : ∀ tid, p.layer.txPool.containTx tid = true → p'.layer.txPool.containTx tid = true) :
    Kept p' tid := by
  rcases h with h | ⟨k, b, ⟨i, hi⟩, hx⟩
  · exact .inl (hpool tid h)
  · exact .inr ⟨k, b, ⟨i, hg.entry hi⟩, hx⟩

variable [Zero H] [Zero A] {sha : Sha256 H A} {mint : POWBlock H A → Prop} {nb : List N}
  {out : Sends N H A}

theorem Kept.fire (hi : Injective mint) (hok : NodeOK sha mint p)
    (hq : ∀ b ∈ p.queue, p.layer.blocktree.containBlock b.prev_block_hash = true) {l : PoWAct H A}
    (hf : p.fire sha nb l = some (.ok (p', out))) (h : Kept p tid) : Kept p' tid := by
  have hg := PoWNode.fire_grows hok.tree.rooted hf
  rcases PoWNode.fire_ok hok.tree.rooted hf with htx | ⟨b, hmine, -⟩ | ⟨b, q, hqb, rfl, -⟩
  · exact h.grows hg fun tid ht => (htx.pool tid).mpr (.inr ht)
  · refine h.grows hg fun _ => ?_
    rw [hmine.layer]
    exact id
  · have hbq : b ∈ p.queue := hqb ▸ List.mem_cons_self
    have hb := hok.tree.stores_linkBlock hi (hok.born b (.inr hbq)).1 (hq b hbq)
    exact kept_of_removeTxs h (fun k b' hb' => hb'.linkBlock b) hb rfl

theorem Kept.recv [DecidableEq N] (hi : Injective mint) (hok : NodeOK sha mint p) {source : N}
    {obj : MessageObject H A}
    (hobj : ∀ b, obj = .blkBlk b → mint b ∧
      p.layer.blocktree.containBlock b.prev_block_hash = true)
    (hr : p.recv sha nb source obj = .ok (p', out)) (h : Kept p tid) : Kept p' tid := by
  have hg := PoWNode.recv_grows hok.tree.rooted hr
  -- the block handler, whatever becomes of the inventory in hand
  have hblk : ∀ {b : POWBlock H A} {q : PoWNode N H A}, mint b →
      p.layer.blocktree.containBlock b.prev_block_hash = true →
      q.layer.blocktree = (p.layer.accepted b).blocktree →
      q.layer.txPool = (p.layer.accepted b).txPool → Kept q tid := by
    intro b q hb hprev ht hpool
    unfold BL_ProtocolLayerPoW.accepted at ht hpool
    split at ht
    · next hc =>
        rw [if_pos hc] at hpool
        exact h.imp (hpool ▸ ·) (ht ▸ ·)
    · next hc =>
        rw [if_neg hc] at hpool
        have ht' : q.layer.blocktree = p.layer.blocktree.linkBlock b := ht
        have hself := hok.tree.stores_linkBlock hi hb hprev
        rw [← ht'] at hself
        exact kept_of_removeTxs h (fun k b' hb' => ht' ▸ hb'.linkBlock b) hself hpool
  cases PoWNode.recv_ok hok.tree.rooted hr with
  | tx _ htx => exact h.grows hg fun tid ht => (htx.pool tid).mpr (.inr ht)
  | @blkAlone b _ =>
      obtain ⟨hb, hprev⟩ := hobj b rfl
      have hu := p.layer.afterBlk_untouched sha b
      exact hblk hb hprev hu.blocktree (congrArg TxGossipProtocol.txPool hu.gossip)
  | @blkNext b _ _ _ =>
      obtain ⟨hb, hprev⟩ := hobj b rfl
      have hu := p.layer.afterBlk_untouched sha b
      exact hblk hb hprev hu.blocktree (congrArg TxGossipProtocol.txPool hu.gossip)
  | @blkLast b _ _ =>
      obtain ⟨hb, hprev⟩ := hobj b rfl
      have hu := p.layer.afterBlk_untouched sha b
      exact hblk hb hprev hu.blocktree (congrArg TxGossipProtocol.txPool hu.gossip)
  | _ => exact h.grows hg fun _ => id

/-! ## Runs -/

variable [DecidableEq N] {nbrs : N → List N} {c c' : PoWConfig N H A} {a : Act N (PoWAct H A)}
  {n : N}

theorem Kept.step (hc : ChainOK sha c) (hsync : SyncOK sha c)
    (hs : (powSys sha nbrs).step c a c') (hd : DistinctHashes sha c')
    (h : Kept (c.node n) tid) : Kept (c'.node n) tid := by
  have hmint : ∀ b, Minted sha c b → Minted sha c' b := fun b =>
    minted_step (fun n => (hc.node n).tree.rooted) hs
  cases hs with
  | @fire k l s out hf =>
      refine c.forall_post (R := fun n q => Kept (c.node n) tid → Kept q tid) _ _ _ _ ?_
        (fun _ _ => id) n h
      exact Kept.fire hd ((hc.node k).mono hmint) (hsync.node k).queue hf
  | @deliver i pk s out hpk hf =>
      refine c.forall_post (R := fun n q => Kept (c.node n) tid → Kept q tid) _ _ _ _ ?_
        (fun _ _ => id) n h
      refine Kept.recv hd ((hc.node pk.dest).mono hmint) ?_ hf
      intro b hb
      have hok := hsync.wire pk (mem_of_wire hpk)
      simp only [PacketOK, hb] at hok
      exact ⟨hmint b (hc.wire pk (mem_of_wire hpk) b hb), hok.2.2⟩
  | lose _ => exact h

/-- A transaction that was once in a node's pool is still there, or is in a block
the node stores, on whatever branch. -/
theorem tx_kept (hr : (powSys sha nbrs).Reach c) (hl : (powSys sha nbrs).Later c c')
    (hd : DistinctHashes sha c') {tx : SimpleTransaction H A}
    (htx : (c.node n).layer.txPool.Has tx) :
    (∃ tx', (c'.node n).layer.txPool.Has tx' ∧ SameKey tx.getId tx'.getId) ∨
      ∃ k b, (c'.node n).layer.blocktree.Stores k b ∧
        ∃ tx' ∈ b.tx_list, SameKey tx.getId tx'.getId := by
  have hkept : Kept (c'.node n) tx.getId := by
    refine TransSys.Later.keeps (H := DistinctHashes sha) (P := fun c => Kept (c.node n) tx.getId)
      ?_ ?_ hr hl hd ?_
    · exact fun s a t hs hst => distinctHashes_step hs hst
    · intro s a t hs ht hst hk
      have hds := distinctHashes_step hs hst ht
      exact hk.step (chain_invariant hs hds) (sync_invariant hs hds) hst ht
    · exact .inl ((TxPool.containTx_iff _).mpr ⟨tx, htx, .refl _⟩)
  rcases hkept with h | ⟨k, b, hb, x, hx, hsame⟩
  · exact .inl ((TxPool.containTx_iff _).mp h)
  · obtain ⟨tx', htx', rfl⟩ := List.mem_map.mp hx
    exact .inr ⟨k, b, hb, tx', htx', hsame⟩

/-- The rest of the run in which two nodes mine against each other and the
shorter branch, of node 0, gives way. -/
def adoptLonger : List (Act (Fin 2) (PoWAct Nat Nat)) :=
  (mineAt 0 7).drop 2 ++ mineAt 1 8 ++ mineAt 1 9 ++ List.replicate 15 (.deliver 0)

/-- The first transaction of node 0. -/
def firstTx : SimpleTransaction Nat Nat := .make 7 0 0 0

theorem adoptLonger_run : ∃ c c',
    (powProtocol nonceSha theOther).run (fun _ a => decide (Keeps a))
      ((mineAt 0 7).take 2) = some c ∧
    TransSys.exec (powProtocol nonceSha theOther).next (fun c a => decide (Keeps a ∧ InOrder c a)) c
      adoptLonger = some c' ∧
    (c.node 0).layer.txPool.Has firstTx ∧ DistinctHashes nonceSha c' ∧
    (c'.node 0).layer.txPool.containTx firstTx.getId = false ∧
    ∀ x ∈ tipTxids (c'.node 0).layer.blocktree, ¬ SameKey firstTx.getId x := by
  have hrun : (((powProtocol nonceSha theOther).run (fun _ a => decide (Keeps a))
      ((mineAt 0 7).take 2)).bind fun c : PoWConfig (Fin 2) Nat Nat =>
        (TransSys.exec (powProtocol nonceSha theOther).next
          (fun c a => decide (Keeps a ∧ InOrder c a)) c adoptLonger).map
            fun c' : PoWConfig (Fin 2) Nat Nat =>
            decide ((c.node 0).layer.txPool.Has firstTx ∧
              ((mintedList nonceSha [0, 1] c').map POWBlock.block_hash).Nodup ∧
              (c'.node 0).layer.txPool.containTx firstTx.getId = false ∧
              ∀ x ∈ tipTxids (c'.node 0).layer.blocktree, ¬ SameKey firstTx.getId x)) =
      some true := by decide +kernel
  obtain ⟨c, hc, hrest⟩ := Option.bind_eq_some_iff.mp hrun
  obtain ⟨c', hc', hv⟩ := Option.map_eq_some_iff.mp hrest
  obtain ⟨hhas, hnodup, hpool, htip⟩ := of_decide_eq_true hv
  exact ⟨c, c', hc, hc', hhas, distinctHashes_of_nodup (by decide) hnodup, hpool, htip⟩

/-- A transaction that was in the pool and after a change of the tip is neither
in the pool nor in a block of the tip's chain. -/
theorem tx_abandoned : ∃ c c', (powSys nonceSha theOther).Reach c ∧
    (powSys nonceSha theOther).Later c c' ∧ DistinctHashes nonceSha c' ∧
    ∃ tx, (c.node 0).layer.txPool.Has tx ∧
      (c'.node 0).layer.txPool.containTx tx.getId = false ∧
      ¬ OnTip (c'.node 0).layer.blocktree tx.getId := by
  obtain ⟨c, c', hc, hc', hhas, hd, hpool, htip⟩ := adoptLonger_run
  have hr := ((powProtocol nonceSha theOther).run_under hc).reach
  have hl : (powSys nonceSha theOther).Later c c' :=
    TransSys.exec_later _ _ (fun _ _ _ => step_of_next _) _ hc'
  refine ⟨c, c', hr, hl, hd, firstTx, hhas, hpool, ?_⟩
  rw [onTip_iff (rooted_of_reach (TransSys.Under.later hr hl) 0)]
  rintro ⟨x, hx, hsame⟩
  exact htip x hx hsame

/-- In the same run the transaction is in a block of the abandoned branch. -/
theorem tx_kept_adoptLonger : ∃ c', (powSys nonceSha theOther).Reach c' ∧
    ∃ k b, (c'.node 0).layer.blocktree.Stores k b ∧
      ∃ tx' ∈ b.tx_list, SameKey firstTx.getId tx'.getId := by
  obtain ⟨c, c', hc, hc', hhas, hd, hpool, -⟩ := adoptLonger_run
  have hr := ((powProtocol nonceSha theOther).run_under hc).reach
  have hl : (powSys nonceSha theOther).Later c c' :=
    TransSys.exec_later _ _ (fun _ _ _ => step_of_next _) _ hc'
  refine ⟨c', TransSys.Under.later hr hl, ?_⟩
  rcases tx_kept hr hl hd hhas with ⟨tx', htx', hsame⟩ | h
  · have hin := (TxPool.containTx_iff _).mpr ⟨tx', htx', hsame⟩
    exact nomatch hpool.symm.trans hin
  · exact h

end Bleep
