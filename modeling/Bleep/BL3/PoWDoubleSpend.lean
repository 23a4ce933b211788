/-
# `Bleep.BL3.PoWDoubleSpend` — no transaction twice on a chain

A candidate is made of pending transactions, so if no pending transaction is on
the tip's path then none of them is on the path of the candidate's parent.  That
path does not depend on the node whose tree it is read in (`OnPath.transfer`):
wherever the block ends up, it repeats nothing of the blocks before it
(`Unrepeated`), and so no chain does (`noRepeat_of_clear`).

What has to be kept up is that no pending transaction is on the tip's path.  Both
block handlers take a block's transactions out of the pool for this.  But the
gossip handlers look at the pool alone: a transaction that is announced by a slow
neighbour after its block has come in is fetched, added and mined once more
(`spends_twice`).
-/
import Bleep.BL3.PoWMining

namespace Bleep

open Protocol BlockTree SimpleTransactionId

variable {N H A : Type} [DecidableEq H] {sha : Sha256 H A} {mint : POWBlock H A → Prop}

/-! ## Paths in two trees -/

section Transfer

variable [Zero H] [Zero A] {t t' : BlockTree H A}

/-- What is on the path of a block is the same in all trees that have the block. -/
theorem OnPath.transfer (hi : Injective mint) (h : TreeOK sha mint t) (h' : TreeOK sha mint t')
    {k : H} {tid : SimpleTransactionId H A} (hk : t'.containBlock k = true)
    (hon : OnPath t k tid) : OnPath t' k tid := by
  obtain ⟨l, x, b, hl, hx, ⟨p, hb⟩, hin⟩ := hon
  have hl' := h.path_transfer hi h' hl hk
  obtain ⟨j, hj⟩ := containBlock_iff.mp (Path.contain_of_mem hl' hx)
  have he := h.entry_eq hi h' hb hj
  exact ⟨l, x, b, hl', hx, ⟨p, he ▸ hj⟩, hin⟩

end Transfer

/-! ## Blocks that repeat nothing -/

/-- The block's parent is there, and none of the block's transactions is on the
parent's path. -/
structure Unrepeated (t : BlockTree H A) (b : POWBlock H A) : Prop where
  parent : t.containBlock b.prev_block_hash = true
  off : ∀ x ∈ b.txids, ¬ OnPath t b.prev_block_hash x

theorem Unrepeated.linkBlock {t : BlockTree H A} (hr : t.Rooted) (b : POWBlock H A)
    {b' : POWBlock H A} (h : Unrepeated t b') : Unrepeated (t.linkBlock b) b' where
  parent := containBlock_linkBlock_mono b h.parent
  off x hx hon := h.off x hx (hon.of_linkBlock hr h.parent)

/-- The blocks stored under two hashes have no transaction in common. -/
def NoCommon (t : BlockTree H A) (x y : H) : Prop :=
  ∀ b b', t.Stores x b → t.Stores y b' →
    ∀ tid ∈ b.txids, ∀ tid' ∈ b'.txids, ¬ SameKey tid tid'

instance (t : BlockTree H A) : Std.Symm (NoCommon t) where
  symm _ _ h b b' hb hb' tid htid tid' htid' hsame :=
    h b' b hb' hb tid' htid' tid htid hsame.symm

/-- No transaction is in two different blocks between the tip and genesis. -/
def NoRepeat (t : BlockTree H A) : Prop :=
  ∀ l, t.Path t.lasthash l → ∀ x ∈ l, ∀ y ∈ l, x ≠ y → NoCommon t x y

/-- If no stored block repeats anything, no chain does.  The induction is on the
chain: a transaction of its first block is not on the rest. -/
theorem pairwise_noCommon {t : BlockTree H A} (hr : t.Rooted)
    (h : ∀ k i p, t.entry k = some i → i.prevblockhash = some p → Unrepeated t i.block) {k : H}
    {l : List H} (hl : t.Path k l) : l.Pairwise (NoCommon t) := by
  induction hl with
  | root _ _ => exact List.pairwise_singleton _ _
  | @link k p i l hi hp hl ih =>
      refine List.pairwise_cons.mpr ⟨fun y hy b b' hb hb' tid htid tid' htid' hsame => ?_, ih⟩
      obtain rfl : b = i.block := hb.unique ⟨i.prevblockhash, hi⟩
      obtain rfl := hr.linked k i p hi hp
      exact (h k i _ hi hp).off tid htid ⟨l, y, b', hl, hy, hb', tid', htid', hsame⟩

/-! ## The invariant of a node -/

namespace PoWNode

variable [LinearOrder A] {p p' : PoWNode N H A} {out : Sends N H A} {nb : List N}

structure SpendOK (p : PoWNode N H A) : Prop where
  /-- No pending transaction is on the tip's path. -/
  pool : ∀ tid, p.layer.txPool.containTx tid = true → ¬ OnTip p.layer.blocktree tid
  timer : p.layer.powMiner.timer = true →
    ∃ c, p.layer.powMiner.candidateBlk = some c ∧ Unrepeated p.layer.blocktree c
  mined : ∀ b, p.Mined b → Unrepeated p.layer.blocktree b

theorem SpendOK.mineStep {b : POWBlock H A} (h : SpendOK p) (hs : MineStep sha p p' b) :
    SpendOK p' := by
  obtain ⟨c, nonce, timestamp, hc, rfl⟩ := hs.block
  obtain ⟨c', hc', hu⟩ := h.timer hs.running
  obtain rfl := Option.some.inj (hc.symm.trans hc')
  refine ⟨?_, ?_, fun b hb => ?_⟩
  · rw [hs.layer]
    exact h.pool
  · rw [hs.layer]
    exact nofun
  · rw [Mined, hs.layer, hs.queue, List.mem_append, List.mem_singleton] at hb
    rw [hs.layer]
    rcases hb with hb | hb | rfl
    · exact h.mined b (.inl hb)
    · exact h.mined b (.inr hb)
    · exact ⟨hu.parent, hu.off⟩

theorem SpendOK.completed (h : SpendOK p) (hr : p.layer.blocktree.Rooted) {b : POWBlock H A}
    {queue : List (POWBlock H A)} (hq : p.queue = b :: queue) (hb : Belated p.layer.blocktree b)
    (hself : p.layer.blocktree.containBlock b.prev_block_hash = true →
      (p.layer.blocktree.linkBlock b).Stores b.block_hash b) :
    SpendOK { p with layer := p.layer.completed b, queue } := by
  refine ⟨pool_linkBlock hr h.pool (fun hp _ => hself hp) ?_, fun ht => ?_, fun b' hb' => ?_⟩
  · intro hne hidx
    rcases hb with ⟨hprev, -⟩ | hlt
    · exact absurd hprev.symm hne
    · omega
  · obtain ⟨c, hc, hu⟩ := h.timer ht
    exact ⟨c, hc, hu.linkBlock hr b⟩
  · refine (h.mined b' ?_).linkBlock hr b
    rcases hb' with hb' | hb'
    · rcases List.mem_append.mp hb' with hb' | hb'
      · exact .inl hb'
      · exact .inr (hq ▸ List.mem_singleton.mp hb' ▸ List.mem_cons_self)
    · exact .inr (hq ▸ List.mem_cons_of_mem _ hb')

variable [Zero H]

theorem unrepeated_makeCandidateBlock {L : BL_ProtocolLayerPoW H A} (hr : L.blocktree.Rooted)
    (hpool : ∀ tid, L.txPool.containTx tid = true → ¬ OnTip L.blocktree tid) :
    Unrepeated L.blocktree (L.makeCandidateBlock sha) where
  parent := hr.tip
  off x hx := by
    obtain ⟨tx, htx, rfl⟩ := List.mem_map.mp hx
    exact hpool _ ((TxPool.containTx_iff _).mpr ⟨tx, L.txPool.has_of_mem_getTxs htx, .refl _⟩)

theorem SpendOK.txStep {new : SimpleTransactionId H A → Prop} (h : SpendOK p)
    (hr : p.layer.blocktree.Rooted) (hs : TxStep sha new p p' out)
    (hnew : ∀ tid, new tid → p.Unspent tid) : SpendOK p' := by
  have hpool := pool_txStep h.pool hs hnew
  refine ⟨hpool, fun ht => ?_, fun b hb => ?_⟩
  · rcases hs.miner with he | hf
    · rw [he] at ht ⊢
      rw [hs.chain.blocktree]
      exact h.timer ht
    · refine ⟨_, by rw [hf.miner], unrepeated_makeCandidateBlock ?_ hpool⟩
      rw [hs.chain.blocktree]
      exact hr
  · rw [hs.chain.blocktree]
    exact h.mined b (hb.imp (hs.chain.blkPool ▸ ·) (hs.queue ▸ ·))

theorem SpendOK.afterBlk (h : SpendOK p) (hr : p.layer.blocktree.Rooted) {b : POWBlock H A}
    (hoff : p.layer.blocktree.containBlock b.block_hash = false →
      p.layer.blocktree.lasthash ≠ b.prev_block_hash →
      p.layer.blocktree.treeheight ≤ b.block_idx →
      ∀ tid, p.layer.txPool.containTx tid = true → (∀ x ∈ b.txids, ¬ SameKey tid x) →
        ¬ OnPath p.layer.blocktree b.prev_block_hash tid) :
    SpendOK { p with layer := p.layer.afterBlk sha b } := by
  obtain ⟨-, -, -, hbp⟩ := p.layer.accepted_frame b
  -- the layer before mining is restarted
  have hacc : (∀ tid, (p.layer.accepted b).txPool.containTx tid = true →
        ¬ OnTip (p.layer.accepted b).blocktree tid) ∧
      ∀ b', Unrepeated p.layer.blocktree b' → Unrepeated (p.layer.accepted b).blocktree b' := by
    unfold BL_ProtocolLayerPoW.accepted
    split
    · exact ⟨h.pool, fun _ => id⟩
    · next hc =>
        have hnew : p.layer.blocktree.containBlock b.block_hash = false := by simpa using hc
        have hlinked := pool_linkBlock hr h.pool (fun hp _ => stores_linkBlock_of_new hr hp hnew)
          (hoff hnew)
        exact ⟨hlinked, fun b' hb' => hb'.linkBlock hr b⟩
  obtain ⟨hpool, hunr⟩ := hacc
  have hracc : (p.layer.accepted b).blocktree.Rooted := by
    rw [BL_ProtocolLayerPoW.accepted_blocktree]
    split
    · exact hr
    · exact hr.linkBlock b
  have hmined : ∀ b', b' ∈ p.layer.blkPool ∨ b' ∈ p.queue →
      Unrepeated (p.layer.accepted b).blocktree b' := fun b' hb' => hunr b' (h.mined b' hb')
  have hu := p.layer.afterBlk_untouched sha b
  have hpool' : ∀ tid, (p.layer.afterBlk sha b).txPool.containTx tid = true →
      ¬ OnTip (p.layer.afterBlk sha b).blocktree tid := by
    rw [BL_ProtocolLayerPoW.txPool, hu.gossip, hu.blocktree]
    exact hpool
  refine ⟨hpool', fun ht => ?_, fun b' hb' => ?_⟩
  · rcases p.layer.afterBlk_miner sha b with hf | ⟨hc, hrun⟩
    · refine ⟨_, by rw [hf.miner], unrepeated_makeCandidateBlock ?_ hpool'⟩
      rw [hu.blocktree]
      exact hracc
    · obtain ⟨c, hc', hun⟩ := h.timer (hrun ht)
      refine ⟨c, hc.trans hc', ?_⟩
      rw [hu.blocktree]
      exact hunr c hun
  · rw [hu.blocktree]
    refine hmined b' ?_
    rw [Mined, hu.blkPool, hbp] at hb'
    exact hb'

theorem SpendOK.recv [DecidableEq N] (h : SpendOK p) (hr : p.layer.blocktree.Rooted) {source : N}
    {obj : MessageObject H A} (hc : p.RecvTimely obj)
    (hf : p.recv sha nb source obj = .ok (p', out)) : SpendOK p' := by
  cases recv_ok hr hf with
  | tx _ htx => exact h.txStep hr htx hc.1
  | @blkAlone b _ => exact h.afterBlk hr (hc.2 b rfl)
  | @blkNext b _ _ _ => exact h.afterBlk hr (hc.2 b rfl)
  | @blkLast b _ _ =>
      have hafter : SpendOK { p with layer := p.layer.afterBlk sha b } :=
        h.afterBlk hr (hc.2 b rfl)
      exact ⟨hafter.pool, hafter.timer, hafter.mined⟩
  | _ => exact ⟨h.pool, h.timer, h.mined⟩

variable [Zero A]

theorem SpendOK.fire (hi : Injective mint) (h : SpendOK p) (hn : NodeOK sha mint p)
    (hfz : FrozenOK p) {l : PoWAct H A}
    (hc : ∀ tid, l.Brings tid → p.Unspent tid) (hf : p.fire sha nb l = some (.ok (p', out))) :
    SpendOK p' := by
  have hr := hn.tree.rooted
  rcases fire_ok hr hf with htx | ⟨b, hmine, -⟩ | ⟨b, queue, hq, rfl, -, -⟩
  · exact h.txStep hr htx hc
  · exact h.mineStep hmine
  · have hbq : b ∈ p.queue := hq ▸ List.mem_cons_self
    refine h.completed hr hq (hfz.queue b hbq).belated fun hp => ?_
    exact hn.tree.stores_linkBlock hi (hn.born b (.inr hbq)).1 hp

end PoWNode

/-! ## Runs -/

variable [LinearOrder A] {nbrs : N → List N} {c : PoWConfig N H A}

/-- The condition on the actions of a run: no spent transaction comes into a pool,
and no change of branch leaves one in it. -/
def Clear (c : PoWConfig N H A) : Act N (PoWAct H A) → Prop
  | .fire n l => ∀ tid, l.Brings tid → (c.node n).Unspent tid
  | .deliver i => ∀ pk ∈ c.wire[i]?, (c.node pk.dest).RecvTimely pk.body
  | .lose _ => True

theorem Clear.of_timely {a : Act N (PoWAct H A)} (h : Timely c a) : Clear c a := by
  cases a with
  | fire n l => exact h.1
  | deliver i => exact h
  | lose i => trivial

variable [Zero H] [Zero A]

theorem spendOK_init : PoWNode.SpendOK (.init sha : PoWNode N H A) where
  pool tid h := nomatch (TxPool.containTx_empty tid).symm.trans h
  timer := nofun
  mined b hb := by
    rcases hb with hb | hb
    · exact nomatch hb
    · exact nomatch hb

variable [DecidableEq N]

theorem frozenOK_of_reach (h : (powSys sha nbrs).Reach c) (n : N) :
    PoWNode.FrozenOK (c.node n) := by
  refine h.invariant (P := fun c => ∀ n, PoWNode.FrozenOK (c.node n)) ?_ ?_ n
  · rintro c rfl n
    exact PoWNode.frozenOK_init sha
  · intro c a c' hu hok _ hs m
    have hr := rooted_of_reach hu
    cases hs with
    | @fire n l _ _ hf =>
        exact c.forall_post (R := fun _ q => PoWNode.FrozenOK q) _ _ _ _
          ((hok n).fire (hr n) hf) (fun k _ => hok k) m
    | @deliver i pk _ _ hpk hf =>
        exact c.forall_post (R := fun _ q => PoWNode.FrozenOK q) _ _ _ _
          ((hok pk.dest).recv (hr pk.dest) hf) (fun k _ => hok k) m
    | lose _ => exact hok m

theorem spendOK_of_clear (h : (powSys sha nbrs).Under Clear c) (hd : DistinctHashes sha c) (n : N) :
    PoWNode.SpendOK (c.node n) := by
  refine h.invariant_of_stable (H := DistinctHashes sha)
    (P := fun c => ∀ n, PoWNode.SpendOK (c.node n)) ?_ ?_ ?_ hd n
  · exact fun s a t hs hst => distinctHashes_step hs.reach hst
  · rintro c rfl n
    exact spendOK_init
  · intro c a c' hu hok hd' hc hs m
    have hds := distinctHashes_step hu.reach hs hd'
    have hchain := chain_invariant hu.reach hds
    cases hs with
    | @fire n l _ _ hf =>
        exact c.forall_post (R := fun _ q => PoWNode.SpendOK q) _ _ _ _
          ((hok n).fire hds (hchain.node n) (frozenOK_of_reach hu.reach n) hc hf)
          (fun k _ => hok k) m
    | @deliver i pk _ _ hpk hf =>
        exact c.forall_post (R := fun _ q => PoWNode.SpendOK q) _ _ _ _
          ((hok pk.dest).recv (hchain.node pk.dest).tree.rooted (hc pk hpk) hf)
          (fun k _ => hok k) m
    | lose _ => exact hok m

/-- **No transaction is on a chain twice** in a run in which no spent transaction
comes into a pool, or is left in one by a change of branch. -/
theorem noRepeat_of_clear (h : (powSys sha nbrs).Under Clear c) (hd : DistinctHashes sha c)
    (n : N) : NoRepeat (c.node n).layer.blocktree := by
  have hchain := chain_invariant h.reach hd
  have htree := (hchain.node n).tree
  intro l hl x hx y hy hne
  refine (pairwise_noCommon htree.rooted (fun k i p hk hp => ?_) hl).forall hx hy hne
  have hprev := htree.rooted.linked k i p hk hp
  obtain ⟨j, hj⟩ := htree.rooted.toGrounded.parent hk hp
  have hcontain : (c.node n).layer.blocktree.containBlock i.block.prev_block_hash = true :=
    containBlock_iff.mpr ⟨j, hprev ▸ hj⟩
  -- the block was mined by some node, and repeats nothing in the tree of that node
  rcases htree.stored k i.block ⟨i.prevblockhash, hk⟩ with hgen | ⟨m, hm⟩
  · have hroot := (htree.root_iff hk).mpr (by rw [hgen]; rfl)
    exact nomatch hroot.symm.trans hp
  · have hun := (spendOK_of_clear h hd m).mined i.block hm
    exact ⟨hcontain, fun tid htid hon =>
      hun.off tid htid (hon.transfer hd htree (hchain.node m).tree hun.parent)⟩

/-- Two blocks of one node, of different transactions. -/
theorem noRepeat_mineAgain : ∃ c, (powSys nonceSha theOther).Under Clear c ∧
    DistinctHashes nonceSha c ∧ (c.node 0).layer.blocktree.treeheight = 3 ∧
    NoRepeat (c.node 0).layer.blocktree := by
  have hrun : (((powProtocol nonceSha theOther).run timelyCheck (mineAt 0 7 ++ mineAt 0 8)).map
      fun c : PoWConfig (Fin 2) Nat Nat =>
        decide ((c.node 0).layer.blocktree.treeheight = 3 ∧
          ((mintedList nonceSha [0, 1] c).map POWBlock.block_hash).Nodup)) = some true := by
    decide +kernel
  obtain ⟨c, hc, hv⟩ := Option.map_eq_some_iff.mp hrun
  obtain ⟨hh, hnodup⟩ := of_decide_eq_true hv
  have hd : DistinctHashes nonceSha c := distinctHashes_of_nodup (by decide) hnodup
  have hu : (powSys nonceSha theOther).Under Clear c :=
    ((powProtocol nonceSha theOther).run_under hc).mono fun _ _ hu h =>
      .of_timely (timely_of_check (rooted_of_reach hu.reach) h)
  exact ⟨c, hu, hd, hh, noRepeat_of_clear hu hd 0⟩

/-! ### A slow inventory -/

/-- Node 0 generates two transactions and mines them; node 2 has fetched them and
announces them to node 1, which takes in the block first and the transactions
after it, and mines them again. -/
def slowInventory : List (Act (Fin 3) (PoWAct Nat Nat)) :=
  (mineAt 0 7).take 2 ++ [.fire 0 .txbroadcast, .deliver 1, .deliver 1, .deliver 1] ++
    (mineAt 0 7).drop 2 ++ [0, 3, 1, 2, 2, 2, 2, 0, 1, 1, 1, 1].map .deliver ++
    (mineAt 1 8).drop 2

/-- The transaction an action generates. -/
def drawn : Act (Fin 3) (PoWAct Nat Nat) → Option (Int × Int × Nat)
  | .fire _ (.txgen sid rid a _) => some (sid, rid, a)
  | _ => none

/-- Every transaction is generated once, connections lose nothing and deliver in
order, and node 1 has two blocks with the same transactions on its chain. -/
theorem spends_twice : (slowInventory.filterMap drawn).Nodup ∧
    ∃ c, (powProtocol nonceSha triangle).run (fun c a => decide (Keeps a ∧ InOrder c a))
        slowInventory = some c ∧
      (powSys nonceSha triangle).Reach c ∧ DistinctHashes nonceSha c ∧
      ¬ NoRepeat (c.node 1).layer.blocktree := by
  refine ⟨by decide, ?_⟩
  have hrun : (((powProtocol nonceSha triangle).run (fun c a => decide (Keeps a ∧ InOrder c a))
      slowInventory).map fun c : PoWConfig (Fin 3) Nat Nat =>
        decide (((mintedList nonceSha [0, 1, 2] c).map POWBlock.block_hash).Nodup ∧
          (c.node 1).layer.blocktree.getChainFromBlock 1 = .ok [9, 8, 1] ∧
          (c.node 1).layer.blocktree.genesis = 1 ∧
          ((c.node 1).layer.blocktree.entry 9).map (·.block.txids) =
            some [⟨7, 0, 0, 0⟩, ⟨7, 1, 0, 0⟩] ∧
          ((c.node 1).layer.blocktree.entry 8).map (·.block.txids) =
            some [⟨7, 0, 0, 0⟩, ⟨7, 1, 0, 0⟩])) = some true := by decide +kernel
  obtain ⟨c, hc, hv⟩ := Option.map_eq_some_iff.mp hrun
  obtain ⟨hnodup, hchain, hgen, h9, h8⟩ := of_decide_eq_true hv
  have hreach := ((powProtocol nonceSha triangle).run_under hc).reach
  refine ⟨c, hc, hreach, distinctHashes_of_nodup (by decide) hnodup, fun hno => ?_⟩
  have hr := rooted_of_reach hreach 1
  obtain ⟨-, l, -, hl⟩ := hr.toGrounded.tip_path
  obtain rfl : l = [9, 8, 1] := by
    have hgl := getChainFromBlock_genesis hr.toGrounded hl
    rw [hgen, hchain] at hgl
    exact (Except.ok.inj hgl).symm
  obtain ⟨i, hi, hti⟩ := Option.map_eq_some_iff.mp h9
  obtain ⟨j, hj, htj⟩ := Option.map_eq_some_iff.mp h8
  exact hno _ hl 9 (by decide) 8 (by decide) (by decide) i.block j.block ⟨_, hi⟩ ⟨_, hj⟩
    ⟨7, 0, 0, 0⟩ (by rw [hti]; decide) ⟨7, 0, 0, 0⟩ (by rw [htj]; decide) (.refl _)

end Bleep
