/-
# `Bleep.BL3.PoWChain` — every node's tree is a tree of minted blocks

The index of a block is frozen when its mining starts, and nothing checks a
received block.  What makes depth and index agree all the same is a property of
the blocks and not of the trees: every minted block has a minted parent, with
the index before its own (`WellBorn`).  A tree that stores minted blocks only
can then take in any other minted block (`TreeOK.advance`), whenever and by
whomever it was mined.

The invariant of a node is `NodeOK`, relative to the blocks minted so far; it is
preserved by each local action and each message (`NodeOK.fire`, `NodeOK.recv`)
and so holds in every reachable network (`chain_invariant`).
-/
import Bleep.BL3.PoWNetwork

namespace Bleep

open Protocol BlockTree

variable {N H A : Type} {mint mint' : POWBlock H A → Prop}

/-- The block has the index after that of a minted parent. -/
def WellBorn (mint : POWBlock H A → Prop) (b : POWBlock H A) : Prop :=
  ∃ q, mint q ∧ q.block_hash = b.prev_block_hash ∧ b.block_idx = q.block_idx + 1

theorem WellBorn.mono (hm : ∀ b, mint b → mint' b) {b : POWBlock H A} (h : WellBorn mint b) :
    WellBorn mint' b := by
  obtain ⟨q, hq, hrest⟩ := h
  exact ⟨q, hm q hq, hrest⟩

/-- Different blocks have different hashes. -/
def Injective (mint : POWBlock H A → Prop) : Prop :=
  ∀ b b', mint b → mint b' → b.block_hash = b'.block_hash → b = b'

variable [DecidableEq H] [Zero H] [Zero A] {sha : Sha256 H A}

/-! ## Trees of minted blocks -/

/-- The tree holds minted blocks only, and depth is index. -/
structure TreeOK (sha : Sha256 H A) (mint : POWBlock H A → Prop) (t : BlockTree H A) : Prop where
  rooted : t.Rooted
  indexed : t.Indexed
  genesis : t.Stores t.genesis (genesisBlock sha)
  stored : ∀ k b, t.Stores k b → mint b

/-- All that a step does to a tree: nothing, or linking in a well-born block. -/
def TreeAdvance (mint : POWBlock H A → Prop) (t t' : BlockTree H A) : Prop :=
  t' = t ∨ ∃ b, mint b ∧ WellBorn mint b ∧ t' = t.linkBlock b

variable {t t' : BlockTree H A}

theorem TreeOK.mono (hm : ∀ b, mint b → mint' b) (h : TreeOK sha mint t) : TreeOK sha mint' t :=
  ⟨h.rooted, h.indexed, h.genesis, fun k b hb => hm b (h.stored k b hb)⟩

/-- A stored block under the parent's hash *is* the parent. -/
theorem TreeOK.parent_idx (hi : Injective mint) (h : TreeOK sha mint t) {b c : POWBlock H A}
    (hb : WellBorn mint b) (hc : t.Stores b.prev_block_hash c) : b.block_idx = c.block_idx + 1 := by
  obtain ⟨q, hq, hhash, hidx⟩ := hb
  have hc' : c.block_hash = b.prev_block_hash := h.rooted.hash_eq hc
  rw [hi c q (h.stored _ _ hc) hq (hc'.trans hhash.symm)]
  exact hidx

theorem TreeOK.advance (hi : Injective mint) (h : TreeOK sha mint t)
    (ha : TreeAdvance mint t t') : TreeOK sha mint t' := by
  rcases ha with rfl | ⟨b, hb, hw, rfl⟩
  · exact h
  have hg := t.genesis_linkBlock b
  refine ⟨h.rooted.linkBlock b, ?_, hg ▸ h.genesis.linkBlock b, fun k c hc => ?_⟩
  · refine h.indexed.linkBlock h.rooted (fun c hc => h.parent_idx hi hw hc) fun c hc => ?_
    exact hi c b (h.stored _ _ hc) hb (h.rooted.hash_eq hc)
  · rcases stores_linkBlock_cases hc with hc | ⟨-, rfl, -⟩
    · exact h.stored k c hc
    · exact hb

theorem TreeOK.stores_linkBlock (hi : Injective mint) (h : TreeOK sha mint t) {b : POWBlock H A}
    (hb : mint b) (hp : t.containBlock b.prev_block_hash = true) :
    (t.linkBlock b).Stores b.block_hash b := by
  obtain ⟨x, hx⟩ := stores_iff.mp (contain_linkBlock_self h.rooted hp)
  have hxm : mint x := by
    rcases stores_linkBlock_cases hx with hx | ⟨-, rfl, -⟩
    · exact h.stored _ _ hx
    · exact hb
  rwa [hi x b hxm hb ((h.rooted.linkBlock b).hash_eq hx)] at hx

/-- The tip moves only to a block of larger index. -/
theorem TreeAdvance.tip (hi : Injective mint) (h : TreeOK sha mint t) (ha : TreeAdvance mint t t')
    (hne : t'.lasthash ≠ t.lasthash) : t.treeheight < t'.treeheight := by
  rcases ha with rfl | ⟨b, hb, hw, rfl⟩
  · exact absurd rfl hne
  rcases h.indexed.tip_linkBlock h.rooted (fun c hc => h.parent_idx hi hw hc) with
    ⟨hl, -⟩ | ⟨-, hh, -⟩
  · exact absurd hl hne
  · omega

theorem treeOK_init (hm : mint (genesisBlock sha)) : TreeOK sha mint (BlockTree.init sha) where
  rooted := rooted_init sha
  indexed := indexed_init sha
  genesis := (stores_init sha).mpr ⟨rfl, rfl⟩
  stored k b hb := by
    obtain ⟨-, rfl⟩ := (stores_init sha).mp hb
    exact hm

/-! ### Two trees -/

theorem TreeOK.root_iff (h : TreeOK sha mint t) {k : H} {i : BlockTreeBlockIndex H A}
    (hi : t.entry k = some i) : i.prevblockhash = none ↔ i.block.block_idx = 0 := by
  constructor
  · intro hp
    obtain rfl := h.rooted.root k i hi hp
    have hb : i.block = genesisBlock sha := Stores.unique ⟨i.prevblockhash, hi⟩ h.genesis
    rw [hb]
    rfl
  · intro hidx
    cases hp : i.prevblockhash with
    | none => rfl
    | some q =>
        exfalso
        obtain ⟨j, hj⟩ := h.rooted.toGrounded.parent hi hp
        have hsucc := h.indexed.succ k i q j.block hi hp ⟨j.prevblockhash, hj⟩
        omega

/-- Trees of minted blocks agree on what they both store. -/
theorem TreeOK.stores_eq (hi : Injective mint) (h : TreeOK sha mint t) (h' : TreeOK sha mint t')
    {k : H} {b b' : POWBlock H A} (hb : t.Stores k b) (hb' : t'.Stores k b') : b = b' :=
  hi b b' (h.stored k b hb) (h'.stored k b' hb')
    ((h.rooted.hash_eq hb).trans (h'.rooted.hash_eq hb').symm)

theorem TreeOK.entry_eq (hi : Injective mint) (h : TreeOK sha mint t) (h' : TreeOK sha mint t')
    {k : H} {i j : BlockTreeBlockIndex H A} (hk : t.entry k = some i) (hk' : t'.entry k = some j) :
    i = j := by
  have hb : i.block = j.block :=
    h.stores_eq hi h' ⟨i.prevblockhash, hk⟩ ⟨j.prevblockhash, hk'⟩
  have hp : i.prevblockhash = j.prevblockhash := by
    cases hpi : i.prevblockhash with
    | none => exact ((h'.root_iff hk').mpr (hb ▸ (h.root_iff hk).mp hpi)).symm
    | some q =>
        cases hpj : j.prevblockhash with
        | none =>
            have hn := (h.root_iff hk).mpr (hb ▸ (h'.root_iff hk').mp hpj)
            exact nomatch hpi.symm.trans hn
        | some q' =>
            rw [h.rooted.linked k i q hk hpi, h'.rooted.linked k j q' hk' hpj, hb]
  cases i
  cases j
  exact congr (congrArg _ hp) hb

theorem TreeOK.path_transfer (hi : Injective mint) (h : TreeOK sha mint t)
    (h' : TreeOK sha mint t') {k : H} {l : List H} (hl : t.Path k l)
    (hk : t'.containBlock k = true) : t'.Path k l := by
  refine Chain.transfer (fun k v v' hv hv' => ?_) (fun k v p hv hp => ?_) hl
    (containBlock_iff.mp hk)
  · rw [h.entry_eq hi h' hv hv']
  · exact h'.rooted.toGrounded.parent hv hp

/-! ## Nodes -/

variable [LinearOrder A]

structure NodeOK (sha : Sha256 H A) (mint : POWBlock H A → Prop) (p : PoWNode N H A) : Prop where
  tree : TreeOK sha mint p.layer.blocktree
  /-- A candidate already has the parent and the index its block will have. -/
  cand : ∀ c ∈ p.layer.powMiner.candidateBlk, WellBorn mint c
  timer : p.layer.powMiner.timer = true → p.layer.powMiner.candidateBlk.isSome
  born : ∀ b, p.Mined b → mint b ∧ WellBorn mint b

variable {p p' : PoWNode N H A} {out : Sends N H A}

theorem NodeOK.mono (hm : ∀ b, mint b → mint' b) (h : NodeOK sha mint p) : NodeOK sha mint' p where
  tree := h.tree.mono hm
  cand c hc := (h.cand c hc).mono hm
  timer := h.timer
  born b hb := ⟨hm b (h.born b hb).1, (h.born b hb).2.mono hm⟩

/-- What a step leaves of the miner: a candidate on the tip, or the one there
was. -/
def MinerStep (L L' : BL_ProtocolLayerPoW H A) : Prop :=
  (∃ c, L'.powMiner.candidateBlk = some c ∧ c.block_idx = L'.blocktree.getNextBlockIdx ∧
    c.prev_block_hash = L'.blocktree.getLastHash) ∨
  (L'.powMiner.candidateBlk = L.powMiner.candidateBlk ∧
    (L'.powMiner.timer = true → L.powMiner.timer = true))

omit [DecidableEq H] [Zero H] [Zero A] in
theorem MinerStep.of_eq {L L' : BL_ProtocolLayerPoW H A} (h : L'.powMiner = L.powMiner) :
    MinerStep L L' := .inr ⟨by rw [h], by rw [h]; exact id⟩

omit [DecidableEq H] [Zero A] in
theorem MinerStep.of_fresh {L L' : BL_ProtocolLayerPoW H A} (h : L'.Fresh sha) :
    MinerStep L L' := .inl ⟨L'.makeCandidateBlock sha, by rw [h.miner], rfl, rfl⟩

omit [Zero A] in
theorem afterBlk_minerStep (L : BL_ProtocolLayerPoW H A) (b : POWBlock H A) :
    MinerStep L (L.afterBlk sha b) := by
  rcases L.afterBlk_miner sha b with h | h
  · exact .of_fresh h
  · exact .inr h

theorem NodeOK.step (hi : Injective mint) (h : NodeOK sha mint p)
    (ht : TreeAdvance mint p.layer.blocktree p'.layer.blocktree)
    (hm : MinerStep p.layer p'.layer)
    (hb : ∀ b, p'.Mined b → mint b ∧ WellBorn mint b) : NodeOK sha mint p' := by
  have htree := h.tree.advance hi ht
  refine ⟨htree, ?_, ?_, hb⟩
  · intro c hc
    rcases hm with ⟨c', hc', hidx, hprev⟩ | ⟨hc', -⟩
    · obtain rfl := Option.some.inj (hc'.symm.trans hc)
      obtain ⟨b, hb⟩ := stores_iff.mp htree.rooted.tip
      refine ⟨b, htree.stored _ _ hb, ?_, ?_⟩
      · exact (htree.rooted.hash_eq hb).trans hprev.symm
      · exact hidx.trans (htree.indexed.tip b hb)
    · exact h.cand c (hc' ▸ hc)
  · intro ht'
    rcases hm with ⟨c', hc', -⟩ | ⟨hc', ht''⟩
    · rw [hc']
      rfl
    · rw [hc']
      exact h.timer (ht'' ht')

/-! ### Local actions -/

omit [Zero A] in
theorem fire_minerStep (hr : p.layer.blocktree.Rooted) {nb : List N} {l : PoWAct H A}
    (h : p.fire sha nb l = some (.ok (p', out))) : MinerStep p.layer p'.layer := by
  rcases PoWNode.fire_ok hr h with htx | ⟨b, hmine, -⟩ | ⟨b, q, -, rfl, -⟩
  · exact htx.miner.elim .of_eq .of_fresh
  · exact .inr ⟨by rw [hmine.layer], by rw [hmine.layer]; exact nofun⟩
  · exact .of_eq rfl

theorem NodeOK.fire (hi : Injective mint') (hmono : ∀ b, mint b → mint' b)
    (hown : ∀ b, p'.Mined b → mint' b) (h : NodeOK sha mint p) {nb : List N} {l : PoWAct H A}
    (hf : p.fire sha nb l = some (.ok (p', out))) :
    NodeOK sha mint' p' ∧ TreeAdvance mint' p.layer.blocktree p'.layer.blocktree ∧
      ∀ x ∈ out, ∀ b, x.2 ≠ .blkBlk b := by
  have h' := h.mono hmono
  have hm := fire_minerStep h.tree.rooted hf
  rcases PoWNode.fire_ok h.tree.rooted hf with htx | ⟨b, hmine, rfl⟩ | ⟨b, q, hq, rfl, rfl, -⟩
  · have hadv : TreeAdvance mint' p.layer.blocktree p'.layer.blocktree := .inl htx.chain.blocktree
    refine ⟨h'.step hi hadv hm ?_, hadv, ?_⟩
    · intro b hb
      exact h'.born b (hb.imp (htx.chain.blkPool ▸ ·) (htx.queue ▸ ·))
    · intro x hx b hxb
      have hs := htx.silent x hx
      rw [hxb] at hs
      cases hs
  · have hadv : TreeAdvance mint' p.layer.blocktree p'.layer.blocktree := .inl (by rw [hmine.layer])
    obtain ⟨c, nonce, timestamp, hc, rfl⟩ := hmine.block
    refine ⟨h'.step hi hadv hm ?_, hadv, fun x hx => by cases hx⟩
    intro b' hb'
    refine ⟨hown b' hb', ?_⟩
    rw [PoWNode.Mined, hmine.layer, hmine.queue, List.mem_append, List.mem_singleton] at hb'
    rcases hb' with hb' | hb' | rfl
    · exact (h'.born b' (.inl hb')).2
    · exact (h'.born b' (.inr hb')).2
    · exact h'.cand c hc
  · obtain ⟨hb, hw⟩ := h'.born b (.inr (hq ▸ List.mem_cons_self))
    have hadv : TreeAdvance mint' p.layer.blocktree (p.layer.completed b).blocktree :=
      .inr ⟨b, hb, hw, rfl⟩
    refine ⟨h'.step hi hadv hm ?_, hadv, ?_⟩
    · intro b' hb'
      refine h'.born b' ?_
      rcases hb' with hb' | hb'
      · rcases List.mem_append.mp hb' with hb' | hb'
        · exact .inl hb'
        · exact .inr (hq ▸ List.mem_singleton.mp hb' ▸ List.mem_cons_self)
      · exact .inr (hq ▸ List.mem_cons_of_mem _ hb')
    · intro x hx b' hxb
      obtain ⟨-, hobj⟩ := (mem_sendAll (n := x.1) (m := x.2)).mp hx
      cases hobj.symm.trans hxb

/-! ### Messages -/

/-- The tree after a received block, which is minted and, unless it is genesis,
well born. -/
theorem TreeOK.accepted {L : BL_ProtocolLayerPoW H A} (h : TreeOK sha mint L.blocktree)
    {b : POWBlock H A} (hb : mint b) (hw : b = genesisBlock sha ∨ WellBorn mint b) :
    TreeAdvance mint L.blocktree (L.accepted b).blocktree := by
  rw [BL_ProtocolLayerPoW.accepted_blocktree]
  split
  · exact .inl rfl
  · next hc =>
      rcases hw with rfl | hw
      · have hg := h.genesis
        rw [← h.rooted.hash_eq hg] at hg
        exact absurd hg.contain hc
      · exact .inr ⟨b, hb, hw, rfl⟩

omit [Zero A] in
theorem recv_minerStep [DecidableEq N] (hr : p.layer.blocktree.Rooted) {nb : List N} {source : N}
    {obj : MessageObject H A} (h : p.recv sha nb source obj = .ok (p', out)) :
    MinerStep p.layer p'.layer := by
  cases PoWNode.recv_ok hr h with
  | tx _ htx => exact htx.miner.elim .of_eq .of_fresh
  | blkAlone _ => exact afterBlk_minerStep p.layer _
  | blkNext _ _ => exact afterBlk_minerStep p.layer _
  | blkLast _ _ => exact afterBlk_minerStep p.layer _
  | _ => exact .of_eq rfl

theorem NodeOK.recv [DecidableEq N] (hi : Injective mint) (h : NodeOK sha mint p) {nb : List N}
    {source : N} {obj : MessageObject H A}
    (hobj : ∀ b, obj = .blkBlk b → mint b ∧ (b = genesisBlock sha ∨ WellBorn mint b))
    (hr : p.recv sha nb source obj = .ok (p', out)) :
    NodeOK sha mint p' ∧ TreeAdvance mint p.layer.blocktree p'.layer.blocktree ∧
      ∀ x ∈ out, ∀ b, x.2 = .blkBlk b → mint b := by
  have hrt := h.tree.rooted
  have hadv : TreeAdvance mint p.layer.blocktree p'.layer.blocktree := by
    rcases PoWNode.recv_tree hrt hr with ht | ⟨b, hb, ht⟩
    · exact .inl ht
    · obtain ⟨hm, hw⟩ := hobj b hb
      exact ht ▸ h.tree.accepted hm hw
  refine ⟨h.step hi hadv (recv_minerStep hrt hr) ?_, hadv, ?_⟩
  · intro b hb
    exact h.born b ((PoWNode.recv_mined hrt hr b).mp hb)
  · rintro ⟨m, o⟩ hx b rfl
    obtain ⟨k, hk⟩ := PoWNode.recv_sends hrt hr hx
    exact h.tree.stored k b hk

/-! ## Networks -/

variable [DecidableEq N] {nbrs : N → List N} {c c' : PoWConfig N H A} {a : Act N (PoWAct H A)}

structure ChainOK (sha : Sha256 H A) (c : PoWConfig N H A) : Prop where
  node : ∀ n, NodeOK sha (Minted sha c) (c.node n)
  wire : ∀ pk ∈ c.wire, ∀ b, pk.body = .blkBlk b → Minted sha c b

omit [DecidableEq N] in
theorem ChainOK.genesis_or_born (h : ChainOK sha c) {b : POWBlock H A} (hb : Minted sha c b) :
    b = genesisBlock sha ∨ WellBorn (Minted sha c) b := by
  rcases hb with rfl | ⟨n, hn⟩
  · exact .inl rfl
  · exact .inr ((h.node n).born b hn).2

theorem ChainOK.step (h : ChainOK sha c) (hs : (powSys sha nbrs).step c a c')
    (hd : DistinctHashes sha c') : ChainOK sha c' ∧
      ∀ n, TreeAdvance (Minted sha c') (c.node n).layer.blocktree (c'.node n).layer.blocktree := by
  have hmint : ∀ b, Minted sha c b → Minted sha c' b := fun b =>
    minted_step (fun n => (h.node n).tree.rooted) hs
  cases hs with
  | @fire n l s out hf =>
      have hown : ∀ b, s.Mined b → Minted sha (c.post n s out c.wire) b := fun b hb =>
        .inr ⟨n, by rw [Config.post_node_self]; exact hb⟩
      obtain ⟨hn, ha, hout⟩ := (h.node n).fire hd hmint hown hf
      refine ⟨⟨?_, ?_⟩, ?_⟩
      · exact c.forall_post _ _ _ _ hn fun m _ => (h.node m).mono hmint
      · intro pk hpk b hb
        rcases (Config.mem_post_wire _ _ _ _ _).mp hpk with hpk | ⟨-, hpk⟩
        · exact hmint b (h.wire pk hpk b hb)
        · exact absurd hb (hout _ hpk b)
      · exact c.forall_post (R := fun m q => TreeAdvance _ (c.node m).layer.blocktree
          q.layer.blocktree) _ _ _ _ ha fun _ _ => .inl rfl
  | @deliver i pk s out hpk hf =>
      have hobj : ∀ b, pk.body = .blkBlk b →
          Minted sha (c.post pk.dest s out (c.wire.eraseIdx i)) b ∧
          (b = genesisBlock sha ∨
            WellBorn (Minted sha (c.post pk.dest s out (c.wire.eraseIdx i))) b) := by
        intro b hb
        have hm := h.wire pk (mem_of_wire hpk) b hb
        exact ⟨hmint b hm, (h.genesis_or_born hm).imp id (.mono hmint)⟩
      obtain ⟨hn, ha, hout⟩ := ((h.node pk.dest).mono hmint).recv hd hobj hf
      refine ⟨⟨?_, ?_⟩, ?_⟩
      · exact c.forall_post _ _ _ _ hn fun m _ => (h.node m).mono hmint
      · intro q hq b hb
        rcases (Config.mem_post_wire _ _ _ _ _).mp hq with hq | ⟨-, hq⟩
        · exact hmint b (h.wire q (mem_of_mem_eraseIdx hq) b hb)
        · exact hout _ hq b hb
      · exact c.forall_post (R := fun m q => TreeAdvance _ (c.node m).layer.blocktree
          q.layer.blocktree) _ _ _ _ ha fun _ _ => .inl rfl
  | lose _ =>
      exact ⟨⟨h.node, fun pk hpk => h.wire pk (mem_of_mem_eraseIdx hpk)⟩, fun _ => .inl rfl⟩

theorem chainOK_init : ChainOK sha { node := (powProtocol sha nbrs).start, wire := [] } where
  node n :=
    { tree := treeOK_init (.inl rfl)
      cand := fun c hc => nomatch hc
      timer := nofun
      born := fun b hb => by
        rcases hb with hb | hb
        · exact nomatch hb
        · exact nomatch hb }
  wire pk hpk := nomatch hpk

theorem chain_invariant (h : (powSys sha nbrs).Reach c) (hd : DistinctHashes sha c) :
    ChainOK sha c := by
  refine h.invariant_of_stable (H := DistinctHashes sha) ?_ ?_ ?_ hd
  · exact fun s a t hr hs => distinctHashes_step hr hs
  · rintro s rfl
    exact chainOK_init
  · exact fun s a t _ hok hd _ hs => (hok.step hs hd).1

/-- In every run and at every node the stored blocks form a tree in which depth
is index, with the tip among its deepest blocks; and a step only adds to it, and
moves the tip only to a block of larger index. -/
theorem blocktree_of_reach (h : (powSys sha nbrs).Reach c) (hd : DistinctHashes sha c) (n : N) :
    let t := (c.node n).layer.blocktree
    (∀ k p b, t.entry k = some ⟨p, b⟩ → b ≠ genesisBlock sha →
      p = some b.prev_block_hash ∧
        ∃ q, t.Stores b.prev_block_hash q ∧ b.block_idx = q.block_idx + 1) ∧
    (∀ k b, t.Stores k b → ∃ l, t.Path k l ∧
      l.getLast? = some (genesisBlock sha).block_hash ∧ l.length = b.block_idx + 1) ∧
    (∃ tip, t.Stores t.lasthash tip ∧ t.treeheight = tip.block_idx + 1 ∧
      ∀ k b, t.Stores k b → b.block_idx ≤ tip.block_idx) ∧
    (∀ a c', (powSys sha nbrs).step c a c' →
      let t' := (c'.node n).layer.blocktree
      (∀ k i, t.entry k = some i → t'.entry k = some i) ∧
      (DistinctHashes sha c' → t'.lasthash ≠ t.lasthash →
        ∃ tip tip', t.Stores t.lasthash tip ∧ t'.Stores t'.lasthash tip' ∧
          tip.block_idx < tip'.block_idx)) := by
  intro t
  have hok := chain_invariant h hd
  obtain ⟨hrt, hix, hg, hst⟩ := (hok.node n).tree
  obtain ⟨tip, htip⟩ := stores_iff.mp hrt.tip
  have hheight := hix.tip tip htip
  refine ⟨?_, ?_, ⟨tip, htip, hheight, ?_⟩, ?_⟩
  · intro k p b hk hne
    cases hp : p with
    | none =>
        have hroot := hrt.root k _ hk hp
        have hb : t.Stores t.genesis b := ⟨p, hroot ▸ hk⟩
        exact absurd (hb.unique hg) hne
    | some p' =>
        have hprev := hrt.linked k _ p' hk hp
        obtain ⟨j, hj⟩ := hrt.toGrounded.parent hk hp
        refine ⟨by rw [hprev], j.block, ⟨j.prevblockhash, hprev ▸ hj⟩, ?_⟩
        exact hix.succ k _ p' j.block hk hp ⟨j.prevblockhash, hj⟩
  · intro k b hb
    obtain ⟨p, hp⟩ := id hb
    obtain ⟨l, hl⟩ := hrt.path _ _ hp
    obtain ⟨r, v, hlast, hv, hn⟩ := hl.exists_root
    refine ⟨l, hl, ?_, hix.length_path hrt hb hl⟩
    rw [hlast, hrt.root r v hv hn, hrt.hash_eq hg]
  · intro k b hb
    have := hix.below k b hb
    omega
  · intro a c' hs t'
    refine ⟨?_, ?_⟩
    · intro k i hi
      exact (grows_step (rooted_of_reach h) hs n).entry hi
    · intro hd' hne
      obtain ⟨hok', ha⟩ := hok.step hs hd'
      obtain ⟨tip', htip'⟩ := stores_iff.mp (hok'.node n).tree.rooted.tip
      refine ⟨tip, tip', htip, htip', ?_⟩
      have hheight' := (hok'.node n).tree.indexed.tip tip' htip'
      have hmono := (hok.node n).tree.mono fun b => minted_step (rooted_of_reach h) hs
      have := (ha n).tip hd' hmono hne
      omega

/-- One node mines a block and the other fetches it. -/
def mineAndFetch : List (Act (Fin 2) (PoWAct Nat Nat)) :=
  mineAt 0 7 ++ [.deliver 0, .deliver 0, .deliver 0, .deliver 0, .deliver 0]

/-- The neighbours in a network of two. -/
def theOther (n : Fin 2) : List (Fin 2) := [1 - n]

theorem blocktree_of_reach_two : ∃ c, (powProtocol nonceSha theOther).run (fun _ _ => true)
      mineAndFetch = some c ∧ (c.node 1).layer.blocktree.treeheight = 2 ∧
    ∃ tip, (c.node 1).layer.blocktree.Stores (c.node 1).layer.blocktree.lasthash tip ∧
      (c.node 1).layer.blocktree.treeheight = tip.block_idx + 1 := by
  have hrun : ((powProtocol nonceSha theOther).run (fun _ _ => true) mineAndFetch).map
      (fun c => ((c.node 1).layer.blocktree.treeheight,
        decide ((mintedList nonceSha [0, 1] c).map POWBlock.block_hash).Nodup)) =
      some (2, true) := by decide +kernel
  obtain ⟨c, hc, hv⟩ := Option.map_eq_some_iff.mp hrun
  obtain ⟨hh, hd⟩ := Prod.mk.inj hv
  have hdist := distinctHashes_of_nodup (by decide) (of_decide_eq_true hd)
  obtain ⟨-, -, ⟨tip, htip, hheight, -⟩, -⟩ :=
    blocktree_of_reach ((powProtocol nonceSha theOther).run_under hc).reach hdist 1
  exact ⟨c, hc, hh, tip, htip, hheight⟩

end Bleep
