/-
# `Bleep.BL3.PoWConverge` — when announcements are heeded, neighbours agree

A node that is higher than its neighbour owes it something: an announcement in
flight, a question from the neighbour, or an inventory with a block of that
height being processed on one of the two sides.  `Covered` is this debt; each
step passes it on (`Covered.step`), with one exception: an inventory that is
delivered to a node busy with another one is dropped, whatever it lists.  In
runs where no such inventory lists a block the receiver lacks (`Heeded`),
nothing is left owing when nothing is in flight, and neighbours have tips of
equal index (`converges_of_heeded`).

Without the condition they need not: `tips_apart` is a run on a path of three
nodes.
-/
import Bleep.BL3.PoWSync

namespace Bleep

open Protocol BlockTree

variable {N H A : Type}

/-! ## Blocks at the tip's height -/

section Tops

variable [DecidableEq H] {mint : POWBlock H A → Prop} {t t' : BlockTree H A}

/-- The list contains a stored block as high as the tip. -/
def Tops (t : BlockTree H A) (hs : List H) : Prop :=
  ∃ h ∈ hs, ∃ b, t.Stores h b ∧ t.treeheight = b.block_idx + 1

theorem Tops.mono {hs hs' : List H} (h : Tops t hs) (hsub : hs ⊆ hs') : Tops t hs' := by
  obtain ⟨k, hk, hrest⟩ := h
  exact ⟨k, hsub hk, hrest⟩

variable [Zero H] [Zero A] {sha : Sha256 H A}

theorem TreeOK.height_le (hi : Injective mint) (h : TreeOK sha mint t) (h' : TreeOK sha mint t')
    {hs : List H} (ht : Tops t hs) (hall : ∀ k ∈ hs, t'.containBlock k = true) :
    t.treeheight ≤ t'.treeheight := by
  obtain ⟨k, hk, b, hb, htop⟩ := ht
  obtain ⟨b', hb'⟩ := stores_iff.mp (hall k hk)
  obtain rfl := h.stores_eq hi h' hb hb'
  have := h'.indexed.below k b hb'
  omega

theorem TreeOK.linkBlock_top (hi : Injective mint) (h : TreeOK sha mint t) {b : POWBlock H A}
    (hb : mint b) (hw : WellBorn mint b) :
    (t.linkBlock b).treeheight = t.treeheight ∨ Tops (t.linkBlock b) [b.block_hash] := by
  have hadv : TreeAdvance mint t (t.linkBlock b) := .inr ⟨b, hb, hw, rfl⟩
  have h' := h.advance hi hadv
  rcases h.indexed.tip_linkBlock h.rooted (fun c hc => h.parent_idx hi hw hc) with
    ⟨-, hh⟩ | ⟨hl, hh, hidx⟩
  · exact .inl hh
  · obtain ⟨x, hx⟩ := stores_iff.mp h'.rooted.tip
    rw [hl] at hx
    have hxb : x = b := hi x b (h'.stored _ _ hx) hb (h'.rooted.hash_eq hx)
    exact .inr ⟨_, List.mem_singleton_self _, x, hx, by rw [hxb]; omega⟩

end Tops

/-! ## What a higher node owes -/

section Covered

variable [LinearOrder A] [DecidableEq H] {c c' : PoWConfig N H A} {n m : N}

/-- An inventory is processed with a block at the height of this tree. -/
def TopsInHand (t : BlockTree H A) (p : PoWNode N H A) : Prop :=
  p.layer.processing = true ∧ Tops t p.layer.processingBlkinv

inductive Covered (c : PoWConfig N H A) (n m : N) : Prop
  | level : (tree c n).treeheight ≤ (tree c m).treeheight → Covered c n m
  | announced (hs : List H) : ⟨n, m, .blkInv hs⟩ ∈ c.wire → Tops (tree c n) hs → Covered c n m
  | asked (locator : List H) : ⟨m, n, .blkGetBlocks locator⟩ ∈ c.wire → Covered c n m
  | fetching : (c.node m).invFrom = some n → TopsInHand (tree c n) (c.node m) → Covered c n m
  | relaying : TopsInHand (tree c n) (c.node n) → Covered c n m

/-- No inventory with a block the receiver lacks comes while the receiver is
busy with another inventory. -/
def Heeded (c : PoWConfig N H A) : Act N (PoWAct H A) → Prop
  | .deliver i => ∀ pk ∈ c.wire[i]?, (c.node pk.dest).layer.processing = true →
      ∀ h ∈ pk.body.announced, (tree c pk.dest).containBlock h = true
  | _ => True

instance (c : PoWConfig N H A) : DecidablePred (Heeded c)
  | .deliver i => inferInstanceAs (Decidable (∀ pk ∈ c.wire[i]?,
      (c.node pk.dest).layer.processing = true →
      ∀ h ∈ pk.body.announced, (tree c pk.dest).containBlock h = true))
  | .fire _ _ => isTrue trivial
  | .lose _ => isTrue trivial

/-- **The frame lemma** of `Covered`, for a step after which the owing node is as
high as before: each form of the debt has to be kept or turned into another. -/
theorem Covered.pass (h : Covered c n m)
    (hn : (tree c' n).treeheight = (tree c n).treeheight)
    (hst : ∀ k b, (tree c n).Stores k b → (tree c' n).Stores k b)
    (hm : (tree c m).treeheight ≤ (tree c' m).treeheight)
    (hann : ∀ hs, ⟨n, m, .blkInv hs⟩ ∈ c.wire → Tops (tree c' n) hs → Covered c' n m)
    (hask : ∀ locator, ⟨m, n, .blkGetBlocks locator⟩ ∈ c.wire → Covered c' n m)
    (hfetch : (c.node m).invFrom = some n → TopsInHand (tree c' n) (c.node m) → Covered c' n m)
    (hrel : TopsInHand (tree c' n) (c.node n) → Covered c' n m) : Covered c' n m := by
  have htops : ∀ hs, Tops (tree c n) hs → Tops (tree c' n) hs := by
    rintro hs ⟨k, hk, b, hb, htop⟩
    exact ⟨k, hk, b, hst k b hb, hn.trans htop⟩
  cases h with
  | level h => exact .level (by omega)
  | announced hs hmem ht => exact hann hs hmem (htops hs ht)
  | asked locator hmem => exact hask locator hmem
  | fetching hf ht => exact hfetch hf ⟨ht.1, htops _ ht.2⟩
  | relaying ht => exact hrel ⟨ht.1, htops _ ht.2⟩

/-! ## One step -/

theorem head_mem_takeWhile_ne {K : Type} [DecidableEq K] (x : K) (l : List K) (y : K) :
    x ∈ (x :: l).takeWhile (· ≠ y) ++ [y] := by
  by_cases h : x = y
  · simp [h]
  · simp [h]

variable [Zero H] [Zero A] {sha : Sha256 H A} {mint : POWBlock H A → Prop} {nbrs : N → List N}
  {a : Act N (PoWAct H A)}

theorem TreeOK.accepted_top (hi : Injective mint) {L : BL_ProtocolLayerPoW H A}
    (h : TreeOK sha mint L.blocktree) {b : POWBlock H A} (hb : mint b)
    (hw : b = genesisBlock sha ∨ WellBorn mint b) :
    (L.accepted b).blocktree.treeheight = L.blocktree.treeheight ∨
      Tops (L.accepted b).blocktree [b.block_hash] := by
  rw [BL_ProtocolLayerPoW.accepted_blocktree]
  split
  · exact .inl rfl
  · next hc =>
      rcases hw with rfl | hw
      · have hg := h.genesis
        rw [← h.rooted.hash_eq hg] at hg
        exact absurd hg.contain hc
      · exact h.linkBlock_top hi hb hw

/-- Node `k` goes to `p` and sends `out`, and of the messages in flight only `gone` is no
longer there. -/
structure Moves (sha : Sha256 H A) (c c' : PoWConfig N H A) (k : N) (p : PoWNode N H A)
    (out : Sends N H A) (gone : Option (Packet N (MessageObject H A))) : Prop where
  distinct : DistinctHashes sha c'
  chain : ChainOK sha c'
  mint : ∀ b, Minted sha c b → Minted sha c' b
  height : ∀ x, (tree c x).treeheight ≤ (tree c' x).treeheight
  stores : ∀ x h b, (tree c x).Stores h b → (tree c' x).Stores h b
  self : c'.node k = p
  other : ∀ x, x ≠ k → c'.node x = c.node x
  wire : ∀ q ∈ c.wire, gone = some q ∨ q ∈ c'.wire
  sent : ∀ x ∈ out, ⟨k, x.1, x.2⟩ ∈ c'.wire

section Moves

variable {k src : N} {p : PoWNode N H A} {out : Sends N H A}
  {gone : Option (Packet N (MessageObject H A))}

theorem Moves.height_of_ne (hv : Moves sha c c' k p out gone) (hnk : n ≠ k) :
    (tree c' n).treeheight = (tree c n).treeheight := by
  rw [tree, tree, hv.other n hnk]

theorem Moves.height_eq (hv : Moves sha c c' k p out gone)
    (hp : p.layer.blocktree.treeheight = (tree c k).treeheight) (n : N) :
    (tree c' n).treeheight = (tree c n).treeheight := by
  by_cases hnk : n = k
  · subst hnk
    rw [tree, hv.self, hp]
  · exact hv.height_of_ne hnk

/-- Only the message that is gone and the inventory in hand at `k` need a closer look. -/
theorem Moves.pass (hv : Moves sha c c' k p out gone) (h : Covered c n m)
    (hn : (tree c' n).treeheight = (tree c n).treeheight)
    (hann : ∀ hs, gone = some ⟨n, m, .blkInv hs⟩ → Tops (tree c' n) hs → Covered c' n m)
    (hask : ∀ locator, gone = some ⟨m, n, .blkGetBlocks locator⟩ → Covered c' n m)
    (hfetch : m = k → (c.node k).invFrom = some n → TopsInHand (tree c' n) (c.node k) →
      Covered c' n m)
    (hrel : n = k → TopsInHand (tree c' n) (c.node k) → Covered c' n m) : Covered c' n m := by
  refine h.pass hn (hv.stores n) (hv.height m) ?_ ?_ ?_ ?_
  · intro hs hmem ht
    rcases hv.wire _ hmem with he | hmem
    · exact hann hs he ht
    · exact .announced hs hmem ht
  · intro locator hmem
    rcases hv.wire _ hmem with he | hmem
    · exact hask locator he
    · exact .asked locator hmem
  · intro hf ht
    by_cases hmk : m = k
    · subst hmk
      exact hfetch rfl hf ht
    · rw [← hv.other m hmk] at hf ht
      exact .fetching hf ht
  · intro ht
    by_cases hnk : n = k
    · subst hnk
      exact hrel rfl ht
    · rw [← hv.other n hnk] at ht
      exact .relaying ht

theorem Moves.pass_of_hand (hv : Moves sha c c' k p out gone) (h : Covered c n m)
    (hn : (tree c' n).treeheight = (tree c n).treeheight)
    (hann : ∀ hs, gone = some ⟨n, m, .blkInv hs⟩ → Tops (tree c' n) hs → Covered c' n m)
    (hask : ∀ locator, gone = some ⟨m, n, .blkGetBlocks locator⟩ → Covered c' n m)
    (hhand : ∀ t, TopsInHand t (c.node k) → p.invFrom = (c.node k).invFrom ∧ TopsInHand t p) :
    Covered c' n m := by
  refine hv.pass h hn hann hask ?_ ?_
  · rintro rfl hf ht
    obtain ⟨hfrom, ht'⟩ := hhand _ ht
    rw [← hv.self] at hfrom ht'
    exact .fetching (hfrom.trans hf) ht'
  · rintro rfl ht
    have ht' := (hhand _ ht).2
    rw [← hv.self] at ht'
    exact .relaying ht'

theorem Moves.level (hv : Moves sha c c' k p out gone) {hs : List H} (ht : Tops (tree c' n) hs)
    (hall : ∀ x ∈ hs, (tree c m).containBlock x = true) : Covered c' n m := by
  refine .level ((hv.chain.node n).tree.height_le hv.distinct (hv.chain.node m).tree ht
    fun x hx => ?_)
  obtain ⟨b, hb⟩ := stores_iff.mp (hall x hx)
  exact (hv.stores m x b hb).contain

/-- Whoever gave the inventory has its blocks, and the others are told. -/
theorem Moves.relay (hv : Moves sha c c' n p out gone) {hs : List H}
    (hinv : InvOK (Minted sha c) (tree c src) hs)
    (hout : ∀ d ∈ nbrs n, d ≠ src → (d, .blkInv hs) ∈ out) (hnm : m ∈ nbrs n)
    (ht : Tops (tree c' n) hs) : Covered c' n m := by
  by_cases hm : m = src
  · subst hm
    exact hv.level ht hinv.stored
  · exact .announced hs (hv.sent _ (hout m hnm hm)) ht

/-- The answer to a locator goes up to the tip. -/
theorem Moves.getBlocks (hv : Moves sha c c' n p out gone) (hc : ChainOK sha c)
    (hp : p = c.node n) {locator inv : List H} {common : H} {chain : List H}
    (hg : (genesisBlock sha).block_hash ∈ locator)
    (hcommon : (tree c n).findCommonBlock locator = .ok common)
    (hchain : (tree c n).getChainFromBlock common = .ok chain) (hinv : inv = chain.reverse)
    (hout : (m, .blkInv inv) ∈ out) : Covered c' n m := by
  obtain ⟨tip, htip⟩ := stores_iff.mp (hc.node n).tree.rooted.tip
  obtain ⟨x, l, hx, hl, hmem, hch⟩ := (hc.node n).tree.getBlocks hg
  obtain rfl := Except.ok.inj (hcommon.symm.trans hx)
  obtain rfl := Except.ok.inj (hchain.symm.trans hch)
  subst hinv hp
  refine .announced _ (hv.sent _ hout) ?_
  rw [tree, hv.self]
  refine ⟨_, List.mem_reverse.mpr ?_, tip, htip, (hc.node n).tree.indexed.tip tip htip⟩
  obtain ⟨l', rfl⟩ := hl.exists_cons
  exact head_mem_takeWhile_ne _ _ _

/-- A block leaves the receiver's height, or is stored at it. -/
theorem Moves.blk_top (hv : Moves sha c c' k p out gone) (hc : ChainOK sha c) {b : POWBlock H A}
    (hb : Minted sha c b) (htree : p.layer.blocktree = ((c.node k).layer.accepted b).blocktree) :
    (tree c' k).treeheight = (tree c k).treeheight ∨ Tops (tree c' k) [b.block_hash] := by
  rw [tree, hv.self, htree]
  exact TreeOK.accepted_top hv.distinct ((hc.node k).tree.mono hv.mint) (hv.mint b hb)
    ((hc.genesis_or_born hb).imp id (.mono hv.mint))

variable [DecidableEq N]

theorem height_step (hc : ChainOK sha c) (hs : (powSys sha nbrs).step c a c')
    (hd : DistinctHashes sha c') (x : N) :
    (tree c x).treeheight ≤ (tree c' x).treeheight ∧
      ∀ k b, (tree c x).Stores k b → (tree c' x).Stores k b := by
  have hrt := fun n => (hc.node n).tree.rooted
  refine ⟨?_, ?_⟩
  · have hok : TreeOK sha (Minted sha c') (tree c x) :=
      (hc.node x).tree.mono fun b => minted_step hrt hs
    rcases (hc.step hs hd).2 x with he | ⟨b, hb, hw, he⟩
    · exact (congrArg treeheight he).ge
    · rcases hok.indexed.tip_linkBlock hok.rooted (fun c hc => hok.parent_idx hd hw hc) with
        ⟨-, hh⟩ | ⟨-, hh, -⟩
      · exact (congrArg treeheight he).ge.trans' hh.ge
      · rw [tree, tree, he, hh]
        exact Nat.le_succ _
  · rintro k b ⟨i, hi⟩
    exact ⟨i, (grows_step hrt hs x).entry hi⟩

theorem moves_post {w : List (Packet N (MessageObject H A))} (hc : ChainOK sha c)
    (hs : (powSys sha nbrs).step c a (c.post k p out w))
    (hd : DistinctHashes sha (c.post k p out w)) (hw : ∀ q ∈ c.wire, gone = some q ∨ q ∈ w) :
    Moves sha c (c.post k p out w) k p out gone where
  distinct := hd
  chain := (hc.step hs hd).1
  mint _ := minted_step (fun n => (hc.node n).tree.rooted) hs
  height x := (height_step hc hs hd x).1
  stores x := (height_step hc hs hd x).2
  self := Config.post_node_self _ _ _ _ _
  other _ hx := Config.post_node_of_ne _ _ _ _ _ hx
  wire q hq := (hw q hq).imp id fun h => List.mem_append_left _ h
  sent _ hx := (Config.mem_post_wire _ _ _ _ _).mpr (.inr ⟨rfl, hx⟩)

section Block

variable {b : POWBlock H A}

/-- A block of the inventory in hand comes, and the next one is asked for. -/
theorem Moves.blkNext (hv : Moves sha c c' k p out (some ⟨src, k, .blkBlk b⟩))
    (hc : ChainOK sha c) (h : Covered c n m) (hb : Minted sha c b)
    (hin : b.block_hash ∈ (c.node k).layer.processingBlkinv)
    (hbusy : (c.node k).layer.processing = true)
    (hp : p = { c.node k with layer := (c.node k).layer.afterBlk sha b }) : Covered c' n m := by
  obtain ⟨htree, hpr, hlist, -⟩ := PoWNode.afterBlk_frame sha (c.node k).layer b
  subst hp
  have hhand (t : BlockTree H A) (ht : TopsInHand t (c.node k)) :
      TopsInHand t { c.node k with layer := (c.node k).layer.afterBlk sha b } := by
    rw [TopsInHand, hpr, hlist]
    exact ht
  have hkeep (hn : (tree c' n).treeheight = (tree c n).treeheight) : Covered c' n m :=
    hv.pass_of_hand h hn (by rintro _ ⟨⟩) (by rintro _ ⟨⟩) fun t ht => ⟨rfl, hhand t ht⟩
  by_cases hnk : n = k
  · subst hnk
    rcases hv.blk_top hc hb htree with hh | htop
    · exact hkeep hh
    · refine .relaying ?_
      rw [hv.self]
      exact hhand _ ⟨hbusy, htop.mono (by simpa using hin)⟩
  · exact hkeep (hv.height_of_ne hnk)

/-- The last one comes, and the inventory is relayed. -/
theorem Moves.blkLast (hv : Moves sha c c' k p out (some ⟨src, k, .blkBlk b⟩))
    (hc : ChainOK sha c) (h : Covered c n m) (hb : Minted sha c b)
    (hin : b.block_hash ∈ (c.node k).layer.processingBlkinv)
    (hinv : InvOK (Minted sha c) (tree c src) (c.node k).layer.processingBlkinv)
    (hall : ∀ x ∈ (c.node k).layer.processingBlkinv,
      ((c.node k).layer.accepted b).blocktree.containBlock x = true)
    (htree : p.layer.blocktree = ((c.node k).layer.accepted b).blocktree)
    (hout : out = Bleep.relay (nbrs k) src (.blkInv (c.node k).layer.processingBlkinv))
    (hnm : m ∈ nbrs n) : Covered c' n m := by
  have hrelay (hnk : n = k) (ht : Tops (tree c' n) (c.node k).layer.processingBlkinv) :
      Covered c' n m := by
    subst hnk hout
    exact hv.relay hinv (fun d hd hne => mem_relay.mpr ⟨hd, hne, rfl⟩) hnm ht
  have hkeep (hn : (tree c' n).treeheight = (tree c n).treeheight) : Covered c' n m := by
    refine hv.pass h hn (by rintro _ ⟨⟩) (by rintro _ ⟨⟩) ?_ fun hnk ht => hrelay hnk ht.2
    -- the receiver has the whole inventory now
    rintro rfl - ht
    refine .level ((hv.chain.node n).tree.height_le hv.distinct (hv.chain.node m).tree ht.2
      fun x hx => ?_)
    rw [tree, hv.self, htree]
    exact hall x hx
  by_cases hnk : n = k
  · subst hnk
    rcases hv.blk_top hc hb htree with hh | htop
    · exact hkeep hh
    · exact hrelay rfl (htop.mono (by simpa using hin))
  · exact hkeep (hv.height_of_ne hnk)

end Block

end Moves

variable [DecidableEq N]

theorem Covered.fire (hc : ChainOK sha c) {k : N} {l : PoWAct H A} {p : PoWNode N H A}
    {out : Sends N H A}
    (hf : (powProtocol sha nbrs).fire k l (c.node k) = some (.ok (p, out)))
    (hd : DistinctHashes sha (c.post k p out c.wire)) (hnm : m ∈ nbrs n) (h : Covered c n m) :
    Covered (c.post k p out c.wire) n m := by
  have hv : Moves sha c (c.post k p out c.wire) k p out none :=
    moves_post hc (.fire hf) hd fun q hq => .inr hq
  have hrt := (hc.node k).tree.rooted
  obtain ⟨hpr, hlist, hfrom⟩ := PoWNode.fire_inventory hrt hf
  have hpass (hn : (tree (c.post k p out c.wire) n).treeheight = (tree c n).treeheight) :
      Covered (c.post k p out c.wire) n m := by
    refine hv.pass_of_hand h hn (by rintro _ ⟨⟩) (by rintro _ ⟨⟩) fun t ht => ⟨hfrom, ?_⟩
    rw [TopsInHand, hpr, hlist]
    exact ht
  rcases PoWNode.fire_ok hrt hf with htx | ⟨b, hmine, -⟩ | ⟨b, q, hq, hp, hout, -⟩
  · exact hpass (hv.height_eq (congrArg treeheight htx.chain.blocktree) n)
  · exact hpass (hv.height_eq (by rw [hmine.layer]) n)
  · by_cases hnk : n = k
    · -- the mined block is announced to every neighbour
      subst hnk
      obtain ⟨hmint, hw⟩ := (hv.chain.node n).born b (by
        rw [hv.self, hp]
        exact .inl (List.mem_append_right _ (List.mem_singleton_self _)))
      have htree : tree (c.post n p out c.wire) n = (tree c n).linkBlock b := by
        rw [tree, hv.self, hp]
        rfl
      rcases ((hc.node n).tree.mono hv.mint).linkBlock_top hd hmint hw with hh | htop
      · exact hpass (by rw [htree]; exact hh)
      · refine .announced [b.block_hash] (hv.sent (m, _) ?_) (by rw [htree]; exact htop)
        rw [hout]
        exact mem_sendAll.mpr ⟨hnm, rfl⟩
    · exact hpass (hv.height_of_ne hnk)

theorem Covered.deliver (hc : ChainOK sha c) (hsync : SyncOK sha c) {i : Nat}
    {pk : Packet N (MessageObject H A)} (hpk : c.wire[i]? = some pk) {p : PoWNode N H A}
    {out : Sends N H A}
    (hf : (powProtocol sha nbrs).recv pk.dest pk.src pk.body (c.node pk.dest) = .ok (p, out))
    (hd : DistinctHashes sha (c.post pk.dest p out (c.wire.eraseIdx i)))
    (hheed : Heeded c (.deliver i)) (hnm : m ∈ nbrs n) (h : Covered c n m) :
    Covered (c.post pk.dest p out (c.wire.eraseIdx i)) n m := by
  have hv : Moves sha c (c.post pk.dest p out (c.wire.eraseIdx i)) pk.dest p out (some pk) :=
    moves_post hc (.deliver hpk hf) hd fun q hq =>
      (mem_wire_cases hpk hq).imp (fun he => congrArg some he.symm) id
  have hok := hsync.wire pk (mem_of_wire hpk)
  have hheed := hheed pk hpk
  have hblk := hc.wire pk (mem_of_wire hpk)
  obtain ⟨src, k, body⟩ := pk
  simp only at hf hd hv hok hheed hblk ⊢
  generalize c.post k p out (c.wire.eraseIdx i) = c' at *
  have hrt := (hc.node k).tree.rooted
  have hidle (hp : (c.node k).layer.processing = false) {p' : PoWNode N H A} (t : BlockTree H A)
      (ht : TopsInHand t (c.node k)) : p'.invFrom = (c.node k).invFrom ∧ TopsInHand t p' := by
    cases hp.symm.trans ht.1
  cases PoWNode.recv_ok hrt hf with
  | tx hsil htx =>
      refine hv.pass_of_hand h (hv.height_eq (congrArg treeheight htx.chain.blocktree) n) ?_ ?_ ?_
      · rintro hs ⟨⟩
        cases hsil
      · rintro loc ⟨⟩
        cases hsil
      · intro t ht
        rw [TopsInHand, htx.chain.processing, htx.chain.processingBlkinv]
        exact ⟨htx.invFrom, ht⟩
  | invBusy hp =>
      refine hv.pass_of_hand h (hv.height_eq rfl n) ?_ (by rintro _ ⟨⟩) fun _ ht => ⟨rfl, ht⟩
      rintro l ⟨⟩ ht
      exact hv.level ht (hheed hp)
  | @invUnknown hs locator front hp hfront hun hloc =>
      refine hv.pass_of_hand h (hv.height_eq rfl n) ?_ (by rintro _ ⟨⟩) (hidle hp)
      rintro l ⟨⟩ -
      exact .asked locator (hv.sent _ (List.mem_singleton_self _))
  | @invTaken hs front x hp hfront hkn hx =>
      refine hv.pass_of_hand h (hv.height_eq rfl n) ?_ (by rintro _ ⟨⟩) (hidle hp)
      rintro l ⟨⟩ ht
      refine .fetching ?_ ?_
      · rw [hv.self]
      · rw [hv.self]
        exact ⟨rfl, ht⟩
  | invKnown hp hall =>
      refine hv.pass_of_hand h (hv.height_eq rfl n) ?_ (by rintro _ ⟨⟩) (hidle hp)
      rintro l ⟨⟩ ht
      exact hv.level ht hall
  | @getBlocks locator inv common chain hcommon hchain hinv =>
      refine hv.pass_of_hand h (hv.height_eq rfl n) (by rintro _ ⟨⟩) ?_ fun _ ht => ⟨rfl, ht⟩
      rintro loc ⟨⟩
      exact hv.getBlocks hc rfl hok.1 hcommon hchain hinv (List.mem_singleton_self _)
  | getData hk =>
      exact hv.pass_of_hand h (hv.height_eq rfl n) (by rintro _ ⟨⟩) (by rintro _ ⟨⟩)
        fun _ ht => ⟨rfl, ht⟩
  | blkAlone hp =>
      cases hp.symm.trans hok.1.1
  | @blkNext b x hp hx =>
      exact hv.blkNext hc h (hblk b rfl) hok.1.2.2 hp rfl
  | @blkLast b hp hall =>
      obtain ⟨y, front, hy, -, -, hinv⟩ := (hsync.node k).inv hp
      obtain rfl : src = y := Option.some.inj (hok.1.2.1.symm.trans hy)
      have htree := (PoWNode.afterBlk_frame sha (c.node k).layer b).1
      exact hv.blkLast hc h (hblk b rfl) hok.1.2.2 hinv hall htree rfl hnm

/-- **Every debt is passed on** by a step that loses no message and drops no
news. -/
theorem Covered.step (hc : ChainOK sha c) (hsync : SyncOK sha c)
    (hs : (powSys sha nbrs).step c a c') (hd : DistinctHashes sha c') (hkeep : Keeps a)
    (hheed : Heeded c a) (hnm : m ∈ nbrs n) (h : Covered c n m) : Covered c' n m := by
  cases hs with
  | fire hf => exact h.fire hc hf hd hnm
  | deliver hpk hf => exact h.deliver hc hsync hpk hf hd hheed hnm
  | lose _ => exact absurd hkeep id

/-! ## Runs -/

theorem covered_of_heeded
    (h : (powSys sha nbrs).Under (fun c a => Keeps a ∧ Heeded c a) c)
    (hd : DistinctHashes sha c) (hnm : m ∈ nbrs n) : Covered c n m := by
  refine h.invariant_of_stable (H := DistinctHashes sha) (P := fun c => Covered c n m)
    ?_ ?_ ?_ hd
  · exact fun s a t hr hs => distinctHashes_step hr.reach hs
  · rintro s rfl
    exact .level le_rfl
  · intro s a t hr hcov hd hcond hs
    have hds := distinctHashes_step hr.reach hs hd
    exact hcov.step (chain_invariant hr.reach hds) (sync_invariant hr.reach hds) hs hd hcond.1
      hcond.2 hnm

/-- No message about blocks is in flight and no mined block is queued. -/
def Quiescent (c : PoWConfig N H A) : Prop :=
  (∀ pk ∈ c.wire, pk.body.isPOWBlock = false) ∧ ∀ n, (c.node n).queue = []

theorem height_le_of_quiescent
    (h : (powSys sha nbrs).Under (fun c a => Keeps a ∧ Heeded c a) c)
    (hd : DistinctHashes sha c) (hq : Quiescent c) (hnm : m ∈ nbrs n) :
    (tree c n).treeheight ≤ (tree c m).treeheight := by
  -- no node waits for a block, so none processes an inventory
  have hidle : ∀ x t, ¬ TopsInHand t (c.node x) := by
    rintro x t ⟨hp, -⟩
    have hkeep := h.mono (D := fun _ a => Keeps a) fun _ _ _ hc => hc.1
    have hreq := requests_eq_load hkeep hd x
    rw [load, hp, if_pos rfl] at hreq
    obtain ⟨pk, hpk, hx⟩ := List.countP_pos_iff.mp (hreq.symm ▸ Nat.one_pos)
    have hsil := requester_of_silent (n := pk.src) (x := (pk.dest, pk.body)) (hq.1 pk hpk)
    rw [decide_eq_true_eq] at hx
    cases hsil.symm.trans hx
  cases covered_of_heeded h hd hnm with
  | level h => exact h
  | announced hs hmem _ => cases hq.1 _ hmem
  | asked locator hmem => cases hq.1 _ hmem
  | fetching _ ht => exact absurd ht (hidle m _)
  | relaying ht => exact absurd ht (hidle n _)

/-- **Block propagation converges in runs that heed every inventory**: once
nothing is in flight and nothing queued, neighbours have tips of equal index. -/
theorem converges_of_heeded
    (h : (powSys sha nbrs).Under (fun c a => Keeps a ∧ Heeded c a) c)
    (hd : DistinctHashes sha c) (hq : Quiescent c) (hnm : m ∈ nbrs n) (hmn : n ∈ nbrs m) :
    ∃ b b', (tree c n).Stores (tree c n).lasthash b ∧ (tree c m).Stores (tree c m).lasthash b' ∧
      b.block_idx = b'.block_idx := by
  have hc := chain_invariant h.reach hd
  obtain ⟨b, hb⟩ := stores_iff.mp (hc.node n).tree.rooted.tip
  obtain ⟨b', hb'⟩ := stores_iff.mp (hc.node m).tree.rooted.tip
  have hn : (tree c n).treeheight = b.block_idx + 1 := (hc.node n).tree.indexed.tip b hb
  have hm : (tree c m).treeheight = b'.block_idx + 1 := (hc.node m).tree.indexed.tip b' hb'
  have := height_le_of_quiescent h hd hq hnm
  have := height_le_of_quiescent h hd hq hmn
  exact ⟨b, b', hb, hb', by omega⟩

end Covered

theorem converges_of_heeded_two : ∃ c, (powProtocol nonceSha theOther).run
      (fun c a => decide (Keeps a ∧ Heeded c a)) mineAndFetch = some c ∧
    ∃ b b', (tree c 0).Stores (tree c 0).lasthash b ∧ (tree c 1).Stores (tree c 1).lasthash b' ∧
      b.block_idx = b'.block_idx := by
  have hrun : ((powProtocol nonceSha theOther).run (fun c a => decide (Keeps a ∧ Heeded c a))
      mineAndFetch).map (fun c =>
        decide (((mintedList nonceSha [0, 1] c).map POWBlock.block_hash).Nodup ∧ c.wire = [] ∧
          ∀ n, (c.node n).queue = [])) = some true := by decide +kernel
  obtain ⟨c, hc, hv⟩ := Option.map_eq_some_iff.mp hrun
  obtain ⟨hnodup, hwire, hqueue⟩ := of_decide_eq_true hv
  have hq : Quiescent c := by
    refine ⟨?_, hqueue⟩
    rw [hwire]
    exact fun _ hpk => nomatch hpk
  exact ⟨c, hc, converges_of_heeded
    (((powProtocol nonceSha theOther).run_under hc).mono fun _ _ _ => of_decide_eq_true)
    (distinctHashes_of_nodup (by decide) hnodup) hq (by decide) (by decide)⟩

/-! ## Without the condition -/

/-- Three nodes on a line. -/
def line : Fin 3 → List (Fin 3)
  | 0 => [1]
  | 1 => [0, 2]
  | 2 => [1]

/-- While the middle node fetches the block of one end, the other end announces
three blocks. -/
def busyInTheMiddle : List (Act (Fin 3) (PoWAct Nat Nat)) :=
  mineAt 0 7 ++ [Act.deliver 0, .deliver 0, .deliver 0] ++
    mineAt 2 8 ++ mineAt 2 9 ++ mineAt 2 10 ++ [Act.deliver 1, .deliver 1, .deliver 1] ++
    [Act.deliver 0, .deliver 0, .deliver 0, .deliver 0, .deliver 0]

/-- On reliable connections that keep the order two neighbours end up two blocks
apart, with nothing left in flight. -/
theorem tips_apart : ∃ c, (powSys nonceSha line).Under (fun c a => Keeps a ∧ InOrder c a) c ∧
    DistinctHashes nonceSha c ∧ Quiescent c ∧ 2 ∈ line 1 ∧ 1 ∈ line 2 ∧
    ∃ b b', (tree c 1).Stores (tree c 1).lasthash b ∧ (tree c 2).Stores (tree c 2).lasthash b' ∧
      b.block_idx + 2 = b'.block_idx := by
  have hrun : ((powProtocol nonceSha line).run (fun c a => decide (Keeps a ∧ InOrder c a))
      busyInTheMiddle).map (fun c =>
        (decide (((mintedList nonceSha [0, 1, 2] c).map POWBlock.block_hash).Nodup ∧ c.wire = [] ∧
            ∀ n, (c.node n).queue = []),
          ((tree c 1).entry (tree c 1).lasthash).map (fun i => i.block.block_idx),
          ((tree c 2).entry (tree c 2).lasthash).map (fun i => i.block.block_idx))) =
      some (true, some 1, some 3) := by decide +kernel
  obtain ⟨c, hc, hv⟩ := Option.map_eq_some_iff.mp hrun
  simp only [Prod.mk.injEq, decide_eq_true_eq, Option.map_eq_some_iff] at hv
  obtain ⟨⟨hnodup, hwire, hqueue⟩, ⟨i, hi, hidx⟩, j, hj, hjdx⟩ := hv
  refine ⟨c, ?_, distinctHashes_of_nodup (by decide) hnodup, ⟨?_, hqueue⟩, by decide, by decide,
    i.block, j.block, ⟨i.prevblockhash, hi⟩, ⟨j.prevblockhash, hj⟩, by omega⟩
  · exact ((powProtocol nonceSha line).run_under hc).mono fun _ _ _ => of_decide_eq_true
  · rw [hwire]
    exact fun _ hpk => nomatch hpk

end Bleep
