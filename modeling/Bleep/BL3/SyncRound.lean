/-
# `Bleep.BL3.SyncRound` — one round of synchronisation between two trees

Two trees, filled by `AppendBlock` in any order from one set `U` of blocks in which a hash
stands for one block, and with the index of each block the one after its parent's
(`Follows`).  One tree's locator goes to the other, the answer comes back, and the blocks
that are missing are fetched and appended.

The main chains of two such trees are the same from their last common block on down
(`Chain.exists_common`), and the locator lies on one of them and ends at genesis.  So what
the other tree finds is the highest hash of the locator at or below that block
(`HighestCommon`), and the inventory starts with a block that is there.  From then on each
block finds its parent in the tree, and the height after it is the larger of the old one
and the block's (`fetch_loop`).
-/
import Bleep.BL3.PoWSync
import Bleep.BL3.TreeCalls

namespace Bleep

open Protocol BlockTree

variable {N H A : Type} [DecidableEq H] {U : POWBlock H A → Prop} {t u v : BlockTree H A}

/-! ## Trees of one set of blocks -/

/-- The call appends a block of `U`, with the index after its parent's. -/
def Follows (U : POWBlock H A → Prop) (t : BlockTree H A) : TreeCall H A → Prop
  | .appendBlock b => U b ∧ ∀ q, t.Stores b.prev_block_hash q → b.block_idx = q.block_idx + 1
  | .appendBlockHash _ => False

theorem Follows.mono {U' : POWBlock H A → Prop} (hm : ∀ b, U b → U' b) {a : TreeCall H A}
    (h : Follows U t a) : Follows U' t a := by
  cases a with
  | appendBlock b => exact ⟨hm b h.1, h.2⟩
  | appendBlockHash k => exact h

theorem isChain_inv {l : List H} (hl : u.Path u.lasthash l) {c : H}
    (hc : c ∈ l) : ((l.takeWhile (· ≠ c) ++ [c]).reverse).IsChain
      fun a b => ∃ i, u.entry b = some i ∧ i.prevblockhash = some a := by
  rw [List.isChain_reverse]
  obtain ⟨rest, hrest⟩ := takeWhile_ne_prefix hc
  have hchain := hl.isChain
  rw [← hrest] at hchain
  exact hchain.left_of_append

variable [Zero H] [Zero A] {sha : Sha256 H A}

theorem TreeOK.advance_of_follows (h : TreeOK sha U t) {b : POWBlock H A}
    (hb : Follows U t (.appendBlock b)) : TreeAdvance U t (t.linkBlock b) := by
  cases hp : t.containBlock b.prev_block_hash with
  | true =>
      obtain ⟨q, hq⟩ := stores_iff.mp hp
      exact .inr ⟨b, hb.1, ⟨q, h.stored _ q hq, h.rooted.hash_eq hq, hb.2 q hq⟩, rfl⟩
  | false => exact .inl (linkBlock_of_unknown ((h.rooted.containBlockHash_eq _).trans hp))

theorem treeOK_of_follows (hi : Injective U) (hg : U (genesisBlock sha))
    (h : (callSys sha).Under (Follows U) t) : TreeOK sha U t := by
  refine h.invariant (P := TreeOK sha U) ?_ ?_
  · rintro t rfl
    exact treeOK_init hg
  · intro t a t' _ ht hc hs
    cases a with
    | appendBlock b =>
        obtain rfl := appendBlock_eq hs
        exact ht.advance hi (ht.advance_of_follows hc)
    | appendBlockHash k => exact absurd hc id

/-- The trees of a network are such trees, and their locators those of `TreeCalls`. -/
theorem follows_of_reach [LinearOrder A] [DecidableEq N] {nbrs : N → List N}
    {c : PoWConfig N H A}
    (h : (powSys sha nbrs).Reach c) (hd : DistinctHashes sha c) (n : N) :
    (callSys sha).Under (fun t a => Follows (Minted sha c) t a ∧ LinksOnly t a) (tree c n) := by
  refine h.invariant_of_stable (H := DistinctHashes sha)
    (P := fun c => (callSys sha).Under
      (fun t a => Follows (Minted sha c) t a ∧ LinksOnly t a) (tree c n)) ?_ ?_ ?_ hd
  · exact fun c a c' hr hs hd => distinctHashes_step hr hs hd
  · rintro c ⟨rfl, -⟩
    exact .start rfl
  · intro c a c' hr ih hd' _ hs
    have hmint : ∀ b, Minted sha c b → Minted sha c' b :=
      fun b => minted_step (rooted_of_reach hr) hs
    have hok := chain_invariant hr (distinctHashes_step hr hs hd')
    have ht := (hok.node n).tree.mono hmint
    have hu := ih.mono (D := fun t a => Follows (Minted sha c') t a ∧ LinksOnly t a)
      fun t a _ hc => ⟨hc.1.mono hmint, hc.2⟩
    show (callSys sha).Under _ (c'.node n).layer.blocktree
    rcases (hok.step hs hd').2 n with he | ⟨b, hb, hw, he⟩
    · rw [he]
      exact hu
    · have happend : (tree c n).appendBlock b = .ok (c'.node n).layer.blocktree := by
        rw [he]
        exact appendBlock_ok ht.rooted b
      have hwrap : NoWrap (tree c n) b := by
        intro _
        split
        · exact Nat.succ_ne_zero _
        · exact Nat.succ_ne_zero _
      refine .step hu (a := .appendBlock b)
        ⟨⟨hb, fun q hq => ht.parent_idx hd' hw hq⟩, fun hg => ?_, hwrap⟩ happend
      -- genesis has index 0, and `b` has not
      obtain ⟨q, -, -, hidx⟩ := hw
      have hbg := hd' b (genesisBlock sha) hb (.inl rfl)
        (hg.trans (ht.rooted.hash_eq ht.genesis).symm)
      rw [hbg] at hidx
      exact nomatch hidx

/-! ## What the other tree finds -/

/-- `c` is the highest hash of the locator at or below the last common block of the two
chains. -/
def HighestCommon (l l' locator : List H) (c : H) : Prop :=
  ∃ f p p' s, l = p ++ f :: s ∧ l' = p' ++ f :: s ∧ (∀ x ∈ p, x ∉ l') ∧ (∀ x ∈ p', x ∉ l) ∧
    ∃ q s', f :: s = q ++ c :: s' ∧ c ∈ locator ∧ ∀ x ∈ q, x ∉ locator

/-- A locator of the one chain, found in the other. -/
theorem TreeOK.highestCommon (hi : Injective U) (ht : TreeOK sha U t) (hu : TreeOK sha U u)
    {l l' locator : List H} (hl : t.Path t.lasthash l) (hl' : u.Path u.lasthash l') {c : H}
    (hsub : ∀ x ∈ locator, x ∈ l) (hc : l'.find? (· ∈ locator) = some c) :
    HighestCommon l l' locator c := by
  have hcl' := List.mem_of_find?_eq_some hc
  have hcl := hsub c (by simpa using List.find?_some hc)
  obtain ⟨f, p, p', s, he, he', hp, hp'⟩ := Chain.exists_common
    (fun k i j hk hk' => by rw [ht.entry_eq hi hu hk hk'])
    (fun k i q hk hq => hu.rooted.toGrounded.parent hk hq) hl hl' ⟨c, hcl', hcl⟩
  refine ⟨f, p, p', s, he, he', hp, hp', ?_⟩
  have hnone : p'.find? (· ∈ locator) = none :=
    List.find?_eq_none.mpr fun x hx => by simpa using fun hloc => hp' x hx (hsub x hloc)
  rw [he', List.find?_append, hnone, Option.none_or] at hc
  obtain ⟨hmem, q, s', hq, hno⟩ := List.find?_eq_some_iff_append.mp hc
  exact ⟨q, s', hq, of_decide_eq_true hmem, fun x hx => by simpa using hno x hx⟩

/-! ## Fetching the inventory -/

/-- What the node does with the inventory: the blocks it lacks are taken from the other
node and appended, in order. -/
def fetch (t u : BlockTree H A) (inv : List H) : Except Fault (BlockTree H A) :=
  (inv.filter fun k => !t.containBlock k).foldlM
    (fun v k => do
      let blk ← u.getBlock k
      v.appendBlock blk) t

theorem TreeOK.treeheight_linkBlock (h : TreeOK sha U v) {b p : POWBlock H A}
    (hp : v.Stores b.prev_block_hash p) (hidx : b.block_idx = p.block_idx + 1) :
    (v.linkBlock b).treeheight = max v.treeheight (b.block_idx + 1) := by
  rcases v.linkBlock_cases b with ⟨hno, -⟩ | ⟨-, -, -,
    ⟨hl, -, hh⟩ | ⟨-, hle, -, hh⟩ | ⟨-, hlt, -, hh⟩⟩
  · exact nomatch hno.symm.trans ((h.rooted.containBlockHash_eq _).trans hp.contain)
  · have htip := h.indexed.tip p (hl ▸ hp)
    omega
  · omega
  · omega

theorem TreeOK.append_next (hi : Injective U) (hv : TreeOK sha U v) (hu : TreeOK sha U u)
    {x k : H} {i : BlockTreeBlockIndex H A} (hxi : u.entry x = some i)
    (hpi : i.prevblockhash = some k) (hk : v.containBlock k = true) :
    v.appendBlock i.block = .ok (v.linkBlock i.block) ∧ TreeOK sha U (v.linkBlock i.block) ∧
      (v.linkBlock i.block).Stores x i.block ∧
      (v.linkBlock i.block).treeheight = max v.treeheight (i.block.block_idx + 1) := by
  obtain ⟨j, hkj⟩ := hu.rooted.toGrounded.parent hxi hpi
  have hx : u.Stores x i.block := ⟨i.prevblockhash, hxi⟩
  have hku : u.Stores k j.block := ⟨j.prevblockhash, hkj⟩
  have hidx := hu.indexed.succ x i k j.block hxi hpi hku
  obtain rfl : k = i.block.prev_block_hash := hu.rooted.linked x i k hxi hpi
  obtain ⟨p, hp⟩ := stores_iff.mp hk
  obtain rfl := hv.stores_eq hi hu hp hku
  have hself := hv.stores_linkBlock hi (hu.stored x _ hx) hk
  rw [hu.rooted.hash_eq hx] at hself
  have hw : WellBorn U i.block := ⟨j.block, hu.stored _ _ hku, hu.rooted.hash_eq hku, hidx⟩
  exact ⟨appendBlock_ok hv.rooted i.block,
    hv.advance hi (.inr ⟨i.block, hu.stored x _ hx, hw, rfl⟩), hself,
    hv.treeheight_linkBlock hp hidx⟩

/-- Appended one after another, the missing blocks of a piece of the other's chain find
their parents: the induction is on the piece, and `v` is the tree so far. -/
theorem fetch_loop (hi : Injective U) (ht : TreeOK sha U t) (hu : TreeOK sha U u) {ks : List H} :
    ∀ {k : H} {v : BlockTree H A}, TreeOK sha U v → (∀ x b, t.Stores x b → v.Stores x b) →
      (k :: ks).IsChain (fun a b => ∃ i, u.entry b = some i ∧ i.prevblockhash = some a) →
      v.containBlock k = true →
      (∀ b, u.Stores k b → v.treeheight = max t.treeheight (b.block_idx + 1)) →
      ∃ v', (ks.filter fun x => !t.containBlock x).foldlM
          (fun v x => do
            let blk ← u.getBlock x
            v.appendBlock blk) v = .ok v' ∧
        TreeOK sha U v' ∧ (∀ x b, v.Stores x b → v'.Stores x b) ∧
        (∀ x ∈ ks, v'.containBlock x = true) ∧
        ∀ last b, (k :: ks).getLast? = some last → u.Stores last b →
          v'.treeheight = max t.treeheight (b.block_idx + 1) := by
  induction ks with
  | nil =>
      intro k v hv _ _ _ hh
      refine ⟨v, rfl, hv, fun _ _ hb => hb, (fun _ hx => nomatch hx), fun last b hl hb => ?_⟩
      obtain rfl : k = last := Option.some.inj hl
      exact hh b hb
  | cons x ks ih =>
      intro k v hv hgrow hchain hk hh
      obtain ⟨⟨i, hxi, hpi⟩, hrest⟩ := List.isChain_cons_cons.mp hchain
      have hx : u.Stores x i.block := ⟨i.prevblockhash, hxi⟩
      -- the height so far is that of the parent, or the old one
      obtain ⟨j, hkj⟩ := hu.rooted.toGrounded.parent hxi hpi
      have hidx := hu.indexed.succ x i k j.block hxi hpi ⟨j.prevblockhash, hkj⟩
      have hheight := hh j.block ⟨j.prevblockhash, hkj⟩
      cases hlack : t.containBlock x with
      | true =>
          -- the block is there, so it is below the tip
          obtain ⟨b, hb⟩ := stores_iff.mp hlack
          obtain rfl := ht.stores_eq hi hu hb hx
          have hlow := ht.indexed.below x _ hb
          rw [List.filter_cons_of_neg (by rw [hlack]; decide)]
          obtain ⟨v', hv', hok, hgrow', hall, hlast⟩ := ih hv hgrow hrest (hgrow x _ hb).contain
            fun b' hb' => by
              obtain rfl := hb'.unique hx
              omega
          refine ⟨v', hv', hok, hgrow', fun y hy => ?_, fun last b' hl hb' => hlast last b' ?_ hb'⟩
          · rcases List.mem_cons.mp hy with rfl | hy
            · exact (hgrow' y _ (hgrow y _ hb)).contain
            · exact hall y hy
          · rwa [List.getLast?_cons_cons] at hl
      | false =>
          obtain ⟨happend, hv1, hself, hh1⟩ := hv.append_next hi hu hxi hpi hk
          obtain ⟨v', hv', hok, hgrow', hall, hlast⟩ := ih hv1
            (fun y b hb => (hgrow y b hb).linkBlock i.block) hrest hself.contain fun b' hb' => by
              obtain rfl := hb'.unique hx
              omega
          rw [List.filter_cons_of_pos (by rw [hlack]; decide), List.foldlM_cons,
            getBlock_of_stores hx]
          refine ⟨v', bind_ok.mpr ⟨_, happend, hv'⟩, hok,
            fun y b hb => hgrow' y b (hb.linkBlock i.block), fun y hy => ?_,
            fun last b' hl hb' => hlast last b' ?_ hb'⟩
          · rcases List.mem_cons.mp hy with rfl | hy
            · exact (hgrow' y _ hself).contain
            · exact hall y hy
          · rwa [List.getLast?_cons_cons] at hl

theorem TreeOK.length_tip (h : TreeOK sha U t) {l : List H} (hl : t.Path t.lasthash l) :
    l.length = t.treeheight := by
  obtain ⟨b, hb⟩ := stores_iff.mp h.rooted.tip
  rw [h.indexed.length_path h.rooted hb hl, h.indexed.tip b hb]

/-- The inventory starts with a block that is there, and the fetch brings the rest of the
other's main chain. -/
theorem fetch_chain (hi : Injective U) (ht : TreeOK sha U t) (hu : TreeOK sha U u)
    {l : List H} (hl : u.Path u.lasthash l) {c : H} (hc : c ∈ l) (hct : t.containBlock c = true) :
    ∃ t', fetch t u (l.takeWhile (· ≠ c) ++ [c]).reverse = .ok t' ∧ TreeOK sha U t' ∧
      t'.containBlock u.lasthash = true ∧ t'.treeheight = max t.treeheight u.treeheight := by
  have hchain := isChain_inv hl hc
  obtain ⟨rest, hrest⟩ := takeWhile_ne_prefix hc
  have hlast : (l.takeWhile (· ≠ c) ++ [c]).reverse.getLast? = some u.lasthash := by
    obtain ⟨s, hs⟩ := hl.exists_cons
    have hhead : (l.takeWhile (· ≠ c) ++ [c] ++ rest).head? = (l.takeWhile (· ≠ c) ++ [c]).head? :=
      List.head?_append_of_ne_nil _ (by simp)
    rw [List.getLast?_reverse, ← hhead, hrest, hs]
    rfl
  rw [List.reverse_append, List.reverse_singleton, List.singleton_append] at hchain hlast ⊢
  obtain ⟨b, hb⟩ := stores_iff.mp hct
  obtain ⟨t', hfold, hok, hgrow, hall, hheight⟩ :=
    fetch_loop hi ht hu ht (fun _ _ h => h) hchain hct
    fun b' hb' => by
      obtain rfl := ht.stores_eq hi hu hb hb'
      have hlow := ht.indexed.below c b hb
      omega
  refine ⟨t', ?_, hok, ?_, ?_⟩
  · rw [fetch, List.filter_cons_of_neg (by rw [hct]; decide)]
    exact hfold
  · rcases List.mem_cons.mp (List.mem_of_getLast? hlast) with he | hmem
    · exact he ▸ (hgrow c b hb).contain
    · exact hall _ hmem
  · obtain ⟨tip, htip⟩ := stores_iff.mp hu.rooted.tip
    rw [hheight _ tip hlast htip, hu.indexed.tip tip htip]

/-- **One round of synchronisation** between any two trees of one set of blocks. -/
theorem sync_round (hi : Injective U) (hg : U (genesisBlock sha))
    (h : (callSys sha).Under (Follows U) t) (h' : (callSys sha).Under (Follows U) u) :
    ∃ l l' locator c chain t', t.Path t.lasthash l ∧ u.Path u.lasthash l' ∧
      t.getBlockLocator = .ok locator ∧ u.findCommonBlock locator = .ok c ∧
      u.getChainFromBlock c = .ok chain ∧
      HighestCommon l l' locator c ∧
      (∃ rest, l' = chain ++ rest) ∧ chain.getLast? = some c ∧
      fetch t u chain.reverse = .ok t' ∧
      t'.Path u.lasthash l' ∧ (∀ k ∈ l', ∀ b, u.Stores k b → t'.Stores k b) ∧
      t'.treeheight = max t.treeheight u.treeheight ∧
      ∃ l'', t'.Path t'.lasthash l'' ∧ l''.length = max l.length l'.length := by
  have ht := treeOK_of_follows hi hg h
  have hu := treeOK_of_follows hi hg h'
  obtain ⟨-, l, -, hl⟩ := ht.rooted.toGrounded.tip_path
  obtain ⟨-, l', -, hl'⟩ := hu.rooted.toGrounded.tip_path
  obtain ⟨locator, hloc, hgen, hsub⟩ :=
    getBlockLocator_subset ht.rooted.toGrounded (ht.indexed.measured ht.rooted) hl
  have hroot : t.genesis = u.genesis :=
    (ht.rooted.hash_eq ht.genesis).symm.trans (hu.rooted.hash_eq hu.genesis)
  obtain ⟨c, hfind, hc⟩ := findCommonBlock_eq hu.rooted.toGrounded hl' (hroot ▸ hgen)
  have hcl' := List.mem_of_find?_eq_some hfind
  have hcl := hsub c (by simpa using List.find?_some hfind)
  obtain ⟨t', hfetch, ht', htip, hheight⟩ :=
    fetch_chain hi ht hu hl' hcl' (Path.contain_of_mem hl hcl)
  have hpath := hu.path_transfer hi ht' hl' htip
  obtain ⟨rest, hrest⟩ := takeWhile_ne_prefix hcl'
  obtain ⟨-, l'', -, hl''⟩ := ht'.rooted.toGrounded.tip_path
  refine ⟨l, l', locator, c, _, t', hl, hl', hloc, hc,
    getChainFromBlock_eq hu.rooted.toGrounded hl' hcl', ht.highestCommon hi hu hl hl' hsub hfind,
    ⟨rest, hrest.symm⟩, List.getLast?_concat, hfetch, hpath, fun k hk b hb => ?_, hheight,
    l'', hl'', ?_⟩
  · obtain ⟨p, hp⟩ := hb
    obtain ⟨j, hj⟩ := containBlock_iff.mp (Path.contain_of_mem hpath hk)
    exact ⟨p, hu.entry_eq hi ht' hp hj ▸ hj⟩
  · rw [ht'.length_tip hl'', ht.length_tip hl, hu.length_tip hl', hheight]

/-- Genesis, two blocks on it, and a third beside them. -/
def threeBlocks : List (POWBlock Nat Nat) :=
  [genesisBlock nonceSha, blockNo 1, blockNo 2, { blockNo 1 with block_hash := 7 }]

/-- A listed block over a stored one, with the next index. -/
def followsCheck (blks : List (POWBlock Nat Nat)) (t : BlockTree Nat Nat) :
    TreeCall Nat Nat → Bool
  | .appendBlock b => decide (b ∈ blks) &&
      (t.entry b.prev_block_hash).any fun i => decide (b.block_idx = i.block.block_idx + 1)
  | .appendBlockHash _ => false

theorem follows_of_check {blks : List (POWBlock Nat Nat)} {t : BlockTree Nat Nat}
    {a : TreeCall Nat Nat} (h : followsCheck blks t a = true) : Follows (· ∈ blks) t a := by
  cases a with
  | appendBlockHash k => exact nomatch h
  | appendBlock b =>
      obtain ⟨hb, hidx⟩ := Bool.and_eq_true_iff.mp h
      refine ⟨of_decide_eq_true hb, fun q hq => ?_⟩
      obtain ⟨p, hp⟩ := hq
      rw [hp] at hidx
      exact of_decide_eq_true hidx

/-- One tree has the block beside, the other the two blocks: a fork at genesis. -/
theorem sync_round_fork : ∃ t u locator c chain t',
    (callSys nonceSha).Under (Follows (· ∈ threeBlocks)) t ∧
    (callSys nonceSha).Under (Follows (· ∈ threeBlocks)) u ∧
    t.lasthash = 7 ∧ u.lasthash = 3 ∧ t.getBlockLocator = .ok locator ∧
    u.findCommonBlock locator = .ok c ∧ u.getChainFromBlock c = .ok chain ∧
    fetch t u chain.reverse = .ok t' ∧ t'.treeheight = 3 := by
  have hrun : (callRun nonceSha (followsCheck threeBlocks)
      [.appendBlock { blockNo 1 with block_hash := 7 }]).any
      (fun t => decide (t.lasthash = 7 ∧ t.treeheight = 2)) = true := by decide +kernel
  have hrun' : (callRun nonceSha (followsCheck threeBlocks)
      [.appendBlock (blockNo 1), .appendBlock (blockNo 2)]).any
      (fun u => decide (u.lasthash = 3 ∧ u.treeheight = 3)) = true := by decide +kernel
  obtain ⟨t, hu, ht⟩ := callRun_any hrun
  obtain ⟨u, hu', ht'⟩ := callRun_any hrun'
  obtain ⟨hl, hh⟩ := of_decide_eq_true ht
  obtain ⟨hl', hh'⟩ := of_decide_eq_true ht'
  have hfollow := hu.mono fun _ _ _ => follows_of_check
  have hfollow' := hu'.mono fun _ _ _ => follows_of_check
  have hinj : Injective (· ∈ threeBlocks) := fun b b' hb hb' he =>
    List.inj_on_of_nodup_map (by decide : (threeBlocks.map POWBlock.block_hash).Nodup) hb hb' he
  obtain ⟨-, -, locator, c, chain, v, -, -, hloc, hc, hchain, -, -, -, hfetch, -, -, hheight, -⟩ :=
    sync_round hinj List.mem_cons_self hfollow hfollow'
  refine ⟨t, u, locator, c, chain, v, hfollow, hfollow', hl, hl', hloc, hc, hchain, hfetch, ?_⟩
  rw [hheight, hh, hh']
  rfl

end Bleep
