/-
# `Bleep.BL3.PoWSync` — fetching the blocks of an inventory

A node that takes an inventory in hand fetches its missing blocks one after the
other, each from whoever sent the block before.  The flag and the list say
nothing about the peer, the messages in flight say nothing about the list; what
ties them together is an invariant of nodes and messages at once:

  * an inventory lists blocks its sender stores, each the parent of the next;
  * while a node processes an inventory, one request of it, or one block for it,
    is in flight, to or from the peer the inventory came from;
  * what is asked for is there, and the parent of what is sent has arrived.

The parent relation is `Link`, between *hashes of minted blocks*: it does not
mention a tree, so it survives every step.

Losing messages breaks one half of one clause (a node can wait for ever), so the
invariant `SyncOK` has `≤` and holds of all runs; the equality is
`requests_eq_load`, for runs that lose nothing.
-/
import Bleep.BL3.PoWChain

namespace Bleep

open Protocol BlockTree

variable {N H A : Type}

/-! ## Inventories -/

/-- `b` is the hash of a minted block whose parent's hash is `a`. -/
def Link (mint : POWBlock H A → Prop) (a b : H) : Prop :=
  ∃ blk, mint blk ∧ blk.block_hash = b ∧ blk.prev_block_hash = a

theorem Link.mono {mint mint' : POWBlock H A → Prop} (hm : ∀ b, mint b → mint' b) {a b : H}
    (h : Link mint a b) : Link mint' a b := by
  obtain ⟨blk, hb, hrest⟩ := h
  exact ⟨blk, hm blk hb, hrest⟩

/-- The first element with a property follows one without it, unless it is the
head. -/
theorem exists_before_find? {K : Type} {R : K → K → Prop} {f : K → Bool} {l : List K}
    (hl : l.IsChain R) {x k : K} (hhead : l.head? = some x) (hx : f x = false)
    (hk : l.find? f = some k) : ∃ a ∈ l, f a = false ∧ R a k := by
  induction l generalizing x with
  | nil => exact nomatch hhead
  | cons y l ih =>
      obtain rfl := Option.some.inj hhead
      rw [List.find?_cons, hx] at hk
      cases l with
      | nil => exact nomatch hk
      | cons z l =>
          obtain ⟨hyz, hl'⟩ := List.isChain_cons_cons.mp hl
          cases hz : f z with
          | true =>
              rw [List.find?_cons, hz] at hk
              exact ⟨y, List.mem_cons_self, hx, Option.some.inj hk ▸ hyz⟩
          | false =>
              obtain ⟨a, ha, hrest⟩ := ih hl' rfl hz hk
              exact ⟨a, List.mem_cons_of_mem _ ha, hrest⟩

theorem takeWhile_ne_prefix {K : Type} [DecidableEq K] {l : List K} {x : K} (h : x ∈ l) :
    l.takeWhile (· ≠ x) ++ [x] <+: l := by
  induction l with
  | nil => exact nomatch h
  | cons y l ih =>
      by_cases hy : y = x
      · subst hy
        simp
      · have hx : x ∈ l := (List.mem_cons.mp h).resolve_left fun he => hy he.symm
        simpa [hy] using ih hx

section Inventory

variable [DecidableEq H]

/-- A list of hashes that a node with this tree may announce. -/
structure InvOK (mint : POWBlock H A → Prop) (t : BlockTree H A) (hs : List H) : Prop where
  ne : hs ≠ []
  stored : ∀ h ∈ hs, t.containBlock h = true
  linked : hs.IsChain (Link mint)

/-- The next missing block of an inventory in hand can be asked for: its sender
has it, and the block before it is here. -/
theorem InvOK.next {mint : POWBlock H A → Prop} {sender own : BlockTree H A} {hs : List H}
    (h : InvOK mint sender hs) {front k : H}
    (hfront : hs.head? = some front) (hown : own.containBlock front = true)
    (hk : hs.find? (fun x => !own.containBlock x) = some k) :
    sender.containBlock k = true ∧ ∃ a, Link mint a k ∧ own.containBlock a = true := by
  refine ⟨h.stored k (List.mem_of_find?_eq_some hk), ?_⟩
  obtain ⟨a, -, ha, hlink⟩ := exists_before_find? h.linked hfront (by simp [hown]) hk
  exact ⟨a, hlink, by simpa using ha⟩

variable [Zero H] [Zero A] {sha : Sha256 H A} {mint : POWBlock H A → Prop} {t : BlockTree H A}

/-- What `GetBlocks` answers, from the common block upwards, may be announced. -/
theorem TreeOK.invOK_chain (h : TreeOK sha mint t) {l : List H} (hl : t.Path t.lasthash l)
    {start : H} (hs : start ∈ l) :
    InvOK mint t (l.takeWhile (· ≠ start) ++ [start]).reverse := by
  have hpre := takeWhile_ne_prefix hs
  refine ⟨by simp, fun k hk => ?_, ?_⟩
  · exact Path.contain_of_mem hl (hpre.subset (List.mem_reverse.mp hk))
  · rw [List.isChain_reverse]
    obtain ⟨rest, hrest⟩ := hpre
    have hchain := hl.isChain
    rw [← hrest] at hchain
    refine hchain.left_of_append.imp ?_
    rintro a b ⟨v, hv, hp⟩
    exact ⟨v.block, h.stored a _ ⟨v.prevblockhash, hv⟩, h.rooted.keyed a v hv,
      (h.rooted.linked a v b hv hp).symm⟩

theorem TreeOK.getBlocks (h : TreeOK sha mint t) {locator : List H}
    (hg : (genesisBlock sha).block_hash ∈ locator) :
    ∃ common l, t.findCommonBlock locator = .ok common ∧ t.Path t.lasthash l ∧ common ∈ l ∧
      t.getChainFromBlock common = .ok (l.takeWhile (· ≠ common) ++ [common]) := by
  obtain ⟨i, l, -, hl⟩ := h.rooted.toGrounded.tip_path
  rw [h.rooted.hash_eq h.genesis] at hg
  obtain ⟨common, hfind, hcommon⟩ := findCommonBlock_eq h.rooted.toGrounded hl hg
  have hmem := List.mem_of_find?_eq_some hfind
  exact ⟨common, l, hcommon, hl, hmem, getChainFromBlock_eq h.rooted.toGrounded hl hmem⟩

end Inventory

/-! ## Requests and busy nodes -/

/-- The node that waits for this message, or for the answer to it. -/
def requester (pk : Packet N (MessageObject H A)) : Option N :=
  match pk.body with
  | .blkGetData _ => some pk.src
  | .blkBlk _ => some pk.dest
  | _ => none

/-- The node it is waiting for. -/
def responder (pk : Packet N (MessageObject H A)) : N :=
  match pk.body with
  | .blkBlk _ => pk.src
  | _ => pk.dest

theorem requester_of_silent {n : N} {x : N × MessageObject H A} (h : x.2.isPOWBlock = false) :
    requester (⟨n, x.1, x.2⟩ : Packet N (MessageObject H A)) = none := by
  obtain ⟨d, o⟩ := x
  cases o with
  | txInv _ => rfl
  | txGetdata _ => rfl
  | txTxs _ => rfl
  | _ => exact nomatch h

section Requests

variable [DecidableEq N]

/-- The number of requests of a node in flight, answered or not. -/
def requests (w : List (Packet N (MessageObject H A))) (n : N) : Nat :=
  w.countP fun pk => requester pk = some n

theorem requests_append (w w' : List (Packet N (MessageObject H A))) (n : N) :
    requests (w ++ w') n = requests w n + requests w' n := List.countP_append

theorem requester_ne_of_requests {w : List (Packet N (MessageObject H A))} {n : N}
    (h : requests w n = 0) {pk : Packet N (MessageObject H A)} (hpk : pk ∈ w) :
    requester pk ≠ some n := by
  have := List.countP_eq_zero.mp h pk hpk
  simpa using this

theorem requests_packets_eq_zero {n : N} {out : Sends N H A}
    (h : ∀ x ∈ out, requester (⟨n, x.1, x.2⟩ : Packet N (MessageObject H A)) = none) (m : N) :
    requests (packets n out) m = 0 := by
  refine List.countP_eq_zero.mpr fun pk hpk => ?_
  obtain ⟨rfl, hx⟩ := mem_packets.mp hpk
  have := h _ hx
  simp [this]

theorem requests_relay_inv (n src : N) (nb : List N) (hs : List H) (m : N) :
    requests (packets n (relay nb src (.blkInv hs : MessageObject H A))) m = 0 := by
  refine requests_packets_eq_zero ?_ m
  rintro ⟨d, o⟩ hx
  obtain ⟨-, -, rfl⟩ := mem_relay.mp hx
  rfl

theorem requests_single (n d : N) (o : MessageObject H A) (m : N) :
    requests (packets n [(d, o)]) m = if requester ⟨n, d, o⟩ = some m then 1 else 0 := by
  simp [requests, packets, List.countP_cons]

theorem requests_wire {w : List (Packet N (MessageObject H A))} {i : Nat}
    {pk : Packet N (MessageObject H A)} (h : w[i]? = some pk) (m : N) :
    requests w m = requests (w.eraseIdx i) m + if requester pk = some m then 1 else 0 := by
  have := countP_wire h fun pk => requester pk = some m
  simpa [requests] using this

variable [LinearOrder A] {c c' : PoWConfig N H A}

/-- One for a node that processes an inventory. -/
def load (c : PoWConfig N H A) (n : N) : Nat := if (c.node n).layer.processing then 1 else 0

theorem load_post_self {n : N} {p : PoWNode N H A} {out : Sends N H A}
    {w : List (Packet N (MessageObject H A))} :
    load (c.post n p out w) n = if p.layer.processing then 1 else 0 := by
  rw [load, Config.post_node_self]

theorem load_post_of_ne {n m : N} (h : m ≠ n) {p : PoWNode N H A} {out : Sends N H A}
    {w : List (Packet N (MessageObject H A))} : load (c.post n p out w) m = load c m := by
  rw [load, Config.post_node_of_ne _ _ _ _ _ h, load]

/-- The balance of requests and busy nodes over a step. -/
def Balanced (c c' : PoWConfig N H A) : Prop :=
  ∀ m, requests c'.wire m + load c m = requests c.wire m + load c' m

/-- The balance has to be looked at for the node that moves, and the others' requests stay. -/
theorem balanced_post {n : N} {p : PoWNode N H A} {out : Sends N H A}
    {w : List (Packet N (MessageObject H A))}
    (hself : requests w n + requests (packets n out) n + load c n =
      requests c.wire n + if p.layer.processing then 1 else 0)
    (hother : ∀ m, m ≠ n → requests w m + requests (packets n out) m = requests c.wire m) :
    Balanced c (c.post n p out w) := by
  intro m
  rw [Config.post_wire, requests_append]
  by_cases hm : m = n
  · subst hm
    rw [load_post_self, hself]
  · rw [load_post_of_ne hm, hother m hm]

theorem balanced_of_quiet {n : N} {p : PoWNode N H A} {out : Sends N H A}
    {w : List (Packet N (MessageObject H A))}
    (hp : p.layer.processing = (c.node n).layer.processing)
    (hreq : ∀ m, requests w m + requests (packets n out) m = requests c.wire m) :
    Balanced c (c.post n p out w) :=
  balanced_post (by rw [hreq n, hp, load]) fun m _ => hreq m

theorem balanced_of_request {n d : N} {p : PoWNode N H A} {k : H}
    {w : List (Packet N (MessageObject H A))}
    (hidle : (c.node n).layer.processing = false) (hp : p.layer.processing = true)
    (hw : ∀ m, requests w m = requests c.wire m) :
    Balanced c (c.post n p [(d, .blkGetData k)] w) := by
  refine balanced_post ?_ fun m hm => ?_
  · rw [requests_single, hw n, load, hidle, hp]
    simp [requester]
  · rw [requests_single, hw m]
    simp [requester, Ne.symm hm]

theorem balanced_of_done {n src : N} {p : PoWNode N H A} {out : Sends N H A} {i : Nat}
    {b : POWBlock H A} (hpk : c.wire[i]? = some ⟨src, n, .blkBlk b⟩)
    (hbusy : (c.node n).layer.processing = true) (hp : p.layer.processing = false)
    (hout : ∀ m, requests (packets n out) m = 0) :
    Balanced c (c.post n p out (c.wire.eraseIdx i)) := by
  refine balanced_post ?_ fun m hm => ?_
  · rw [hout, requests_wire hpk n, load, hbusy, hp]
    simp [requester]
  · rw [hout, requests_wire hpk m]
    simp [requester, Ne.symm hm]

/-- The configuration after the `i`-th message in flight was handed to `n`, which
moves to `p` and sends `out`. -/
abbrev after (c : PoWConfig N H A) (i : Nat) (n : N) (p : PoWNode N H A) (out : Sends N H A) :
    PoWConfig N H A :=
  c.post n p out (c.wire.eraseIdx i)

theorem after_node {i : Nat} {n : N} {p : PoWNode N H A} {out : Sends N H A} :
    (after c i n p out).node n = p :=
  Config.post_node_self _ _ _ _ _

end Requests

/-! ## The invariant -/

variable [LinearOrder A] [DecidableEq H] [Zero H] [Zero A] {sha : Sha256 H A}

/-- Node `x` processes an inventory of `y` that lists `k`. -/
def Fetching (c : PoWConfig N H A) (x y : N) (k : H) : Prop :=
  (c.node x).layer.processing = true ∧ (c.node x).invFrom = some y ∧
    k ∈ (c.node x).layer.processingBlkinv

/-- The tree of a node. -/
abbrev tree (c : PoWConfig N H A) (n : N) : BlockTree H A := (c.node n).layer.blocktree

/-- What holds of a message in flight. -/
def PacketOK (sha : Sha256 H A) (c : PoWConfig N H A) (pk : Packet N (MessageObject H A)) : Prop :=
  match pk.body with
  | .txInv _ | .txGetdata _ | .txTxs _ => True
  | .blkInv hs => InvOK (Minted sha c) (tree c pk.src) hs
  | .blkGetBlocks locator =>
      (genesisBlock sha).block_hash ∈ locator ∧
        ∀ h ∈ locator, (tree c pk.src).containBlock h = true
  | .blkGetData k =>
      Fetching c pk.src pk.dest k ∧ (tree c pk.dest).containBlock k = true ∧
        ∃ a, Link (Minted sha c) a k ∧ (tree c pk.src).containBlock a = true
  | .blkBlk b =>
      Fetching c pk.dest pk.src b.block_hash ∧ (tree c pk.src).containBlock b.block_hash = true ∧
        (tree c pk.dest).containBlock b.prev_block_hash = true

/-- What holds of a node: it knows the parents of the blocks it works on, and it
can go on with the inventory in hand. -/
structure NodeSync (sha : Sha256 H A) (c : PoWConfig N H A) (n : N) : Prop where
  cand : ∀ b ∈ (c.node n).layer.powMiner.candidateBlk,
    (tree c n).containBlock b.prev_block_hash = true
  queue : ∀ b ∈ (c.node n).queue, (tree c n).containBlock b.prev_block_hash = true
  inv : (c.node n).layer.processing = true → ∃ y front, (c.node n).invFrom = some y ∧
    (c.node n).layer.processingBlkinv.head? = some front ∧
    (tree c n).containBlock front = true ∧
    InvOK (Minted sha c) (tree c y) (c.node n).layer.processingBlkinv

structure SyncOK [DecidableEq N] (sha : Sha256 H A) (c : PoWConfig N H A) : Prop where
  wire : ∀ pk ∈ c.wire, PacketOK sha c pk
  node : ∀ n, NodeSync sha c n
  requests_le : ∀ n, requests c.wire n ≤ load c n

/-! ## Frame lemmas -/

variable {c c' : PoWConfig N H A}

/-- Trees and minted blocks only grow. -/
structure Extends (sha : Sha256 H A) (c c' : PoWConfig N H A) : Prop where
  mint : ∀ b, Minted sha c b → Minted sha c' b
  tree : ∀ n k, (tree c n).containBlock k = true → (tree c' n).containBlock k = true

theorem InvOK.extends (he : Extends sha c c') {n : N} {hs : List H}
    (h : InvOK (Minted sha c) (tree c n) hs) : InvOK (Minted sha c') (tree c' n) hs :=
  ⟨h.ne, fun k hk => he.tree n k (h.stored k hk), h.linked.imp fun _ _ => .mono he.mint⟩

/-- A message stays good while its requester keeps waiting for it. -/
theorem PacketOK.extends (he : Extends sha c c') {pk : Packet N (MessageObject H A)}
    (hreq : ∀ n ∈ requester pk, ∀ y k, Fetching c n y k → Fetching c' n y k)
    (h : PacketOK sha c pk) :
    PacketOK sha c' pk := by
  obtain ⟨src, dest, body⟩ := pk
  cases body with
  | txInv _ => trivial
  | txGetdata _ => trivial
  | txTxs _ => trivial
  | blkInv hs => exact InvOK.extends he h
  | blkGetBlocks locator => exact ⟨h.1, fun k hk => he.tree src k (h.2 k hk)⟩
  | blkGetData k =>
      obtain ⟨hf, hk, x, hx, hx'⟩ := h
      exact ⟨hreq src rfl dest k hf, he.tree dest k hk, x, hx.mono he.mint, he.tree src x hx'⟩
  | blkBlk b =>
      obtain ⟨hf, hb, hp⟩ := h
      exact ⟨hreq dest rfl src _ hf, he.tree src _ hb, he.tree dest _ hp⟩

theorem NodeSync.extends (he : Extends sha c c') {n : N} (hn : c'.node n = c.node n)
    (h : NodeSync sha c n) : NodeSync sha c' n where
  cand b hb := he.tree n _ (h.cand b (hn ▸ hb))
  queue b hb := he.tree n _ (h.queue b (hn ▸ hb))
  inv hp := by
    rw [hn] at hp ⊢
    obtain ⟨y, front, hy, hf, hk, hi⟩ := h.inv hp
    exact ⟨y, front, hy, hf, he.tree n front hk, hi.extends he⟩

theorem packetOK_of_silent {n : N} {x : N × MessageObject H A} (h : x.2.isPOWBlock = false) :
    PacketOK sha c ⟨n, x.1, x.2⟩ := by
  obtain ⟨d, o⟩ := x
  cases o with
  | txInv _ => trivial
  | txGetdata _ => trivial
  | txTxs _ => trivial
  | _ => exact nomatch h

/-- What a move of a node keeps of `NodeSync`. -/
theorem NodeSync.move (he : Extends sha c c') {n : N} (hr : (tree c' n).Rooted)
    (h : NodeSync sha c n) (hm : MinerStep (c.node n).layer (c'.node n).layer)
    (hq : ∀ b ∈ (c'.node n).queue, b ∈ (c.node n).queue ∨
      ∃ x ∈ (c.node n).layer.powMiner.candidateBlk, x.prev_block_hash = b.prev_block_hash)
    (hi : (c'.node n).layer.processing = true → ∃ y front, (c'.node n).invFrom = some y ∧
      (c'.node n).layer.processingBlkinv.head? = some front ∧
      (tree c' n).containBlock front = true ∧
      InvOK (Minted sha c') (tree c' y) (c'.node n).layer.processingBlkinv) :
    NodeSync sha c' n := by
  refine ⟨?_, ?_, hi⟩
  · intro b hb
    rcases hm with ⟨x, hx, -, hprev⟩ | ⟨hsame, -⟩
    · obtain rfl := Option.some.inj (hx.symm.trans hb)
      rw [hprev]
      exact hr.tip
    · exact he.tree n _ (h.cand b (hsame ▸ hb))
  · intro b hb
    rcases hq b hb with hb | ⟨x, hx, hprev⟩
    · exact he.tree n _ (h.queue b hb)
    · exact hprev ▸ he.tree n _ (h.cand x hx)

theorem NodeSync.inv_extends (he : Extends sha c c') {n : N} (h : NodeSync sha c n)
    (hp : (c'.node n).layer.processing = true → (c.node n).layer.processing = true)
    (hl : (c'.node n).layer.processingBlkinv = (c.node n).layer.processingBlkinv)
    (hf : (c'.node n).invFrom = (c.node n).invFrom) :
    (c'.node n).layer.processing = true → ∃ y front, (c'.node n).invFrom = some y ∧
      (c'.node n).layer.processingBlkinv.head? = some front ∧
      (tree c' n).containBlock front = true ∧
      InvOK (Minted sha c') (tree c' y) (c'.node n).layer.processingBlkinv := by
  intro hp'
  obtain ⟨y, front, hy, hfr, hk, hi⟩ := h.inv (hp hp')
  exact ⟨y, front, hf.trans hy, hl ▸ hfr, he.tree n front hk, hl ▸ hi.extends he⟩

variable [DecidableEq N] {nbrs : N → List N} {a : Act N (PoWAct H A)}

/-- **The step lemma.**  Process `n` moves to `p`, sends `out` and leaves `w` of
the messages that were in flight. -/
theorem SyncOK.post (h : SyncOK sha c) {n : N} {p : PoWNode N H A} {out : Sends N H A}
    {w : List (Packet N (MessageObject H A))} (hw : ∀ pk ∈ w, pk ∈ c.wire)
    (he : Extends sha c (c.post n p out w))
    (hkeep : (∀ y k, Fetching c n y k → Fetching (c.post n p out w) n y k) ∨ requests w n = 0)
    (hout : ∀ x ∈ out, PacketOK sha (c.post n p out w) ⟨n, x.1, x.2⟩)
    (hnode : NodeSync sha (c.post n p out w) n) (hbal : Balanced c (c.post n p out w)) :
    SyncOK sha (c.post n p out w) ∧ Balanced c (c.post n p out w) := by
  refine ⟨⟨?_, ?_, ?_⟩, hbal⟩
  · intro pk hpk
    rcases (Config.mem_post_wire _ _ _ _ _).mp hpk with hold | ⟨rfl, hnew⟩
    · refine (h.wire pk (hw pk hold)).extends he fun m hm y k hy => ?_
      by_cases hmn : m = n
      · subst hmn
        rcases hkeep with hkeep | h0
        · exact hkeep y k hy
        · exact absurd hm (requester_ne_of_requests h0 hold)
      · rw [Fetching, Config.post_node_of_ne _ _ _ _ _ hmn]
        exact hy
    · exact hout _ hnew
  · intro m
    by_cases hmn : m = n
    · exact hmn ▸ hnode
    · exact (h.node m).extends he (Config.post_node_of_ne _ _ _ _ _ hmn)
  · intro m
    have := hbal m
    have := h.requests_le m
    omega

/-! ## One step -/

theorem extends_step (hc : ChainOK sha c) (hs : (powSys sha nbrs).step c a c') :
    Extends sha c c' where
  mint _ := minted_step (fun n => (hc.node n).tree.rooted) hs
  tree n _ := (grows_step (fun n => (hc.node n).tree.rooted) hs n).contain

theorem SyncOK.fire (hc : ChainOK sha c) (h : SyncOK sha c) {n : N} {l : PoWAct H A}
    {p : PoWNode N H A} {out : Sends N H A}
    (hf : (powProtocol sha nbrs).fire n l (c.node n) = some (.ok (p, out)))
    (hc' : ChainOK sha (c.post n p out c.wire)) :
    SyncOK sha (c.post n p out c.wire) ∧ Balanced c (c.post n p out c.wire) := by
  have he : Extends sha c (c.post n p out c.wire) := extends_step hc (.fire hf)
  have hrt := (hc.node n).tree.rooted
  have hrt' := (hc'.node n).tree.rooted
  have hself : (c.post n p out c.wire).node n = p := Config.post_node_self _ _ _ _ _
  have hm : MinerStep (c.node n).layer ((c.post n p out c.wire).node n).layer := by
    rw [hself]
    exact fire_minerStep hrt hf
  obtain ⟨hpr, hlist, hfrom⟩ := PoWNode.fire_inventory hrt hf
  have hkeep : ∀ y k, Fetching c n y k → Fetching (c.post n p out c.wire) n y k := by
    intro y k hy
    rw [Fetching, hself, hpr, hfrom, hlist]
    exact hy
  have hinv := NodeSync.inv_extends he (h.node n) (by rw [hself, hpr]; exact id)
    (by rw [hself, hlist]) (by rw [hself, hfrom])
  -- what is sent asks for nothing
  have hquiet : (∀ x ∈ out, requester (⟨n, x.1, x.2⟩ : Packet N (MessageObject H A)) = none) →
      Balanced c (c.post n p out c.wire) := fun hreq =>
    balanced_of_quiet hpr fun m => by rw [requests_packets_eq_zero hreq m, Nat.add_zero]
  rcases PoWNode.fire_ok hrt hf with htx | ⟨b, hmine, rfl⟩ | ⟨b, q, hq, hp, rfl, -⟩
  · refine h.post (fun _ => id) he (.inl hkeep) ?_ ?_ (hquiet ?_)
    · exact fun x hx => packetOK_of_silent (htx.silent x hx)
    · refine (h.node n).move he hrt' hm ?_ hinv
      intro b hb
      rw [hself, htx.queue] at hb
      exact .inl hb
    · exact fun x hx => requester_of_silent (htx.silent x hx)
  · refine h.post (fun _ => id) he (.inl hkeep) (fun x hx => nomatch hx) ?_
      (hquiet fun x hx => nomatch hx)
    refine (h.node n).move he hrt' hm ?_ hinv
    intro b' hb'
    rw [hself, hmine.queue, List.mem_append, List.mem_singleton] at hb'
    rcases hb' with hb' | rfl
    · exact .inl hb'
    · obtain ⟨x, nonce, timestamp, hx, rfl⟩ := hmine.block
      exact .inr ⟨x, hx, rfl⟩
  · have hprev := (h.node n).queue b (hq ▸ List.mem_cons_self)
    refine h.post (fun _ => id) he (.inl hkeep) ?_ ?_ (hquiet ?_)
    · rintro ⟨m, o⟩ hx
      obtain ⟨-, rfl⟩ := mem_sendAll.mp hx
      refine ⟨List.cons_ne_nil _ _, fun k hk => ?_, List.isChain_singleton _⟩
      rw [List.mem_singleton.mp hk]
      show (tree (c.post n p _ c.wire) n).containBlock b.block_hash = true
      rw [tree, hself, hp]
      exact contain_linkBlock_self hrt hprev
    · refine (h.node n).move he hrt' hm ?_ hinv
      intro b' hb'
      rw [hself, hp] at hb'
      exact .inl (hq ▸ List.mem_cons_of_mem _ hb')
    · rintro ⟨m, o⟩ hx
      obtain ⟨-, rfl⟩ := mem_sendAll.mp hx
      rfl

/-! ### One delivery -/

/-- What the delivery of a message has in common with that of every other. -/
structure Delivery (sha : Sha256 H A) (c : PoWConfig N H A) (i : Nat) (src n : N)
    (body : MessageObject H A) (p : PoWNode N H A) (out : Sends N H A) : Prop where
  chain : ChainOK sha c
  sync : SyncOK sha c
  place : c.wire[i]? = some ⟨src, n, body⟩
  grows : Extends sha c (after c i n p out)
  rooted : (tree (after c i n p out) n).Rooted
  miner : MinerStep (c.node n).layer p.layer
  queue : p.queue = (c.node n).queue

namespace Delivery

variable {i : Nat} {src n : N} {body : MessageObject H A} {p : PoWNode N H A}
  {out : Sends N H A}

theorem packet (d : Delivery sha c i src n body p out) :
    PacketOK sha c ⟨src, n, body⟩ :=
  d.sync.wire _ (mem_of_wire d.place)

theorem requests_eq (d : Delivery sha c i src n body p out) (m : N) :
    requests c.wire m = requests (c.wire.eraseIdx i) m +
      if requester (⟨src, n, body⟩ : Packet N (MessageObject H A)) = some m then 1 else 0 :=
  requests_wire d.place m

theorem syncOK (d : Delivery sha c i src n body p out)
    (hkeep : (∀ y k, Fetching c n y k → Fetching (after c i n p out) n y k) ∨
      requests (c.wire.eraseIdx i) n = 0)
    (hout : ∀ x ∈ out, PacketOK sha (after c i n p out) ⟨n, x.1, x.2⟩)
    (hnode : NodeSync sha (after c i n p out) n) (hbal : Balanced c (after c i n p out)) :
    SyncOK sha (after c i n p out) ∧ Balanced c (after c i n p out) :=
  d.sync.post (fun _ => mem_of_mem_eraseIdx) d.grows hkeep hout hnode hbal

omit [DecidableEq H] [Zero H] [Zero A] in
theorem fetching {y : N} {k : H} (hp : p.layer.processing = true) (hy : p.invFrom = some y)
    (hk : k ∈ p.layer.processingBlkinv) : Fetching (after c i n p out) n y k := by
  rw [Fetching, after_node]
  exact ⟨hp, hy, hk⟩

theorem nodeSync (d : Delivery sha c i src n body p out)
    (hi : p.layer.processing = true → ∃ y front, p.invFrom = some y ∧
      p.layer.processingBlkinv.head? = some front ∧
      (tree (after c i n p out) n).containBlock front = true ∧
      InvOK (Minted sha (after c i n p out)) (tree (after c i n p out) y)
        p.layer.processingBlkinv) :
    NodeSync sha (after c i n p out) n := by
  refine (d.sync.node n).move d.grows d.rooted ?_ (fun b hb => ?_) ?_
  · rw [after_node]
    exact d.miner
  · rw [after_node, d.queue] at hb
    exact .inl hb
  · rw [after_node]
    exact hi

section SameInventory

variable (hp : p.layer.processing = (c.node n).layer.processing)
  (hl : p.layer.processingBlkinv = (c.node n).layer.processingBlkinv)
  (hf : p.invFrom = (c.node n).invFrom)
include hp hl hf

omit [DecidableEq H] [Zero H] [Zero A] in
theorem keeps (y : N) (k : H) (h : Fetching c n y k) : Fetching (after c i n p out) n y k :=
  fetching (hp.trans h.1) (hf.trans h.2.1) (hl ▸ h.2.2)

theorem nodeSync_of_same (d : Delivery sha c i src n body p out) :
    NodeSync sha (after c i n p out) n := by
  refine d.nodeSync fun hp' => ?_
  obtain ⟨y, front, hy, hfront, hk, hinv⟩ := (d.sync.node n).inv (hp ▸ hp')
  exact ⟨y, front, hf.trans hy, hl ▸ hfront, d.grows.tree n front hk, hl ▸ hinv.extends d.grows⟩

/-- Neither the message nor the answers ask for a block or bring one. -/
theorem quiet (d : Delivery sha c i src n body p out)
    (hnone : requester (⟨src, n, body⟩ : Packet N (MessageObject H A)) = none)
    (hreq : ∀ x ∈ out, requester (⟨n, x.1, x.2⟩ : Packet N (MessageObject H A)) = none)
    (hout : ∀ x ∈ out, PacketOK sha (after c i n p out) ⟨n, x.1, x.2⟩) :
    SyncOK sha (after c i n p out) ∧ Balanced c (after c i n p out) := by
  refine d.syncOK (.inl (keeps hp hl hf)) hout (d.nodeSync_of_same hp hl hf) ?_
  refine balanced_of_quiet hp fun m => ?_
  rw [d.requests_eq m, hnone, requests_packets_eq_zero hreq m, if_neg nofun]

end SameInventory

theorem invUnknown {hs locator : List H}
    (d : Delivery sha c i src n (.blkInv hs) (c.node n) [(src, .blkGetBlocks locator)])
    (hloc : (tree c n).getBlockLocator = .ok locator) :
    SyncOK sha (after c i n (c.node n) [(src, .blkGetBlocks locator)]) ∧
      Balanced c (after c i n (c.node n) [(src, .blkGetBlocks locator)]) := by
  refine d.quiet rfl rfl rfl rfl (List.forall_mem_singleton.mpr rfl)
    (List.forall_mem_singleton.mpr ?_)
  have hok := (d.chain.node n).tree
  have hmeas := hok.indexed.measured hok.rooted
  obtain ⟨loc, hloc', hg, hall⟩ := getBlockLocator_ok hok.rooted.toGrounded hmeas
  obtain rfl := Except.ok.inj (hloc.symm.trans hloc')
  have hgen : (tree c n).genesis = (genesisBlock sha).block_hash :=
    (hok.rooted.hash_eq hok.genesis).symm
  exact ⟨hgen ▸ hg, fun k hk => d.grows.tree n k (hall k hk)⟩

theorem invTaken {hs : List H} {front k : H} {out : Sends N H A}
    (d : Delivery sha c i src n (.blkInv hs) p out)
    (hidle : (c.node n).layer.processing = false) (hp : p.layer.processing = true)
    (hl : p.layer.processingBlkinv = hs) (hf : p.invFrom = some src)
    (ho : out = [(src, .blkGetData k)]) (hfront : hs.head? = some front)
    (hkn : (tree c n).containBlock front = true)
    (hk : hs.find? (fun x => !(tree c n).containBlock x) = some k) :
    SyncOK sha (after c i n p out) ∧ Balanced c (after c i n p out) := by
  subst ho
  -- nothing was in flight for this node, and now its first request is
  have hload : load c n = 0 := by rw [load, hidle]; rfl
  have h0 : requests (c.wire.eraseIdx i) n = 0 := by
    have := d.requests_eq n
    have := d.sync.requests_le n
    omega
  have hinv : InvOK (Minted sha c) (tree c src) hs := d.packet
  obtain ⟨hstored, a, hlink, ha⟩ := hinv.next hfront hkn hk
  refine d.syncOK (.inr h0) (List.forall_mem_singleton.mpr ?_) ?_ ?_
  · exact ⟨fetching hp hf (hl ▸ List.mem_of_find?_eq_some hk), d.grows.tree src k hstored,
      a, hlink.mono d.grows.mint, d.grows.tree n a ha⟩
  · subst hl
    exact d.nodeSync fun _ =>
      ⟨src, front, hf, hfront, d.grows.tree n front hkn, hinv.extends d.grows⟩
  · exact balanced_of_request hidle hp fun m => (d.requests_eq m).symm

theorem invKnown {hs : List H} (d : Delivery sha c i src n (.blkInv hs) p [])
    (hidle : (c.node n).layer.processing = false) (hp : p.layer.processing = false) :
    SyncOK sha (after c i n p []) ∧ Balanced c (after c i n p []) := by
  refine d.syncOK (.inl fun y k hy => ?_) (fun x hx => nomatch hx) ?_ ?_
  · exact nomatch hidle.symm.trans hy.1
  · exact d.nodeSync fun hp' => nomatch hp.symm.trans hp'
  · refine balanced_of_quiet (hp.trans hidle.symm) fun m => ?_
    rw [d.requests_eq m]
    rfl

theorem getBlocks {locator : List H} {common : H} {chain : List H}
    (d : Delivery sha c i src n (.blkGetBlocks locator) (c.node n)
      [(src, .blkInv chain.reverse)])
    (hcommon : (tree c n).findCommonBlock locator = .ok common)
    (hchain : (tree c n).getChainFromBlock common = .ok chain) :
    SyncOK sha (after c i n (c.node n) [(src, .blkInv chain.reverse)]) ∧
      Balanced c (after c i n (c.node n) [(src, .blkInv chain.reverse)]) := by
  refine d.quiet rfl rfl rfl rfl (List.forall_mem_singleton.mpr rfl)
    (List.forall_mem_singleton.mpr ?_)
  have hok := (d.chain.node n).tree
  obtain ⟨x, l, hx, hl, hmem, hch⟩ := hok.getBlocks d.packet.1
  obtain rfl := Except.ok.inj (hcommon.symm.trans hx)
  obtain rfl := Except.ok.inj (hchain.symm.trans hch)
  exact (hok.invOK_chain hl hmem).extends d.grows

theorem getData {k : H} {b : POWBlock H A}
    (d : Delivery sha c i src n (.blkGetData k) (c.node n) [(src, .blkBlk b)])
    (hd : DistinctHashes sha (after c i n (c.node n) [(src, .blkBlk b)]))
    (hk : (tree c n).Stores k b) :
    SyncOK sha (after c i n (c.node n) [(src, .blkBlk b)]) ∧
      Balanced c (after c i n (c.node n) [(src, .blkBlk b)]) := by
  obtain ⟨hf, hcon, a, hlink, ha⟩ := d.packet
  have hok := (d.chain.node n).tree
  have hbk := hok.rooted.hash_eq hk
  -- the block stored here is the one whose parent the requester has
  have hb : b.prev_block_hash = a := by
    obtain ⟨blk, hblk, hhash, hprev⟩ := hlink
    have hmint := hok.stored k b hk
    rw [hd b blk (d.grows.mint b hmint) (d.grows.mint blk hblk) (hbk.trans hhash.symm)]
    exact hprev
  have hwait : Fetching (after c i n (c.node n) [(src, .blkBlk b)]) src n b.block_hash := by
    rw [hbk]
    by_cases hsn : src = n
    · subst hsn
      exact keeps rfl rfl rfl _ _ hf
    · rw [Fetching, Config.post_node_of_ne _ _ _ _ _ hsn]
      exact hf
  refine d.syncOK (.inl (keeps rfl rfl rfl)) (List.forall_mem_singleton.mpr ?_)
    (d.nodeSync_of_same rfl rfl rfl) (balanced_of_quiet rfl fun m => ?_)
  · exact ⟨hwait, d.grows.tree n _ (hbk.symm ▸ hk.contain), d.grows.tree src _ (hb.symm ▸ ha)⟩
  · rw [requests_single, d.requests_eq m]
    rfl

theorem blkNext {b : POWBlock H A} {k : H} {out : Sends N H A}
    (d : Delivery sha c i src n (.blkBlk b) p out)
    (hL : p.layer = (c.node n).layer.afterBlk sha b) (hf : p.invFrom = (c.node n).invFrom)
    (ho : out = [(src, .blkGetData k)]) (hp : (c.node n).layer.processing = true)
    (hk : (c.node n).layer.processingBlkinv.find?
      (fun x => !((c.node n).layer.accepted b).blocktree.containBlock x) = some k) :
    SyncOK sha (after c i n p out) ∧ Balanced c (after c i n p out) := by
  subst ho
  obtain ⟨⟨-, hfrom, -⟩, -, -⟩ := d.packet
  obtain ⟨y, front, hy, hfront, hown, hinv⟩ := (d.sync.node n).inv hp
  obtain rfl : src = y := Option.some.inj (hfrom.symm.trans hy)
  obtain ⟨htree, hpr, hlist, -⟩ := PoWNode.afterBlk_frame sha (c.node n).layer b
  rw [← hL] at htree hpr hlist
  rw [← htree] at hk
  have hown' := d.grows.tree n front hown
  rw [tree, after_node] at hown'
  obtain ⟨hstored, a, hlink, ha⟩ := hinv.next hfront hown' hk
  have hnow : (tree (after c i n p [(src, .blkGetData k)]) n).containBlock a = true := by
    rw [tree, after_node]
    exact ha
  refine d.syncOK (.inl (keeps hpr hlist hf)) (List.forall_mem_singleton.mpr ?_)
    (d.nodeSync_of_same hpr hlist hf) (balanced_of_quiet hpr fun m => ?_)
  · exact ⟨fetching (hpr.trans hp) (hf.trans hfrom) (hlist ▸ List.mem_of_find?_eq_some hk),
      d.grows.tree src k hstored, a, hlink.mono d.grows.mint, hnow⟩
  · rw [requests_single, d.requests_eq m]
    rfl

theorem blkLast {b : POWBlock H A} {nb : List N} {out : Sends N H A}
    (d : Delivery sha c i src n (.blkBlk b) p out)
    (hL : p.layer = { (c.node n).layer.afterBlk sha b with processing := false })
    (ho : out = relay nb src (.blkInv (c.node n).layer.processingBlkinv))
    (hp : (c.node n).layer.processing = true)
    (hall : ∀ h ∈ (c.node n).layer.processingBlkinv,
      ((c.node n).layer.accepted b).blocktree.containBlock h = true) :
    SyncOK sha (after c i n p out) ∧ Balanced c (after c i n p out) := by
  subst ho
  obtain ⟨y, front, -, -, -, hinv⟩ := (d.sync.node n).inv hp
  obtain ⟨htree, -, -, -⟩ := PoWNode.afterBlk_frame sha (c.node n).layer b
  have hdone : p.layer.processing = false := by rw [hL]
  -- the block was the one thing in flight for this node
  have hload : load c n = 1 := by rw [load, hp]; rfl
  have hone : requests c.wire n = requests (c.wire.eraseIdx i) n + 1 := by
    rw [d.requests_eq n]
    simp [requester]
  have hle := d.sync.requests_le n
  refine d.syncOK (.inr (by omega)) ?_ (d.nodeSync fun hp' => nomatch hdone.symm.trans hp') ?_
  · rintro ⟨m, o⟩ hx
    obtain ⟨-, -, rfl⟩ := mem_relay.mp hx
    refine ⟨hinv.ne, fun k hk => ?_, hinv.linked.imp fun _ _ => .mono d.grows.mint⟩
    show (tree (after c i n p _) n).containBlock k = true
    rw [tree, after_node, hL]
    exact htree ▸ hall k hk
  · exact balanced_of_done d.place hp hdone (requests_relay_inv n src nb _)

end Delivery

theorem SyncOK.deliver (hc : ChainOK sha c) (h : SyncOK sha c) {i : Nat}
    {pk : Packet N (MessageObject H A)} (hpk : c.wire[i]? = some pk) {p : PoWNode N H A}
    {out : Sends N H A}
    (hf : (powProtocol sha nbrs).recv pk.dest pk.src pk.body (c.node pk.dest) = .ok (p, out))
    (hc' : ChainOK sha (after c i pk.dest p out))
    (hd : DistinctHashes sha (after c i pk.dest p out)) :
    SyncOK sha (after c i pk.dest p out) ∧ Balanced c (after c i pk.dest p out) := by
  have he : Extends sha c (after c i pk.dest p out) := extends_step hc (.deliver hpk hf)
  obtain ⟨src, n, body⟩ := pk
  have hrt := (hc.node n).tree.rooted
  have d : Delivery sha c i src n body p out :=
    ⟨hc, h, hpk, he, (hc'.node n).tree.rooted, recv_minerStep hrt hf, PoWNode.recv_queue hrt hf⟩
  cases PoWNode.recv_ok hrt hf with
  | tx hsil htx =>
      refine d.quiet htx.chain.processing htx.chain.processingBlkinv htx.invFrom ?_ ?_ ?_
      · exact requester_of_silent (x := (n, body)) hsil
      · exact fun x hx => requester_of_silent (htx.silent x hx)
      · exact fun x hx => packetOK_of_silent (htx.silent x hx)
  | invBusy _ => exact d.quiet rfl rfl rfl rfl (fun x hx => nomatch hx) fun x hx => nomatch hx
  | invUnknown _ _ _ hloc => exact d.invUnknown hloc
  | @invTaken hs front k hp hfront hkn hk =>
      exact d.invTaken hp rfl rfl rfl rfl hfront (hrt.containBlockHash_eq front ▸ hkn) hk
  | invKnown hp _ => exact d.invKnown hp rfl
  | getBlocks hcommon hchain hinv =>
      subst hinv
      exact d.getBlocks hcommon hchain
  | getData hk => exact d.getData hd hk
  | blkAlone hp => exact nomatch hp.symm.trans d.packet.1.1
  | blkNext hp hk => exact d.blkNext rfl rfl rfl hp hk
  | blkLast hp hall => exact d.blkLast rfl rfl hp hall

theorem SyncOK.lose (h : SyncOK sha c) (i : Nat) :
    SyncOK sha { c with wire := c.wire.eraseIdx i } := by
  have he : Extends sha c { c with wire := c.wire.eraseIdx i } := ⟨fun _ => id, fun _ _ => id⟩
  refine ⟨fun pk hpk => h.wire pk (mem_of_mem_eraseIdx hpk), ?_, ?_⟩
  · exact fun n => (h.node n).extends he rfl
  · exact fun n => ((List.eraseIdx_sublist c.wire i).countP_le).trans (h.requests_le n)

theorem SyncOK.step (hc : ChainOK sha c) (h : SyncOK sha c)
    (hs : (powSys sha nbrs).step c a c') (hd : DistinctHashes sha c') :
    SyncOK sha c' ∧ (Keeps a → Balanced c c') := by
  have hc' := (hc.step hs hd).1
  cases hs with
  | fire hf =>
      obtain ⟨hok, hb⟩ := h.fire hc hf hc'
      exact ⟨hok, fun _ => hb⟩
  | deliver hpk hf =>
      obtain ⟨hok, hb⟩ := h.deliver hc hpk hf hc' hd
      exact ⟨hok, fun _ => hb⟩
  | lose _ => exact ⟨h.lose _, nofun⟩

/-! ## Runs -/

theorem syncOK_init : SyncOK sha { node := (powProtocol sha nbrs).start, wire := [] } := by
  refine ⟨?_, fun _ => ⟨?_, ?_, nofun⟩, fun _ => Nat.zero_le _⟩
  · exact fun _ hpk => nomatch hpk
  · exact fun _ hb => nomatch hb
  · exact fun _ hb => nomatch hb

/-- **The invariant of block synchronisation**, for every order of deliveries and
whatever is lost. -/
theorem sync_invariant (h : (powSys sha nbrs).Reach c) (hd : DistinctHashes sha c) :
    SyncOK sha c := by
  refine h.invariant_of_stable (H := DistinctHashes sha) ?_ ?_ ?_ hd
  · exact fun s a t hr hs => distinctHashes_step hr hs
  · rintro s rfl
    exact syncOK_init
  · intro s a t hr hok hd _ hs
    exact (hok.step (chain_invariant hr (distinctHashes_step hr hs hd)) hs hd).1

/-- If nothing is lost, a node that processes an inventory has its one request
in flight. -/
theorem requests_eq_load (h : (powSys sha nbrs).Under (fun _ a => Keeps a) c)
    (hd : DistinctHashes sha c) (n : N) : requests c.wire n = load c n := by
  refine h.invariant_of_stable (H := DistinctHashes sha)
    (P := fun c => ∀ n, requests c.wire n = load c n) ?_ ?_ ?_ hd n
  · exact fun s a t hr hs => distinctHashes_step hr.reach hs
  · rintro s rfl n
    rfl
  · intro s a t hr heq hd hkeep hs m
    have hds := distinctHashes_step hr.reach hs hd
    have hok := sync_invariant hr.reach hds
    have hbal := (hok.step (chain_invariant hr.reach hds) hs hd).2 hkeep m
    have := heq m
    omega

theorem SyncOK.not_aborts (hc : ChainOK sha c) (h : SyncOK sha c) (a : Act N (PoWAct H A))
    (e : Fault) : ¬ (powProtocol sha nbrs).Aborts c a e := by
  intro ha
  cases ha with
  | @fire n l _ hf =>
      have hrt := (hc.node n).tree.rooted
      cases l with
      | txgen sid rid amount hash => cases hf
      | txbroadcast => cases hf
      | miningTimer nonce timestamp =>
          simp only [powProtocol, PoWNode.fire] at hf
          split at hf
          · next ht =>
              obtain ⟨b, hb⟩ := Option.isSome_iff_exists.mp ((hc.node n).timer ht)
              simp only [POWMiner.timerCallback, hb] at hf
              cases hf
          · cases hf
      | blockMiningComplete =>
          simp only [powProtocol, PoWNode.fire] at hf
          split at hf
          · cases hf
          · rw [BL_ProtocolLayerPoW.emuBlockMiningComplete_eq hrt] at hf
            cases hf
  | @deliver i pk _ hpk hf =>
      have hok := h.wire pk (mem_of_wire hpk)
      have hrt := (hc.node pk.dest).tree.rooted
      -- it is enough that the handler answers
      have hans : (∃ r, (c.node pk.dest).layer.recvMsgHandler sha (nbrs pk.dest) pk.src pk.body =
          .ok r) → False := by
        rintro ⟨r, hr⟩
        simp only [powProtocol, PoWNode.recv, hr] at hf
        cases hf
      refine hans ?_
      obtain ⟨src, n, body⟩ := pk
      cases body with
      | txInv _ => exact ⟨_, rfl⟩
      | txGetdata _ => exact ⟨_, rfl⟩
      | txTxs _ => exact ⟨_, rfl⟩
      | blkInv hs =>
          obtain ⟨front, tail, rfl⟩ := List.exists_cons_of_ne_nil hok.ne
          have hmeas := (hc.node n).tree.indexed.measured hrt
          have hhead : (front :: tail).head? = some front := rfl
          exact BL_ProtocolLayerPoW.recvPOWBlockInvHandler_total hrt src hhead (.inr hmeas.height)
      | blkGetBlocks locator =>
          obtain ⟨x, l, hx, -, -, hch⟩ := (hc.node n).tree.getBlocks hok.1
          exact ⟨_, bind_ok.mpr ⟨_, hx, bind_ok.mpr ⟨_, hch, rfl⟩⟩⟩
      | blkGetData k =>
          obtain ⟨b, hb⟩ := stores_iff.mp hok.2.1
          exact ⟨_, BL_ProtocolLayerPoW.recvPOWBlockGetDataHandler_eq hrt hb⟩
      | blkBlk b => exact ⟨_, BL_ProtocolLayerPoW.recvPOWBlockBlkHandler_eq sha hrt _ src b⟩

/-- On connections that lose nothing, in any order: no handler faults; announced
blocks are stored; a node waits for one message exactly while it processes an
inventory, and of the peer the inventory came from; and a block arrives after
its parent. -/
theorem blockSync_of_reliable (h : (powSys sha nbrs).Under (fun _ a => Keeps a) c)
    (hd : DistinctHashes sha c) :
    (∀ a e, ¬ (powProtocol sha nbrs).Aborts c a e) ∧
    (∀ pk ∈ c.wire, ∀ hs, pk.body = .blkInv hs →
      ∀ k ∈ hs, ∃ b, (c.node pk.src).layer.blocktree.Stores k b) ∧
    (∀ n, c.wire.countP (fun pk => requester pk = some n) =
        (if (c.node n).layer.processing then 1 else 0) ∧
      ∀ pk ∈ c.wire, requester pk = some n → (c.node n).invFrom = some (responder pk)) ∧
    (∀ pk ∈ c.wire, ∀ b, pk.body = .blkBlk b →
      ∃ q, (c.node pk.dest).layer.blocktree.Stores b.prev_block_hash q) := by
  have hc := chain_invariant h.reach hd
  have hok := sync_invariant h.reach hd
  refine ⟨hok.not_aborts hc, ?_, ?_, ?_⟩
  · intro pk hpk hs hb k hk
    have := hok.wire pk hpk
    simp only [PacketOK, hb] at this
    exact stores_iff.mp (this.stored k hk)
  · intro n
    refine ⟨requests_eq_load h hd n, fun pk hpk hn => ?_⟩
    have := hok.wire pk hpk
    obtain ⟨src, dest, body⟩ := pk
    cases body with
    | blkGetData k =>
        obtain rfl := Option.some.inj hn
        exact this.1.2.1
    | blkBlk b =>
        obtain rfl := Option.some.inj hn
        exact this.1.2.1
    | _ => exact nomatch hn
  · intro pk hpk b hb
    have := hok.wire pk hpk
    simp only [PacketOK, hb] at this
    exact stores_iff.mp this.2.2

/-- In the run `mineAndFetch` the second node has asked for the block and waits. -/
theorem blockSync_of_reliable_waiting : ∃ c,
    (powProtocol nonceSha theOther).run (fun _ a => decide (Keeps a))
      (mineAndFetch.take 7) = some c ∧
    (c.node 1).layer.processing = true ∧
    c.wire.countP (fun pk => requester pk = some (1 : Fin 2)) = 1 := by
  have hrun : ((powProtocol nonceSha theOther).run (fun _ a => decide (Keeps a))
      (mineAndFetch.take 7)).map (fun c => ((c.node 1).layer.processing,
        decide ((mintedList nonceSha [0, 1] c).map POWBlock.block_hash).Nodup)) =
      some (true, true) := by decide +kernel
  obtain ⟨c, hc, hv⟩ := Option.map_eq_some_iff.mp hrun
  obtain ⟨hp, hd⟩ := Prod.mk.inj hv
  have hkeep := ((powProtocol nonceSha theOther).run_under hc).mono (D := fun _ a => Keeps a)
    fun _ _ _ => of_decide_eq_true
  obtain ⟨-, -, hcount, -⟩ := blockSync_of_reliable hkeep
    (distinctHashes_of_nodup (by decide) (of_decide_eq_true hd))
  refine ⟨c, hc, hp, ?_⟩
  rw [(hcount 1).1, hp]
  rfl

end Bleep
