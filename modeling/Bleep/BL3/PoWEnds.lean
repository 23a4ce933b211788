/-
# `Bleep.BL3.PoWEnds` — proof-of-work nodes fall silent, and then agree

**Delivering ends** (`pow_ends`).  Nodes answer and relay, and an inventory that
finds a busy node is dropped, so nothing bounds the messages by the blocks.  Yet
from every reachable network of finitely many nodes deliveries alone cannot go
on for ever.  Three things can go down, in this order:

  * the blocks some node lacks;
  * the transactions some pool lacks (a new block takes transactions out of
    pools, so this is read second);
  * the weight of the messages in flight, for deliveries that store nothing.

The weights say what a message can still set off.  `GETBLOCKS` weighs less than
the inventory it answers since the common block it is answered from is known to
the node that asks, so the next inventory is not answered by `GETBLOCKS` again.

**Then nodes agree** (`settles_of_heeded`).  After a run that lost nothing and
heeded every inventory, the queued blocks can be announced and the messages
delivered, heeding every inventory, until there is nothing left; and from then
on connected nodes are equally high.
-/
import Bleep.Lib.Delivery
import Bleep.BL3.ProtocolLayerEx1
import Bleep.BL3.PoWConverge

namespace Bleep

open Protocol BlockTree SimpleTransactionId

variable {N H A : Type} [LinearOrder A] {nbrs : N → List N}

/-! ## Weights -/

/-- The transaction is in the node's pool. -/
def hasTx (node : N → PoWNode N H A) (n : N) (tid : SimpleTransactionId H A) : Bool :=
  (node n).layer.txPool.containTx tid

section Weights

variable [DecidableEq H]

/-- The block is in the node's tree. -/
def hasBlk (node : N → PoWNode N H A) (n : N) (k : H) : Bool :=
  (node n).layer.blocktree.containBlock k

/-- What a message weighs, by what its sender and its receiver store. -/
def powWeight (nbrs : N → List N) (node : N → PoWNode N H A)
    (pk : Packet N (MessageObject H A)) : Nat :=
  match pk.body with
  | .txInv _ => 3
  | .txGetdata tids =>
      if tids.any fun tid => hasTx node pk.src tid && hasTx node pk.dest tid then
        2 + 3 * (nbrs pk.src).length
      else 2
  | .txTxs txs =>
      if txs.all fun tx => hasTx node pk.dest tx.getId then 1 + 3 * (nbrs pk.dest).length else 1
  | .blkInv hs => if (hs.head?.any (hasBlk node pk.dest)) then 3 else 5
  | .blkGetBlocks _ => 4
  | .blkGetData k => if hasBlk node pk.src k then 4 + 5 * (nbrs pk.src).length else 2
  | .blkBlk b => if hasBlk node pk.dest b.block_hash then 3 + 5 * (nbrs pk.dest).length else 1

theorem powWeight_congr {node node' : N → PoWNode N H A} (htx : hasTx node' = hasTx node)
    (hblk : hasBlk node' = hasBlk node) (pk : Packet N (MessageObject H A)) :
    powWeight nbrs node' pk = powWeight nbrs node pk := by
  simp only [powWeight, htx, hblk]

theorem powWeight_pos (nbrs : N → List N) (node : N → PoWNode N H A)
    (pk : Packet N (MessageObject H A)) : 0 < powWeight nbrs node pk := by
  unfold powWeight
  split
  · omega
  · split <;> omega
  · split <;> omega
  · split <;> omega
  · omega
  · split <;> omega
  · split <;> omega

theorem single_powWeight (node : N → PoWNode N H A) (n d : N) (obj : MessageObject H A) :
    ((packets n [(d, obj)]).map (powWeight nbrs node)).sum = powWeight nbrs node ⟨n, d, obj⟩ := by
  simp [packets]

variable [DecidableEq N]

theorem relay_powWeight (nbrs : N → List N) (node : N → PoWNode N H A) (nb : List N)
    (n source : N) {obj : MessageObject H A} {w : Nat}
    (hw : ∀ d, powWeight nbrs node ⟨n, d, obj⟩ ≤ w) :
    ((packets n (relay nb source obj)).map (powWeight nbrs node)).sum ≤ w * nb.length := by
  have hone : ∀ x ∈ (packets n (relay nb source obj)).map (powWeight nbrs node), x ≤ w := by
    intro x hx
    obtain ⟨⟨src, dest, body⟩, hpk, rfl⟩ := List.mem_map.mp hx
    obtain ⟨hsrc, hpk⟩ := mem_packets.mp hpk
    obtain ⟨-, -, hbody⟩ := mem_relay.mp hpk
    rw [show src = n from hsrc, show body = obj from hbody]
    exact hw dest
  have hsum := List.sum_le_card_nsmul _ w hone
  have hlen : ((packets n (relay nb source obj)).map (powWeight nbrs node)).length ≤ nb.length := by
    simp only [packets, relay, List.length_map]
    exact List.length_filter_le _ _
  rw [smul_eq_mul, mul_comm] at hsum
  exact hsum.trans (Nat.mul_le_mul_left w hlen)

end Weights

variable [DecidableEq N]

/-! What the moving process stores as before, the network does. -/

section Post

variable {c : PoWConfig N H A} {n : N} {p : PoWNode N H A} {out : Sends N H A}
  {w : List (Packet N (MessageObject H A))}

theorem hasTx_post (h : ∀ tid, p.layer.txPool.containTx tid = hasTx c.node n tid) :
    hasTx (c.post n p out w).node = hasTx c.node := by
  funext m tid
  exact c.forall_post (R := fun m q => q.layer.txPool.containTx tid = hasTx c.node m tid)
    _ _ _ _ (h tid) (fun _ _ => rfl) m

theorem hasBlk_post [DecidableEq H] (h : p.layer.blocktree = tree c n) :
    hasBlk (c.post n p out w).node = hasBlk c.node := by
  funext m k
  exact c.forall_post (R := fun m q => q.layer.blocktree.containBlock k = hasBlk c.node m k)
    _ _ _ _ (by rw [h]; rfl) (fun _ _ => rfl) m

end Post

/-! ## Messages about transactions -/

theorem Ex1RecvStep.sends_txs {nb : List N} {source : N} {obj : MessageObject H A}
    {L L' : BL_ProtocolLayerEx1 H A} {out : Sends N H A} (h : Ex1RecvStep nb L source obj L' out)
    {x : N × MessageObject H A} (hx : x ∈ out) {tid : SimpleTransactionId H A}
    (hb : x.2.Brings tid) : L.txPool.containTx tid = true := by
  obtain ⟨txs, hobj, tx, htx, hsame⟩ := MessageObject.brings_iff.mp hb
  cases h with
  | invKnown _ => cases hx
  | getdataNone _ => cases hx
  | other _ => cases hx
  | invMissing _ _ =>
      rw [List.mem_singleton.mp hx] at hobj
      cases hobj
  | getdata _ hmem =>
      rw [List.mem_singleton.mp hx] at hobj
      cases hobj
      obtain ⟨y, -, hget⟩ := (hmem tx).mp htx
      exact (TxPool.containTx_iff _).mpr ⟨tx, (TxPool.has_of_getTx _ hget).1, hsame⟩
  | txs _ _ =>
      obtain ⟨-, -, he⟩ := (mem_relay (n := x.1) (m := x.2)).mp hx
      cases hobj.symm.trans he

/-- The part of a node that gossips transactions. -/
def PoWNode.gossip (p : PoWNode N H A) : BL_ProtocolLayerEx1 H A := ⟨p.layer.txGossipProtocol⟩

variable [DecidableEq H]

theorem tx_answers_lt {node : N → PoWNode N H A} {pk : Packet N (MessageObject H A)}
    {L : BL_ProtocolLayerEx1 H A} {out : Sends N H A} (hobj : pk.body.isPOWBlock = false)
    (hs : Ex1RecvStep (nbrs pk.dest) (node pk.dest).gossip pk.src pk.body L out)
    (hold : ∀ tid, pk.body.Brings tid → hasTx node pk.dest tid = true) :
    ((packets pk.dest out).map (powWeight nbrs node)).sum < powWeight nbrs node pk := by
  have hpos := powWeight_pos nbrs node pk
  obtain ⟨src, dest, body⟩ := pk
  cases hs with
  | invKnown _ => exact hpos
  | @invMissing tids missing hne hmem =>
      have hnone : missing.any (fun tid => hasTx node dest tid && hasTx node src tid) = false := by
        rw [List.any_eq_false]
        intro x hx
        have hlack : hasTx node dest x = false := ((hmem x).mp hx).2
        simp [hlack]
      rw [single_powWeight]
      simp [powWeight, hnone]
  | @getdata tids txs hne hmem =>
      rw [single_powWeight]
      simp only [powWeight]
      split
      · next hall =>
          -- the first transaction was asked for and is on both sides
          obtain ⟨tx, htx⟩ := List.exists_mem_of_ne_nil _ hne
          obtain ⟨x, hx, hget⟩ := (hmem tx).mp htx
          obtain ⟨hhas, hsame⟩ := TxPool.has_of_getTx _ hget
          have hsrc : hasTx node src x = true :=
            (TxPool.containTx_congr _ hsame).trans (List.all_eq_true.mp hall tx htx)
          have hdest : hasTx node dest x = true := (TxPool.containTx_iff _).mpr ⟨tx, hhas, hsame⟩
          rw [if_pos (List.any_eq_true.mpr ⟨x, hx, by rw [hsrc, hdest]; rfl⟩)]
          omega
      · split <;> omega
  | getdataNone _ => exact hpos
  | @txs txs _ _ _ =>
      have hall : (txs.all fun tx => hasTx node dest tx.getId) = true := by
        rw [List.all_eq_true]
        exact fun tx htx => hold _ ⟨tx, htx, .refl _⟩
      have hinv :
          ∀ d, powWeight nbrs node ⟨dest, d, .txInv (txs.map SimpleTransaction.getId)⟩ ≤ 3 :=
        fun _ => le_rfl
      have hle := relay_powWeight nbrs node (nbrs dest) dest src hinv
      simp only [powWeight, hall, if_true]
      omega
  | other hpow => cases hobj.symm.trans hpow

variable [Zero H] {sha : Sha256 H A}

/-- The layer handles messages about transactions as `BL_ProtocolLayerEx1` does. -/
theorem PoWNode.recv_gossip {nb : List N} {source : N} {obj : MessageObject H A}
    {p p' : PoWNode N H A} {out : Sends N H A} (h : p.recv sha nb source obj = .ok (p', out))
    (hobj : obj.isPOWBlock = false) : Ex1RecvStep nb p.gossip source obj p'.gossip out := by
  have hrecv : (ex1Protocol (A := A) H fun _ : N => nb).recv source source obj p.gossip =
      .ok (p'.gossip, out) := by
    obtain ⟨⟨L', out'⟩, hL, h⟩ := bind_ok.mp h
    obtain ⟨rfl, rfl⟩ := Prod.mk.inj (Except.ok.inj h)
    cases obj with
    | txInv tids =>
        obtain ⟨rfl, rfl⟩ := Prod.mk.inj (Except.ok.inj hL)
        rfl
    | txGetdata tids =>
        obtain ⟨rfl, rfl⟩ := Prod.mk.inj (Except.ok.inj hL)
        rfl
    | txTxs txs =>
        obtain ⟨rfl, rfl⟩ := Prod.mk.inj (Except.ok.inj hL)
        have hu := BL_ProtocolLayerPoW.mineIfIdle_untouched
          { p.layer with
            txGossipProtocol :=
              (p.layer.txGossipProtocol.recvTxsHandler (W := Nat) nb source txs).1 } sha
        exact congrArg (fun g => Except.ok ((⟨g⟩ : BL_ProtocolLayerEx1 H A), _)) hu.gossip.symm
    | _ => cases hobj
  exact ex1_recv hrecv

theorem PoWNode.recv_hasTx {nb : List N} {source : N} {obj : MessageObject H A}
    {p p' : PoWNode N H A} {out : Sends N H A} (hs : RecvStep sha nb p source obj p' out)
    {tid : SimpleTransactionId H A} (h : p'.layer.txPool.containTx tid = true) :
    obj.Brings tid ∨ p.layer.txPool.containTx tid = true := by
  have hblk : ∀ b : POWBlock H A, (p.layer.afterBlk sha b).txPool.containTx tid = true →
      p.layer.txPool.containTx tid = true := by
    intro b hb
    rw [BL_ProtocolLayerPoW.txPool, (p.layer.afterBlk_untouched sha b).gossip] at hb
    unfold BL_ProtocolLayerPoW.accepted at hb
    split at hb
    · exact hb
    · exact ((TxPool.containTx_removeTxs _ _ _).mp hb).2
  cases hs with
  | tx _ htx => exact (htx.pool tid).mp h
  | blkAlone _ => exact .inr (hblk _ h)
  | blkNext _ _ => exact .inr (hblk _ h)
  | blkLast _ _ => exact .inr (hblk _ h)
  | _ => exact .inr h

theorem PoWNode.recv_sends_txs {nb : List N} {source : N} {obj : MessageObject H A}
    {p p' : PoWNode N H A} {out : Sends N H A} (hr : p.layer.blocktree.Rooted)
    (h : p.recv sha nb source obj = .ok (p', out)) {x : N × MessageObject H A} (hx : x ∈ out)
    {tid : SimpleTransactionId H A} (hb : x.2.Brings tid) :
    p.layer.txPool.containTx tid = true := by
  obtain ⟨txs, hobj, -⟩ := MessageObject.brings_iff.mp hb
  cases hsil : obj.isPOWBlock with
  | false => exact (recv_gossip h hsil).sends_txs hx hb
  | true =>
      have hone : ∀ {o : MessageObject H A}, x ∈ [(source, o)] → o = .txTxs txs := fun h => by
        rw [← hobj, List.mem_singleton.mp h]
      cases recv_ok hr h with
      | tx hs _ => cases hsil.symm.trans hs
      | blkLast _ _ =>
          obtain ⟨-, -, he⟩ := (mem_relay (n := x.1) (m := x.2)).mp hx
          cases hobj.symm.trans he
      | invUnknown _ _ _ _ => cases hone hx
      | invTaken _ _ _ _ => cases hone hx
      | getBlocks _ _ _ => cases hone hx
      | getData _ => cases hone hx
      | blkNext _ _ => cases hone hx
      | invBusy _ => cases hx
      | invKnown _ _ => cases hx
      | blkAlone _ => cases hx

/-! ## Messages about blocks -/

theorem BL_ProtocolLayerPoW.afterBlk_of_known {L : BL_ProtocolLayerPoW H A} {b : POWBlock H A}
    (h : L.blocktree.containBlock b.block_hash = true) : L.afterBlk sha b = L := by
  have ha : L.accepted b = L := if_pos h
  rw [L.afterBlk_of_tip_eq sha (by rw [ha]), ha]

theorem PoWNode.recv_known {nb : List N} {source : N} {obj : MessageObject H A}
    {p p' : PoWNode N H A} {out : Sends N H A} (hs : RecvStep sha nb p source obj p' out)
    (hobj : obj.isPOWBlock = true)
    (hold : ∀ b, obj = .blkBlk b → p.layer.blocktree.containBlock b.block_hash = true) :
    p'.layer.blocktree = p.layer.blocktree ∧ p'.layer.txPool = p.layer.txPool := by
  cases hs with
  | tx hsil _ => cases hobj.symm.trans hsil
  | blkAlone _ => rw [BL_ProtocolLayerPoW.afterBlk_of_known (hold _ rfl)]; exact ⟨rfl, rfl⟩
  | blkNext _ _ => rw [BL_ProtocolLayerPoW.afterBlk_of_known (hold _ rfl)]; exact ⟨rfl, rfl⟩
  | blkLast _ _ => rw [BL_ProtocolLayerPoW.afterBlk_of_known (hold _ rfl)]; exact ⟨rfl, rfl⟩
  | _ => exact ⟨rfl, rfl⟩

theorem PoWNode.recv_stores {nb : List N} {source : N} {b : POWBlock H A} {p p' : PoWNode N H A}
    {out : Sends N H A} (hr : p.layer.blocktree.Rooted)
    (hs : RecvStep sha nb p source (.blkBlk b) p' out)
    (hprev : p.layer.blocktree.containBlock b.prev_block_hash = true) :
    p'.layer.blocktree.containBlock b.block_hash = true := by
  have htree : p'.layer.blocktree = (p.layer.accepted b).blocktree := by
    cases hs with
    | tx hsil _ => cases hsil
    | blkAlone _ => exact (afterBlk_frame sha p.layer b).1
    | blkNext _ _ => exact (afterBlk_frame sha p.layer b).1
    | blkLast _ _ => exact (afterBlk_frame sha p.layer b).1
  rw [htree, BL_ProtocolLayerPoW.accepted_blocktree]
  split
  · assumption
  · exact contain_linkBlock_self hr hprev

variable [Zero A] {c c' : PoWConfig N H A} {a : Act N (PoWAct H A)}

theorem blk_answers_lt {pk : Packet N (MessageObject H A)} {p' : PoWNode N H A}
    {out : Sends N H A} (hc : ChainOK sha c) (hok : PacketOK sha c pk)
    (hobj : pk.body.isPOWBlock = true)
    (hs : PoWNode.RecvStep sha (nbrs pk.dest) (c.node pk.dest) pk.src pk.body p' out)
    (hold : ∀ b, pk.body = .blkBlk b → hasBlk c.node pk.dest b.block_hash = true) :
    ((packets pk.dest out).map (powWeight nbrs c.node)).sum < powWeight nbrs c.node pk := by
  have hpos := powWeight_pos nbrs c.node pk
  have hrt := (hc.node pk.dest).tree.rooted
  obtain ⟨src, dest, body⟩ := pk
  -- a block that is asked for is not there
  have hlack : ∀ {t : BlockTree H A} {hs : List H} {k : H},
      hs.find? (fun h => !t.containBlock h) = some k → t.containBlock k = false := by
    intro t hs k hk
    simpa using List.find?_some hk
  cases hs with
  | tx hsil _ => cases hobj.symm.trans hsil
  | invBusy _ => exact hpos
  | invKnown _ _ => exact hpos
  | blkAlone _ => exact hpos
  | @invUnknown hs locator front _ hfront hun _ =>
      have hun' : hasBlk c.node dest front = false := (hrt.containBlockHash_eq front).symm.trans hun
      rw [single_powWeight]
      simp [powWeight, hfront, hun']
  | @invTaken hs front k _ hfront hkn hk =>
      have hkn' : hasBlk c.node dest front = true := (hrt.containBlockHash_eq front).symm.trans hkn
      have hk' : hasBlk c.node dest k = false := hlack hk
      rw [single_powWeight]
      simp [powWeight, hfront, hkn', hk']
  | @getBlocks locator inv common chain hcommon hchain hinv =>
      -- the answer starts with a hash the other node sent
      obtain ⟨i, l, -, hl⟩ := hrt.toGrounded.tip_path
      have hg := hok.1
      rw [hrt.hash_eq (hc.node dest).tree.genesis] at hg
      obtain ⟨x, hfind, hx⟩ := findCommonBlock_eq hrt.toGrounded hl hg
      obtain rfl := Except.ok.inj (hcommon.symm.trans hx)
      have hch := getChainFromBlock_eq hrt.toGrounded hl (List.mem_of_find?_eq_some hfind)
      obtain rfl := Except.ok.inj (hchain.symm.trans hch)
      have hknown : hasBlk c.node src common = true :=
        hok.2 common (by simpa using List.find?_some hfind)
      subst hinv
      rw [single_powWeight]
      simp [powWeight, hknown]
  | @getData k b hk =>
      have hbk : b.block_hash = k := hrt.hash_eq hk
      rw [single_powWeight]
      simp only [powWeight, hbk]
      split <;> omega
  | @blkNext b k _ hk =>
      have hb : hasBlk c.node dest b.block_hash = true := hold b rfl
      rw [show (c.node dest).layer.accepted b = (c.node dest).layer from if_pos hb] at hk
      have hk' : hasBlk c.node dest k = false := hlack hk
      rw [single_powWeight]
      simp only [powWeight, hb, hk', if_true, Bool.false_eq_true, if_false]
      omega
  | @blkLast b _ _ =>
      have hb : hasBlk c.node dest b.block_hash = true := hold b rfl
      have hinv : ∀ d, powWeight nbrs c.node
          ⟨dest, d, .blkInv (c.node dest).layer.processingBlkinv⟩ ≤ 5 := by
        intro d
        simp only [powWeight]
        split <;> omega
      have hle := relay_powWeight nbrs c.node (nbrs dest) dest src hinv
      simp only [powWeight, hb, if_true]
      omega

/-! ## Delivering ends -/

/-- What deliveries keep: the invariants, and that the hashes and the
transactions of the network are among these. -/
structure Settling (sha : Sha256 H A) (blks : Finset H) (txs : Finset (SimpleTransactionId H A))
    (c : PoWConfig N H A) : Prop where
  chain : ChainOK sha c
  sync : SyncOK sha c
  distinct : DistinctHashes sha c
  minted : ∀ b, Minted sha c b → b.block_hash ∈ blks
  pools : ∀ n tid, hasTx c.node n tid = true → ∃ x ∈ txs, SameKey tid x
  wire : ∀ pk ∈ c.wire, ∀ tid, pk.body.Brings tid → ∃ x ∈ txs, SameKey tid x

theorem minted_deliver (hr : ∀ n, (c.node n).layer.blocktree.Rooted) {k : Nat}
    (hs : (powSys sha nbrs).step c (.deliver k) c') (b : POWBlock H A) :
    Minted sha c' b ↔ Minted sha c b := by
  refine ⟨?_, minted_step hr hs⟩
  cases hs with
  | deliver _ hf =>
      rintro (h | ⟨m, hm⟩)
      · exact .inl h
      · exact .inr ⟨m, c.forall_post (R := fun m q => q.Mined b → (c.node m).Mined b) _ _ _ _
          (PoWNode.recv_mined (hr _) hf b).mp (fun _ _ => id) m hm⟩

theorem distinctHashes_deliver (hr : ∀ n, (c.node n).layer.blocktree.Rooted) {k : Nat}
    (hs : (powSys sha nbrs).step c (.deliver k) c') (hd : DistinctHashes sha c) :
    DistinctHashes sha c' := fun b b' hb hb' =>
  hd b b' ((minted_deliver hr hs b).mp hb) ((minted_deliver hr hs b').mp hb')

variable {blks : Finset H} {txs : Finset (SimpleTransactionId H A)}

theorem Settling.step (h : Settling sha blks txs c) {k : Nat}
    (hs : (powProtocol sha nbrs).Step c (.deliver k) c') : Settling sha blks txs c' := by
  have hr := fun n => (h.chain.node n).tree.rooted
  have hd' := distinctHashes_deliver hr hs h.distinct
  refine ⟨(h.chain.step hs hd').1, (h.sync.step h.chain hs hd').1, hd', ?_, ?_, ?_⟩
  · exact fun b hb => h.minted b ((minted_deliver hr hs b).mp hb)
  · cases hs with
    | @deliver _ pk p out hpk hf =>
        refine c.forall_post (R := fun _ q => ∀ tid, q.layer.txPool.containTx tid = true →
          ∃ x ∈ txs, SameKey tid x) _ _ _ _ (fun tid ht => ?_) fun m _ => h.pools m
        rcases PoWNode.recv_hasTx (PoWNode.recv_ok (hr _) hf) ht with hb | ht
        · exact h.wire pk (mem_of_wire hpk) tid hb
        · exact h.pools pk.dest tid ht
  · cases hs with
    | @deliver _ pk p out hpk hf =>
        intro q hq tid hb
        rcases (Config.mem_post_wire _ _ _ _ _).mp hq with hold | ⟨-, hnew⟩
        · exact h.wire q (mem_of_mem_eraseIdx hold) tid hb
        · exact h.pools pk.dest tid (PoWNode.recv_sends_txs (hr _) hf hnew hb)

/-- The transactions a message carries, by their keys. -/
def MessageObject.carried : MessageObject H A → List (SimpleTransactionId H A)
  | .txTxs txs => txs.map SimpleTransaction.getId
  | _ => []

/-- A finite network has finitely many blocks and transactions. -/
theorem exists_settling [Fintype N] (hc : ChainOK sha c) (hsync : SyncOK sha c)
    (hd : DistinctHashes sha c) : ∃ blks txs, Settling sha blks txs c := by
  classical
  let mined : Finset H := Finset.univ.biUnion fun n =>
    (((c.node n).layer.blkPool ++ (c.node n).queue).map POWBlock.block_hash).toFinset
  let pooled : Finset (SimpleTransactionId H A) := Finset.univ.biUnion fun n =>
    (c.node n).layer.txPool.keys.toFinset
  let sent : Finset (SimpleTransactionId H A) := (c.wire.flatMap fun pk => pk.body.carried).toFinset
  refine ⟨insert (genesisBlock sha).block_hash mined, pooled ∪ sent, hc, hsync, hd, ?_, ?_, ?_⟩
  · rintro b (rfl | ⟨n, hn⟩)
    · exact Finset.mem_insert_self _ _
    · refine Finset.mem_insert_of_mem (Finset.mem_biUnion.mpr ⟨n, Finset.mem_univ n, ?_⟩)
      exact List.mem_toFinset.mpr (List.mem_map_of_mem (List.mem_append.mpr hn))
  · intro n tid ht
    obtain ⟨x, hx, hsame⟩ := (c.node n).layer.txPool.exists_mem_keys ht
    refine ⟨x, Finset.mem_union_left _ (Finset.mem_biUnion.mpr ⟨n, Finset.mem_univ n, ?_⟩), hsame⟩
    exact List.mem_toFinset.mpr hx
  · intro pk hpk tid hb
    obtain ⟨txs, hbody, tx, htx, hsame⟩ := MessageObject.brings_iff.mp hb
    refine ⟨tx.getId, Finset.mem_union_right _ (List.mem_toFinset.mpr ?_), hsame⟩
    refine List.mem_flatMap.mpr ⟨pk, hpk, ?_⟩
    rw [hbody]
    exact List.mem_map_of_mem htx

/-- A delivery stores a block, or stores a transaction and leaves the blocks, or
is outweighed. -/
theorem Settling.drop [Fintype N] (h : Settling sha blks txs c) {k : Nat}
    {pk : Packet N (MessageObject H A)} {p : PoWNode N H A} {out : Sends N H A}
    (hpk : c.wire[k]? = some pk)
    (hf : (powProtocol sha nbrs).recv pk.dest pk.src pk.body (c.node pk.dest) = .ok (p, out)) :
    let c' := c.post pk.dest p out (c.wire.eraseIdx k)
    let left := fun c : PoWConfig N H A =>
      toLex (lacking blks (hasBlk c.node), lacking txs (hasTx c.node))
    left c' < left c ∨
      left c' = left c ∧ (∀ q, powWeight nbrs c'.node q = powWeight nbrs c.node q) ∧
        ((packets pk.dest out).map (powWeight nbrs c.node)).sum < powWeight nbrs c.node pk := by
  intro c' left
  have hr := fun n => (h.chain.node n).tree.rooted
  have hs := PoWNode.recv_ok (hr _) hf
  have hok := h.sync.wire pk (mem_of_wire hpk)
  -- nothing is stored
  have hquiet : hasBlk c'.node = hasBlk c.node → hasTx c'.node = hasTx c.node →
      left c' = left c ∧ ∀ q, powWeight nbrs c'.node q = powWeight nbrs c.node q := by
    intro hblk htx
    refine ⟨?_, powWeight_congr htx hblk⟩
    simp only [left, hblk, htx]
  cases hobj : pk.body.isPOWBlock with
  | false =>
      obtain htx : PoWNode.TxStep sha pk.body.Brings (c.node pk.dest) p out := by
        generalize pk.body = body at hs hobj
        cases hs with
        | tx _ htx => exact htx
        | _ => cases hobj
      have hblk : hasBlk c'.node = hasBlk c.node := hasBlk_post htx.chain.blocktree
      by_cases hnew : ∀ tid, pk.body.Brings tid → hasTx c.node pk.dest tid = true
      · have hsame : hasTx c'.node = hasTx c.node := hasTx_post fun tid => by
          rw [Bool.eq_iff_iff, htx.pool]
          exact ⟨fun h => h.elim (hnew tid) id, .inr⟩
        obtain ⟨hl, hw⟩ := hquiet hblk hsame
        exact .inr ⟨hl, hw, tx_answers_lt hobj (PoWNode.recv_gossip hf hobj) hnew⟩
      · push Not at hnew
        obtain ⟨tid, hb, hnot⟩ := hnew
        obtain ⟨x, hx, hsame⟩ := h.wire pk (mem_of_wire hpk) tid hb
        refine .inl (Prod.Lex.toLex_lt_toLex.mpr (.inr ⟨by rw [hblk], ?_⟩))
        refine lacking_lt (n := pk.dest) ?_ hx ?_ ?_
        · intro n tid
          exact c.forall_post (R := fun n q => hasTx c.node n tid = true →
            q.layer.txPool.containTx tid = true) _ _ _ _ (fun ht => (htx.pool tid).mpr (.inr ht))
            (fun _ _ => id) n
        · rw [hasTx, ← TxPool.containTx_congr _ hsame]
          simpa [hasTx] using hnot
        · rw [hasTx, Config.post_node_self, ← TxPool.containTx_congr _ hsame]
          exact (htx.pool tid).mpr (.inl hb)
  | true =>
      by_cases hnew : ∀ b, pk.body = .blkBlk b → hasBlk c.node pk.dest b.block_hash = true
      · obtain ⟨htree, hpool⟩ := PoWNode.recv_known hs hobj hnew
        obtain ⟨hl, hw⟩ := hquiet (hasBlk_post htree) (hasTx_post fun tid => by rw [hpool]; rfl)
        exact .inr ⟨hl, hw, blk_answers_lt h.chain hok hobj hs hnew⟩
      · push Not at hnew
        obtain ⟨b, hb, hnot⟩ := hnew
        have hnot' : hasBlk c.node pk.dest b.block_hash = false := by simpa using hnot
        have hmint := h.chain.wire pk (mem_of_wire hpk) b hb
        refine .inl (Prod.Lex.toLex_lt_toLex.mpr (.inl ?_))
        refine lacking_lt (n := pk.dest) (fun n k => (grows_step hr (.deliver hpk hf) n).contain)
          (h.minted b hmint) hnot' ?_
        -- its parent came before it
        have hprev : (tree c pk.dest).containBlock b.prev_block_hash = true := by
          simp only [PacketOK, hb] at hok
          exact hok.2.2
        rw [hasBlk, Config.post_node_self]
        rw [hb] at hs
        exact PoWNode.recv_stores (hr _) hs hprev

theorem Settling.not_endless [Fintype N] (h : Settling sha blks txs c) :
    ¬ (powProtocol sha nbrs).Endless c :=
  Protocol.not_endless (Settling sha blks txs)
    (fun c => toLex (lacking blks (hasBlk c.node), lacking txs (hasTx c.node))) (powWeight nbrs)
    (fun _ _ _ hc hs => hc.step hs) (fun _ _ _ _ _ hc hpk hf => hc.drop hpk hf) h

theorem not_endless_of_distinct [Fintype N] (h : (powSys sha nbrs).Reach c)
    (hd : DistinctHashes sha c) : ¬ (powProtocol sha nbrs).Endless c := by
  obtain ⟨blks, txs, hset⟩ := exists_settling (chain_invariant h hd) (sync_invariant h hd) hd
  exact hset.not_endless

theorem exists_deliver (nbrs : N → List N) (hc : ChainOK sha c) (hsync : SyncOK sha c) {i : Nat}
    {pk : Packet N (MessageObject H A)} (hpk : c.wire[i]? = some pk) :
    ∃ c', (powProtocol sha nbrs).Step c (.deliver i) c' := by
  cases hf : (powProtocol sha nbrs).recv pk.dest pk.src pk.body (c.node pk.dest) with
  | ok r => exact ⟨_, .deliver hpk hf⟩
  | error e => exact absurd (.deliver hpk hf) (hsync.not_aborts hc (.deliver i) e)

/-- **Delivering ends**, from every reachable state, whatever was lost before:
deliveries alone cannot go on for ever, and some of them leave nothing in
flight. -/
theorem pow_ends [Fintype N] (h : (powSys sha nbrs).Reach c) (hd : DistinctHashes sha c) :
    ¬ (powProtocol sha nbrs).Endless c ∧ ∃ c', (powProtocol sha nbrs).Delivered c c' ∧
      c'.wire = [] := by
  obtain ⟨blks, txs, hset⟩ := exists_settling (chain_invariant h hd) (sync_invariant h hd) hd
  have hnext : ∀ c, Settling sha blks txs c → c.wire ≠ [] →
      ∃ k c', (powProtocol sha nbrs).Step c (.deliver k) c' ∧ Settling sha blks txs c' := by
    intro c hc hne
    obtain ⟨pk, w, hpk⟩ := List.exists_cons_of_ne_nil hne
    obtain ⟨c', hs⟩ := exists_deliver nbrs hc.chain hc.sync (i := 0) (by rw [hpk]; rfl)
    exact ⟨0, c', hs, hc.step hs⟩
  obtain ⟨c', hdel, -, hw⟩ := exists_drained hnext (fun _ hc => hc.not_endless) hset
  exact ⟨hset.not_endless, c', hdel, hw⟩

/-- In a network of two the second node has asked for a block, and the answer is
not yet there. -/
theorem pow_ends_two : ∃ c, (powProtocol nonceSha theOther).run (fun _ _ => true)
      (mineAndFetch.take 6) = some c ∧ c.wire ≠ [] ∧
        ¬ (powProtocol nonceSha theOther).Endless c := by
  have hrun : ((powProtocol nonceSha theOther).run (fun _ _ => true) (mineAndFetch.take 6)).map
      (fun c =>
        (c.wire.length, decide ((mintedList nonceSha [0, 1] c).map POWBlock.block_hash).Nodup)) =
      some (1, true) := by decide +kernel
  obtain ⟨c, hc, hv⟩ := Option.map_eq_some_iff.mp hrun
  obtain ⟨hlen, hd⟩ := Prod.mk.inj hv
  refine ⟨c, hc, List.ne_nil_of_length_pos (by omega), ?_⟩
  exact (pow_ends ((powProtocol nonceSha theOther).run_under hc).reach
    (distinctHashes_of_nodup (by decide) (of_decide_eq_true hd))).1

/-! ## Nodes agree -/

/-- No timer ends: messages are delivered and queued blocks announced. -/
def Calm : Act N (PoWAct H A) → Prop
  | .deliver _ | .fire _ .blockMiningComplete => True
  | _ => False

/-- A calm run that heeds every inventory. -/
abbrev Settles (sha : Sha256 H A) (nbrs : N → List N) : PoWConfig N H A → PoWConfig N H A → Prop :=
  Relation.ReflTransGen fun c c' => ∃ a, Calm a ∧ Heeded c a ∧ (powSys sha nbrs).step c a c'

/-- Reached by a run that lost nothing and heeded every inventory, with distinct
hashes. -/
structure Trusted (sha : Sha256 H A) (nbrs : N → List N) (c : PoWConfig N H A) : Prop where
  run : (powSys sha nbrs).Under (fun c a => Keeps a ∧ Heeded c a) c
  distinct : DistinctHashes sha c

theorem Trusted.chain (h : Trusted sha nbrs c) : ChainOK sha c :=
  chain_invariant h.run.reach h.distinct

theorem Trusted.sync (h : Trusted sha nbrs c) : SyncOK sha c :=
  sync_invariant h.run.reach h.distinct

theorem minted_announce {n : N} {b : POWBlock H A} {queue : List (POWBlock H A)}
    (hq : (c.node n).queue = b :: queue) {out : Sends N H A}
    {w : List (Packet N (MessageObject H A))}
    (x : POWBlock H A) : Minted sha (c.post n { c.node n with
      layer := (c.node n).layer.completed b, queue } out w) x → Minted sha c x := by
  rintro (h | ⟨m, hm⟩)
  · exact .inl h
  · refine .inr ⟨m, c.forall_post (R := fun m q => q.Mined x → (c.node m).Mined x) _ _ _ _ ?_
      (fun _ _ => id) m hm⟩
    rintro (hx | hx)
    · rcases List.mem_append.mp hx with hx | hx
      · exact .inl hx
      · exact .inr (hq ▸ List.mem_singleton.mp hx ▸ List.mem_cons_self)
    · exact .inr (hq ▸ List.mem_cons_of_mem _ hx)

theorem Trusted.calm (h : Trusted sha nbrs c) (hcalm : Calm a) (hheed : Heeded c a)
    (hs : (powSys sha nbrs).step c a c') : Trusted sha nbrs c' := by
  have hr := fun n => (h.chain.node n).tree.rooted
  refine ⟨.step h.run ⟨?_, hheed⟩ hs, ?_⟩
  · cases a with
    | lose _ => exact hcalm
    | _ => trivial
  · cases hs with
    | @fire n l p out hf =>
        cases l with
        | blockMiningComplete =>
            have hf' : (c.node n).fire sha (nbrs n) .blockMiningComplete = some (.ok (p, out)) := hf
            obtain ⟨b, queue, hq, rfl, -⟩ := PoWNode.fire_blockMiningComplete (hr n) hf'
            exact fun x x' hx hx' =>
              h.distinct x x' (minted_announce hq x hx) (minted_announce hq x' hx')
        | _ => exact hcalm.elim
    | deliver hpk hf => exact distinctHashes_deliver hr (.deliver hpk hf) h.distinct
    | lose _ => exact hcalm.elim

theorem Trusted.settles (h : Trusted sha nbrs c) (hs : Settles sha nbrs c c') :
    Trusted sha nbrs c' := by
  induction hs with
  | refl => exact h
  | tail _ hs ih =>
      obtain ⟨a, hcalm, hheed, hs⟩ := hs
      exact ih.calm hcalm hheed hs

theorem Settles.height_le (h : Trusted sha nbrs c) (hs : Settles sha nbrs c c') (n : N) :
    (tree c n).treeheight ≤ (tree c' n).treeheight := by
  induction hs with
  | refl => exact le_rfl
  | tail hcd hs ih =>
      obtain ⟨a, hcalm, hheed, hs⟩ := hs
      have hd := h.settles hcd
      exact ih.trans (height_step hd.chain hs (hd.calm hcalm hheed hs).distinct n).1

theorem exists_announced [Fintype N] (h : Trusted sha nbrs c) :
    ∃ c', Settles sha nbrs c c' ∧ ∀ n, (c'.node n).queue = [] := by
  induction hk : ∑ n, (c.node n).queue.length generalizing c with
  | zero =>
      refine ⟨c, .refl, fun n => List.length_eq_zero_iff.mp ?_⟩
      exact Finset.sum_eq_zero_iff.mp hk n (Finset.mem_univ n)
  | succ k ih =>
      obtain ⟨n, hn⟩ : ∃ n, (c.node n).queue ≠ [] := by
        by_contra hall
        push Not at hall
        simp [hall] at hk
      obtain ⟨b, queue, hq⟩ := List.exists_cons_of_ne_nil hn
      have hs : (powSys sha nbrs).step c (.fire n .blockMiningComplete)
          (c.post n { c.node n with layer := (c.node n).layer.completed b, queue }
            (sendAll (nbrs n) (.blkInv [b.block_hash])) c.wire) := by
        refine .fire ?_
        simp only [powProtocol, PoWNode.fire, hq]
        rw [BL_ProtocolLayerPoW.emuBlockMiningComplete_eq (h.chain.node n).tree.rooted]
        rfl
      -- one block less is queued
      have hlen : ∀ m, (((c.post n { c.node n with
          layer := (c.node n).layer.completed b, queue } (sendAll (nbrs n) (.blkInv [b.block_hash]))
            c.wire).node m).queue.length + if m = n then 1 else 0) = (c.node m).queue.length := by
        refine c.forall_post (R := fun m q => (q.queue.length + if m = n then 1 else 0) =
          (c.node m).queue.length) _ _ _ _ (by simp [hq]) fun m hm => by simp [hm]
      have hsum := Finset.sum_congr (rfl : Finset.univ = Finset.univ) fun m _ => hlen m
      rw [hk, Finset.sum_add_distrib, Finset.sum_ite_eq' Finset.univ n,
        if_pos (Finset.mem_univ n)] at hsum
      obtain ⟨c', hc', hqueue⟩ :=
        ih (h.calm (a := .fire n .blockMiningComplete) trivial trivial hs) (Nat.succ.inj hsum)
      exact ⟨c', .head ⟨.fire n .blockMiningComplete, trivial, trivial, hs⟩ hc', hqueue⟩

/-- If anything is in flight some message can be delivered that does not bring
news to a busy node. -/
theorem Trusted.exists_heeded (h : Trusted sha nbrs c) (hw : c.wire ≠ []) :
    ∃ i c', Heeded c (.deliver i) ∧ (powSys sha nbrs).step c (.deliver i) c' := by
  obtain ⟨i, pk, hpk, hheed⟩ : ∃ i pk, c.wire[i]? = some pk ∧ Heeded c (.deliver i) := by
    obtain ⟨pk, w, hpk⟩ := List.exists_cons_of_ne_nil hw
    have hpk0 : c.wire[0]? = some pk := by rw [hpk]; rfl
    cases hbusy : (c.node pk.dest).layer.processing with
    | false =>
        refine ⟨0, pk, hpk0, fun q hq hp => ?_⟩
        obtain rfl := Option.some.inj (hpk0.symm.trans hq)
        cases hbusy.symm.trans hp
    | true =>
        -- what the busy node waits for is no inventory
        have hkeep := h.run.mono (D := fun _ a => Keeps a) fun _ _ _ hc => hc.1
        have hreq := requests_eq_load hkeep h.distinct pk.dest
        rw [load, hbusy, if_pos rfl] at hreq
        obtain ⟨q, hq, hx⟩ := List.countP_pos_iff.mp (hreq.symm ▸ Nat.one_pos)
        obtain ⟨i, hi⟩ := List.mem_iff_getElem?.mp hq
        refine ⟨i, q, hi, fun q' hq' _ x hx' => ?_⟩
        obtain rfl := Option.some.inj (hi.symm.trans hq')
        obtain ⟨src, dest, body⟩ := q
        cases body with
        | blkInv hs => simp [requester] at hx
        | _ => cases hx'
  obtain ⟨c', hs⟩ := exists_deliver nbrs h.chain h.sync hpk
  exact ⟨i, c', hheed, hs⟩

/-- A calm run that ends with nothing in flight and nothing queued. -/
theorem exists_settled [Fintype N] (h : Trusted sha nbrs c) :
    ∃ c', Settles sha nbrs c c' ∧ c'.wire = [] ∧ ∀ n, (c'.node n).queue = [] := by
  obtain ⟨c₁, h₁, hqueue⟩ := exists_announced h
  let Good := fun d => Settles sha nbrs c d ∧ ∀ n, (d.node n).queue = []
  have htrust : ∀ d, Good d → Trusted sha nbrs d := fun d hd => h.settles hd.1
  have hnext : ∀ d, Good d → d.wire ≠ [] →
      ∃ k d', (powProtocol sha nbrs).Step d (.deliver k) d' ∧ Good d' := by
    intro d hd hne
    obtain ⟨k, d', hheed, hs⟩ := (htrust d hd).exists_heeded hne
    refine ⟨k, d', hs, hd.1.tail ⟨.deliver k, trivial, hheed, hs⟩, ?_⟩
    cases hs with
    | deliver hpk hf =>
        refine d.forall_post (R := fun _ q => q.queue = []) _ _ _ _ ?_ fun m _ => hd.2 m
        exact (PoWNode.recv_queue ((htrust d hd).chain.node _).tree.rooted hf).trans (hd.2 _)
  have hend : ∀ d, Good d → ¬ (powProtocol sha nbrs).Endless d := fun d hd =>
    not_endless_of_distinct (htrust d hd).run.reach (htrust d hd).distinct
  obtain ⟨c', -, ⟨hc', hq⟩, hw⟩ := exists_drained hnext hend ⟨h₁, hqueue⟩
  exact ⟨c', hc', hw, hq⟩

/-- **Block propagation comes to an end and agrees.**  After a run that lost
nothing and heeded every inventory: with no further timer the network can be
brought to where nothing is in flight and nothing queued; and wherever it is
brought there so, connected nodes are equally high, and at least as high as any
of them was. -/
theorem settles_of_heeded [Fintype N] (hsymm : ∀ n m, m ∈ nbrs n → n ∈ nbrs m)
    (h : (powSys sha nbrs).Under (fun c a => Keeps a ∧ Heeded c a) c)
    (hd : DistinctHashes sha c) :
    (∃ c', Settles sha nbrs c c' ∧ c'.wire = [] ∧ ∀ n, (c'.node n).queue = []) ∧
    ∀ c', Settles sha nbrs c c' → c'.wire = [] → (∀ n, (c'.node n).queue = []) →
      ∀ n m, Relation.ReflTransGen (fun n m => m ∈ nbrs n) n m →
        (tree c' n).treeheight = (tree c' m).treeheight ∧
          (tree c n).treeheight ≤ (tree c' m).treeheight := by
  have ht : Trusted sha nbrs c := ⟨h, hd⟩
  refine ⟨exists_settled ht, fun c' hs hw hq n m hnm => ?_⟩
  have ht' := ht.settles hs
  have hquiet : Quiescent c' := by
    refine ⟨?_, hq⟩
    rw [hw]
    exact fun _ hpk => nomatch hpk
  have heq : (tree c' n).treeheight = (tree c' m).treeheight := by
    induction hnm with
    | refl => rfl
    | tail _ hxy ih =>
        exact ih.trans (le_antisymm (height_le_of_quiescent ht'.run ht'.distinct hquiet hxy)
          (height_le_of_quiescent ht'.run ht'.distinct hquiet (hsymm _ _ hxy)))
  exact ⟨heq, heq ▸ Settles.height_le ht hs n⟩

/-- A block that only its miner has reaches the other node. -/
theorem settles_of_heeded_two : ∃ c c', (powProtocol nonceSha theOther).run
      (fun c a => decide (Keeps a ∧ Heeded c a)) (mineAt 0 7) = some c ∧
    (tree c 1).treeheight = 1 ∧ Settles nonceSha theOther c c' ∧ 2 ≤ (tree c' 1).treeheight := by
  have hrun : ((powProtocol nonceSha theOther).run (fun c a => decide (Keeps a ∧ Heeded c a))
      (mineAt 0 7)).map (fun c => ((tree c 0).treeheight, (tree c 1).treeheight,
        decide ((mintedList nonceSha [0, 1] c).map POWBlock.block_hash).Nodup)) =
      some (2, 1, true) := by decide +kernel
  obtain ⟨c, hc, hv⟩ := Option.map_eq_some_iff.mp hrun
  simp only [Prod.mk.injEq] at hv
  obtain ⟨h0, h1, hd⟩ := hv
  obtain ⟨⟨c', hs, hw, hq⟩, hagree⟩ := settles_of_heeded (by decide)
    (((powProtocol nonceSha theOther).run_under hc).mono fun _ _ _ => of_decide_eq_true)
    (distinctHashes_of_nodup (by decide) (of_decide_eq_true hd))
  refine ⟨c, c', hc, h1, hs, ?_⟩
  have hedge : Relation.ReflTransGen (fun n m : Fin 2 => m ∈ theOther n) 0 1 := .single (by decide)
  exact h0.ge.trans (hagree c' hs hw hq 0 1 hedge).2

end Bleep
