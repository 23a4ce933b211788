/-
# `Bleep.BL3.Gossip` — transaction gossip ends and agrees

Two facts about the network of `BL_ProtocolLayerEx1` nodes.

**It agrees.**  Take neighbours `n` and `m`, and a transaction in `n`'s pool.  It
is in `m`'s pool, or it waits in `n`'s queue for broadcast, or one of three
messages is in flight between them: the inventory or the transaction itself
from `n` to `m`, or the request from `m` to `n` (`Owed`).  Whatever delivers one
of these sends the next, so with nothing in flight and nothing queued the pools
are equal.

**It ends.**  `TXS` is relayed as an inventory whether it was new or not, so the
number of messages may grow.  A delivery that adds to a pool makes progress.
Any other is outweighed: an inventory weighs 3 as long as its receiver misses
something, a request for something its sender still misses 2, the answer 1;
and a `TXS` that brings nothing new outweighs the inventories it is relayed as
(`weight`).
-/
import Bleep.BL3.ProtocolLayerEx1
import Bleep.Lib.Delivery

namespace Bleep.Gossip

open Protocol SimpleTransactionId

variable {N H A : Type}

/-- The transaction is in the node's pool. -/
def Holds [LinearOrder A] (c : Ex1Config N H A) (n : N) (tid : SimpleTransactionId H A) : Prop :=
  (c.node n).txPool.containTx tid = true

/-! ## What is in flight is in a pool -/

section Backed

variable [LinearOrder A] {c c' : Ex1Config N H A} {n : N} {L : BL_ProtocolLayerEx1 H A}
  {out : Sends N H A} {w : List (Packet N (MessageObject H A))}

section Post

variable [DecidableEq N]

theorem holds_post_self {tid : SimpleTransactionId H A} :
    Holds (c.post n L out w) n tid ↔ L.txPool.containTx tid = true := by
  rw [Holds, Config.post_node_self]

theorem holds_post (hg : ∀ tid, Holds c n tid → L.txPool.containTx tid = true) (m : N)
    (tid : SimpleTransactionId H A) (h : Holds c m tid) : Holds (c.post n L out w) m tid :=
  c.forall_post (R := fun m q => Holds c m tid → q.txPool.containTx tid = true) _ _ _ _
    (hg tid) (fun _ _ => id) m h

theorem holds_of_post (hg : ∀ tid, L.txPool.containTx tid = true → Holds c n tid) (m : N)
    (tid : SimpleTransactionId H A) (h : Holds (c.post n L out w) m tid) : Holds c m tid :=
  c.forall_post (R := fun m q => q.txPool.containTx tid = true → Holds c m tid) _ _ _ _
    (hg tid) (fun _ _ => id) m h

end Post

variable [Zero H]

/-- A message mentions what is in the pool of the node that has it to give. -/
def PacketOK (c : Ex1Config N H A) (pk : Packet N (MessageObject H A)) : Prop :=
  match pk.body with
  | .txInv tids => ∀ x ∈ tids, Holds c pk.src x
  | .txGetdata tids => ∀ x ∈ tids, Holds c pk.dest x
  | .txTxs txs => ∀ tx ∈ txs, Holds c pk.src tx.getId ∧ tx.getId.tx_hash = 0
  | _ => False

structure Backed (c : Ex1Config N H A) : Prop where
  wire : ∀ pk ∈ c.wire, PacketOK c pk
  plain : ∀ n tx, (c.node n).txPool.Has tx → tx.getId.tx_hash = 0
  queued : ∀ n, ∀ tx ∈ (c.node n).txToBroadcast, Holds c n tx.getId

theorem PacketOK.mono (hg : ∀ n tid, Holds c n tid → Holds c' n tid)
    {pk : Packet N (MessageObject H A)} (h : PacketOK c pk) : PacketOK c' pk := by
  obtain ⟨src, dest, body⟩ := pk
  cases body with
  | txInv tids => exact fun x hx => hg _ _ (h x hx)
  | txGetdata tids => exact fun x hx => hg _ _ (h x hx)
  | txTxs txs => exact fun tx htx => ⟨hg _ _ (h tx htx).1, (h tx htx).2⟩
  | blkInv _ => exact h
  | blkGetBlocks _ => exact h
  | blkGetData _ => exact h
  | blkBlk _ => exact h

variable [DecidableEq N]

theorem Backed.post (h : Backed c) (hw : ∀ q ∈ w, q ∈ c.wire)
    (hg : ∀ tid, Holds c n tid → L.txPool.containTx tid = true)
    (hplain : ∀ tx, L.txPool.Has tx → tx.getId.tx_hash = 0)
    (hqueued : ∀ tx ∈ L.txToBroadcast, L.txPool.containTx tx.getId = true)
    (hout : ∀ m o, (m, o) ∈ out → PacketOK (c.post n L out w) ⟨n, m, o⟩) :
    Backed (c.post n L out w) where
  wire := by
    intro pk hpk
    rcases (Config.mem_post_wire _ _ _ _ _).mp hpk with hold | ⟨rfl, hnew⟩
    · exact (h.wire pk (hw pk hold)).mono (holds_post hg)
    · exact hout _ _ hnew
  plain := c.forall_post (R := fun _ q => ∀ tx, q.txPool.Has tx → tx.getId.tx_hash = 0) _ _ _ _
    hplain fun m _ => h.plain m
  queued := c.forall_post (R := fun _ q => ∀ tx ∈ q.txToBroadcast,
    q.txPool.containTx tx.getId = true) _ _ _ _ hqueued fun m _ => h.queued m

theorem Backed.fire {nb : List N} (h : Backed c) (hs : Ex1FireStep nb (c.node n) L out) :
    Backed (c.post n L out c.wire) := by
  cases hs with
  | gen tx h0 _ hpool hqueue hout =>
      have hadd : ∀ tid, L.txPool.containTx tid = true ↔
          SameKey tid tx.getId ∨ Holds c n tid := by
        intro tid
        rw [hpool]
        exact TxPool.containTx_addTx _ _ _
      refine h.post (fun _ => id) (fun tid ht => (hadd tid).mpr (.inr ht)) ?_ ?_ ?_
      · intro t ht
        rw [hpool] at ht
        rcases (TxPool.has_addTx _ _ _).mp ht with ⟨rfl, -⟩ | ht
        · exact h0
        · exact h.plain n t ht
      · intro t ht
        rw [hqueue] at ht
        rcases List.mem_append.mp ht with ht | ht
        · exact (hadd _).mpr (.inr (h.queued n t ht))
        · rw [List.mem_singleton.mp ht]
          exact (hadd _).mpr (.inl (.refl _))
      · rw [hout]
        exact fun _ _ hx => nomatch hx
  | announce hpool hqueue hout =>
      have hsame : ∀ tid, Holds c n tid → L.txPool.containTx tid = true := fun tid ht => by
        rw [hpool]
        exact ht
      refine h.post (fun _ => id) hsame ?_ ?_ ?_
      · rw [hpool]
        exact h.plain n
      · rw [hqueue]
        exact fun _ hx => nomatch hx
      · intro m o hx
        rw [hout] at hx
        obtain ⟨-, rfl⟩ := mem_sendAll.mp hx
        intro x hx
        obtain ⟨tx, htx, rfl⟩ := List.mem_map.mp hx
        exact holds_post_self.mpr (hsame _ (h.queued n tx htx))
  | idle hL hout =>
      subst hL hout
      exact h.post (fun _ => id) (fun _ => id) (h.plain n) (h.queued n) fun _ _ hx => nomatch hx

theorem Backed.recv {nb : List N} {k : Nat} {pk : Packet N (MessageObject H A)} (h : Backed c)
    (hpk : c.wire[k]? = some pk)
    (hs : Ex1RecvStep nb (c.node pk.dest) pk.src pk.body L out) :
    Backed (c.post pk.dest L out (c.wire.eraseIdx k)) := by
  have hok := h.wire pk (mem_of_wire hpk)
  have hw : ∀ q ∈ c.wire.eraseIdx k, q ∈ c.wire := fun _ => mem_of_mem_eraseIdx
  obtain ⟨src, dest, body⟩ := pk
  -- the steps that leave the node as it is
  have hstay : ∀ {out : Sends N H A},
      (∀ m o, (m, o) ∈ out → PacketOK c ⟨dest, m, o⟩) →
      Backed (c.post dest (c.node dest) out (c.wire.eraseIdx k)) := by
    intro out hout
    refine h.post hw (fun _ => id) (h.plain dest) (h.queued dest) fun m o hx => ?_
    exact (hout m o hx).mono (holds_post fun _ => id)
  cases hs with
  | invKnown _ => exact hstay fun _ _ hx => nomatch hx
  | invMissing _ hmem =>
      refine hstay fun m o hx => ?_
      obtain ⟨rfl, rfl⟩ := Prod.mk.inj (List.mem_singleton.mp hx)
      exact fun x hx => hok x ((hmem x).mp hx).1
  | getdata _ hmem =>
      refine hstay fun m o hx => ?_
      obtain ⟨rfl, rfl⟩ := Prod.mk.inj (List.mem_singleton.mp hx)
      intro tx htx
      obtain ⟨x, -, hget⟩ := (hmem tx).mp htx
      obtain ⟨hhas, -⟩ := TxPool.has_of_getTx _ hget
      exact ⟨(TxPool.containTx_iff _).mpr ⟨tx, hhas, .refl _⟩, h.plain dest tx hhas⟩
  | getdataNone _ => exact hstay fun _ _ hx => nomatch hx
  | @txs txs _ hpool hqueue =>
      have hadd : ∀ tid, L.txPool.containTx tid = true ↔
          (∃ tx ∈ txs, SameKey tid tx.getId) ∨ Holds c dest tid := by
        intro tid
        rw [hpool]
        exact TxPool.containTx_addTxs _ _ _
      refine h.post hw (fun tid ht => (hadd tid).mpr (.inr ht)) ?_ ?_ ?_
      · intro tx ht
        rw [hpool] at ht
        rcases TxPool.has_addTxs _ ht with ht | ht
        · exact (hok tx ht).2
        · exact h.plain dest tx ht
      · intro tx ht
        rw [hqueue] at ht
        exact (hadd _).mpr (.inr (h.queued dest tx ht))
      · intro m o hx
        obtain ⟨-, -, rfl⟩ := mem_relay.mp hx
        intro x hx
        obtain ⟨tx, htx, rfl⟩ := List.mem_map.mp hx
        exact holds_post_self.mpr ((hadd _).mpr (.inl ⟨tx, htx, .refl _⟩))
  | other _ => exact hstay fun _ _ hx => nomatch hx

theorem Backed.step {nbrs : N → List N} {a : Act N (Ex1Act A)} (h : Backed c)
    (hs : (ex1Sys H nbrs).step c a c') : Backed c' := by
  cases hs with
  | fire hf => exact h.fire (ex1_fire hf)
  | deliver hpk hr => exact h.recv hpk (ex1_recv hr)
  | lose _ => exact ⟨fun pk hpk => h.wire pk (mem_of_mem_eraseIdx hpk), h.plain, h.queued⟩

theorem backed_init (nbrs : N → List N) :
    Backed { node := (ex1Protocol (A := A) H nbrs).start, wire := [] } where
  wire _ hpk := nomatch hpk
  plain _ tx htx := (TxPool.not_has_empty tx htx).elim
  queued _ _ htx := nomatch htx

end Backed

/-! ## Agreement -/

section Agree

/-- The message is on its way to bring the transaction from `n` to `m`, or to ask
for it. -/
def Carries (n m : N) (tid : SimpleTransactionId H A) (pk : Packet N (MessageObject H A)) : Prop :=
  match pk.body with
  | .txInv tids => pk.src = n ∧ pk.dest = m ∧ ∃ x ∈ tids, SameKey tid x
  | .txGetdata tids => pk.src = m ∧ pk.dest = n ∧ ∃ x ∈ tids, SameKey tid x
  | .txTxs txs => pk.src = n ∧ pk.dest = m ∧ ∃ tx ∈ txs, SameKey tid tx.getId
  | _ => False

theorem Carries.isPOWBlock {n m : N} {tid : SimpleTransactionId H A}
    {pk : Packet N (MessageObject H A)} (h : Carries n m tid pk) : pk.body.isPOWBlock = false := by
  obtain ⟨src, dest, body⟩ := pk
  cases body with
  | txInv _ => rfl
  | txGetdata _ => rfl
  | txTxs _ => rfl
  | blkInv _ => exact False.elim h
  | blkGetBlocks _ => exact False.elim h
  | blkGetData _ => exact False.elim h
  | blkBlk _ => exact False.elim h

variable [LinearOrder A] {c c' : Ex1Config N H A} {nbrs : N → List N}

/-- What `n` holds, its neighbour `m` holds or will get. -/
def Owed (c : Ex1Config N H A) (n m : N) (tid : SimpleTransactionId H A) : Prop :=
  Holds c m tid ∨ (∃ tx ∈ (c.node n).txToBroadcast, SameKey tid tx.getId) ∨
    ∃ pk ∈ c.wire, Carries n m tid pk

def Paid (nbrs : N → List N) (c : Ex1Config N H A) : Prop :=
  ∀ n m tid, m ∈ nbrs n → Holds c n tid → Owed c n m tid

section Post

variable [DecidableEq N]

/-- What a node owed, it owes after a step that does not take the transaction
from its queue or the message from the wire. -/
theorem Owed.post {n m k : N} {tid : SimpleTransactionId H A} {L : BL_ProtocolLayerEx1 H A}
    {out : Sends N H A} {w : List (Packet N (MessageObject H A))} (h : Owed c n m tid)
    (hg : ∀ tid, Holds c k tid → L.txPool.containTx tid = true)
    (hq : k = n → (∃ tx ∈ (c.node n).txToBroadcast, SameKey tid tx.getId) →
      (∃ tx ∈ L.txToBroadcast, SameKey tid tx.getId) ∨ ∃ x ∈ out, Carries n m tid ⟨k, x.1, x.2⟩)
    (hw : ∀ pk ∈ c.wire, Carries n m tid pk → pk ∈ w ∨ Owed (c.post k L out w) n m tid) :
    Owed (c.post k L out w) n m tid := by
  rcases h with hm | hb | ⟨pk, hpk, hcar⟩
  · exact .inl (holds_post hg m tid hm)
  · by_cases hk : k = n
    · subst hk
      rcases hq rfl hb with hb | ⟨x, hx, hcar⟩
      · refine .inr (.inl ?_)
        rw [Config.post_node_self]
        exact hb
      · refine .inr (.inr ⟨⟨k, x.1, x.2⟩, ?_, hcar⟩)
        exact (Config.mem_post_wire _ _ _ _ _).mpr (.inr ⟨rfl, hx⟩)
    · refine .inr (.inl ?_)
      rw [Config.post_node_of_ne _ _ _ _ _ (Ne.symm hk)]
      exact hb
  · rcases hw pk hpk hcar with hpk | h
    · exact .inr (.inr ⟨pk, (Config.mem_post_wire _ _ _ _ _).mpr (.inl hpk), hcar⟩)
    · exact h

end Post

variable [Zero H]

/-- With nothing in flight and nothing queued, a neighbour holds what a node
holds. -/
theorem txids_subset (hb : Backed c) (hp : Paid nbrs c)
    (hwire : ∀ pk ∈ c.wire, pk.body.isPOWBlock = true) (hqueue : ∀ n, (c.node n).txToBroadcast = [])
    {n m : N} (hm : m ∈ nbrs n) : (c.node n).txids ⊆ (c.node m).txids := by
  rintro tid ⟨tx, htx, rfl⟩
  have hn : Holds c n tx.getId := (TxPool.containTx_iff _).mpr ⟨tx, htx, .refl _⟩
  rcases hp n m tx.getId hm hn with h | ⟨t, ht, -⟩ | ⟨pk, hpk, hcar⟩
  · obtain ⟨tx', htx', hsame⟩ := (TxPool.containTx_iff _).mp h
    refine ⟨tx', htx', ?_⟩
    -- neither id has a hash
    have h0 := (hb.plain n tx htx).trans (hb.plain m tx' htx').symm
    cases hx : tx.getId
    cases hy : tx'.getId
    simp only [hx, hy, SameKey] at hsame h0
    simp [hsame, h0]
  · rw [hqueue] at ht
    cases ht
  · cases hcar.isPOWBlock.symm.trans (hwire pk hpk)

variable [DecidableEq N]

theorem Paid.fire (h : Paid nbrs c) {k : N} {L : BL_ProtocolLayerEx1 H A} {out : Sends N H A}
    (hs : Ex1FireStep (nbrs k) (c.node k) L out) : Paid nbrs (c.post k L out c.wire) := by
  intro n m tid hm hn
  cases hs with
  | gen tx _ _ hpool hqueue hout =>
      have hadd : ∀ tid, L.txPool.containTx tid = true ↔ SameKey tid tx.getId ∨ Holds c k tid := by
        intro tid
        rw [hpool]
        exact TxPool.containTx_addTx _ _ _
      have hold : Holds c n tid → Owed (c.post k L out c.wire) n m tid := by
        intro hn
        refine (h n m tid hm hn).post (fun tid ht => (hadd tid).mpr (.inr ht)) ?_
          (fun _ hpk _ => .inl hpk)
        rintro rfl ⟨t, ht, hsame⟩
        refine .inl ⟨t, ?_, hsame⟩
        rw [hqueue]
        exact List.mem_append_left _ ht
      by_cases hk : n = k
      · subst hk
        rcases (hadd tid).mp (holds_post_self.mp hn) with hsame | hn
        · refine .inr (.inl ⟨tx, ?_, hsame⟩)
          rw [Config.post_node_self, hqueue]
          exact List.mem_append_right _ (List.mem_singleton_self _)
        · exact hold hn
      · rw [Holds, Config.post_node_of_ne _ _ _ _ _ hk] at hn
        exact hold hn
  | announce hpool hqueue hout =>
      have hn' : Holds c n tid := holds_of_post (fun tid ht => by rwa [hpool] at ht) n tid hn
      refine (h n m tid hm hn').post (fun tid ht => by rw [hpool]; exact ht) ?_
        (fun _ hpk _ => .inl hpk)
      rintro rfl ⟨tx, htx, hsame⟩
      refine .inr ⟨(m, .txInv ((c.node k).txToBroadcast.map SimpleTransaction.getId)), ?_, ?_⟩
      · rw [hout]
        exact mem_sendAll.mpr ⟨hm, rfl⟩
      · exact ⟨rfl, rfl, tx.getId, List.mem_map_of_mem htx, hsame⟩
  | idle hL hout =>
      subst hL
      have hn' : Holds c n tid := holds_of_post (fun _ => id) n tid hn
      exact (h n m tid hm hn').post (fun _ => id) (fun hk hb => .inl (hk ▸ hb))
        (fun _ hpk _ => .inl hpk)

/-- Transactions are relayed to all but the node they came from, which has them. -/
theorem Paid.recvTxs (h : Paid nbrs c) {k : Nat} {src dest n m : N}
    {txs : List (SimpleTransaction H A)} (hpk : c.wire[k]? = some ⟨src, dest, .txTxs txs⟩)
    (hok : ∀ tx ∈ txs, Holds c src tx.getId ∧ tx.getId.tx_hash = 0)
    {L : BL_ProtocolLayerEx1 H A} (hpool : L.txPool = (c.node dest).txPool.addTxs txs)
    (hqueue : L.txToBroadcast = (c.node dest).txToBroadcast) (hm : m ∈ nbrs n)
    {tid : SimpleTransactionId H A} {out : Sends N H A}
    (hout : out = relay (nbrs dest) src (.txInv (txs.map SimpleTransaction.getId)))
    (hn : Holds (c.post dest L out (c.wire.eraseIdx k)) n tid) :
    Owed (c.post dest L out (c.wire.eraseIdx k)) n m tid := by
  subst hout
  have hw : ∀ q ∈ c.wire, q = ⟨src, dest, .txTxs txs⟩ ∨ q ∈ c.wire.eraseIdx k :=
    fun q => mem_wire_cases hpk
  have hadd : ∀ tid, L.txPool.containTx tid = true ↔
      (∃ tx ∈ txs, SameKey tid tx.getId) ∨ Holds c dest tid := by
    intro tid
    rw [hpool]
    exact TxPool.containTx_addTxs _ _ _
  have hg : ∀ tid, Holds c dest tid → L.txPool.containTx tid = true := fun tid ht =>
    (hadd tid).mpr (.inr ht)
  by_cases hnew : dest = n ∧ ∃ tx ∈ txs, SameKey tid tx.getId
  · obtain ⟨rfl, tx, htx, hsame⟩ := hnew
    by_cases hsrc : m = src
    · subst hsrc
      refine .inl (holds_post hg m tid ?_)
      rw [Holds, TxPool.containTx_congr _ hsame]
      exact (hok tx htx).1
    · refine .inr (.inr ⟨⟨dest, m, .txInv (txs.map SimpleTransaction.getId)⟩, ?_, rfl, rfl,
        tx.getId, List.mem_map_of_mem htx, hsame⟩)
      exact (Config.mem_post_wire _ _ _ _ _).mpr
        (.inr ⟨rfl, mem_relay.mpr ⟨hm, hsrc, rfl⟩⟩)
  · have hn' : Holds c n tid := by
      by_cases hk : dest = n
      · subst hk
        exact ((hadd tid).mp (holds_post_self.mp hn)).resolve_left fun hx => hnew ⟨rfl, hx⟩
      · rwa [Holds, Config.post_node_of_ne _ _ _ _ _ (Ne.symm hk)] at hn
    refine (h n m tid hm hn').post hg ?_ fun q hq hc => ?_
    · rintro rfl hq
      rw [hqueue]
      exact .inl hq
    · rcases hw q hq with rfl | hq
      · obtain ⟨rfl, rfl, hin⟩ := hc
        exact .inr (.inl (holds_post_self.mpr ((hadd tid).mpr (.inl hin))))
      · exact .inl hq

/-- The delivered message is answered by the next one it takes to bring the
transaction over. -/
theorem Paid.recv (h : Paid nbrs c) (hb : Backed c) {k : Nat}
    {pk : Packet N (MessageObject H A)} (hpk : c.wire[k]? = some pk)
    {L : BL_ProtocolLayerEx1 H A} {out : Sends N H A}
    (hs : Ex1RecvStep (nbrs pk.dest) (c.node pk.dest) pk.src pk.body L out) :
    Paid nbrs (c.post pk.dest L out (c.wire.eraseIdx k)) := by
  have hok := hb.wire pk (mem_of_wire hpk)
  have hw : ∀ q ∈ c.wire, q = pk ∨ q ∈ c.wire.eraseIdx k := fun q => mem_wire_cases hpk
  obtain ⟨src, dest, body⟩ := pk
  intro n m tid hm hn
  -- the steps that leave the node as it is: what the message carried is owed still
  have hstay : ∀ {out : Sends N H A}, L = c.node dest →
      (Carries n m tid ⟨src, dest, body⟩ →
        Owed (c.post dest L out (c.wire.eraseIdx k)) n m tid) →
      Owed (c.post dest L out (c.wire.eraseIdx k)) n m tid := by
    rintro out rfl hcar
    have hn' : Holds c n tid := holds_of_post (fun _ => id) n tid hn
    refine (h n m tid hm hn').post (fun _ => id) (fun hk hq => .inl (hk ▸ hq)) fun q hq hc => ?_
    rcases hw q hq with rfl | hq
    · exact .inr (hcar hc)
    · exact .inl hq
  cases hs with
  | invKnown hall =>
      refine hstay rfl ?_
      rintro ⟨rfl, rfl, x, hx, hsame⟩
      refine .inl (holds_post_self.mpr ?_)
      rw [TxPool.containTx_congr _ hsame]
      exact hall x hx
  | @invMissing tids missing _ hmem =>
      refine hstay rfl ?_
      rintro ⟨rfl, rfl, x, hx, hsame⟩
      cases hc : (c.node dest).txPool.containTx x with
      | true =>
          refine .inl (holds_post_self.mpr ?_)
          rw [TxPool.containTx_congr _ hsame]
          exact hc
      | false =>
          refine .inr (.inr ⟨⟨dest, src, .txGetdata missing⟩, ?_, rfl, rfl, x, ?_, hsame⟩)
          · exact (Config.mem_post_wire _ _ _ _ _).mpr (.inr ⟨rfl, List.mem_singleton_self _⟩)
          · exact (hmem x).mpr ⟨hx, hc⟩
  | @getdata tids txs _ hmem =>
      refine hstay rfl ?_
      rintro ⟨rfl, rfl, x, hx, hsame⟩
      have hx' : ((c.node dest).txPool.getTx x).isSome = true := by
        rw [← TxPool.containTx_eq_isSome]
        exact hok x hx
      obtain ⟨tx, hget⟩ := Option.isSome_iff_exists.mp hx'
      obtain ⟨-, hsame'⟩ := TxPool.has_of_getTx _ hget
      refine .inr (.inr ⟨⟨dest, src, .txTxs txs⟩, ?_, rfl, rfl, tx, ?_, hsame.trans hsame'⟩)
      · exact (Config.mem_post_wire _ _ _ _ _).mpr (.inr ⟨rfl, List.mem_singleton_self _⟩)
      · exact (hmem tx).mpr ⟨x, hx, hget⟩
  | getdataNone hnone =>
      refine hstay rfl ?_
      rintro ⟨rfl, rfl, x, hx, -⟩
      exact nomatch (hnone x hx).symm.trans (hok x hx)
  | txs hpool hqueue => exact h.recvTxs hpk hok hpool hqueue hm rfl hn
  | other hobj =>
      exact hstay rfl fun hc => nomatch hc.isPOWBlock.symm.trans hobj

theorem paid_of_under {c : Ex1Config N H A}
    (h : (ex1Sys H nbrs).Under (fun _ a => Keeps a) c) : Backed c ∧ Paid nbrs c := by
  refine h.invariant (P := fun c => Backed c ∧ Paid nbrs c) ?_ ?_
  · rintro c rfl
    exact ⟨backed_init nbrs, fun n _ tid _ hn => nomatch (TxPool.containTx_empty tid).symm.trans hn⟩
  · rintro c a c' - ⟨hb, hp⟩ hkeep hs
    refine ⟨hb.step hs, ?_⟩
    cases hs with
    | fire hf => exact hp.fire (ex1_fire hf)
    | deliver hpk hr => exact hp.recv hb hpk (ex1_recv hr)
    | lose _ => exact hkeep.elim

end Agree

/-! ## Termination -/

section Ends

variable [LinearOrder A] {nbrs : N → List N} {c : Ex1Config N H A}

/-- Does the node miss one of these? -/
def misses (L : BL_ProtocolLayerEx1 H A) (tids : List (SimpleTransactionId H A)) : Bool :=
  tids.any fun tid => !L.txPool.containTx tid

/-- The weight of a message: of those that bring nothing new only the
transactions themselves have more than one answer. -/
def weight (nbrs : N → List N) (node : N → BL_ProtocolLayerEx1 H A)
    (pk : Packet N (MessageObject H A)) : Nat :=
  match pk.body with
  | .txInv tids => if misses (node pk.dest) tids then 3 else 1
  | .txGetdata tids => if misses (node pk.src) tids then 2 else 2 + 3 * (nbrs pk.src).length
  | .txTxs txs =>
      if misses (node pk.dest) (txs.map SimpleTransaction.getId) then 1
      else 1 + 3 * (nbrs pk.dest).length
  | _ => 1

theorem misses_iff {L : BL_ProtocolLayerEx1 H A} {tids : List (SimpleTransactionId H A)} :
    misses L tids = true ↔ ∃ x ∈ tids, L.txPool.containTx x = false := by
  simp [misses]

theorem weight_pos (node : N → BL_ProtocolLayerEx1 H A) (pk : Packet N (MessageObject H A)) :
    0 < weight nbrs node pk := by
  unfold weight
  split
  · split <;> omega
  · split <;> omega
  · split <;> omega
  · omega

theorem weight_congr {node node' : N → BL_ProtocolLayerEx1 H A}
    (h : ∀ n tid, (node' n).txPool.containTx tid = (node n).txPool.containTx tid)
    (pk : Packet N (MessageObject H A)) : weight nbrs node' pk = weight nbrs node pk := by
  have hm : ∀ n tids, misses (node' n) tids = misses (node n) tids := by
    intro n tids
    simp only [misses, h]
  obtain ⟨src, dest, body⟩ := pk
  cases body <;> simp only [weight, hm]

/-- These are all the transactions there are. -/
def CoveredBy (ids : Finset (SimpleTransactionId H A)) (c : Ex1Config N H A) : Prop :=
  ∀ n tid, Holds c n tid → ∃ x ∈ ids, SameKey tid x

theorem exists_coveredBy [Fintype N] (c : Ex1Config N H A) : ∃ ids, CoveredBy ids c := by
  classical
  refine ⟨Finset.univ.biUnion fun n => (c.node n).txPool.keys.toFinset, fun n tid h => ?_⟩
  obtain ⟨x, hx, hsame⟩ := (c.node n).txPool.exists_mem_keys h
  refine ⟨x, Finset.mem_biUnion.mpr ⟨n, Finset.mem_univ n, List.mem_toFinset.mpr hx⟩, hsame⟩

variable [DecidableEq N]

theorem relay_weight (node : N → BL_ProtocolLayerEx1 H A) (nb : List N) (n source : N)
    (tids : List (SimpleTransactionId H A)) :
    ((packets n (relay nb source (.txInv tids))).map (weight nbrs node)).sum ≤ 3 * nb.length := by
  have hone : ∀ w ∈ (packets n (relay nb source (.txInv tids))).map (weight nbrs node), w ≤ 3 := by
    intro w hw
    obtain ⟨pk, hpk, rfl⟩ := List.mem_map.mp hw
    obtain ⟨-, hpk⟩ := mem_packets.mp hpk
    obtain ⟨-, -, hbody⟩ := mem_relay.mp hpk
    simp only [weight, hbody]
    split <;> omega
  have hsum := List.sum_le_card_nsmul _ 3 hone
  have hlen : ((packets n (relay nb source (.txInv tids))).map (weight nbrs node)).length ≤
      nb.length := by
    simp only [packets, relay, List.length_map]
    exact List.length_filter_le _ _
  rw [smul_eq_mul] at hsum
  omega

variable [Zero H]

/-- A delivery that brings nothing new: the message outweighs its answers. -/
theorem answers_lt (hb : Backed c) {k : Nat} {pk : Packet N (MessageObject H A)}
    (hpk : c.wire[k]? = some pk) {L : BL_ProtocolLayerEx1 H A} {out : Sends N H A}
    (hs : Ex1RecvStep (nbrs pk.dest) (c.node pk.dest) pk.src pk.body L out)
    (hold : ∀ txs, pk.body = .txTxs txs → ∀ tx ∈ txs, Holds c pk.dest tx.getId) :
    ((packets pk.dest out).map (weight nbrs c.node)).sum < weight nbrs c.node pk := by
  have hok := hb.wire pk (mem_of_wire hpk)
  have hpos : 0 < weight nbrs c.node pk := weight_pos c.node pk
  obtain ⟨src, dest, body⟩ := pk
  cases hs with
  | invKnown _ => exact hpos
  | @invMissing tids missing hne hmem =>
      have hmiss : misses (c.node dest) missing = true := by
        obtain ⟨x, hx⟩ := List.exists_mem_of_ne_nil _ hne
        exact misses_iff.mpr ⟨x, hx, ((hmem x).mp hx).2⟩
      have hmiss' : misses (c.node dest) tids = true := by
        obtain ⟨x, hx, hnot⟩ := misses_iff.mp hmiss
        exact misses_iff.mpr ⟨x, ((hmem x).mp hx).1, hnot⟩
      simp only [packets, List.map_cons, List.map_nil, List.sum_cons, List.sum_nil, weight, hmiss,
        hmiss', if_true]
      omega
  | @getdata tids txs _ hmem =>
      simp only [packets, List.map_cons, List.map_nil, List.sum_cons, List.sum_nil, weight]
      cases hmiss : misses (c.node src) tids with
      | false =>
          simp only [Bool.false_eq_true, if_false]
          split <;> omega
      | true =>
          -- what the requester misses is among the answers, as this node has it
          obtain ⟨x, hx, hnot⟩ := misses_iff.mp hmiss
          have hhas : ((c.node dest).txPool.getTx x).isSome = true := by
            rw [← TxPool.containTx_eq_isSome]
            exact hok x hx
          obtain ⟨tx, hget⟩ := Option.isSome_iff_exists.mp hhas
          have hmiss' : misses (c.node src) (txs.map SimpleTransaction.getId) = true := by
            refine misses_iff.mpr ⟨tx.getId, ?_, ?_⟩
            · exact List.mem_map_of_mem ((hmem tx).mpr ⟨x, hx, hget⟩)
            · rw [← TxPool.containTx_congr _ (TxPool.has_of_getTx _ hget).2]
              exact hnot
          simp only [hmiss', if_true]
          omega
  | getdataNone _ => exact hpos
  | @txs txs _ _ _ =>
      have hmiss : misses (c.node dest) (txs.map SimpleTransaction.getId) = false := by
        rw [← Bool.not_eq_true, misses_iff]
        rintro ⟨x, hx, hnot⟩
        obtain ⟨tx, htx, rfl⟩ := List.mem_map.mp hx
        cases hnot.symm.trans (hold txs rfl tx htx)
      have hle : ((packets dest (relay (nbrs dest) src
          (.txInv (txs.map SimpleTransaction.getId)))).map (weight nbrs c.node)).sum ≤
            3 * (nbrs dest).length := relay_weight _ _ _ _ _
      simp only [weight, hmiss, Bool.false_eq_true, if_false]
      omega
  | other _ => exact hpos

theorem CoveredBy.recv {ids : Finset (SimpleTransactionId H A)} (h : CoveredBy ids c)
    (hb : Backed c) {k : Nat} {pk : Packet N (MessageObject H A)} (hpk : c.wire[k]? = some pk)
    {L : BL_ProtocolLayerEx1 H A} {out : Sends N H A}
    (hs : Ex1RecvStep (nbrs pk.dest) (c.node pk.dest) pk.src pk.body L out) :
    CoveredBy ids (c.post pk.dest L out (c.wire.eraseIdx k)) := by
  have hok := hb.wire pk (mem_of_wire hpk)
  obtain ⟨src, dest, body⟩ := pk
  refine c.forall_post (R := fun _ q => ∀ tid, q.txPool.containTx tid = true →
    ∃ x ∈ ids, SameKey tid x) _ _ _ _ ?_ fun m _ => h m
  cases hs with
  | @txs txs _ hpool _ =>
      intro tid htid
      rw [hpool] at htid
      rcases (TxPool.containTx_addTxs _ _ _).mp htid with ⟨tx, htx, hsame⟩ | htid
      · obtain ⟨x, hx, hsame'⟩ := h src tx.getId (hok tx htx).1
        exact ⟨x, hx, hsame.trans hsame'⟩
      · exact h dest tid htid
  | _ => exact h dest

/-- Delivering ends: a delivery adds to a pool, or the message outweighs its
answers. -/
theorem not_endless_of_backed [Fintype N] (hb : Backed c) :
    ¬ (ex1Protocol H nbrs).Endless c := by
  obtain ⟨ids, hids⟩ := exists_coveredBy c
  refine not_endless (fun c => Backed c ∧ CoveredBy ids c)
    (fun c => lacking ids fun n tid => (c.node n).txPool.containTx tid) (weight nbrs) ?_ ?_
    ⟨hb, hids⟩
  · rintro c k c' ⟨hb, hc⟩ hs
    refine ⟨hb.step hs, ?_⟩
    cases hs with
    | deliver hpk hr => exact hc.recv hb hpk (ex1_recv hr)
  · rintro c k pk L out ⟨hb, hc⟩ hpk hr
    have hs := ex1_recv hr
    have hadd := hs.containTx
    by_cases hnew : ∀ txs, pk.body = .txTxs txs → ∀ tx ∈ txs, Holds c pk.dest tx.getId
    · refine .inr ?_
      have hsame : ∀ n tid,
          ((c.post pk.dest L out (c.wire.eraseIdx k)).node n).txPool.containTx tid =
            (c.node n).txPool.containTx tid := by
        refine c.forall_post (R := fun n q => ∀ tid, q.txPool.containTx tid =
          (c.node n).txPool.containTx tid) _ _ _ _ (fun tid => ?_) fun _ _ _ => rfl
        rw [Bool.eq_iff_iff, hadd]
        refine ⟨?_, .inr⟩
        rintro (hbr | h)
        · obtain ⟨txs, hbody, tx, htx, hsame⟩ := MessageObject.brings_iff.mp hbr
          rw [TxPool.containTx_congr _ hsame]
          exact hnew txs hbody tx htx
        · exact h
      exact ⟨by simp only [hsame], fun q => weight_congr hsame q, answers_lt hb hpk hs hnew⟩
    · refine .inl ?_
      push Not at hnew
      obtain ⟨txs, hbody, tx, htx, hnot⟩ := hnew
      have hsrc : Holds c pk.src tx.getId := by
        have hok := hb.wire pk (mem_of_wire hpk)
        simp only [PacketOK, hbody] at hok
        exact (hok tx htx).1
      obtain ⟨x, hx, hsame⟩ := hc pk.src tx.getId hsrc
      refine lacking_lt (holds_post fun tid ht => (hadd tid).mpr (.inr ht)) (n := pk.dest) hx ?_ ?_
      · rw [← TxPool.containTx_congr _ hsame]
        simpa [Holds] using hnot
      · refine holds_post_self.mpr ((hadd _).mpr (.inl ?_))
        exact MessageObject.brings_iff.mpr ⟨txs, hbody, tx, htx, hsame.symm⟩

end Ends

variable [LinearOrder A]

/-- **Transaction gossip ends and agrees**: from every reachable state delivering
ends, and with nothing in flight and nothing to announce neighbours hold the
same transactions. -/
theorem gossip_ends_and_agrees [Zero H] [DecidableEq N] [Fintype N] {nbrs : N → List N}
    (hsymm : ∀ n m, m ∈ nbrs n → n ∈ nbrs m) {c : Ex1Config N H A}
    (h : (ex1Sys H nbrs).Under (fun _ a => Keeps a) c) :
    ¬ (ex1Protocol H nbrs).Endless c ∧
      ((∀ pk ∈ c.wire, pk.body.isPOWBlock = true) → (∀ n, (c.node n).txToBroadcast = []) →
        ∀ n m, m ∈ nbrs n → (c.node n).txids = (c.node m).txids) := by
  obtain ⟨hb, hp⟩ := paid_of_under h
  refine ⟨not_endless_of_backed hb, fun hwire hqueue n m hm => ?_⟩
  exact (txids_subset hb hp hwire hqueue hm).antisymm
    (txids_subset hb hp hwire hqueue (hsymm n m hm))

/-- Two of three nodes make a transaction each and announce it, and all is delivered. -/
def gossipRound : List (Act (Fin 3) (Ex1Act Nat)) :=
  [.fire 0 (.txgen 1 2 3), .fire 1 (.txgen 4 5 6), .fire 0 .txbroadcast, .fire 1 .txbroadcast] ++
    List.replicate 16 (.deliver 0)

theorem gossip_ends_and_agrees_triangle : ∃ c : Ex1Config (Fin 3) Nat Nat,
    (ex1Sys Nat triangle).Under (fun _ a => Keeps a) c ∧ c.wire = [] ∧
      (c.node 2).txPool.getPendingTxNum = 2 ∧ ¬ (ex1Protocol Nat triangle).Endless c ∧
      (c.node 2).txids = (c.node 0).txids := by
  have hrun : ((ex1Protocol Nat triangle).run (fun _ a => decide (Keeps a)) gossipRound).map
      (fun c : Ex1Config (Fin 3) Nat Nat =>
        decide (c.wire = [] ∧ (c.node 2).txPool.getPendingTxNum = 2 ∧
          ∀ n, (c.node n).txToBroadcast = [])) = some true := by
    decide +kernel
  obtain ⟨c, hc, hv⟩ := Option.map_eq_some_iff.mp hrun
  obtain ⟨hwire, hnum, hqueue⟩ := of_decide_eq_true hv
  have hu : (ex1Sys Nat triangle).Under (fun _ a => Keeps a) c :=
    ((ex1Protocol Nat triangle).run_under hc).mono fun _ _ _ => of_decide_eq_true
  obtain ⟨hend, hagree⟩ := gossip_ends_and_agrees (by decide) hu
  refine ⟨c, hu, hwire, hnum, hend, hagree ?_ hqueue 2 0 (by decide)⟩
  rw [hwire]
  exact fun _ hpk => nomatch hpk

end Bleep.Gossip
