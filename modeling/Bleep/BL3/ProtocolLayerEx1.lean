/-
# `Bleep.BL3.ProtocolLayerEx1` — a network that gossips transactions

`BL_ProtocolLayerEx1` and the network of its nodes, with what holds of every
message in flight: the ids of an inventory and the transactions of a `TXS` are
in the pool of the sender, the ids of a request in the pool of the node it goes
to (`PacketOK`).  Pools never lose anything here, so that is true when a message
is sent and stays true.

`tx_hash` is never set by this layer and is 0 for every transaction, so that the
ids of the pools are equal as soon as they are equal for the map.
-/
import Bleep.Lib.Network
import Bleep.Fault
import Bleep.BL3.TxGossip

namespace Bleep

open Protocol SimpleTransactionId

variable {N H A : Type} [LinearOrder A]

/-- `class BL_ProtocolLayerEx1`; the pool it inherits is the one it shares with
the gossip. -/
structure BL_ProtocolLayerEx1 (H A : Type) [LinearOrder A] where
  txGossipProtocol : TxGossipProtocol H A

namespace BL_ProtocolLayerEx1

def init : BL_ProtocolLayerEx1 H A := ⟨.init⟩

variable (L : BL_ProtocolLayerEx1 H A)

/-- `_txPool`. -/
abbrev txPool : TxPool H A := L.txGossipProtocol.txPool

/-- `_txToBroadcast`. -/
abbrev txToBroadcast : List (SimpleTransaction H A) := L.txGossipProtocol.txToBroadcast

/-- `_txgentimerCallback`, for the transaction it drew at random. -/
def txgentimerCallback (tx : SimpleTransaction H A) : BL_ProtocolLayerEx1 H A :=
  if !L.txPool.containTx tx.getId then
    let g := { L.txGossipProtocol with txPool := L.txPool.addTx tx }
    { L with txGossipProtocol := g.pushTxToBroadcast tx }
  else L

/-- `RecvMsgHandler`, which ignores the messages of other protocols. -/
def recvMsgHandler [DecidableEq N] (neighborIds : List N) (source : N) :
    MessageObject H A → BL_ProtocolLayerEx1 H A × Sends N H A
  | .txInv tids =>
      let (g, out) := L.txGossipProtocol.recvInventoryHandler source tids
      ({ L with txGossipProtocol := g }, out)
  | .txGetdata tids =>
      let (g, out) := L.txGossipProtocol.recvGetdataHandler source tids
      ({ L with txGossipProtocol := g }, out)
  | .txTxs txs =>
      let (g, out) := L.txGossipProtocol.recvTxsHandler neighborIds source txs
      ({ L with txGossipProtocol := g }, out)
  | _ => (L, [])

/-- The ids of the pool. -/
def txids : Set (SimpleTransactionId H A) := fun tid => ∃ tx, L.txPool.Has tx ∧ tx.getId = tid

end BL_ProtocolLayerEx1

/-- The timers of a node, with what they draw. -/
inductive Ex1Act (A : Type) where
  | txgen (sender_id receiver_id : Int) (amount : A)
  | txbroadcast

variable [DecidableEq N]

/-- The network. -/
def ex1Protocol (H : Type) [Zero H] (nbrs : N → List N) :
    Protocol N (BL_ProtocolLayerEx1 H A) (MessageObject H A) (Ex1Act A) Fault where
  start _ := .init
  fire n l L :=
    match l with
    | .txgen sid rid amount => some (.ok (L.txgentimerCallback (.make sid rid amount 0), []))
    | .txbroadcast =>
        let (g, out) := L.txGossipProtocol.txbroadcasttimerCallback (nbrs n)
        some (.ok ({ L with txGossipProtocol := g }, out))
  recv n source obj L := .ok (L.recvMsgHandler (nbrs n) source obj)

abbrev Ex1Config (N H A : Type) [LinearOrder A] :=
  Config N (BL_ProtocolLayerEx1 H A) (MessageObject H A)

abbrev ex1Sys (H : Type) [Zero H] (nbrs : N → List N) :
    TransSys (Ex1Config N H A) (Act N (Ex1Act A)) := (ex1Protocol H nbrs).sys

/-! ## What a node can do -/

section Steps

variable [Zero H] {nbrs : N → List N} {n source : N} {L L' : BL_ProtocolLayerEx1 H A}
  {out : Sends N H A} {l : Ex1Act A} {obj : MessageObject H A}

/-- All that the timers can do. -/
inductive Ex1FireStep (nb : List N) (L L' : BL_ProtocolLayerEx1 H A) (out : Sends N H A) : Prop
  /-- A new transaction. -/
  | gen (tx : SimpleTransaction H A) : tx.getId.tx_hash = 0 → L.txPool.containTx tx.getId = false →
      L'.txPool = L.txPool.addTx tx → L'.txToBroadcast = L.txToBroadcast ++ [tx] → out = [] →
      Ex1FireStep nb L L' out
  /-- The new transactions are announced. -/
  | announce : L'.txPool = L.txPool → L'.txToBroadcast = [] →
      out = sendAll nb (.txInv (L.txToBroadcast.map SimpleTransaction.getId)) →
      Ex1FireStep nb L L' out
  | idle : L' = L → out = [] → Ex1FireStep nb L L' out

theorem ex1_fire (h : (ex1Protocol H nbrs).fire n l L = some (.ok (L', out))) :
    Ex1FireStep (nbrs n) L L' out := by
  cases l with
  | txgen sid rid amount =>
      obtain ⟨rfl, rfl⟩ := Prod.mk.inj (Except.ok.inj (Option.some.inj h))
      cases hc : L.txPool.containTx (SimpleTransaction.make sid rid amount (0 : H)).getId with
      | true => exact .idle (if_neg (by rw [hc]; exact nofun)) rfl
      | false =>
          refine .gen (.make sid rid amount 0) rfl hc ?_ ?_ rfl
          · rw [BL_ProtocolLayerEx1.txgentimerCallback, hc]
            rfl
          · rw [BL_ProtocolLayerEx1.txgentimerCallback, hc]
            rfl
  | txbroadcast =>
      simp only [ex1Protocol, Option.some.injEq, Except.ok.injEq, Prod.mk.injEq] at h
      obtain ⟨rfl, rfl⟩ := h
      unfold TxGossipProtocol.txbroadcasttimerCallback
      split
      · exact .idle rfl rfl
      · exact .announce rfl rfl rfl

/-- All that the handlers can do. -/
inductive Ex1RecvStep (nb : List N) (L : BL_ProtocolLayerEx1 H A) (source : N) :
    MessageObject H A → BL_ProtocolLayerEx1 H A → Sends N H A → Prop
  | invKnown {tids : List (SimpleTransactionId H A)} :
      (∀ x ∈ tids, L.txPool.containTx x = true) → Ex1RecvStep nb L source (.txInv tids) L []
  | invMissing {tids missing : List (SimpleTransactionId H A)} : missing ≠ [] →
      (∀ x, x ∈ missing ↔ x ∈ tids ∧ L.txPool.containTx x = false) →
      Ex1RecvStep nb L source (.txInv tids) L [(source, .txGetdata missing)]
  | getdata {tids : List (SimpleTransactionId H A)} {txs : List (SimpleTransaction H A)} :
      txs ≠ [] → (∀ tx, tx ∈ txs ↔ ∃ x ∈ tids, L.txPool.getTx x = some tx) →
      Ex1RecvStep nb L source (.txGetdata tids) L [(source, .txTxs txs)]
  | getdataNone {tids : List (SimpleTransactionId H A)} :
      (∀ x ∈ tids, L.txPool.containTx x = false) → Ex1RecvStep nb L source (.txGetdata tids) L []
  | txs {txs : List (SimpleTransaction H A)} {L' : BL_ProtocolLayerEx1 H A} :
      L'.txPool = L.txPool.addTxs txs → L'.txToBroadcast = L.txToBroadcast →
      Ex1RecvStep nb L source (.txTxs txs) L'
        (relay nb source (.txInv (txs.map SimpleTransaction.getId)))
  | other {obj : MessageObject H A} : obj.isPOWBlock = true → Ex1RecvStep nb L source obj L []

theorem ex1_recv (h : (ex1Protocol H nbrs).recv n source obj L = .ok (L', out)) :
    Ex1RecvStep (nbrs n) L source obj L' out := by
  have h' : L.recvMsgHandler (nbrs n) source obj = (L', out) := Except.ok.inj h
  cases obj with
  | txInv tids =>
      simp only [BL_ProtocolLayerEx1.recvMsgHandler, TxGossipProtocol.recvInventoryHandler] at h'
      split at h'
      · next hnone =>
          obtain ⟨rfl, rfl⟩ := Prod.mk.inj h'
          refine .invKnown fun x hx => ?_
          simpa using List.filter_eq_nil_iff.mp (List.isEmpty_iff.mp hnone) x hx
      · next hsome =>
          obtain ⟨rfl, rfl⟩ := Prod.mk.inj h'
          refine .invMissing (fun he => hsome (List.isEmpty_iff.mpr he)) fun x => ?_
          rw [List.mem_filter, Bool.not_eq_true']
  | txGetdata tids =>
      simp only [BL_ProtocolLayerEx1.recvMsgHandler, TxGossipProtocol.recvGetdataHandler] at h'
      -- what is not in the pool has no transaction
      have hget :
          ∀ x tx, (if L.txPool.containTx x = true then L.txPool.getTx x else none) = some tx ↔
          L.txPool.getTx x = some tx := by
        intro x tx
        rw [L.txPool.containTx_eq_isSome]
        cases L.txPool.getTx x <;> simp
      split at h'
      · next hnone =>
          obtain ⟨rfl, rfl⟩ := Prod.mk.inj h'
          refine .getdataNone fun x hx => ?_
          have := List.filterMap_eq_nil_iff.mp (List.isEmpty_iff.mp hnone) x hx
          rw [L.txPool.containTx_eq_isSome]
          cases hg : L.txPool.getTx x with
          | none => rfl
          | some tx => cases this.symm.trans ((hget x tx).mpr hg)
      · next hsome =>
          obtain ⟨rfl, rfl⟩ := Prod.mk.inj h'
          refine .getdata (fun he => hsome (List.isEmpty_iff.mpr he)) fun tx => ?_
          rw [List.mem_filterMap]
          exact exists_congr fun x => and_congr_right fun _ => hget x tx
  | txTxs txs =>
      obtain ⟨rfl, rfl⟩ := Prod.mk.inj h'
      exact .txs rfl rfl
  | blkInv _ =>
      obtain ⟨rfl, rfl⟩ := Prod.mk.inj h'
      exact .other rfl
  | blkGetBlocks _ =>
      obtain ⟨rfl, rfl⟩ := Prod.mk.inj h'
      exact .other rfl
  | blkGetData _ =>
      obtain ⟨rfl, rfl⟩ := Prod.mk.inj h'
      exact .other rfl
  | blkBlk _ =>
      obtain ⟨rfl, rfl⟩ := Prod.mk.inj h'
      exact .other rfl

omit [Zero H] in
/-- A pool takes in what the message brings. -/
theorem Ex1RecvStep.containTx {nb : List N} (h : Ex1RecvStep nb L source obj L' out)
    (tid : SimpleTransactionId H A) :
    L'.txPool.containTx tid = true ↔ obj.Brings tid ∨ L.txPool.containTx tid = true := by
  cases h with
  | txs hpool _ =>
      rw [hpool]
      exact TxPool.containTx_addTxs _ _ _
  | invKnown _ => exact (iff_of_eq (false_or _)).symm
  | invMissing _ _ => exact (iff_of_eq (false_or _)).symm
  | getdata _ _ => exact (iff_of_eq (false_or _)).symm
  | getdataNone _ => exact (iff_of_eq (false_or _)).symm
  | other hobj =>
      cases obj with
      | txTxs _ => exact nomatch hobj
      | _ => exact (iff_of_eq (false_or _)).symm

end Steps

end Bleep
