/-
# `Bleep.BL3.TxGossip` — protocol messages and transaction gossip

The message objects of the two protocol layers, and `TxGossipProtocol`, which
both of them contain.  A handler takes the ids of the node's neighbours where
the source asks the peer layer for them, and answers with the state and the
messages it hands to `SendMsgToPeer`, in order.

The pool is shared between `TxGossipProtocol` and the layer around it through
one pointer; the model keeps it here, and the layers read it through the
protocol.
-/
import Bleep.BL2.Message
import Bleep.BL3.BlockTree

namespace Bleep

/-- The message objects, one constructor for each message type: `TXGOSSIP-INV`,
`-GETDATA`, `-TXS` and `POWBLOCK-INV`, `-GETBLOCKS`, `-GETDATA`, `-BLK`.  A received message
may also have no object, or one of another class: see `WireObject`. -/
inductive MessageObject (H A : Type) (W : Type := Nat) where
  | txInv (txids : List (SimpleTransactionId H A))
  | txGetdata (txids : List (SimpleTransactionId H A))
  | txTxs (txs : List (SimpleTransaction H A))
  | blkInv (hashlist : List H)
  | blkGetBlocks (blockLocator : List H)
  | blkGetData (blockhash : H)
  | blkBlk (blk : POWBlock H A W)
  deriving DecidableEq, Repr

/-- Is it one of the four `POWBLOCK` messages? -/
def MessageObject.isPOWBlock {H A W : Type} : MessageObject H A W → Bool
  | .txInv _ | .txGetdata _ | .txTxs _ => false
  | .blkInv _ | .blkGetBlocks _ | .blkGetData _ | .blkBlk _ => true

/-- The block hashes an inventory announces. -/
def MessageObject.announced {H A W : Type} : MessageObject H A W → List H
  | .blkInv hashlist => hashlist
  | _ => []

/-- The transactions a message brings to the pool. -/
def MessageObject.Brings {H A W : Type} : MessageObject H A W → SimpleTransactionId H A → Prop
  | .txTxs txs, tid => ∃ tx ∈ txs, SimpleTransactionId.SameKey tid tx.getId
  | _, _ => False

theorem MessageObject.brings_iff {H A W : Type} {obj : MessageObject H A W}
    {tid : SimpleTransactionId H A} :
    obj.Brings tid ↔
      ∃ txs, obj = .txTxs txs ∧ ∃ tx ∈ txs, SimpleTransactionId.SameKey tid tx.getId := by
  cases obj with
  | txTxs txs =>
      constructor
      · exact fun h => ⟨txs, rfl, h⟩
      · rintro ⟨_, ⟨⟩, h⟩
        exact h
  | _ => exact ⟨False.elim, fun ⟨_, h, _⟩ => nomatch h⟩

variable {N H A W : Type}

/-- The subclasses of `MessageObject`. -/
inductive WireObject (N H A : Type) (W : Type := Nat) where
  | addrAd (vAddr : List N)
  | protocol (obj : MessageObject H A W)
  deriving DecidableEq

/-- The type a message about `obj` is sent under. -/
def MessageObject.type : MessageObject H A W → MessageType
  | .txInv _ => "TXGOSSIP-INV"
  | .txGetdata _ => "TXGOSSIP-GETDATA"
  | .txTxs _ => "TXGOSSIP-TXS"
  | .blkInv _ => "POWBLOCK-INV"
  | .blkGetBlocks _ => "POWBLOCK-GETBLOCKS"
  | .blkGetData _ => "POWBLOCK-GETDATA"
  | .blkBlk _ => "POWBLOCK-BLK"

/-- The object of a message of some type, as the branch for the type gets it by
`static_pointer_cast`. -/
def castObject (type : MessageType) :
    Option (WireObject N H A W) → Except Fault (Option (MessageObject H A W))
  | none => .error .nullDeref
  | some (.protocol obj) => if obj.type = type then .ok (some obj) else .error .outOfBounds
  | some (.addrAd _) => .error .outOfBounds

def txgossipTypes : List MessageType := ["TXGOSSIP-INV", "TXGOSSIP-GETDATA", "TXGOSSIP-TXS"]

def powblockTypes : List MessageType :=
  ["POWBLOCK-INV", "POWBLOCK-GETBLOCKS", "POWBLOCK-GETDATA", "POWBLOCK-BLK"]

theorem MessageObject.type_mem (obj : MessageObject H A W) :
    obj.type ∈ if obj.isPOWBlock then powblockTypes else txgossipTypes := by
  cases obj with
  | txInv _ => exact (by decide : "TXGOSSIP-INV" ∈ txgossipTypes)
  | txGetdata _ => exact (by decide : "TXGOSSIP-GETDATA" ∈ txgossipTypes)
  | txTxs _ => exact (by decide : "TXGOSSIP-TXS" ∈ txgossipTypes)
  | blkInv _ => exact (by decide : "POWBLOCK-INV" ∈ powblockTypes)
  | blkGetBlocks _ => exact (by decide : "POWBLOCK-GETBLOCKS" ∈ powblockTypes)
  | blkGetData _ => exact (by decide : "POWBLOCK-GETDATA" ∈ powblockTypes)
  | blkBlk _ => exact (by decide : "POWBLOCK-BLK" ∈ powblockTypes)

theorem MessageObject.type_mem_append (obj : MessageObject H A W) :
    obj.type ∈ txgossipTypes ++ powblockTypes := by
  have hmem := obj.type_mem
  split at hmem
  · exact List.mem_append_right _ hmem
  · exact List.mem_append_left _ hmem

theorem MessageObject.of_type_inv {obj : MessageObject H A W} (h : obj.type = "POWBLOCK-INV") :
    ∃ hashlist, obj = .blkInv hashlist := by
  cases obj with
  | blkInv hashlist => exact ⟨hashlist, rfl⟩
  | _ => simp [type] at h

theorem MessageObject.of_type_getBlocks {obj : MessageObject H A W}
    (h : obj.type = "POWBLOCK-GETBLOCKS") : ∃ blockLocator, obj = .blkGetBlocks blockLocator := by
  cases obj with
  | blkGetBlocks blockLocator => exact ⟨blockLocator, rfl⟩
  | _ => simp [type] at h

theorem MessageObject.of_type_getData {obj : MessageObject H A W}
    (h : obj.type = "POWBLOCK-GETDATA") : ∃ blockhash, obj = .blkGetData blockhash := by
  cases obj with
  | blkGetData blockhash => exact ⟨blockhash, rfl⟩
  | _ => simp [type] at h

/-- `RecvMsgHandler`: the branch for a type gets its object, and a message of no such type
is ignored. -/
def readObject (type : MessageType) (o : Option (WireObject N H A W)) :
    Except Fault (Option (MessageObject H A W)) :=
  if type ∈ txgossipTypes ++ powblockTypes then castObject type o else .ok none

/-- The messages a handler hands to `SendMsgToPeer`. -/
abbrev Sends (N H A : Type) (W : Type := Nat) := List (N × MessageObject H A W)

/-- One message to every neighbour. -/
def sendAll (neighborIds : List N) (obj : MessageObject H A W) : Sends N H A W :=
  neighborIds.map fun n => (n, obj)

/-- One message to every neighbour but the one it came from. -/
def relay [DecidableEq N] (neighborIds : List N) (source : N) (obj : MessageObject H A W) :
    Sends N H A W :=
  (neighborIds.filter (· ≠ source)).map fun n => (n, obj)

theorem mem_sendAll {neighborIds : List N} {obj m : MessageObject H A W} {n : N} :
    (n, m) ∈ sendAll neighborIds obj ↔ n ∈ neighborIds ∧ m = obj := by
  simp only [sendAll, List.mem_map, Prod.mk.injEq]
  constructor
  · rintro ⟨x, hx, rfl, rfl⟩
    exact ⟨hx, rfl⟩
  · rintro ⟨h, rfl⟩
    exact ⟨n, h, rfl, rfl⟩

theorem mem_relay [DecidableEq N] {neighborIds : List N} {source n : N}
    {obj m : MessageObject H A W} :
    (n, m) ∈ relay neighborIds source obj ↔ n ∈ neighborIds ∧ n ≠ source ∧ m = obj := by
  have : relay neighborIds source obj = sendAll (neighborIds.filter (· ≠ source)) obj := rfl
  rw [this, mem_sendAll, List.mem_filter, decide_eq_true_eq, and_assoc]

variable [LinearOrder A]

/-- `class TxGossipProtocol`. -/
structure TxGossipProtocol (H A : Type) [LinearOrder A] where
  txPool : TxPool H A
  txToBroadcast : List (SimpleTransaction H A)

namespace TxGossipProtocol

def init : TxGossipProtocol H A := ⟨.empty, []⟩

variable (g : TxGossipProtocol H A)

def pushTxToBroadcast (tx : SimpleTransaction H A) : TxGossipProtocol H A :=
  { g with txToBroadcast := g.txToBroadcast ++ [tx] }

/-- `_txbroadcasttimerCallback`. -/
def txbroadcasttimerCallback (neighborIds : List N) : TxGossipProtocol H A × Sends N H A W :=
  if g.txToBroadcast.isEmpty then (g, [])
  else
    let txids := g.txToBroadcast.map SimpleTransaction.getId
    ({ g with txToBroadcast := [] }, sendAll neighborIds (.txInv txids))

def recvInventoryHandler (source : N) (tids : List (SimpleTransactionId H A)) :
    TxGossipProtocol H A × Sends N H A W :=
  let getdataIds := tids.filter fun tid => !g.txPool.containTx tid
  if getdataIds.isEmpty then (g, []) else (g, [(source, .txGetdata getdataIds)])

def recvGetdataHandler (source : N) (tids : List (SimpleTransactionId H A)) :
    TxGossipProtocol H A × Sends N H A W :=
  let txs := tids.filterMap fun tid => if g.txPool.containTx tid then g.txPool.getTx tid else none
  if txs.isEmpty then (g, []) else (g, [(source, .txTxs txs)])

/-- `RecvTxsHandler` relays the ids of all the transactions it received, the new
ones and the others. -/
def recvTxsHandler [DecidableEq N] (neighborIds : List N) (source : N)
    (txs : List (SimpleTransaction H A)) : TxGossipProtocol H A × Sends N H A W :=
  ({ g with txPool := g.txPool.addTxs txs },
    relay neighborIds source (.txInv (txs.map SimpleTransaction.getId)))

/-! The handlers send `TXGOSSIP` messages only. -/

theorem txbroadcasttimerCallback_silent (neighborIds : List N) :
    ∀ x ∈ (g.txbroadcasttimerCallback (W := W) neighborIds).2, x.2.isPOWBlock = false := by
  intro x hx
  unfold txbroadcasttimerCallback at hx
  split at hx
  · exact nomatch hx
  · obtain ⟨-, hobj⟩ := (mem_sendAll (n := x.1) (m := x.2)).mp hx
    rw [hobj]
    rfl

theorem txbroadcasttimerCallback_txPool (neighborIds : List N) :
    (g.txbroadcasttimerCallback (W := W) neighborIds).1.txPool = g.txPool := by
  unfold txbroadcasttimerCallback
  split <;> rfl

theorem recvInventoryHandler_fst (source : N) (tids : List (SimpleTransactionId H A)) :
    (g.recvInventoryHandler (W := W) source tids).1 = g := by
  simp only [recvInventoryHandler]
  split <;> rfl

theorem recvInventoryHandler_silent (source : N) (tids : List (SimpleTransactionId H A)) :
    ∀ x ∈ (g.recvInventoryHandler (W := W) source tids).2, x.2.isPOWBlock = false := by
  intro x hx
  simp only [recvInventoryHandler] at hx
  split at hx
  · exact nomatch hx
  · rw [List.mem_singleton.mp hx]
    rfl

theorem recvGetdataHandler_fst (source : N) (tids : List (SimpleTransactionId H A)) :
    (g.recvGetdataHandler (W := W) source tids).1 = g := by
  simp only [recvGetdataHandler]
  split <;> rfl

theorem recvGetdataHandler_silent (source : N) (tids : List (SimpleTransactionId H A)) :
    ∀ x ∈ (g.recvGetdataHandler (W := W) source tids).2, x.2.isPOWBlock = false := by
  intro x hx
  simp only [recvGetdataHandler] at hx
  split at hx
  · exact nomatch hx
  · rw [List.mem_singleton.mp hx]
    rfl

theorem recvTxsHandler_silent [DecidableEq N] (neighborIds : List N) (source : N)
    (txs : List (SimpleTransaction H A)) :
    ∀ x ∈ (g.recvTxsHandler (W := W) neighborIds source txs).2, x.2.isPOWBlock = false := by
  intro x hx
  obtain ⟨-, -, hobj⟩ := (mem_relay (n := x.1) (m := x.2)).mp hx
  rw [hobj]
  rfl

end TxGossipProtocol

/-- Three nodes, each connected to the two others. -/
def triangle (n : Fin 3) : List (Fin 3) := [0, 1, 2].filter (· ≠ n)

end Bleep
