/-
# `Bleep.Stack.Protocols` — the two protocol layers over sockets

`BL_ProtocolLayerEx1` and `BL_ProtocolLayerPoW` as protocol layers of hosts.  Their
messages are the objects of `MessageObject`; the other class of objects on the wire is
`AddrAd`, of the layer of peers.

Both layers read what they write and send to their neighbours and to whom they answer
(`ex1Layer_lawful`, `powLayer_lawful`), so that `fabric_simulated` applies: what was
proved of all runs over messages holds of hosts over sockets, whatever `send()` takes and
`recv()` returns, and whenever timers fire and watchers queue events.
-/
import Bleep.BL3.Gossip
import Bleep.BL3.PoWSync
import Bleep.Stack.Simulation

namespace Bleep

open Protocol

variable {N H A : Type}

/-- `AddrAd`. -/
def addrAd : AddrAd N (WireObject N H A) where
  make := .addrAd
  vAddr
    | some (.addrAd vAddr) => some vAddr
    | _ => none

theorem addrAd_lawful : (addrAd : AddrAd N (WireObject N H A)).Lawful := fun _ => rfl

/-- The types of protocol messages are listed by `RecvHandler`, and none of them is one of
the layer of peers. -/
theorem MessageObject.type_passes (obj : MessageObject H A) :
    obj.type.listed = true ∧ obj.type ∉ peerTypes := by
  have hall : ∀ type ∈ txgossipTypes ++ powblockTypes,
      MessageType.listed type = true ∧ type ∉ peerTypes := by decide
  exact hall obj.type obj.type_mem_append

/-! ## To whom the layers send -/

section Sends

variable {nb : List N} {source : N} {obj : MessageObject H A} {out : Sends N H A}

theorem mem_single {e : N × MessageObject H A} (h : e ∈ [(source, obj)]) :
    e.1 ∈ nb ∨ e.1 = source :=
  .inr (congrArg Prod.fst (List.mem_singleton.mp h))

theorem mem_of_relay [LinearOrder N] {e : N × MessageObject H A} (h : e ∈ relay nb source obj) :
    e.1 ∈ nb ∨ e.1 = source :=
  .inl (mem_relay.mp h).1

variable [LinearOrder A]

theorem TxGossipProtocol.txbroadcasttimerCallback_local (g : TxGossipProtocol H A) :
    ∀ e ∈ (g.txbroadcasttimerCallback (W := Nat) nb).2, e.1 ∈ nb := by
  intro e he
  simp only [txbroadcasttimerCallback] at he
  split at he
  · cases he
  · exact (mem_sendAll.mp he).1

theorem TxGossipProtocol.recvInventoryHandler_local (g : TxGossipProtocol H A)
    (txids : List (SimpleTransactionId H A)) :
    ∀ e ∈ (g.recvInventoryHandler (W := Nat) source txids).2, e.1 ∈ nb ∨ e.1 = source := by
  intro e he
  simp only [recvInventoryHandler] at he
  split at he
  · cases he
  · exact mem_single he

theorem TxGossipProtocol.recvGetdataHandler_local (g : TxGossipProtocol H A)
    (txids : List (SimpleTransactionId H A)) :
    ∀ e ∈ (g.recvGetdataHandler (W := Nat) source txids).2, e.1 ∈ nb ∨ e.1 = source := by
  intro e he
  simp only [recvGetdataHandler] at he
  split at he
  · cases he
  · exact mem_single he

variable [LinearOrder N]

variable [Zero H]

theorem ex1_fire_local (n : N) {l : Ex1Act A} {L L' : BL_ProtocolLayerEx1 H A}
    (h : (ex1Protocol H fun _ : N => nb).fire n l L = some (.ok (L', out))) :
    ∀ e ∈ out, e.1 ∈ nb := by
  intro e he
  cases ex1_fire h with
  | gen _ _ _ _ _ hout =>
      rw [hout] at he
      cases he
  | announce _ _ hout =>
      rw [hout] at he
      exact (mem_sendAll.mp he).1
  | idle _ hout =>
      rw [hout] at he
      cases he

theorem ex1_recv_local (n : N) {L L' : BL_ProtocolLayerEx1 H A}
    (h : (ex1Protocol H fun _ : N => nb).recv n source obj L = .ok (L', out)) :
    ∀ e ∈ out, e.1 ∈ nb ∨ e.1 = source := by
  intro e he
  cases ex1_recv h with
  | invMissing _ _ => exact mem_single he
  | getdata _ _ => exact mem_single he
  | txs _ _ => exact mem_of_relay he
  | invKnown _ => cases he
  | getdataNone _ => cases he
  | other _ => cases he

variable [DecidableEq H] {sha : Sha256 H A} {p p' : PoWNode N H A}

omit [LinearOrder N] in
theorem PoWNode.fire_local {l : PoWAct H A} (h : p.fire sha nb l = some (.ok (p', out))) :
    ∀ e ∈ out, e.1 ∈ nb := by
  intro e he
  cases l with
  | txgen _ _ _ _ =>
      obtain ⟨-, rfl⟩ := Prod.mk.inj (Except.ok.inj (Option.some.inj h))
      cases he
  | txbroadcast =>
      simp only [PoWNode.fire, Option.some.injEq, Except.ok.injEq, Prod.mk.injEq] at h
      obtain ⟨-, rfl⟩ := h
      exact p.layer.txGossipProtocol.txbroadcasttimerCallback_local e he
  | miningTimer _ _ =>
      obtain ⟨b, -, rfl⟩ := PoWNode.fire_miningTimer h
      cases he
  | blockMiningComplete =>
      simp only [PoWNode.fire] at h
      split at h
      · cases h
      · obtain ⟨⟨L, sent⟩, hL, h⟩ := bind_ok.mp (Option.some.inj h)
        obtain ⟨-, rfl⟩ := Prod.mk.inj (Except.ok.inj h)
        obtain ⟨t, -, hL⟩ := bind_ok.mp hL
        obtain ⟨-, rfl⟩ := Prod.mk.inj (Except.ok.inj hL)
        exact (mem_sendAll.mp he).1

theorem PoWNode.recv_local (h : p.recv sha nb source obj = .ok (p', out)) :
    ∀ e ∈ out, e.1 ∈ nb ∨ e.1 = source := by
  intro e he
  obtain ⟨⟨L, sent⟩, hL, h⟩ := bind_ok.mp h
  obtain ⟨-, rfl⟩ := Prod.mk.inj (Except.ok.inj h)
  cases obj with
  | txInv txids =>
      simp only [BL_ProtocolLayerPoW.recvMsgHandler, Except.ok.injEq, Prod.mk.injEq] at hL
      obtain ⟨-, rfl⟩ := hL
      exact p.layer.txGossipProtocol.recvInventoryHandler_local txids e he
  | txGetdata txids =>
      simp only [BL_ProtocolLayerPoW.recvMsgHandler, Except.ok.injEq, Prod.mk.injEq] at hL
      obtain ⟨-, rfl⟩ := hL
      exact p.layer.txGossipProtocol.recvGetdataHandler_local txids e he
  | txTxs txs =>
      obtain ⟨-, hout⟩ := Prod.mk.inj (Except.ok.inj hL)
      rw [← hout] at he
      exact mem_of_relay he
  | blkInv hs =>
      rcases BL_ProtocolLayerPoW.recvPOWBlockInvHandler_ok hL with
        ⟨-, hr⟩ | ⟨-, front, -, ⟨-, loc, -, hr⟩ | ⟨-, k, -, hr⟩ | ⟨-, -, hr⟩⟩
      · obtain ⟨-, rfl⟩ := Prod.mk.inj hr
        cases he
      · obtain ⟨-, rfl⟩ := Prod.mk.inj hr
        exact mem_single he
      · obtain ⟨-, rfl⟩ := Prod.mk.inj hr
        exact mem_single he
      · obtain ⟨-, rfl⟩ := Prod.mk.inj hr
        cases he
  | blkGetBlocks locator =>
      obtain ⟨c, -, hL⟩ := bind_ok.mp hL
      obtain ⟨chain, -, hL⟩ := bind_ok.mp hL
      obtain ⟨-, rfl⟩ := Prod.mk.inj (Except.ok.inj hL)
      exact mem_single he
  | blkGetData k =>
      obtain ⟨b, -, hr⟩ := BL_ProtocolLayerPoW.recvPOWBlockGetDataHandler_ok hL
      obtain ⟨-, rfl⟩ := Prod.mk.inj hr
      exact mem_single he
  | blkBlk b =>
      obtain ⟨M, -, hM⟩ := bind_ok.mp hL
      have hout := Except.ok.inj hM
      generalize (if p.layer.blocktree.getLastHash ≠ M.blocktree.getLastHash then
        M.restartMining sha else M) = K at hout
      rcases K.continueInv_cases nb source with ⟨-, hc⟩ | ⟨k, -, -, hc⟩ | ⟨-, -, hc⟩
      · obtain ⟨-, rfl⟩ := Prod.mk.inj (hout.symm.trans hc)
        cases he
      · obtain ⟨-, rfl⟩ := Prod.mk.inj (hout.symm.trans hc)
        exact mem_single he
      · obtain ⟨-, rfl⟩ := Prod.mk.inj (hout.symm.trans hc)
        exact mem_of_relay he

end Sends

section Layers

variable [LinearOrder N] [LinearOrder A] [Zero H]

/-! ## `BL_ProtocolLayerEx1` -/

/-- The layer over hosts.  `RecvMsgHandler` has no branch for the messages of the other
protocol; here the handler gets their objects, and ignores them. -/
def ex1Layer : ProtocolLayer N (WireObject N H A) (BL_ProtocolLayerEx1 H A) (MessageObject H A)
    (Ex1Act A) where
  start := (ex1Protocol H fun _ : N => []).start
  fire n nb l L := (ex1Protocol H fun _ => nb).fire n l L
  recv n nb source obj L := (ex1Protocol H fun _ => nb).recv n source obj L
  type := MessageObject.type
  object := .protocol
  read type o :=
    if type ∈ txgossipTypes then castObject type o
    else
      match o with
      | some (.protocol obj) => .ok (some obj)
      | _ => .ok none

theorem ex1Layer_protocol (nbrs : N → List N) :
    (ex1Layer (H := H) (A := A)).protocol nbrs = ex1Protocol H nbrs := rfl

theorem ex1Layer_lawful : (ex1Layer (N := N) (H := H) (A := A)).Lawful where
  listed obj := obj.type_passes.1
  own obj := obj.type_passes.2
  read obj := by
    simp only [ex1Layer]
    split
    · exact if_pos rfl
    · rfl
  fire {n _ _ _ _ _} h := ex1_fire_local n h
  recv {n _ _ _ _ _ _} h := ex1_recv_local n h

/-! ## `BL_ProtocolLayerPoW` -/

variable [DecidableEq H] [Zero A] (sha : Sha256 H A)

def powLayer : ProtocolLayer N (WireObject N H A) (PoWNode N H A) (MessageObject H A)
    (PoWAct H A) where
  start _ := .init sha
  fire _ nb l p := p.fire sha nb l
  recv _ nb source obj p := p.recv sha nb source obj
  type := MessageObject.type
  object := .protocol
  read := readObject

theorem powLayer_protocol (nbrs : N → List N) :
    (powLayer sha).protocol nbrs = powProtocol sha nbrs := rfl

theorem powLayer_lawful : (powLayer (N := N) sha).Lawful where
  listed obj := obj.type_passes.1
  own obj := obj.type_passes.2
  read obj := by
    have hcast : castObject obj.type (some (.protocol obj : WireObject N H A)) = .ok (some obj) :=
      if_pos rfl
    simp only [powLayer, readObject, if_pos obj.type_mem_append, hcast]
  fire h := PoWNode.fire_local h
  recv h := PoWNode.recv_local h

end Layers

end Bleep
