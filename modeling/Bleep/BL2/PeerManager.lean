/-
# `Bleep.BL2.PeerManager` — peers, the table of peers and its counters

`Peer`, `PeerManager` and `AdvertisementManager` of `BL2_peer_connectivity`.

The life of a peer is in two members that are set by different handlers: it is
being connected to while `tryConnect` is set, and active once it has a data
socket.  Nothing says that one of the two holds.  The descriptor of the connect
socket is not set for an incoming peer and not reset when the connect is over.

The table and the two counters are updated side by side.  `AddPeer` stores and
counts without looking at what was stored before, so the counters are right after
it only if nothing was (`count_addPeer`); no constructor sets them.
-/
import Bleep.Lib.OrderedMap
import Bleep.BL1.SocketLayer

namespace Bleep

inductive PeerType where
  | none
  | incomingPeer
  | outgoingPeer
  deriving DecidableEq

/-- `class Peer`; `conn` is not in the code and remembers which connection the
connect socket was opened for.  Nobody makes a peer without a type. -/
structure Peer (P : Type) where
  id : P
  peerType : PeerType
  connSocket : Int
  tryConnect : Bool
  dataSocket : Option (SocketPtr P)
  pongReceived : Bool
  conn : Option (Conn P)
  connected : ∀ c ∈ conn, connSocket = c.fd
  typed : peerType ≠ .none

namespace Peer

variable {P : Type}

/-- `Peer(id, OutgoingPeer, connSocket)`. -/
def outgoing (id : P) (c : Conn P) : Peer P where
  id
  peerType := .outgoingPeer
  connSocket := c.fd
  tryConnect := false
  dataSocket := .none
  pongReceived := true
  conn := some c
  connected := fun _ h => congrArg _ (Option.some.inj h)
  typed := fun h => nomatch h

/-- `Peer(id, IncomingPeer, dataSocket)`; `uninit` is what the memory of
`_connSocket` held. -/
def incoming (id : P) (uninit : Int) (dataSocket : Option (SocketPtr P)) : Peer P where
  id
  peerType := .incomingPeer
  connSocket := uninit
  tryConnect := false
  dataSocket
  pongReceived := true
  conn := .none
  connected := fun _ h => nomatch h
  typed := fun h => nomatch h

variable (p : Peer P)

def getPeerId : P := p.id

def getConnSocket : Int := p.connSocket

def getPeerType : PeerType := p.peerType

def setDataSocket (dataSocket : Option (SocketPtr P)) : Peer P := { p with dataSocket }

def getDataSocket : Option (SocketPtr P) := p.dataSocket

def isActive : Bool := p.dataSocket.isSome

def setPongReceived (flag : Bool) : Peer P := { p with pongReceived := flag }

def isPongReceived : Bool := p.pongReceived

def setTryConnect : Peer P := { p with tryConnect := true }

def clearTryConnect : Peer P := { p with tryConnect := false }

def isTryConnect : Bool := p.tryConnect

end Peer

/-- `class PeerManager`.  Every peer is stored under its own id. -/
structure PeerManager (P : Type) [LinearOrder P] where
  myPeerId : P
  peers : Std.TreeMap P (Peer P)
  outPeerNum : Int
  inPeerNum : Int
  keyed : ∀ (id : P) (p : Peer P), peers[id]? = some p → p.id = id

namespace PeerManager

variable {P : Type} [LinearOrder P]

/-- `PeerManager(id)`; the counters have whatever values their memory held. -/
def new (id : P) (outPeerNum inPeerNum : Int) : PeerManager P where
  myPeerId := id
  peers := ∅
  outPeerNum
  inPeerNum
  keyed := by
    intro id p h
    rw [Std.TreeMap.getElem?_emptyc] at h
    exact nomatch h

variable (m : PeerManager P)

/-- The peers as a list, in the order of their ids. -/
def getPeers : List (P × Peer P) := m.peers.toList

def getPeerIds : List P := m.getPeers.map Prod.fst

def findPeer (peer : P) : Option (Peer P) := m.peers[peer]?

/-- `_peers[id] = peer`; also what it is when a member of a stored peer changes. -/
def setPeer (peer : Peer P) : PeerManager P :=
  { m with
    peers := m.peers.insert peer.id peer
    keyed := by
      intro id p h
      rw [OrderedMap.getElem?_insert] at h
      split at h
      · next hid => rw [hid, ← Option.some.inj h]
      · exact m.keyed id p h }

/-- How much a peer of one type counts among those of another. -/
def counts (ty : PeerType) (peer : Peer P) : Int := if peer.getPeerType = ty then 1 else 0

def addPeer (peer : Peer P) : PeerManager P :=
  { m.setPeer peer with
    inPeerNum := m.inPeerNum + counts .incomingPeer peer
    outPeerNum := m.outPeerNum + counts .outgoingPeer peer }

/-- What `RemovePeer` leaves. -/
def dropPeer (peer : Peer P) : PeerManager P :=
  { m with
    peers := m.peers.erase peer.id
    inPeerNum := m.inPeerNum - counts .incomingPeer peer
    outPeerNum := m.outPeerNum - counts .outgoingPeer peer
    keyed := by
      intro id p h
      rw [OrderedMap.getElem?_erase] at h
      split at h
      · exact nomatch h
      · exact m.keyed id p h }

/-- The counter of the peers of one type is not negative. -/
def numOK : PeerType → Bool
  | .incomingPeer => 0 ≤ m.inPeerNum
  | .outgoingPeer => 0 ≤ m.outPeerNum
  | .none => true

/-- `RemovePeer`: the counter that goes down is checked, the other is not. -/
def removePeer (peer : Peer P) : Except Fault (PeerManager P) := do
  mAssert (m.findPeer peer.getPeerId).isSome "Peer should exist in manager"
  let m := m.dropPeer peer
  mAssert (m.numOK peer.getPeerType) "wrong peernum"
  return m

/-! ## What the operations do to the table -/

variable {m} {peer : Peer P}

theorem mem_getPeers {e : P × Peer P} : e ∈ m.getPeers ↔ m.findPeer e.1 = some e.2 :=
  OrderedMap.mem_toList

theorem id_of_findPeer {id : P} {p : Peer P} (h : m.findPeer id = some p) : p.id = id :=
  m.keyed id p h

@[simp] theorem findPeer_new (id x : P) (o i : Int) : (new id o i).findPeer x = .none :=
  Std.TreeMap.getElem?_emptyc

@[simp] theorem findPeer_setPeer (x : P) :
    (m.setPeer peer).findPeer x = if x = peer.id then some peer else m.findPeer x :=
  OrderedMap.getElem?_insert

@[simp] theorem findPeer_addPeer (x : P) :
    (m.addPeer peer).findPeer x = if x = peer.id then some peer else m.findPeer x :=
  OrderedMap.getElem?_insert

@[simp] theorem findPeer_dropPeer (x : P) :
    (m.dropPeer peer).findPeer x = if x = peer.id then .none else m.findPeer x :=
  OrderedMap.getElem?_erase

theorem removePeer_ok {m' : PeerManager P} (h : m.removePeer peer = .ok m') :
    (m.findPeer peer.id).isSome = true ∧ m' = m.dropPeer peer := by
  obtain ⟨_, hfound, h⟩ := bind_ok.mp h
  obtain ⟨_, -, h⟩ := bind_ok.mp h
  exact ⟨mAssert_ok.mp hfound, (Except.ok.inj h).symm⟩

theorem removePeer_error {e : Fault} (hf : (m.findPeer peer.id).isSome = true)
    (h : m.removePeer peer = .error e) :
    e = .assertion "wrong peernum" ∧ (m.dropPeer peer).numOK peer.peerType = false := by
  have hget : (m.findPeer peer.getPeerId).isSome = true := hf
  simp only [removePeer, hget, mAssert_true] at h
  cases hn : (m.dropPeer peer).numOK peer.getPeerType with
  | true =>
      rw [hn] at h
      exact nomatch h
  | false =>
      rw [hn] at h
      exact ⟨(Except.error.inj h).symm, hn⟩

/-! ## The counters -/

/-- The number of peers of one type in the table. -/
def peerNum (m : PeerManager P) (ty : PeerType) : Int :=
  OrderedMap.count m.peers fun p => p.getPeerType = ty

theorem peerNum_dropPeer {ty : PeerType} (h : m.findPeer peer.id = some peer) :
    (m.dropPeer peer).peerNum ty = m.peerNum ty - counts ty peer := by
  have hc := OrderedMap.count_erase h fun p => p.getPeerType = ty
  have hn : m.peerNum ty = (m.dropPeer peer).peerNum ty + counts ty peer := by
    simp only [peerNum, hc, counts, dropPeer, decide_eq_true_eq]
    split <;> simp
  omega

/-- Adding counts the new peer, and no longer the one that was stored under its
id. -/
theorem peerNum_addPeer {ty : PeerType} :
    (m.addPeer peer).peerNum ty = m.peerNum ty + counts ty peer -
      ((m.findPeer peer.id).map (counts ty)).getD 0 := by
  have hi := OrderedMap.count_insert m.peers peer.id peer fun p => p.getPeerType = ty
  have hn : (m.addPeer peer).peerNum ty =
      OrderedMap.count (m.peers.erase peer.id) (fun p => p.getPeerType = ty) + counts ty peer := by
    simp only [peerNum, addPeer, setPeer, hi, counts, decide_eq_true_eq]
    split <;> simp
  cases hf : m.findPeer peer.id with
  | none =>
      have he := OrderedMap.count_erase_of_none hf fun p => p.getPeerType = ty
      rw [hn, he]
      simp [peerNum]
  | some old =>
      have he := OrderedMap.count_erase hf fun p => p.getPeerType = ty
      have hold : m.peerNum ty =
          OrderedMap.count (m.peers.erase peer.id) (fun p => p.getPeerType = ty) +
            counts ty old := by
        simp only [peerNum, he, counts, decide_eq_true_eq]
        split <;> simp
      rw [Option.map_some, Option.getD_some]
      omega

theorem peerNum_setPeer {ty : PeerType} {old : Peer P} (h : m.findPeer peer.id = some old)
    (hty : peer.peerType = old.peerType) : (m.setPeer peer).peerNum ty = m.peerNum ty := by
  have hadd : (m.addPeer peer).peerNum ty = (m.setPeer peer).peerNum ty := rfl
  have hsame : counts ty peer = counts ty old := by
    unfold counts Peer.getPeerType
    rw [hty]
  rw [← hadd, peerNum_addPeer, h, Option.map_some, Option.getD_some, hsame]
  omega

/-! ## Tables that differ in liveness only -/

/-- The same peers and counters, but for who has answered a `PING`. -/
structure SamePeers (m m' : PeerManager P) : Prop where
  find : ∀ x, (m'.findPeer x).map (Peer.setPongReceived · true) =
    (m.findPeer x).map (Peer.setPongReceived · true)
  inPeerNum : m'.inPeerNum = m.inPeerNum
  outPeerNum : m'.outPeerNum = m.outPeerNum
  peerNum : ∀ ty, m'.peerNum ty = m.peerNum ty

theorem SamePeers.refl (m : PeerManager P) : SamePeers m m := ⟨fun _ => rfl, rfl, rfl, fun _ => rfl⟩

theorem SamePeers.trans {m m' m'' : PeerManager P} (h : SamePeers m m') (h' : SamePeers m' m'') :
    SamePeers m m'' where
  find x := (h'.find x).trans (h.find x)
  inPeerNum := h'.inPeerNum.trans h.inPeerNum
  outPeerNum := h'.outPeerNum.trans h.outPeerNum
  peerNum ty := (h'.peerNum ty).trans (h.peerNum ty)

theorem samePeers_setPongReceived {p : Peer P} (h : m.findPeer p.id = some p) (flag : Bool) :
    SamePeers m (m.setPeer (p.setPongReceived flag)) where
  find x := by
    rw [findPeer_setPeer]
    split
    · next hx =>
        have hp : m.findPeer x = some p := (congrArg m.findPeer hx).trans h
        rw [hp]
        rfl
    · rfl
  inPeerNum := rfl
  outPeerNum := rfl
  peerNum _ := peerNum_setPeer h rfl

theorem SamePeers.of_findPeer {m m' : PeerManager P} (h : SamePeers m m') {x : P} {p' : Peer P}
    (hp : m'.findPeer x = some p') :
    ∃ p, m.findPeer x = some p ∧ p' = p.setPongReceived p'.pongReceived := by
  have hx := h.find x
  rw [hp, Option.map_some] at hx
  obtain ⟨p, hp, he⟩ := Option.map_eq_some_iff.mp hx.symm
  have hset : (p'.setPongReceived true).setPongReceived p'.pongReceived =
      (p.setPongReceived true).setPongReceived p'.pongReceived := by rw [he]
  exact ⟨p, hp, hset⟩

end PeerManager

/-! ## Addresses to advertise -/

/-- `class AdvertisementManager`.  An address is the id of a peer: nothing else of
it is compared or sent. -/
structure AdvertisementManager (P : Type) [LinearOrder P] where
  selfAddr : P
  addrToSend : Std.TreeMap P (List P)
  addrKnown : Std.TreeMap P (List P)

namespace AdvertisementManager

variable {P : Type} [LinearOrder P]

def new (addr : P) : AdvertisementManager P := { selfAddr := addr, addrToSend := ∅, addrKnown := ∅ }

variable (ad : AdvertisementManager P)

def advertiseLocal (dest : P) : AdvertisementManager P :=
  { ad with addrToSend := ad.addrToSend.insert dest (ad.addrToSend.getD dest [] ++ [ad.selfAddr]) }

def pushAddr (dest addr : P) : AdvertisementManager P :=
  if addr ∈ ad.addrKnown.getD dest [] then ad
  else
    { ad with
      addrToSend := ad.addrToSend.insert dest (ad.addrToSend.getD dest [] ++ [addr])
      addrKnown := ad.addrKnown.insert dest (addr :: ad.addrKnown.getD dest []) }

end AdvertisementManager

end Bleep
