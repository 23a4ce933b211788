/-
# `Bleep.Stack.Fabric` — hosts with all three layers, and the bytes between them

A `Host` is a process: the layers of sockets and of peers, and a protocol layer
above them.  The protocol layer is a parameter (`ProtocolLayer`); it asks the layer
of peers for its neighbours and sends through `SendMsgToPeer`, and its messages
come back to it by `ProtocolRecvMsg` events.

A `Fabric` is a number of hosts that are connected: `pipe a b` are the bytes on
their way from `a` to `b`.  Which data socket leads where does not change here
(`Links`); a run in which no connection is opened, lost or given up is `Steady`.
-/
import Bleep.BL2.Node
import Bleep.BL2.Posting
import Bleep.Lib.Fifo

namespace Bleep

open BL_PeerConnectivityLayer_API BL_SocketLayer_API

/-- A protocol layer: its timers and its handler of messages, which get the ids of
the neighbours, and how it puts its messages `X` into message objects `O`. -/
structure ProtocolLayer (P O S X L : Type) where
  start : P → S
  fire : P → List P → L → S → Option (Except Fault (S × List (P × X)))
  recv : P → List P → P → X → S → Except Fault (S × List (P × X))
  type : X → MessageType
  object : X → O
  /-- What `RecvMsgHandler` finds in a message: nothing if it has no branch for the
  type, and a fault if the object is not of the class of the branch. -/
  read : MessageType → Option O → Except Fault (Option X)

variable {P O S X L : Type} [LinearOrder P]

/-- A message on its way up. -/
def AsyncEvent.isMessage : AsyncEvent P O → Bool
  | .peerRecvMsg _ _ | .protocolRecvMsg _ => true
  | _ => false

/-- The messages the layer of peers handles itself. -/
def peerTypes : List MessageType := ["notifyPeerId", "GETADDR", "ADDR", "PING", "PONG"]

namespace ProtocolLayer

variable (app : ProtocolLayer P O S X L)

/-- The protocol alone, over a network of messages. -/
def protocol (nbrs : P → List P) : Protocol P S X L Fault where
  start := app.start
  fire n l s := app.fire n (nbrs n) l s
  recv n source x s := app.recv n (nbrs n) source x s

/-- `Message(dest, type, ptrToObj)`, with the source `SendMsgToPeer` gives it. -/
def message (k : PeerAnswers P) (me : P) (e : P × X) : Message P O :=
  { Message.make (O := O) me e.1 (app.type e.2) (k.messageId e.1 (app.type e.2)) with
    ptrToObj := some (app.object e.2) }

/-- What a message is to the protocol. -/
def payload (msg : Message P O) : Option X :=
  if msg.type ∈ peerTypes then none
  else
    match app.read msg.type msg.ptrToObj with
    | .ok x => x
    | .error _ => none

/-- The layer reads what it wrote, under types of its own, and sends to its
neighbours and to the source of a message only. -/
structure Lawful : Prop where
  listed : ∀ x, (app.type x).listed = true
  own : ∀ x, app.type x ∉ peerTypes
  read : ∀ x, app.read (app.type x) (some (app.object x)) = .ok (some x)
  fire : ∀ {n : P} {nb : List P} {l : L} {s s' : S} {out : List (P × X)},
    app.fire n nb l s = some (.ok (s', out)) → ∀ e ∈ out, e.1 ∈ nb
  recv : ∀ {n : P} {nb : List P} {source : P} {x : X} {s s' : S} {out : List (P × X)},
    app.recv n nb source x s = .ok (s', out) → ∀ e ∈ out, e.1 ∈ nb ∨ e.1 = source

end ProtocolLayer

/-! ## One host -/

structure Host (P O S : Type) [LinearOrder P] where
  peers : BL_PeerConnectivityLayer_API P O
  layer : S

inductive HostAct (P O L : Type) where
  /-- A timer of the protocol layer. -/
  | timer (l : L) (k : PeerAnswers P)
  | node (a : NodeAct P O)

/-- The message an action gives to the protocol layer. -/
def BL_PeerConnectivityLayer_API.protocolMsg (N : BL_PeerConnectivityLayer_API P O) :
    NodeAct P O → Option (PeerAnswers P × Message P O)
  | .handleEvent k =>
      match N.socketLayer.eventQueue with
      | .protocolRecvMsg msg :: _ => some (k, msg)
      | _ => none
  | _ => none

namespace Host

variable (app : ProtocolLayer P O S X L) (ar : Archive P O) (ads : AddrAd P O) (h : Host P O S)

def me : P := h.peers.peerManager.myPeerId

/-- A handler of the protocol layer has come to `layer` and sends `out`. -/
def sends (k : PeerAnswers P) (layer : S) (out : List (P × X)) : Host P O S where
  peers := h.peers.sendMsgs ar (out.map (app.message k h.me))
  layer

/-- `SwitchAsyncEventHandler` of layer 3 on a `ProtocolRecvMsg`. -/
def recvMsgHandler (k : PeerAnswers P) (msg : Message P O) : Except Fault (Host P O S) := do
  match ← app.read msg.type msg.ptrToObj with
  | none => return h
  | some x =>
      let (layer, out) ← app.recv h.me h.peers.getNeighborPeerIds msg.src x h.layer
      return h.sends app ar k layer out

def act : HostAct P O L → Option (Except Fault (Host P O S))
  | .timer l k =>
      (app.fire h.me h.peers.getNeighborPeerIds l h.layer).map fun r => do
        let (layer, out) ← r
        return h.sends app ar k layer out
  | .node a =>
      (h.peers.act ar ads a).map fun r => do
        let peers ← r
        let h' : Host P O S := { h with peers }
        match h.peers.protocolMsg a with
        | none => return h'
        | some (k, msg) => h'.recvMsgHandler app ar k msg

/-! ### What a steady host does -/

/-- The answer to a `PING`. -/
def pongMsg (k : PeerAnswers P) (me id : P) : Message P O :=
  .make me id "PONG" (k.messageId id "PONG")

/-- The messages an action hands to `SendMsgToPeer`. -/
def outbox : HostAct P O L → List (Message P O)
  | .timer l k =>
      match app.fire h.me h.peers.getNeighborPeerIds l h.layer with
      | some (.ok (_, out)) => out.map (app.message k h.me)
      | _ => []
  | .node (.pingtimerCallback k) => h.peers.peerManager.getPeers.map fun e => pingMsg k h.me e.1
  | .node (.sendAdToPeers k) => h.peers.adManager.addrToSend.toList.map (adMsg ads k h.me)
  | .node (.handleEvent k) =>
      match h.peers.socketLayer.eventQueue with
      | .peerRecvMsg src msg :: _ => if msg.type = "PING" then [pongMsg k h.me src] else []
      | .protocolRecvMsg msg :: _ =>
          match app.read msg.type msg.ptrToObj with
          | .ok (some x) =>
              match app.recv h.me h.peers.getNeighborPeerIds msg.src x h.layer with
              | .ok (_, out) => out.map (app.message k h.me)
              | .error _ => []
          | _ => []
      | _ => []
  | _ => []

/-- No connection is opened or given up: `send()` and `recv()` do not fail and see
no end, everybody has answered the last `PING`, and nobody new is to be connected
to. -/
def Steady : HostAct P O L → Prop
  | .timer _ _ => True
  | .node (.dataSocketIOCallback _ _) => True
  | .node (.handleEvent k) => (∀ r ∈ k.recv, r ≠ .closed ∧ r ≠ .failed) ∧ ∀ n ∈ k.send, 0 ≤ n
  | .node (.pingtimerCallback _) => ∀ e ∈ h.peers.peerManager.getPeers, e.2.pongReceived = true
  | .node (.timerCallback selected _) => h.peers.wants selected = false
  | .node (.sendAdToPeers _) => True
  | .node (.destroy _) => True
  | _ => False

instance (h : Host P O S) : DecidablePred (h.Steady (L := L))
  | .timer _ _ => isTrue trivial
  | .node (.dataSocketIOCallback _ _) => isTrue trivial
  | .node (.handleEvent k) =>
      inferInstanceAs (Decidable ((∀ r ∈ k.recv, r ≠ .closed ∧ r ≠ .failed) ∧ ∀ n ∈ k.send, 0 ≤ n))
  | .node (.pingtimerCallback _) =>
      inferInstanceAs (Decidable (∀ e ∈ h.peers.peerManager.getPeers, e.2.pongReceived = true))
  | .node (.timerCallback selected _) =>
      inferInstanceAs (Decidable (h.peers.wants selected = false))
  | .node (.sendAdToPeers _) => isTrue trivial
  | .node (.destroy _) => isTrue trivial
  | .node (.connectPeer _ _) => isFalse id
  | .node (.disconnectPeer _) => isFalse id
  | .node (.sendMsgToPeer _ _) => isFalse id
  | .node .shutdown => isFalse id
  | .node .listenSocketIOCallback => isFalse id
  | .node (.connectSocketIOCallback _) => isFalse id

end Host

/-! ## Connected hosts -/

/-- Who is connected to whom: the neighbours of a host, and its data socket for
each of them. -/
structure Links (P : Type) where
  nbrs : P → List P
  sock : P → P → SocketPtr P
  symm : ∀ {a b : P}, b ∈ nbrs a → a ∈ nbrs b
  ne : ∀ {a b : P}, b ∈ nbrs a → a ≠ b
  fd_inj : ∀ {a b c : P}, b ∈ nbrs a → c ∈ nbrs a → (sock a b).getFD = (sock a c).getFD → b = c
  obj_inj : ∀ {a b c : P}, b ∈ nbrs a → c ∈ nbrs a → (sock a b).obj = (sock a c).obj → b = c

/-- Where a descriptor of a host leads. -/
def Links.far (links : Links P) (n : P) (fd : Int) : Option P :=
  (links.nbrs n).find? fun m => (links.sock n m).getFD = fd

structure Fabric (P O S : Type) [LinearOrder P] where
  host : P → Host P O S
  pipe : P → P → List UInt8

/-- The bytes `WriteHandler` gives to the network. -/
def BL_SocketLayer_API.written (L : BL_SocketLayer_API P O) (fd : Int) (answers : List Int) :
    List UInt8 :=
  match L.getDataSocket fd with
  | none => []
  | some sock =>
      match (L.heap sock.obj).doSend answers with
      | .ok (out, _) => out
      | .error _ => []

namespace Fabric

variable (links : Links P) (app : ProtocolLayer P O S X L) (ar : Archive P O) (ads : AddrAd P O)
  (F : Fabric P O S)

/-- Host `n` goes to `h`. -/
def set (n : P) (h : Host P O S) (pipe : P → P → List UInt8) : Fabric P O S where
  host := Function.update F.host n h
  pipe

theorem set_host_self (n : P) (h : Host P O S) (pipe : P → P → List UInt8) :
    (F.set n h pipe).host n = h := by
  simp only [set, Function.update_self]

theorem set_host_of_ne {n m : P} (h : Host P O S) (pipe : P → P → List UInt8) (hm : m ≠ n) :
    (F.set n h pipe).host m = F.host m := by
  simp only [set, Function.update_of_ne hm]

theorem set_set (n : P) (h h' : Host P O S) (pipe pipe' : P → P → List UInt8) :
    (F.set n h pipe).set n h' pipe' = F.set n h' pipe' := by
  rw [set, set, set, Function.update_idem]

/-- The bytes on their way after an event of `n`: a `SocketRecv` takes some, a
`SocketWrite` brings some. -/
def eventFlow (n : P) (k : PeerAnswers P) : Option (AsyncEvent P O) → P → P → List UInt8
  | some (.socketRecv sock), a, b =>
      if links.far n sock.getFD = some a ∧ b = n then (F.pipe a b).drop (received k.recv).length
      else F.pipe a b
  | some (.socketWrite sock), a, b =>
      if a = n ∧ links.far n sock.getFD = some b then
        F.pipe a b ++ (F.host n).peers.socketLayer.written sock.getFD k.send
      else F.pipe a b
  | _, a, b => F.pipe a b

def flow (n : P) : HostAct P O L → P → P → List UInt8
  | .node (.handleEvent k) => F.eventFlow links n k (F.host n).peers.socketLayer.eventQueue.head?
  | _ => F.pipe

def act (n : P) (a : HostAct P O L) : Option (Except Fault (Fabric P O S)) :=
  ((F.host n).act app ar ads a).map fun r => do
    let h ← r
    return F.set n h (F.flow links n a)

/-- The data socket that is read in an action, and what `recv()` returns. -/
def reading (n : P) : HostAct P O L → Option (SocketPtr P × List RecvResult)
  | .node (.handleEvent k) =>
      match (F.host n).peers.socketLayer.eventQueue with
      | .socketRecv sock :: _ => some (sock, k.recv)
      | _ => none
  | _ => none

/-- `recv()` reads from the front of what is on its way. -/
def Reads (n : P) (a : HostAct P O L) : Prop :=
  ∀ r ∈ F.reading n a, ∀ m ∈ links.far n r.1.getFD, received r.2 <+: F.pipe m n

/-- The host is steady, and the archive writes and reads what it sends. -/
structure Steady (e : P × HostAct P O L) : Prop where
  steady : (F.host e.1).Steady e.2
  reads : F.Reads links e.1 e.2
  sendable : ∀ msg ∈ (F.host e.1).outbox app ads e.2, Sendable ar msg

instance [DecidableEq O] (msg : Message P O) : Decidable (Sendable ar msg) :=
  decidable_of_iff (ar.deserialize (ar.serialize msg) = some (some msg) ∧
      0 < (ar.serialize msg).length ∧ (ar.serialize msg).length < 2 ^ 31)
    ⟨fun h => ⟨h.1, h.2.1, h.2.2⟩, fun h => ⟨h.faithful, h.pos, h.lt⟩⟩

instance [DecidableEq O] (e : P × HostAct P O L) : Decidable (F.Steady links app ar ads e) :=
  decidable_of_iff ((F.host e.1).Steady e.2 ∧
      (∀ r ∈ F.reading e.1 e.2, ∀ m ∈ links.far e.1 r.1.getFD, received r.2 <+: F.pipe m e.1) ∧
      ∀ msg ∈ (F.host e.1).outbox app ads e.2, Sendable ar msg)
    ⟨fun h => ⟨h.1, h.2.1, h.2.2⟩, fun h => ⟨h.steady, h.reads, h.sendable⟩⟩

/-- Nothing is on its way or waiting. -/
structure Idle : Prop where
  unsent : ∀ a, ∀ b ∈ links.nbrs a,
    ((F.host a).peers.socketLayer.heap (links.sock a b).obj).unsent = []
  pipe : ∀ a, ∀ b ∈ links.nbrs a, F.pipe a b = []
  recvBytes : ∀ a, ∀ b ∈ links.nbrs a,
    (F.host b).peers.socketLayer.recvBytes (links.sock b a).getFD = []
  eventQueue : ∀ n, ∀ event ∈ (F.host n).peers.socketLayer.eventQueue, event.isMessage = false

end Fabric

/-- A host whose peers are its neighbours, with a data socket each. -/
structure Linked (links : Links P) (n : P) (N : BL_PeerConnectivityLayer_API P O) : Prop where
  me : N.peerManager.myPeerId = n
  socketOf : ∀ m, N.socketOf m = if m ∈ links.nbrs n then some (links.sock n m) else none
  known : ∀ m, (N.peerManager.findPeer m).isSome = true → m ∈ links.nbrs n
  ids : N.getNeighborPeerIds = links.nbrs n
  data : ∀ m ∈ links.nbrs n,
    N.socketLayer.getDataSocket (links.sock n m).getFD = some (links.sock n m)
  owned : ∀ m ∈ links.nbrs n, (N.socketLayer.owner (links.sock n m).getFD).isSome = true
  objects : ∀ sock ∈ N.socketLayer.objects, ∃ m ∈ links.nbrs n, sock = links.sock n m

/-- All connections are made, and nothing is on its way or waiting. -/
structure Fabric.Connected (links : Links P) (app : ProtocolLayer P O S X L) (F : Fabric P O S) :
    Prop where
  linked : ∀ n, Linked links n (F.host n).peers
  layer : ∀ n, (F.host n).layer = app.start n
  eventQueue : ∀ n, (F.host n).peers.socketLayer.eventQueue = []
  recvBytes : ∀ n, ∀ m ∈ links.nbrs n,
    (F.host n).peers.socketLayer.recvBytes (links.sock n m).getFD = []
  sendBuff : ∀ n, ∀ m ∈ links.nbrs n,
    ((F.host n).peers.socketLayer.heap (links.sock n m).obj) = .new
  pipe : ∀ a b, F.pipe a b = []

/-- Connected hosts, and what each of them may do. -/
def fabricSys (links : Links P) (app : ProtocolLayer P O S X L) (ar : Archive P O)
    (ads : AddrAd P O) : TransSys (Fabric P O S) (P × HostAct P O L) where
  init := Fabric.Connected links app
  step F e F' := F.act links app ar ads e.1 e.2 = some (.ok F')

end Bleep
