/-
# `Bleep.BL2.PeerConnectivityLayer` — the layer of peers

`BL_PeerConnectivityLayer_API`: the handlers of its events, its public functions
and the callbacks of its timers, over the table of peers and the socket layer
below.

What a function may do to the two is stated once, for the functions that others
call: `SendMsgToPeer` writes into a data socket and nothing else
(`sendMsgToPeer_snd`), `DisconnectPeer` and `ConnectPeer` are inverted
(`disconnectPeer_ok`, `connectPeer_ok`), and the loop of the ping timer keeps what
`DisconnectPeer` keeps of the silent peers (`disconnectSilent_rule`).

The table of known addresses is not modelled: which address it selects is an
argument of the timer's callback.
-/
import Bleep.BL2.PeerManager

namespace Bleep

def MAX_OUTGOINGPEER_NUM : Int := 8

def MAX_INCOMINGPEER_NUM : Int := 10

/-- The draws that relay one address: whether there is a second, and both, before
they are reduced to the number of peers. -/
structure Draw where
  two : Bool := false
  first : Nat := 0
  second : Nat := 0
  deriving DecidableEq

def Draw.targets (d : Draw) : List Nat := if d.two then [d.first, d.second] else [d.first]

/-- What the system calls and the generators used by one handler return. -/
structure PeerAnswers (P : Type) extends Answers where
  /-- The ids of messages made, by destination and type. -/
  messageId : P → MessageType → String := fun _ _ => ""
  draws : List Draw := []

/-- `AddrAd` among the message objects: its constructor, and what is read through
the cast to it (`none`: there is no object, or one of another class). -/
structure AddrAd (P O : Type) where
  make : List P → O
  vAddr : Option O → Option (List P)

structure BL_PeerConnectivityLayer_API (P O : Type) [LinearOrder P] where
  socketLayer : BL_SocketLayer_API P O
  peerManager : PeerManager P
  adManager : AdvertisementManager P

namespace BL_PeerConnectivityLayer_API

variable {P O : Type} [LinearOrder P] (ar : Archive P O) (ads : AddrAd P O)
  (N : BL_PeerConnectivityLayer_API P O)

/-- A node before its first event. -/
def init (myPeerId : P) (outPeerNum inPeerNum : Int) : BL_PeerConnectivityLayer_API P O where
  socketLayer := .init
  peerManager := .new myPeerId outPeerNum inPeerNum
  adManager := .new myPeerId

/-! ## The public functions -/

def connectPeer (id : P) (answer : BL_SocketLayer_API.ConnectAnswer) :
    Except Fault (Bool × BL_PeerConnectivityLayer_API P O) :=
  if (N.peerManager.findPeer id).any Peer.isActive then
    .ok (false, N)
  else do
    let (conn_socket, socketLayer) ← N.socketLayer.connectSocket id answer
    match conn_socket with
    | none => return (false, { N with socketLayer })
    | some conn_socket =>
        let peer := (Peer.outgoing id conn_socket).setTryConnect
        return (true, { N with socketLayer, peerManager := N.peerManager.addPeer peer })

/-- The socket of a peer that is taken out: the connect socket is abandoned while
the peer is being connected to, and the data socket disconnected otherwise. -/
def releaseSocket (peer : Peer P) : Except Fault (BL_SocketLayer_API P O) :=
  if peer.isTryConnect then
    .ok (N.socketLayer.abandonConnectSocket peer.getConnSocket)
  else
    match peer.getDataSocket with
    | none => .error (.assertion "valid peer should have valid data socket")
    | some sock => .ok (N.socketLayer.disconnectSocket sock.getFD)

def disconnectPeer (id : P) : Except Fault (Bool × BL_PeerConnectivityLayer_API P O) :=
  match N.peerManager.findPeer id with
  | none => .ok (false, N)
  | some peer => do
      let socketLayer ← N.releaseSocket peer
      let peerManager ← N.peerManager.removePeer peer
      return (true, { N with socketLayer, peerManager })

def sendMsgToPeer (id : P) (msg : Message P O) : Bool × BL_PeerConnectivityLayer_API P O :=
  match (N.peerManager.findPeer id).bind Peer.getDataSocket with
  | none => (false, N)
  | some sock =>
      let s := (N.socketLayer.heap sock.obj).appendMsg ar (msg.setSource N.peerManager.myPeerId)
      (true, { N with socketLayer := N.socketLayer.setSocket sock.obj s })

/-- The loop of `Shutdown`. -/
def disconnectAll : List P → BL_PeerConnectivityLayer_API P O →
    Except Fault (BL_PeerConnectivityLayer_API P O)
  | [], N => .ok N
  | id :: ids, N => do
      let (_, N) ← N.disconnectPeer id
      disconnectAll ids N

/-- `Shutdown` disconnects everybody and does not return. -/
def shutdown : Except Fault Unit := do
  let _ ← disconnectAll N.peerManager.getPeerIds N
  .error .exit

def getNeighborPeerIds : List P :=
  (N.peerManager.getPeers.filter fun e => e.2.isActive).map Prod.fst

/-! ## The handlers -/

def setPeer (peer : Peer P) : BL_PeerConnectivityLayer_API P O :=
  { N with peerManager := N.peerManager.setPeer peer }

def pushAsyncEvent (event : AsyncEvent P O) : BL_PeerConnectivityLayer_API P O :=
  { N with socketLayer := N.socketLayer.pushAsyncEvent event }

/-- The rest of `SocketConnectHandler` once a peer is found for the socket. -/
def attach (k : PeerAnswers P) (peer : Peer P) (sock : SocketPtr P) :
    BL_PeerConnectivityLayer_API P O :=
  let outgoingPeer := peer.clearTryConnect.setDataSocket (some sock)
  let id := outgoingPeer.getPeerId
  let myPeerId := N.peerManager.myPeerId
  let N := N.setPeer outgoingPeer
  let N := (N.sendMsgToPeer ar id
    (.make myPeerId id "notifyPeerId" (k.messageId id "notifyPeerId"))).2
  let N := (N.sendMsgToPeer ar id (.make myPeerId id "GETADDR" (k.messageId id "GETADDR"))).2
  { N with adManager := N.adManager.advertiseLocal id }

/-- `SocketConnectHandler` takes the first peer whose connect socket had the
descriptor of the data socket. -/
def socketConnectHandler (k : PeerAnswers P) :
    Option (SocketPtr P) → Except Fault (BL_PeerConnectivityLayer_API P O)
  | none =>
      if N.peerManager.getPeers.isEmpty then
        .error (.assertion "no proper peer exists for connected outgoing socket")
      else .error .nullDeref
  | some sock =>
      match N.peerManager.getPeers.find? fun e => e.2.getConnSocket = sock.getFD with
      | none => .error (.assertion "no proper peer exists for connected outgoing socket")
      | some (_, peer) => .ok (N.attach ar k peer sock)

def socketConnectFailedHandler (failedDomain : P) :
    Except Fault (BL_PeerConnectivityLayer_API P O) :=
  match N.peerManager.findPeer failedDomain with
  | none => .ok N
  | some peer =>
      if peer.isActive then .error (.assertion "SocketConnectFailed for valid peer?!")
      else if peer.isTryConnect then .ok (N.setPeer peer.clearTryConnect)
      else .ok N

/-- `SocketCloseHandler` looks at the closed socket once it meets a peer with a data
socket. -/
def socketCloseHandler : Option (SocketPtr P) → Except Fault (BL_PeerConnectivityLayer_API P O)
  | none => if N.peerManager.getPeers.any fun e => e.2.isActive then .error .nullDeref else .ok N
  | some closedSocket =>
      match N.peerManager.getPeers.find? fun e =>
        e.2.getDataSocket.any fun sock => sock.getFD = closedSocket.getFD with
      | none => .ok N
      | some (_, peer) => do
          let peerManager ← N.peerManager.removePeer peer
          return { N with peerManager }

/-- The relays of one address: each draw picks a peer of the table. -/
def relayAddr (m : PeerManager P) (source addr : P) :
    List Nat → AdvertisementManager P → Except Fault (AdvertisementManager P)
  | [], ad => .ok ad
  | random :: draws, ad =>
      match m.getPeers[random % m.getPeers.length]? with
      | none => .error .nullDeref
      | some (_, relayedPeer) =>
          relayAddr m source addr draws
            (if relayedPeer.getPeerId ≠ source then ad.pushAddr relayedPeer.getPeerId addr else ad)

/-- The loop over the addresses of an `ADDR`; `size` is their number. -/
def recvAddrs (m : PeerManager P) (source : P) (size : Nat) :
    List P → List Draw → AdvertisementManager P → Except Fault (AdvertisementManager P)
  | [], _, ad => .ok ad
  | addr :: vAddr, draws, ad =>
      if size ≤ 10 then do
        let ad ← relayAddr m source addr (draws.headD {}).targets ad
        recvAddrs m source size vAddr draws.tail ad
      else recvAddrs m source size vAddr draws.tail ad

def recvMsgHandler (k : PeerAnswers P) (sourcePeerId : P) (msg : Message P O) :
    Except Fault (BL_PeerConnectivityLayer_API P O) :=
  if msg.type = "notifyPeerId" then .ok N
  else if msg.type = "GETADDR" then .ok N
  else if msg.type = "ADDR" then
    match ads.vAddr msg.ptrToObj with
    | none => .error .outOfBounds
    | some vAddr => do
        let adManager ← recvAddrs N.peerManager msg.src vAddr.length vAddr k.draws N.adManager
        return { N with adManager }
  else if msg.type = "PING" then
    .ok (N.sendMsgToPeer ar sourcePeerId (.make N.peerManager.myPeerId sourcePeerId "PONG"
      (k.messageId sourcePeerId "PONG"))).2
  else if msg.type = "PONG" then
    match N.peerManager.findPeer sourcePeerId with
    | none => .error .nullDeref
    | some peerPtr => .ok (N.setPeer (peerPtr.setPongReceived true))
  else .ok (N.pushAsyncEvent (.protocolRecvMsg msg))

def peerNotifyHandler (k : PeerAnswers P) (incomingPeerId : P)
    (incomingSocket : Option (SocketPtr P)) : Except Fault (BL_PeerConnectivityLayer_API P O) :=
  if (N.peerManager.findPeer incomingPeerId).any Peer.isActive then .ok N
  else if MAX_INCOMINGPEER_NUM ≤ N.peerManager.inPeerNum then
    match incomingSocket with
    | none => .error .nullDeref
    | some sock => .ok { N with socketLayer := N.socketLayer.disconnectSocket sock.getFD }
  else
    let peer := Peer.incoming incomingPeerId k.uninit incomingSocket
    .ok { N with peerManager := N.peerManager.addPeer peer }

/-- `SwitchAsyncEventHandler` of layer 2.  The case of a failed connect has no
`break`: the close handler runs too, on a null pointer. -/
def switchAsyncEventHandler (k : PeerAnswers P) :
    AsyncEvent P O → Except Fault (BL_PeerConnectivityLayer_API P O)
  | .peerSocketConnect dataSocket => N.socketConnectHandler ar k dataSocket
  | .peerSocketConnectFailed failedDomain => do
      let N ← N.socketConnectFailedHandler failedDomain
      N.socketCloseHandler none
  | .peerSocketClose closedSocket => N.socketCloseHandler closedSocket
  | .peerRecvMsg msgSourceId msg => N.recvMsgHandler ar ads k msgSourceId msg
  | .peerRecvNotifyPeerId neighborId incomingSocket =>
      N.peerNotifyHandler k neighborId incomingSocket
  | _ => .ok N

/-! ## The timers -/

/-- The first loop of `_pingtimerCallback`, over a copy of the table. -/
def disconnectSilent : List (P × Peer P) → BL_PeerConnectivityLayer_API P O →
    Except Fault (BL_PeerConnectivityLayer_API P O)
  | [], N => .ok N
  | (peerId, peerPtr) :: peers, N =>
      if peerPtr.isPongReceived then disconnectSilent peers N
      else do
        let (_, N) ← N.disconnectPeer peerId
        disconnectSilent peers N

/-- The second loop, over a fresh copy. -/
def pingAll (k : PeerAnswers P) : List (P × Peer P) → BL_PeerConnectivityLayer_API P O →
    BL_PeerConnectivityLayer_API P O
  | [], N => N
  | (_, peerPtr) :: peers, N =>
      let id := peerPtr.getPeerId
      let N := (N.sendMsgToPeer ar id
        (.make N.peerManager.myPeerId id "PING" (k.messageId id "PING"))).2
      pingAll k peers (N.setPeer (peerPtr.setPongReceived false))

def pingtimerCallback (k : PeerAnswers P) : Except Fault (BL_PeerConnectivityLayer_API P O) := do
  let N ← disconnectSilent N.peerManager.getPeers N
  return pingAll ar k N.peerManager.getPeers N

/-- The trials of `_timerCallback`; `selected` is what `SelectAddressFromTable`
returns, trial after trial. -/
def trials (answer : BL_SocketLayer_API.ConnectAnswer) :
    List (Option P) → Except Fault (BL_PeerConnectivityLayer_API P O)
  | [] => .ok N
  | none :: selected => trials answer selected
  | some addr :: selected =>
      match N.peerManager.findPeer addr with
      | none => do
          let (_, N) ← N.connectPeer addr answer
          return N
      | some peer =>
          if peer.isActive then trials answer selected
          else if peer.isTryConnect then trials answer selected
          else .error (.assertion "to be implemented")

def timerCallback (selected : List (Option P)) (answer : BL_SocketLayer_API.ConnectAnswer) :
    Except Fault (BL_PeerConnectivityLayer_API P O) :=
  if N.peerManager.outPeerNum < MAX_OUTGOINGPEER_NUM then N.trials answer (selected.take 10)
  else .ok N

/-- The loop of `SendAdToPeers`. -/
def sendAds (k : PeerAnswers P) : List (P × List P) → BL_PeerConnectivityLayer_API P O →
    BL_PeerConnectivityLayer_API P O
  | [], N => N
  | (dest, vAddr) :: rest, N =>
      let msg : Message P O :=
        { Message.make (O := O) N.peerManager.myPeerId dest "ADDR" (k.messageId dest "ADDR") with
          ptrToObj := some (ads.make vAddr) }
      sendAds k rest (N.sendMsgToPeer ar dest msg).2

def sendAdToPeers (k : PeerAnswers P) : BL_PeerConnectivityLayer_API P O :=
  let N := sendAds ar ads k N.adManager.addrToSend.toList N
  { N with adManager := { N.adManager with addrToSend := ∅ } }

/-! ## What the functions do -/

variable {ar ads N} {N' : BL_PeerConnectivityLayer_API P O}

/-- Nothing differs but the contents of data sockets. -/
structure Wrote (N N' : BL_PeerConnectivityLayer_API P O) : Prop where
  socketLayer : N'.socketLayer = { N.socketLayer with heap := N'.socketLayer.heap }
  peerManager : N'.peerManager = N.peerManager
  adManager : N'.adManager = N.adManager

theorem Wrote.refl (N : BL_PeerConnectivityLayer_API P O) : Wrote N N := ⟨rfl, rfl, rfl⟩

theorem Wrote.trans {N N' N'' : BL_PeerConnectivityLayer_API P O} (h : Wrote N N')
    (h' : Wrote N' N'') : Wrote N N'' where
  socketLayer := by rw [h'.socketLayer, h.socketLayer]
  peerManager := h'.peerManager.trans h.peerManager
  adManager := h'.adManager.trans h.adManager

theorem sendMsgToPeer_snd (N : BL_PeerConnectivityLayer_API P O) (id : P) (msg : Message P O) :
    Wrote N (N.sendMsgToPeer ar id msg).2 := by
  unfold sendMsgToPeer
  split
  · exact .refl N
  · exact ⟨rfl, rfl, rfl⟩

theorem sendMsgToPeer_fst (N : BL_PeerConnectivityLayer_API P O) (id : P) (msg : Message P O) :
    (N.sendMsgToPeer ar id msg).1 = (N.peerManager.findPeer id).any Peer.isActive := by
  unfold sendMsgToPeer
  cases hp : N.peerManager.findPeer id with
  | none => rfl
  | some p =>
      rw [Option.any_some, Peer.isActive, Option.bind_some, Peer.getDataSocket]
      split
      · next hnone => rw [hnone, Option.isSome_none]
      · next sock hsock => rw [hsock, Option.isSome_some]

theorem unsent_sendMsgToPeer {N : BL_PeerConnectivityLayer_API P O} {id : P} {msg : Message P O}
    (h : (N.sendMsgToPeer ar id msg).1 = true) :
    ∃ dest sock, N.peerManager.findPeer id = some dest ∧ dest.dataSocket = some sock ∧
      ((N.sendMsgToPeer ar id msg).2.socketLayer.heap sock.obj).unsent =
        (N.socketLayer.heap sock.obj).unsent ++
          frame ar (msg.setSource N.peerManager.myPeerId) := by
  unfold sendMsgToPeer at h ⊢
  split at h
  · cases h
  · next sock hsock =>
      obtain ⟨dest, hdest, hown⟩ := Option.bind_eq_some_iff.mp hsock
      refine ⟨dest, sock, hdest, hown, ?_⟩
      show ((if sock.obj = sock.obj then _ else _ : DataSocket)).unsent = _
      rw [if_pos rfl, DataSocket.unsent_appendMsg]

theorem attach_peerManager (k : PeerAnswers P) (peer : Peer P) (sock : SocketPtr P) :
    (N.attach ar k peer sock).peerManager =
      N.peerManager.setPeer (peer.clearTryConnect.setDataSocket (some sock)) := by
  simp only [attach]
  rw [(sendMsgToPeer_snd _ _ _).peerManager, (sendMsgToPeer_snd _ _ _).peerManager]
  rfl

theorem attach_socketLayer (k : PeerAnswers P) (peer : Peer P) (sock : SocketPtr P) :
    (N.attach ar k peer sock).socketLayer =
      { N.socketLayer with heap := (N.attach ar k peer sock).socketLayer.heap } := by
  simp only [attach]
  rw [((sendMsgToPeer_snd _ _ _).trans (sendMsgToPeer_snd _ _ _)).socketLayer]
  rfl

theorem sendAds_wrote (k : PeerAnswers P) (l : List (P × List P))
    (N : BL_PeerConnectivityLayer_API P O) :
    Wrote N (sendAds ar ads k l N) := by
  induction l generalizing N with
  | nil => exact .refl N
  | cons e l ih =>
      obtain ⟨dest, vAddr⟩ := e
      exact (sendMsgToPeer_snd N dest _).trans (ih _)

/-- A new connection for the peer `id`, on the descriptor `fd`. -/
def opened (N : BL_PeerConnectivityLayer_API P O) (id : P) (fd : Int) :
    BL_PeerConnectivityLayer_API P O :=
  { N with
    socketLayer := { N.socketLayer.openFd fd (some id) with
      connectSockets := fun x => if x = fd then some id else N.socketLayer.connectSockets x }
    peerManager := N.peerManager.addPeer
      (Peer.outgoing id (N.socketLayer.nextConn fd (some id))).setTryConnect }

theorem connectPeer_ok {id : P} {answer : BL_SocketLayer_API.ConnectAnswer} {b : Bool}
    (h : N.connectPeer id answer = .ok (b, N')) :
    (N.peerManager.findPeer id).any Peer.isActive = true ∧ N' = N ∨
      (N.peerManager.findPeer id).any Peer.isActive = false ∧
        (answer = .noAddress ∧ N' = N ∨ ∃ fd, answer = .inProgress fd ∧ N' = N.opened id fd) := by
  unfold connectPeer at h
  split at h
  · next hact => exact .inl ⟨hact, (Prod.mk.inj (Except.ok.inj h)).2.symm⟩
  · next hact =>
      refine .inr ⟨Bool.not_eq_true _ ▸ hact, ?_⟩
      obtain ⟨⟨c, L⟩, hL, h⟩ := bind_ok.mp h
      cases answer with
      | noAddress =>
          obtain ⟨rfl, rfl⟩ := Prod.mk.inj (Except.ok.inj hL)
          exact .inl ⟨rfl, (Prod.mk.inj (Except.ok.inj h)).2.symm⟩
      | refused => exact nomatch hL
      | inProgress fd =>
          obtain ⟨rfl, rfl⟩ := Prod.mk.inj (Except.ok.inj hL)
          exact .inr ⟨fd, rfl, (Prod.mk.inj (Except.ok.inj h)).2.symm⟩

/-- What becomes of the socket of a peer that is taken out. -/
theorem releaseSocket_ok {p : Peer P} {L : BL_SocketLayer_API P O} (h : N.releaseSocket p = .ok L) :
    p.tryConnect = true ∧ L = N.socketLayer.abandonConnectSocket p.connSocket ∨
      p.tryConnect = false ∧ ∃ sock, p.dataSocket = some sock ∧
        L = N.socketLayer.disconnectSocket sock.getFD := by
  unfold releaseSocket at h
  split at h
  · next ht => exact .inl ⟨ht, (Except.ok.inj h).symm⟩
  · next ht =>
      refine .inr ⟨Bool.not_eq_true _ ▸ ht, ?_⟩
      split at h
      · exact nomatch h
      · next sock hs => exact ⟨sock, hs, (Except.ok.inj h).symm⟩

/-- The peer is taken out, and its socket given up. -/
structure Disconnected (N : BL_PeerConnectivityLayer_API P O) (p : Peer P)
    (N' : BL_PeerConnectivityLayer_API P O) : Prop where
  socketLayer : N.releaseSocket p = .ok N'.socketLayer
  peerManager : N'.peerManager = N.peerManager.dropPeer p
  adManager : N'.adManager = N.adManager

theorem disconnectPeer_ok {id : P} {b : Bool} (h : N.disconnectPeer id = .ok (b, N')) :
    N.peerManager.findPeer id = none ∧ N' = N ∨
      ∃ p, N.peerManager.findPeer id = some p ∧ Disconnected N p N' := by
  unfold disconnectPeer at h
  split at h
  · next hn => exact .inl ⟨hn, (Prod.mk.inj (Except.ok.inj h)).2.symm⟩
  · next p hp =>
      obtain ⟨L, hL, h⟩ := bind_ok.mp h
      obtain ⟨m, hm, h⟩ := bind_ok.mp h
      obtain ⟨-, rfl⟩ := PeerManager.removePeer_ok hm
      obtain ⟨-, rfl⟩ := Prod.mk.inj (Except.ok.inj h)
      exact .inr ⟨p, hp, hL, rfl, rfl⟩

/-- The loop of the ping timer, entry after entry: it takes out the silent peers of a
list of peers that are in the table. -/
theorem disconnectSilent_walk {R : List (P × Peer P) → BL_PeerConnectivityLayer_API P O → Prop}
    {l : List (P × Peer P)}
    (hskip : ∀ N p l, p.pongReceived = true → R ((p.id, p) :: l) N → R l N)
    (hdrop : ∀ N N' p l, p.pongReceived = false → R ((p.id, p) :: l) N →
      N.peerManager.findPeer p.id = some p → Disconnected N p N' → R l N')
    (hl : ∀ e ∈ l, N.peerManager.findPeer e.1 = some e.2)
    (hkeys : l.Pairwise fun e e' => e.1 ≠ e'.1) (hN : R l N)
    (h : disconnectSilent l N = .ok N') : R [] N' := by
  induction l generalizing N with
  | nil => exact Except.ok.inj h ▸ hN
  | cons e l ih =>
      obtain ⟨id, p⟩ := e
      obtain ⟨hne, htail⟩ := List.pairwise_cons.mp hkeys
      have hrest : ∀ e ∈ l, N.peerManager.findPeer e.1 = some e.2 :=
        fun e he => hl e (List.mem_cons_of_mem _ he)
      have hp := hl _ List.mem_cons_self
      have hid : p.id = id := PeerManager.id_of_findPeer hp
      subst hid
      simp only [disconnectSilent] at h
      split at h
      · next hpong => exact ih hrest htail (hskip N p l hpong hN) h
      · next hpong =>
          obtain ⟨⟨b, M⟩, hM, h⟩ := bind_ok.mp h
          rcases disconnectPeer_ok hM with ⟨hnone, -⟩ | ⟨p', hp', hd⟩
          · exact nomatch hnone.symm.trans hp
          · obtain rfl : p = p' := Option.some.inj (hp.symm.trans hp')
            refine ih (fun e he => ?_) htail
              (hdrop N M p l (Bool.not_eq_true _ ▸ hpong) hN hp hd) h
            rw [hd.peerManager, PeerManager.findPeer_dropPeer, if_neg fun heq => hne e he heq.symm]
            exact hrest e he

theorem disconnectSilent_rule {R : BL_PeerConnectivityLayer_API P O → Prop} {l : List (P × Peer P)}
    (hR : ∀ N N' p, (p.id, p) ∈ l → p.pongReceived = false → R N →
      N.peerManager.findPeer p.id = some p → Disconnected N p N' → R N')
    (hl : ∀ e ∈ l, N.peerManager.findPeer e.1 = some e.2)
    (hkeys : l.Pairwise fun e e' => e.1 ≠ e'.1) (hN : R N)
    (h : disconnectSilent l N = .ok N') : R N' := by
  refine (disconnectSilent_walk (R := fun rest N => (∀ e ∈ rest, e ∈ l) ∧ R N)
    (fun N p rest _ hrest => ⟨fun e he => hrest.1 e (List.mem_cons_of_mem _ he), hrest.2⟩)
    (fun N M p rest hpong hrest hp hd => ⟨fun e he => hrest.1 e (List.mem_cons_of_mem _ he), ?_⟩)
    hl hkeys ⟨fun _ he => he, hN⟩ h).2
  exact hR N M p (hrest.1 _ List.mem_cons_self) hpong hrest.2 hp hd

theorem getPeers_pairwise (m : PeerManager P) : m.getPeers.Pairwise fun e e' => e.1 ≠ e'.1 :=
  (OrderedMap.sorted_toList m.peers).imp fun h => h.ne

theorem pingAll_ok (k : PeerAnswers P) (l : List (P × Peer P))
    (N : BL_PeerConnectivityLayer_API P O)
    (hl : ∀ e ∈ l, N.peerManager.findPeer e.1 = some e.2)
    (hkeys : l.Pairwise fun e e' => e.1 ≠ e'.1) :
    PeerManager.SamePeers N.peerManager (pingAll ar k l N).peerManager ∧
      (pingAll ar k l N).socketLayer =
        { N.socketLayer with heap := (pingAll ar k l N).socketLayer.heap } := by
  induction l generalizing N with
  | nil => exact ⟨.refl _, rfl⟩
  | cons e l ih =>
      obtain ⟨id, p⟩ := e
      obtain ⟨hne, htail⟩ := List.pairwise_cons.mp hkeys
      have hp := hl _ List.mem_cons_self
      have hid : p.id = id := PeerManager.id_of_findPeer hp
      subst hid
      have hw : Wrote N (N.sendMsgToPeer ar p.id
          (.make N.peerManager.myPeerId p.id "PING" (k.messageId p.id "PING"))).2 :=
        sendMsgToPeer_snd _ _ _
      simp only [pingAll, Peer.getPeerId]
      generalize (N.sendMsgToPeer ar p.id
        (.make N.peerManager.myPeerId p.id "PING" (k.messageId p.id "PING"))).2 = M at hw ⊢
      have hset :
          PeerManager.SamePeers N.peerManager
            (M.setPeer (p.setPongReceived false)).peerManager := by
        have hsame := PeerManager.samePeers_setPongReceived hp false
        rw [← hw.peerManager] at hsame ⊢
        exact hsame
      have hrest : ∀ e ∈ l, (M.setPeer (p.setPongReceived false)).peerManager.findPeer e.1 =
          some e.2 := by
        intro e he
        show (M.peerManager.setPeer (p.setPongReceived false)).findPeer e.1 = some e.2
        rw [PeerManager.findPeer_setPeer, if_neg fun heq => hne e he heq.symm, hw.peerManager]
        exact hl e (List.mem_cons_of_mem _ he)
      obtain ⟨hpeers, hlayer⟩ := ih _ hrest htail
      refine ⟨hset.trans hpeers, hlayer.trans ?_⟩
      have hM : (M.setPeer (p.setPongReceived false)).socketLayer =
          { N.socketLayer with heap := M.socketLayer.heap } := hw.socketLayer
      rw [hM]

theorem pingtimerCallback_ok {k : PeerAnswers P} (h : N.pingtimerCallback ar k = .ok N') :
    ∃ M, disconnectSilent N.peerManager.getPeers N = .ok M ∧
      PeerManager.SamePeers M.peerManager N'.peerManager ∧
      N'.socketLayer = { M.socketLayer with heap := N'.socketLayer.heap } := by
  obtain ⟨M, hM, h⟩ := bind_ok.mp h
  obtain rfl := Except.ok.inj h
  obtain ⟨hpeers, hlayer⟩ := pingAll_ok k M.peerManager.getPeers M
    (fun e he => PeerManager.mem_getPeers.mp he) (getPeers_pairwise _)
  exact ⟨M, hM, hpeers, hlayer⟩

/-- Somebody who is not in the table is among the selected. -/
def meetsAbsent (N : BL_PeerConnectivityLayer_API P O) (selected : List (Option P)) : Bool :=
  selected.any fun o => o.any fun id => (N.peerManager.findPeer id).isNone

/-- The outgoing-connection update does nothing, or connects to an absent peer. -/
theorem trials_ok {answer : BL_SocketLayer_API.ConnectAnswer} {selected : List (Option P)}
    (h : N.trials answer selected = .ok N') :
    N' = N ∧ (N.meetsAbsent selected = true → answer = .noAddress) ∨
      ∃ id fd, N.meetsAbsent selected = true ∧ N.peerManager.findPeer id = none ∧
        answer = .inProgress fd ∧ N' = N.opened id fd := by
  induction selected with
  | nil => exact .inl ⟨(Except.ok.inj h).symm, fun h => nomatch h⟩
  | cons o selected ih =>
      cases o with
      | none => exact ih h
      | some addr =>
          -- a peer of the table is passed over
          have hskip : ∀ {p}, N.peerManager.findPeer addr = some p →
              N.meetsAbsent (some addr :: selected) = N.meetsAbsent selected := by
            intro p hp
            simp only [meetsAbsent, List.any_cons, Option.any_some, hp, Option.isNone_some,
              Bool.false_or]
          simp only [trials] at h
          split at h
          · next hnone =>
              have hmeets : N.meetsAbsent (some addr :: selected) = true := by
                simp only [meetsAbsent, List.any_cons, Option.any_some, hnone, Option.isNone_none,
                  Bool.true_or]
              obtain ⟨⟨b, M⟩, hM, h⟩ := bind_ok.mp h
              obtain rfl : M = N' := Except.ok.inj h
              rcases connectPeer_ok hM with ⟨hact, -⟩ | ⟨-, ⟨rfl, rfl⟩ | ⟨fd, rfl, rfl⟩⟩
              · rw [hnone] at hact
                exact nomatch hact
              · exact .inl ⟨rfl, fun _ => rfl⟩
              · exact .inr ⟨addr, fd, hmeets, hnone, rfl, rfl⟩
          · next p hp =>
              rw [hskip hp]
              split at h
              · exact ih h
              · split at h
                · exact ih h
                · exact nomatch h

/-- The update of the outgoing connections goes as far as `ConnectPeer`. -/
def wants (N : BL_PeerConnectivityLayer_API P O) (selected : List (Option P)) : Bool :=
  N.peerManager.outPeerNum < MAX_OUTGOINGPEER_NUM && N.meetsAbsent (selected.take 10)

theorem timerCallback_ok {answer : BL_SocketLayer_API.ConnectAnswer} {selected : List (Option P)}
    (h : N.timerCallback selected answer = .ok N') :
    N' = N ∧ (N.wants selected = true → answer = .noAddress) ∨
      ∃ id fd, N.wants selected = true ∧ N.peerManager.findPeer id = none ∧
        answer = .inProgress fd ∧ N' = N.opened id fd := by
  unfold timerCallback at h
  unfold wants
  split at h
  · next hnum =>
      rw [decide_eq_true hnum, Bool.true_and]
      exact trials_ok h
  · next hnum =>
      rw [decide_eq_false hnum, Bool.false_and]
      exact .inl ⟨(Except.ok.inj h).symm, fun h => nomatch h⟩

/-! ### The handlers -/

/-- What the handlers of layer 2 can do. -/
inductive EventStep (ar : Archive P O) (k : PeerAnswers P) (N : BL_PeerConnectivityLayer_API P O) :
    AsyncEvent P O → BL_PeerConnectivityLayer_API P O → Prop
  | attached {sock : SocketPtr P} {x : P} {p : Peer P} :
      N.peerManager.getPeers.find? (fun e => e.2.getConnSocket = sock.getFD) = some (x, p) →
      EventStep ar k N (.peerSocketConnect (some sock)) (N.attach ar k p sock)
  | connectFailed {d : P} {p : Peer P} : N.peerManager.findPeer d = some p → p.dataSocket = none →
      p.tryConnect = true →
      EventStep ar k N (.peerSocketConnectFailed d) (N.setPeer p.clearTryConnect)
  /-- Nobody is being connected to under the name. -/
  | connectFailedIdle {d : P} : (∀ p, N.peerManager.findPeer d = some p → p.tryConnect = false) →
      EventStep ar k N (.peerSocketConnectFailed d) N
  | closeUnknown {sock : Option (SocketPtr P)} : EventStep ar k N (.peerSocketClose sock) N
  | closed {sock own : SocketPtr P} {x : P} {p : Peer P} : N.peerManager.findPeer x = some p →
      p.dataSocket = some own → own.getFD = sock.getFD →
      EventStep ar k N (.peerSocketClose (some sock))
        { N with peerManager := N.peerManager.dropPeer p }
  /-- A message between the layers of peers. -/
  | recvMsg {src : P} {msg : Message P O} {N' : BL_PeerConnectivityLayer_API P O} :
      PeerManager.SamePeers N.peerManager N'.peerManager →
      N'.socketLayer = { N.socketLayer with heap := N'.socketLayer.heap } →
      EventStep ar k N (.peerRecvMsg src msg) N'
  | recvProtocolMsg {src : P} {msg : Message P O} :
      EventStep ar k N (.peerRecvMsg src msg) (N.pushAsyncEvent (.protocolRecvMsg msg))
  | notifyDuplicate {id : P} {sock : Option (SocketPtr P)} :
      (N.peerManager.findPeer id).any Peer.isActive = true →
      EventStep ar k N (.peerRecvNotifyPeerId id sock) N
  | notifyLimit {id : P} {sock : SocketPtr P} :
      (N.peerManager.findPeer id).any Peer.isActive = false →
      MAX_INCOMINGPEER_NUM ≤ N.peerManager.inPeerNum →
      EventStep ar k N (.peerRecvNotifyPeerId id (some sock))
        { N with socketLayer := N.socketLayer.disconnectSocket sock.getFD }
  | notifyAdded {id : P} {sock : Option (SocketPtr P)} :
      (N.peerManager.findPeer id).any Peer.isActive = false →
      ¬ MAX_INCOMINGPEER_NUM ≤ N.peerManager.inPeerNum →
      EventStep ar k N (.peerRecvNotifyPeerId id sock)
        { N with peerManager := N.peerManager.addPeer (.incoming id k.uninit sock) }
  | protocol {msg : Message P O} : EventStep ar k N (.protocolRecvMsg msg) N

/-- What the handler of messages can do. -/
inductive RecvMsgStep (ads : AddrAd P O) (k : PeerAnswers P) (N : BL_PeerConnectivityLayer_API P O)
    (src : P) (msg : Message P O) : BL_PeerConnectivityLayer_API P O → Prop
  | ignored : msg.type ≠ "ADDR" → msg.type ≠ "PONG" → RecvMsgStep ads k N src msg N
  | addr {vAddr : List P} {ad : AdvertisementManager P} : msg.type = "ADDR" →
      ads.vAddr msg.ptrToObj = some vAddr →
      recvAddrs N.peerManager msg.src vAddr.length vAddr k.draws N.adManager = .ok ad →
      RecvMsgStep ads k N src msg { N with adManager := ad }
  | ping {N' : BL_PeerConnectivityLayer_API P O} : msg.type = "PING" → Wrote N N' →
      RecvMsgStep ads k N src msg N'
  | pong {p : Peer P} : msg.type = "PONG" → N.peerManager.findPeer src = some p →
      RecvMsgStep ads k N src msg (N.setPeer (p.setPongReceived true))
  | protocol : msg.type ≠ "ADDR" → msg.type ≠ "PONG" →
      RecvMsgStep ads k N src msg (N.pushAsyncEvent (.protocolRecvMsg msg))

theorem recvMsgHandler_cases {k : PeerAnswers P} {src : P} {msg : Message P O}
    (h : N.recvMsgHandler ar ads k src msg = .ok N') : RecvMsgStep ads k N src msg N' := by
  -- the types are compared one after the other
  unfold recvMsgHandler at h
  split at h
  · next ht =>
      obtain rfl := Except.ok.inj h
      exact .ignored (by rw [ht]; decide) (by rw [ht]; decide)
  split at h
  · next ht =>
      obtain rfl := Except.ok.inj h
      exact .ignored (by rw [ht]; decide) (by rw [ht]; decide)
  split at h
  · next ht =>
      split at h
      · cases h
      · next vAddr hv =>
          obtain ⟨ad, had, h⟩ := bind_ok.mp h
          obtain rfl := Except.ok.inj h
          exact .addr ht hv had
  · next haddr =>
      split at h
      · next ht =>
          obtain rfl := Except.ok.inj h
          exact .ping ht (sendMsgToPeer_snd _ _ _)
      split at h
      · next ht =>
          split at h
          · cases h
          · next p hp =>
              obtain rfl := Except.ok.inj h
              exact .pong ht hp
      · next hpong =>
          obtain rfl := Except.ok.inj h
          exact .protocol haddr hpong

theorem recvMsgHandler_ok {k : PeerAnswers P} {src : P} {msg : Message P O}
    (h : N.recvMsgHandler ar ads k src msg = .ok N') :
    PeerManager.SamePeers N.peerManager N'.peerManager ∧
        N'.socketLayer = { N.socketLayer with heap := N'.socketLayer.heap } ∨
      N' = N.pushAsyncEvent (.protocolRecvMsg msg) := by
  cases recvMsgHandler_cases h with
  | ignored _ _ => exact .inl ⟨.refl _, rfl⟩
  | addr _ _ _ => exact .inl ⟨.refl _, rfl⟩
  | ping _ hw => exact .inl ⟨hw.peerManager ▸ .refl _, hw.socketLayer⟩
  | pong _ hp =>
      have hid := PeerManager.id_of_findPeer hp
      exact .inl ⟨PeerManager.samePeers_setPongReceived (hid.symm ▸ hp) true, rfl⟩
  | protocol _ _ => exact .inr rfl

theorem socketCloseHandler_ok {sock : Option (SocketPtr P)}
    (h : N.socketCloseHandler sock = .ok N') : N' = N ∨
      ∃ closedSocket own x p, sock = some closedSocket ∧ N.peerManager.findPeer x = some p ∧
        p.dataSocket = some own ∧ own.getFD = closedSocket.getFD ∧
        N' = { N with peerManager := N.peerManager.dropPeer p } := by
  cases sock with
  | none =>
      simp only [socketCloseHandler] at h
      split at h
      · exact nomatch h
      · exact .inl (Except.ok.inj h).symm
  | some closedSocket =>
      simp only [socketCloseHandler] at h
      split at h
      · exact .inl (Except.ok.inj h).symm
      · next x p hfind =>
          obtain ⟨m, hm, h⟩ := bind_ok.mp h
          obtain ⟨-, rfl⟩ := PeerManager.removePeer_ok hm
          obtain rfl := Except.ok.inj h
          have hp := PeerManager.mem_getPeers.mp (List.mem_of_find?_eq_some hfind)
          have hfd := List.find?_some hfind
          obtain ⟨own, hown, hsame⟩ := (Option.any_eq_true _ _).mp hfd
          exact .inr ⟨closedSocket, own, x, p, rfl, hp, hown, of_decide_eq_true hsame, rfl⟩

theorem switchAsyncEventHandler_ok {k : PeerAnswers P} {event : AsyncEvent P O}
    (hlayer : event.isLayer1 = false) (h : N.switchAsyncEventHandler ar ads k event = .ok N') :
    EventStep ar k N event N' := by
  cases event with
  | peerSocketConnect sock =>
      cases sock with
      | none =>
          simp only [switchAsyncEventHandler, socketConnectHandler] at h
          split at h
          · cases h
          · cases h
      | some sock =>
          simp only [switchAsyncEventHandler, socketConnectHandler] at h
          split at h
          · cases h
          · next x p hfind =>
              obtain rfl := Except.ok.inj h
              exact .attached hfind
  | peerSocketConnectFailed d =>
      obtain ⟨M, hM, h⟩ := bind_ok.mp h
      -- the close handler that follows changes nothing
      rcases socketCloseHandler_ok h with rfl | ⟨sock, -, -, -, hsock, -⟩
      · unfold socketConnectFailedHandler at hM
        split at hM
        · next hnone =>
            obtain rfl := Except.ok.inj hM
            exact .connectFailedIdle fun p hp => by cases hnone.symm.trans hp
        · next p hp =>
            split at hM
            · cases hM
            · next hact =>
                split at hM
                · next ht =>
                    obtain rfl := Except.ok.inj hM
                    have hno : p.dataSocket = none := by
                      simpa [Peer.isActive] using hact
                    exact .connectFailed hp hno ht
                · next ht =>
                    obtain rfl := Except.ok.inj hM
                    refine .connectFailedIdle fun p' hp' => ?_
                    obtain rfl := Option.some.inj (hp.symm.trans hp')
                    exact Bool.not_eq_true _ ▸ ht
      · cases hsock
  | peerSocketClose sock =>
      rcases socketCloseHandler_ok h with rfl | ⟨sock, own, x, p, rfl, hp, hown, hfd, rfl⟩
      · exact .closeUnknown
      · exact .closed hp hown hfd
  | peerRecvMsg src msg =>
      rcases recvMsgHandler_ok h with ⟨hpeers, hsock⟩ | rfl
      · exact .recvMsg hpeers hsock
      · exact .recvProtocolMsg
  | peerRecvNotifyPeerId id sock =>
      simp only [switchAsyncEventHandler, peerNotifyHandler] at h
      split at h
      · next hact =>
          obtain rfl := Except.ok.inj h
          exact .notifyDuplicate hact
      · next hact =>
          have hact' := Bool.not_eq_true _ ▸ hact
          split at h
          · next hlimit =>
              cases sock with
              | none => cases h
              | some sock =>
                  obtain rfl := Except.ok.inj h
                  exact .notifyLimit hact' hlimit
          · next hlimit =>
              obtain rfl := Except.ok.inj h
              exact .notifyAdded hact' hlimit
  | protocolRecvMsg msg =>
      obtain rfl := Except.ok.inj h
      exact .protocol
  | _ => cases hlayer

end BL_PeerConnectivityLayer_API

end Bleep
