/-
# `Bleep.BL2.Node` — one node: its events, its timers and the application

The layers of sockets and of peers, run by `MainEventManager`.  Between any two
events the application may call the public functions, a watcher may queue an
event, and a timer may fire.  The environment chooses the order, and what the
system calls return, with one restriction: the kernel does not hand out a
descriptor that is open.

A data socket is destroyed, and its descriptor closed, when the last pointer to it
is gone.  This is a step of its own (`destroy`), and as long as one is due nothing
else happens.  `AcceptHandler` accepts until `accept()` fails; each of its rounds is
a step, and the event stays in front until the last one.

`step_cases` says what a step does, once for all invariants.
-/
import Bleep.BL2.PeerConnectivityLayer
import Bleep.Lib.TransSys

namespace Bleep

open BL_PeerConnectivityLayer_API

variable {P O : Type} [LinearOrder P]

inductive NodeAct (P O : Type) where
  | connectPeer (id : P) (answer : BL_SocketLayer_API.ConnectAnswer)
  | disconnectPeer (id : P)
  | sendMsgToPeer (id : P) (msg : Message P O)
  | shutdown
  | listenSocketIOCallback
  | connectSocketIOCallback (fd : Int)
  | dataSocketIOCallback (sock : SocketPtr P) (readable : Bool)
  | pingtimerCallback (k : PeerAnswers P)
  | timerCallback (selected : List (Option P)) (answer : BL_SocketLayer_API.ConnectAnswer)
  | sendAdToPeers (k : PeerAnswers P)
  | handleEvent (k : PeerAnswers P)
  | destroy (sock : SocketPtr P)

namespace BL_PeerConnectivityLayer_API

variable (ar : Archive P O) (ads : AddrAd P O) (N : BL_PeerConnectivityLayer_API P O)

/-- Somebody has a pointer to the data socket. -/
def referenced (sock : SocketPtr P) : Bool :=
  N.socketLayer.getDataSocket sock.getFD = some sock ||
    N.socketLayer.eventQueue.any (fun event => event.socket = some sock) ||
    N.peerManager.getPeers.any fun e => e.2.getDataSocket = some sock

/-- No data socket is to be destroyed. -/
def settled : Bool := N.socketLayer.objects.all N.referenced

/-- The descriptor is not open. -/
def isFree (fd : Int) : Bool := (N.socketLayer.owner fd).isNone

/-- The kernel can return this to a new connection. -/
def grants : BL_SocketLayer_API.ConnectAnswer → Bool
  | .inProgress fd => N.isFree fd
  | _ => true

def popAsyncEvent (rest : List (AsyncEvent P O)) : BL_PeerConnectivityLayer_API P O :=
  { N with socketLayer := { N.socketLayer with eventQueue := rest } }

/-- `HandleAsyncEvent`.  The events of layer 3 are the protocol's. -/
def handleAsyncEvent (k : PeerAnswers P) (event : AsyncEvent P O) :
    Except Fault (BL_PeerConnectivityLayer_API P O) :=
  if event.isLayer1 then do
    let socketLayer ← N.socketLayer.switchAsyncEventHandler ar k.toAnswers event
    return { N with socketLayer }
  else N.switchAsyncEventHandler ar ads k event

/-- One event of the queue, or one round of `AcceptHandler`. -/
def handleNext (k : PeerAnswers P) : Option (Except Fault (BL_PeerConnectivityLayer_API P O)) :=
  match N.socketLayer.eventQueue, k.accepted with
  | [], _ => none
  | .socketAccept :: _, fd :: _ =>
      if N.isFree fd then
        some (.ok { N with socketLayer := N.socketLayer.acceptHandler [fd] })
      else none
  | event :: rest, _ => some ((N.popAsyncEvent rest).handleAsyncEvent ar ads k event)

/-- What an action does, if it can be taken when no socket is to be destroyed. -/
def move : NodeAct P O → Option (Except Fault (BL_PeerConnectivityLayer_API P O))
  | .connectPeer id answer =>
      if N.grants answer then some do
        let (_, N) ← N.connectPeer id answer
        return N
      else none
  | .disconnectPeer id => some do
      let (_, N) ← N.disconnectPeer id
      return N
  | .sendMsgToPeer id msg => some (.ok (N.sendMsgToPeer ar id msg).2)
  | .shutdown => some do
      N.shutdown
      return N
  | .listenSocketIOCallback => some (.ok (N.pushAsyncEvent .socketAccept))
  | .connectSocketIOCallback fd =>
      if (N.socketLayer.getConnectSocket fd).isSome then
        -- `getsockopt` fails on a closed descriptor
        if N.isFree fd then some (.error .exit)
        else some (.ok (N.pushAsyncEvent (.socketConnect fd)))
      else none
  | .dataSocketIOCallback sock readable =>
      if sock ∈ N.socketLayer.objects ∧ (readable ∨ (N.socketLayer.heap sock.obj).writable) then
        some (.ok (N.pushAsyncEvent (if readable then .socketRecv sock else .socketWrite sock)))
      else none
  | .pingtimerCallback k => some (N.pingtimerCallback ar k)
  | .timerCallback selected answer =>
      if N.grants answer then some (N.timerCallback selected answer) else none
  | .sendAdToPeers k => some (.ok (N.sendAdToPeers ar ads k))
  | .handleEvent k => N.handleNext ar ads k
  | .destroy _ => none

/-- What an action does, if it can be taken. -/
def act : NodeAct P O → Option (Except Fault (BL_PeerConnectivityLayer_API P O))
  | .destroy sock =>
      if sock ∈ N.socketLayer.objects ∧ N.referenced sock = false then some do
        let socketLayer ← N.socketLayer.destroySocket sock
        return { N with socketLayer }
      else none
  | a => if N.settled then N.move ar ads a else none

end BL_PeerConnectivityLayer_API

/-- A node; the counters of its table start with `outPeerNum` and `inPeerNum`. -/
def nodeSys (ar : Archive P O) (ads : AddrAd P O) (myPeerId : P) (outPeerNum inPeerNum : Int) :
    TransSys (BL_PeerConnectivityLayer_API P O) (NodeAct P O) where
  init N := N = .init myPeerId outPeerNum inPeerNum
  step N a N' := N.act ar ads a = some (.ok N')

namespace BL_PeerConnectivityLayer_API

variable {ar : Archive P O} {ads : AddrAd P O} {N N' : BL_PeerConnectivityLayer_API P O}
  {a : NodeAct P O}

/-- What a node can do. -/
inductive NodeStep (ar : Archive P O) (N : BL_PeerConnectivityLayer_API P O) :
    NodeAct P O → BL_PeerConnectivityLayer_API P O → Prop
  | connectIdle {id : P} {answer : BL_SocketLayer_API.ConnectAnswer} :
      (N.peerManager.findPeer id).any Peer.isActive = true ∨ answer = .noAddress →
      NodeStep ar N (.connectPeer id answer) N
  | connectOpened {id : P} {fd : Int} : (N.peerManager.findPeer id).any Peer.isActive = false →
      N.socketLayer.owner fd = none →
      NodeStep ar N (.connectPeer id (.inProgress fd)) (N.opened id fd)
  | disconnectAbsent {id : P} : N.peerManager.findPeer id = none →
      NodeStep ar N (.disconnectPeer id) N
  | disconnected {id : P} {p : Peer P} {N' : BL_PeerConnectivityLayer_API P O} :
      N.peerManager.findPeer id = some p → Disconnected N p N' →
      NodeStep ar N (.disconnectPeer id) N'
  | sent {id : P} {msg : Message P O} {N' : BL_PeerConnectivityLayer_API P O} : Wrote N N' →
      NodeStep ar N (.sendMsgToPeer id msg) N'
  | listenReady : NodeStep ar N .listenSocketIOCallback (N.pushAsyncEvent .socketAccept)
  | connectReady {fd : Int} :
      NodeStep ar N (.connectSocketIOCallback fd) (N.pushAsyncEvent (.socketConnect fd))
  | dataReady {sock : SocketPtr P} {readable : Bool} : sock ∈ N.socketLayer.objects →
      NodeStep ar N (.dataSocketIOCallback sock readable)
        (N.pushAsyncEvent (if readable then .socketRecv sock else .socketWrite sock))
  | pinged {k : PeerAnswers P} {M N' : BL_PeerConnectivityLayer_API P O} :
      disconnectSilent N.peerManager.getPeers N = .ok M →
      PeerManager.SamePeers M.peerManager N'.peerManager →
      N'.socketLayer = { M.socketLayer with heap := N'.socketLayer.heap } →
      NodeStep ar N (.pingtimerCallback k) N'
  | timerIdle {selected : List (Option P)} {answer : BL_SocketLayer_API.ConnectAnswer} :
      (N.wants selected = true → answer = .noAddress) →
      NodeStep ar N (.timerCallback selected answer) N
  | timerOpened {selected : List (Option P)} {id : P} {fd : Int} : N.wants selected = true →
      N.peerManager.findPeer id = none → N.socketLayer.owner fd = none →
      NodeStep ar N (.timerCallback selected (.inProgress fd)) (N.opened id fd)
  | advertised {k : PeerAnswers P} {N' : BL_PeerConnectivityLayer_API P O} :
      N'.peerManager = N.peerManager →
      N'.socketLayer = { N.socketLayer with heap := N'.socketLayer.heap } →
      NodeStep ar N (.sendAdToPeers k) N'
  | destroyed {sock : SocketPtr P} : sock ∈ N.socketLayer.objects → N.referenced sock = false →
      NodeStep ar N (.destroy sock)
        { N with socketLayer := { N.socketLayer with
            objects := N.socketLayer.objects.filter (·.obj ≠ sock.obj) }.closeFd sock.getFD }
  | accepted {k : PeerAnswers P} {rest : List (AsyncEvent P O)} {fd : Int} {fds : List Int} :
      N.socketLayer.eventQueue = .socketAccept :: rest → k.accepted = fd :: fds →
      N.socketLayer.owner fd = none →
      NodeStep ar N (.handleEvent k) { N with socketLayer := N.socketLayer.acceptHandler [fd] }
  | acceptFailed {k : PeerAnswers P} {rest : List (AsyncEvent P O)} :
      N.socketLayer.eventQueue = .socketAccept :: rest → k.accepted = [] →
      NodeStep ar N (.handleEvent k) (N.popAsyncEvent rest)
  | layer1 {k : PeerAnswers P} {event : AsyncEvent P O} {rest : List (AsyncEvent P O)}
      {L : BL_SocketLayer_API P O} : N.socketLayer.eventQueue = event :: rest →
      event.isLayer1 = true → event ≠ .socketAccept →
      (N.popAsyncEvent rest).socketLayer.switchAsyncEventHandler ar k.toAnswers event = .ok L →
      NodeStep ar N (.handleEvent k) { N with socketLayer := L }
  | layer2 {k : PeerAnswers P} {event : AsyncEvent P O} {rest : List (AsyncEvent P O)}
      {N' : BL_PeerConnectivityLayer_API P O} : N.socketLayer.eventQueue = event :: rest →
      EventStep ar k (N.popAsyncEvent rest) event N' → NodeStep ar N (.handleEvent k) N'

theorem handleNext_cases {k : PeerAnswers P} (h : N.handleNext ar ads k = some (.ok N')) :
    NodeStep ar N (.handleEvent k) N' := by
  -- an event that is popped
  have hpop : ∀ {event rest}, N.socketLayer.eventQueue = event :: rest →
      event ≠ .socketAccept →
      (N.popAsyncEvent rest).handleAsyncEvent ar ads k event = .ok N' →
      NodeStep ar N (.handleEvent k) N' := by
    intro event rest hq hne hh
    unfold handleAsyncEvent at hh
    split at hh
    · next hl =>
        obtain ⟨L, hL, hh⟩ := bind_ok.mp hh
        obtain rfl := Except.ok.inj hh
        exact .layer1 hq hl hne hL
    · next hl => exact .layer2 hq (switchAsyncEventHandler_ok (Bool.not_eq_true _ ▸ hl) hh)
  unfold handleNext at h
  split at h
  · exact nomatch h
  · next rest fd fds hq hacc =>
      split at h
      · next hfree =>
          obtain rfl := Except.ok.inj (Option.some.inj h)
          exact .accepted hq hacc (Option.isNone_iff_eq_none.mp hfree)
      · exact nomatch h
  · next event rest hq hnot =>
      by_cases hacc : event = .socketAccept
      · subst hacc
        have hnil : k.accepted = [] := by
          cases hk : k.accepted with
          | nil => rfl
          | cons fd fds => exact (hnot fd fds hk rfl).elim
        have hh := Option.some.inj h
        simp only [handleAsyncEvent, AsyncEvent.isLayer1, if_true,
          BL_SocketLayer_API.switchAsyncEventHandler, hnil, BL_SocketLayer_API.acceptHandler] at hh
        obtain rfl := Except.ok.inj hh
        exact .acceptFailed hq hnil
      · exact hpop hq hacc (Option.some.inj h)

/-- **What a step does.** -/
theorem step_cases (h : N.act ar ads a = some (.ok N')) : NodeStep ar N a N' := by
  cases a with
  | destroy sock =>
      simp only [act] at h
      split at h
      · next hg =>
          obtain ⟨L, hL, h⟩ := bind_ok.mp (Option.some.inj h)
          obtain rfl := Except.ok.inj h
          unfold BL_SocketLayer_API.destroySocket at hL
          split at hL
          · obtain rfl := Except.ok.inj hL
            exact .destroyed hg.1 hg.2
          · exact nomatch hL
      · exact nomatch h
  | connectPeer id answer =>
      simp only [act, move] at h
      split at h
      · split at h
        · next hg =>
            obtain ⟨⟨b, M⟩, hM, h⟩ := bind_ok.mp (Option.some.inj h)
            obtain rfl : M = N' := Except.ok.inj h
            rcases connectPeer_ok hM with ⟨hact, rfl⟩ | ⟨hact, ⟨rfl, rfl⟩ | ⟨fd, rfl, rfl⟩⟩
            · exact .connectIdle (.inl hact)
            · exact .connectIdle (.inr rfl)
            · exact .connectOpened hact (Option.isNone_iff_eq_none.mp hg)
        · exact nomatch h
      · exact nomatch h
  | disconnectPeer id =>
      simp only [act, move] at h
      split at h
      · obtain ⟨⟨b, M⟩, hM, h⟩ := bind_ok.mp (Option.some.inj h)
        obtain rfl : M = N' := Except.ok.inj h
        rcases disconnectPeer_ok hM with ⟨hnone, rfl⟩ | ⟨p, hp, hd⟩
        · exact .disconnectAbsent hnone
        · exact .disconnected hp hd
      · exact nomatch h
  | sendMsgToPeer id msg =>
      simp only [act, move] at h
      split at h
      · obtain rfl := Except.ok.inj (Option.some.inj h)
        exact .sent (sendMsgToPeer_snd _ _ _)
      · exact nomatch h
  | shutdown =>
      simp only [act, move] at h
      split at h
      · obtain ⟨_, hs, -⟩ := bind_ok.mp (Option.some.inj h)
        obtain ⟨_, -, hs⟩ := bind_ok.mp hs
        exact nomatch hs
      · exact nomatch h
  | listenSocketIOCallback =>
      simp only [act, move] at h
      split at h
      · obtain rfl := Except.ok.inj (Option.some.inj h)
        exact .listenReady
      · exact nomatch h
  | connectSocketIOCallback fd =>
      simp only [act, move] at h
      split at h
      · split at h
        · split at h
          · exact nomatch h
          · obtain rfl := Except.ok.inj (Option.some.inj h)
            exact .connectReady
        · exact nomatch h
      · exact nomatch h
  | dataSocketIOCallback sock readable =>
      simp only [act, move] at h
      split at h
      · split at h
        · next hg =>
            obtain rfl := Except.ok.inj (Option.some.inj h)
            exact .dataReady hg.1
        · exact nomatch h
      · exact nomatch h
  | pingtimerCallback k =>
      simp only [act, move] at h
      split at h
      · obtain ⟨M, hM, hpeers, hlayer⟩ := pingtimerCallback_ok (Option.some.inj h)
        exact .pinged hM hpeers hlayer
      · exact nomatch h
  | timerCallback selected answer =>
      simp only [act, move] at h
      split at h
      · split at h
        · next hg =>
            rcases timerCallback_ok (Option.some.inj h) with
              ⟨rfl, hidle⟩ | ⟨id, fd, hwants, hnone, rfl, rfl⟩
            · exact .timerIdle hidle
            · exact .timerOpened hwants hnone (Option.isNone_iff_eq_none.mp hg)
        · exact nomatch h
      · exact nomatch h
  | sendAdToPeers k =>
      simp only [act, move] at h
      split at h
      · obtain rfl := Except.ok.inj (Option.some.inj h)
        have hw : Wrote N (sendAds ar ads k N.adManager.addrToSend.toList N) := sendAds_wrote _ _ _
        exact .advertised hw.peerManager hw.socketLayer
      · exact nomatch h
  | handleEvent k =>
      simp only [act, move] at h
      split at h
      · exact handleNext_cases h
      · exact nomatch h

theorem move_of_act {r : Except Fault (BL_PeerConnectivityLayer_API P O)}
    (ha : ∀ sock, a ≠ .destroy sock) (h : N.act ar ads a = some r) : N.move ar ads a = some r := by
  cases a with
  | destroy sock => exact absurd rfl (ha sock)
  | _ =>
      simp only [act] at h
      split at h
      · exact h
      · cases h

theorem recvMsg_of_act {k : PeerAnswers P} {src : P} {msg : Message P O}
    {rest : List (AsyncEvent P O)} (hq : N.socketLayer.eventQueue = .peerRecvMsg src msg :: rest)
    (h : N.act ar ads (.handleEvent k) = some (.ok N')) :
    (N.popAsyncEvent rest).recvMsgHandler ar ads k src msg = .ok N' := by
  have hmove := move_of_act (by rintro _ ⟨⟩) h
  simp only [move, handleNext, hq] at hmove
  exact Option.some.inj hmove

/-! ## Faults -/

/-- The action stops the node with the fault `e`. -/
def Aborts (ar : Archive P O) (ads : AddrAd P O) (N : BL_PeerConnectivityLayer_API P O)
    (a : NodeAct P O) (e : Fault) : Prop := N.act ar ads a = some (.error e)

end BL_PeerConnectivityLayer_API

/-! ## Concrete runs -/

/-- The step as a function. -/
def NodeAct.next (ar : Archive P O) (ads : AddrAd P O) (N : BL_PeerConnectivityLayer_API P O)
    (a : NodeAct P O) : Option (BL_PeerConnectivityLayer_API P O) :=
  match N.act ar ads a with
  | some (.ok N') => some N'
  | _ => none

theorem NodeAct.step_of_next {ar : Archive P O} {ads : AddrAd P O}
    {N N' : BL_PeerConnectivityLayer_API P O} {a : NodeAct P O} {me : P} {o i : Int}
    (h : a.next ar ads N = some N') : (nodeSys ar ads me o i).step N a N' := by
  unfold NodeAct.next at h
  split at h
  · next M hM =>
      obtain rfl := Option.some.inj h
      exact hM
  · exact nomatch h

/-- A schedule, run from the start. -/
def nodeRun (ar : Archive P O) (ads : AddrAd P O) (me : P) (o i : Int)
    (C : BL_PeerConnectivityLayer_API P O → NodeAct P O → Bool) (acts : List (NodeAct P O)) :
    Option (BL_PeerConnectivityLayer_API P O) :=
  TransSys.exec (fun N a => a.next ar ads N) C (.init me o i) acts

theorem nodeRun_under {ar : Archive P O} {ads : AddrAd P O} {me : P} {o i : Int}
    {C : BL_PeerConnectivityLayer_API P O → NodeAct P O → Bool} {acts : List (NodeAct P O)}
    {N : BL_PeerConnectivityLayer_API P O} (h : nodeRun ar ads me o i C acts = some N) :
    (nodeSys ar ads me o i).Under (fun N a => C N a = true) N :=
  TransSys.exec_under _ _ (fun _ _ _ => NodeAct.step_of_next) acts (.start rfl) h

/-- The fault an action stops the node with. -/
def NodeAct.fault (ar : Archive P O) (ads : AddrAd P O) (N : BL_PeerConnectivityLayer_API P O)
    (a : NodeAct P O) : Option Fault :=
  match N.act ar ads a with
  | some (.error e) => some e
  | _ => none

theorem NodeAct.aborts_of_fault {ar : Archive P O} {ads : AddrAd P O}
    {N : BL_PeerConnectivityLayer_API P O} {a : NodeAct P O} {e : Fault}
    (h : a.fault ar ads N = some e) : Aborts ar ads N a e := by
  unfold NodeAct.fault at h
  split at h
  · next e' he =>
      obtain rfl := Option.some.inj h
      exact he
  · exact nomatch h

theorem nodeRun_any {ar : Archive P O} {ads : AddrAd P O} {me : P} {o i : Int}
    {C : BL_PeerConnectivityLayer_API P O → NodeAct P O → Bool} {acts : List (NodeAct P O)}
    {test : BL_PeerConnectivityLayer_API P O → Bool}
    (h : (nodeRun ar ads me o i C acts).any test = true) :
    ∃ N, nodeRun ar ads me o i C acts = some N ∧
      (nodeSys ar ads me o i).Under (fun N a => C N a = true) N ∧ test N = true :=
  TransSys.exec_any _ _ (fun _ _ _ => NodeAct.step_of_next) rfl h

/-- A schedule after which an action stops the node. -/
theorem aborts_of_nodeRun {ar : Archive P O} {ads : AddrAd P O} {me : P} {o i : Int}
    {C : BL_PeerConnectivityLayer_API P O → NodeAct P O → Bool} {acts : List (NodeAct P O)}
    {a : NodeAct P O} {e : Fault}
    (h : ((nodeRun ar ads me o i C acts).bind fun N => a.fault ar ads N) = some e) :
    ∃ N, nodeRun ar ads me o i C acts = some N ∧ (nodeSys ar ads me o i).Reach N ∧
      N.Aborts ar ads a e := by
  obtain ⟨N, hN, hfault⟩ := Option.bind_eq_some_iff.mp h
  exact ⟨N, hN, (nodeRun_under hN).reach, NodeAct.aborts_of_fault hfault⟩

/-- An archive for peers with small numbers as ids; the object of a message is a
list of addresses. -/
def byteArchive : Archive Nat (List Nat) where
  serialize msg := .ofNat msg.src :: .ofNat msg.dest :: .ofNat msg.type.length ::
    (msg.type.toList.map fun c => .ofNat c.toNat) ++ (msg.ptrToObj.getD []).map .ofNat
  deserialize
    | src :: dest :: n :: rest => some (some
        { src := src.toNat, dest := dest.toNat
          type := String.ofList ((rest.take n.toNat).map fun b => Char.ofNat b.toNat)
          ptrToObj := some ((rest.drop n.toNat).map UInt8.toNat)
          messageId := "" })
    | _ => none

def listAddrAd : AddrAd Nat (List Nat) where
  make := id
  vAddr := id

/-- `recv()` returns these bytes, if they fit in one piece. -/
def reads (bs : List UInt8) : PeerAnswers Nat :=
  { recv := if h : 0 < bs.length ∧ bs.length ≤ 2000 then [.data bs h] else [] }

/-- `recv()` returns the frame of a message of `src`. -/
def readsMsg (src : Nat) (type : MessageType) (vAddr : List Nat) : PeerAnswers Nat :=
  reads (frame byteArchive { src, dest := 0, type, ptrToObj := some vAddr, messageId := "" })

/-- Somebody connects, and `accept()` returns `fd`. -/
def acceptOn (fd : Int) : List (NodeAct Nat (List Nat)) :=
  [.listenSocketIOCallback, .handleEvent { accepted := [fd] }, .handleEvent {}]

/-- The data socket of the first connection a node has, if it is accepted on
descriptor 5. -/
def firstSock : SocketPtr Nat := ⟨1, ⟨0, 5, none⟩⟩

/-- The one of the second, if it is accepted on descriptor 5 again. -/
def secondSock : SocketPtr Nat := ⟨3, ⟨2, 5, none⟩⟩

/-- Node 9 connects, and sends its `notifyPeerId`. -/
def metPeer : List (NodeAct Nat (List Nat)) :=
  acceptOn 5 ++
    [.dataSocketIOCallback firstSock true, .handleEvent (readsMsg 9 "notifyPeerId" []),
      .handleEvent {}]

end Bleep
