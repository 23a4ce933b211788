/-
# `Bleep.BL2.QueuedEvents` — events that wait for a data socket

The watcher of a data socket queues a `SocketRecv` or a `SocketWrite` with nothing in it
but the descriptor.  Until its turn comes the socket may be given up, and the number
stand for nothing or for another connection.

A data socket is *served* if its descriptor has it in `_dataSockets` and stands for its
connection.  A step that gives up descriptors ends that for the sockets on them, and no
other step does (`queueStep_of_step`).  So every waiting event finds its own socket
exactly as long as nothing is given up that an event waits for, and no watcher queues
an event for a socket that is not served (`live_of_spares`); `DisconnectPeer` between
two events breaks it (`event_outlives_socket`).
-/
import Bleep.BL2.NodeFaults
import Bleep.BL2.Numbers

namespace Bleep

variable {P O : Type}

/-- The data socket whose watcher queued the event. -/
def AsyncEvent.watched : AsyncEvent P O → Option (SocketPtr P)
  | .socketRecv sock => some sock
  | .socketWrite sock => some sock
  | _ => none

theorem AsyncEvent.about_of_watched {event : AsyncEvent P O} {sock : SocketPtr P}
    (h : event.watched = some sock) : event.about = some sock := by
  cases event with
  | socketRecv s => exact h
  | socketWrite s => exact h
  | _ => exact nomatch h

/-! ## The socket layer -/

namespace BL_SocketLayer_API

/-- The sockets events wait for. -/
def awaited (events : List (AsyncEvent P O)) : List (SocketPtr P) :=
  events.filterMap AsyncEvent.watched

theorem awaited_append {events more : List (AsyncEvent P O)}
    (h : ∀ event ∈ more, event.watched = none) : awaited (events ++ more) = awaited events := by
  have hnil : awaited more = [] := List.filterMap_eq_nil_iff.mpr h
  unfold awaited at hnil ⊢
  rw [List.filterMap_append, hnil, List.append_nil]

section Served

variable [DecidableEq P]

/-- The descriptor of the data socket has it, and stands for its connection. -/
def serves (L : BL_SocketLayer_API P O) (sock : SocketPtr P) : Bool :=
  L.getDataSocket sock.getFD = some sock && L.owner sock.getFD = some sock.conn

/-- Every event that waits finds its socket. -/
def Live (L : BL_SocketLayer_API P O) : Prop :=
  ∀ event ∈ L.eventQueue, ∀ sock ∈ event.watched, L.serves sock = true

variable {L L' : BL_SocketLayer_API P O}

theorem live_iff : L.Live ↔ ∀ sock ∈ awaited L.eventQueue, L.serves sock = true := by
  constructor
  · intro h sock hs
    obtain ⟨event, he, hw⟩ := List.mem_filterMap.mp hs
    exact h event he sock hw
  · intro h event he sock hs
    exact h sock (List.mem_filterMap.mpr ⟨event, he, hs⟩)

theorem serves_iff {sock : SocketPtr P} : L.serves sock = true ↔
    L.getDataSocket sock.getFD = some sock ∧ L.owner sock.getFD = some sock.conn := by
  unfold serves
  rw [Bool.and_eq_true, decide_eq_true_eq, decide_eq_true_eq]

theorem serves_closeFd (fd : Int) (sock : SocketPtr P) :
    (L.closeFd fd).serves sock = (L.serves sock && sock.getFD ∉ [fd]) := by
  have hsock : (L.closeFd fd).getDataSocket = L.getDataSocket := rfl
  unfold serves
  rw [owner_closeFd, hsock]
  by_cases hfd : sock.getFD = fd
  · have hmem : decide (sock.getFD ∉ [fd]) = false := by
      rw [hfd]
      exact decide_eq_false (not_not_intro (List.mem_singleton_self fd))
    rw [if_pos hfd, hmem, Bool.and_false]
    exact Bool.and_false _
  · have hmem : decide (sock.getFD ∉ [fd]) = true := decide_eq_true (mt List.mem_singleton.mp hfd)
    rw [if_neg hfd, hmem, Bool.and_true]

theorem serves_removeDataSocket (fd : Int) (sock : SocketPtr P) :
    (L.removeDataSocket fd).serves sock = (L.serves sock && sock.getFD ∉ [fd]) := by
  have howner : (L.removeDataSocket fd).owner = L.owner := rfl
  have hsock : (L.removeDataSocket fd).getDataSocket sock.getFD =
      if sock.getFD = fd then none else L.getDataSocket sock.getFD := rfl
  unfold serves
  rw [hsock, howner]
  by_cases hfd : sock.getFD = fd
  · have hmem : decide (sock.getFD ∉ [fd]) = false := by
      rw [hfd]
      exact decide_eq_false (not_not_intro (List.mem_singleton_self fd))
    rw [if_pos hfd, hmem, Bool.and_false]
    exact Bool.false_and _
  · have hmem : decide (sock.getFD ∉ [fd]) = true := decide_eq_true (mt List.mem_singleton.mp hfd)
    rw [if_neg hfd, hmem, Bool.and_true]

/-- What a step does to the sockets that are waited for: it gives up descriptors, it takes
an event off the queue, or it queues one. -/
structure QueueStep (L L' : BL_SocketLayer_API P O) (drops : List Int)
    (waiting : List (SocketPtr P)) (queued : Option (SocketPtr P)) : Prop where
  queue : awaited L'.eventQueue = waiting ++ queued.toList
  kept : ∀ sock, L.serves sock = true → sock.getFD ∉ drops → L'.serves sock = true
  gone : ∀ sock, sock.obj < L.next → sock.getFD ∈ drops → L'.serves sock = false
  same : ∀ sock ∈ queued, L'.serves sock = L.serves sock

/-- **A step leaves every waiting event its socket exactly if it gives up no descriptor
of one, and queues an event for a socket that is served.** -/
theorem QueueStep.live_iff {drops : List Int} {waiting : List (SocketPtr P)}
    {queued : Option (SocketPtr P)} (h : QueueStep L L' drops waiting queued) (hL : L.Live)
    (hn : L.Numbered) (hwaiting : ∀ sock ∈ waiting, sock ∈ awaited L.eventQueue) :
    L'.Live ↔ (∀ sock ∈ waiting, sock.getFD ∉ drops) ∧
      ∀ sock ∈ queued, L.serves sock = true := by
  rw [BL_SocketLayer_API.live_iff, h.queue]
  constructor
  · intro hlive
    refine ⟨fun sock hs hfd => ?_, fun sock hs => ?_⟩
    · obtain ⟨event, he, hw⟩ := List.mem_filterMap.mp (hwaiting sock hs)
      have hlt := hn.events event he sock (AsyncEvent.about_of_watched hw)
      exact nomatch (h.gone sock hlt hfd).symm.trans (hlive sock (List.mem_append_left _ hs))
    · rw [← h.same sock hs]
      exact hlive sock (List.mem_append_right _ (Option.mem_toList.mpr hs))
  · rintro ⟨hspared, hqueued⟩ sock hs
    rcases List.mem_append.mp hs with hs | hs
    · exact h.kept sock (BL_SocketLayer_API.live_iff.mp hL sock (hwaiting sock hs))
        (hspared sock hs)
    · have hs := Option.mem_toList.mp hs
      rw [h.same sock hs]
      exact hqueued sock hs

theorem QueueStep.of_kept {waiting : List (SocketPtr P)}
    (hqueue : awaited L'.eventQueue = waiting)
    (hkept : ∀ sock, L.serves sock = true → L'.serves sock = true) :
    QueueStep L L' [] waiting none where
  queue := by rw [hqueue, Option.toList_none, List.append_nil]
  kept sock hs _ := hkept sock hs
  gone _ _ hfd := nomatch hfd
  same _ hs := nomatch hs

theorem getFD_ne_of_serves {sock : SocketPtr P} {fd : Int} (h : L.serves sock = true)
    (hfree : L.owner fd = none) : sock.getFD ≠ fd := by
  intro hfd
  have howner := (serves_iff.mp h).2
  rw [hfd, hfree] at howner
  exact nomatch howner

theorem serves_openFd {fd : Int} {opener : Option P} (hfree : L.owner fd = none)
    {sock : SocketPtr P} (h : L.serves sock = true) : (L.openFd fd opener).serves sock = true := by
  have hne := getFD_ne_of_serves h hfree
  obtain ⟨hsock, howner⟩ := serves_iff.mp h
  refine serves_iff.mpr ⟨hsock, ?_⟩
  rw [owner_openFd, if_neg hne]
  exact howner

theorem serves_createDataSocket {c : Conn P} {sock : SocketPtr P} (hne : sock.getFD ≠ c.fd)
    (h : L.serves sock = true) : (L.createDataSocket c).serves sock = true := by
  obtain ⟨hsock, howner⟩ := serves_iff.mp h
  exact serves_iff.mpr ⟨(if_neg hne).trans hsock, howner⟩

/-- The sockets on the descriptors given up are no longer served, and all others as
before. -/
theorem QueueStep.of_serves {drops : List Int} {waiting : List (SocketPtr P)}
    (hqueue : awaited L'.eventQueue = waiting)
    (hserves : ∀ sock, L'.serves sock = (L.serves sock && sock.getFD ∉ drops)) :
    QueueStep L L' drops waiting none where
  queue := by rw [hqueue, Option.toList_none, List.append_nil]
  kept sock hs hfd := by rw [hserves, hs, decide_eq_true hfd, Bool.and_self]
  gone sock _ hfd := by
    rw [hserves, decide_eq_false (not_not_intro hfd), Bool.and_false]
  same _ hs := nomatch hs

/-- The descriptor a handler of layer 1 gives up. -/
def layerDrops (k : Answers) : AsyncEvent P O → List Int
  | .socketConnect fd => [fd]
  | .socketRecv sock => if seesClosed k.recv then [sock.getFD] else []
  | _ => []

theorem queueStep_layerStep {ar : Archive P O} {k : Answers} {event : AsyncEvent P O}
    (hs : LayerStep ar k L event L') :
    QueueStep L L' (layerDrops k event) (awaited L.eventQueue) none := by
  cases hs with
  | @connectError fd failed hfailed =>
      refine .of_serves (awaited_append fun event he => ?_) fun sock => ?_
      · obtain ⟨domain, rfl⟩ := hfailed event he
        rfl
      · exact serves_closeFd fd sock
  | @connected fd c hc =>
      have hfd : c.fd = fd := L.fd_of_owner hc
      refine ⟨?_, fun sock hs hne => ?_, fun sock hlt hmem => ?_, fun _ hs => nomatch hs⟩
      · rw [Option.toList_none, List.append_nil]
        refine awaited_append fun event he => ?_
        rw [List.mem_singleton.mp he]
        rfl
      · exact serves_createDataSocket (hfd ▸ fun h => hne (List.mem_singleton.mpr h)) hs
      · -- the descriptor now has the new socket
        refine Bool.eq_false_iff.mpr fun hserves => ?_
        have hnew :
            (if sock.getFD = c.fd then some (L.nextSocket c) else L.dataSockets sock.getFD) =
            some sock := (serves_iff.mp hserves).1
        rw [if_pos (by rw [hfd]; exact List.mem_singleton.mp hmem)] at hnew
        exact absurd (congrArg SocketPtr.obj (Option.some.inj hnew)) (Nat.ne_of_gt hlt)
  | connectFailed =>
      refine .of_kept (awaited_append fun event he => ?_) fun _ h => h
      rw [List.mem_singleton.mp he]
      rfl
  | @closed sock c L' _ hclosed hL _ =>
      have hdrops : layerDrops k (.socketRecv sock : AsyncEvent P O) = [sock.getFD] :=
        if_pos hclosed
      rw [hdrops, hL]
      refine .of_serves (awaited_append fun event he => ?_) fun s => ?_
      · rw [List.mem_singleton.mp he]
        rfl
      · exact serves_removeDataSocket sock.getFD s
  | @read sock c msgs remain L' _ hopen _ hL _ =>
      have hdrops : layerDrops k (.socketRecv sock : AsyncEvent P O) = [] := by
        unfold layerDrops
        rw [hopen]
        rfl
      rw [hdrops, hL]
      refine .of_kept (awaited_append fun event he => ?_) fun _ h => h
      obtain ⟨msg, -, rfl⟩ := List.mem_map.mp he
      unfold recvEvent
      split
      · rfl
      · rfl
  | written _ => exact .of_kept rfl fun _ h => h

end Served

end BL_SocketLayer_API

/-! ## The node -/

open BL_SocketLayer_API PeerManager

variable [LinearOrder P]

/-- The descriptor that is given up with a peer. -/
def Peer.drops (p : Peer P) : List Int :=
  if p.isTryConnect then [p.connSocket] else (p.dataSocket.map SocketPtr.getFD).toList

/-- The data socket an event is queued for. -/
def NodeAct.queued : NodeAct P O → Option (SocketPtr P)
  | .dataSocketIOCallback sock _ => some sock
  | _ => none

namespace BL_PeerConnectivityLayer_API

variable (N : BL_PeerConnectivityLayer_API P O)

/-- The descriptors that are given up with the silent peers of a list. -/
def silentDrops (l : List (P × Peer P)) : List Int :=
  (l.filter fun e => !e.2.isPongReceived).flatMap fun e => e.2.drops

/-- The descriptors an action gives up: closes them, or takes their data sockets out or
replaces them. -/
def drops : NodeAct P O → List Int
  | .disconnectPeer id => (N.peerManager.findPeer id).toList.flatMap Peer.drops
  | .pingtimerCallback _ => silentDrops N.peerManager.getPeers
  | .destroy sock => [sock.getFD]
  | .handleEvent k =>
      match N.socketLayer.eventQueue with
      | .peerRecvNotifyPeerId id (some sock) :: _ =>
          if (N.peerManager.findPeer id).any Peer.isActive ||
              N.peerManager.inPeerNum < MAX_INCOMINGPEER_NUM then []
          else [sock.getFD]
      | event :: _ => layerDrops k.toAnswers event
      | [] => []
  | _ => []

/-- The sockets that are still waited for when an action has taken its event. -/
def waiting : NodeAct P O → List (SocketPtr P)
  | .handleEvent _ => awaited N.socketLayer.eventQueue.tail
  | _ => awaited N.socketLayer.eventQueue

/-- An action gives up no descriptor that is waited for, and queues an event for no
socket but one that is served. -/
def spares (a : NodeAct P O) : Bool :=
  (N.waiting a).all (fun sock => sock.getFD ∉ N.drops a) &&
    a.queued.all N.socketLayer.serves

variable {N} {N' : BL_PeerConnectivityLayer_API P O} {ar : Archive P O} {ads : AddrAd P O}
  {a : NodeAct P O}

theorem serves_of_heap {L L' : BL_SocketLayer_API P O} (h : L' = { L with heap := L'.heap })
    (sock : SocketPtr P) : L'.serves sock = L.serves sock := by
  rw [h]
  rfl

theorem serves_disconnected {p : Peer P} (hd : Disconnected N p N') (sock : SocketPtr P) :
    N'.socketLayer.serves sock = (N.socketLayer.serves sock && sock.getFD ∉ p.drops) := by
  rcases releaseSocket_ok hd.socketLayer with ⟨htry, hL⟩ | ⟨htry, own, hown, hL⟩
  · have hdrops : p.drops = [p.connSocket] := if_pos htry
    rw [hL, hdrops]
    exact serves_closeFd p.connSocket sock
  · have hdrops : p.drops = [own.getFD] := by
      unfold Peer.drops Peer.isTryConnect
      rw [htry, hown]
      rfl
    rw [hL, hdrops]
    exact serves_removeDataSocket own.getFD sock

theorem queue_disconnected {p : Peer P} (hd : Disconnected N p N') :
    N'.socketLayer.eventQueue = N.socketLayer.eventQueue := by
  rcases releaseSocket_ok hd.socketLayer with ⟨-, hL⟩ | ⟨-, own, -, hL⟩
  · rw [hL]
    rfl
  · rw [hL]
    rfl

theorem queueStep_silent {M : BL_PeerConnectivityLayer_API P O}
    (h : disconnectSilent N.peerManager.getPeers N = .ok M) :
    QueueStep N.socketLayer M.socketLayer (silentDrops N.peerManager.getPeers)
      (awaited N.socketLayer.eventQueue) none := by
  have hwalk := disconnectSilent_walk (R := fun rest M =>
      M.socketLayer.eventQueue = N.socketLayer.eventQueue ∧
        ∀ sock, (M.socketLayer.serves sock && sock.getFD ∉ silentDrops rest) =
          (N.socketLayer.serves sock && sock.getFD ∉ silentDrops N.peerManager.getPeers))
    ?_ ?_ (fun e he => mem_getPeers.mp he) (getPeers_pairwise _) ⟨rfl, fun _ => rfl⟩ h
  · obtain ⟨hqueue, hserves⟩ := hwalk
    refine .of_serves (congrArg _ hqueue) fun sock => ?_
    rw [← hserves]
    exact (Bool.and_true _).symm
  · intro M p rest hpong ⟨hqueue, hserves⟩
    refine ⟨hqueue, fun sock => ?_⟩
    rw [← hserves]
    have hskip : silentDrops ((p.id, p) :: rest) = silentDrops rest := by
      unfold silentDrops Peer.isPongReceived
      rw [List.filter_cons, if_neg (by rw [hpong]; exact Bool.false_ne_true)]
    rw [hskip]
  · intro M M' p rest hpong ⟨hqueue, hserves⟩ _ hd
    refine ⟨(queue_disconnected hd).trans hqueue, fun sock => ?_⟩
    have htake : silentDrops ((p.id, p) :: rest) = p.drops ++ silentDrops rest := by
      unfold silentDrops Peer.isPongReceived
      rw [List.filter_cons, if_pos (by rw [hpong]; rfl), List.flatMap_cons]
    have hmem : decide (sock.getFD ∉ p.drops ++ silentDrops rest) =
        (decide (sock.getFD ∉ p.drops) && decide (sock.getFD ∉ silentDrops rest)) := by
      rw [← Bool.decide_and]
      exact decide_eq_decide.mpr (List.mem_append.not.trans not_or)
    rw [← hserves, htake, hmem, serves_disconnected hd, Bool.and_assoc]

/-- Of the events of layer 2 only a `notifyPeerId` can give up a descriptor. -/
theorem drops_of_event {k : PeerAnswers P} {event : AsyncEvent P O} {rest : List (AsyncEvent P O)}
    (hq : N.socketLayer.eventQueue = event :: rest)
    (hno : ∀ id sock, event ≠ .peerRecvNotifyPeerId id (some sock)) :
    N.drops (.handleEvent k : NodeAct P O) = layerDrops k.toAnswers event := by
  cases event with
  | peerRecvNotifyPeerId id sock =>
      cases sock with
      | none => simp only [drops, hq]
      | some sock => exact absurd rfl (hno id sock)
  | _ => simp only [drops, hq]

theorem drops_of_disconnect {id : P} {p : Peer P} (h : N.peerManager.findPeer id = some p) :
    N.drops (.disconnectPeer id : NodeAct P O) = p.drops := by
  show (N.peerManager.findPeer id).toList.flatMap Peer.drops = p.drops
  rw [h]
  exact List.append_nil _

theorem waiting_of_event {k : PeerAnswers P} {event : AsyncEvent P O} {rest : List (AsyncEvent P O)}
    (hq : N.socketLayer.eventQueue = event :: rest) :
    N.waiting (.handleEvent k : NodeAct P O) = awaited rest := by
  simp only [waiting, hq, List.tail_cons]

/-! ### Callbacks queue events -/

theorem queueStep_ready {event : AsyncEvent P O} (h : event.watched = none) :
    QueueStep N.socketLayer (N.pushAsyncEvent event).socketLayer []
      (awaited N.socketLayer.eventQueue) none := by
  refine .of_kept (awaited_append fun e he => ?_) fun _ h => h
  rw [List.mem_singleton.mp he]
  exact h

theorem queueStep_dataReady (sock : SocketPtr P) (readable : Bool) :
    QueueStep N.socketLayer
      (N.pushAsyncEvent (if readable then .socketRecv sock else .socketWrite sock)).socketLayer
      [] (awaited N.socketLayer.eventQueue) (some sock) := by
  refine ⟨?_, fun _ h _ => h, fun _ _ h => (nomatch h), fun _ _ => rfl⟩
  have hone : awaited [if readable then AsyncEvent.socketRecv sock else
      (.socketWrite sock : AsyncEvent P O)] = [sock] := by
    cases readable with
    | true => rfl
    | false => rfl
  have hqueue : awaited (N.pushAsyncEvent (if readable then .socketRecv sock else
      .socketWrite sock)).socketLayer.eventQueue = awaited (N.socketLayer.eventQueue ++ _) := rfl
  rw [hqueue]
  unfold awaited at hone ⊢
  rw [List.filterMap_append, hone]
  rfl

/-! ### Handlers of layer 2 -/

section Event

variable {k : PeerAnswers P} {event : AsyncEvent P O} {rest : List (AsyncEvent P O)}

/-- A handler gives up at most the descriptor of a peer beyond the limit. -/
theorem queueStep_eventStep (hq : N.socketLayer.eventQueue = event :: rest)
    (hs : EventStep ar k (N.popAsyncEvent rest) event N') :
    QueueStep N.socketLayer N'.socketLayer (N.drops (.handleEvent k : NodeAct P O))
      (awaited rest) none := by
  -- the handlers that give up nothing
  have hkeep : N.drops (.handleEvent k : NodeAct P O) = [] →
      awaited N'.socketLayer.eventQueue = awaited rest →
      (∀ sock, N.socketLayer.serves sock = true → N'.socketLayer.serves sock = true) →
      QueueStep N.socketLayer N'.socketLayer (N.drops (.handleEvent k : NodeAct P O))
        (awaited rest) none := by
    intro hdrops hqueue hkept
    rw [hdrops]
    exact .of_kept hqueue hkept
  cases hs with
  | attached _ =>
      refine hkeep (drops_of_event hq nofun) ?_ fun sock h => ?_
      · rw [attach_socketLayer]
        rfl
      · exact (serves_of_heap (attach_socketLayer _ _ _) sock).trans h
  | connectFailed _ _ _ => exact hkeep (drops_of_event hq nofun) rfl fun _ h => h
  | connectFailedIdle _ => exact hkeep (drops_of_event hq nofun) rfl fun _ h => h
  | closeUnknown => exact hkeep (drops_of_event hq nofun) rfl fun _ h => h
  | closed _ _ _ => exact hkeep (drops_of_event hq nofun) rfl fun _ h => h
  | recvMsg _ hlayer =>
      refine hkeep (drops_of_event hq nofun) ?_ fun sock h => ?_
      · rw [hlayer]
        rfl
      · exact (serves_of_heap hlayer sock).trans h
  | recvProtocolMsg =>
      refine hkeep (drops_of_event hq nofun) (awaited_append fun event he => ?_) fun _ h => h
      rw [List.mem_singleton.mp he]
      rfl
  | @notifyDuplicate id sock hact =>
      have hact' : (N.peerManager.findPeer id).any Peer.isActive = true := hact
      refine hkeep ?_ rfl fun _ h => h
      cases sock with
      | none => exact drops_of_event hq nofun
      | some sock => simp only [drops, hq, hact', Bool.true_or, if_true]
  | @notifyLimit id sock hact hlimit =>
      have hact' : (N.peerManager.findPeer id).any Peer.isActive = false := hact
      have hlimit' : ¬ N.peerManager.inPeerNum < MAX_INCOMINGPEER_NUM := Int.not_lt.mpr hlimit
      have hdrops : N.drops (.handleEvent k : NodeAct P O) = [sock.getFD] := by
        simp only [drops, hq, hact', hlimit', decide_false, Bool.or_self, Bool.false_eq_true,
          if_false]
      rw [hdrops]
      refine .of_serves rfl fun s => ?_
      exact serves_removeDataSocket sock.getFD s
  | @notifyAdded id sock hact hlimit =>
      have hlimit' : N.peerManager.inPeerNum < MAX_INCOMINGPEER_NUM := Int.not_le.mp hlimit
      refine hkeep ?_ rfl fun _ h => h
      cases sock with
      | none => exact drops_of_event hq nofun
      | some sock =>
          simp only [drops, hq, hlimit', decide_true, Bool.or_true, if_true]
  | protocol => exact hkeep (drops_of_event hq nofun) rfl fun _ h => h

end Event

/-- **What a step does to the sockets that are waited for.** -/
theorem queueStep_of_step (h : NodeStep ar N a N') :
    QueueStep N.socketLayer N'.socketLayer (N.drops a) (N.waiting a) a.queued := by
  cases h with
  | connectIdle _ => exact .of_kept rfl fun _ h => h
  | connectOpened _ hfree => exact .of_kept rfl fun _ h => serves_openFd hfree h
  | @disconnectAbsent id hnone =>
      have hdrops : N.drops (.disconnectPeer id) = [] := by
        show (N.peerManager.findPeer id).toList.flatMap Peer.drops = []
        rw [hnone]
        rfl
      rw [hdrops]
      exact .of_kept rfl fun _ h => h
  | disconnected hp hd =>
      rw [drops_of_disconnect hp]
      exact .of_serves (congrArg _ (queue_disconnected hd)) (serves_disconnected hd)
  | sent hw =>
      refine .of_kept ?_ fun sock h => (serves_of_heap hw.socketLayer sock).trans h
      rw [hw.socketLayer]
      rfl
  | listenReady => exact queueStep_ready rfl
  | connectReady => exact queueStep_ready rfl
  | @dataReady sock readable _ => exact queueStep_dataReady sock readable
  | @pinged k M N' hM _ hlayer =>
      have hstep := queueStep_silent hM
      refine ⟨?_, fun sock h h' => ?_, fun sock h h' => ?_, fun _ h => nomatch h⟩
      · rw [hlayer]
        exact hstep.queue
      · exact (serves_of_heap hlayer sock).trans (hstep.kept sock h h')
      · exact (serves_of_heap hlayer sock).trans (hstep.gone sock h h')
  | timerIdle _ => exact .of_kept rfl fun _ h => h
  | timerOpened _ _ hfree => exact .of_kept rfl fun _ h => serves_openFd hfree h
  | advertised _ hlayer =>
      refine .of_kept ?_ fun sock h => (serves_of_heap hlayer sock).trans h
      rw [hlayer]
      rfl
  | @destroyed sock _ _ =>
      refine .of_serves rfl fun s => ?_
      exact serves_closeFd sock.getFD s
  | accepted hq _ hfree =>
      rw [drops_of_event hq nofun, waiting_of_event hq]
      refine .of_kept ?_ fun sock h => ?_
      · show awaited N.socketLayer.eventQueue = _
        rw [hq]
        rfl
      · exact serves_createDataSocket (getFD_ne_of_serves h hfree) (serves_openFd hfree h)
  | acceptFailed hq _ =>
      rw [drops_of_event hq nofun, waiting_of_event hq]
      exact .of_kept rfl fun _ h => h
  | @layer1 k event rest L hq hl hne hstep =>
      have hs := queueStep_layerStep (BL_SocketLayer_API.switchAsyncEventHandler_ok _ hl hne hstep)
      have hdrops : N.drops (.handleEvent k : NodeAct P O) = layerDrops k.toAnswers event := by
        refine drops_of_event hq fun id sock he => ?_
        rw [he] at hl
        exact nomatch hl
      rw [hdrops, waiting_of_event hq]
      exact ⟨hs.queue, hs.kept, hs.gone, fun _ h => nomatch h⟩
  | layer2 hq hs =>
      rw [waiting_of_event hq]
      exact queueStep_eventStep hq hs

/-! ## Runs -/

/-- **Queued events never refer to a dead socket** in a run whose steps spare what is
waited for: every `SocketRecv` and `SocketWrite` in the queue finds the data socket
whose watcher queued it, on its own connection, and `WriteHandler`'s assertion stops no
node.  The next step keeps it so exactly if it spares what is waited for. -/
theorem live_of_spares {me : P} {o i : Int}
    (h : (nodeSys ar ads me o i).Under (fun N a => N.spares a = true) N) :
    N.socketLayer.Live ∧
      (∀ a, ¬ Aborts ar ads N a
        (.assertion "dataSocket not exist for given (write) event")) ∧
      ∀ a N', (nodeSys ar ads me o i).step N a N' →
        (N'.socketLayer.Live ↔ N.spares a = true) := by
  have hiff : ∀ {N N' : BL_PeerConnectivityLayer_API P O} {a : NodeAct P O},
      NodeStep ar N a N' → N.Numbered → N.socketLayer.Live →
      (N'.socketLayer.Live ↔ N.spares a = true) := by
    intro N N' a hs hn hlive
    have hwaiting : ∀ sock ∈ N.waiting a, sock ∈ awaited N.socketLayer.eventQueue := by
      cases a with
      | handleEvent k =>
          intro sock hs
          obtain ⟨event, he, hw⟩ := List.mem_filterMap.mp hs
          exact List.mem_filterMap.mpr ⟨event, List.mem_of_mem_tail he, hw⟩
      | _ => exact fun _ h => h
    rw [(queueStep_of_step hs).live_iff hlive hn.socketLayer hwaiting]
    unfold spares
    rw [Bool.and_eq_true, List.all_eq_true]
    refine and_congr (forall₂_congr fun sock _ => decide_eq_true_iff.symm) ?_
    cases a.queued with
    | none => exact iff_of_true (fun _ h => nomatch h) rfl
    | some sock => exact ⟨fun h => h sock rfl, fun h s hs => Option.some.inj hs ▸ h⟩
  have hinv : N.Numbered ∧ N.socketLayer.Live := by
    refine h.invariant (P := fun N => N.Numbered ∧ N.socketLayer.Live) ?_ ?_
    · rintro N rfl
      exact ⟨numbered_init me o i,
        fun _ h => nomatch h⟩
    · intro N a N' _ ⟨hn, hlive⟩ hc hs
      exact ⟨hn.step (step_cases hs), (hiff (step_cases hs) hn hlive).mpr hc⟩
  refine ⟨hinv.2, fun a ha => ?_, fun a N' hs => hiff (step_cases hs) hinv.1 hinv.2⟩
  obtain ⟨sock, rest, hq, hnone⟩ := aborts_ofWrite ha
  have hmem : (.socketWrite sock : AsyncEvent P O) ∈ N.socketLayer.eventQueue := by
    rw [hq]
    exact List.mem_cons_self
  have hserves := hinv.2 _ hmem sock rfl
  exact nomatch hnone.symm.trans (serves_iff.mp hserves).1

end BL_PeerConnectivityLayer_API

open BL_PeerConnectivityLayer_API

/-! ## Events that outlive their sockets -/

/-- A message for node 9 is written, and node 9 disconnected. -/
def writesThenDrops : List (NodeAct Nat (List Nat)) :=
  metPeer ++
    [.sendMsgToPeer 9 (.make 0 9 "PING" ""), .dataSocketIOCallback firstSock false,
      .dataSocketIOCallback firstSock true, .handleEvent { send := [8, 4, 5] },
      .handleEvent { recv := [.again] }, .disconnectPeer 9]

theorem live_of_spares_writesThenDrops :
    ∃ N, nodeRun byteArchive listAddrAd 0 0 0 spares writesThenDrops = some N ∧
      N.socketLayer.getDataSocket 5 = none ∧ N.socketLayer.Live := by
  have hrun : (nodeRun byteArchive listAddrAd 0 0 0 spares writesThenDrops).any
      (fun N : BL_PeerConnectivityLayer_API Nat (List Nat) =>
        decide (N.socketLayer.getDataSocket 5 = none)) = true := by decide +kernel
  obtain ⟨N, hN, hu, hsock⟩ := nodeRun_any hrun
  exact ⟨N, hN, of_decide_eq_true hsock, (live_of_spares hu).1⟩

/-- Node 9 is disconnected while its data socket waits to be written: `WriteHandler`
stops the node.  It is disconnected while its data socket waits to be read and somebody
else to be accepted, on the same descriptor: the event reads from the new connection. -/
theorem event_outlives_socket :
    (∃ N, nodeRun byteArchive listAddrAd 0 0 0 (fun _ _ => true)
        (metPeer ++ [.sendMsgToPeer 9 (.make 0 9 "PING" ""), .dataSocketIOCallback firstSock false,
          .disconnectPeer 9, .destroy firstSock]) = some N ∧
      (nodeSys byteArchive listAddrAd 0 0 0).Reach N ∧
      Aborts byteArchive listAddrAd N (.handleEvent {})
        (.assertion "dataSocket not exist for given (write) event")) ∧
    ∃ N, nodeRun byteArchive listAddrAd 0 0 0 (fun _ _ => true)
        (metPeer ++ [.listenSocketIOCallback, .dataSocketIOCallback firstSock true,
          .disconnectPeer 9, .destroy firstSock, .handleEvent { accepted := [5] },
          .handleEvent {}]) = some N ∧
      (nodeSys byteArchive listAddrAd 0 0 0).Reach N ∧
      N.socketLayer.eventQueue = [.socketRecv firstSock] ∧
      N.socketLayer.owner 5 = some secondSock.conn := by
  refine ⟨aborts_of_nodeRun ?_, ?_⟩
  · decide +kernel
  have hrun : (nodeRun byteArchive listAddrAd 0 0 0 (fun _ _ => true)
      (metPeer ++ [.listenSocketIOCallback, .dataSocketIOCallback firstSock true,
        .disconnectPeer 9, .destroy firstSock, .handleEvent { accepted := [5] },
        .handleEvent {}])).any
      (fun N : BL_PeerConnectivityLayer_API Nat (List Nat) => decide
        (N.socketLayer.eventQueue = [.socketRecv firstSock] ∧
          N.socketLayer.owner 5 = some secondSock.conn)) = true := by
    decide +kernel
  obtain ⟨N, hN, hu, ht⟩ := nodeRun_any hrun
  exact ⟨N, hN, hu.reach, of_decide_eq_true ht⟩

end Bleep
