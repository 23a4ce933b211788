/-
# `Bleep.BL2.ConnectEvents` — which peer gets a connected socket

A `PeerSocketConnect` carries the data socket of a connection that was made, and
`SocketConnectHandler` looks for the peer by a number: the first one in the table whose
connect socket had the descriptor of the data socket.  The number is not set for an
incoming peer, not reset when a connect fails, and used again; and an entry may be
replaced while its connect is under way.

The data socket itself is new: nobody has it before its event is handled
(`Unclaimed`).  So whoever gets it is changed, and the right peer gets it exactly if it
is still waiting for this connection and no peer with a smaller id remembers the same
number (`attaches_iff`).
-/
import Bleep.BL2.Numbers

namespace Bleep

variable {P O : Type}

/-- The data socket of a `PeerSocketConnect`. -/
def AsyncEvent.connects : AsyncEvent P O → Option (SocketPtr P)
  | .peerSocketConnect sock => sock
  | _ => none

theorem AsyncEvent.about_of_socket {event : AsyncEvent P O} {sock : SocketPtr P}
    (h : event.socket = some sock) : event.about = some sock := by
  cases event with
  | socketRecv s => exact nomatch h
  | socketWrite s => exact nomatch h
  | _ => exact h

variable [LinearOrder P]

open BL_SocketLayer_API PeerManager

namespace BL_PeerConnectivityLayer_API

/-- A data socket whose `PeerSocketConnect` is queued belongs to no peer, and to no event
in front of it. -/
structure Unclaimed (N : BL_PeerConnectivityLayer_API P O) : Prop where
  queue : N.socketLayer.eventQueue.Pairwise fun e e' => ∀ sock ∈ e'.connects, e.socket ≠ some sock
  peers : ∀ event ∈ N.socketLayer.eventQueue, ∀ sock ∈ event.connects, ¬ N.peerManager.Holds sock

variable {ar : Archive P O} {ads : AddrAd P O} {N N' : BL_PeerConnectivityLayer_API P O}
  {a : NodeAct P O}

/-- Other events are queued, and peers get data sockets that are not queued. -/
theorem Unclaimed.append (h : N.Unclaimed) (more : List (AsyncEvent P O))
    (hqueue : N'.socketLayer.eventQueue = N.socketLayer.eventQueue ++ more)
    (hmore : ∀ event ∈ more, event.connects = none)
    (hpeers : ∀ sock, N'.peerManager.Holds sock → N.peerManager.Holds sock ∨
      ∀ event ∈ N.socketLayer.eventQueue, event.connects ≠ some sock) : N'.Unclaimed where
  queue := by
    rw [hqueue]
    refine List.pairwise_append.mpr ⟨h.queue, ?_, ?_⟩
    · refine List.pairwise_of_forall_mem_list fun e _ e' he' sock hs => ?_
      exact nomatch (hmore e' he').symm.trans hs
    · intro e _ e' he' sock hs
      exact nomatch (hmore e' he').symm.trans hs
  peers event he sock hs hholds := by
    rw [hqueue] at he
    rcases List.mem_append.mp he with he | he
    · rcases hpeers sock hholds with hold | hnot
      · exact h.peers event he sock hs hold
      · exact hnot event he hs
    · exact nomatch (hmore event he).symm.trans hs

theorem Unclaimed.keep (h : N.Unclaimed)
    (hqueue : N'.socketLayer.eventQueue = N.socketLayer.eventQueue)
    (hpeers : ∀ sock, N'.peerManager.Holds sock → N.peerManager.Holds sock) : N'.Unclaimed :=
  h.append [] (hqueue.trans (List.append_nil _).symm) (fun _ h => nomatch h)
    fun sock hs => .inl (hpeers sock hs)

/-- The event of a connected socket is queued behind events that are not about it. -/
theorem Unclaimed.connect (h : N.Unclaimed) (hn : N.Numbered) {sock : SocketPtr P}
    (hnew : N.socketLayer.next ≤ sock.obj)
    (hqueue : N'.socketLayer.eventQueue =
      N.socketLayer.eventQueue ++ [.peerSocketConnect (some sock)])
    (hpeers : N'.peerManager = N.peerManager) : N'.Unclaimed where
  queue := by
    rw [hqueue]
    refine List.pairwise_append.mpr ⟨h.queue, List.pairwise_singleton _ _, ?_⟩
    intro e he e' he' s hs hsame
    obtain rfl := List.mem_singleton.mp he'
    obtain rfl := Option.some.inj hs
    have hlt := hn.socketLayer.events e he sock (AsyncEvent.about_of_socket hsame)
    exact absurd hlt (Nat.not_lt.mpr hnew)
  peers event he s hs hholds := by
    rw [hqueue] at he
    rw [hpeers] at hholds
    rcases List.mem_append.mp he with he | he
    · exact h.peers event he s hs hholds
    · obtain rfl := List.mem_singleton.mp he
      obtain rfl := Option.some.inj hs
      exact absurd (hn.peers sock hholds) (Nat.not_lt.mpr hnew)

theorem Unclaimed.pop (h : N.Unclaimed) {event : AsyncEvent P O} {rest : List (AsyncEvent P O)}
    (hq : N.socketLayer.eventQueue = event :: rest) : (N.popAsyncEvent rest).Unclaimed ∧
      ∀ e ∈ rest, ∀ sock ∈ e.connects, event.socket ≠ some sock := by
  have hqueue := h.queue
  rw [hq] at hqueue
  obtain ⟨hfront, hrest⟩ := List.pairwise_cons.mp hqueue
  refine ⟨⟨hrest, fun e he => h.peers e ?_⟩, hfront⟩
  rw [hq]
  exact List.mem_cons_of_mem _ he

theorem Unclaimed.disconnected (h : N.Unclaimed) {p : Peer P} (hd : Disconnected N p N') :
    N'.Unclaimed := by
  refine h.keep ?_ fun sock hs => ?_
  · rcases releaseSocket_ok hd.socketLayer with ⟨-, hL⟩ | ⟨-, own, -, hL⟩
    · rw [hL]
      rfl
    · rw [hL]
      rfl
  · rw [hd.peerManager] at hs
    exact holds_dropPeer hs

theorem Unclaimed.eventStep {k : PeerAnswers P} {event : AsyncEvent P O} (h : N.Unclaimed)
    (hfront : ∀ e ∈ N.socketLayer.eventQueue, ∀ sock ∈ e.connects, event.socket ≠ some sock)
    (hs : EventStep ar k N event N') : N'.Unclaimed := by
  -- the peer that is stored has the socket of the event
  have hstore : ∀ {m' : PeerManager P} {p : Peer P},
      (∀ sock, m'.Holds sock → N.peerManager.Holds sock ∨ p.dataSocket = some sock) →
      p.dataSocket = event.socket → ∀ sock, m'.Holds sock → N.peerManager.Holds sock ∨
        ∀ e ∈ N.socketLayer.eventQueue, e.connects ≠ some sock := by
    intro m' p hm' hp sock hs
    rcases hm' sock hs with hold | hnew
    · exact .inl hold
    · exact .inr fun e he hc => hfront e he sock hc (hp.symm.trans hnew)
  cases hs with
  | @attached sock x p hfind =>
      refine h.append [] ?_ (fun _ h => nomatch h) ?_
      · rw [attach_socketLayer, List.append_nil]
      · rw [attach_peerManager]
        exact hstore (fun _ => holds_setPeer) rfl
  | @connectFailed d p hp hno _ =>
      refine h.keep rfl fun sock hs => ?_
      rcases holds_setPeer hs with hold | hnew
      · exact hold
      · exact ⟨d, p, hp, hnew⟩
  | connectFailedIdle _ => exact h
  | closeUnknown => exact h
  | closed _ _ _ => exact h.keep rfl fun _ => holds_dropPeer
  | recvMsg hpeers hlayer =>
      refine h.keep ?_ fun _ => hpeers.holds
      rw [hlayer]
  | recvProtocolMsg =>
      refine h.append _ rfl (fun e he => ?_) fun _ hs => .inl hs
      rw [List.mem_singleton.mp he]
      rfl
  | notifyDuplicate _ => exact h
  | notifyLimit _ _ => exact h.keep rfl fun _ hs => hs
  | notifyAdded _ _ =>
      refine h.append [] (List.append_nil _).symm (fun _ h => nomatch h) ?_
      exact hstore (p := .incoming _ _ _) (fun _ => holds_addPeer) rfl
  | protocol => exact h

theorem Unclaimed.step (h : N.Unclaimed) (hn : N.Numbered) (hs : NodeStep ar N a N') :
    N'.Unclaimed := by
  have hopened : ∀ id fd, (N.opened id fd).Unclaimed := by
    intro id fd
    refine h.keep rfl fun sock hs => ?_
    rcases holds_addPeer hs with hold | hnew
    · exact hold
    · exact nomatch hnew
  have hpush : ∀ {event : AsyncEvent P O}, event.connects = none →
      (N.pushAsyncEvent event).Unclaimed := by
    intro event hevent
    refine h.append _ rfl (fun e he => ?_) fun _ hs => .inl hs
    rw [List.mem_singleton.mp he]
    exact hevent
  cases hs with
  | connectIdle _ => exact h
  | connectOpened _ _ => exact hopened _ _
  | disconnectAbsent _ => exact h
  | disconnected _ hd => exact h.disconnected hd
  | sent hw =>
      refine h.keep ?_ fun sock hs => ?_
      · rw [hw.socketLayer]
      · rw [hw.peerManager] at hs
        exact hs
  | listenReady => exact hpush rfl
  | connectReady => exact hpush rfl
  | @dataReady sock readable _ =>
      cases readable with
      | true => exact hpush rfl
      | false => exact hpush rfl
  | @pinged k M N' hM hpeers hlayer =>
      have hMu : M.Unclaimed := disconnectSilent_rule (R := fun M => M.Unclaimed)
        (fun _ _ _ _ _ hM _ hd => hM.disconnected hd) (fun e he => mem_getPeers.mp he)
        (getPeers_pairwise _) h hM
      refine hMu.keep ?_ fun _ => hpeers.holds
      rw [hlayer]
  | timerIdle _ => exact h
  | timerOpened _ _ _ => exact hopened _ _
  | advertised hp hlayer =>
      refine h.keep ?_ fun sock hs => ?_
      · rw [hlayer]
      · rw [hp] at hs
        exact hs
  | destroyed _ _ => exact h.keep rfl fun _ hs => hs
  | accepted _ _ _ => exact h.keep rfl fun _ hs => hs
  | acceptFailed hq _ => exact (h.pop hq).1
  | @layer1 k event rest L hq hl hne hstep =>
      obtain ⟨hpop, -⟩ := h.pop hq
      cases BL_SocketLayer_API.switchAsyncEventHandler_ok _ hl hne hstep with
      | connectError hfailed =>
          refine hpop.append _ rfl (fun e he => ?_) fun _ hs => .inl hs
          obtain ⟨domain, rfl⟩ := hfailed e he
          rfl
      | connected _ => exact hpop.connect (hn.popAsyncEvent hq) (Nat.le_refl _) rfl rfl
      | connectFailed =>
          refine hpop.append _ rfl (fun e he => ?_) fun _ hs => .inl hs
          rw [List.mem_singleton.mp he]
          rfl
      | closed _ _ hL _ =>
          refine hpop.append _ (congrArg _ hL) (fun e he => ?_) fun _ hs => .inl hs
          rw [List.mem_singleton.mp he]
          rfl
      | read _ _ _ hL _ =>
          refine hpop.append _ (congrArg _ hL) (fun e he => ?_) fun _ hs => .inl hs
          obtain ⟨msg, -, rfl⟩ := List.mem_map.mp he
          unfold recvEvent
          split
          · rfl
          · rfl
      | written _ => exact hpop.keep rfl fun _ hs => hs
  | layer2 hq hs =>
      obtain ⟨hpop, hfront⟩ := h.pop hq
      exact hpop.eventStep hfront hs

/-- **Nobody has a data socket before its `PeerSocketConnect` is handled.** -/
theorem unclaimed_of_reach {me : P} {o i : Int} (h : (nodeSys ar ads me o i).Reach N) :
    N.Unclaimed := by
  refine h.invariant (P := Unclaimed) ?_ ?_
  · rintro N rfl
    exact ⟨.nil, fun _ h => nomatch h⟩
  · intro N a N' hr hN _ hs
    exact hN.step (numbered_of_reach hr) (step_cases hs)

/-! ## The handling of the event -/

/-- The peer `q` is being connected to, on the connection of the data socket. -/
def awaits (N : BL_PeerConnectivityLayer_API P O) (q : P) (sock : SocketPtr P) : Bool :=
  (N.peerManager.findPeer q).any fun p => p.isTryConnect && p.conn = some sock.conn

/-- No peer with a smaller id than `q` remembers the descriptor of the data socket. -/
def foremost (N : BL_PeerConnectivityLayer_API P O) (q : P) (sock : SocketPtr P) : Bool :=
  N.peerManager.getPeers.all fun e => q ≤ e.1 || e.2.getConnSocket ≠ sock.getFD

/-- The event in front, the `PeerSocketConnect` of a data socket, is handled: if `q` waits
for the socket it gets it, and no other entry of the table changes. -/
def Attaches (ar : Archive P O) (ads : AddrAd P O) (N : BL_PeerConnectivityLayer_API P O)
    (k : PeerAnswers P) (q : P) (sock : SocketPtr P) : Prop :=
  ∃ N', N.act ar ads (.handleEvent k) = some (.ok N') ∧
    ∀ x, N'.peerManager.findPeer x =
      if x = q ∧ N.awaits q sock = true then
        (N.peerManager.findPeer x).map fun p => p.clearTryConnect.setDataSocket (some sock)
      else N.peerManager.findPeer x

theorem find_connSocket_iff {fd : Int} {x : P} {p : Peer P} :
    N.peerManager.getPeers.find? (fun e => e.2.getConnSocket = fd) = some (x, p) ↔
      N.peerManager.findPeer x = some p ∧ p.connSocket = fd ∧
        ∀ y q, y < x → N.peerManager.findPeer y = some q → q.connSocket ≠ fd := by
  refine OrderedMap.find?_eq_some_iff.trans (and_congr Iff.rfl (and_congr decide_eq_true_iff ?_))
  exact forall₄_congr fun y q _ _ => decide_eq_false_iff_not

theorem foremost_iff {q : P} {sock : SocketPtr P} : N.foremost q sock = true ↔
    ∀ y p, y < q → N.peerManager.findPeer y = some p → p.connSocket ≠ sock.getFD := by
  unfold foremost
  rw [List.all_eq_true]
  constructor
  · intro h y p hlt hp
    have hy := h (y, p) (mem_getPeers.mpr hp)
    rw [Bool.or_eq_true, decide_eq_true_iff, decide_eq_true_iff] at hy
    exact hy.resolve_left (not_le.mpr hlt)
  · rintro h ⟨y, p⟩ he
    rw [Bool.or_eq_true, decide_eq_true_iff, decide_eq_true_iff]
    rcases lt_or_ge y q with hlt | hge
    · exact .inr (h y p hlt (mem_getPeers.mp he))
    · exact .inl hge

theorem awaits_iff {q : P} {sock : SocketPtr P} : N.awaits q sock = true ↔
    ∃ p, N.peerManager.findPeer q = some p ∧ p.tryConnect = true ∧ p.conn = some sock.conn := by
  unfold awaits
  rw [Option.any_eq_true]
  refine exists_congr fun p => and_congr Iff.rfl ?_
  rw [Bool.and_eq_true, decide_eq_true_iff]
  exact Iff.rfl

/-- What the step does: it hands the data socket to the first peer with the number. -/
theorem act_connectEvent {k : PeerAnswers P} {sock : SocketPtr P} {rest : List (AsyncEvent P O)}
    (hsettled : N.settled = true)
    (hq : N.socketLayer.eventQueue = .peerSocketConnect (some sock) :: rest) :
    N.act ar ads (.handleEvent k) = some
      (match N.peerManager.getPeers.find? fun e => e.2.getConnSocket = sock.getFD with
        | none => .error (.assertion "no proper peer exists for connected outgoing socket")
        | some (_, p) => .ok ((N.popAsyncEvent rest).attach ar k p sock)) := by
  simp only [act, hsettled, if_true, move, handleNext, hq]
  rfl

/-- **Which peer gets a connected socket.**  In every state a node reaches, when the
`PeerSocketConnect` of a socket that was opened for `q` is handled, the right thing
happens exactly if `q` still waits for the socket and no peer with a smaller id remembers
its descriptor. -/
theorem attaches_iff {me : P} {o i : Int} (h : (nodeSys ar ads me o i).Reach N)
    (hsettled : N.settled = true) {sock : SocketPtr P} {rest : List (AsyncEvent P O)}
    (hq : N.socketLayer.eventQueue = .peerSocketConnect (some sock) :: rest) (k : PeerAnswers P) :
    ∀ q ∈ sock.conn.opener,
      (Attaches ar ads N k q sock ↔ N.awaits q sock = true ∧ N.foremost q sock = true) := by
  intro q _
  have hfree : ¬ N.peerManager.Holds sock := by
    refine (unclaimed_of_reach h).peers (.peerSocketConnect (some sock)) ?_ sock rfl
    rw [hq]
    exact List.mem_cons_self
  -- the table after the step
  have htable : ∀ {p : Peer P} (x : P),
      ((N.popAsyncEvent rest).attach ar k p sock).peerManager.findPeer x =
      if x = p.id then some (p.clearTryConnect.setDataSocket (some sock))
      else N.peerManager.findPeer x := by
    intro p x
    rw [attach_peerManager, findPeer_setPeer]
    rfl
  unfold Attaches
  rw [act_connectEvent hsettled hq]
  constructor
  · rintro ⟨N', hN', hright⟩
    split at hN'
    · exact nomatch hN'
    · next x p hfind =>
        obtain rfl := Except.ok.inj (Option.some.inj hN')
        obtain ⟨hp, hfd, hfirst⟩ := find_connSocket_iff.mp hfind
        have hid := id_of_findPeer hp
        have hx := hright x
        rw [htable, if_pos hid.symm] at hx
        split at hx
        · next hqx =>
            obtain ⟨rfl, hawaits⟩ := hqx
            exact ⟨hawaits, foremost_iff.mpr hfirst⟩
        · -- the peer that got the socket is not to change, but nobody had it
          exact absurd ⟨x, _, hx.symm, rfl⟩ hfree
  · rintro ⟨hawaits, hfirst⟩
    obtain ⟨p, hp, htry, hconn⟩ := awaits_iff.mp hawaits
    have hfind := find_connSocket_iff.mpr ⟨hp, p.connected _ hconn, foremost_iff.mp hfirst⟩
    have hfind' : N.peerManager.getPeers.find? (fun e => e.2.getConnSocket = sock.getFD) =
        some (q, p) := hfind
    rw [hfind']
    refine ⟨_, rfl, fun x => ?_⟩
    rw [htable, id_of_findPeer hp]
    by_cases hx : x = q
    · subst hx
      rw [if_pos rfl, if_pos ⟨rfl, hawaits⟩, hp, Option.map_some]
    · rw [if_neg hx, if_neg fun h => hx h.1]

end BL_PeerConnectivityLayer_API

open BL_PeerConnectivityLayer_API

/-! ## Peers that get nothing, or what is not theirs -/

/-- The data socket of the first connection a node has, if it is opened for node 7 on
descriptor 5. -/
def openedSock : SocketPtr Nat := ⟨1, ⟨0, 5, some 7⟩⟩

/-- Node 7 is connected, and its event is in front. -/
def connectsTo7 : List (NodeAct Nat (List Nat)) :=
  [.connectPeer 7 (.inProgress 5), .connectSocketIOCallback 5, .handleEvent {}]

theorem attaches_iff_connectsTo7 :
    ∃ N, nodeRun byteArchive listAddrAd 0 0 0 (fun _ _ => true) connectsTo7 = some N ∧
      Attaches byteArchive listAddrAd N {} 7 openedSock := by
  have hrun : (nodeRun byteArchive listAddrAd 0 0 0 (fun _ _ => true) connectsTo7).any
      (fun N : BL_PeerConnectivityLayer_API Nat (List Nat) => decide (N.settled = true ∧
        N.socketLayer.eventQueue = [.peerSocketConnect (some openedSock)] ∧
        N.awaits 7 openedSock = true ∧ N.foremost 7 openedSock = true)) = true := by
    decide +kernel
  obtain ⟨N, hN, hu, ht⟩ := nodeRun_any hrun
  obtain ⟨hsettled, hq, hright⟩ := of_decide_eq_true ht
  exact ⟨N, hN, (attaches_iff hu.reach hsettled hq {} 7 rfl).mpr hright⟩

/-- Node 7 connects to node 0 while node 0 connects to it: its entry is replaced, and the
connected socket stops the node.  After a failed connect to node 3 the connected socket
of node 7, on the same descriptor, goes to node 3. -/
theorem connect_goes_astray :
    (∃ N, nodeRun byteArchive listAddrAd 0 0 0 (fun _ _ => true)
        (.connectPeer 7 (.inProgress 5) :: acceptOn 6 ++
          [.dataSocketIOCallback ⟨2, ⟨1, 6, none⟩⟩ true,
            .handleEvent (readsMsg 7 "notifyPeerId" []),
            .handleEvent {}, .connectSocketIOCallback 5, .handleEvent {}]) = some N ∧
      (nodeSys byteArchive listAddrAd 0 0 0).Reach N ∧
      Aborts byteArchive listAddrAd N (.handleEvent {})
        (.assertion "no proper peer exists for connected outgoing socket")) ∧
    ∃ N, nodeRun byteArchive listAddrAd 0 0 0 (fun _ _ => true)
        ([.connectPeer 3 (.inProgress 5), .connectSocketIOCallback 5, .handleEvent { err := true },
          .handleEvent {}, .handleEvent {}] ++ connectsTo7) = some N ∧
      (nodeSys byteArchive listAddrAd 0 0 0).Reach N ∧
      ∃ N', N.act byteArchive listAddrAd (.handleEvent {}) = some (.ok N') ∧
        N'.getNeighborPeerIds = [3] := by
  refine ⟨aborts_of_nodeRun ?_, ?_⟩
  · decide +kernel
  have hrun : ((nodeRun byteArchive listAddrAd 0 0 0 (fun _ _ => true)
      ([.connectPeer 3 (.inProgress 5), .connectSocketIOCallback 5, .handleEvent { err := true },
        .handleEvent {}, .handleEvent {}] ++ connectsTo7)).any
      fun N : BL_PeerConnectivityLayer_API Nat (List Nat) =>
        ((NodeAct.handleEvent {} : NodeAct Nat (List Nat)).next byteArchive listAddrAd N).any
          fun N' => decide (N'.getNeighborPeerIds = [3])) = true := by
    decide +kernel
  obtain ⟨N, hN, hu, ht⟩ := nodeRun_any hrun
  obtain ⟨N', hN', ht⟩ := (Option.any_eq_true _ _).mp ht
  have hstep : (nodeSys byteArchive listAddrAd 0 0 0).step N (.handleEvent {}) N' :=
    NodeAct.step_of_next hN'
  exact ⟨N, hN, hu.reach, N', hstep, of_decide_eq_true ht⟩

end Bleep
