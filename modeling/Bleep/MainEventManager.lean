/-
# `Bleep.MainEventManager` — the loops of `Wait`

`Wait` handles the events in front of the queue whose type is at most
`_internalHandleEventEnum`, lets libev run the watchers and timers once when the queue is
empty, and returns when an event of a larger type is in front, or after the timeout.  The
queue itself is kept with the layer of sockets.

In all three layers a handler posts events of larger types only, layer by layer: a
`SocketRecv` leads to a `PeerRecvMsg`, and that to a `ProtocolRecvMsg`, whose handler
sends messages but posts nothing (`posts_later`).  So handling ends, and `Wait` gets back
to libev or returns, unless connections are accepted without end (`wait_recurs`).

The protocol layer is one whose timers post nothing, as `BL_ProtocolLayerEx1`.  The mining
timer of `BL_ProtocolLayerPoW` posts `EmuBlockMiningComplete`, of which the queue here
knows nothing.
-/
import Bleep.Lib.EventLoop
import Bleep.Stack.OverSockets

namespace Bleep

/-! ## The types of events -/

/-- `AsyncEventEnum`. -/
inductive AsyncEventEnum where
  | Base
  | Layer1_Event_Start
  | SocketAccept
  | SocketConnect
  | SocketConnectFailed
  | SocketRecv
  | SocketWrite
  | Layer1_Event_End
  | Layer2_Event_Start
  | BitcoinRecvMsg
  | PeerSocketConnect
  | PeerSocketConnectFailed
  | PeerSocketClose
  | PeerRecvMsg
  | PeerRecvNotifyPeerId
  | Layer2_Event_End
  | Layer3_Event_Start
  | ProtocolRecvMsg
  | EmuBlockMiningComplete
  | Layer3_Event_End
  | UnitTest_Event_Start
  | FinishTest
  | UnitTest_Event_End
  | Layer5_Event_END
  | AllEvent
  deriving DecidableEq

/-- The number of an enumerator. -/
def AsyncEventEnum.num (type : AsyncEventEnum) : Nat := type.ctorIdx

variable {P O : Type}

/-- `GetType`. -/
def AsyncEvent.getType : AsyncEvent P O → AsyncEventEnum
  | .socketAccept => .SocketAccept
  | .socketConnect _ => .SocketConnect
  | .socketConnectFailed _ _ => .SocketConnectFailed
  | .socketRecv _ => .SocketRecv
  | .socketWrite _ => .SocketWrite
  | .peerSocketConnect _ => .PeerSocketConnect
  | .peerSocketConnectFailed _ => .PeerSocketConnectFailed
  | .peerSocketClose _ => .PeerSocketClose
  | .peerRecvMsg _ _ => .PeerRecvMsg
  | .peerRecvNotifyPeerId _ _ => .PeerRecvNotifyPeerId
  | .protocolRecvMsg _ => .ProtocolRecvMsg

theorem AsyncEvent.isLayer1_iff (event : AsyncEvent P O) : event.isLayer1 = true ↔
    AsyncEventEnum.Layer1_Event_Start.num ≤ event.getType.num ∧
      event.getType.num ≤ AsyncEventEnum.Layer1_Event_End.num := by
  cases event <;> simp only [isLayer1, getType] <;> decide

/-- Later types have smaller ranks. -/
def AsyncEvent.rank (event : AsyncEvent P O) : Nat :=
  AsyncEventEnum.AllEvent.num - event.getType.num

theorem AsyncEvent.rank_lt {e event : AsyncEvent P O} (h : event.getType.num < e.getType.num) :
    e.rank < event.rank := by
  have hall : e.getType.num < AsyncEventEnum.AllEvent.num := by
    cases e <;> simp only [getType] <;> decide
  unfold rank
  omega

/-! ## What handlers post -/

namespace BL_PeerConnectivityLayer_API

open BL_SocketLayer_API

theorem recvEvent_later (sock : Option (SocketPtr P)) (msg : Message P O) :
    AsyncEventEnum.SocketRecv.num < (recvEvent sock msg).getType.num := by
  unfold recvEvent
  split <;> simp only [AsyncEvent.getType] <;> decide

theorem single_later {event posted : AsyncEvent P O}
    (h : event.getType.num < posted.getType.num) :
    ∀ e ∈ [posted], event.getType.num < e.getType.num := by
  intro e he
  rwa [List.mem_singleton.mp he]

theorem layerStep_posts {ar : Archive P O} {k : Answers} {event : AsyncEvent P O}
    {L L' : BL_SocketLayer_API P O} (h : LayerStep ar k L event L') :
    ∃ posted, L'.eventQueue = L.eventQueue ++ posted ∧
      ∀ e ∈ posted, event.getType.num < e.getType.num := by
  cases h with
  | @connectError fd failed hfailed =>
      refine ⟨failed, rfl, fun e he => ?_⟩
      obtain ⟨domain, rfl⟩ := hfailed e he
      exact (by decide : 3 < 4)
  | connected _ => exact ⟨_, rfl, single_later (by decide : 3 < 10)⟩
  | connectFailed => exact ⟨_, rfl, single_later (by decide : 4 < 11)⟩
  | closed _ _ hL _ =>
      rw [hL]
      exact ⟨_, rfl, single_later (by decide : 5 < 12)⟩
  | read _ _ _ hL _ =>
      rw [hL]
      refine ⟨_, rfl, fun e he => ?_⟩
      obtain ⟨msg, -, rfl⟩ := List.mem_map.mp he
      exact recvEvent_later _ msg
  | written _ => exact ⟨[], (List.append_nil _).symm, fun e he => absurd he List.not_mem_nil⟩

variable [LinearOrder P] {ar : Archive P O} {ads : AddrAd P O}
  {N N' : BL_PeerConnectivityLayer_API P O}

theorem eventStep_posts {k : PeerAnswers P} {event : AsyncEvent P O}
    (h : EventStep ar k N event N') :
    ∃ posted, N'.socketLayer.eventQueue = N.socketLayer.eventQueue ++ posted ∧
      ∀ e ∈ posted, event.getType.num < e.getType.num := by
  have hnone : ∀ {q q' : List (AsyncEvent P O)}, q' = q → ∃ posted, q' = q ++ posted ∧
      ∀ e ∈ posted, event.getType.num < e.getType.num := by
    rintro q _ rfl
    exact ⟨[], (List.append_nil _).symm, fun e he => absurd he List.not_mem_nil⟩
  cases h with
  | attached _ => exact hnone (by rw [attach_socketLayer])
  | recvMsg _ hlayer => exact hnone (by rw [hlayer])
  | recvProtocolMsg => exact ⟨_, rfl, single_later (by decide : 13 < 17)⟩
  | connectFailed _ _ _ => exact hnone rfl
  | connectFailedIdle _ => exact hnone rfl
  | closeUnknown => exact hnone rfl
  | closed _ _ _ => exact hnone rfl
  | notifyDuplicate _ => exact hnone rfl
  | notifyLimit _ _ => exact hnone rfl
  | notifyAdded _ _ => exact hnone rfl
  | protocol => exact hnone rfl

/-- A round of `AcceptHandler` that has got a connection. -/
def Accepts (N : BL_PeerConnectivityLayer_API P O) (k : PeerAnswers P) : Prop :=
  N.socketLayer.eventQueue.head? = some .socketAccept ∧ k.accepted ≠ []

/-- **Handlers post later events only.** -/
theorem posts_later {k : PeerAnswers P} (h : NodeStep ar N (.handleEvent k) N') :
    N.Accepts k ∨ EventLoop.Consumes AsyncEvent.rank N.socketLayer.eventQueue
      N'.socketLayer.eventQueue := by
  cases h with
  | accepted hq hacc _ =>
      refine .inl ⟨by rw [hq]; rfl, by rw [hacc]; exact List.cons_ne_nil _ _⟩
  | @acceptFailed k rest hq _ =>
      exact .inr ⟨.socketAccept, rest, [], hq, (List.append_nil rest).symm,
        fun e he => absurd he List.not_mem_nil⟩
  | @layer1 k event rest L hq hl hne hstep =>
      obtain ⟨posted, hL, hlater⟩ := layerStep_posts
        (BL_SocketLayer_API.switchAsyncEventHandler_ok _ hl hne hstep)
      exact .inr ⟨event, rest, posted, hq, hL, fun e he => AsyncEvent.rank_lt (hlater e he)⟩
  | @layer2 k event rest N' hq hstep =>
      obtain ⟨posted, hL, hlater⟩ := eventStep_posts hstep
      exact .inr ⟨event, rest, posted, hq, hL, fun e he => AsyncEvent.rank_lt (hlater e he)⟩

/-! ## What the protocol layer sends -/

theorem Wrote.settled (h : Wrote N N') : N'.settled = N.settled := by
  unfold BL_PeerConnectivityLayer_API.settled BL_PeerConnectivityLayer_API.referenced
  rw [h.socketLayer, h.peerManager]
  rfl

theorem sendMsgs_wrote (ar : Archive P O) (N : BL_PeerConnectivityLayer_API P O)
    (msgs : List (Message P O)) : Wrote N (N.sendMsgs ar msgs) := by
  induction msgs generalizing N with
  | nil => exact .refl N
  | cons msg msgs ih => exact (sendMsgToPeer_snd N msg.dest msg).trans (ih _)

theorem sendMsgs_reach {me : P} {o i : Int} {msgs : List (Message P O)}
    (h : (nodeSys ar ads me o i).Reach N) (hset : N.settled = true) :
    (nodeSys ar ads me o i).Reach (N.sendMsgs ar msgs) := by
  induction msgs generalizing N with
  | nil => exact h
  | cons msg msgs ih =>
      have hone : N.act ar ads (.sendMsgToPeer msg.dest msg) =
          some (.ok (N.sendMsgToPeer ar msg.dest msg).2) := by
        simp only [act, hset, if_true, move]
      have hw : Wrote N (N.sendMsgToPeer ar msg.dest msg).2 := sendMsgToPeer_snd N msg.dest msg
      exact ih (.step h trivial hone) (hw.settled.trans hset)

/-- A `ProtocolRecvMsg` holds no data socket. -/
theorem settled_pop {msg : Message P O} {rest : List (AsyncEvent P O)} (hset : N.settled = true)
    (hq : N.socketLayer.eventQueue = .protocolRecvMsg msg :: rest) :
    (N.popAsyncEvent rest).settled = true := by
  have href : ∀ sock, (N.popAsyncEvent rest).referenced sock = N.referenced sock := by
    intro sock
    unfold referenced
    rw [hq, List.any_cons]
    rfl
  rw [← hset]
  unfold BL_PeerConnectivityLayer_API.settled
  rw [funext href]
  rfl

theorem act_protocolRecvMsg {k : PeerAnswers P} {msg : Message P O}
    {rest : List (AsyncEvent P O)} (hq : N.socketLayer.eventQueue = .protocolRecvMsg msg :: rest)
    (h : N.act ar ads (.handleEvent k) = some (.ok N')) :
    N.settled = true ∧ N' = N.popAsyncEvent rest := by
  simp only [act] at h
  split at h
  · next hset =>
      have hnext : N.handleNext ar ads k = some (.ok (N.popAsyncEvent rest)) :=
        handleNext_of_ne hq (by simp)
      exact ⟨hset, (Except.ok.inj (Option.some.inj (hnext.symm.trans h))).symm⟩
  · cases h

end BL_PeerConnectivityLayer_API

variable [LinearOrder P]

def HostAct.isTimer {L : Type} : HostAct P O L → Bool
  | .timer _ _ => true
  | .node _ => false

namespace Host

variable {S X L : Type} {app : ProtocolLayer P O S X L} {ar : Archive P O} {ads : AddrAd P O}
  {host host' : Host P O S}

/-- What a host does to the layers below its protocol. -/
inductive Below (ar : Archive P O) (ads : AddrAd P O) (N : BL_PeerConnectivityLayer_API P O) :
    HostAct P O L → BL_PeerConnectivityLayer_API P O → Prop
  | fired {l : L} {k : PeerAnswers P} (msgs : List (Message P O)) :
      Below ar ads N (.timer l k) (N.sendMsgs ar msgs)
  | acted {a : NodeAct P O} {N' : BL_PeerConnectivityLayer_API P O} :
      N.act ar ads a = some (.ok N') → Below ar ads N (.node a) N'
  | received {k : PeerAnswers P} {msg : Message P O} {rest : List (AsyncEvent P O)}
      (msgs : List (Message P O)) : N.settled = true →
      N.socketLayer.eventQueue = .protocolRecvMsg msg :: rest →
      Below ar ads N (.node (.handleEvent k)) ((N.popAsyncEvent rest).sendMsgs ar msgs)

theorem recvMsgHandler_ok {k : PeerAnswers P} {msg : Message P O}
    (h : host.recvMsgHandler app ar k msg = .ok host') :
    ∃ msgs, host'.peers = host.peers.sendMsgs ar msgs := by
  obtain ⟨o, -, h⟩ := bind_ok.mp h
  cases o with
  | none =>
      obtain rfl := Except.ok.inj h
      exact ⟨[], rfl⟩
  | some x =>
      obtain ⟨⟨layer, out⟩, -, h⟩ := bind_ok.mp h
      obtain rfl := Except.ok.inj h
      exact ⟨_, rfl⟩

theorem act_below {a : HostAct P O L} (h : host.act app ar ads a = some (.ok host')) :
    Below ar ads host.peers a host'.peers := by
  cases a with
  | timer l k =>
      obtain ⟨r, -, h⟩ := Option.map_eq_some_iff.mp h
      obtain ⟨⟨layer, out⟩, rfl, h⟩ := bind_ok.mp h
      obtain rfl := Except.ok.inj h
      exact .fired _
  | node a =>
      obtain ⟨r, hr, h⟩ := Option.map_eq_some_iff.mp h
      obtain ⟨N', rfl, h⟩ := bind_ok.mp h
      cases hp : host.peers.protocolMsg a with
      | none =>
          simp only [hp] at h
          obtain rfl := Except.ok.inj h
          exact .acted hr
      | some km =>
          obtain ⟨k, msg⟩ := km
          simp only [hp] at h
          obtain ⟨msgs, hmsgs⟩ := recvMsgHandler_ok h
          obtain ⟨rfl, rest, hq⟩ := protocolMsg_eq_some hp
          obtain ⟨hset, rfl⟩ := BL_PeerConnectivityLayer_API.act_protocolRecvMsg hq hr
          rw [hmsgs]
          exact .received msgs hset hq

variable {N N' : BL_PeerConnectivityLayer_API P O} {a : HostAct P O L}

theorem Below.reach {me : P} {o i : Int} (h : (nodeSys ar ads me o i).Reach N)
    (hb : Below ar ads N a N') (hset : a.isTimer = true → N.settled = true) :
    (nodeSys ar ads me o i).Reach N' := by
  cases hb with
  | fired msgs => exact BL_PeerConnectivityLayer_API.sendMsgs_reach h (hset rfl)
  | acted hact => exact .step h trivial hact
  | @received k msg rest msgs hN hq =>
      have hpop : N.act ar ads (.handleEvent k) = some (.ok (N.popAsyncEvent rest)) := by
        simp only [BL_PeerConnectivityLayer_API.act, hN, if_true]
        exact handleNext_of_ne hq (by simp)
      exact BL_PeerConnectivityLayer_API.sendMsgs_reach (.step h trivial hpop)
        (BL_PeerConnectivityLayer_API.settled_pop hN hq)

/-- **Handlers post later events only**, in all layers. -/
theorem Below.posts_later {k : PeerAnswers P}
    (h : Below ar ads N (.node (.handleEvent k) : HostAct P O L) N') :
    N.Accepts k ∨ EventLoop.Consumes AsyncEvent.rank N.socketLayer.eventQueue
      N'.socketLayer.eventQueue := by
  cases h with
  | acted hact =>
      exact BL_PeerConnectivityLayer_API.posts_later (BL_PeerConnectivityLayer_API.step_cases hact)
  | @received _ msg rest msgs _ hq =>
      refine .inr ⟨_, rest, [], hq, ?_, fun e he => absurd he List.not_mem_nil⟩
      rw [(BL_PeerConnectivityLayer_API.sendMsgs_wrote ar _ msgs).socketLayer, List.append_nil]
      rfl

end Host

/-! ## `Wait` -/

/-- Where the process is in `Wait`. -/
inductive WaitAt where
  /-- The loop before `ev_run`. -/
  | beforeRun
  | evRun
  /-- The loop after `ev_run`. -/
  | afterRun
  | returned
  deriving DecidableEq

/-- A process that has called `Wait`. -/
structure MainEventManager (P O S : Type) [LinearOrder P] where
  host : Host P O S
  internalHandleEventEnum : AsyncEventEnum
  timeout_triggered : Bool
  pos : WaitAt

inductive WaitAct (P O L : Type) where
  /-- The event in front is popped and handled. -/
  | handle (k : PeerAnswers P)
  /-- libev runs a watcher or a timer of the layers. -/
  | callback (a : HostAct P O L)
  /-- libev runs the timer of the manager. -/
  | timercallback
  /-- A loop looks at the queue, or `ev_run` returns. -/
  | turn
  /-- A data socket is destroyed. -/
  | destroy (sock : SocketPtr P)

variable {S X L : Type}

/-- What libev runs. -/
def HostAct.isCallback : HostAct P O L → Bool
  | .timer _ _ => true
  | .node .listenSocketIOCallback | .node (.connectSocketIOCallback _) => true
  | .node (.dataSocketIOCallback _ _) => true
  | .node (.pingtimerCallback _) | .node (.timerCallback _ _) | .node (.sendAdToPeers _) => true
  | _ => false

namespace MainEventManager

variable (app : ProtocolLayer P O S X L) (ar : Archive P O) (ads : AddrAd P O)
  (m : MainEventManager P O S)

/-- The event is handled by `Wait` itself. -/
def handles (event : AsyncEvent P O) : Bool :=
  event.getType.num ≤ m.internalHandleEventEnum.num

/-- What the layers do in an action. -/
def run (a : HostAct P O L) : Option (Except Fault (MainEventManager P O S)) :=
  (m.host.act app ar ads a).map fun r => do
    let host ← r
    return { m with host }

/-- The loop that `pos` is in, when it is to look at the queue. -/
def look (afterEmpty : WaitAt) : Option (Except Fault (MainEventManager P O S)) :=
  match m.host.peers.socketLayer.eventQueue with
  | [] => some (.ok { m with pos := afterEmpty })
  | event :: _ => if m.handles event then none else some (.ok { m with pos := .returned })

def next : WaitAct P O L → Option (Except Fault (MainEventManager P O S))
  | .handle k =>
      if (m.pos = .beforeRun ∨ m.pos = .afterRun) ∧
          m.host.peers.socketLayer.eventQueue.head?.any m.handles = true then
        m.run app ar ads (.node (.handleEvent k))
      else none
  | .callback a =>
      if m.pos = .evRun ∧ m.host.peers.settled = true ∧ a.isCallback = true then
        m.run app ar ads a
      else none
  | .timercallback =>
      if m.pos = .evRun then some (.ok { m with timeout_triggered := true }) else none
  | .turn =>
      if m.host.peers.settled then
        match m.pos with
        | .beforeRun => m.look .evRun
        | .evRun => some (.ok { m with pos := .afterRun })
        | .afterRun => m.look (if m.timeout_triggered then .returned else .evRun)
        | .returned => none
      else none
  | .destroy sock => if m.pos ≠ .returned then m.run app ar ads (.node (.destroy sock)) else none

end MainEventManager

/-- `Wait`, called in any state of the layers of sockets and peers and of the protocol's. -/
def waitSys (app : ProtocolLayer P O S X L) (ar : Archive P O) (ads : AddrAd P O) (myPeerId : P)
    (outPeerNum inPeerNum : Int) : TransSys (MainEventManager P O S) (WaitAct P O L) where
  init m :=
    m.pos = .beforeRun ∧ (nodeSys ar ads myPeerId outPeerNum inPeerNum).Reach m.host.peers
  step m a m' := m.next app ar ads a = some (.ok m')

namespace MainEventManager

variable {app : ProtocolLayer P O S X L} {ar : Archive P O} {ads : AddrAd P O} {me : P}
  {o i : Int} {m m' : MainEventManager P O S} {a : WaitAct P O L}

/-- What a step of `Wait` is. -/
inductive WaitStep (ar : Archive P O) (ads : AddrAd P O) (m : MainEventManager P O S) :
    WaitAct P O L → MainEventManager P O S → Prop
  | handled {k : PeerAnswers P} {host : Host P O S} : m.pos = .beforeRun ∨ m.pos = .afterRun →
      Host.Below ar ads m.host.peers (.node (.handleEvent k) : HostAct P O L) host.peers →
      WaitStep ar ads m (.handle k) { m with host }
  | called {a : HostAct P O L} {host : Host P O S} : m.pos = .evRun →
      m.host.peers.settled = true → Host.Below ar ads m.host.peers a host.peers →
      WaitStep ar ads m (.callback a) { m with host }
  | timedOut : m.pos = .evRun →
      WaitStep ar ads m .timercallback { m with timeout_triggered := true }
  | ran : m.pos = .evRun → WaitStep ar ads m .turn { m with pos := .afterRun }
  | runs : m.pos = .beforeRun ∨ m.pos = .afterRun → m.host.peers.socketLayer.eventQueue = [] →
      WaitStep ar ads m .turn { m with pos := .evRun }
  | gaveUp : m.pos = .afterRun → m.host.peers.socketLayer.eventQueue = [] →
      m.timeout_triggered = true → WaitStep ar ads m .turn { m with pos := .returned }
  | external {event : AsyncEvent P O} {rest : List (AsyncEvent P O)} :
      m.pos = .beforeRun ∨ m.pos = .afterRun →
      m.host.peers.socketLayer.eventQueue = event :: rest → m.handles event = false →
      WaitStep ar ads m .turn { m with pos := .returned }
  | destroyed {sock : SocketPtr P} {host : Host P O S} : m.pos ≠ .returned →
      m.host.peers.act ar ads (.destroy sock) = some (.ok host.peers) →
      WaitStep ar ads m (.destroy sock) { m with host }

theorem run_ok {a : HostAct P O L} (h : m.run app ar ads a = some (.ok m')) :
    ∃ host : Host P O S, Host.Below ar ads m.host.peers a host.peers ∧
      m' = { m with host } := by
  obtain ⟨r, hr, h⟩ := Option.map_eq_some_iff.mp h
  obtain ⟨host, rfl, h⟩ := bind_ok.mp h
  exact ⟨host, Host.act_below hr, (Except.ok.inj h).symm⟩

theorem look_ok {afterEmpty : WaitAt} (h : m.look afterEmpty = some (.ok m')) :
    (m.host.peers.socketLayer.eventQueue = [] ∧ m' = { m with pos := afterEmpty }) ∨
      ∃ event rest, m.host.peers.socketLayer.eventQueue = event :: rest ∧
        m.handles event = false ∧ m' = { m with pos := .returned } := by
  unfold look at h
  split at h
  · next hq => exact .inl ⟨hq, (Except.ok.inj (Option.some.inj h)).symm⟩
  · next event rest hq =>
      split at h
      · cases h
      · next hno =>
          exact .inr ⟨event, rest, hq, Bool.not_eq_true _ ▸ hno,
            (Except.ok.inj (Option.some.inj h)).symm⟩

theorem next_cases (h : m.next app ar ads a = some (.ok m')) : WaitStep ar ads m a m' := by
  cases a with
  | handle k =>
      simp only [next] at h
      split at h
      · next hg =>
          obtain ⟨host, hbelow, rfl⟩ := run_ok h
          exact .handled hg.1 hbelow
      · cases h
  | callback a =>
      simp only [next] at h
      split at h
      · next hg =>
          obtain ⟨host, hbelow, rfl⟩ := run_ok h
          exact .called hg.1 hg.2.1 hbelow
      · cases h
  | timercallback =>
      simp only [next] at h
      split at h
      · next hpos =>
          obtain rfl := Except.ok.inj (Option.some.inj h)
          exact .timedOut hpos
      · cases h
  | turn =>
      simp only [next] at h
      split at h
      case isFalse => cases h
      split at h
      case h_1 hpos =>
        rcases look_ok h with ⟨hq, rfl⟩ | ⟨event, rest, hq, hno, rfl⟩
        · exact .runs (.inl hpos) hq
        · exact .external (.inl hpos) hq hno
      case h_2 hpos =>
        obtain rfl := Except.ok.inj (Option.some.inj h)
        exact .ran hpos
      case h_3 hpos =>
        rcases look_ok h with ⟨hq, rfl⟩ | ⟨event, rest, hq, hno, rfl⟩
        · by_cases ht : m.timeout_triggered = true
          · rw [if_pos ht]
            exact .gaveUp hpos hq ht
          · rw [if_neg ht]
            exact .runs (.inr hpos) hq
        · exact .external (.inr hpos) hq hno
      case h_4 => cases h
  | destroy sock =>
      simp only [next] at h
      split at h
      · next hpos =>
          obtain ⟨host, hbelow, rfl⟩ := run_ok h
          cases hbelow with
          | acted hact => exact .destroyed hpos hact
      · cases h

/-! ### Runs -/

/-- What `Wait` returns with. -/
def Done (m : MainEventManager P O S) : Prop :=
  (∃ event ∈ m.host.peers.socketLayer.eventQueue.head?, m.handles event = false) ∨
    m.host.peers.socketLayer.eventQueue = [] ∧ m.timeout_triggered = true

theorem done_of_returned (h : (waitSys app ar ads me o i).Reach m) (hpos : m.pos = .returned) :
    m.Done := by
  refine h.invariant (P := fun m => m.pos = .returned → m.Done) ?_ ?_ hpos
  · rintro m ⟨hfirst, -⟩ hpos
    cases hfirst.symm.trans hpos
  · intro m a m' _ _ _ hs hpos
    cases next_cases hs with
    | handled hin _ => rcases hin with h | h <;> cases h.symm.trans hpos
    | called hin _ _ => cases hin.symm.trans hpos
    | timedOut hin => cases hin.symm.trans hpos
    | ran _ => cases hpos
    | runs _ _ => cases hpos
    | gaveUp _ hq ht => exact .inr ⟨hq, ht⟩
    | external _ hq hno =>
        refine .inl ⟨_, ?_, hno⟩
        rw [hq]
        rfl
    | destroyed hin _ => exact absurd hpos hin

theorem node_reach (h : (waitSys app ar ads me o i).Reach m) :
    (nodeSys ar ads me o i).Reach m.host.peers := by
  refine h.invariant (P := fun m => (nodeSys ar ads me o i).Reach m.host.peers) ?_ ?_
  · rintro m ⟨-, hm⟩
    exact hm
  · intro m a m' _ hm _ hs
    cases next_cases hs with
    | handled _ hbelow => exact hbelow.reach hm Bool.noConfusion
    | called _ hset hbelow => exact hbelow.reach hm fun _ => hset
    | destroyed _ hact => exact .step hm trivial hact
    | timedOut _ => exact hm
    | ran _ => exact hm
    | runs _ _ => exact hm
    | gaveUp _ _ _ => exact hm
    | external _ _ _ => exact hm

/-- Until it returns there is something to do, if it is a handler that stops the process. -/
theorem exists_next (app : ProtocolLayer P O S X L) (ar : Archive P O) (ads : AddrAd P O)
    (hpos : m.pos ≠ .returned) : ∃ a r, m.next app ar ads a = some r := by
  cases hset : m.host.peers.settled with
  | false =>
      -- a data socket is to be destroyed
      obtain ⟨sock, hsock, href⟩ : ∃ sock ∈ m.host.peers.socketLayer.objects,
          m.host.peers.referenced sock = false := by
        simpa [BL_PeerConnectivityLayer_API.settled] using hset
      refine ⟨.destroy sock, ?_⟩
      simp only [next, run, Host.act, BL_PeerConnectivityLayer_API.act, if_pos hpos,
        if_pos (And.intro hsock href)]
      exact ⟨_, rfl⟩
  | true =>
      -- a loop looks at the queue, and handles the event in front if it is to
      have hloop : m.pos = .beforeRun ∨ m.pos = .afterRun → ∀ afterEmpty,
          (∃ r, m.look afterEmpty = some r) ∨
            ∃ r, m.next app ar ads (.handle {}) = some r := by
        intro hin afterEmpty
        cases hq : m.host.peers.socketLayer.eventQueue with
        | nil =>
            left
            rw [look, hq]
            exact ⟨_, rfl⟩
        | cons event rest =>
            by_cases hevent : m.handles event = true
            · right
              have hfront : (event :: rest).head?.any m.handles = true := hevent
              simp only [next, run, hq, if_pos (And.intro hin hfront), Host.act,
                BL_PeerConnectivityLayer_API.act, hset, if_true,
                BL_PeerConnectivityLayer_API.move, BL_PeerConnectivityLayer_API.handleNext]
              exact ⟨_, rfl⟩
            · left
              simp only [look, hq, if_neg hevent]
              exact ⟨_, rfl⟩
      have hturn : ∀ {r}, m.next app ar ads .turn = some r →
          ∃ a r, m.next app ar ads a = some r := fun h => ⟨.turn, _, h⟩
      cases hin : m.pos with
      | returned => exact absurd hin hpos
      | evRun =>
          refine ⟨.turn, .ok { m with pos := .afterRun }, ?_⟩
          simp only [next, hset, if_true, hin]
      | beforeRun =>
          rcases hloop (.inl hin) .evRun with ⟨r, hr⟩ | ⟨r, hr⟩
          · exact hturn (r := r) (by simp only [next, hset, if_true, hin, hr])
          · exact ⟨_, r, hr⟩
      | afterRun =>
          rcases hloop (.inr hin) (if m.timeout_triggered then .returned else .evRun) with
            ⟨r, hr⟩ | ⟨r, hr⟩
          · exact hturn (r := r) (by simp only [next, hset, if_true, hin, hr])
          · exact ⟨_, r, hr⟩

/-- A round of `AcceptHandler` with a connection. -/
def accepts (m : MainEventManager P O S) (a : WaitAct P O L) : Prop :=
  ∃ k, a = .handle k ∧ m.host.peers.Accepts k

/-- In the loops every step makes the queue smaller, hydra-wise, or leaves them. -/
theorem step_progress (hs : (waitSys app ar ads me o i).step m a m')
    (hs' : ∃ a' m'', (waitSys app ar ads me o i).step m' a' m'') :
    EventLoop.Progress AsyncEvent.rank (fun m => m.host.peers.socketLayer.eventQueue)
        (fun m => m.host.peers.socketLayer.objects.length) m m' ∨
      m.pos = .evRun ∨ m'.pos = .evRun ∨ accepts m a := by
  have hlast : m'.pos ≠ .returned := by
    obtain ⟨a', m'', hs'⟩ := hs'
    intro hpos
    cases next_cases hs' with
    | handled hin _ => rcases hin with h | h <;> cases h.symm.trans hpos
    | called hin _ _ => cases hin.symm.trans hpos
    | timedOut hin => cases hin.symm.trans hpos
    | ran hin => cases hin.symm.trans hpos
    | runs hin _ => rcases hin with h | h <;> cases h.symm.trans hpos
    | gaveUp hin _ _ => cases hin.symm.trans hpos
    | external hin _ _ => rcases hin with h | h <;> cases h.symm.trans hpos
    | destroyed hin _ => exact hin hpos
  cases next_cases hs with
  | @handled k host _ hbelow =>
      rcases hbelow.posts_later with hacc | hless
      · exact .inr (.inr (.inr ⟨k, rfl, hacc⟩))
      · exact .inl (.inl hless)
  | called hin _ _ => exact .inr (.inl hin)
  | timedOut hin => exact .inr (.inl hin)
  | ran hin => exact .inr (.inl hin)
  | runs _ _ => exact .inr (.inr (.inl rfl))
  | gaveUp _ _ _ => exact absurd rfl hlast
  | external _ _ _ => exact absurd rfl hlast
  | @destroyed sock host _ hact =>
      refine .inl (.inr ?_)
      show host.peers.socketLayer.eventQueue = _ ∧ host.peers.socketLayer.objects.length < _
      generalize host.peers = N at hact ⊢
      cases BL_PeerConnectivityLayer_API.step_cases hact with
      | destroyed hsock _ =>
          exact ⟨rfl, List.length_filter_lt_length_iff_exists.mpr ⟨sock, hsock, by simp⟩⟩

/-- **`Wait`** keeps to what a node may do; it returns with an event it does not handle in
front, or with an empty queue after the timeout; until then there is something to do; and
however long it goes on, it is in `ev_run` again and again, or connections are accepted
again and again. -/
theorem wait_recurs (h : (waitSys app ar ads me o i).Reach m) :
    (nodeSys ar ads me o i).Reach m.host.peers ∧ (m.pos = .returned → m.Done) ∧
    (m.pos ≠ .returned → ∃ a r, m.next app ar ads a = some r) ∧
    ∀ (f : Nat → MainEventManager P O S) (a : Nat → WaitAct P O L),
      (∀ j, (waitSys app ar ads me o i).step (f j) (a j) (f (j + 1))) →
      ∀ n, ∃ j ≥ n, (f j).pos = .evRun ∨ accepts (f j) (a j) := by
  refine ⟨node_reach h, done_of_returned h, exists_next app ar ads, fun f a hf n => ?_⟩
  have hstep : ∀ j, EventLoop.Progress AsyncEvent.rank
      (fun m : MainEventManager P O S => m.host.peers.socketLayer.eventQueue)
      (fun m => m.host.peers.socketLayer.objects.length) (f j) (f (j + 1)) ∨
        ((f j).pos = .evRun ∨ (f (j + 1)).pos = .evRun ∨ accepts (f j) (a j)) := fun j =>
    step_progress (hf j) ⟨_, _, hf (j + 1)⟩
  obtain ⟨j, hj, hmark | hmark | hmark⟩ := EventLoop.marks_recur hstep n
  · exact ⟨j, hj, .inl hmark⟩
  · exact ⟨j + 1, by omega, .inl hmark⟩
  · exact ⟨j, hj, .inr hmark⟩

/-- The step as a function. -/
def nextOk (app : ProtocolLayer P O S X L) (ar : Archive P O) (ads : AddrAd P O)
    (m : MainEventManager P O S) (a : WaitAct P O L) : Option (MainEventManager P O S) :=
  match m.next app ar ads a with
  | some (.ok m') => some m'
  | _ => none

theorem next_of_nextOk (h : m.nextOk app ar ads a = some m') :
    (waitSys app ar ads me o i).step m a m' := by
  unfold nextOk at h
  split at h
  · next hm =>
      obtain rfl := Option.some.inj h
      exact hm
  · cases h

end MainEventManager

/-- A host that handles everything itself waits: a connection is accepted, and then the
timeout comes. -/
def acceptAndTimeOut : List (WaitAct (Fin 2) TwoObject (Ex1Act Nat)) :=
  [.turn, .callback (.node .listenSocketIOCallback), .turn, .handle { accepted := [5] },
    .handle {}, .turn, .timercallback, .turn, .turn]

def waitingHost (internalHandleEventEnum : AsyncEventEnum) :
    MainEventManager (Fin 2) TwoObject (BL_ProtocolLayerEx1 Nat Nat) where
  host := { peers := .init 0 0 0, layer := ex1Layer.start 0 }
  internalHandleEventEnum
  timeout_triggered := false
  pos := .beforeRun

/-- The `Wait` of a host of transaction gossip. -/
abbrev gossipWait : TransSys (MainEventManager (Fin 2) TwoObject (BL_ProtocolLayerEx1 Nat Nat))
    (WaitAct (Fin 2) TwoObject (Ex1Act Nat)) :=
  waitSys ex1Layer (tableArchive []) addrAd 0 0 0

theorem wait_recurs_timeout :
    ∃ m, gossipWait.Reach m ∧ m.pos = .returned ∧ m.timeout_triggered = true ∧
      m.host.peers.socketLayer.objects.length = 1 ∧
      (nodeSys (tableArchive []) addrAd 0 0 0).Reach m.host.peers ∧ m.Done ∧
      ∀ (f : Nat → MainEventManager (Fin 2) TwoObject (BL_ProtocolLayerEx1 Nat Nat))
        (a : Nat → WaitAct (Fin 2) TwoObject (Ex1Act Nat)),
        (∀ j, gossipWait.step (f j) (a j) (f (j + 1))) →
        ∀ n, ∃ j ≥ n, (f j).pos = .evRun ∨ MainEventManager.accepts (f j) (a j) := by
  have hrun : (TransSys.exec (MainEventManager.nextOk ex1Layer (tableArchive []) addrAd)
      (fun _ _ => true) (waitingHost .AllEvent) acceptAndTimeOut).any
        (fun m => decide (m.pos = .returned ∧ m.timeout_triggered = true ∧
          m.host.peers.socketLayer.objects.length = 1)) = true := by
    decide +kernel
  have hstart : gossipWait.init (waitingHost .AllEvent) := ⟨rfl, .start rfl⟩
  obtain ⟨m, -, hu, hm⟩ :=
    TransSys.exec_any _ _ (fun _ _ _ => MainEventManager.next_of_nextOk) hstart hrun
  obtain ⟨hpos, ht, hsock⟩ := of_decide_eq_true hm
  obtain ⟨hnode, hdone, -, hruns⟩ := MainEventManager.wait_recurs hu.reach
  exact ⟨m, hu.reach, hpos, ht, hsock, hnode, hdone hpos, hruns⟩

end Bleep
