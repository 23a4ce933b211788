/-
# `Bleep.Stack.Settle` — hosts can always come to be idle

Without timers the hosts can empty all the places between two handlers of the protocol.
As long as a queue holds events they are handled, and none of them can be refused but for
one reason: a message to be sent that the archive cannot write (`Fabric.Stuck`,
`Refines.stuck`).  When the queues are empty and something is on its way, libev can poll
the data socket it is in or comes to, and the event that is queued moves some of it
(`exists_write`, `exists_read`); what is left over in a receive buffer when all bytes are there
is nothing (`Transit.nil`).

Each of these leaves less to do, so that in the end the hosts are idle, or stuck
(`exists_settled_hosts`).
-/
import Bleep.Stack.Rest

namespace Bleep

open Protocol BL_SocketLayer_API

/-! ## Sending all -/

namespace DataSocket

theorem sendLoop_all {w : Bool} (buff : List WriteMsg) :
    ∃ out s, sendLoop w buff (buff.map fun msg => (msg.nbytes : Int)) = .ok (out, s) ∧
      s.unsent = [] := by
  induction buff with
  | nil => exact ⟨[], _, rfl, rfl⟩
  | cons msg buff ih =>
      obtain ⟨out, s, hs, hnil⟩ := ih
      have hlen : (msg.dpos.take msg.nbytes).length = msg.nbytes := by
        rw [List.take_of_length_le (Nat.le_of_eq msg.length_dpos), msg.length_dpos]
      have hnone : { msg with pos := msg.pos + msg.nbytes }.nbytes = 0 := by
        simp only [WriteMsg.nbytes]
        omega
      have hnonneg : ¬ (msg.nbytes : Int) < 0 := by omega
      simp only [List.map_cons, sendLoop, List.headD_cons, if_neg hnonneg, Int.toNat_natCast, hlen,
        hnone, if_true, List.tail_cons]
      split
      · exact ⟨_, _, rfl, rfl⟩
      · exact ⟨_, s, by rw [hs]; rfl, hnil⟩

theorem doSend_all {s : DataSocket} (hw : s.Watched) : ∃ s',
    s.doSend (s.sendBuff.map fun msg => (msg.nbytes : Int)) = .ok (s.unsent, s') := by
  have hall : ∃ out s', s.doSend (s.sendBuff.map fun msg => (msg.nbytes : Int)) = .ok (out, s') ∧
      s'.unsent = [] := by
    unfold doSend
    split
    · exact sendLoop_all s.sendBuff
    · exact sendLoop_all s.sendBuff
  obtain ⟨out, s', hs, hnil⟩ := hall
  have hout := (doSend_ok hs hw).1
  rw [hnil, List.append_nil] at hout
  exact ⟨s', hout ▸ hs⟩

theorem Watched.writable {s : DataSocket} (hw : s.Watched) (h : s.unsent ≠ []) :
    s.writable = true :=
  hw.mpr fun hnil => h (by rw [unsent, hnil]; rfl)

end DataSocket

section General

variable {P O S X L : Type} [LinearOrder P] [Fintype P] {links : Links P}
  {app : ProtocolLayer P O S X L} {ar : Archive P O} {ads : AddrAd P O} {F F' : Fabric P O S}
  {x : Queues P S X × ℕ × ℕ} {q : Queues P S X} {n : P}

/-- A steady action without timers. -/
def CalmStep (links : Links P) (app : ProtocolLayer P O S X L) (ar : Archive P O) (ads : AddrAd P O)
    (F F' : Fabric P O S) : Prop :=
  ∃ e : P × HostAct P O L, F.Steady links app ar ads e ∧ e.2.isCalm = true ∧
    F.act links app ar ads e.1 e.2 = some (.ok F')

abbrev CalmSteps (links : Links P) (app : ProtocolLayer P O S X L) (ar : Archive P O)
    (ads : AddrAd P O) : Fabric P O S → Fabric P O S → Prop :=
  Relation.ReflTransGen (CalmStep links app ar ads)

/-- No steady action handles the event in front of the queue of a host. -/
def Fabric.Stuck (links : Links P) (app : ProtocolLayer P O S X L) (ar : Archive P O)
    (ads : AddrAd P O) (F : Fabric P O S) : Prop :=
  ∃ n, (F.host n).peers.socketLayer.eventQueue ≠ [] ∧
    ∀ k F', F.Steady links app ar ads (n, .node (.handleEvent k)) →
      F.act links app ar ads n (.node (.handleEvent k)) ≠ some (.ok F')

/-- A host is to send a message that the archive cannot write. -/
def Fabric.Unsendable (app : ProtocolLayer P O S X L) (ar : Archive P O) (ads : AddrAd P O)
    (F : Fabric P O S) : Prop :=
  ∃ n, ∃ msg ∈ (F.host n).outbox app ads (.node (.handleEvent {})), ¬ Sendable ar msg

/-- The data sockets of the connections exist. -/
def Fabric.Open (links : Links P) (F : Fabric P O S) : Prop :=
  ∀ n, ∀ m ∈ links.nbrs n, links.sock n m ∈ (F.host n).peers.socketLayer.objects

/-- What is left to do, and the sockets to do it with. -/
structure Fabric.Ready (links : Links P) (app : ProtocolLayer P O S X L) (ar : Archive P O)
    (ads : AddrAd P O) (F : Fabric P O S) (x : Queues P S X × ℕ × ℕ) : Prop where
  left : F.Left links app ar ads x
  sockets : F.Open links

/-! ## Events can be handled -/

omit [Fintype P] in
theorem Refines.exists_handle (h : Refines links app ar ads F q)
    (hq : (F.host n).peers.socketLayer.eventQueue ≠ []) (k : PeerAnswers P) :
    ∃ r, F.act links app ar ads n (.node (.handleEvent k)) = some r := by
  obtain ⟨event, rest, hq⟩ := List.exists_cons_of_ne_nil hq
  have hexp := h.events n event (by rw [hq]; exact List.mem_cons_self)
  have hacc : event ≠ .socketAccept := by
    rintro rfl
    exact hexp
  have hact : (F.host n).peers.act ar ads (.handleEvent k) =
      some (((F.host n).peers.popAsyncEvent rest).handleAsyncEvent ar ads k event) := by
    rw [(h.linked n).act_eq_move (by rintro _ ⟨⟩), BL_PeerConnectivityLayer_API.move,
      handleNext_of_ne hq hacc]
  rw [Fabric.act, Host.act, hact]
  exact ⟨_, rfl⟩

omit [Fintype P] in
theorem Refines.exists_ok (hads : ads.Lawful) (h : Refines links app ar ads F q)
    {event : AsyncEvent P O} {rest : List (AsyncEvent P O)}
    (hq : (F.host n).peers.socketLayer.eventQueue = event :: rest)
    (hmsg : event.isMessage = false) {k : PeerAnswers P}
    (hc : F.Steady links app ar ads (n, .node (.handleEvent k))) :
    ∃ F', F.act links app ar ads n (.node (.handleEvent k)) = some (.ok F') := by
  obtain ⟨r, hr⟩ := h.exists_handle (by rw [hq]; exact List.cons_ne_nil _ _) k
  have hnone : (F.host n).peers.protocolMsg (.handleEvent k) = none := by
    cases event with
    | peerRecvMsg _ _ => cases hmsg
    | protocolRecvMsg _ => cases hmsg
    | _ => simp [BL_PeerConnectivityLayer_API.protocolMsg, hq]
  obtain ⟨N, hN, rfl⟩ := F.act_node hnone hr
  obtain ⟨N', rfl, -⟩ := h.node hads hc hnone hN
  exact ⟨_, hr⟩

omit [Fintype P] in
/-- What stops the hosts: a message the archive cannot write, or a handler of the
protocol. -/
theorem Refines.stuck (happ : app.Lawful) (hads : ads.Lawful) (h : Refines links app ar ads F q)
    {c : Config P S X} (hfly : c.Flies q) (hstuck : F.Stuck links app ar ads) :
    F.Unsendable app ar ads ∨ ∃ a fault, (app.protocol links.nbrs).Aborts c a fault := by
  obtain ⟨n, hq, hno⟩ := hstuck
  by_cases hsend : ∀ msg ∈ (F.host n).outbox app ads (.node (.handleEvent {})), Sendable ar msg
  · have hc : F.Steady links app ar ads (n, .node (.handleEvent {})) := by
      refine ⟨⟨fun _ hr => absurd hr List.not_mem_nil, fun _ hr => absurd hr List.not_mem_nil⟩,
        fun r hr m hm => ?_, hsend⟩
      have hnil : r.2 = [] := by
        simp only [Fabric.reading] at hr
        split at hr
        · obtain rfl := Option.some.inj hr
          rfl
        · cases hr
      rw [hnil]
      exact List.nil_prefix
    obtain ⟨r, hr⟩ := h.exists_handle hq {}
    cases r with
    | ok F' => exact absurd hr (hno {} F' hc)
    | error fault =>
        obtain ⟨a, ha⟩ := h.aborts happ hads hfly hc hr
        exact .inr ⟨a, fault, ha⟩
  · push Not at hsend
    exact .inl ⟨n, hsend⟩

/-! ## Less and less is left -/

theorem Fabric.Ready.step (happ : app.Lawful) (hads : ads.Lawful)
    (h : F.Ready links app ar ads x) {e : P × HostAct P O L} (hc : F.Steady links app ar ads e)
    (hcalm : e.2.isCalm = true) (hs : F.act links app ar ads e.1 e.2 = some (.ok F')) :
    (F.Moves e → ∃ y, Less links app y x ∧ F'.Ready links app ar ads y) ∧
      (¬ F.Moves e → F'.Ready links app ar ads x) := by
  obtain ⟨kind, q', heffect⟩ := h.left.refines.moved happ hads hc hcalm hs
  have hopen : F'.Open links := fun n m hm => (heffect.objects n).symm ▸ h.sockets n m hm
  obtain ⟨hmoves, hno⟩ := h.left.step happ hads hc hcalm hs
  refine ⟨fun hm => ?_, fun hm => ⟨hno hm, hopen⟩⟩
  obtain ⟨y, hy, hleft⟩ := hmoves hm
  exact ⟨y, hy, hleft, hopen⟩

/-- The events in the queues are handled, until a host is stuck, or less is left to do, or
there are none. -/
theorem Fabric.Ready.handle_all (happ : app.Lawful) (hads : ads.Lawful) :
    ∀ {F : Fabric P O S}, F.Ready links app ar ads x →
      ∃ F', CalmSteps links app ar ads F F' ∧
        (F'.Ready links app ar ads x ∧
            (F'.Stuck links app ar ads ∨ ∀ n, (F'.host n).peers.socketLayer.eventQueue = []) ∨
          ∃ y, Less links app y x ∧ F'.Ready links app ar ads y) := by
  intro F
  induction hk : (F.places links).pending using Nat.strong_induction_on generalizing F with
  | _ k ih =>
      intro h
      by_cases hstuck : F.Stuck links app ar ads
      · exact ⟨F, .refl, .inl ⟨h, .inl hstuck⟩⟩
      by_cases hempty : ∀ n, (F.host n).peers.socketLayer.eventQueue = []
      · exact ⟨F, .refl, .inl ⟨h, .inr hempty⟩⟩
      · obtain ⟨n, hq⟩ := not_forall.mp hempty
        obtain ⟨k', F', hc, hs⟩ : ∃ k F', F.Steady links app ar ads (n, .node (.handleEvent k)) ∧
            F.act links app ar ads n (.node (.handleEvent k)) = some (.ok F') := by
          by_contra hno
          exact hstuck ⟨n, hq, fun k F' hc hs => hno ⟨k, F', hc, hs⟩⟩
        have hstep : CalmStep links app ar ads F F' := ⟨_, hc, rfl, hs⟩
        obtain ⟨hmoves, hstays⟩ := h.step happ hads hc rfl hs
        by_cases hm : F.Moves (L := L) (n, .node (.handleEvent k'))
        · exact ⟨F', .single hstep, .inr (hmoves hm)⟩
        · have hlt := h.left.refines.pending_lt happ hads hc hs hm
          obtain ⟨F'', hsteps, hF''⟩ := ih _ (hk ▸ hlt) rfl (hstays hm)
          exact ⟨F'', .head hstep hsteps, hF''⟩

omit [Fintype P] in
theorem Fabric.queue_poll (sock : SocketPtr P) (readable : Bool)
    (hempty : (F.host n).peers.socketLayer.eventQueue = []) :
    ((F.poll n sock readable).host n).peers.socketLayer.eventQueue =
      [if readable then .socketRecv sock else .socketWrite sock] := by
  rw [Fabric.poll, F.set_host_self]
  show (F.host n).peers.socketLayer.eventQueue ++ _ = _
  rw [hempty]
  rfl

theorem Fabric.Ready.poll (happ : app.Lawful) (hads : ads.Lawful) (h : F.Ready links app ar ads x)
    (hempty : (F.host n).peers.socketLayer.eventQueue = []) {m : P} (hm : m ∈ links.nbrs n)
    (readable : Bool) (hr : readable = true ∨
      ((F.host n).peers.socketLayer.heap (links.sock n m).obj).writable = true)
    {k : PeerAnswers P}
    (hc : (F.poll n (links.sock n m) readable).Steady links app ar ads (n, .node (.handleEvent k)))
    (hmoves : (F.poll n (links.sock n m) readable).Moves (L := L) (n, .node (.handleEvent k))) :
    ∃ F' y, CalmSteps links app ar ads F F' ∧ Less links app y x ∧ F'.Ready links app ar ads y := by
  have hact : F.act links app ar ads n (.node (.dataSocketIOCallback (links.sock n m) readable)) =
      some (.ok (F.poll n (links.sock n m) readable)) :=
    F.act_poll (h.left.refines.linked n) (h.sockets n m hm) hr
  obtain ⟨-, hstays⟩ := h.step happ hads F.steady_poll rfl hact
  have hpolled := hstays (by simp [Fabric.Moves])
  have hq := F.queue_poll (links.sock n m) readable hempty
  obtain ⟨F', hF'⟩ := hpolled.left.refines.exists_ok hads hq (by split <;> rfl) hc
  obtain ⟨y, hy, hready⟩ := (hpolled.step happ hads hc rfl hF').1 hmoves
  exact ⟨F', y, .tail (.single ⟨_, F.steady_poll, rfl, hact⟩) ⟨_, hc, rfl, hF'⟩, hy, hready⟩

omit [Fintype P] in
theorem Fabric.steady_socket {event : AsyncEvent P O} {rest : List (AsyncEvent P O)}
    (hq : (F.host n).peers.socketLayer.eventQueue = event :: rest)
    (hmsg : event.isMessage = false) {k : PeerAnswers P}
    (hk : (∀ r ∈ k.recv, r ≠ .closed ∧ r ≠ .failed) ∧ ∀ i ∈ k.send, 0 ≤ i)
    (hreads : ∀ sock, event = .socketRecv sock → ∀ m ∈ links.far n sock.getFD,
      received k.recv <+: F.pipe m n) :
    F.Steady links app ar ads (n, .node (.handleEvent k)) := by
  refine ⟨hk, fun r hr m hm => ?_, fun msg hm => ?_⟩
  · simp only [Fabric.reading, hq] at hr
    cases event with
    | socketRecv sock =>
        obtain rfl := Option.some.inj hr
        exact hreads sock rfl m hm
    | _ => cases hr
  · simp only [Host.outbox, hq] at hm
    cases event with
    | peerRecvMsg _ _ => cases hmsg
    | protocolRecvMsg _ => cases hmsg
    | _ => cases hm

theorem Fabric.Ready.exists_write (happ : app.Lawful) (hads : ads.Lawful)
    (h : F.Ready links app ar ads x) (hempty : (F.host n).peers.socketLayer.eventQueue = [])
    {m : P} (hm : m ∈ links.nbrs n)
    (hsome : ((F.host n).peers.socketLayer.heap (links.sock n m).obj).unsent ≠ []) :
    ∃ F' y, CalmSteps links app ar ads F F' ∧ Less links app y x ∧ F'.Ready links app ar ads y := by
  have hw := (h.left.refines.stream n m hm).watched
  obtain ⟨s, hs⟩ := DataSocket.doSend_all hw
  have hq := F.queue_poll (links.sock n m) false hempty
  have hdata := (h.left.refines.linked n).data m hm
  have hwritten : ((F.poll n (links.sock n m) false).host n).peers.socketLayer.written
      (links.sock n m).getFD (((F.host n).peers.socketLayer.heap (links.sock n m).obj).sendBuff.map
        fun msg => (msg.nbytes : Int)) =
      ((F.host n).peers.socketLayer.heap (links.sock n m).obj).unsent := by
    rw [Fabric.poll, F.set_host_self]
    have hdata' : ((F.host n).peers.pushAsyncEvent
        (.socketWrite (links.sock n m))).socketLayer.getDataSocket (links.sock n m).getFD =
          some (links.sock n m) := hdata
    have hs' : (((F.host n).peers.pushAsyncEvent (.socketWrite (links.sock n m))).socketLayer.heap
        (links.sock n m).obj).doSend _ = .ok (_, s) := hs
    show written
      ((F.host n).peers.pushAsyncEvent (.socketWrite (links.sock n m))).socketLayer _ _ = _
    simp only [written, hdata', hs']
  have hsend : ∀ i ∈ ((F.host n).peers.socketLayer.heap (links.sock n m).obj).sendBuff.map
      fun msg => (msg.nbytes : Int), 0 ≤ i := by
    intro i hi
    obtain ⟨msg, -, rfl⟩ := List.mem_map.mp hi
    exact Int.natCast_nonneg _
  have hno : ∀ sock, AsyncEvent.socketWrite (links.sock n m) = .socketRecv (O := O) sock →
      ∀ a ∈ links.far n sock.getFD, received [] <+: (F.poll n (links.sock n m) false).pipe a n := by
    rintro _ ⟨⟩
  refine h.poll happ hads hempty hm false (.inr (hw.writable hsome)) (k := { send := _ })
    (Fabric.steady_socket hq rfl ⟨fun _ hr => absurd hr List.not_mem_nil, hsend⟩ hno) ?_
  simp only [Fabric.Moves, hq]
  exact decide_eq_true (hwritten ▸ hsome)

theorem Fabric.Ready.exists_read (happ : app.Lawful) (hads : ads.Lawful)
    (h : F.Ready links app ar ads x) (hempty : (F.host n).peers.socketLayer.eventQueue = [])
    {m : P} (hm : m ∈ links.nbrs n) (hsome : F.pipe m n ≠ []) :
    ∃ F' y, CalmSteps links app ar ads F F' ∧ Less links app y x ∧ F'.Ready links app ar ads y := by
  have hpos : 0 < (F.pipe m n).length := List.length_pos_iff.mpr hsome
  have hlen : ((F.pipe m n).take 2000).length = min 2000 (F.pipe m n).length := List.length_take
  obtain ⟨r, hread, hr⟩ : ∃ r : RecvResult, received [r] = (F.pipe m n).take 2000 ∧
      r ≠ .closed ∧ r ≠ .failed := by
    refine ⟨.data ((F.pipe m n).take 2000) (by omega), ?_, by rintro ⟨⟩, by rintro ⟨⟩⟩
    simp only [received, List.append_nil, ite_self]
  have hq := F.queue_poll (links.sock n m) true hempty
  refine h.poll happ hads hempty hm true (.inl rfl) (k := { recv := [r] })
    (Fabric.steady_socket hq rfl ⟨fun r' hr' => List.mem_singleton.mp hr' ▸ hr,
      fun _ hi => absurd hi List.not_mem_nil⟩ fun sock hsock a ha => ?_) ?_
  · obtain rfl := AsyncEvent.socketRecv.inj hsock
    rw [links.far_sock hm] at ha
    obtain rfl := Option.some.inj ha
    show received [r] <+: F.pipe m n
    rw [hread]
    exact List.take_prefix _ _
  · simp only [Fabric.Moves, hq]
    refine decide_eq_true fun hnil => ?_
    have hnil' : received [r] = [] := hnil
    rw [hread] at hnil'
    rw [hnil', List.length_nil] at hlen
    omega

omit [Fintype P] in
theorem Refines.idle_of_empty (h : Refines links app ar ads F q)
    (hempty : ∀ n, (F.host n).peers.socketLayer.eventQueue = [])
    (hunsent : ∀ a, ∀ b ∈ links.nbrs a,
      ((F.host a).peers.socketLayer.heap (links.sock a b).obj).unsent = [])
    (hpipe : ∀ a, ∀ b ∈ links.nbrs a, F.pipe a b = []) : F.Idle links where
  unsent := hunsent
  pipe := hpipe
  recvBytes a b hb := by
    have hs := h.stream a b hb
    obtain ⟨msgs, hmsgs, hbytes, -⟩ := hs.msgs
    have ht : Transit app ar ads a _ (F.pipe a b) _ msgs := ⟨hmsgs, hbytes⟩
    rw [hpipe a b hb, hunsent a b hb] at ht
    exact ht.nil hs.stopped
  eventQueue n event he := by
    rw [hempty] at he
    cases he

/-- Unless all is idle or a host is stuck, less can be left to do. -/
theorem Fabric.Ready.next (happ : app.Lawful) (hads : ads.Lawful) (h : F.Ready links app ar ads x) :
    ∃ F' y, CalmSteps links app ar ads F F' ∧ F'.Ready links app ar ads y ∧
      ((F'.Idle links ∨ F'.Stuck links app ar ads) ∨ Less links app y x) := by
  obtain ⟨F', hsteps, ⟨h', hstuck | hempty⟩ | ⟨y, hy, h'⟩⟩ := h.handle_all happ hads
  · exact ⟨F', x, hsteps, h', .inl (.inr hstuck)⟩
  · by_cases hunsent : ∀ a, ∀ b ∈ links.nbrs a,
        ((F'.host a).peers.socketLayer.heap (links.sock a b).obj).unsent = []
    · by_cases hpipe : ∀ a, ∀ b ∈ links.nbrs a, F'.pipe a b = []
      · exact ⟨F', x, hsteps, h', .inl (.inl (h'.left.refines.idle_of_empty hempty hunsent hpipe))⟩
      · push Not at hpipe
        obtain ⟨a, b, hb, hsome⟩ := hpipe
        obtain ⟨F'', y, hmore, hy, h''⟩ :=
          h'.exists_read happ hads (hempty b) (links.symm hb) hsome
        exact ⟨F'', y, hsteps.trans hmore, h'', .inr hy⟩
    · push Not at hunsent
      obtain ⟨a, b, hb, hsome⟩ := hunsent
      obtain ⟨F'', y, hmore, hy, h''⟩ := h'.exists_write happ hads (hempty a) hb hsome
      exact ⟨F'', y, hsteps.trans hmore, h'', .inr hy⟩
  · exact ⟨F', y, hsteps, h', .inr hy⟩

omit [Fintype P] in
/-- Behind calm steps of the hosts there are deliveries. -/
theorem Refines.calmSteps (happ : app.Lawful) (hads : ads.Lawful) (h : Refines links app ar ads F q)
    (hs : CalmSteps links app ar ads F F') : ∃ q',
    Relation.ReflTransGen (fun q q' => Delivers (app.protocol links.nbrs) q' q) q q' ∧
      Refines links app ar ads F' q' := by
  induction hs with
  | refl => exact ⟨q, .refl, h⟩
  | tail _ hstep ih =>
      obtain ⟨q', hq', href⟩ := ih
      obtain ⟨e, hc, hcalm, hact⟩ := hstep
      obtain ⟨kind, q'', -, -, href', hdel, -, -⟩ := href.moved happ hads hc hcalm hact
      refine ⟨q'', ?_, href'⟩
      by_cases hkind : kind = .takes
      · rw [if_pos hkind] at hdel
        exact hq'.tail hdel
      · rw [if_neg hkind] at hdel
        exact hdel ▸ hq'

/-- **Hosts settle.**  Where the protocol alone comes to an end, calm steps of the hosts
lead to where they are idle, behind them some deliveries of the protocol; unless a message
comes up that the archive cannot write, or the protocol stops a host. -/
theorem exists_settled_hosts (happ : app.Lawful) (hads : ads.Lawful) {c : Config P S X}
    (hfly : c.Flies q) (href : Refines links app ar ads F q)
    (hend : ¬ (app.protocol links.nbrs).Endless c) (hopen : F.Open links) :
    ∃ F' c' q', CalmSteps links app ar ads F F' ∧ (app.protocol links.nbrs).Delivered c c' ∧
      c'.Flies q' ∧ Refines links app ar ads F' q' ∧
      (F'.Idle links ∨ F'.Unsendable app ar ads ∨
        ∃ a fault, (app.protocol links.nbrs).Aborts c' a fault) := by
  obtain ⟨y, hleft⟩ := exists_left href
  obtain ⟨F', -, hsteps, -, hdone⟩ := Descent.exists_done
    (fun (F : Fabric P O S) x (hx : F.Ready links app ar ads x) => hx.next happ hads)
    (acc_less hfly hend y) (⟨hleft, hopen⟩ : F.Ready links app ar ads (q, y))
  obtain ⟨q', hdel, href'⟩ := href.calmSteps happ hads hsteps
  obtain ⟨c', hc', hfly'⟩ := hfly.delivered hdel
  refine ⟨F', c', q', hsteps, hc', hfly', href', ?_⟩
  rcases hdone with hidle | hstuck
  · exact .inl hidle
  · exact .inr (href'.stuck happ hads hfly' hstuck)

end General

/-! ## Transaction gossip and proof of work -/

theorem Ex1RecvStep.txToBroadcast {N H A : Type} [LinearOrder N] [LinearOrder A] [DecidableEq H]
    {nb : List N} {L L' : BL_ProtocolLayerEx1 H A} {source : N} {obj : MessageObject H A}
    {out : Sends N H A} (h : Ex1RecvStep nb L source obj L' out) :
    L'.txToBroadcast = L.txToBroadcast := by
  cases h with
  | txs _ hsame => exact hsame
  | _ => rfl

theorem txToBroadcast_of_delivered {N H A : Type} [LinearOrder N] [LinearOrder A] [DecidableEq H]
    [Zero H] {nbrs : N → List N} {c c' : Ex1Config N H A}
    (h : (ex1Protocol H nbrs).Delivered c c') (n : N) :
    (c'.node n).txToBroadcast = (c.node n).txToBroadcast := by
  induction h with
  | refl => rfl
  | @tail d d' _ hs ih =>
      obtain ⟨k, hs⟩ := hs
      refine Eq.trans ?_ ih
      cases hs with
      | deliver _ hr =>
          exact d.forall_post (R := fun m L => L.txToBroadcast = (d.node m).txToBroadcast) _ _ _ _
            (ex1_recv hr).txToBroadcast (fun _ _ => rfl) n

/-- **Pools come to agree over sockets**: when nothing is to be announced, polls and events
alone can bring the hosts to where they are idle and connected hosts have the same
transactions, unless a message comes up that the archive cannot write. -/
theorem gossip_hosts_settle {N H A : Type} [LinearOrder N] [Fintype N] [LinearOrder A]
    [DecidableEq H] [Zero H] {links : Links N} {ar : Archive N (WireObject N H A)}
    {F : Fabric N (WireObject N H A) (BL_ProtocolLayerEx1 H A)}
    (h : SteadyRun links ex1Layer ar addrAd (fun _ _ => True) F) (hopen : F.Open links)
    (hqueue : ∀ n, (F.host n).layer.txToBroadcast = []) :
    ∃ F', CalmSteps links ex1Layer ar addrAd F F' ∧
      (F'.Idle links ∧ (∀ n, ∀ m ∈ links.nbrs n,
          (F'.host n).layer.txids = (F'.host m).layer.txids) ∨
        F'.Unsendable ex1Layer ar addrAd) := by
  obtain ⟨c, q, hc, hfly, hF⟩ := exists_network ex1Layer_lawful addrAd_lawful h
  have hkeep : (ex1Sys H links.nbrs).Under (fun _ a => Keeps a) c :=
    hc.mono fun _ _ _ hcond => hcond.1
  obtain ⟨F', c', q', hsteps, hdel, hfly', hF', hend⟩ :=
    exists_settled_hosts ex1Layer_lawful addrAd_lawful hfly hF
      (Gossip.not_endless_of_backed (Gossip.paid_of_under hkeep).1) hopen
  refine ⟨F', hsteps, ?_⟩
  rcases hend with hidle | hstop | ⟨a, fault, ha⟩
  · refine .inl ⟨hidle, fun n m hm => ?_⟩
    have hkeep' : (ex1Sys H links.nbrs).Under (fun _ a => Keeps a) c' := by
      clear hfly'
      induction hdel with
      | refl => exact hkeep
      | tail _ hs ih =>
          obtain ⟨k, hs⟩ := hs
          exact ih.step (show Keeps (.deliver k : Act N (Ex1Act A)) from trivial) hs
    have hqueue' : ∀ k, (c'.node k).txToBroadcast = [] := fun k => by
      rw [txToBroadcast_of_delivered hdel, hF.node_eq hfly]
      exact hqueue k
    have hwire : ∀ pk ∈ c'.wire, pk.body.isPOWBlock = true := by
      rw [hF'.wire_nil hfly' hidle]
      exact fun _ hpk => absurd hpk List.not_mem_nil
    obtain ⟨hb, hp⟩ := Gossip.paid_of_under hkeep'
    have heq := (Gossip.txids_subset hb hp hwire hqueue' hm).antisymm
      (Gossip.txids_subset hb hp hwire hqueue' (links.symm hm))
    rwa [hF'.node_eq hfly'] at heq
  · exact .inr hstop
  · -- the handlers of this protocol have no way to fail
    cases ha with
    | @fire n l _ hf => cases l <;> cases hf
    | deliver _ hf => cases hf

/-- The first host has announced a transaction, and the announcement is in its data
socket. -/
theorem gossip_hosts_settle_two : ∃ F F' : TwoGossips,
    SteadyRun twoLinks ex1Layer (tableArchive gossipMsgs) addrAd (fun _ _ => True) F ∧
      F.empty = false ∧ CalmSteps twoLinks ex1Layer (tableArchive gossipMsgs) addrAd F F' ∧
      (F'.Idle twoLinks ∧ (∀ n, ∀ m ∈ twoLinks.nbrs n,
          (F'.host n).layer.txids = (F'.host m).layer.txids) ∨
        F'.Unsendable ex1Layer (tableArchive gossipMsgs) addrAd) := by
  have hrun : (TransSys.exec (Fabric.next ex1Layer gossipMsgs)
      (fun F e => decide (F.Steady twoLinks ex1Layer (tableArchive gossipMsgs) addrAd e))
      (twoHosts ex1Layer) (gossipActs.take 2)).map
        (fun F : TwoGossips => decide (F.empty = false ∧
          ∀ n, (F.host n).layer.txToBroadcast = [] ∧
            ∀ m, twoLinks.sock n m ∈ (F.host n).peers.socketLayer.objects)) = some true := by
    decide +kernel
  obtain ⟨F, hF, hv⟩ := Option.map_eq_some_iff.mp hrun
  obtain ⟨hempty, hend⟩ := of_decide_eq_true hv
  have hsteady : SteadyRun twoLinks ex1Layer (tableArchive gossipMsgs) addrAd (fun _ _ => True) F :=
    steadyRun_twoHosts (fun _ _ hc => ⟨of_decide_eq_true hc, fun _ _ => trivial⟩) hF
  obtain ⟨F', hsteps, hF'⟩ :=
    gossip_hosts_settle hsteady (fun n m _ => (hend n).2 m) fun n => (hend n).1
  exact ⟨F, F', hsteady, hempty, hsteps, hF'⟩

/-- **Proof of work settles over sockets**: if the minted blocks have distinct hashes, polls
and events alone can bring the hosts to where they are idle, unless a message comes up
that the archive cannot write. -/
theorem pow_hosts_settle {N H A : Type} [LinearOrder N] [Fintype N] [LinearOrder A]
    [DecidableEq H] [Zero H] [Zero A] {sha : Sha256 H A} {links : Links N}
    {ar : Archive N (WireObject N H A)} {F : Fabric N (WireObject N H A) (PoWNode N H A)}
    (h : SteadyRun links (powLayer sha) ar addrAd (fun _ _ => True) F) (hopen : F.Open links)
    (hd : DistinctHashes sha F.layers) :
    ∃ F', CalmSteps links (powLayer sha) ar addrAd F F' ∧
      (F'.Idle links ∨ F'.Unsendable (powLayer sha) ar addrAd) := by
  obtain ⟨c, q, hc, hfly, hF⟩ := exists_network (powLayer_lawful sha) addrAd_lawful h
  have hdist := distinctHashes_congr (hF.node_eq hfly) hd
  obtain ⟨F', c', q', hsteps, hdel, -, -, hend⟩ :=
    exists_settled_hosts (powLayer_lawful sha) addrAd_lawful hfly hF
      (not_endless_of_distinct hc.reach hdist) hopen
  refine ⟨F', hsteps, ?_⟩
  rcases hend with hidle | hstop | ⟨a, fault, ha⟩
  · exact .inl hidle
  · exact .inr hstop
  · have hafter : (powSys sha links.nbrs).Reach c' ∧ DistinctHashes sha c' := by
      clear ha
      induction hdel with
      | refl => exact ⟨hc.reach, hdist⟩
      | tail _ hs ih =>
          obtain ⟨k, hs⟩ := hs
          have hr := fun n => ((chain_invariant ih.1 ih.2).node n).tree.rooted
          exact ⟨ih.1.step trivial hs, distinctHashes_deliver hr hs ih.2⟩
    have hchain := chain_invariant hafter.1 hafter.2
    exact absurd ha ((sync_invariant hafter.1 hafter.2).not_aborts hchain a fault)

/-- The first host has mined a block and announced it, and the announcement is in its data
socket. -/
theorem pow_hosts_settle_two : ∃ F F' : TwoNodes,
    SteadyRun twoLinks nonceLayer (tableArchive fetchMsgs) addrAd (fun _ _ => True) F ∧
      F.empty = false ∧ CalmSteps twoLinks nonceLayer (tableArchive fetchMsgs) addrAd F F' ∧
      (F'.Idle twoLinks ∨ F'.Unsendable nonceLayer (tableArchive fetchMsgs) addrAd) := by
  have hrun : (TransSys.exec (Fabric.next nonceLayer fetchMsgs)
      (fun F e => decide (F.Steady twoLinks nonceLayer (tableArchive fetchMsgs) addrAd e))
      (twoHosts nonceLayer) (fetchActs.take 4)).map
        (fun F : TwoNodes => decide (F.empty = false ∧
          ((mintedList nonceSha [0, 1] F.layers).map POWBlock.block_hash).Nodup ∧
            ∀ n m, twoLinks.sock n m ∈ (F.host n).peers.socketLayer.objects)) = some true := by
    decide +kernel
  obtain ⟨F, hF, hv⟩ := Option.map_eq_some_iff.mp hrun
  obtain ⟨hempty, hnodup, hend⟩ := of_decide_eq_true hv
  have hsteady : SteadyRun twoLinks nonceLayer (tableArchive fetchMsgs) addrAd
      (fun _ _ => True) F :=
    steadyRun_twoHosts (fun _ _ hc => ⟨of_decide_eq_true hc, fun _ _ => trivial⟩) hF
  obtain ⟨F', hsteps, hF'⟩ := pow_hosts_settle hsteady (fun n m _ => hend n m)
    (distinctHashes_of_nodup (by decide) hnodup)
  exact ⟨F, F', hsteady, hempty, hsteps, hF'⟩

end Bleep
