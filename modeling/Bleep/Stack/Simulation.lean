/-
# `Bleep.Stack.Simulation` — what the protocol does over the layers, it does over messages

A step of steady hosts is a step of the network of queues, or no step of it
(`Refines.outcome`): the timers of the protocol and the messages it takes are
steps, while reading, writing, parsing, `PING`, `PONG` and advertisements move
messages from one place to the next.  The layers of sockets and of peers do not
fail; if a host stops, its protocol handler stops it.

So every state that the hosts come to is one of the network of messages, with
connections that keep the order and lose nothing (`fabric_simulated`), and what was
proved of all runs of the protocol there holds of the hosts.
-/
import Bleep.Stack.Refines

namespace Bleep

open Framing Protocol BL_SocketLayer_API BL_PeerConnectivityLayer_API

variable {P O S X L : Type}

/-- The archive of addresses reads what it wrote. -/
def AddrAd.Lawful (ads : AddrAd P O) : Prop :=
    ∀ vAddr, ads.vAddr (some (ads.make vAddr)) = some vAddr

variable {app : ProtocolLayer P O S X L} {ar : Archive P O} {ads : AddrAd P O}

/-! ## What the hosts send -/

theorem carried_message (happ : app.Lawful) (k : PeerAnswers P) (me : P) (e : P × X)
    (hs : Sendable ar (app.message k me e)) : Carried app ar ads me (app.message k me e) where
  src := rfl
  sendable := hs
  listed := happ.listed e.2
  notify h := happ.own e.2 (by rw [show app.type e.2 = _ from h]; exact List.mem_cons_self)
  addr h := absurd (show app.type e.2 ∈ peerTypes by rw [show app.type e.2 = _ from h]; decide)
    (happ.own e.2)
  own _ := ⟨e.2, happ.read e.2⟩

theorem payload_message (happ : app.Lawful) (k : PeerAnswers P) (me : P) (e : P × X) :
    app.payload (app.message k me e) = some e.2 := by
  have hread : app.read (app.message k me e).type (app.message k me e).ptrToObj = .ok (some e.2) :=
    happ.read e.2
  have hown : (app.message k me e).type ∉ peerTypes := happ.own e.2
  rw [ProtocolLayer.payload, if_neg hown, hread]

theorem carried_peers {msg : Message P O} (ht : msg.type ∈ ["ADDR", "PING", "PONG"])
    (haddr : msg.type = "ADDR" → (ads.vAddr msg.ptrToObj).isSome = true) (hs : Sendable ar msg) :
    Carried app ar ads msg.src msg := by
  have hall : ∀ type ∈ ["ADDR", "PING", "PONG"], MessageType.listed type = true ∧
      type ≠ "notifyPeerId" ∧ type ∈ peerTypes := by decide
  obtain ⟨hlisted, hnotify, hpeers⟩ := hall msg.type ht
  exact ⟨rfl, hs, hlisted, hnotify, haddr, fun h => absurd hpeers h⟩

theorem carried_pingMsg (k : PeerAnswers P) (me id : P) (hs : Sendable ar (pingMsg k me id)) :
    Carried app ar ads me (pingMsg k me id) :=
  carried_peers (show "PING" ∈ _ by decide) (fun h => absurd h (by decide : "PING" ≠ "ADDR")) hs

theorem carried_pongMsg (k : PeerAnswers P) (me id : P) (hs : Sendable ar (Host.pongMsg k me id)) :
    Carried app ar ads me (Host.pongMsg k me id) :=
  carried_peers (show "PONG" ∈ _ by decide) (fun h => absurd h (by decide : "PONG" ≠ "ADDR")) hs

theorem carried_adMsg (hads : ads.Lawful) (k : PeerAnswers P) (me : P) (e : P × List P)
    (hs : Sendable ar (adMsg ads k me e)) : Carried app ar ads me (adMsg ads k me e) := by
  refine carried_peers (show "ADDR" ∈ _ by decide) (fun _ => ?_) hs
  have hv : ads.vAddr (adMsg ads k me e).ptrToObj = some e.2 := hads e.2
  rw [hv, Option.isSome_some]

variable [LinearOrder P] {links : Links P} {F : Fabric P O S} {q : Queues P S X} {n : P}

theorem payloads_messages (happ : app.Lawful) (k : PeerAnswers P) (me : P) (out : List (P × X))
    (m : P) : ((out.map (app.message k me)).filter (·.dest = m)).filterMap app.payload =
      sentTo out m := by
  have hdest : ∀ e : P × X, (app.message k me e).dest = e.1 := fun _ => rfl
  have hcomp : app.payload ∘ app.message k me = some ∘ Prod.snd :=
    funext fun e => payload_message happ k me e
  rw [List.filter_map, List.filterMap_map, hcomp, List.filterMap_eq_map, sentTo]
  rfl

/-! ## What the layer of peers does with its events -/

section Peers

variable {N : BL_PeerConnectivityLayer_API P O}

/-- A message between the layers of peers is answered, noted or dropped. -/
theorem recvMsgHandler_posted (hl : Linked links n N) (k : PeerAnswers P) {msg : Message P O}
    (hsrc : msg.src ∈ links.nbrs n) (hc : Carried app ar ads msg.src msg)
    (ht : msg.type ∈ peerTypes) : ∃ N', N.recvMsgHandler ar ads k msg.src msg = .ok N' ∧
      Posted ar N N'
        (if msg.type = "PING" then [Host.pongMsg k N.peerManager.myPeerId msg.src] else []) := by
  obtain ⟨p, hp, -⟩ := hl.findPeer hsrc
  have hid : p.id = msg.src := PeerManager.id_of_findPeer hp
  have hcases :
      msg.type = "GETADDR" ∨ msg.type = "ADDR" ∨ msg.type = "PING" ∨ msg.type = "PONG" := by
    simp only [peerTypes, List.mem_cons, List.not_mem_nil, or_false] at ht
    exact ht.resolve_left hc.notify
  rcases hcases with ht | ht | ht | ht
  · refine ⟨N, ?_, ?_⟩
    · simp [recvMsgHandler, ht]
    · rw [if_neg (by rw [ht]; decide)]
      exact .refl N
  · obtain ⟨vAddr, hv⟩ := Option.isSome_iff_exists.mp (hc.addr ht)
    have hne : N.peerManager.getPeers ≠ [] := by
      intro hnil
      have hmem : (msg.src, p) ∈ N.peerManager.getPeers := PeerManager.mem_getPeers.mpr hp
      rw [hnil] at hmem
      cases hmem
    obtain ⟨ad, had⟩ := recvAddrs_total hne msg.src vAddr.length vAddr k.draws N.adManager
    refine ⟨{ N with adManager := ad }, ?_, ?_⟩
    · simp only [recvMsgHandler, ht, hv, had]
      rfl
    · rw [if_neg (by rw [ht]; decide)]
      exact .of_peers rfl (.refl _) rfl
  · refine ⟨(N.sendMsgToPeer ar msg.src (Host.pongMsg k N.peerManager.myPeerId msg.src)).2, ?_, ?_⟩
    · simp only [recvMsgHandler, ht]
      rfl
    · rw [if_pos ht]
      have hdest : (Host.pongMsg k N.peerManager.myPeerId msg.src : Message P O).dest = msg.src :=
        rfl
      exact posted_sendMsgToPeer (Host.pongMsg k N.peerManager.myPeerId msg.src) rfl
  · refine ⟨N.setPeer (p.setPongReceived true), ?_, ?_⟩
    · simp only [recvMsgHandler, ht, hp]
      rfl
    · rw [if_neg (by rw [ht]; decide)]
      exact posted_setPong (hid.symm ▸ hp) true

theorem recvMsgHandler_protocol (k : PeerAnswers P) {src : P} {msg : Message P O}
    (ht : msg.type ∉ peerTypes) :
    N.recvMsgHandler ar ads k src msg = .ok (N.pushAsyncEvent (.protocolRecvMsg msg)) := by
  simp only [peerTypes, List.mem_cons, List.not_mem_nil, or_false, not_or] at ht
  obtain ⟨hnotify, hgetaddr, haddr, hping, hpong⟩ := ht
  rw [recvMsgHandler, if_neg hnotify, if_neg hgetaddr, if_neg haddr, if_neg hping, if_neg hpong]

theorem disconnectSilent_of_alive {l : List (P × Peer P)} (h : ∀ e ∈ l, e.2.pongReceived = true) :
    disconnectSilent l N = .ok N := by
  induction l with
  | nil => rfl
  | cons e l ih =>
      have he : e.2.isPongReceived = true := h e List.mem_cons_self
      rw [disconnectSilent, if_pos he]
      exact ih fun e he => h e (List.mem_cons_of_mem _ he)

theorem timerCallback_of_idle (hl : Linked links n N) {selected : List (Option P)}
    (h : N.wants selected = false) (answer : ConnectAnswer) :
    N.timerCallback selected answer = .ok N := by
  have htrials : ∀ {l : List (Option P)}, N.meetsAbsent l = false → N.trials answer l = .ok N := by
    intro l hmeets
    induction l with
    | nil => rfl
    | cons o l ih =>
        simp only [meetsAbsent, List.any_cons, Bool.or_eq_false_iff] at hmeets
        cases o with
        | none => exact ih hmeets.2
        | some addr =>
            obtain ⟨p, hp⟩ : ∃ p, N.peerManager.findPeer addr = some p := by
              simpa [Option.isSome_iff_exists] using hmeets.1
            simp only [trials, hp, hl.active hp, if_true]
            exact ih hmeets.2
  rw [wants, Bool.and_eq_false_iff] at h
  unfold timerCallback
  split
  · next hlt =>
      rcases h with h | h
      · exact absurd hlt (of_decide_eq_false h)
      · exact htrials h
  · rfl

theorem Linked.referenced (hl : Linked links n N) {sock : SocketPtr P}
    (h : sock ∈ N.socketLayer.objects) : N.referenced sock = true := by
  obtain ⟨m, hm, rfl⟩ := hl.objects sock h
  rw [BL_PeerConnectivityLayer_API.referenced, decide_eq_true (hl.data m hm), Bool.true_or,
    Bool.true_or]

theorem Linked.act_eq_move (hl : Linked links n N) {a : NodeAct P O}
    (ha : ∀ sock, a ≠ .destroy sock) : N.act ar ads a = N.move ar ads a := by
  have hsettled : N.settled = true := List.all_eq_true.mpr fun _ hs => hl.referenced hs
  cases a with
  | destroy sock => exact absurd rfl (ha sock)
  | _ => exact if_pos hsettled

end Peers

/-! ## One step -/

/-- The message a host gives to its protocol layer in an action, and the state of the
layer. -/
def Fabric.taken (app : ProtocolLayer P O S X L) (F : Fabric P O S) :
    P × HostAct P O L → Option (S × X)
  | (n, .node a) =>
      ((F.host n).peers.protocolMsg a).bind fun km =>
        (app.payload km.2).map fun x => ((F.host n).layer, x)
  | (_, .timer _ _) => none

/-- What becomes of the hosts, beside the network of queues, in an action in which
`taken` is taken. -/
inductive Outcome (links : Links P) (app : ProtocolLayer P O S X L) (ar : Archive P O)
    (ads : AddrAd P O) (q : Queues P S X) (taken : Option (S × X)) :
    Except Fault (Fabric P O S) → Prop
  | stays {F : Fabric P O S} : Refines links app ar ads F q →
      Outcome links app ar ads q taken (.ok F)
  | moves {F : Fabric P O S} {l : FifoAct P L} {q' : Queues P S X} : q.taken l = taken →
      (app.protocol links.nbrs).FifoStep q l q' → Refines links app ar ads F q' →
      Outcome links app ar ads q taken (.ok F)
  | aborts {l : FifoAct P L} {e : Fault} : (app.protocol links.nbrs).FifoAborts q l e →
      Outcome links app ar ads q taken (.error e)

theorem Refines.sends (happ : app.Lawful) (h : Refines links app ar ads F q) (k : PeerAnswers P)
    (layer : S) {out : List (P × X)}
    (hs : ∀ msg ∈ out.map (app.message k (F.host n).me), Sendable ar msg)
    (hlocal : ∀ e ∈ out, e.1 ∈ links.nbrs n) :
    Refines links app ar ads (F.set n ((F.host n).sends app ar k layer out) F.pipe)
      (q.post n layer out q.chan) := by
  have hme : (F.host n).me = n := (h.linked n).me
  have hcarried : ∀ msg ∈ out.map (app.message k (F.host n).me), Carried app ar ads n msg := by
    intro msg hmsg
    have hsend := hs msg hmsg
    obtain ⟨e, -, rfl⟩ := List.mem_map.mp hmsg
    have hc : Carried app ar ads (F.host n).me (app.message k (F.host n).me e) :=
      carried_message happ k (F.host n).me e hsend
    rwa [hme] at hc ⊢
  refine h.post (posted_sendMsgs fun msg hmsg => ?_) hcarried
    (fun m => payloads_messages happ k _ out m) hlocal
  obtain ⟨e, -, rfl⟩ := List.mem_map.mp hmsg
  rfl

theorem Refines.takes (happ : app.Lawful) (h : Refines links app ar ads F q) (k : PeerAnswers P)
    {msg : Message P O} {queue : List (AsyncEvent P O)}
    (hq : (F.host n).peers.socketLayer.eventQueue = .protocolRecvMsg msg :: queue) {x : X}
    (hx : app.payload msg = some x) {layer : S} {out : List (P × X)}
    (hr : app.recv n (links.nbrs n) msg.src x (F.host n).layer = .ok (layer, out))
    (hsend : ∀ m ∈ out.map (app.message k n), Sendable ar m) :
    (∀ e ∈ out, e.1 ∈ links.nbrs n) ∧ ∃ q', (app.protocol links.nbrs).FifoStep q
        (.deliver msg.src n) q' ∧ q.taken (.deliver msg.src n : FifoAct P L) =
          some ((F.host n).layer, x) ∧
      Refines links app ar ads (F.set n (Host.sends app ar
        { F.host n with peers := (F.host n).peers.popAsyncEvent queue } k layer out)
        F.pipe) q' := by
  obtain ⟨-, hsrc, -⟩ := h.events n _ (by rw [hq]; exact List.mem_cons_self)
  obtain ⟨rest, hchan, hpop⟩ := h.deliver hq hx
  have hpopped : Host.me (P := P) (O := O) (S := S)
      { F.host n with peers := (F.host n).peers.popAsyncEvent queue } = n := (h.linked n).me
  have hlocal : ∀ e ∈ out, e.1 ∈ links.nbrs n := by
    intro e he
    exact (happ.recv hr e he).elim id fun heq => heq ▸ hsrc
  refine ⟨hlocal, q.post n layer out (q.pop msg.src n rest), .deliver hchan ?_, ?_, ?_⟩
  · rw [← h.layer]
    exact hr
  · rw [Queues.taken, hchan, h.layer]
    rfl
  · have hafter := hpop.sends (n := n) happ k layer (by rw [F.set_host_self, hpopped]; exact hsend)
      hlocal
    rw [F.set_host_self, F.set_set] at hafter
    exact hafter

theorem Refines.outcome_protocol (happ : app.Lawful) (h : Refines links app ar ads F q)
    (k : PeerAnswers P) {msg : Message P O} {queue : List (AsyncEvent P O)}
    (hq : (F.host n).peers.socketLayer.eventQueue = .protocolRecvMsg msg :: queue)
    (hsend : ∀ m ∈ (F.host n).outbox app ads (.node (.handleEvent k)), Sendable ar m) :
    Outcome links app ar ads q ((app.payload msg).map fun x => ((F.host n).layer, x))
      (({ F.host n with peers := (F.host n).peers.popAsyncEvent queue }.recvMsgHandler app ar k
        msg).map fun host => F.set n host F.pipe) := by
  obtain ⟨hown, hsrc, hc⟩ := h.events n _ (by rw [hq]; exact List.mem_cons_self)
  obtain ⟨x, hx⟩ := hc.own hown
  have hpay : app.payload msg = some x := by rw [ProtocolLayer.payload, if_neg hown, hx]
  have hids : (F.host n).peers.getNeighborPeerIds = links.nbrs n := (h.linked n).ids
  have hme : (F.host n).me = n := (h.linked n).me
  have hpopped : Host.me (P := P) (O := O) (S := S)
      { F.host n with peers := (F.host n).peers.popAsyncEvent queue } = n := hme
  have hpoppedIds : ((F.host n).peers.popAsyncEvent queue).getNeighborPeerIds = links.nbrs n := hids
  simp only [Host.recvMsgHandler, hx]
  simp only [Host.outbox, hq, hx, hme, hids] at hsend
  show Outcome links app ar ads q _ (Except.map _ (Except.bind (app.recv _ _ _ _ _) _))
  rw [hpopped, hpoppedIds, hpay]
  cases hr : app.recv n (links.nbrs n) msg.src x (F.host n).layer with
  | error e =>
      obtain ⟨rest, hchan, -⟩ := h.deliver hq hpay
      refine .aborts (l := .deliver msg.src n) (.deliver hchan ?_)
      rw [← h.layer]
      exact hr
  | ok r =>
      obtain ⟨layer, out⟩ := r
      simp only [hr] at hsend
      obtain ⟨-, q', hstep, htaken, hafter⟩ := h.takes happ k hq hpay hr hsend
      exact .moves htaken hstep hafter

theorem Fabric.eventFlow_recv {m : P} (hm : m ∈ links.nbrs n) (k : PeerAnswers P) :
    F.eventFlow links n k (some (.socketRecv (links.sock n m))) = fun a b =>
      if a = m ∧ b = n then (F.pipe a b).drop (received k.recv).length else F.pipe a b := by
  funext a b
  simp only [Fabric.eventFlow, links.far_sock hm, Option.some.injEq, eq_comm]

theorem Fabric.eventFlow_write {m : P} (hm : m ∈ links.nbrs n) (k : PeerAnswers P) :
    F.eventFlow links n k (some (.socketWrite (links.sock n m))) = fun a b =>
      if a = n ∧ b = m then
        F.pipe a b ++ (F.host n).peers.socketLayer.written (links.sock n m).getFD k.send
      else F.pipe a b := by
  funext a b
  simp only [Fabric.eventFlow, links.far_sock hm, Option.some.injEq, eq_comm]

section Handlers

variable {k : PeerAnswers P} {queue : List (AsyncEvent P O)}

theorem Refines.handleRecv (hpopped : Refines links app ar ads
      (F.set n { F.host n with peers := (F.host n).peers.popAsyncEvent queue } F.pipe) q)
    {m : P} (hm : m ∈ links.nbrs n) (hrecv : ∀ r ∈ k.recv, r ≠ .closed ∧ r ≠ .failed)
    (hreads : received k.recv <+: F.pipe m n) :
    ∃ N', ((F.host n).peers.popAsyncEvent queue).handleAsyncEvent ar ads k
        (.socketRecv (links.sock n m)) = .ok N' ∧
      Refines links app ar ads (F.set n { F.host n with peers := N' }
        (F.eventFlow links n k (some (.socketRecv (links.sock n m))))) q := by
  obtain ⟨layer, hlayer, hafter⟩ := hpopped.recv (n := n) hm hrecv hreads
  rw [F.set_host_self, F.set_set] at hafter
  rw [F.set_host_self] at hlayer
  refine ⟨{ (F.host n).peers with socketLayer := layer }, ?_, ?_⟩
  · exact bind_ok.mpr ⟨layer, hlayer, rfl⟩
  · rw [Fabric.eventFlow_recv hm]
    exact hafter

theorem Refines.handleWrite (h : Refines links app ar ads F q) (hpopped : Refines links app ar ads
      (F.set n { F.host n with peers := (F.host n).peers.popAsyncEvent queue } F.pipe) q)
    {m : P} (hm : m ∈ links.nbrs n) (hsend : ∀ nbytes ∈ k.send, 0 ≤ nbytes) :
    ∃ N', ((F.host n).peers.popAsyncEvent queue).handleAsyncEvent ar ads k
        (.socketWrite (links.sock n m)) = .ok N' ∧
      Refines links app ar ads (F.set n { F.host n with peers := N' }
        (F.eventFlow links n k (some (.socketWrite (links.sock n m))))) q := by
  have hdata := (h.linked n).data m hm
  obtain ⟨⟨out, s⟩, hs⟩ :=
    ((F.host n).peers.socketLayer.heap (links.sock n m).obj).doSend_total hsend
  have hwritten : (F.host n).peers.socketLayer.written (links.sock n m).getFD k.send = out := by
    simp only [written, hdata, hs]
  have hafter := hpopped.write (n := n) hm (by rw [F.set_host_self]; exact hs)
  rw [F.set_host_self, F.set_set] at hafter
  refine ⟨{ (F.host n).peers.popAsyncEvent queue with
    socketLayer := ((F.host n).peers.popAsyncEvent queue).socketLayer.setSocket
      (links.sock n m).obj s }, ?_, ?_⟩
  · have hwrite : ((F.host n).peers.popAsyncEvent queue).socketLayer.writeHandler
        (links.sock n m).getFD k.send = .ok
          (((F.host n).peers.popAsyncEvent queue).socketLayer.setSocket
            (links.sock n m).obj s) := by
      have hdata' : ((F.host n).peers.popAsyncEvent queue).socketLayer.getDataSocket
          (links.sock n m).getFD = some (links.sock n m) := hdata
      simp only [writeHandler, hdata']
      exact bind_ok.mpr ⟨(out, s), hs, rfl⟩
    exact bind_ok.mpr ⟨_, hwrite, rfl⟩
  · rw [Fabric.eventFlow_write hm, hwritten]
    exact hafter

/-- A message of the layer of peers; only a `PING` is answered. -/
theorem Refines.handlePeerMsg (hpopped : Refines links app ar ads
      (F.set n { F.host n with peers := (F.host n).peers.popAsyncEvent queue } F.pipe) q)
    {msg : Message P O} (hsrc : msg.src ∈ links.nbrs n) (hcar : Carried app ar ads msg.src msg)
    (ht : msg.type ∈ peerTypes)
    (hsendable : ∀ m ∈ (if msg.type = "PING" then [Host.pongMsg k n msg.src] else []),
      Sendable ar m) :
    ∃ N', ((F.host n).peers.popAsyncEvent queue).recvMsgHandler ar ads k msg.src msg = .ok N' ∧
      Refines links app ar ads (F.set n { F.host n with peers := N' } F.pipe) q := by
  have hl := hpopped.linked n
  rw [F.set_host_self] at hl
  obtain ⟨N', hN', hposted⟩ := recvMsgHandler_posted hl k hsrc hcar ht
  refine ⟨N', hN', ?_⟩
  have hpong : ∀ m ∈ (if msg.type = "PING" then [Host.pongMsg k n msg.src] else []),
      Carried app ar ads n m ∧ m.type ∈ peerTypes := by
    intro m hm
    have hsend := hsendable m hm
    split at hm
    · obtain rfl := List.mem_singleton.mp hm
      exact ⟨carried_pongMsg k n msg.src hsend, (by decide : "PONG" ∈ peerTypes)⟩
    · cases hm
  have hposted' : Posted ar (((F.set n { F.host n with
      peers := (F.host n).peers.popAsyncEvent queue } F.pipe).host n).peers) N'
        (if msg.type = "PING" then [Host.pongMsg k n msg.src] else []) := by
    rw [F.set_host_self]
    rw [hl.me] at hposted
    exact hposted
  have hafter := hpopped.post_peers hposted' (fun m hm => (hpong m hm).1)
    fun m hm => (hpong m hm).2
  rw [F.set_host_self, F.set_set] at hafter
  exact hafter

theorem Refines.handleEvent (h : Refines links app ar ads F q) {event : AsyncEvent P O}
    (hq : (F.host n).peers.socketLayer.eventQueue = event :: queue)
    (hne : ∀ msg, event ≠ .protocolRecvMsg msg)
    (hc : F.Steady links app ar ads (n, .node (.handleEvent k))) :
    ∃ N', ((F.host n).peers.popAsyncEvent queue).handleAsyncEvent ar ads k event = .ok N' ∧
      Refines links app ar ads
        (F.set n { F.host n with peers := N' } (F.eventFlow links n k (some event))) q := by
  have hexp := h.events n _ (by rw [hq]; exact List.mem_cons_self)
  have hrest : ∀ e ∈ queue, Expected links app ar ads n e := fun e he =>
    h.events n e (by rw [hq]; exact List.mem_cons_of_mem _ he)
  obtain ⟨⟨hrecv, hsend⟩, hreads, hsendable⟩ := hc
  -- the event is popped, and its handler runs in what is left
  have hpop : ∀ queue', (∀ e ∈ queue', Expected links app ar ads n e) →
      (∀ a, waiting app a queue' = waiting app a (event :: queue)) →
      Refines links app ar ads
        (F.set n { F.host n with peers := (F.host n).peers.popAsyncEvent queue' } F.pipe) q := by
    intro queue' he hw
    exact h.queue he fun a => (hw a).trans (by rw [hq])
  cases event with
  | socketRecv sock =>
      obtain ⟨m, hm, rfl⟩ := hexp
      have hfar := links.far_sock hm
      simp only [Fabric.Reads, Fabric.reading, hq, Option.mem_some_iff, forall_eq', hfar] at hreads
      have hpopped := hpop queue hrest fun a => (waiting_pop rfl).symm
      exact hpopped.handleRecv hm hrecv hreads
  | socketWrite sock =>
      obtain ⟨m, hm, rfl⟩ := hexp
      have hpopped := hpop queue hrest fun a => (waiting_pop rfl).symm
      exact h.handleWrite hpopped hm hsend
  | peerRecvMsg src msg =>
      obtain ⟨rfl, hsrc, hcar⟩ := hexp
      by_cases ht : msg.type ∈ peerTypes
      · have hnone : app.payload msg = none := if_pos ht
        have hpopped := hpop queue hrest fun a => (waiting_pop_peer _ hnone).symm
        refine hpopped.handlePeerMsg hsrc hcar ht fun m hm => hsendable m ?_
        simp only [Host.outbox, hq, Host.me, (h.linked n).me]
        exact hm
      · -- it is handed over to the protocol layer
        refine ⟨_, recvMsgHandler_protocol k ht, ?_⟩
        have hpush := hpop (queue ++ [.protocolRecvMsg msg]) ?_ fun a => waiting_handOver
        · exact hpush
        · intro e he
          rcases List.mem_append.mp he with he | he
          · exact hrest e he
          · obtain rfl := List.mem_singleton.mp he
            exact ⟨ht, hsrc, hcar⟩
  | protocolRecvMsg msg => exact absurd rfl (hne msg)
  | _ => exact hexp.elim

end Handlers

theorem Fabric.act_node {a : NodeAct P O} {r : Except Fault (Fabric P O S)}
    (hnone : (F.host n).peers.protocolMsg a = none)
    (hs : F.act links app ar ads n (.node a) = some r) :
    ∃ N, (F.host n).peers.act ar ads a = some N ∧
      r = N.map fun peers =>
        F.set n { F.host n with peers } (F.flow links n (.node a : HostAct P O L)) := by
  obtain ⟨h', hh, rfl⟩ := Option.map_eq_some_iff.mp hs
  obtain ⟨N, hN, rfl⟩ := Option.map_eq_some_iff.mp hh
  refine ⟨N, hN, ?_⟩
  cases N with
  | error e => rfl
  | ok peers =>
      simp only [hnone]
      rfl

theorem protocolMsg_eq_some {N : BL_PeerConnectivityLayer_API P O} {a : NodeAct P O}
    {k : PeerAnswers P} {msg : Message P O} (h : N.protocolMsg a = some (k, msg)) :
    a = .handleEvent k ∧ ∃ queue, N.socketLayer.eventQueue = .protocolRecvMsg msg :: queue := by
  cases a with
  | handleEvent k' =>
      unfold protocolMsg at h
      simp only at h
      split at h
      · next msg' queue hq =>
          obtain ⟨rfl, rfl⟩ := Prod.mk.inj (Option.some.inj h)
          exact ⟨rfl, queue, hq⟩
      · cases h
  | _ => cases h

theorem handleNext_of_ne {N : BL_PeerConnectivityLayer_API P O} {k : PeerAnswers P}
    {event : AsyncEvent P O} {queue : List (AsyncEvent P O)}
    (hq : N.socketLayer.eventQueue = event :: queue) (hne : event ≠ .socketAccept) :
    N.handleNext ar ads k = some ((N.popAsyncEvent queue).handleAsyncEvent ar ads k event) := by
  cases event with
  | socketAccept => exact absurd rfl hne
  | _ => simp only [handleNext, hq]

theorem Refines.exists_event (h : Refines links app ar ads F q) {k : PeerAnswers P}
    {N : Except Fault (BL_PeerConnectivityLayer_API P O)}
    (hnone : (F.host n).peers.protocolMsg (.handleEvent k) = none)
    (hN : (F.host n).peers.act ar ads (.handleEvent k) = some N) :
    ∃ event queue, (F.host n).peers.socketLayer.eventQueue = event :: queue ∧
      (∀ msg, event ≠ .protocolRecvMsg msg) ∧
      ((F.host n).peers.popAsyncEvent queue).handleAsyncEvent ar ads k event = N ∧
      F.flow links n (.node (.handleEvent k) : HostAct P O L) =
        F.eventFlow links n k (some event) := by
  have hmove := move_of_act (by rintro _ ⟨⟩) hN
  cases hq : (F.host n).peers.socketLayer.eventQueue with
  | nil => simp [move, handleNext, hq] at hmove
  | cons event queue =>
      have hexp := h.events n event (by rw [hq]; exact List.mem_cons_self)
      have hne : ∀ msg, event ≠ .protocolRecvMsg msg := by
        rintro msg rfl
        simp [protocolMsg, hq] at hnone
      have hacc : event ≠ .socketAccept := by
        rintro rfl
        exact hexp
      rw [move, handleNext_of_ne hq hacc] at hmove
      refine ⟨event, queue, rfl, hne, Option.some.inj hmove, ?_⟩
      rw [Fabric.flow, hq, List.head?_cons]

theorem Fabric.act_protocol {k : PeerAnswers P} {msg : Message P O}
    {queue : List (AsyncEvent P O)} {r : Except Fault (Fabric P O S)}
    (hq : (F.host n).peers.socketLayer.eventQueue = .protocolRecvMsg msg :: queue)
    (hs : F.act links app ar ads n (.node (.handleEvent k)) = some r) :
    r = ({ F.host n with peers := (F.host n).peers.popAsyncEvent queue }.recvMsgHandler app ar k
      msg).map fun host => F.set n host F.pipe := by
  have hp : (F.host n).peers.protocolMsg (.handleEvent k) = some (k, msg) := by
    simp only [protocolMsg, hq]
  obtain ⟨host, hh, rfl⟩ := Option.map_eq_some_iff.mp hs
  obtain ⟨N, hN, rfl⟩ := Option.map_eq_some_iff.mp hh
  have hmove := move_of_act (by rintro _ ⟨⟩) hN
  rw [move, handleNext_of_ne hq (by rintro ⟨⟩)] at hmove
  obtain rfl := Option.some.inj hmove
  have hflow : F.flow links n (.node (.handleEvent k) : HostAct P O L) = F.pipe := by
    rw [Fabric.flow, hq]
    rfl
  simp only [hp, hflow]
  show Except.bind (Host.recvMsgHandler app ar
    { F.host n with peers := (F.host n).peers.popAsyncEvent queue } k msg)
      (fun host => .ok (F.set n host F.pipe)) = _
  generalize Host.recvMsgHandler app ar
    { F.host n with peers := (F.host n).peers.popAsyncEvent queue } k msg = host
  cases host with
  | error e => rfl
  | ok host => rfl

/-- An action of the layers below in which no message gets to the protocol. -/
theorem Refines.node (hads : ads.Lawful) (h : Refines links app ar ads F q) {a : NodeAct P O}
    {N : Except Fault (BL_PeerConnectivityLayer_API P O)}
    (hc : F.Steady links app ar ads (n, .node a)) (hnone : (F.host n).peers.protocolMsg a = none)
    (hN : (F.host n).peers.act ar ads a = some N) : ∃ N', N = .ok N' ∧
      Refines links app ar ads
        (F.set n { F.host n with peers := N' } (F.flow links n (.node a : HostAct P O L))) q := by
  have hl := h.linked n
  have hme : (F.host n).me = n := hl.me
  obtain ⟨hsteady, -, hsend⟩ := id hc
  cases a with
  | dataSocketIOCallback sock readable =>
      have hmove := move_of_act (by rintro _ ⟨⟩) hN
      simp only [move] at hmove
      split at hmove
      · next hg =>
          obtain rfl := Option.some.inj hmove
          obtain ⟨m, hm, rfl⟩ := hl.objects sock hg.1
          refine ⟨_, rfl, ?_⟩
          have hexp : Expected links app ar ads n (if readable then .socketRecv (links.sock n m)
              else .socketWrite (links.sock n m)) := by
            split
            · exact ⟨m, hm, rfl⟩
            · exact ⟨m, hm, rfl⟩
          have hkind : AsyncEvent.isMessage (P := P) (O := O) (if readable then
              .socketRecv (links.sock n m) else .socketWrite (links.sock n m)) = false := by
            split
            · rfl
            · rfl
          refine h.queue (fun event he => ?_) fun a => waiting_push hkind
          rcases List.mem_append.mp he with he | he
          · exact h.events n event he
          · exact List.mem_singleton.mp he ▸ hexp
      · cases hmove
  | pingtimerCallback k =>
      have hmove := move_of_act (by rintro _ ⟨⟩) hN
      simp only [move, pingtimerCallback, disconnectSilent_of_alive hsteady] at hmove
      obtain rfl := Option.some.inj hmove
      simp only [Host.outbox, hme] at hsend
      refine ⟨_, rfl, h.post_peers (posted_pingAll k (fun e he => PeerManager.mem_getPeers.mp he)
        (getPeers_pairwise _)) (fun msg hmsg => ?_) fun msg hmsg => ?_⟩
      · rw [hl.me] at hmsg
        have hmsg' := hsend msg hmsg
        obtain ⟨e, -, rfl⟩ := List.mem_map.mp hmsg
        exact carried_pingMsg k n e.1 hmsg'
      · obtain ⟨e, -, rfl⟩ := List.mem_map.mp hmsg
        exact (by decide : "PING" ∈ peerTypes)
  | timerCallback selected answer =>
      have hmove := move_of_act (by rintro _ ⟨⟩) hN
      simp only [move, timerCallback_of_idle hl hsteady] at hmove
      split at hmove
      · obtain rfl := Option.some.inj hmove
        refine ⟨_, rfl, ?_⟩
        exact h.queue (h.events n) fun _ => rfl
      · cases hmove
  | sendAdToPeers k =>
      have hmove := move_of_act (by rintro _ ⟨⟩) hN
      obtain rfl := Option.some.inj hmove
      simp only [Host.outbox, hme] at hsend
      have hads' : Posted ar (F.host n).peers
          (sendAds ar ads k (F.host n).peers.adManager.addrToSend.toList (F.host n).peers)
          ((F.host n).peers.adManager.addrToSend.toList.map
            (adMsg ads k (F.host n).peers.peerManager.myPeerId)) := posted_sendAds ads k
      rw [hl.me] at hads'
      have hposted : Posted ar (F.host n).peers ((F.host n).peers.sendAdToPeers ar ads k) _ :=
        hads'.trans (.of_peers rfl (.refl _) rfl)
      rw [List.append_nil] at hposted
      refine ⟨_, rfl, h.post_peers hposted (fun msg hmsg => ?_) fun msg hmsg => ?_⟩
      · have hmsg' := hsend msg hmsg
        obtain ⟨e, -, rfl⟩ := List.mem_map.mp hmsg
        exact carried_adMsg hads k n e hmsg'
      · obtain ⟨e, -, rfl⟩ := List.mem_map.mp hmsg
        exact (by decide : "ADDR" ∈ peerTypes)
  | destroy sock =>
      simp only [BL_PeerConnectivityLayer_API.act] at hN
      split at hN
      · next hg => cases (hl.referenced hg.1).symm.trans hg.2
      · cases hN
  | handleEvent k =>
      obtain ⟨event, queue, hq, hne, hhandled, hflow⟩ := h.exists_event hnone hN
      obtain ⟨N', hN', hafter⟩ := h.handleEvent hq hne hc
      refine ⟨N', hhandled.symm.trans hN', ?_⟩
      rw [hflow]
      exact hafter
  | _ => exact hsteady.elim

/-- **One step** of steady hosts. -/
theorem Refines.outcome (happ : app.Lawful) (hads : ads.Lawful) (h : Refines links app ar ads F q)
    {e : P × HostAct P O L} {r : Except Fault (Fabric P O S)}
    (hc : F.Steady links app ar ads e) (hs : F.act links app ar ads e.1 e.2 = some r) :
    Outcome links app ar ads q (F.taken app e) r := by
  obtain ⟨n, a⟩ := e
  have hl := h.linked n
  have hme : (F.host n).me = n := hl.me
  cases a with
  | timer l k =>
      obtain ⟨host, hh, rfl⟩ := Option.map_eq_some_iff.mp hs
      obtain ⟨fired, hf, rfl⟩ := Option.map_eq_some_iff.mp hh
      have hsend := hc.sendable
      simp only [Host.outbox, hf] at hsend
      rw [hme, hl.ids, h.layer] at hf
      cases fired with
      | error e => exact .aborts (l := .fire n l) (.fire hf)
      | ok out =>
          obtain ⟨layer, out⟩ := out
          exact .moves (l := .fire n l) rfl (.fire hf) (h.sends happ k _ hsend (happ.fire hf))
  | node a =>
      cases hp : (F.host n).peers.protocolMsg a with
      | none =>
          obtain ⟨N, hN, rfl⟩ := F.act_node hp hs
          obtain ⟨N', rfl, hafter⟩ := h.node hads hc hp hN
          exact .stays hafter
      | some km =>
          obtain ⟨k, msg⟩ := km
          obtain ⟨rfl, queue, hq⟩ := protocolMsg_eq_some hp
          obtain rfl := F.act_protocol hq hs
          have htaken : F.taken app (n, .node (.handleEvent k)) =
              (app.payload msg).map fun x => ((F.host n).layer, x) := by
            rw [Fabric.taken, hp, Option.bind_some]
          rw [htaken]
          exact h.outcome_protocol happ k hq hc.sendable

/-! ## Runs -/

theorem Fabric.Connected.refines (h : F.Connected links app) :
    Refines links app ar ads F { node := app.start, chan := fun _ _ => [] } where
  linked := h.linked
  events n event he := by
    rw [h.eventQueue] at he
    cases he
  layer := h.layer
  stream a b hb := by
    rw [h.recvBytes b a (links.symm hb), h.sendBuff a b hb, h.eventQueue, h.pipe]
    exact ⟨rfl, DataSocket.watched_new, [], fun _ hm => absurd hm List.not_mem_nil, rfl, rfl⟩
  away _ _ _ := rfl

/-- **The hosts run the protocol over queues.**  Every state of every run of steady hosts
is, place by place, a state of the network of queues. -/
theorem refines_of_steady (happ : app.Lawful) (hads : ads.Lawful) {Allowed : S → X → Prop}
    (h : (fabricSys links app ar ads).Under (fun F e => F.Steady links app ar ads e ∧
      ∀ t ∈ F.taken app e, Allowed t.1 t.2) F) :
    ∃ q, (app.protocol links.nbrs).fifo.Under (fun q l => ∀ t ∈ q.taken l, Allowed t.1 t.2) q ∧
      Refines links app ar ads F q := by
  refine h.invariant (P := fun F => ∃ q, (app.protocol links.nbrs).fifo.Under
    (fun q l => ∀ t ∈ q.taken l, Allowed t.1 t.2) q ∧ Refines links app ar ads F q) ?_ ?_
  · exact fun F hF => ⟨_, .start rfl, hF.refines⟩
  · rintro F e F' - ⟨q, hq, hF⟩ ⟨hc, hallowed⟩ hs
    cases hF.outcome happ hads hc hs with
    | stays hF' => exact ⟨q, hq, hF'⟩
    | moves htaken hstep hF' => exact ⟨_, .step hq (htaken ▸ hallowed) hstep, hF'⟩

end Bleep
