/-
# `Bleep.Stack.Drain` — hosts whose timers rest come to rest

An action in which no timer fires moves something from one place to the next, or nothing
(`Refines.moved`).  So in a run without timers only finitely many actions read or write a
byte or handle a message, if the protocol alone cannot go on for ever; and as long as
anything is on its way, something can be moved.
-/
import Bleep.Lib.Descent
import Bleep.Stack.Places
import Bleep.Stack.Simulation

namespace Bleep

open Framing Protocol BL_SocketLayer_API BL_PeerConnectivityLayer_API

variable {P O S X L : Type} [LinearOrder P]

/-- No timer: libev polls the data sockets, and events are handled. -/
def HostAct.isCalm : HostAct P O L → Bool
  | .node (.dataSocketIOCallback _ _) | .node (.handleEvent _) => true
  | _ => false

namespace Links

variable (links : Links P) {β : Type} {a b : P} (bs : List β)

/-- What is between neighbours. -/
def between (a b : P) : List β := if (links.nbrs a).any (· = b) then bs else []

theorem between_of_mem (h : b ∈ links.nbrs a) : links.between bs a b = bs :=
  if_pos (List.any_eq_true.mpr ⟨b, h, decide_eq_true rfl⟩)

theorem between_of_not_mem (h : b ∉ links.nbrs a) : links.between bs a b = [] := by
  refine if_neg fun hany => h ?_
  obtain ⟨c, hc, heq⟩ := List.any_eq_true.mp hany
  exact of_decide_eq_true heq ▸ hc

end Links

namespace Fabric

variable (links : Links P) (F : Fabric P O S)

def places : Places P O where
  queue n := (F.host n).peers.socketLayer.eventQueue
  unsent a b := links.between ((F.host a).peers.unsent (links.sock a b).obj) a b
  pipe a b := links.between (F.pipe a b) a b
  inbox a b :=
    links.between ((F.host b).peers.socketLayer.recvBytes (links.sock b a).getFD) a b

/-- An action reads or writes bytes, or handles a message. -/
def Moves : P × HostAct P O L → Bool
  | (n, .node (.handleEvent k)) =>
      match (F.host n).peers.socketLayer.eventQueue with
      | .socketRecv _ :: _ => received k.recv ≠ []
      | .socketWrite sock :: _ => (F.host n).peers.socketLayer.written sock.getFD k.send ≠ []
      | .peerRecvMsg _ _ :: _ | .protocolRecvMsg _ :: _ => true
      | _ => false
  | _ => false

end Fabric

variable {links : Links P} {app : ProtocolLayer P O S X L} {ar : Archive P O} {ads : AddrAd P O}
  {F F' : Fabric P O S} {q : Queues P S X} {n : P}

/-! ## The places of hosts -/

/-- The bytes of connected hosts are messages. -/
theorem Refines.laden (h : Refines links app ar ads F q) :
    ∃ t, (F.places links).Laden app ar ads t := by
  have hall : ∀ a b, ∃ msgs : List (Message P O), Transit app ar ads a
      ((F.places links).inbox a b) ((F.places links).pipe a b) ((F.places links).unsent a b) msgs ∧
        parseRound ar Prod.fst ((F.places links).inbox a b) = .ok none := by
    intro a b
    by_cases hb : b ∈ links.nbrs a
    · have hs := h.stream a b hb
      obtain ⟨msgs, hmsgs, hbytes, -⟩ := hs.msgs
      simp only [Fabric.places, links.between_of_mem _ hb]
      exact ⟨msgs, ⟨hmsgs, hbytes⟩, hs.stopped⟩
    · simp only [Fabric.places, links.between_of_not_mem _ hb]
      exact ⟨[], ⟨fun _ hm => absurd hm List.not_mem_nil, rfl⟩, rfl⟩
  choose t ht using hall
  exact ⟨t, fun a b => (ht a b).1, fun a b => (ht a b).2⟩

section Set

variable (host : Host P O S) (pipe : P → P → List UInt8)

theorem Fabric.host_set (m : P) : (F.set n host pipe).host m = if m = n then host else F.host m :=
  Function.update_apply _ _ _ _

theorem Fabric.queue_places_set (m : P) : ((F.set n host pipe).places links).queue m =
    if m = n then host.peers.socketLayer.eventQueue else (F.places links).queue m := by
  simp only [places, host_set]
  split
  · rfl
  · rfl

theorem Fabric.unsent_places_set (a b : P) : ((F.set n host pipe).places links).unsent a b =
    if a = n then links.between (host.peers.unsent (links.sock n b).obj) n b
    else (F.places links).unsent a b := by
  by_cases ha : a = n
  · subst ha
    simp only [places, host_set, if_true]
  · simp only [places, host_set, if_neg ha]

theorem Fabric.inbox_places_set (a b : P) : ((F.set n host pipe).places links).inbox a b =
    if b = n then
      links.between (host.peers.socketLayer.recvBytes (links.sock n a).getFD) a n
    else (F.places links).inbox a b := by
  by_cases hb : b = n
  · subst hb
    simp only [places, host_set, if_true]
  · simp only [places, host_set, if_neg hb]

end Set

theorem Fabric.places_queue (links : Links P) (host : Host P O S) {queue : List (AsyncEvent P O)}
    (hqueue : host.peers.socketLayer.eventQueue = queue)
    (hheap : host.peers.socketLayer.heap = (F.host n).peers.socketLayer.heap)
    (hbytes : host.peers.socketLayer.recvBytes = (F.host n).peers.socketLayer.recvBytes) :
    (F.set n host F.pipe).places links = (F.places links).setQueue n queue := by
  refine Places.ext (funext fun m => ?_) (funext fun a => funext fun b => ?_) rfl
    (funext fun a => funext fun b => ?_)
  · rw [queue_places_set, hqueue, Places.queue_setQueue]
  · rw [unsent_places_set]
    split
    · next ha =>
        subst ha
        simp only [BL_PeerConnectivityLayer_API.unsent, hheap]
        rfl
    · rfl
  · rw [inbox_places_set]
    split
    · next hb =>
        subst hb
        rw [hbytes]
        rfl
    · rfl

theorem Fabric.places_post (layer : S) {N' : BL_PeerConnectivityLayer_API P O}
    {rest : List (AsyncEvent P O)} {msgs : List (Message P O)}
    (hl : Linked links n (F.host n).peers)
    (hp : Posted ar ((F.host n).peers.popAsyncEvent rest) N' msgs)
    (hdest : ∀ msg ∈ msgs, msg.dest ∈ links.nbrs n) :
    (F.set n { peers := N', layer } F.pipe).places links =
      ((F.places links).setQueue n rest).post ar n msgs := by
  refine Places.ext (funext fun m => ?_) (funext fun a => funext fun b => ?_) rfl
    (funext fun a => funext fun b => ?_)
  · rw [queue_places_set, Places.post, Places.queue_setQueue, hp.socketLayer]
    rfl
  · rw [unsent_places_set, Places.post]
    dsimp only
    split
    · next ha =>
        subst ha
        by_cases hb : b ∈ links.nbrs a
        · have hl' : Linked links a ((F.host a).peers.popAsyncEvent rest) :=
            hl.keep (.refl _) rfl rfl rfl rfl
          have hunsent := hp.unsent (links.sock a b).obj
          rw [hl'.filter_goesInto hb] at hunsent
          rw [links.between_of_mem _ hb, hunsent]
          simp only [places, Places.setQueue, links.between_of_mem _ hb]
          rfl
        · have hnone : msgs.filter (·.dest = b) = [] :=
            List.filter_eq_nil_iff.mpr fun m hm hd => hb (of_decide_eq_true hd ▸ hdest m hm)
          rw [links.between_of_not_mem _ hb, hnone]
          simp only [places, Places.setQueue, links.between_of_not_mem _ hb]
          rfl
    · rfl
  · rw [inbox_places_set]
    split
    · next hb =>
        subst hb
        rw [recvBytes, hp.socketLayer]
        rfl
    · rfl

theorem Fabric.places_write {m : P} (hm : m ∈ links.nbrs n) (host : Host P O S)
    (out : List UInt8) {rest : List (AsyncEvent P O)} {s : DataSocket}
    (hqueue : host.peers.socketLayer.eventQueue = rest)
    (hheap : host.peers.socketLayer.heap = fun obj =>
      if obj = (links.sock n m).obj then s else (F.host n).peers.socketLayer.heap obj)
    (hbytes : host.peers.socketLayer.recvBytes = (F.host n).peers.socketLayer.recvBytes) :
    (F.set n host fun a b =>
        if a = n ∧ b = m then F.pipe a b ++ out else F.pipe a b).places links =
      { (F.places links).setQueue n rest with
        unsent := fun a b => if a = n ∧ b = m then s.unsent else (F.places links).unsent a b
        pipe := fun a b =>
          if a = n ∧ b = m then (F.places links).pipe a b ++ out
          else (F.places links).pipe a b } := by
  refine Places.ext (funext fun x => ?_) (funext fun a => funext fun b => ?_)
    (funext fun a => funext fun b => ?_) (funext fun a => funext fun b => ?_)
  · rw [queue_places_set, hqueue]
    exact (Places.queue_setQueue rest x).symm
  · rw [unsent_places_set]
    dsimp only
    by_cases ha : a = n
    · subst ha
      rw [if_pos rfl]
      by_cases hb : b ∈ links.nbrs a
      · rw [links.between_of_mem _ hb, BL_PeerConnectivityLayer_API.unsent, hheap]
        by_cases hbm : b = m
        · subst hbm
          rw [if_pos ⟨rfl, rfl⟩]
          simp only [if_true]
        · rw [if_neg fun h : a = a ∧ b = m => hbm h.2]
          simp only [places, links.between_of_mem _ hb, if_neg fun h => hbm (links.obj_inj hb hm h)]
          rfl
      · rw [links.between_of_not_mem _ hb, if_neg fun h : a = a ∧ b = m => hb (h.2 ▸ hm)]
        simp only [places, links.between_of_not_mem _ hb]
    · rw [if_neg ha, if_neg fun h => ha h.1]
  · by_cases hab : a = n ∧ b = m
    · obtain ⟨rfl, rfl⟩ := hab
      simp only [places, set, links.between_of_mem _ hm, and_self, if_true]
    · simp only [places, set, if_neg hab]
  · rw [inbox_places_set]
    by_cases hb : b = n
    · subst hb
      rw [if_pos rfl, hbytes]
      rfl
    · rw [if_neg hb]
      rfl

theorem Fabric.places_read {m : P} (hm : m ∈ links.nbrs n) (host : Host P O S)
    {queue : List (AsyncEvent P O)} {remain : List (UInt8 × Conn P)} {k : ℕ}
    (hqueue : host.peers.socketLayer.eventQueue = queue)
    (hheap : host.peers.socketLayer.heap = (F.host n).peers.socketLayer.heap)
    (hbytes : ∀ fd, host.peers.socketLayer.recvBytes fd =
      if fd = (links.sock n m).getFD then remain else (F.host n).peers.socketLayer.recvBytes fd) :
    (F.set n host fun a b =>
        if a = m ∧ b = n then (F.pipe a b).drop k else F.pipe a b).places links =
      { (F.places links).setQueue n queue with
        pipe := fun a b => if a = m ∧ b = n then ((F.places links).pipe a b).drop k
          else (F.places links).pipe a b
        inbox := fun a b =>
          if a = m ∧ b = n then remain else (F.places links).inbox a b } := by
  have hn : n ∈ links.nbrs m := links.symm hm
  refine Places.ext (funext fun x => ?_) (funext fun a => funext fun b => ?_)
    (funext fun a => funext fun b => ?_) (funext fun a => funext fun b => ?_)
  · rw [queue_places_set, hqueue]
    exact (Places.queue_setQueue queue x).symm
  · rw [unsent_places_set]
    by_cases ha : a = n
    · subst ha
      rw [if_pos rfl]
      simp only [BL_PeerConnectivityLayer_API.unsent, hheap]
      rfl
    · rw [if_neg ha]
      rfl
  · by_cases hab : a = m ∧ b = n
    · obtain ⟨rfl, rfl⟩ := hab
      simp only [places, set, links.between_of_mem _ hn, and_self, if_true]
    · simp only [places, set, if_neg hab]
  · rw [inbox_places_set]
    dsimp only
    by_cases hb : b = n
    · subst hb
      rw [if_pos rfl]
      by_cases ha : b ∈ links.nbrs a
      · rw [links.between_of_mem _ ha, hbytes]
        by_cases ham : a = m
        · subst ham
          rw [if_pos rfl, if_pos ⟨rfl, rfl⟩]
        · rw [if_neg fun h => ham (links.fd_inj (links.symm ha) hm h), if_neg fun h => ham h.1]
          simp only [places, links.between_of_mem _ ha]
      · rw [links.between_of_not_mem _ ha, if_neg fun h : a = m ∧ b = b => ha (h.1 ▸ hn)]
        simp only [places, links.between_of_not_mem _ ha]
    · rw [if_neg hb, if_neg fun h => hb h.2]

/-! ## What one action moves -/

section Moved

variable {m : P} {k : PeerAnswers P} {rest : List (AsyncEvent P O)}
  {N' : BL_PeerConnectivityLayer_API P O}

theorem Refines.moved_recv (h : Refines links app ar ads F q) (hm : m ∈ links.nbrs n)
    (hq : (F.host n).peers.socketLayer.eventQueue = .socketRecv (links.sock n m) :: rest)
    (hopen : ∀ r ∈ k.recv, r ≠ .closed ∧ r ≠ .failed) (hpre : received k.recv <+: F.pipe m n)
    (hN : ((F.host n).peers.popAsyncEvent rest).handleAsyncEvent ar ads k
      (.socketRecv (links.sock n m)) = .ok N') :
    N'.socketLayer.objects = (F.host n).peers.socketLayer.objects ∧
    (F.places links).Moved app ar ads (if received k.recv = [] then .skips else .moves)
      ((F.set n { F.host n with peers := N' } fun a b =>
        if a = m ∧ b = n then (F.pipe a b).drop (received k.recv).length
        else F.pipe a b).places links) := by
  have hn := links.symm hm
  obtain ⟨layer, hlayer, hN⟩ := bind_ok.mp hN
  obtain rfl := Except.ok.inj hN
  obtain ⟨c, -, ⟨hclosed, -, -⟩ | ⟨-, msgs, remain, hd, hL, hbytes⟩⟩ := recvHandler_ok _ hlayer
  · exact absurd rfl (hopen _ (mem_of_seesClosed hclosed)).1
  have hcarried := ((h.stream m n hn).recv hpre hd).1
  have hevents : msgs.map (recvEvent
      (((F.host n).peers.popAsyncEvent rest).socketLayer.getDataSocket (links.sock n m).getFD)) =
        msgs.map (.peerRecvMsg m) := by
    refine List.map_congr_left fun msg hmsg => ?_
    have hc := hcarried msg hmsg
    rw [recvEvent, if_neg hc.notify, hc.src]
  have hqueue : layer.eventQueue = rest ++ msgs.map (.peerRecvMsg m) := by
    rw [hL, hevents]
    rfl
  have hheap : layer.heap = (F.host n).peers.socketLayer.heap := by
    rw [hL]
    rfl
  have hplaces := F.places_read hm { F.host n with
    peers := { (F.host n).peers.popAsyncEvent rest with socketLayer := layer } }
    (k := (received k.recv).length) hqueue hheap hbytes
  rw [hplaces]
  refine ⟨by rw [hL]; rfl, .read hq rfl ?_ (c := c) ?_⟩
  · simpa only [Fabric.places, links.between_of_mem _ hn] using hpre
  · simp only [Fabric.places, links.between_of_mem _ hn]
    exact hd

theorem Refines.moved_write (h : Refines links app ar ads F q) (hm : m ∈ links.nbrs n)
    (hq : (F.host n).peers.socketLayer.eventQueue = .socketWrite (links.sock n m) :: rest)
    (hN : ((F.host n).peers.popAsyncEvent rest).handleAsyncEvent ar ads k
      (.socketWrite (links.sock n m)) = .ok N') {out : List UInt8}
    (hout : (F.host n).peers.socketLayer.written (links.sock n m).getFD k.send = out) :
    N'.socketLayer.objects = (F.host n).peers.socketLayer.objects ∧
    (F.places links).Moved app ar ads (if out = [] then .skips else .moves)
      ((F.set n { F.host n with peers := N' } fun a b =>
        if a = n ∧ b = m then F.pipe a b ++ out else F.pipe a b).places links) := by
  have hdata := (h.linked n).data m hm
  have hdata' : ((F.host n).peers.popAsyncEvent rest).socketLayer.getDataSocket
      (links.sock n m).getFD = some (links.sock n m) := hdata
  obtain ⟨layer, hlayer, hN⟩ := bind_ok.mp hN
  obtain rfl := Except.ok.inj hN
  have hwrite : ((F.host n).peers.popAsyncEvent rest).socketLayer.writeHandler
      (links.sock n m).getFD k.send = .ok layer := hlayer
  simp only [writeHandler, hdata'] at hwrite
  obtain ⟨⟨out', s⟩, hs, hset⟩ := bind_ok.mp hwrite
  obtain rfl := Except.ok.inj hset
  have hs' : ((F.host n).peers.socketLayer.heap (links.sock n m).obj).doSend k.send =
      .ok (out', s) := hs
  obtain rfl : out' = out := by simpa only [written, hdata, hs'] using hout
  have hplaces := F.places_write hm { F.host n with
    peers := { (F.host n).peers.popAsyncEvent rest with
      socketLayer := ((F.host n).peers.popAsyncEvent rest).socketLayer.setSocket
        (links.sock n m).obj s } } out' (s := s) rfl rfl rfl
  rw [hplaces]
  refine ⟨rfl, .wrote hq rfl ?_⟩
  simp only [Fabric.places, links.between_of_mem _ hm, BL_PeerConnectivityLayer_API.unsent]
  exact (DataSocket.doSend_ok hs' (h.stream n m hm).watched).1.symm

theorem Refines.moved_answer (h : Refines links app ar ads F q) {msg : Message P O}
    (hq : (F.host n).peers.socketLayer.eventQueue = .peerRecvMsg msg.src msg :: rest)
    (ht : msg.type ∈ peerTypes)
    (hsend : ∀ m ∈ (F.host n).outbox app ads (.node (.handleEvent k)), Sendable ar m)
    (hN : ((F.host n).peers.popAsyncEvent rest).handleAsyncEvent ar ads k
      (.peerRecvMsg msg.src msg) = .ok N') :
    N'.socketLayer.objects = (F.host n).peers.socketLayer.objects ∧
    (F.places links).Moved app ar ads .moves
      ((F.set n { F.host n with peers := N' } F.pipe).places links) := by
  obtain ⟨-, hsrc, hcar⟩ := h.events n _ (by rw [hq]; exact List.mem_cons_self)
  have hl := h.linked n
  have hl' : Linked links n ((F.host n).peers.popAsyncEvent rest) :=
    hl.keep (.refl _) rfl rfl rfl rfl
  obtain ⟨N'', hN'', hposted⟩ := recvMsgHandler_posted hl' k hsrc hcar ht
  obtain rfl : N'' = N' := Except.ok.inj (hN''.symm.trans hN)
  rw [hl'.me] at hposted
  have hpong : ∀ m ∈ (if msg.type = "PING" then [Host.pongMsg k n msg.src] else []),
      Carried app ar ads n m ∧ m.dest = msg.src := by
    intro m hm
    have hsend := hsend m (by
      simp only [Host.outbox, hq, Host.me, hl.me]
      exact hm)
    split at hm
    · obtain rfl := List.mem_singleton.mp hm
      exact ⟨carried_pongMsg k n msg.src hsend, rfl⟩
    · cases hm
  have hplaces := F.places_post (F.host n).layer hl hposted
    fun m hm => (hpong m hm).2 ▸ hsrc
  rw [hplaces]
  refine ⟨by rw [hposted.socketLayer]; rfl,
    .answered hq (fun m hm => (hpong m hm).1) (fun m hm => (hpong m hm).2) ?_⟩
  by_cases hping : msg.type = "PING"
  · rw [if_pos hping, Message.weight, if_pos hping]
    exact (by decide : 1 < 2)
  · rw [if_neg hping]
    exact msg.weight_pos

theorem Refines.moved_take (happ : app.Lawful) (h : Refines links app ar ads F q)
    {msg : Message P O}
    (hq : (F.host n).peers.socketLayer.eventQueue = .protocolRecvMsg msg :: rest)
    (hsend : ∀ m ∈ (F.host n).outbox app ads (.node (.handleEvent k)), Sendable ar m)
    {host : Host P O S} (hhost : { F.host n with peers := (F.host n).peers.popAsyncEvent rest
      }.recvMsgHandler app ar k msg = .ok host) :
    host.peers.socketLayer.objects = (F.host n).peers.socketLayer.objects ∧
    ∃ q', Delivers (app.protocol links.nbrs) q' q ∧
      Refines links app ar ads (F.set n host F.pipe) q' ∧
      (F.places links).Moved app ar ads .takes ((F.set n host F.pipe).places links) := by
  obtain ⟨hown, hsrc, hc⟩ := h.events n _ (by rw [hq]; exact List.mem_cons_self)
  obtain ⟨x, hx⟩ := hc.own hown
  have hpay : app.payload msg = some x := by rw [ProtocolLayer.payload, if_neg hown, hx]
  have hl := h.linked n
  have hids : (F.host n).peers.getNeighborPeerIds = links.nbrs n := hl.ids
  have hme : (F.host n).me = n := hl.me
  have hl' : Linked links n ((F.host n).peers.popAsyncEvent rest) :=
    hl.keep (.refl _) rfl rfl rfl rfl
  have hpopped : Host.me (P := P) (O := O) (S := S)
      { F.host n with peers := (F.host n).peers.popAsyncEvent rest } = n := hme
  simp only [Host.recvMsgHandler, hx] at hhost
  simp only [Host.outbox, hq, hx, hme, hids] at hsend
  obtain ⟨_, hsome, hhost⟩ := bind_ok.mp hhost
  obtain rfl := Except.ok.inj hsome
  obtain ⟨⟨layer, out⟩, hr, hhost⟩ := bind_ok.mp hhost
  rw [hpopped, hl'.ids] at hr
  obtain rfl := Except.ok.inj hhost
  simp only [hr] at hsend
  obtain ⟨hlocal, q', hstep, -, hafter⟩ := h.takes happ k hq hpay hr hsend
  have hposted : Posted ar ((F.host n).peers.popAsyncEvent rest)
      (((F.host n).peers.popAsyncEvent rest).sendMsgs ar (out.map (app.message k n)))
      (out.map (app.message k n)) := by
    refine posted_sendMsgs fun m hm => ?_
    obtain ⟨e, -, rfl⟩ := List.mem_map.mp hm
    exact hl.me.symm
  have hplaces := F.places_post layer hl hposted fun m hm => by
    obtain ⟨e, he, rfl⟩ := List.mem_map.mp hm
    exact hlocal e he
  rw [Host.sends, hpopped] at hafter ⊢
  refine ⟨by rw [hposted.socketLayer]; rfl, q', ⟨_, _, hstep⟩, hafter, ?_⟩
  rw [hplaces]
  refine .took hq fun m hm => ?_
  have hsendable := hsend m hm
  obtain ⟨e, -, rfl⟩ := List.mem_map.mp hm
  exact carried_message happ k n e hsendable

end Moved

theorem Fabric.moved_poll {sock : SocketPtr P} {readable : Bool}
    {N' : BL_PeerConnectivityLayer_API P O}
    (hN : (F.host n).peers.act ar ads (.dataSocketIOCallback sock readable) = some (.ok N')) :
    N'.socketLayer.objects = (F.host n).peers.socketLayer.objects ∧
    (F.places links).Moved app ar ads .polls
      ((F.set n { F.host n with peers := N' } F.pipe).places links) := by
  have hmove := move_of_act (by rintro _ ⟨⟩) hN
  simp only [move] at hmove
  split at hmove
  · obtain rfl := Except.ok.inj (Option.some.inj hmove)
    have hplaces := F.places_queue (n := n) links { F.host n with
      peers := (F.host n).peers.pushAsyncEvent
        (if readable then .socketRecv sock else .socketWrite sock) } rfl rfl rfl
    rw [hplaces]
    refine ⟨rfl, .polled ?_⟩
    split
    · rfl
    · rfl
  · cases hmove

theorem Refines.moved_event (h : Refines links app ar ads F q) {k : PeerAnswers P}
    {event : AsyncEvent P O} {rest : List (AsyncEvent P O)} {N' : BL_PeerConnectivityLayer_API P O}
    (hq : (F.host n).peers.socketLayer.eventQueue = event :: rest)
    (hne : ∀ msg, event ≠ .protocolRecvMsg msg)
    (hc : F.Steady links app ar ads (n, .node (.handleEvent k)))
    (hN : ((F.host n).peers.popAsyncEvent rest).handleAsyncEvent ar ads k event = .ok N') :
    N'.socketLayer.objects = (F.host n).peers.socketLayer.objects ∧
    ∃ kind, (kind = .skips ∨ kind = .moves) ∧ (F.places links).Moved app ar ads kind
        ((F.set n { F.host n with peers := N' }
          (F.eventFlow links n k (some event))).places links) ∧
      (F.Moves (L := L) (n, .node (.handleEvent k)) ↔ kind = .moves) := by
  have hexp := h.events n event (by rw [hq]; exact List.mem_cons_self)
  obtain ⟨⟨hrecv, -⟩, hreads, hsendable⟩ := hc
  cases event with
  | socketRecv sock =>
      obtain ⟨m, hm, rfl⟩ := hexp
      simp only [Fabric.Reads, Fabric.reading, hq, Option.mem_some_iff, forall_eq',
        links.far_sock hm] at hreads
      rw [Fabric.eventFlow_recv hm]
      obtain ⟨hobj, hmoved⟩ := h.moved_recv hm hq hrecv hreads hN
      refine ⟨hobj, _, ?_, hmoved, ?_⟩
      · split
        · exact .inl rfl
        · exact .inr rfl
      · simp only [Fabric.Moves, hq, decide_eq_true_eq]
        split
        · next hnil => exact ⟨fun hne => absurd hnil hne, fun hk => by cases hk⟩
        · next hnil => exact ⟨fun _ => rfl, fun _ => hnil⟩
  | socketWrite sock =>
      obtain ⟨m, hm, rfl⟩ := hexp
      rw [Fabric.eventFlow_write hm]
      obtain ⟨hobj, hmoved⟩ := h.moved_write hm hq hN rfl
      refine ⟨hobj, _, ?_, hmoved, ?_⟩
      · split
        · exact .inl rfl
        · exact .inr rfl
      · simp only [Fabric.Moves, hq, decide_eq_true_eq]
        split
        · next hnil => exact ⟨fun hne => absurd hnil hne, fun hk => by cases hk⟩
        · next hnil => exact ⟨fun _ => rfl, fun _ => hnil⟩
  | peerRecvMsg src msg =>
      obtain ⟨rfl, hsrc, hcar⟩ := hexp
      suffices hmoved : N'.socketLayer.objects = (F.host n).peers.socketLayer.objects ∧
          (F.places links).Moved app ar ads .moves
            ((F.set n { F.host n with peers := N' } F.pipe).places links) from
        ⟨hmoved.1, .moves, .inr rfl, hmoved.2, by simp [Fabric.Moves, hq]⟩
      by_cases ht : msg.type ∈ peerTypes
      · exact h.moved_answer hq ht hsendable hN
      · have hN' : (F.host n).peers.popAsyncEvent (rest ++ [.protocolRecvMsg msg]) = N' :=
          Except.ok.inj ((recvMsgHandler_protocol k ht).symm.trans hN)
        obtain rfl := hN'
        have hplaces := F.places_queue (n := n) links { F.host n with
          peers := (F.host n).peers.popAsyncEvent (rest ++ [.protocolRecvMsg msg]) } rfl rfl rfl
        rw [hplaces]
        exact ⟨rfl, .handedOver hq⟩
  | protocolRecvMsg msg => exact absurd rfl (hne msg)
  | _ => exact hexp.elim

/-- What an action without timers comes to, at the hosts and at the queues. -/
structure Effect (links : Links P) (app : ProtocolLayer P O S X L) (ar : Archive P O)
    (ads : AddrAd P O) (F : Fabric P O S) (q : Queues P S X) (e : P × HostAct P O L)
    (F' : Fabric P O S) (q' : Queues P S X) (kind : Places.Kind) : Prop where
  objects : ∀ m, (F'.host m).peers.socketLayer.objects = (F.host m).peers.socketLayer.objects
  moved : (F.places links).Moved app ar ads kind (F'.places links)
  refines : Refines links app ar ads F' q'
  queues : if kind = .takes then Delivers (app.protocol links.nbrs) q' q else q' = q
  moves : F.Moves e ↔ kind = .moves ∨ kind = .takes
  polls : kind = .polls → ∀ k, e.2 ≠ .node (.handleEvent k)

/-- **One action without timers** moves something from one place to the next, or
nothing. -/
theorem Refines.moved (happ : app.Lawful) (hads : ads.Lawful) (h : Refines links app ar ads F q)
    {e : P × HostAct P O L} (hc : F.Steady links app ar ads e) (hcalm : e.2.isCalm = true)
    (hs : F.act links app ar ads e.1 e.2 = some (.ok F')) :
    ∃ kind q', Effect links app ar ads F q e F' q' kind := by
  obtain ⟨n, a⟩ := e
  have hobjects : ∀ {host : Host P O S} {pipe : P → P → List UInt8},
      host.peers.socketLayer.objects = (F.host n).peers.socketLayer.objects →
      ∀ m, ((F.set n host pipe).host m).peers.socketLayer.objects =
        (F.host m).peers.socketLayer.objects := by
    intro host pipe hobj m
    rw [F.host_set]
    split
    · next hm => rw [hm, hobj]
    · rfl
  cases a with
  | timer l k => cases hcalm
  | node a =>
      cases hp : (F.host n).peers.protocolMsg a with
      | none =>
          obtain ⟨N, hN, hr⟩ := F.act_node hp hs
          obtain ⟨N', rfl, hafter⟩ := h.node hads hc hp hN
          obtain rfl := Except.ok.inj hr
          cases a with
          | dataSocketIOCallback sock readable =>
              obtain ⟨hobj, hmoved⟩ := F.moved_poll hN
              exact ⟨.polls, q, hobjects hobj, hmoved, hafter, rfl, by simp [Fabric.Moves],
                fun _ _ => by rintro ⟨⟩⟩
          | handleEvent k =>
              obtain ⟨event, rest, hq, hne, hhandled, hflow⟩ := h.exists_event hp hN
              obtain ⟨hobj, kind, hkind, hmoved, hmoves⟩ := h.moved_event hq hne hc hhandled
              rw [hflow] at hafter ⊢
              have htakes : kind ≠ .takes := by
                rintro rfl
                exact absurd hkind (by decide)
              have hpolls : kind ≠ .polls := by
                rintro rfl
                exact absurd hkind (by decide)
              exact ⟨kind, q, hobjects hobj, hmoved, hafter, by rw [if_neg htakes],
                hmoves.trans ⟨.inl, fun hor => hor.resolve_right htakes⟩,
                fun hp => absurd hp hpolls⟩
          | _ => cases hcalm
      | some km =>
          obtain ⟨k, msg⟩ := km
          obtain ⟨rfl, queue, hq⟩ := protocolMsg_eq_some hp
          have hr := F.act_protocol hq hs
          cases hhost : Host.recvMsgHandler app ar
            { F.host n with peers := (F.host n).peers.popAsyncEvent queue } k msg with
          | error fault => rw [hhost] at hr; cases hr
          | ok host =>
              rw [hhost] at hr
              obtain rfl := Except.ok.inj hr
              obtain ⟨hobj, q', hq', hafter, hmoved⟩ := h.moved_take happ hq hc.sendable hhost
              exact ⟨.takes, q', hobjects hobj, hmoved, hafter, hq', by simp [Fabric.Moves, hq],
                fun hp => by cases hp⟩

/-- An event that moves nothing is one event less. -/
theorem Refines.pending_lt [Fintype P] (happ : app.Lawful) (hads : ads.Lawful)
    (h : Refines links app ar ads F q) {k : PeerAnswers P}
    (hc : F.Steady links app ar ads (n, .node (.handleEvent k)))
    (hs : F.act links app ar ads n (.node (.handleEvent k)) = some (.ok F'))
    (hno : ¬ F.Moves (L := L) (n, .node (.handleEvent k))) :
    (F'.places links).pending < (F.places links).pending := by
  obtain ⟨t, hladen⟩ := h.laden
  obtain ⟨kind, q', heffect⟩ := h.moved happ hads hc rfl hs
  refine heffect.moved.pending_lt hladen ?_
  cases kind with
  | polls => exact absurd rfl (heffect.polls rfl k)
  | skips => rfl
  | moves => exact absurd (heffect.moves.mpr (.inl rfl)) hno
  | takes => exact absurd (heffect.moves.mpr (.inr rfl)) hno

end Bleep
