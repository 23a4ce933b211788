/-
# `Bleep.Stack.Refines` — connected hosts are a network with a queue for every connection

`Refines` relates the hosts to the network of queues in which the protocol runs
alone: the protocol layers are in the states of its processes, and on every
connection the `Stream` holds the messages of the queue.

A step of a steady host changes one place at a time, and each kind of change has its
lemma: the event queue (`Refines.queue`), sending (`Refines.post`), `SocketWrite`
(`Refines.write`), `SocketRecv` (`Refines.recv`) and the message that the protocol
takes (`Refines.deliver`).
-/
import Bleep.BL2.RecvMsg
import Bleep.Stack.Stream

namespace Bleep

open Framing Protocol BL_SocketLayer_API BL_PeerConnectivityLayer_API

variable {P O S X L : Type} [LinearOrder P]

/-- The events of a host whose connections stay. -/
def Expected (links : Links P) (app : ProtocolLayer P O S X L) (ar : Archive P O)
    (ads : AddrAd P O) (n : P) : AsyncEvent P O → Prop
  | .socketRecv sock => ∃ m ∈ links.nbrs n, sock = links.sock n m
  | .socketWrite sock => ∃ m ∈ links.nbrs n, sock = links.sock n m
  | .peerRecvMsg src msg =>
      src = msg.src ∧ msg.src ∈ links.nbrs n ∧ Carried app ar ads msg.src msg
  | .protocolRecvMsg msg =>
      msg.type ∉ peerTypes ∧ msg.src ∈ links.nbrs n ∧ Carried app ar ads msg.src msg
  | _ => False

/-- The hosts do what the network of queues does. -/
structure Refines (links : Links P) (app : ProtocolLayer P O S X L) (ar : Archive P O)
    (ads : AddrAd P O) (F : Fabric P O S) (q : Queues P S X) : Prop where
  linked : ∀ n, Linked links n (F.host n).peers
  events : ∀ n, ∀ event ∈ (F.host n).peers.socketLayer.eventQueue,
    Expected links app ar ads n event
  layer : ∀ n, (F.host n).layer = q.node n
  stream : ∀ a, ∀ b ∈ links.nbrs a, Stream app ar ads a
    ((F.host b).peers.socketLayer.recvBytes (links.sock b a).getFD) (F.pipe a b)
    ((F.host a).peers.socketLayer.heap (links.sock a b).obj)
    (waiting app a (F.host b).peers.socketLayer.eventQueue) (q.chan a b)
  away : ∀ a b, b ∉ links.nbrs a → q.chan a b = []

/-! ## Hosts whose connections stay -/

section Linked

variable {links : Links P} {n : P} {N N' : BL_PeerConnectivityLayer_API P O}

theorem Linked.keep (h : Linked links n N)
    (hpeers : PeerManager.SamePeers N.peerManager N'.peerManager)
    (hme : N'.peerManager.myPeerId = N.peerManager.myPeerId)
    (hdata : N'.socketLayer.dataSockets = N.socketLayer.dataSockets)
    (hconns : N'.socketLayer.conns = N.socketLayer.conns)
    (hobjects : N'.socketLayer.objects = N.socketLayer.objects) : Linked links n N' where
  me := hme.trans h.me
  socketOf m := (socketOf_of_same hpeers m).trans (h.socketOf m)
  known m hm := h.known m ((hpeers.isSome m).symm.trans hm)
  ids := (getNeighborPeerIds_of_same hpeers).trans h.ids
  data m hm := by
    rw [getDataSocket, hdata]
    exact h.data m hm
  owned m hm := by
    rw [owner, hconns]
    exact h.owned m hm
  objects sock hsock := h.objects sock (hobjects ▸ hsock)

theorem Linked.posted (h : Linked links n N) {ar : Archive P O} {msgs : List (Message P O)}
    (hp : Posted ar N N' msgs) : Linked links n N' :=
  h.keep hp.peers hp.me (by rw [hp.socketLayer]) (by rw [hp.socketLayer]) (by rw [hp.socketLayer])

theorem Linked.findPeer (h : Linked links n N) {m : P} (hm : m ∈ links.nbrs n) :
    ∃ p, N.peerManager.findPeer m = some p ∧ p.dataSocket = some (links.sock n m) := by
  have hsock := h.socketOf m
  rw [if_pos hm] at hsock
  exact Option.bind_eq_some_iff.mp hsock

theorem Linked.active (h : Linked links n N) {m : P} {p : Peer P}
    (hp : N.peerManager.findPeer m = some p) : p.isActive = true := by
  obtain ⟨p', hp', hsock⟩ := h.findPeer (h.known m (by rw [hp]; rfl))
  obtain rfl := Option.some.inj (hp.symm.trans hp')
  rw [Peer.isActive, hsock]
  rfl

theorem Linked.filter_goesInto (h : Linked links n N) {b : P} (hb : b ∈ links.nbrs n)
    (msgs : List (Message P O)) :
    msgs.filter (N.goesInto (links.sock n b).obj) = msgs.filter (·.dest = b) := by
  refine List.filter_congr fun msg _ => ?_
  rw [goesInto, h.socketOf]
  by_cases hdest : msg.dest ∈ links.nbrs n
  · rw [if_pos hdest, Option.any_some, decide_eq_decide]
    constructor
    · exact fun hobj => links.obj_inj hdest hb hobj
    · exact fun heq => heq ▸ rfl
  · have hne : msg.dest ≠ b := fun heq => hdest (heq ▸ hb)
    rw [if_neg hdest, decide_eq_false hne]
    rfl

end Linked

/-! ## One host moves -/

section Moves

variable {links : Links P} {app : ProtocolLayer P O S X L} {ar : Archive P O} {ads : AddrAd P O}
  {F : Fabric P O S} {q q' : Queues P S X} {n : P}

/-- Only the streams of the host that moves are to be looked at. -/
theorem Refines.update (h : Refines links app ar ads F q) {host : Host P O S}
    {pipe : P → P → List UInt8} (hl : Linked links n host.peers)
    (he : ∀ event ∈ host.peers.socketLayer.eventQueue, Expected links app ar ads n event)
    (hnode : q'.node = Function.update q.node n host.layer)
    (hfar : ∀ a b, a ≠ n → b ≠ n → pipe a b = F.pipe a b ∧ q'.chan a b = q.chan a b)
    (hout : ∀ b ∈ links.nbrs n, ∀ buf waiting,
      Stream app ar ads n buf (F.pipe n b) ((F.host n).peers.socketLayer.heap (links.sock n b).obj)
        waiting (q.chan n b) →
      Stream app ar ads n buf (pipe n b) (host.peers.socketLayer.heap (links.sock n b).obj)
        waiting (q'.chan n b))
    (hin : ∀ a ∈ links.nbrs n, ∀ s,
      Stream app ar ads a ((F.host n).peers.socketLayer.recvBytes (links.sock n a).getFD)
        (F.pipe a n) s (waiting app a (F.host n).peers.socketLayer.eventQueue) (q.chan a n) →
      Stream app ar ads a (host.peers.socketLayer.recvBytes (links.sock n a).getFD)
        (pipe a n) s (waiting app a host.peers.socketLayer.eventQueue) (q'.chan a n))
    (haway : ∀ a b, b ∉ links.nbrs a → q'.chan a b = []) :
    Refines links app ar ads (F.set n host pipe) q' := by
  have hself : (F.set n host pipe).host n = host := F.set_host_self n host pipe
  have hother : ∀ {m}, m ≠ n → (F.set n host pipe).host m = F.host m := F.set_host_of_ne host pipe
  refine ⟨fun m => ?_, fun m => ?_, fun m => ?_, fun a b hb => ?_, haway⟩
  · by_cases hm : m = n
    · rw [hm, hself]
      exact hl
    · rw [hother hm]
      exact h.linked m
  · by_cases hm : m = n
    · rw [hm, hself]
      exact he
    · rw [hother hm]
      exact h.events m
  · rw [hnode]
    by_cases hm : m = n
    · rw [hm, hself, Function.update_self]
    · rw [hother hm, Function.update_of_ne hm]
      exact h.layer m
  · have hs := h.stream a b hb
    have hab := links.ne hb
    by_cases ha : a = n
    · subst ha
      rw [hself, hother hab.symm]
      exact hout b hb _ _ hs
    · by_cases hbn : b = n
      · subst hbn
        rw [hself, hother ha]
        exact hin a (links.symm hb) _ hs
      · obtain ⟨hpipe, hchan⟩ := hfar a b ha hbn
        have hset : (F.set n host pipe).pipe a b = F.pipe a b := hpipe
        rw [hother ha, hother hbn, hchan, hset]
        exact hs

/-- The event queue changes, and the messages that wait do not. -/
theorem Refines.queue (h : Refines links app ar ads F q) {queue : List (AsyncEvent P O)}
    (he : ∀ event ∈ queue, Expected links app ar ads n event)
    (hw : ∀ a, waiting app a queue =
      waiting app a (F.host n).peers.socketLayer.eventQueue) :
    Refines links app ar ads
      (F.set n { F.host n with peers := (F.host n).peers.popAsyncEvent queue } F.pipe) q := by
  refine h.update ((h.linked n).keep (.refl _) rfl rfl rfl rfl) he ?_ (fun _ _ _ _ => ⟨rfl, rfl⟩)
    (fun _ _ _ _ hs => hs) (fun a _ s hs => ?_) h.away
  · rw [h.layer, Function.update_eq_self]
  · show Stream app ar ads a _ _ s (waiting app a queue) _
    rw [hw]
    exact hs

theorem Refines.post (h : Refines links app ar ads F q) {N' : BL_PeerConnectivityLayer_API P O}
    {msgs : List (Message P O)} (hp : Posted ar (F.host n).peers N' msgs)
    (hmsgs : ∀ msg ∈ msgs, Carried app ar ads n msg) {s : S} {out : List (P × X)}
    (hsent : ∀ m, (msgs.filter (·.dest = m)).filterMap app.payload = sentTo out m)
    (hlocal : ∀ e ∈ out, e.1 ∈ links.nbrs n) :
    Refines links app ar ads (F.set n { peers := N', layer := s } F.pipe)
      (q.post n s out q.chan) := by
  have hqueue : N'.socketLayer.eventQueue = (F.host n).peers.socketLayer.eventQueue := by
    rw [hp.socketLayer]
  have hbytes : N'.socketLayer.recvBytes = (F.host n).peers.socketLayer.recvBytes := by
    funext fd
    rw [recvBytes, hp.socketLayer, recvBytes]
  refine h.update ((h.linked n).posted hp) ?_ rfl ?_ ?_ ?_ ?_
  · rw [hqueue]
    exact h.events n
  · intro a b ha _
    exact ⟨rfl, if_neg ha⟩
  · intro b hb buf waiting hs
    have hgo := (h.linked n).filter_goesInto hb msgs
    have hunsent := hp.unsent (links.sock n b).obj
    rw [hgo] at hunsent
    have hchan : (q.post n s out q.chan).chan n b =
        q.chan n b ++ (msgs.filter (·.dest = b)).filterMap app.payload := by
      rw [hsent]
      exact if_pos rfl
    rw [hchan]
    exact hs.post (fun msg hmsg => hmsgs msg (List.mem_of_mem_filter hmsg)) hunsent
      (hp.watched _ hs.watched)
  · intro a ha s' hs
    have hne : a ≠ n := links.ne (links.symm ha)
    have hchan : (q.post n s out q.chan).chan a n = q.chan a n := if_neg hne
    rw [hchan, hqueue, hbytes]
    exact hs
  · intro a b hb
    show (if a = n then q.chan a b ++ sentTo out b else q.chan a b) = []
    rw [h.away a b hb]
    split
    · next ha =>
        rw [List.nil_append, sentTo, List.map_eq_nil_iff, List.filter_eq_nil_iff]
        intro e he heq
        exact hb (ha ▸ of_decide_eq_true heq ▸ hlocal e he)
    · rfl

/-- Messages between the layers of peers do not count. -/
theorem Refines.post_peers (h : Refines links app ar ads F q)
    {N' : BL_PeerConnectivityLayer_API P O} {msgs : List (Message P O)}
    (hp : Posted ar (F.host n).peers N' msgs) (hmsgs : ∀ msg ∈ msgs, Carried app ar ads n msg)
    (hpeer : ∀ msg ∈ msgs, msg.type ∈ peerTypes) :
    Refines links app ar ads (F.set n { F.host n with peers := N' } F.pipe) q := by
  have hnone : ∀ m, (msgs.filter (·.dest = m)).filterMap app.payload = sentTo [] m := by
    intro m
    refine List.filterMap_eq_nil_iff.mpr fun msg hmsg => ?_
    rw [ProtocolLayer.payload, if_pos (hpeer msg (List.mem_of_mem_filter hmsg))]
  have hsame : q.post n (F.host n).layer [] q.chan = q := by
    rw [Queues.post, h.layer, Function.update_eq_self]
    congr 1
    funext a b
    exact ite_eq_right_iff.mpr fun _ => List.append_nil _
  have hpost := h.post hp hmsgs (s := (F.host n).layer) hnone fun _ he => absurd he List.not_mem_nil
  rw [hsame] at hpost
  exact hpost

theorem Refines.write (h : Refines links app ar ads F q) {m : P} (hm : m ∈ links.nbrs n)
    {answers : List Int} {out : List UInt8} {s : DataSocket}
    (hs : ((F.host n).peers.socketLayer.heap (links.sock n m).obj).doSend answers = .ok (out, s)) :
    Refines links app ar ads
      (F.set n { F.host n with peers := { (F.host n).peers with
          socketLayer := (F.host n).peers.socketLayer.setSocket (links.sock n m).obj s } }
        fun a b => if a = n ∧ b = m then F.pipe a b ++ out else F.pipe a b) q := by
  refine h.update ((h.linked n).keep (.refl _) rfl rfl rfl rfl) (h.events n) ?_ ?_ ?_ ?_ h.away
  · rw [h.layer, Function.update_eq_self]
  · intro a b ha _
    exact ⟨if_neg fun hab => ha hab.1, rfl⟩
  · intro b hb buf waiting hstream
    by_cases hbm : b = m
    · subst hbm
      have hheap : ((F.host n).peers.socketLayer.setSocket (links.sock n b).obj s).heap
          (links.sock n b).obj = s := if_pos rfl
      rw [if_pos ⟨rfl, rfl⟩, hheap]
      exact hstream.write hs
    · have hheap : ((F.host n).peers.socketLayer.setSocket (links.sock n m).obj s).heap
          (links.sock n b).obj = (F.host n).peers.socketLayer.heap (links.sock n b).obj :=
        if_neg fun hobj => hbm (links.obj_inj hb hm hobj)
      rw [if_neg fun hab => hbm hab.2, hheap]
      exact hstream
  · intro a ha s' hstream
    rw [if_neg fun hab => links.ne (links.symm ha) hab.1]
    exact hstream

theorem Refines.recv (h : Refines links app ar ads F q) {m : P} (hm : m ∈ links.nbrs n)
    {rs : List RecvResult} (hopen : ∀ r ∈ rs, r ≠ .closed ∧ r ≠ .failed)
    (hpre : received rs <+: F.pipe m n) :
    ∃ layer, (F.host n).peers.socketLayer.recvHandler ar (links.sock n m).getFD rs = .ok layer ∧
      Refines links app ar ads
        (F.set n { F.host n with peers := { (F.host n).peers with socketLayer := layer } }
          fun a b => if a = m ∧ b = n then (F.pipe a b).drop (received rs).length else F.pipe a b)
        q := by
  have hn := links.symm hm
  have hstream := h.stream m n hn
  obtain ⟨c, hc⟩ := Option.isSome_iff_exists.mp ((h.linked n).owned m hm)
  obtain ⟨msgs, remain, hd⟩ := hstream.drains hpre c
  obtain ⟨layer, hlayer⟩ := recvHandler_total _ hc hopen hd
  refine ⟨layer, hlayer, ?_⟩
  obtain ⟨c', hc', ⟨hclosed, -, -⟩ | ⟨-, msgs', remain', hd', hL, hbytes⟩⟩ :=
    recvHandler_ok _ hlayer
  · exact absurd rfl (hopen _ (mem_of_seesClosed hclosed)).1
  obtain rfl := Option.some.inj (hc.symm.trans hc')
  obtain ⟨rfl, rfl⟩ := hd.unique hd'
  obtain ⟨hcarried, hafter⟩ := hstream.recv hpre hd
  have hqueue : layer.eventQueue = (F.host n).peers.socketLayer.eventQueue ++
      msgs.map (recvEvent ((F.host n).peers.socketLayer.getDataSocket (links.sock n m).getFD)) := by
    rw [hL]
  refine h.update ((h.linked n).keep (.refl _) rfl ?_ ?_ ?_) ?_ ?_ ?_ ?_ ?_ h.away
  · show layer.dataSockets = _
    rw [hL]
  · show layer.conns = _
    rw [hL]
  · show layer.objects = _
    rw [hL]
  · intro event he
    have he' : event ∈ layer.eventQueue := he
    rw [hqueue] at he'
    rcases List.mem_append.mp he' with he' | he'
    · exact h.events n event he'
    · obtain ⟨msg, hmsg, rfl⟩ := List.mem_map.mp he'
      have hmsg' := hcarried msg hmsg
      rw [recvEvent, if_neg hmsg'.notify]
      exact ⟨rfl, hmsg'.src ▸ hm, hmsg'.src.symm ▸ hmsg'⟩
  · rw [h.layer, Function.update_eq_self]
  · intro a b _ hb
    exact ⟨if_neg fun hab => hb hab.2, rfl⟩
  · intro b hb buf waiting hs
    have hheap : layer.heap = (F.host n).peers.socketLayer.heap := by rw [hL]
    rw [if_neg fun hab => links.ne hn hab.1.symm]
    show Stream app ar ads n buf _ (layer.heap _) waiting _
    rw [hheap]
    exact hs
  · intro a ha s hs
    show Stream app ar ads a (layer.recvBytes _) _ s (waiting app a layer.eventQueue) _
    rw [hbytes, hqueue, waiting_arrived _ hcarried]
    by_cases ham : a = m
    · subst ham
      rw [if_pos rfl, if_pos rfl, if_pos ⟨rfl, rfl⟩]
      exact (hs.recv hpre hd).2
    · rw [if_neg fun hfd => ham (links.fd_inj ha hm hfd), if_neg ham, if_neg fun hab => ham hab.1,
        List.append_nil]
      exact hs

theorem Refines.deliver (h : Refines links app ar ads F q) {msg : Message P O}
    {queue : List (AsyncEvent P O)}
    (hq : (F.host n).peers.socketLayer.eventQueue = .protocolRecvMsg msg :: queue) {x : X}
    (hx : app.payload msg = some x) : ∃ rest, q.chan msg.src n = x :: rest ∧
      Refines links app ar ads
        (F.set n { F.host n with peers := (F.host n).peers.popAsyncEvent queue } F.pipe)
        { q with chan := q.pop msg.src n rest } := by
  have hfront := h.events n _ (by rw [hq]; exact List.mem_cons_self)
  obtain ⟨-, hsrc, -⟩ := hfront
  have hstream := h.stream msg.src n (links.symm hsrc)
  rw [hq, waiting_pop_protocol hx, if_pos rfl] at hstream
  obtain ⟨rest, hchan, -⟩ := hstream.deliver
  refine ⟨rest, hchan, h.update ((h.linked n).keep (.refl _) rfl rfl rfl rfl) ?_ ?_ ?_ ?_ ?_ ?_⟩
  · intro event he
    exact h.events n event (by rw [hq]; exact List.mem_cons_of_mem _ he)
  · rw [h.layer, Function.update_eq_self]
  · intro a b _ hb
    exact ⟨rfl, if_neg fun hab => hb hab.2⟩
  · intro b hb buf waiting hs
    have hpop : q.pop msg.src n rest n b = q.chan n b := if_neg fun hab => links.ne hb hab.2.symm
    show Stream app ar ads n buf _ _ waiting (q.pop msg.src n rest n b)
    rw [hpop]
    exact hs
  · intro a ha s hs
    show Stream app ar ads a _ _ s (waiting app a queue) (q.pop msg.src n rest a n)
    rw [hq, waiting_pop_protocol hx] at hs
    by_cases hasrc : a = msg.src
    · subst hasrc
      rw [if_pos rfl, hchan] at hs
      obtain ⟨rest', heq, hs⟩ := hs.deliver
      obtain ⟨-, rfl⟩ := List.cons.inj heq
      rw [Queues.pop, if_pos ⟨rfl, rfl⟩]
      exact hs
    · rw [if_neg hasrc] at hs
      rw [Queues.pop, if_neg fun hab => hasrc hab.1]
      exact hs
  · intro a b hb
    have hne : ¬ (a = msg.src ∧ b = n) := by
      rintro ⟨rfl, rfl⟩
      exact hb (links.symm hsrc)
    show q.pop msg.src n rest a b = []
    rw [Queues.pop, if_neg hne]
    exact h.away a b hb

end Moves

end Bleep
