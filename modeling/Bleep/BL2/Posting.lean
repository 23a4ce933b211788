/-
# `Bleep.BL2.Posting` — what the layer of peers sends

Everything the layer of peers and the layers above it send goes through
`SendMsgToPeer`, which queues a frame in the data socket of the peer.  `Posted`
says of a piece of code that all it did was to queue these messages, each in the
socket its destination has; besides, it may have noted who is alive.  The timers
and the answer to a `PING` are of that kind (`posted_pingAll`, `posted_sendAds`).
-/
import Bleep.BL2.PeerConnectivityLayer

namespace Bleep

variable {P O : Type} [LinearOrder P]

namespace PeerManager

theorem SamePeers.dataSocket {m m' : PeerManager P} (h : SamePeers m m') (x : P) :
    (m'.findPeer x).bind Peer.getDataSocket = (m.findPeer x).bind Peer.getDataSocket := by
  have hread : ∀ o : Option (Peer P), o.bind Peer.getDataSocket =
      (o.map (Peer.setPongReceived · true)).bind Peer.getDataSocket := by
    intro o
    cases o with
    | none => rfl
    | some p => rfl
  rw [hread, h.find, ← hread]

theorem SamePeers.isSome {m m' : PeerManager P} (h : SamePeers m m') (x : P) :
    (m'.findPeer x).isSome = (m.findPeer x).isSome := by
  have hx := congrArg Option.isSome (h.find x)
  rwa [Option.isSome_map, Option.isSome_map] at hx

end PeerManager

namespace BL_PeerConnectivityLayer_API

open PeerManager

variable (ar : Archive P O) (N : BL_PeerConnectivityLayer_API P O)

/-- The data socket of a peer. -/
def socketOf (id : P) : Option (SocketPtr P) := (N.peerManager.findPeer id).bind Peer.getDataSocket

/-- What is still to be written to a data socket. -/
def unsent (obj : Nat) : List UInt8 := (N.socketLayer.heap obj).unsent

/-- The message goes into this data socket. -/
def goesInto (obj : Nat) (msg : Message P O) : Bool := (N.socketOf msg.dest).any (·.obj = obj)

/-- Messages, one after the other, each to its destination. -/
def sendMsgs (N : BL_PeerConnectivityLayer_API P O) :
    List (Message P O) → BL_PeerConnectivityLayer_API P O
  | [] => N
  | msg :: msgs => sendMsgs (N.sendMsgToPeer ar msg.dest msg).2 msgs

/-- Nothing happened but that these messages were queued, and that some peers are
taken to be alive. -/
structure Posted (N N' : BL_PeerConnectivityLayer_API P O) (msgs : List (Message P O)) : Prop where
  socketLayer : N'.socketLayer = { N.socketLayer with heap := N'.socketLayer.heap }
  peers : SamePeers N.peerManager N'.peerManager
  me : N'.peerManager.myPeerId = N.peerManager.myPeerId
  unsent : ∀ obj, N'.unsent obj = N.unsent obj ++ (msgs.filter (N.goesInto obj)).flatMap (frame ar)
  watched : ∀ obj, (N.socketLayer.heap obj).Watched → (N'.socketLayer.heap obj).Watched

variable {ar N} {N' N'' : BL_PeerConnectivityLayer_API P O} {msgs msgs' : List (Message P O)}

theorem socketOf_of_same (h : SamePeers N.peerManager N'.peerManager) (id : P) :
    N'.socketOf id = N.socketOf id :=
  h.dataSocket id

theorem goesInto_of_same (h : SamePeers N.peerManager N'.peerManager) (obj : Nat) :
    (N'.goesInto obj : Message P O → Bool) = N.goesInto obj := by
  funext msg
  rw [goesInto, socketOf_of_same h, goesInto]

/-- The layer below is as it was, and so are the peers but for who is alive. -/
theorem Posted.of_peers (hlayer : N'.socketLayer = N.socketLayer)
    (hpeers : SamePeers N.peerManager N'.peerManager)
    (hme : N'.peerManager.myPeerId = N.peerManager.myPeerId) : Posted ar N N' [] where
  socketLayer := by rw [hlayer]
  peers := hpeers
  me := hme
  unsent obj := by rw [BL_PeerConnectivityLayer_API.unsent, hlayer]; exact (List.append_nil _).symm
  watched obj h := by rw [hlayer]; exact h

theorem Posted.refl (N : BL_PeerConnectivityLayer_API P O) : Posted ar N N [] :=
  .of_peers rfl (.refl _) rfl

theorem Posted.trans (h : Posted ar N N' msgs) (h' : Posted ar N' N'' msgs') :
    Posted ar N N'' (msgs ++ msgs') where
  socketLayer := by rw [h'.socketLayer, h.socketLayer]
  peers := h.peers.trans h'.peers
  me := h'.me.trans h.me
  unsent obj := by
    rw [h'.unsent, h.unsent, goesInto_of_same h.peers, List.filter_append, List.flatMap_append,
      List.append_assoc]
  watched obj hw := h'.watched obj (h.watched obj hw)

theorem posted_sendMsgToPeer (msg : Message P O) (hsrc : msg.src = N.peerManager.myPeerId) :
    Posted ar N (N.sendMsgToPeer ar msg.dest msg).2 [msg] := by
  have hw : Wrote N (N.sendMsgToPeer ar msg.dest msg).2 := sendMsgToPeer_snd N msg.dest msg
  have hheap : ∀ obj, (N.sendMsgToPeer ar msg.dest msg).2.socketLayer.heap obj =
      if N.goesInto obj msg then (N.socketLayer.heap obj).appendMsg ar msg
      else N.socketLayer.heap obj := by
    intro obj
    unfold sendMsgToPeer goesInto socketOf
    cases (N.peerManager.findPeer msg.dest).bind Peer.getDataSocket with
    | none => rfl
    | some sock =>
        have hself : msg.setSource N.peerManager.myPeerId = msg := hsrc ▸ rfl
        rw [hself, Option.any_some]
        show (if obj = sock.obj then _ else _) = _
        by_cases h : obj = sock.obj
        · rw [if_pos h, if_pos (decide_eq_true h.symm), h]
        · rw [if_neg h, if_neg (Bool.not_eq_true _ ▸ decide_eq_false (Ne.symm h))]
  exact
    { socketLayer := hw.socketLayer
      peers := hw.peerManager ▸ .refl _
      me := congrArg PeerManager.myPeerId hw.peerManager
      unsent := by
        intro obj
        rw [BL_PeerConnectivityLayer_API.unsent, hheap, BL_PeerConnectivityLayer_API.unsent]
        cases h : N.goesInto obj msg with
        | true => simp [h, DataSocket.unsent_appendMsg]
        | false => simp [h]
      watched := by
        intro obj hwatched
        rw [hheap]
        split
        · exact DataSocket.watched_appendToSendBuff _ _
        · exact hwatched }

theorem posted_sendMsgs (hsrc : ∀ msg ∈ msgs, msg.src = N.peerManager.myPeerId) :
    Posted ar N (N.sendMsgs ar msgs) msgs := by
  induction msgs generalizing N with
  | nil => exact .refl N
  | cons msg msgs ih =>
      obtain ⟨hmsg, hmsgs⟩ := List.forall_mem_cons.mp hsrc
      have hone : Posted ar N (N.sendMsgToPeer ar msg.dest msg).2 [msg] :=
        posted_sendMsgToPeer msg hmsg
      exact hone.trans (ih fun m hm => (hmsgs m hm).trans hone.me.symm)

theorem posted_setPong {p : Peer P} (hp : N.peerManager.findPeer p.id = some p) (flag : Bool) :
    Posted ar N (N.setPeer (p.setPongReceived flag)) [] :=
  .of_peers rfl (samePeers_setPongReceived hp flag) rfl

/-- The message the ping timer sends to a peer. -/
def pingMsg (k : PeerAnswers P) (me : P) (id : P) : Message P O :=
  .make me id "PING" (k.messageId id "PING")

theorem posted_pingAll (k : PeerAnswers P) {l : List (P × Peer P)}
    (hl : ∀ e ∈ l, N.peerManager.findPeer e.1 = some e.2)
    (hkeys : l.Pairwise fun e e' => e.1 ≠ e'.1) :
    Posted ar N (pingAll ar k l N) (l.map fun e => pingMsg k N.peerManager.myPeerId e.1) := by
  induction l generalizing N with
  | nil => exact .refl N
  | cons e l ih =>
      obtain ⟨id, p⟩ := e
      obtain ⟨hne, htail⟩ := List.pairwise_cons.mp hkeys
      have hp := hl _ List.mem_cons_self
      obtain rfl : p.id = id := id_of_findPeer hp
      have hping : Posted ar N (N.sendMsgToPeer ar p.id (pingMsg k N.peerManager.myPeerId p.id)).2
          [pingMsg k N.peerManager.myPeerId p.id] :=
        posted_sendMsgToPeer (pingMsg k N.peerManager.myPeerId p.id) rfl
      have hw : Wrote N (N.sendMsgToPeer ar p.id (pingMsg k N.peerManager.myPeerId p.id)).2 :=
        sendMsgToPeer_snd _ _ _
      show Posted ar N (pingAll ar k l
        ((N.sendMsgToPeer ar p.id (pingMsg k N.peerManager.myPeerId p.id)).2.setPeer
          (p.setPongReceived false))) _
      generalize (N.sendMsgToPeer ar p.id (pingMsg k N.peerManager.myPeerId p.id)).2 = M at hping hw
      have hM : Posted ar M (M.setPeer (p.setPongReceived false)) [] :=
        posted_setPong (by rw [hw.peerManager]; exact hp) false
      have hrest : ∀ e ∈ l, (M.setPeer (p.setPongReceived false)).peerManager.findPeer e.1 =
          some e.2 := by
        intro e he
        show (M.peerManager.setPeer (p.setPongReceived false)).findPeer e.1 = some e.2
        rw [findPeer_setPeer, if_neg fun heq => hne e he heq.symm, hw.peerManager]
        exact hl e (List.mem_cons_of_mem _ he)
      have hall := ih hrest htail
      rw [hM.me, hping.me] at hall
      exact (hping.trans hM).trans hall

/-- The message `SendAdToPeers` sends to a peer. -/
def adMsg (ads : AddrAd P O) (k : PeerAnswers P) (me : P) (e : P × List P) : Message P O :=
  { Message.make (O := O) me e.1 "ADDR" (k.messageId e.1 "ADDR") with
    ptrToObj := some (ads.make e.2) }

theorem posted_sendAds (ads : AddrAd P O) (k : PeerAnswers P) {l : List (P × List P)} :
    Posted ar N (sendAds ar ads k l N) (l.map (adMsg ads k N.peerManager.myPeerId)) := by
  induction l generalizing N with
  | nil => exact .refl N
  | cons e l ih =>
      have hone : Posted ar N
          (N.sendMsgToPeer ar e.1 (adMsg ads k N.peerManager.myPeerId e)).2
          [adMsg ads k N.peerManager.myPeerId e] :=
        posted_sendMsgToPeer (adMsg ads k N.peerManager.myPeerId e) rfl
      have hall := ih (N := (N.sendMsgToPeer ar e.1 (adMsg ads k N.peerManager.myPeerId e)).2)
      rw [hone.me] at hall
      exact hone.trans hall

theorem getNeighborPeerIds_of_same (h : SamePeers N.peerManager N'.peerManager) :
    N'.getNeighborPeerIds = N.getNeighborPeerIds := by
  have hmem : ∀ (M : BL_PeerConnectivityLayer_API P O) (x : P),
      x ∈ M.getNeighborPeerIds ↔ (M.socketOf x).isSome = true := by
    intro M x
    simp only [getNeighborPeerIds, List.mem_map, List.mem_filter, mem_getPeers, socketOf]
    constructor
    · rintro ⟨⟨y, p⟩, ⟨hp, hact⟩, rfl⟩
      simp only [hp, Option.bind_some]
      exact hact
    · intro hsome
      cases hp : M.peerManager.findPeer x with
      | none => simp [hp] at hsome
      | some p =>
          rw [hp, Option.bind_some] at hsome
          exact ⟨(x, p), ⟨hp, hsome⟩, rfl⟩
  have hsorted : ∀ M : BL_PeerConnectivityLayer_API P O,
      M.getNeighborPeerIds.Pairwise (· < ·) := by
    intro M
    exact ((OrderedMap.sorted_toList M.peerManager.peers).filter _).map _ fun _ _ h => h
  have hperm : List.Perm N'.getNeighborPeerIds N.getNeighborPeerIds := by
    refine (List.perm_ext_iff_of_nodup ((hsorted N').imp ne_of_lt)
      ((hsorted N).imp ne_of_lt)).mpr ?_
    intro x
    rw [hmem, hmem, socketOf_of_same h]
  exact hperm.eq_of_pairwise (fun _ _ _ _ hab hba => absurd hba hab.asymm) (hsorted N') (hsorted N)

end BL_PeerConnectivityLayer_API

end Bleep
