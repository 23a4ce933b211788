/-
# `Bleep.BL2.NodeFaults` — where a node can stop, and why

Three assertions are about the table of peers: that a peer that is disconnected has
a socket to give up, that the update of the outgoing connections meets no peer that
is neither active nor being connected to, and that no counter gets negative.  They
are reached from public functions, handlers and timers, in loops over the table.  One
is `WriteHandler`'s, that the descriptor of its event has a data socket.

`aborts_cases` says it once: where one of the three fails, the table, or what is left
of it after some peers were taken out, has a peer to blame; where `WriteHandler`'s
fails, its event is in front; and all other faults are plain.
-/
import Bleep.BL2.Node

namespace Bleep

/-- One of the three assertions about the table. -/
def Fault.aboutTable (e : Fault) : Prop :=
  e ∈ [.assertion "wrong peernum", .assertion "valid peer should have valid data socket",
    .assertion "to be implemented"]

instance : DecidablePred Fault.aboutTable := fun e => inferInstanceAs (Decidable (e ∈ _))

/-- The assertion of `WriteHandler`. -/
def Fault.ofWrite : Fault := .assertion "dataSocket not exist for given (write) event"

/-- None of the four. -/
def Fault.plain (e : Fault) : Prop := ¬ e.aboutTable ∧ e ≠ .ofWrite

instance : DecidablePred Fault.plain := fun e =>
  inferInstanceAs (Decidable (¬ e.aboutTable ∧ e ≠ .ofWrite))

variable {P O : Type}

namespace PeerManager

variable [LinearOrder P]

/-- Some peers of the table are taken out, one after the other. -/
abbrev Drops : PeerManager P → PeerManager P → Prop :=
  Relation.ReflTransGen fun m m' => ∃ p, m.findPeer p.id = some p ∧ m' = m.dropPeer p

/-- A peer whose removal makes its counter negative, or that has no socket and is not
waiting for one. -/
structure Blames (m : PeerManager P) (e : Fault) (p : Peer P) : Prop where
  found : m.findPeer p.id = some p
  cause : e = .assertion "wrong peernum" ∧ (m.dropPeer p).numOK p.peerType = false ∨
    e ≠ .assertion "wrong peernum" ∧ p.tryConnect = false ∧ p.dataSocket = none

/-- Something is left of the table in which a peer is to blame. -/
def Faulty (m : PeerManager P) (e : Fault) : Prop := ∃ m' p, Drops m m' ∧ m'.Blames e p

/-- The fault is about the table, and something is wrong with the table; or it is
plain. -/
def Explains (m : PeerManager P) (e : Fault) : Prop := e.aboutTable ∧ m.Faulty e ∨ e.plain

theorem Faulty.of_drops {m m' : PeerManager P} {e : Fault} (hd : Drops m m') (h : m'.Faulty e) :
    m.Faulty e := by
  obtain ⟨m'', p, hd', hp⟩ := h
  exact ⟨m'', p, hd.trans hd', hp⟩

theorem Explains.of_drops {m m' : PeerManager P} {e : Fault} (hd : Drops m m')
    (h : m'.Explains e) : m.Explains e :=
  h.imp_left fun h => ⟨h.1, .of_drops hd h.2⟩

end PeerManager

open PeerManager

/-! ## The socket layer -/

namespace BL_SocketLayer_API

variable {L : BL_SocketLayer_API P O} {ar : Archive P O} {e : Fault}

theorem recvLoop_error {fd : Int} {c : Conn P} {m : RecvBufferManager (UInt8 × Conn P)}
    {rs : List RecvResult} (h : recvLoop fd c m rs = .error e) : e = .exit := by
  induction rs generalizing m with
  | nil => cases h
  | cons r rs ih =>
      cases r with
      | data bs size =>
          simp only [recvLoop] at h
          split at h
          · exact ih h
          · cases h
      | closed => cases h
      | again => cases h
      | failed => exact (Except.error.inj h).symm

theorem parseBuffer_error {fd : Int} (h : L.parseBuffer ar fd = .error e) : e.plain := by
  unfold parseBuffer at h
  split at h
  · cases h
  · rcases bind_error.mp h with h | ⟨_, -, h⟩
    · rcases Framing.drain_error (incremental_parseRound ar Prod.fst) h with ⟨rfl, -⟩ | ⟨s, hs⟩
      · decide
      · have hnone : ∀ e ∈ [Fault.outOfBounds, .uncaught, .nullDeref,
            .assertion "Unexpected message"], e.plain := by decide
        exact hnone e (parseRound_error ar Prod.fst hs)
    · cases h

theorem sendLoop_error {w : Bool} {buff : List WriteMsg} {answers : List Int}
    (h : DataSocket.sendLoop w buff answers = .error e) : e = .exit := by
  induction buff generalizing answers with
  | nil => cases h
  | cons msg buff ih =>
      simp only [DataSocket.sendLoop] at h
      split at h
      · exact (Except.error.inj h).symm
      · split at h
        · split at h
          · cases h
          · rcases bind_error.mp h with h | ⟨_, -, h⟩
            · exact ih h
            · cases h
        · cases h

theorem switchAsyncEventHandler_error {k : Answers} {event : AsyncEvent P O}
    (h : L.switchAsyncEventHandler ar k event = .error e) :
    e.plain ∨ e = .ofWrite ∧ ∃ sock, event = .socketWrite sock ∧
      L.getDataSocket sock.getFD = none := by
  cases event with
  | socketConnect fd =>
      simp only [switchAsyncEventHandler, connectHandler] at h
      split at h
      · obtain rfl := Except.error.inj h
        exact .inl (by decide)
      · split at h
        · cases h
        · cases h
  | socketRecv sock =>
      simp only [switchAsyncEventHandler, recvHandler] at h
      split at h
      · obtain rfl := Except.error.inj h
        exact .inl (by decide)
      · rcases bind_error.mp h with h | ⟨⟨closed, m⟩, -, h⟩
        · obtain rfl := recvLoop_error h
          exact .inl (by decide)
        · exact .inl (parseBuffer_error h)
  | socketWrite sock =>
      simp only [switchAsyncEventHandler, writeHandler] at h
      split at h
      · next hnone => exact .inr ⟨(Except.error.inj h).symm, sock, rfl, hnone⟩
      · rcases bind_error.mp h with h | ⟨_, -, h⟩
        · obtain rfl := sendLoop_error h
          exact .inl (by decide)
        · cases h
  | _ => cases h

end BL_SocketLayer_API

/-! ## The layer of peers -/

namespace BL_PeerConnectivityLayer_API

variable [LinearOrder P] {ar : Archive P O} {ads : AddrAd P O}
  {N : BL_PeerConnectivityLayer_API P O} {a : NodeAct P O} {e : Fault}

theorem explains_of_blames {m : PeerManager P} {p : Peer P} (he : e.aboutTable)
    (h : m.Blames e p) : m.Explains e := .inl ⟨he, m, p, .refl, h⟩

theorem explains_of_removePeer {m : PeerManager P} {p : Peer P} (hp : m.findPeer p.id = some p)
    (h : m.removePeer p = .error e) : m.Explains e := by
  obtain ⟨rfl, hnum⟩ := removePeer_error (by rw [hp]; rfl) h
  exact explains_of_blames (by decide) ⟨hp, .inl ⟨rfl, hnum⟩⟩

theorem disconnectPeer_error {id : P} (h : N.disconnectPeer id = .error e) :
    N.peerManager.Explains e := by
  unfold disconnectPeer at h
  split at h
  · exact nomatch h
  · next p hp =>
      have hid : N.peerManager.findPeer p.id = some p := (id_of_findPeer hp).symm ▸ hp
      rcases bind_error.mp h with h | ⟨L, -, h⟩
      · unfold releaseSocket at h
        split at h
        · exact nomatch h
        · next ht =>
            split at h
            · next hs =>
                obtain rfl := Except.error.inj h
                exact explains_of_blames (by decide)
                  ⟨hid, .inr ⟨by decide, Bool.not_eq_true _ ▸ ht, hs⟩⟩
            · exact nomatch h
      · rcases bind_error.mp h with h | ⟨m, -, h⟩
        · exact explains_of_removePeer hid h
        · exact nomatch h

theorem drops_of_disconnectPeer {id : P} {b : Bool} {M : BL_PeerConnectivityLayer_API P O}
    (h : N.disconnectPeer id = .ok (b, M)) : Drops N.peerManager M.peerManager := by
  rcases disconnectPeer_ok h with ⟨-, rfl⟩ | ⟨p, hp, hd⟩
  · exact .refl
  · exact .single ⟨p, (id_of_findPeer hp).symm ▸ hp, hd.peerManager⟩

theorem disconnectSilent_error {l : List (P × Peer P)} (h : disconnectSilent l N = .error e) :
    N.peerManager.Explains e := by
  induction l generalizing N with
  | nil => exact nomatch h
  | cons x l ih =>
      obtain ⟨id, p⟩ := x
      simp only [disconnectSilent] at h
      split at h
      · exact ih h
      · rcases bind_error.mp h with h | ⟨⟨b, M⟩, hM, h⟩
        · exact disconnectPeer_error h
        · exact .of_drops (drops_of_disconnectPeer hM) (ih h)

theorem disconnectAll_error {ids : List P} (h : disconnectAll ids N = .error e) :
    N.peerManager.Explains e := by
  induction ids generalizing N with
  | nil => exact nomatch h
  | cons id ids ih =>
      rcases bind_error.mp h with h | ⟨⟨b, M⟩, hM, h⟩
      · exact disconnectPeer_error h
      · exact .of_drops (drops_of_disconnectPeer hM) (ih h)

theorem connectPeer_error {id : P} {answer : BL_SocketLayer_API.ConnectAnswer}
    (h : N.connectPeer id answer = .error e) : e.plain := by
  unfold connectPeer at h
  split at h
  · exact nomatch h
  · rcases bind_error.mp h with h | ⟨⟨c, L⟩, -, h⟩
    · cases answer with
      | noAddress => exact nomatch h
      | refused =>
          obtain rfl := Except.error.inj h
          decide
      | inProgress fd => exact nomatch h
    · cases c with
      | none => exact nomatch h
      | some c => exact nomatch h

theorem trials_error {answer : BL_SocketLayer_API.ConnectAnswer} {selected : List (Option P)}
    (h : N.trials answer selected = .error e) : N.peerManager.Explains e := by
  induction selected with
  | nil => cases h
  | cons o selected ih =>
      cases o with
      | none => exact ih h
      | some addr =>
          simp only [trials] at h
          split at h
          · rcases bind_error.mp h with h | ⟨_, -, h⟩
            · exact .inr (connectPeer_error h)
            · cases h
          · next p hp =>
              split at h
              · exact ih h
              · next hact =>
                  split at h
                  · exact ih h
                  · next ht =>
                      obtain rfl := Except.error.inj h
                      have hid : N.peerManager.findPeer p.id = some p :=
                        (id_of_findPeer hp).symm ▸ hp
                      have hno : p.dataSocket = none := by simpa [Peer.isActive] using hact
                      exact explains_of_blames (by decide)
                        ⟨hid, .inr ⟨by decide, Bool.not_eq_true _ ▸ ht, hno⟩⟩

theorem recvAddrs_error {m : PeerManager P} {source : P} {size : Nat} {vAddr : List P}
    {draws : List Draw} {ad : AdvertisementManager P}
    (h : recvAddrs m source size vAddr draws ad = .error e) : e = .nullDeref := by
  have hrelay : ∀ {addr : P} {rs : List Nat} {ad : AdvertisementManager P},
      relayAddr m source addr rs ad = .error e → e = .nullDeref := by
    intro addr rs
    induction rs with
    | nil => exact fun h => nomatch h
    | cons r rs ih =>
        intro ad h
        simp only [relayAddr] at h
        split at h
        · exact (Except.error.inj h).symm
        · exact ih h
  induction vAddr generalizing draws ad with
  | nil => exact nomatch h
  | cons addr vAddr ih =>
      simp only [recvAddrs] at h
      split at h
      · rcases bind_error.mp h with h | ⟨_, -, h⟩
        · exact hrelay h
        · exact ih h
      · exact ih h

theorem recvMsgHandler_error {k : PeerAnswers P} {src : P} {msg : Message P O}
    (h : N.recvMsgHandler ar ads k src msg = .error e) : e.plain := by
  unfold recvMsgHandler at h
  split at h
  · exact nomatch h
  split at h
  · exact nomatch h
  split at h
  · split at h
    · obtain rfl := Except.error.inj h
      decide
    · rcases bind_error.mp h with h | ⟨_, -, h⟩
      · obtain rfl := recvAddrs_error h
        decide
      · exact nomatch h
  split at h
  · exact nomatch h
  split at h
  · split at h
    · obtain rfl := Except.error.inj h
      decide
    · exact nomatch h
  · exact nomatch h

theorem socketCloseHandler_error {sock : Option (SocketPtr P)}
    (h : N.socketCloseHandler sock = .error e) : N.peerManager.Explains e := by
  cases sock with
  | none =>
      simp only [socketCloseHandler] at h
      split at h
      · obtain rfl := Except.error.inj h
        exact .inr (by decide)
      · cases h
  | some sock =>
      simp only [socketCloseHandler] at h
      split at h
      · cases h
      · next x p hfind =>
          have hp := mem_getPeers.mp (List.mem_of_find?_eq_some hfind)
          rcases bind_error.mp h with h | ⟨_, -, h⟩
          · exact explains_of_removePeer ((id_of_findPeer hp).symm ▸ hp) h
          · cases h

theorem switchAsyncEventHandler_error {k : PeerAnswers P} {event : AsyncEvent P O}
    (h : N.switchAsyncEventHandler ar ads k event = .error e) : N.peerManager.Explains e := by
  have hno : ∀ {e'}, e = e' → e'.plain → N.peerManager.Explains e := by
    rintro _ rfl hn
    exact .inr hn
  cases event with
  | peerSocketConnect sock =>
      cases sock with
      | none =>
          simp only [switchAsyncEventHandler, socketConnectHandler] at h
          split at h
          · exact hno (Except.error.inj h).symm (by decide)
          · exact hno (Except.error.inj h).symm (by decide)
      | some sock =>
          simp only [switchAsyncEventHandler, socketConnectHandler] at h
          split at h
          · exact hno (Except.error.inj h).symm (by decide)
          · cases h
  | peerSocketConnectFailed d =>
      rcases bind_error.mp h with h | ⟨M, -, h⟩
      · unfold socketConnectFailedHandler at h
        split at h
        · cases h
        · split at h
          · exact hno (Except.error.inj h).symm (by decide)
          · split at h
            · cases h
            · cases h
      · -- on a null pointer the close handler removes nobody
        simp only [socketCloseHandler] at h
        split at h
        · exact hno (Except.error.inj h).symm (by decide)
        · cases h
  | peerSocketClose sock => exact socketCloseHandler_error h
  | peerRecvMsg src msg => exact .inr (recvMsgHandler_error h)
  | peerRecvNotifyPeerId id sock =>
      simp only [switchAsyncEventHandler, peerNotifyHandler] at h
      split at h
      · cases h
      · split at h
        · cases sock with
          | none => exact hno (Except.error.inj h).symm (by decide)
          | some sock => cases h
        · cases h
  | _ => cases h

/-- The event in front is a `SocketWrite` on a descriptor without a data socket. -/
def WritesNowhere (N : BL_PeerConnectivityLayer_API P O) : Prop :=
  ∃ sock rest, N.socketLayer.eventQueue = .socketWrite sock :: rest ∧
    N.socketLayer.getDataSocket sock.getFD = none

theorem handleNext_error {k : PeerAnswers P} (h : N.handleNext ar ads k = some (.error e)) :
    N.peerManager.Explains e ∨ e = .ofWrite ∧ N.WritesNowhere := by
  unfold handleNext at h
  split at h
  · exact nomatch h
  · split at h
    · exact nomatch h
    · exact nomatch h
  · next event rest hq _ =>
      have h := Option.some.inj h
      unfold handleAsyncEvent at h
      split at h
      · rcases bind_error.mp h with h | ⟨_, -, h⟩
        · rcases BL_SocketLayer_API.switchAsyncEventHandler_error h with hp | ⟨he, sock, rfl, hnone⟩
          · exact .inl (.inr hp)
          · exact .inr ⟨he, sock, rest, hq, hnone⟩
        · exact nomatch h
      · have hpop : (N.popAsyncEvent rest).peerManager.Explains e := switchAsyncEventHandler_error h
        exact .inl hpop

/-- **Why an action stops the node.** -/
theorem aborts_cases (h : Aborts ar ads N a e) :
    N.peerManager.Explains e ∨ e = .ofWrite ∧ N.WritesNowhere := by
  have hno : ∀ {e'}, e = e' → e'.plain →
      N.peerManager.Explains e ∨ e = .ofWrite ∧ N.WritesNowhere := by
    rintro _ rfl hn
    exact .inl (.inr hn)
  unfold Aborts at h
  cases a with
  | destroy sock =>
      simp only [act] at h
      split at h
      · rcases bind_error.mp (Option.some.inj h) with h | ⟨_, -, h⟩
        · unfold BL_SocketLayer_API.destroySocket at h
          split at h
          · cases h
          · exact hno (Except.error.inj h).symm (by decide)
        · cases h
      · cases h
  | connectPeer id answer =>
      simp only [act, move] at h
      split at h
      · split at h
        · rcases bind_error.mp (Option.some.inj h) with h | ⟨_, -, h⟩
          · exact .inl (.inr (connectPeer_error h))
          · cases h
        · cases h
      · cases h
  | disconnectPeer id =>
      simp only [act, move] at h
      split at h
      · rcases bind_error.mp (Option.some.inj h) with h | ⟨_, -, h⟩
        · exact .inl (disconnectPeer_error h)
        · cases h
      · cases h
  | sendMsgToPeer id msg =>
      simp only [act, move] at h
      split at h
      · cases h
      · cases h
  | shutdown =>
      simp only [act, move] at h
      split at h
      · rcases bind_error.mp (Option.some.inj h) with h | ⟨_, -, h⟩
        · rcases bind_error.mp h with h | ⟨_, -, h⟩
          · exact .inl (disconnectAll_error h)
          · exact hno (Except.error.inj h).symm (by decide)
        · cases h
      · cases h
  | listenSocketIOCallback =>
      simp only [act, move] at h
      split at h
      · cases h
      · cases h
  | connectSocketIOCallback fd =>
      simp only [act, move] at h
      split at h
      · split at h
        · split at h
          · exact hno (Except.error.inj (Option.some.inj h)).symm (by decide)
          · cases h
        · cases h
      · cases h
  | dataSocketIOCallback sock readable =>
      simp only [act, move] at h
      split at h
      · split at h
        · cases h
        · cases h
      · cases h
  | pingtimerCallback k =>
      simp only [act, move] at h
      split at h
      · rcases bind_error.mp (Option.some.inj h) with h | ⟨_, -, h⟩
        · exact .inl (disconnectSilent_error h)
        · cases h
      · cases h
  | timerCallback selected answer =>
      simp only [act, move] at h
      split at h
      · split at h
        · have h := Option.some.inj h
          unfold timerCallback at h
          split at h
          · exact .inl (trials_error h)
          · cases h
        · cases h
      · cases h
  | sendAdToPeers k =>
      simp only [act, move] at h
      split at h
      · cases h
      · cases h
  | handleEvent k =>
      simp only [act, move] at h
      split at h
      · exact handleNext_error h
      · cases h

/-- **Where an assertion about the table fails, a peer is to blame.** -/
theorem aborts_aboutTable (he : e.aboutTable) (h : Aborts ar ads N a e) :
    N.peerManager.Faulty e := by
  rcases aborts_cases h with (⟨-, hf⟩ | hp) | ⟨rfl, -⟩
  · exact hf
  · exact absurd he hp.1
  · exact absurd he (by decide)

/-- **Where `WriteHandler`'s assertion fails, its event is in front.** -/
theorem aborts_ofWrite (h : Aborts ar ads N a .ofWrite) : N.WritesNowhere := by
  rcases aborts_cases h with (⟨he, -⟩ | hp) | ⟨-, hw⟩
  · exact absurd he (by decide)
  · exact absurd rfl hp.2
  · exact hw

end BL_PeerConnectivityLayer_API

end Bleep
