/-
# `Bleep.BL2.Numbers` — the numbers of connections and data sockets

Connections and data sockets are numbered as they are made.  In every state a node
reaches nothing has a number that is still to be given out: no open connection, no
byte in a receive buffer, no data socket, no event in the queue and no peer
(`Numbered`).  What is made next is therefore none of them, which is what the records
of connections are for.
-/
import Bleep.BL2.Node

namespace Bleep

variable {P O : Type}

/-! ## The socket layer -/

namespace BL_SocketLayer_API

/-- Nothing in the socket layer has a number that is still to be given out. -/
structure Numbered (L : BL_SocketLayer_API P O) : Prop where
  conns : ∀ c ∈ L.conns, c.id < L.next
  bytes : ∀ fd, ∀ b ∈ L.recvBytes fd, b.2.id < L.next
  objects : ∀ sock ∈ L.objects, sock.obj < L.next
  dataSockets : ∀ fd, ∀ sock ∈ L.getDataSocket fd, sock.obj < L.next
  events : ∀ event ∈ L.eventQueue, ∀ sock ∈ event.about, sock.obj < L.next

namespace Numbered

variable {L L' : BL_SocketLayer_API P O}

theorem init : (init : BL_SocketLayer_API P O).Numbered where
  conns _ h := nomatch h
  bytes _ _ h := nomatch h
  objects _ h := nomatch h
  dataSockets _ _ h := nomatch h
  events _ h := nomatch h

theorem owner (h : L.Numbered) {fd : Int} {c : Conn P} (hc : L.owner fd = some c) : c.id < L.next :=
  h.conns c (List.mem_of_find?_eq_some hc)

/-- What is there afterwards was there before, or has a number. -/
theorem of_parts (h : L.Numbered) (hnext : L.next ≤ L'.next)
    (hconns : ∀ c ∈ L'.conns, c ∈ L.conns ∨ c.id < L'.next)
    (hbytes : ∀ fd, ∀ b ∈ L'.recvBytes fd, b ∈ L.recvBytes fd ∨ b.2.id < L'.next)
    (hobjects : ∀ sock ∈ L'.objects, sock ∈ L.objects ∨ sock.obj < L'.next)
    (hsockets : ∀ fd, ∀ sock ∈ L'.getDataSocket fd, sock ∈ L.getDataSocket fd ∨ sock.obj < L'.next)
    (hevents : ∀ event ∈ L'.eventQueue, event ∈ L.eventQueue ∨
      ∀ sock ∈ event.about, sock.obj < L'.next) : L'.Numbered where
  conns c hc := by
    rcases hconns c hc with hold | hlt
    · exact Nat.lt_of_lt_of_le (h.conns c hold) hnext
    · exact hlt
  bytes fd b hb := by
    rcases hbytes fd b hb with hold | hlt
    · exact Nat.lt_of_lt_of_le (h.bytes fd b hold) hnext
    · exact hlt
  objects sock hs := by
    rcases hobjects sock hs with hold | hlt
    · exact Nat.lt_of_lt_of_le (h.objects sock hold) hnext
    · exact hlt
  dataSockets fd sock hs := by
    rcases hsockets fd sock hs with hold | hlt
    · exact Nat.lt_of_lt_of_le (h.dataSockets fd sock hold) hnext
    · exact hlt
  events event he sock hs := by
    rcases hevents event he with hold | hlt
    · exact Nat.lt_of_lt_of_le (h.events event hold sock hs) hnext
    · exact hlt sock hs

theorem openFd (h : L.Numbered) (fd : Int) (opener : Option P) : (L.openFd fd opener).Numbered := by
  refine h.of_parts (Nat.le_succ _) ?_ (fun _ _ hb => .inl hb) (fun _ hs => .inl hs)
    (fun _ _ hs => .inl hs) (fun _ he => .inl he)
  intro c hc
  rcases List.mem_cons.mp hc with rfl | hc
  · exact .inr (Nat.lt_succ_self _)
  · exact .inl hc

theorem closeFd (h : L.Numbered) (fd : Int) : (L.closeFd fd).Numbered :=
  h.of_parts (Nat.le_refl _) (fun _ hc => .inl (List.mem_of_mem_filter hc)) (fun _ _ hb => .inl hb)
    (fun _ hs => .inl hs) (fun _ _ hs => .inl hs) (fun _ he => .inl he)

theorem createDataSocket (h : L.Numbered) (c : Conn P) : (L.createDataSocket c).Numbered := by
  refine h.of_parts (Nat.le_succ _) (fun _ hc => .inl hc) (fun _ _ hb => .inl hb) ?_ ?_
    (fun _ he => .inl he)
  · intro sock hs
    rcases List.mem_cons.mp hs with rfl | hs
    · exact .inr (Nat.lt_succ_self _)
    · exact .inl hs
  · intro fd sock hs
    by_cases hfd : fd = c.fd
    · obtain rfl : L.nextSocket c = sock := Option.some.inj ((if_pos hfd).symm.trans hs)
      exact .inr (Nat.lt_succ_self _)
    · exact .inl ((if_neg hfd).symm.trans hs)

theorem removeDataSocket (h : L.Numbered) (fd : Int) : (L.removeDataSocket fd).Numbered := by
  refine h.of_parts (Nat.le_refl _) (fun _ hc => .inl hc) (fun _ _ hb => .inl hb)
    (fun _ hs => .inl hs) ?_ (fun _ he => .inl he)
  intro x sock hs
  by_cases hx : x = fd
  · exact nomatch (if_pos hx).symm.trans hs
  · exact .inl ((if_neg hx).symm.trans hs)

theorem append (h : L.Numbered) {events : List (AsyncEvent P O)}
    (hevents : ∀ event ∈ events, ∀ sock ∈ event.about, sock.obj < L.next) :
    Numbered { L with eventQueue := L.eventQueue ++ events } := by
  refine h.of_parts (Nat.le_refl _) (fun _ hc => .inl hc) (fun _ _ hb => .inl hb)
    (fun _ hs => .inl hs) (fun _ _ hs => .inl hs) ?_
  intro event he
  rcases List.mem_append.mp he with he | he
  · exact .inl he
  · exact .inr (hevents event he)

theorem pushAsyncEvent (h : L.Numbered) {event : AsyncEvent P O}
    (hevent : ∀ sock ∈ event.about, sock.obj < L.next) : (L.pushAsyncEvent event).Numbered :=
  h.append fun e he => by
    rw [List.mem_singleton.mp he]
    exact hevent

theorem pop (h : L.Numbered) {event : AsyncEvent P O} {rest : List (AsyncEvent P O)}
    (hq : L.eventQueue = event :: rest) : Numbered { L with eventQueue := rest } :=
  h.of_parts (Nat.le_refl _) (fun _ hc => .inl hc) (fun _ _ hb => .inl hb) (fun _ hs => .inl hs)
    (fun _ _ hs => .inl hs) (fun _ he => .inl (hq ▸ List.mem_cons_of_mem _ he))

theorem wrote (h : L.Numbered) (hL : L' = { L with heap := L'.heap }) : L'.Numbered := by
  rw [hL]
  exact ⟨h.conns, h.bytes, h.objects, h.dataSockets, h.events⟩

theorem setConnectSockets (h : L.Numbered) (m : Int → Option P) :
    Numbered { L with connectSockets := m } :=
  ⟨h.conns, h.bytes, h.objects, h.dataSockets, h.events⟩

theorem abandonConnectSocket (h : L.Numbered) (fd : Int) : (L.abandonConnectSocket fd).Numbered :=
  (h.setConnectSockets _).closeFd fd

theorem setBytes (h : L.Numbered) {m : RecvBufferManager (UInt8 × Conn P)}
    (hm : ∀ fd, ∀ b ∈ m.bytes fd, b ∈ L.recvBytes fd ∨ b.2.id < L.next) :
    Numbered { L with recvBuffManager := m } :=
  h.of_parts (Nat.le_refl _) (fun _ hc => .inl hc) hm (fun _ hs => .inl hs) (fun _ _ hs => .inl hs)
    (fun _ he => .inl he)

end Numbered

theorem about_recvEvent {sock : Option (SocketPtr P)} {msg : Message P O} {own : SocketPtr P}
    (h : own ∈ (recvEvent sock msg).about) : own ∈ sock := by
  unfold recvEvent at h
  split at h
  · exact h
  · exact nomatch h

theorem Numbered.layerStep {L L' : BL_SocketLayer_API P O} {ar : Archive P O} {k : Answers}
    {event : AsyncEvent P O} (h : L.Numbered) (hs : LayerStep ar k L event L') : L'.Numbered := by
  cases hs with
  | connectError hfailed =>
      refine (h.append fun e he sock hsock => ?_).abandonConnectSocket _
      obtain ⟨domain, rfl⟩ := hfailed e he
      exact nomatch hsock
  | connected hc =>
      refine ((h.createDataSocket _).setConnectSockets _).pushAsyncEvent fun sock hsock => ?_
      obtain rfl := Option.some.inj hsock
      exact Nat.lt_succ_self _
  | connectFailed => exact h.pushAsyncEvent fun sock hsock => nomatch hsock
  | @closed sock c L' hc _ hL hbytes =>
      rw [hL]
      have hclosed : (L.closedWhileRecv sock.getFD).Numbered := by
        refine Numbered.setBytes ((h.pushAsyncEvent ?_).removeDataSocket sock.getFD) ?_
        · exact fun s hs => h.dataSockets sock.getFD s hs
        · intro fd b hb
          rw [RecvBufferManager.bytes_removeRecvBuffer] at hb
          split at hb
          · exact nomatch hb
          · exact .inl hb
      refine hclosed.setBytes fun fd b hb => .inr ?_
      have hb' : b ∈ L'.recvBytes fd := hb
      rw [hbytes] at hb'
      split at hb'
      · exact nomatch hb'
      · exact h.bytes fd b hb'
  | @read sock c msgs remain L' hc _ hd hL hbytes =>
      rw [hL]
      refine Numbered.setBytes (h.append ?_) ?_
      · intro e he s hs
        obtain ⟨msg, -, rfl⟩ := List.mem_map.mp he
        exact h.dataSockets sock.getFD s (about_recvEvent hs)
      · intro fd b hb
        have hb' : b ∈ L'.recvBytes fd := hb
        rw [hbytes] at hb'
        split at hb'
        · next hfd =>
            rcases List.mem_append.mp (hd.subset (parseRound_subset ar Prod.fst) hb') with hb' | hb'
            · exact .inl (hfd ▸ hb')
            · obtain ⟨_, -, rfl⟩ := List.mem_map.mp hb'
              exact .inr (h.owner hc)
        · exact .inl hb'
  | written _ => exact h.wrote rfl

theorem LayerStep.next_le {L L' : BL_SocketLayer_API P O} {ar : Archive P O} {k : Answers}
    {event : AsyncEvent P O} (hs : LayerStep ar k L event L') : L.next ≤ L'.next := by
  cases hs with
  | connectError _ => exact Nat.le_refl _
  | connected _ => exact Nat.le_succ _
  | connectFailed => exact Nat.le_refl _
  | closed _ _ hL _ =>
      rw [hL]
      exact Nat.le_refl _
  | read _ _ _ hL _ =>
      rw [hL]
  | written _ => exact Nat.le_refl _

end BL_SocketLayer_API

/-! ## The node -/

open BL_SocketLayer_API

variable [LinearOrder P]

namespace PeerManager

/-- A peer of the table has the data socket. -/
def Holds (m : PeerManager P) (sock : SocketPtr P) : Prop :=
  ∃ x p, m.findPeer x = some p ∧ p.dataSocket = some sock

variable {m m' : PeerManager P} {p : Peer P} {sock : SocketPtr P}

theorem holds_new {me : P} {o i : Int} : ¬ (new me o i).Holds sock := by
  rintro ⟨x, p, hp, -⟩
  cases (findPeer_new me x o i).symm.trans hp

theorem holds_setPeer (h : (m.setPeer p).Holds sock) : m.Holds sock ∨ p.dataSocket = some sock := by
  obtain ⟨x, q, hq, hs⟩ := h
  rw [findPeer_setPeer] at hq
  split at hq
  · exact .inr (Option.some.inj hq ▸ hs)
  · exact .inl ⟨x, q, hq, hs⟩

theorem holds_addPeer (h : (m.addPeer p).Holds sock) : m.Holds sock ∨ p.dataSocket = some sock :=
  holds_setPeer h

theorem holds_dropPeer (h : (m.dropPeer p).Holds sock) : m.Holds sock := by
  obtain ⟨x, q, hq, hs⟩ := h
  rw [findPeer_dropPeer] at hq
  split at hq
  · cases hq
  · exact ⟨x, q, hq, hs⟩

theorem SamePeers.holds (hs : SamePeers m m') (h : m'.Holds sock) : m.Holds sock := by
  obtain ⟨x, q, hq, hsock⟩ := h
  obtain ⟨p, hp, hsame⟩ := hs.of_findPeer hq
  rw [hsame] at hsock
  exact ⟨x, p, hp, hsock⟩

end PeerManager

open PeerManager

namespace BL_PeerConnectivityLayer_API

/-- Nor does a peer have a data socket with such a number. -/
structure Numbered (N : BL_PeerConnectivityLayer_API P O) : Prop where
  socketLayer : N.socketLayer.Numbered
  peers : ∀ sock, N.peerManager.Holds sock → sock.obj < N.socketLayer.next

variable {ar : Archive P O} {ads : AddrAd P O} {N N' : BL_PeerConnectivityLayer_API P O}
  {a : NodeAct P O}

theorem Numbered.of_layer (h : N.Numbered) (hlayer : N'.socketLayer.Numbered)
    (hnext : N.socketLayer.next ≤ N'.socketLayer.next)
    (hpeers : ∀ sock, N'.peerManager.Holds sock → N.peerManager.Holds sock ∨
      sock.obj < N'.socketLayer.next) : N'.Numbered where
  socketLayer := hlayer
  peers sock hs := by
    rcases hpeers sock hs with hold | hlt
    · exact Nat.lt_of_lt_of_le (h.peers sock hold) hnext
    · exact hlt

theorem Numbered.opened (h : N.Numbered) (id : P) (fd : Int) : (N.opened id fd).Numbered := by
  refine h.of_layer ((h.socketLayer.openFd fd _).setConnectSockets _) (Nat.le_succ _) fun sock hs =>
    ?_
  rcases holds_addPeer hs with hold | hnew
  · exact .inl hold
  · exact nomatch hnew

theorem Numbered.disconnected (h : N.Numbered) {p : Peer P} (hd : Disconnected N p N') :
    N'.Numbered := by
  have hpeers : ∀ sock, N'.peerManager.Holds sock → N.peerManager.Holds sock := by
    intro sock hs
    rw [hd.peerManager] at hs
    exact holds_dropPeer hs
  rcases releaseSocket_ok hd.socketLayer with ⟨-, hL⟩ | ⟨-, sock, -, hL⟩
  · refine h.of_layer ?_ ?_ fun s hs => .inl (hpeers s hs)
    · rw [hL]
      exact h.socketLayer.abandonConnectSocket _
    · rw [hL]
      exact Nat.le_refl _
  · refine h.of_layer ?_ ?_ fun s hs => .inl (hpeers s hs)
    · rw [hL]
      exact h.socketLayer.removeDataSocket _
    · rw [hL]
      exact Nat.le_refl _

theorem Numbered.wrote (h : N.Numbered) (hpeers : SamePeers N.peerManager N'.peerManager)
    (hlayer : N'.socketLayer = { N.socketLayer with heap := N'.socketLayer.heap }) :
    N'.Numbered := by
  refine h.of_layer (h.socketLayer.wrote hlayer) ?_ fun sock hs => .inl (hpeers.holds hs)
  rw [hlayer]

theorem Numbered.pushAsyncEvent (h : N.Numbered) {event : AsyncEvent P O}
    (hevent : ∀ sock ∈ event.about, sock.obj < N.socketLayer.next) :
    (N.pushAsyncEvent event).Numbered :=
  ⟨h.socketLayer.pushAsyncEvent hevent, h.peers⟩

theorem Numbered.popAsyncEvent (h : N.Numbered) {event : AsyncEvent P O}
    {rest : List (AsyncEvent P O)} (hq : N.socketLayer.eventQueue = event :: rest) :
    (N.popAsyncEvent rest).Numbered :=
  ⟨h.socketLayer.pop hq, h.peers⟩

theorem Numbered.eventStep {k : PeerAnswers P} {event : AsyncEvent P O} (h : N.Numbered)
    (hevent : ∀ sock ∈ event.about, sock.obj < N.socketLayer.next)
    (hs : EventStep ar k N event N') : N'.Numbered := by
  cases hs with
  | @attached sock x p hfind =>
      refine h.of_layer (h.socketLayer.wrote (attach_socketLayer _ _ _)) ?_ fun s hs => ?_
      · rw [attach_socketLayer]
      · rw [attach_peerManager] at hs
        rw [attach_socketLayer]
        rcases holds_setPeer hs with hold | hnew
        · exact .inl hold
        · exact .inr (Option.some.inj hnew ▸ hevent sock rfl)
  | @connectFailed d p hp hno htry =>
      refine h.of_layer h.socketLayer (Nat.le_refl _) fun s hs => ?_
      rcases holds_setPeer hs with hold | hnew
      · exact .inl hold
      · exact .inl ⟨d, p, hp, hnew⟩
  | connectFailedIdle _ => exact h
  | closeUnknown => exact h
  | closed _ _ _ => exact ⟨h.socketLayer, fun s hs => h.peers s (holds_dropPeer hs)⟩
  | recvMsg hpeers hlayer => exact h.wrote hpeers hlayer
  | recvProtocolMsg => exact h.pushAsyncEvent fun _ hs => nomatch hs
  | notifyDuplicate _ => exact h
  | notifyLimit _ _ => exact ⟨h.socketLayer.removeDataSocket _, h.peers⟩
  | @notifyAdded id sock hact hlimit =>
      refine h.of_layer h.socketLayer (Nat.le_refl _) fun s hs => ?_
      rcases holds_addPeer hs with hold | hnew
      · exact .inl hold
      · exact .inr (hevent s hnew)
  | protocol => exact h

theorem Numbered.step (h : N.Numbered) (hs : NodeStep ar N a N') : N'.Numbered := by
  cases hs with
  | connectIdle _ => exact h
  | connectOpened _ _ => exact h.opened _ _
  | disconnectAbsent _ => exact h
  | disconnected _ hd => exact h.disconnected hd
  | sent hw => exact h.wrote (hw.peerManager ▸ .refl _) hw.socketLayer
  | listenReady => exact h.pushAsyncEvent fun _ hs => nomatch hs
  | connectReady => exact h.pushAsyncEvent fun _ hs => nomatch hs
  | @dataReady sock readable hsock =>
      refine h.pushAsyncEvent fun s hs => ?_
      have hsame : s = sock := by
        cases readable with
        | true => exact (Option.some.inj hs).symm
        | false => exact (Option.some.inj hs).symm
      exact hsame ▸ h.socketLayer.objects sock hsock
  | pinged hM hpeers hlayer =>
      refine Numbered.wrote ?_ hpeers hlayer
      exact disconnectSilent_rule (R := fun M => M.Numbered)
        (fun _ _ _ _ _ hM _ hd => hM.disconnected hd) (fun e he => mem_getPeers.mp he)
        (getPeers_pairwise _) h hM
  | timerIdle _ => exact h
  | timerOpened _ _ _ => exact h.opened _ _
  | advertised hp hlayer => exact h.wrote (hp ▸ .refl _) hlayer
  | destroyed _ _ =>
      refine ⟨Numbered.closeFd ?_ _, h.peers⟩
      exact h.socketLayer.of_parts (Nat.le_refl _) (fun _ hc => .inl hc) (fun _ _ hb => .inl hb)
        (fun _ hs => .inl (List.mem_of_mem_filter hs)) (fun _ _ hs => .inl hs) (fun _ he => .inl he)
  | accepted _ _ _ =>
      refine h.of_layer ((h.socketLayer.openFd _ _).createDataSocket _) ?_ fun _ hs => .inl hs
      exact Nat.le_add_right _ 2
  | acceptFailed hq _ => exact h.popAsyncEvent hq
  | layer1 hq hl hne hstep =>
      have hpop := h.popAsyncEvent hq
      have hs := BL_SocketLayer_API.switchAsyncEventHandler_ok _ hl hne hstep
      refine hpop.of_layer (hpop.socketLayer.layerStep hs) ?_ fun _ hs => .inl hs
      exact hs.next_le
  | @layer2 k event rest N' hq hs =>
      have hmem : event ∈ N.socketLayer.eventQueue := by
        rw [hq]
        exact List.mem_cons_self
      exact (h.popAsyncEvent hq).eventStep (h.socketLayer.events event hmem) hs

theorem numbered_init (me : P) (o i : Int) :
    (init me o i : BL_PeerConnectivityLayer_API P O).Numbered :=
  ⟨.init, fun _ hs => absurd hs holds_new⟩

/-- **In every state reached nothing has a number that is still to be given out.** -/
theorem numbered_of_reach {C : BL_PeerConnectivityLayer_API P O → NodeAct P O → Prop} {me : P}
    {o i : Int} (h : (nodeSys ar ads me o i).Under C N) : N.Numbered := by
  refine h.invariant (P := Numbered) ?_ ?_
  · rintro N rfl
    exact numbered_init me o i
  · intro N a N' _ hN _ hs
    exact hN.step (step_cases hs)

end BL_PeerConnectivityLayer_API

end Bleep
