/-
# `Bleep.BL2.BufferIsolation` — receive buffers of descriptors that are used again

`_recvBuffMap` is kept by descriptor number.  `RecvHandler` clears the buffer when it
sees the connection closed; `DisconnectSocket`, which gives up a connection from this
side, does not, and neither does a failed connect.  The number is used again, and the
bytes of the old connection are then the first of the new one (`buffer_mixed`).

Of a step only two things matter here: whether it opens a descriptor and whether it
reads from one (`buffers_of_step`).  As long as whatever is opened has an empty buffer,
every byte in the buffer of an open descriptor came over its connection, and what
`RecvHandler` reports of a connection is a function of what it read on it
(`isolated_of_opensEmpty`, `Hears.unique`).
-/
import Bleep.BL2.Numbers

namespace Bleep

variable {P O : Type}

/-! ## The socket layer -/

namespace BL_SocketLayer_API

/-- What an open descriptor has in its receive buffer came over its connection. -/
def Isolated (L : BL_SocketLayer_API P O) : Prop :=
  ∀ fd c, L.owner fd = some c → ∀ b ∈ L.recvBytes fd, b.2 = c

/-- No descriptor is opened, and the buffers are kept. -/
structure KeepsBuffers (L L' : BL_SocketLayer_API P O) : Prop where
  owner : ∀ fd c, L'.owner fd = some c → L.owner fd = some c
  recvBytes : ∀ fd, L'.recvBytes fd = L.recvBytes fd
  next : L.next ≤ L'.next

namespace KeepsBuffers

variable {L L' L'' : BL_SocketLayer_API P O}

theorem of_same (howner : L'.owner = L.owner) (hbytes : L'.recvBytes = L.recvBytes)
    (hnext : L'.next = L.next) : KeepsBuffers L L' where
  owner fd c h := by
    rw [howner] at h
    exact h
  recvBytes fd := congrFun hbytes fd
  next := Nat.le_of_eq hnext.symm

theorem refl (L : BL_SocketLayer_API P O) : KeepsBuffers L L := of_same rfl rfl rfl

theorem trans (h : KeepsBuffers L L') (h' : KeepsBuffers L' L'') : KeepsBuffers L L'' where
  owner fd c hc := h.owner fd c (h'.owner fd c hc)
  recvBytes fd := (h'.recvBytes fd).trans (h.recvBytes fd)
  next := Nat.le_trans h.next h'.next

theorem closeFd (fd : Int) : KeepsBuffers L (L.closeFd fd) where
  owner x c h := by
    rw [owner_closeFd] at h
    split at h
    · exact nomatch h
    · exact h
  recvBytes _ := rfl
  next := Nat.le_refl _

theorem abandonConnectSocket (fd : Int) : KeepsBuffers L (L.abandonConnectSocket fd) where
  owner := (closeFd (L := L.removeConnectSocket fd) fd).owner
  recvBytes _ := rfl
  next := Nat.le_refl _

theorem of_heap (h : L' = { L with heap := L'.heap }) : KeepsBuffers L L' := by
  rw [h]
  exact of_same rfl rfl rfl

theorem isolated (h : KeepsBuffers L L') (hL : L.Isolated) : L'.Isolated := by
  intro fd c hc b hb
  rw [h.recvBytes] at hb
  exact hL fd c (h.owner fd c hc) b hb

end KeepsBuffers

/-- A call of `RecvHandler` that sees the connection closed, or one that reads. -/
inductive Read (ar : Archive P O) (L : BL_SocketLayer_API P O) (c : Conn P) (rs : List RecvResult) :
    List (AsyncEvent P O) → BL_SocketLayer_API P O → Prop
  | closed {sock : Option (SocketPtr P)} {L' : BL_SocketLayer_API P O} : seesClosed rs = true →
      (∀ x, L'.recvBytes x = if x = c.fd then [] else L.recvBytes x) →
      Read ar L c rs [.peerSocketClose sock] L'
  | read {sock : Option (SocketPtr P)} {msgs : List (Message P O)} {remain : List (UInt8 × Conn P)}
      {L' : BL_SocketLayer_API P O} : seesClosed rs = false →
      Framing.Drains (parseRound ar Prod.fst) (L.recvBytes c.fd ++ (received rs).map (·, c))
        msgs remain →
      (∀ x, L'.recvBytes x = if x = c.fd then remain else L.recvBytes x) →
      Read ar L c rs (msgs.map (recvEvent sock)) L'

/-- What a step does to the owners of descriptors and to their buffers; it opens a
descriptor, or reads from a connection, or neither. -/
inductive BufferStep (ar : Archive P O) (L L' : BL_SocketLayer_API P O) :
    Option Int → Option (Conn P × List RecvResult) → Prop
  | keeps : KeepsBuffers L L' → BufferStep ar L L' none none
  | opens {fd : Int} {opener : Option P} :
      (∀ x, L'.owner x = if x = fd then some (L.nextConn fd opener) else L.owner x) →
      (∀ x, L'.recvBytes x = L.recvBytes x) → L.next < L'.next →
      BufferStep ar L L' (some fd) none
  | reads {c : Conn P} {rs : List RecvResult} {events : List (AsyncEvent P O)} :
      L.owner c.fd = some c → (∀ x, L'.owner x = L.owner x) → L.next ≤ L'.next →
      L'.eventQueue = L.eventQueue.tail ++ events → Read ar L c rs events L' →
      BufferStep ar L L' none (some (c, rs))

variable {ar : Archive P O} {L L' : BL_SocketLayer_API P O}

theorem Read.isolated {c : Conn P} {rs : List RecvResult} {events : List (AsyncEvent P O)}
    (h : Read ar L c rs events L') (hc : L.owner c.fd = some c)
    (howner : ∀ x, L'.owner x = L.owner x) (hL : L.Isolated) : L'.Isolated := by
  intro fd d hd b hb
  rw [howner] at hd
  cases h with
  | closed _ hbytes =>
      rw [hbytes] at hb
      split at hb
      · exact nomatch hb
      · exact hL fd d hd b hb
  | read _ hdrains hbytes =>
      rw [hbytes] at hb
      split at hb
      · next hfd =>
          subst hfd
          obtain rfl := Option.some.inj (hc.symm.trans hd)
          rcases List.mem_append.mp (hdrains.subset (parseRound_subset ar Prod.fst) hb) with hb | hb
          · exact hL c.fd c hc b hb
          · obtain ⟨_, -, rfl⟩ := List.mem_map.mp hb
            rfl
      · exact hL fd d hd b hb

/-- **A step keeps the buffers apart exactly if what it opens has an empty one.** -/
theorem BufferStep.isolated_iff {fd? : Option Int} {read? : Option (Conn P × List RecvResult)}
    (h : BufferStep ar L L' fd? read?) (hL : L.Isolated) (hn : L.Numbered) :
    L'.Isolated ↔ ∀ fd ∈ fd?, L.recvBytes fd = [] := by
  cases h with
  | keeps hk => exact iff_of_true (hk.isolated hL) fun _ h => nomatch h
  | reads hc howner _ _ hr => exact iff_of_true (hr.isolated hc howner hL) fun _ h => nomatch h
  | @opens fd opener howner hbytes hnext =>
      constructor
      · intro hL' x hx
        obtain rfl := Option.some.inj hx
        -- a byte of the new connection would have a number too large
        refine List.eq_nil_iff_forall_not_mem.mpr fun b hb => ?_
        have hnew := hL' fd (L.nextConn fd opener) ((howner fd).trans (if_pos rfl)) b
          (hbytes fd ▸ hb)
        have hlt := hn.bytes fd b hb
        rw [hnew] at hlt
        exact Nat.lt_irrefl _ hlt
      · intro hempty x d hd b hb
        rw [howner] at hd
        rw [hbytes] at hb
        split at hd
        · next hx =>
            rw [hx, hempty fd rfl] at hb
            exact nomatch hb
        · exact hL x d hd b hb

end BL_SocketLayer_API

/-! ## The node -/

open BL_SocketLayer_API PeerManager

namespace BL_PeerConnectivityLayer_API

variable [LinearOrder P] (N : BL_PeerConnectivityLayer_API P O)

/-- The descriptor an action opens. -/
def opens : NodeAct P O → Option Int
  | .connectPeer id (.inProgress fd) =>
      if (N.peerManager.findPeer id).any Peer.isActive then none else some fd
  | .timerCallback selected (.inProgress fd) => if N.wants selected then some fd else none
  | .handleEvent k =>
      match N.socketLayer.eventQueue with
      | .socketAccept :: _ => k.accepted.head?
      | _ => none
  | _ => none

/-- What an action opens has an empty receive buffer. -/
def opensEmpty (a : NodeAct P O) : Bool :=
  (N.opens a).all fun fd => (N.socketLayer.recvBytes fd).isEmpty

/-- The connection an action reads from, and what the calls of `recv()` return. -/
def readsFrom : NodeAct P O → Option (Conn P × List RecvResult)
  | .handleEvent k =>
      match N.socketLayer.eventQueue with
      | .socketRecv sock :: _ => (N.socketLayer.owner sock.getFD).map (·, k.recv)
      | _ => none
  | _ => none

variable {N} {N' : BL_PeerConnectivityLayer_API P O} {ar : Archive P O} {ads : AddrAd P O}
  {a : NodeAct P O}

theorem keepsBuffers_disconnected {p : Peer P} (hd : Disconnected N p N') :
    KeepsBuffers N.socketLayer N'.socketLayer := by
  rcases releaseSocket_ok hd.socketLayer with ⟨-, hL⟩ | ⟨-, sock, -, hL⟩
  · rw [hL]
    exact .abandonConnectSocket _
  · rw [hL]
    exact .of_same rfl rfl rfl

theorem keepsBuffers_eventStep {k : PeerAnswers P} {event : AsyncEvent P O}
    (hs : EventStep ar k N event N') : KeepsBuffers N.socketLayer N'.socketLayer := by
  cases hs with
  | attached _ => exact .of_heap (attach_socketLayer _ _ _)
  | recvMsg _ hlayer => exact .of_heap hlayer
  | _ => exact .of_same rfl rfl rfl

/-! ### What an action opens and reads -/

theorem opens_of_connectIdle {id : P} {answer : ConnectAnswer}
    (h : (N.peerManager.findPeer id).any Peer.isActive = true ∨ answer = .noAddress) :
    N.opens (.connectPeer id answer : NodeAct P O) = none := by
  cases answer with
  | inProgress fd =>
      rcases h with hact | hne
      · exact if_pos hact
      · exact nomatch hne
  | _ => rfl

theorem opens_of_timerIdle {selected : List (Option P)} {answer : ConnectAnswer}
    (h : N.wants selected = true → answer = .noAddress) :
    N.opens (.timerCallback selected answer : NodeAct P O) = none := by
  cases answer with
  | inProgress fd =>
      have hwants : N.wants selected = false := by
        cases hw : N.wants selected with
        | false => rfl
        | true => exact nomatch h hw
      simp only [opens, hwants, Bool.false_eq_true, if_false]
  | _ => rfl

section Event

variable {k : PeerAnswers P} {event : AsyncEvent P O} {rest : List (AsyncEvent P O)}

theorem opens_of_event (hq : N.socketLayer.eventQueue = event :: rest)
    (hne : event ≠ .socketAccept) : N.opens (.handleEvent k : NodeAct P O) = none := by
  cases event with
  | socketAccept => exact absurd rfl hne
  | _ => simp only [opens, hq]

theorem readsFrom_of_event (hq : N.socketLayer.eventQueue = event :: rest)
    (hno : ∀ sock, event ≠ .socketRecv sock) :
    N.readsFrom (.handleEvent k : NodeAct P O) = none := by
  cases event with
  | socketRecv sock => exact absurd rfl (hno sock)
  | _ => simp only [readsFrom, hq]

theorem readsFrom_of_recv {sock : SocketPtr P} {c : Conn P}
    (hq : N.socketLayer.eventQueue = .socketRecv sock :: rest)
    (hc : N.socketLayer.owner sock.getFD = some c) :
    N.readsFrom (.handleEvent k : NodeAct P O) = some (c, k.recv) := by
  simp only [readsFrom, hq, hc, Option.map_some]

theorem buffers_layerStep {L : BL_SocketLayer_API P O}
    (hq : N.socketLayer.eventQueue = event :: rest) (hne : event ≠ .socketAccept)
    (hs : LayerStep ar k.toAnswers (N.popAsyncEvent rest).socketLayer event L) :
    BufferStep ar N.socketLayer L (N.opens (.handleEvent k : NodeAct P O))
      (N.readsFrom (.handleEvent k : NodeAct P O)) := by
  rw [opens_of_event hq hne]
  cases hs with
  | connectError _ =>
      rw [readsFrom_of_event hq fun _ h => nomatch h]
      exact .keeps ⟨(KeepsBuffers.abandonConnectSocket _).owner, fun _ => rfl, Nat.le_refl _⟩
  | connected _ =>
      rw [readsFrom_of_event hq fun _ h => nomatch h]
      exact .keeps ⟨fun _ _ h => h, fun _ => rfl, Nat.le_succ _⟩
  | connectFailed =>
      rw [readsFrom_of_event hq fun _ h => nomatch h]
      exact .keeps (.of_same rfl rfl rfl)
  | written _ =>
      rw [readsFrom_of_event hq fun _ h => nomatch h]
      exact .keeps (.of_same rfl rfl rfl)
  | @closed sock c L hc hclosed hL hbytes =>
      have hfd : c.fd = sock.getFD := fd_of_owner _ hc
      rw [readsFrom_of_recv hq hc]
      have hread : Read ar N.socketLayer c k.recv
          [.peerSocketClose (N.socketLayer.getDataSocket sock.getFD)] L :=
        .closed hclosed (hfd ▸ hbytes)
      refine .reads (hfd ▸ hc) (fun x => ?_) ?_ ?_ hread
      · rw [hL]
        rfl
      · rw [hL]
        exact Nat.le_refl _
      · rw [hL, hq]
        rfl
  | @read sock c msgs remain L hc hopen hd hL hbytes =>
      have hfd : c.fd = sock.getFD := fd_of_owner _ hc
      rw [readsFrom_of_recv hq hc]
      have hread : Read ar N.socketLayer c k.recv
          (msgs.map (recvEvent (N.socketLayer.getDataSocket sock.getFD))) L :=
        .read hopen (hfd ▸ hd) (hfd ▸ hbytes)
      refine .reads (hfd ▸ hc) (fun x => ?_) ?_ ?_ hread
      · rw [hL]
        rfl
      · rw [hL]
        exact Nat.le_refl _
      · rw [hL, hq]
        rfl

end Event

/-- Whom a step opens and reads from. -/
theorem buffers_of_step (h : NodeStep ar N a N') :
    BufferStep ar N.socketLayer N'.socketLayer (N.opens a) (N.readsFrom a) := by
  cases h with
  | connectIdle hidle =>
      rw [opens_of_connectIdle hidle]
      exact .keeps (.refl _)
  | @connectOpened id fd hact _ =>
      have hopen : N.opens (.connectPeer id (.inProgress fd) : NodeAct P O) = some fd := by
        simp only [opens, hact, Bool.false_eq_true, if_false]
      rw [hopen]
      exact .opens (owner_openFd _ fd · _) (fun _ => rfl) (Nat.lt_succ_self _)
  | disconnectAbsent _ => exact .keeps (.refl _)
  | disconnected _ hd => exact .keeps (keepsBuffers_disconnected hd)
  | sent hw => exact .keeps (.of_heap hw.socketLayer)
  | listenReady => exact .keeps (.of_same rfl rfl rfl)
  | connectReady => exact .keeps (.of_same rfl rfl rfl)
  | dataReady _ => exact .keeps (.of_same rfl rfl rfl)
  | @pinged k M N' hM _ hlayer =>
      refine .keeps (KeepsBuffers.trans ?_ (.of_heap hlayer))
      exact disconnectSilent_rule (R := fun M => KeepsBuffers N.socketLayer M.socketLayer)
        (fun _ _ _ _ _ hM _ hd => hM.trans (keepsBuffers_disconnected hd))
        (fun e he => mem_getPeers.mp he) (getPeers_pairwise _) (.refl _) hM
  | timerIdle hidle =>
      rw [opens_of_timerIdle hidle]
      exact .keeps (.refl _)
  | @timerOpened selected id fd hwants _ _ =>
      have hopen : N.opens (.timerCallback selected (.inProgress fd) : NodeAct P O) = some fd :=
        if_pos hwants
      rw [hopen]
      exact .opens (owner_openFd _ fd · _) (fun _ => rfl) (Nat.lt_succ_self _)
  | advertised _ hlayer => exact .keeps (.of_heap hlayer)
  | destroyed _ _ => exact .keeps ⟨(KeepsBuffers.closeFd _).owner, fun _ => rfl, Nat.le_refl _⟩
  | @accepted k rest fd fds hq hacc _ =>
      have hopen : N.opens (.handleEvent k : NodeAct P O) = some fd := by
        simp only [opens, hq, hacc, List.head?_cons]
      rw [hopen, readsFrom_of_event hq fun _ h => nomatch h]
      exact .opens (owner_openFd _ fd · _) (fun _ => rfl) (Nat.lt_add_of_pos_right Nat.two_pos)
  | @acceptFailed k rest hq hacc =>
      have hopen : N.opens (.handleEvent k : NodeAct P O) = none := by
        simp only [opens, hq, hacc, List.head?_nil]
      rw [hopen, readsFrom_of_event hq fun _ h => nomatch h]
      exact .keeps (.of_same rfl rfl rfl)
  | layer1 hq hl hne hstep =>
      exact buffers_layerStep hq hne
        (BL_SocketLayer_API.switchAsyncEventHandler_ok _ hl hne hstep)
  | @layer2 k event rest N' hq hs =>
      have hpop : KeepsBuffers N.socketLayer (N.popAsyncEvent rest).socketLayer :=
        .of_same rfl rfl rfl
      have hevent : event ≠ .socketAccept ∧ ∀ sock, event ≠ .socketRecv sock := by
        cases hs with
        | _ => exact ⟨(fun h => by cases h), fun _ h => by cases h⟩
      rw [opens_of_event hq hevent.1, readsFrom_of_event hq hevent.2]
      exact .keeps (hpop.trans (keepsBuffers_eventStep hs))

end BL_PeerConnectivityLayer_API

/-! ## What a connection reports -/

/-- What the events of `RecvHandler` say. -/
inductive Report (P O : Type) where
  | message (msgSourceId : P) (msg : Message P O)
  | notify (neighborId : P)
  | close
  deriving DecidableEq

def AsyncEvent.report : AsyncEvent P O → Option (Report P O)
  | .peerRecvMsg msgSourceId msg => some (.message msgSourceId msg)
  | .peerRecvNotifyPeerId neighborId _ => some (.notify neighborId)
  | .peerSocketClose _ => some .close
  | _ => none

/-- What is said of a message. -/
def reportOf (msg : Message P O) : Report P O :=
  if msg.type = "notifyPeerId" then .notify msg.src else .message msg.src msg

theorem report_recvEvent (sock : Option (SocketPtr P)) (msg : Message P O) :
    (recvEvent sock msg).report = some (reportOf msg) := by
  unfold recvEvent reportOf
  split
  · rfl
  · rfl

/-- Calls of `RecvHandler` on a connection whose buffer was empty: what they report, and
what is left in the buffer. -/
inductive Hears (ar : Archive P O) (c : Conn P) :
    List (List RecvResult) → List (Report P O) → List (UInt8 × Conn P) → Prop
  | nil : Hears ar c [] [] []
  | read {calls : List (List RecvResult)} {reports : List (Report P O)}
      {bs remain : List (UInt8 × Conn P)} {rs : List RecvResult} {msgs : List (Message P O)} :
      Hears ar c calls reports bs → seesClosed rs = false →
      Framing.Drains (parseRound ar Prod.fst) (bs ++ (received rs).map (·, c)) msgs remain →
      Hears ar c (calls ++ [rs]) (reports ++ msgs.map reportOf) remain
  | closed {calls : List (List RecvResult)} {reports : List (Report P O)}
      {bs : List (UInt8 × Conn P)} {rs : List RecvResult} :
      Hears ar c calls reports bs → seesClosed rs = true →
      Hears ar c (calls ++ [rs]) (reports ++ [.close]) []

/-- **The reports are a function of the calls.** -/
theorem Hears.unique {ar : Archive P O} {c : Conn P} {calls : List (List RecvResult)}
    {reports reports' : List (Report P O)} {bs bs' : List (UInt8 × Conn P)}
    (h : Hears ar c calls reports bs) (h' : Hears ar c calls reports' bs') :
    reports = reports' ∧ bs = bs' := by
  generalize hcalls : calls = calls' at h'
  induction h generalizing calls' reports' bs' with
  | nil =>
      cases h' with
      | nil => exact ⟨rfl, rfl⟩
      | read _ _ _ => exact nomatch (List.append_eq_nil_iff.mp hcalls.symm).2
      | closed _ _ => exact nomatch (List.append_eq_nil_iff.mp hcalls.symm).2
  | @read calls reports bs remain rs msgs _ hopen hd ih =>
      cases h' with
      | nil => exact nomatch (List.append_eq_nil_iff.mp hcalls).2
      | read h' hopen' hd' =>
          obtain ⟨rfl, hrs⟩ := List.append_inj' hcalls rfl
          obtain rfl := List.singleton_inj.mp hrs
          obtain ⟨rfl, rfl⟩ := ih _ rfl h'
          obtain ⟨rfl, rfl⟩ := hd.unique hd'
          exact ⟨rfl, rfl⟩
      | closed h' hclosed =>
          obtain ⟨rfl, hrs⟩ := List.append_inj' hcalls rfl
          obtain rfl := List.singleton_inj.mp hrs
          exact nomatch hopen.symm.trans hclosed
  | @closed calls reports bs rs _ hclosed ih =>
      cases h' with
      | nil => exact nomatch (List.append_eq_nil_iff.mp hcalls).2
      | read h' hopen' hd' =>
          obtain ⟨rfl, hrs⟩ := List.append_inj' hcalls rfl
          obtain rfl := List.singleton_inj.mp hrs
          exact nomatch hopen'.symm.trans hclosed
      | closed h' _ =>
          obtain ⟨rfl, hrs⟩ := List.append_inj' hcalls rfl
          obtain rfl := List.singleton_inj.mp hrs
          obtain ⟨rfl, -⟩ := ih _ rfl h'
          exact ⟨rfl, rfl⟩

theorem reports_of_read {ar : Archive P O} {L L' : BL_SocketLayer_API P O} {c : Conn P}
    {rs : List RecvResult} {events : List (AsyncEvent P O)} {calls : List (List RecvResult)}
    {reports : List (Report P O)}
    (h : Read ar L c rs events L') (hears : Hears ar c calls reports (L.recvBytes c.fd)) :
    Hears ar c (calls ++ [rs]) (reports ++ events.filterMap AsyncEvent.report)
      (L'.recvBytes c.fd) := by
  cases h with
  | closed hclosed hbytes =>
      rw [hbytes, if_pos rfl]
      exact hears.closed hclosed
  | @read sock msgs remain L' hopen hd hbytes =>
      have hreports :
          (msgs.map (recvEvent sock)).filterMap AsyncEvent.report = msgs.map reportOf := by
        rw [List.filterMap_map, ← List.filterMap_eq_map]
        exact List.filterMap_congr fun msg _ => report_recvEvent sock msg
      rw [hbytes, if_pos rfl, hreports]
      exact hears.read hopen hd

variable [LinearOrder P]

/-- A node, with what was read from each connection and what was reported of it. -/
structure Logged (P O : Type) [LinearOrder P] where
  node : BL_PeerConnectivityLayer_API P O
  heard : Conn P → List (List RecvResult)
  told : Conn P → List (Report P O)

namespace Logged

open BL_PeerConnectivityLayer_API

/-- The log after a step to `N'`. -/
def record (S : Logged P O) (a : NodeAct P O) (N' : BL_PeerConnectivityLayer_API P O) :
    Logged P O :=
  match S.node.readsFrom a with
  | none => { S with node := N' }
  | some (c, rs) =>
      let events := N'.socketLayer.eventQueue.drop S.node.socketLayer.eventQueue.tail.length
      { node := N'
        heard := fun x => if x = c then S.heard x ++ [rs] else S.heard x
        told := fun x =>
          if x = c then S.told x ++ events.filterMap AsyncEvent.report else S.told x }

end Logged

/-- A node whose log is kept. -/
def loggedSys (ar : Archive P O) (ads : AddrAd P O) (myPeerId : P) (outPeerNum inPeerNum : Int) :
    TransSys (Logged P O) (NodeAct P O) where
  init S :=
    S = { node := .init myPeerId outPeerNum inPeerNum, heard := fun _ => [], told := fun _ => [] }
  step S a S' := (nodeSys ar ads myPeerId outPeerNum inPeerNum).step S.node a S'.node ∧
    S' = S.record a S'.node

namespace Logged

open BL_PeerConnectivityLayer_API

variable {ar : Archive P O} {ads : AddrAd P O} {me : P} {o i : Int} {S S' : Logged P O}
  {a : NodeAct P O}

/-- Every run of a node has its log. -/
theorem exists_of_under {C : BL_PeerConnectivityLayer_API P O → NodeAct P O → Prop}
    {N : BL_PeerConnectivityLayer_API P O} (h : (nodeSys ar ads me o i).Under C N) :
    ∃ S, (loggedSys ar ads me o i).Under (fun S a => C S.node a) S ∧ S.node = N := by
  induction h with
  | start hi => exact ⟨⟨_, fun _ => [], fun _ => []⟩, .start (by rw [hi]; rfl), rfl⟩
  | @step N N' a _ hc hs ih =>
      obtain ⟨S, hS, rfl⟩ := ih
      have hnode : (S.record a N').node = N' := by
        unfold record
        split
        · rfl
        · rfl
      refine ⟨S.record a N', .step hS hc ⟨?_, ?_⟩, hnode⟩
      · rw [hnode]
        exact hs
      · rw [hnode]

/-- The log of every connection is that of calls on an empty buffer, and an open one
has what they left. -/
structure Kept (ar : Archive P O) (S : Logged P O) : Prop where
  fresh : ∀ c : Conn P, S.node.socketLayer.next ≤ c.id → S.heard c = [] ∧ S.told c = []
  hears : ∀ c, ∃ bs, Hears ar c (S.heard c) (S.told c) bs ∧
    (S.node.socketLayer.owner c.fd = some c → S.node.socketLayer.recvBytes c.fd = bs)

theorem kept_init : Kept ar (⟨.init me o i, fun _ => [], fun _ => []⟩ : Logged P O) where
  fresh _ _ := ⟨rfl, rfl⟩
  hears _ := ⟨[], .nil, fun h => nomatch h⟩

theorem Kept.step (h : Kept ar S) (hn : S.node.Numbered) (hempty : S.node.opensEmpty a = true)
    (hs : (loggedSys ar ads me o i).step S a S') : Kept ar S' := by
  obtain ⟨hstep, hS'⟩ := hs
  have hb := buffers_of_step (step_cases hstep)
  generalize S'.node = N' at hstep hS' hb
  subst hS'
  unfold opensEmpty at hempty
  unfold record
  generalize S.node.opens a = fd?, S.node.readsFrom a = read? at hb hempty
  cases hb with
  | keeps hk =>
      refine ⟨fun c hc => h.fresh c (Nat.le_trans hk.next hc), fun c => ?_⟩
      obtain ⟨bs, hh, hbs⟩ := h.hears c
      exact ⟨bs, hh, fun hc => (hk.recvBytes c.fd).trans (hbs (hk.owner c.fd c hc))⟩
  | @opens fd opener howner hbytes hnext =>
      refine ⟨fun c hc => h.fresh c (Nat.le_trans (Nat.le_of_lt hnext) hc), fun c => ?_⟩
      obtain ⟨bs, hh, hbs⟩ := h.hears c
      refine ⟨bs, hh, fun hc => ?_⟩
      show N'.socketLayer.recvBytes c.fd = bs
      rw [hbytes]
      rw [howner] at hc
      split at hc
      · -- the new connection has heard nothing
        next hfd =>
          obtain ⟨hheard, htold⟩ := h.fresh c (Nat.le_of_eq (congrArg Conn.id (Option.some.inj hc)))
          rw [hheard, htold] at hh
          obtain ⟨-, rfl⟩ := Hears.nil.unique hh
          rw [hfd]
          exact List.isEmpty_iff.mp hempty
      · exact hbs hc
  | @reads c rs events hc howner hnext hqueue hr =>
      have hlt : c.id < S.node.socketLayer.next := hn.socketLayer.owner hc
      refine ⟨fun x hx => ?_, fun x => ?_⟩
      · have hne : x ≠ c := by
          rintro rfl
          exact absurd (Nat.lt_of_lt_of_le hlt (Nat.le_trans hnext hx)) (Nat.lt_irrefl _)
        simp only [if_neg hne]
        exact h.fresh x (Nat.le_trans hnext hx)
      · obtain ⟨bs, hh, hbs⟩ := h.hears x
        by_cases hx : x = c
        · subst hx
          obtain rfl := hbs hc
          refine ⟨N'.socketLayer.recvBytes x.fd, ?_, fun _ => rfl⟩
          simp only [if_pos]
          rw [hqueue, List.drop_left]
          exact reports_of_read hr hh
        · refine ⟨bs, ?_, fun hx' => ?_⟩
          · simp only [if_neg hx]
            exact hh
          · -- another connection has another descriptor
            rw [howner] at hx'
            have hfd : x.fd ≠ c.fd := by
              intro hfd
              rw [hfd] at hx'
              exact hx (Option.some.inj (hx'.symm.trans hc))
            rw [← hbs hx']
            show N'.socketLayer.recvBytes x.fd = S.node.socketLayer.recvBytes x.fd
            cases hr with
            | closed _ hbytes => rw [hbytes, if_neg hfd]
            | read _ _ hbytes => rw [hbytes, if_neg hfd]

end Logged

open BL_PeerConnectivityLayer_API

/-- **Buffers are isolated** in a run in which whatever is opened has an empty buffer: a
byte in the buffer of an open descriptor came over its connection, and what is reported
of a connection is what the calls of `RecvHandler` on it alone give.  The next step
keeps the buffers apart exactly if what it opens has an empty one. -/
theorem isolated_of_opensEmpty {ar : Archive P O} {ads : AddrAd P O} {me : P} {o i : Int}
    {S : Logged P O}
    (h : (loggedSys ar ads me o i).Under (fun S a => S.node.opensEmpty a = true) S) :
    S.node.socketLayer.Isolated ∧
      (∀ c, ∃ bs, Hears ar c (S.heard c) (S.told c) bs ∧
        (S.node.socketLayer.owner c.fd = some c → S.node.socketLayer.recvBytes c.fd = bs)) ∧
      ∀ a S', (loggedSys ar ads me o i).step S a S' →
        (S'.node.socketLayer.Isolated ↔ S.node.opensEmpty a = true) := by
  have hiff : ∀ {S S' : Logged P O} {a : NodeAct P O}, (loggedSys ar ads me o i).step S a S' →
      S.node.Numbered → S.node.socketLayer.Isolated →
      (S'.node.socketLayer.Isolated ↔ S.node.opensEmpty a = true) := by
    intro S S' a hs hn hiso
    rw [(buffers_of_step (step_cases hs.1)).isolated_iff hiso hn.socketLayer]
    unfold opensEmpty
    cases S.node.opens a with
    | none => exact iff_of_true (fun _ h => nomatch h) rfl
    | some fd =>
        rw [Option.all_some, List.isEmpty_iff]
        exact ⟨fun h => h fd rfl, fun h x hx => Option.some.inj hx ▸ h⟩
  have hinv : S.node.Numbered ∧ S.node.socketLayer.Isolated ∧ Logged.Kept ar S := by
    refine h.invariant (P := fun S => S.node.Numbered ∧ S.node.socketLayer.Isolated ∧
      Logged.Kept ar S) ?_ ?_
    · rintro S rfl
      exact ⟨numbered_init me o i,
        fun _ _ h => (nomatch h), Logged.kept_init⟩
    · intro S a S' _ ⟨hn, hiso, hkept⟩ hc hs
      exact ⟨hn.step (step_cases hs.1), (hiff hs hn hiso).mpr hc, hkept.step hn hc hs⟩
  exact ⟨hinv.2.1, hinv.2.2.hears, fun a S' hs => hiff hs hinv.1 hinv.2.1⟩

/-! ## A descriptor that is used twice -/

/-- The frame of a `PING` of node 9. -/
def pingFrame : List UInt8 :=
  frame byteArchive { src := 9, dest := 0, type := "PING", ptrToObj := some [], messageId := "" }

/-- The first connection is closed by the other side in the middle of a frame. -/
def closedInFrame : List (NodeAct Nat (List Nat)) :=
  acceptOn 5 ++
    [.dataSocketIOCallback firstSock true, .handleEvent (reads (pingFrame.take 10)),
      .dataSocketIOCallback firstSock true, .handleEvent { recv := [.closed] }, .handleEvent {},
      .destroy firstSock] ++
    acceptOn 5

theorem isolated_of_opensEmpty_closedInFrame :
    ∃ N, nodeRun byteArchive listAddrAd 0 0 0 opensEmpty closedInFrame = some N ∧
      N.socketLayer.owner 5 = some secondSock.conn ∧ N.socketLayer.Isolated := by
  have hrun : (nodeRun byteArchive listAddrAd 0 0 0 opensEmpty closedInFrame).any
      (fun N : BL_PeerConnectivityLayer_API Nat (List Nat) =>
        decide (N.socketLayer.owner 5 = some secondSock.conn)) = true := by decide +kernel
  obtain ⟨N, hN, hu, howner⟩ := nodeRun_any hrun
  obtain ⟨S, hS, rfl⟩ := Logged.exists_of_under hu
  exact ⟨_, hN, of_decide_eq_true howner, (isolated_of_opensEmpty hS).1⟩

/-- Node 9 is a peer and has sent the first bytes of a frame when node 0 disconnects it;
somebody else is then accepted on the same descriptor. -/
def disconnectedInFrame : List (NodeAct Nat (List Nat)) :=
  metPeer ++
    [.dataSocketIOCallback firstSock true, .handleEvent (reads (pingFrame.take 10)),
      .disconnectPeer 9, .destroy firstSock] ++
    acceptOn 5

/-- The bytes of node 9 are in the buffer of the new connection, and with what this one
sends make up a message of node 9. -/
theorem buffer_mixed :
    (∃ N, nodeRun byteArchive listAddrAd 0 0 0 (fun _ _ => true) disconnectedInFrame = some N ∧
      (nodeSys byteArchive listAddrAd 0 0 0).Reach N ∧ ¬ N.socketLayer.Isolated) ∧
    ∃ N, nodeRun byteArchive listAddrAd 0 0 0 (fun _ _ => true)
        (disconnectedInFrame ++
          [.dataSocketIOCallback secondSock true, .handleEvent (reads (pingFrame.drop 10))]) =
        some N ∧
      N.socketLayer.eventQueue.filterMap AsyncEvent.report =
        [.message 9
          { src := 9, dest := 0, type := "PING", ptrToObj := some [], messageId := "" }] := by
  constructor
  · have hrun : (nodeRun byteArchive listAddrAd 0 0 0 (fun _ _ => true) disconnectedInFrame).any
        (fun N : BL_PeerConnectivityLayer_API Nat (List Nat) => decide
          (N.socketLayer.owner 5 = some secondSock.conn ∧
            (66, firstSock.conn) ∈ N.socketLayer.recvBytes 5)) = true := by
      decide +kernel
    obtain ⟨N, hN, hu, ht⟩ := nodeRun_any hrun
    obtain ⟨howner, hbyte⟩ := of_decide_eq_true ht
    refine ⟨N, hN, hu.reach, fun hiso => ?_⟩
    have hsame : firstSock.conn = secondSock.conn := hiso 5 _ howner _ hbyte
    exact absurd hsame (by decide)
  · have hrun : (nodeRun byteArchive listAddrAd 0 0 0 (fun _ _ => true)
        (disconnectedInFrame ++
          [.dataSocketIOCallback secondSock true, .handleEvent (reads (pingFrame.drop 10))])).any
        (fun N : BL_PeerConnectivityLayer_API Nat (List Nat) => decide
          (N.socketLayer.eventQueue.filterMap AsyncEvent.report =
            [.message 9
              { src := 9, dest := 0, type := "PING", ptrToObj := some [], messageId := "" }])) =
        true := by
      decide +kernel
    obtain ⟨N, hN, -, ht⟩ := nodeRun_any hrun
    exact ⟨N, hN, of_decide_eq_true ht⟩

end Bleep
