/-
# `Bleep.BL2.PeerLife` — peers that are neither active nor being connected to

A peer is *alive* if it has a data socket or is being connected to.  `DisconnectPeer`
and the update of the outgoing connections assert this of whatever they find in the
table, and they run from timers and from `Shutdown`, long after the handler that broke
it.

Of all the steps of a node two can break it (`allAlive_step_iff`): a failed connect
clears `tryConnect` and leaves the peer in the table, and a `notifyPeerId` that was
read before its connection was given up adds a peer with a null data socket.  In a run
without them the two assertions hold (`alive_of_kept`); with the first the second tick
of the ping timer stops the node (`half_dead`).
-/
import Bleep.BL2.NodeFaults

namespace Bleep

variable {P O : Type}

/-- The peer is being connected to, or active. -/
def Peer.isAlive (p : Peer P) : Bool := p.isTryConnect || p.isActive

theorem Peer.isAlive_incoming {id : P} {uninit : Int} {sock : Option (SocketPtr P)} :
    (Peer.incoming id uninit sock).isAlive = sock.isSome := rfl

variable [LinearOrder P]

namespace PeerManager

/-- Every peer of the table is alive. -/
def AllAlive (m : PeerManager P) : Prop := ∀ x p, m.findPeer x = some p → p.isAlive = true

variable {m m' : PeerManager P} {p : Peer P} {e : Fault}

/-- A stored peer has to be alive, and the others stay what they are. -/
theorem allAlive_setPeer (h : m.AllAlive) : (m.setPeer p).AllAlive ↔ p.isAlive = true := by
  constructor
  · intro hset
    refine hset p.id p ?_
    rw [findPeer_setPeer, if_pos rfl]
  · intro hp x q hq
    rw [findPeer_setPeer] at hq
    split at hq
    · exact Option.some.inj hq ▸ hp
    · exact h x q hq

theorem allAlive_addPeer (h : m.AllAlive) : (m.addPeer p).AllAlive ↔ p.isAlive = true :=
  allAlive_setPeer h

theorem AllAlive.dropPeer (h : m.AllAlive) : (m.dropPeer p).AllAlive := by
  intro x q hq
  rw [findPeer_dropPeer] at hq
  split at hq
  · cases hq
  · exact h x q hq

theorem AllAlive.drops (h : m.AllAlive) (hd : Drops m m') : m'.AllAlive := by
  induction hd with
  | refl => exact h
  | tail _ hs ih =>
      obtain ⟨p, -, rfl⟩ := hs
      exact ih.dropPeer

theorem SamePeers.allAlive (hs : SamePeers m m') (h : m.AllAlive) : m'.AllAlive := by
  intro x q hq
  obtain ⟨p, hp, hsame⟩ := hs.of_findPeer hq
  rw [hsame]
  exact h x p hp

theorem AllAlive.not_faulty (h : m.AllAlive) (he : e ≠ .assertion "wrong peernum") :
    ¬ m.Faulty e := by
  rintro ⟨m', p, hd, hfound, ⟨heq, -⟩ | ⟨-, htry, hsock⟩⟩
  · exact he heq
  · have halive := h.drops hd p.id p hfound
    unfold Peer.isAlive Peer.isTryConnect Peer.isActive at halive
    rw [htry, hsock] at halive
    exact nomatch halive

end PeerManager

open PeerManager

namespace BL_PeerConnectivityLayer_API

variable {ar : Archive P O} {ads : AddrAd P O} {N N' : BL_PeerConnectivityLayer_API P O}
  {a : NodeAct P O}

/-- No failed connect is reported for a peer that is being connected to, and no
`notifyPeerId` adds a peer with a null data socket. -/
def kept (N : BL_PeerConnectivityLayer_API P O) : NodeAct P O → Bool
  | .handleEvent _ =>
      match N.socketLayer.eventQueue with
      | .peerSocketConnectFailed d :: _ =>
          (N.peerManager.findPeer d).all fun p => p.isActive || !p.isTryConnect
      | .peerRecvNotifyPeerId id none :: _ =>
          MAX_INCOMINGPEER_NUM ≤ N.peerManager.inPeerNum ||
            (N.peerManager.findPeer id).any Peer.isActive
      | _ => true
  | _ => true

theorem allAlive_disconnectSilent {M : BL_PeerConnectivityLayer_API P O}
    (hN : N.peerManager.AllAlive) (h : disconnectSilent N.peerManager.getPeers N = .ok M) :
    M.peerManager.AllAlive := by
  refine disconnectSilent_rule (R := fun M => M.peerManager.AllAlive)
    ?_ (fun e he => mem_getPeers.mp he) (getPeers_pairwise _) hN h
  intro M M' p _ _ hM _ hd
  show M'.peerManager.AllAlive
  rw [hd.peerManager]
  exact hM.dropPeer

/-- **A step keeps all peers alive exactly if it is neither of the two.** -/
theorem allAlive_step_iff (hN : N.peerManager.AllAlive) (h : NodeStep ar N a N') :
    N'.peerManager.AllAlive ↔ N.kept a = true := by
  -- a step that keeps them and is neither
  have hkeep : N'.peerManager.AllAlive → N.kept a = true →
      (N'.peerManager.AllAlive ↔ N.kept a = true) := fun h h' => iff_of_true h h'
  cases h with
  | connectIdle _ => exact hkeep hN rfl
  | connectOpened _ _ => exact hkeep ((allAlive_addPeer hN).mpr rfl) rfl
  | disconnectAbsent _ => exact hkeep hN rfl
  | disconnected _ hd =>
      refine hkeep ?_ rfl
      rw [hd.peerManager]
      exact hN.dropPeer
  | sent hw =>
      refine hkeep ?_ rfl
      rw [hw.peerManager]
      exact hN
  | listenReady => exact hkeep hN rfl
  | connectReady => exact hkeep hN rfl
  | dataReady _ => exact hkeep hN rfl
  | pinged hM hpeers _ => exact hkeep (hpeers.allAlive (allAlive_disconnectSilent hN hM)) rfl
  | timerIdle _ => exact hkeep hN rfl
  | timerOpened _ _ _ => exact hkeep ((allAlive_addPeer hN).mpr rfl) rfl
  | advertised hp _ =>
      refine hkeep ?_ rfl
      rw [hp]
      exact hN
  | destroyed _ _ => exact hkeep hN rfl
  | accepted hq _ _ => exact hkeep hN (by simp only [kept, hq])
  | acceptFailed hq _ => exact hkeep hN (by simp only [kept, hq])
  | @layer1 k event rest L hq hl _ _ =>
      refine hkeep hN ?_
      cases event with
      | peerSocketConnectFailed d => cases hl
      | peerRecvNotifyPeerId id sock => cases hl
      | _ => simp only [kept, hq]
  | @layer2 k event rest N' hq hs =>
      cases hs with
      | attached hfind =>
          refine hkeep ?_ (by simp only [kept, hq])
          rw [attach_peerManager]
          exact (allAlive_setPeer hN).mpr rfl
      | @connectFailed d p hp hsock htry =>
          have hfind : N.peerManager.findPeer d = some p := hp
          refine iff_of_false (fun hall => ?_) ?_
          · have halive := (allAlive_setPeer hN).mp hall
            unfold Peer.isAlive Peer.isActive at halive
            have hsock' : p.clearTryConnect.dataSocket = none := hsock
            rw [hsock'] at halive
            cases halive
          · simp only [kept, hq, hfind, Option.all_some, Peer.isActive, Peer.isTryConnect, hsock,
              htry]
            exact fun h => by cases h
      | @connectFailedIdle d hidle =>
          refine hkeep hN ?_
          simp only [kept, hq]
          cases hp : N.peerManager.findPeer d with
          | none => rfl
          | some p =>
              have htry : p.isTryConnect = false := hidle p hp
              rw [Option.all_some, htry, Bool.not_false, Bool.or_true]
      | closeUnknown => exact hkeep hN (by simp only [kept, hq])
      | closed _ _ _ => exact hkeep hN.dropPeer (by simp only [kept, hq])
      | recvMsg hpeers _ => exact hkeep (hpeers.allAlive hN) (by simp only [kept, hq])
      | recvProtocolMsg => exact hkeep hN (by simp only [kept, hq])
      | @notifyDuplicate id sock hact =>
          have hact' : (N.peerManager.findPeer id).any Peer.isActive = true := hact
          refine hkeep hN ?_
          cases sock with
          | none => simp only [kept, hq, hact', Bool.or_true]
          | some sock => simp only [kept, hq]
      | notifyLimit _ _ => exact hkeep hN (by simp only [kept, hq])
      | @notifyAdded id sock hact hlimit =>
          have hact' : (N.peerManager.findPeer id).any Peer.isActive = false := hact
          have hlimit' : ¬ MAX_INCOMINGPEER_NUM ≤ N.peerManager.inPeerNum := hlimit
          refine (allAlive_addPeer hN).trans ?_
          rw [Peer.isAlive_incoming]
          cases sock with
          | none =>
              simp only [kept, hq, hact', hlimit', decide_false, Bool.or_false]
              exact Iff.rfl
          | some sock =>
              simp only [kept, hq]
              exact iff_of_true rfl trivial
      | protocol => exact hkeep hN (by simp only [kept, hq])

/-- **No half-dead peers**, in a run without the two kinds of step: everybody in the
table is alive, neither assertion stops the node, and the next step keeps it so exactly
if it is of neither kind. -/
theorem alive_of_kept {me : P} {o i : Int}
    (h : (nodeSys ar ads me o i).Under (fun N a => N.kept a = true) N) :
    N.peerManager.AllAlive ∧
      (∀ a, ¬ Aborts ar ads N a (.assertion "valid peer should have valid data socket") ∧
        ¬ Aborts ar ads N a (.assertion "to be implemented")) ∧
      ∀ a N', (nodeSys ar ads me o i).step N a N' →
        (N'.peerManager.AllAlive ↔ N.kept a = true) := by
  have hall : N.peerManager.AllAlive := by
    refine h.invariant (P := fun N => N.peerManager.AllAlive) ?_ ?_
    · rintro N rfl x p hp
      cases (findPeer_new me x o i).symm.trans hp
    · intro N a N' _ hN hc hs
      exact (allAlive_step_iff hN (step_cases hs)).mpr hc
  refine ⟨hall, fun a => ⟨fun ha => ?_, fun ha => ?_⟩, fun a N' hs => ?_⟩
  · exact hall.not_faulty (by decide) (aborts_aboutTable (by decide) ha)
  · exact hall.not_faulty (by decide) (aborts_aboutTable (by decide) ha)
  · exact allAlive_step_iff hall (step_cases hs)

end BL_PeerConnectivityLayer_API

open BL_PeerConnectivityLayer_API

/-! ## A peer that is half dead -/

/-- Node 0 connects to node 7, on descriptor 5, and the connect fails or not. -/
def connects (err : Bool) : List (NodeAct Nat (List Nat)) :=
  [.connectPeer 7 (.inProgress 5), .connectSocketIOCallback 5, .handleEvent { err },
    .handleEvent {}]

theorem alive_of_kept_connects :
    ∃ N, nodeRun byteArchive listAddrAd 0 0 0 kept (connects false) = some N ∧
      N.getNeighborPeerIds = [7] ∧ N.peerManager.AllAlive := by
  have hrun : (nodeRun byteArchive listAddrAd 0 0 0 kept (connects false)).any
      (fun N : BL_PeerConnectivityLayer_API Nat (List Nat) =>
        decide (N.getNeighborPeerIds = [7])) = true := by decide +kernel
  obtain ⟨N, hN, hu, hids⟩ := nodeRun_any hrun
  exact ⟨N, hN, of_decide_eq_true hids, (alive_of_kept hu).1⟩

/-- After a failed connect the node stops at the second tick of the ping timer, or as soon
as the update of the outgoing connections selects the peer. -/
theorem half_dead :
    (∃ N, nodeRun byteArchive listAddrAd 0 0 0 (fun _ _ => true)
        (connects true ++ [.handleEvent {}, .pingtimerCallback {}]) = some N ∧
      (nodeSys byteArchive listAddrAd 0 0 0).Reach N ∧
      Aborts byteArchive listAddrAd N (.pingtimerCallback {})
        (.assertion "valid peer should have valid data socket")) ∧
    ∃ N, nodeRun byteArchive listAddrAd 0 0 0 (fun _ _ => true)
        (connects true ++ [.handleEvent {}]) = some N ∧
      (nodeSys byteArchive listAddrAd 0 0 0).Reach N ∧
      Aborts byteArchive listAddrAd N (.timerCallback [some 7] (.inProgress 6))
        (.assertion "to be implemented") :=
  ⟨aborts_of_nodeRun (by decide +kernel), aborts_of_nodeRun (by decide +kernel)⟩

end Bleep
