/-
# `Bleep.BL2.ConnectFailure` — what a failed connect does to the peers

The case of `PeerSocketConnectFailed` has no `break`, so the handler of a close runs
behind the one of the failed connect, on a socket that was never set.  It looks at the
socket as soon as it meets a peer with a data socket.

`connectFailed_frame_iff`: a failed connect clears the flag of its own peer and changes
nothing else if and only if no peer of the table is active.
-/
import Bleep.BL2.Node

namespace Bleep

variable {P O : Type} [LinearOrder P]

namespace BL_PeerConnectivityLayer_API

/-- The flag of the peer `d` is cleared, if there is such a peer, and nothing else
changes. -/
structure ClearsOnly (d : P) (N N' : BL_PeerConnectivityLayer_API P O) : Prop where
  socketLayer : N'.socketLayer = N.socketLayer
  adManager : N'.adManager = N.adManager
  myPeerId : N'.peerManager.myPeerId = N.peerManager.myPeerId
  outPeerNum : N'.peerManager.outPeerNum = N.peerManager.outPeerNum
  inPeerNum : N'.peerManager.inPeerNum = N.peerManager.inPeerNum
  cleared : N'.peerManager.findPeer d = (N.peerManager.findPeer d).map Peer.clearTryConnect
  others : ∀ x, x ≠ d → N'.peerManager.findPeer x = N.peerManager.findPeer x

/-- No peer of the table has a data socket. -/
def NobodyActive (N : BL_PeerConnectivityLayer_API P O) : Prop :=
  ∀ x p, N.peerManager.findPeer x = some p → p.isActive = false

variable {N N' : BL_PeerConnectivityLayer_API P O} {d : P}

theorem nobodyActive_iff :
    N.NobodyActive ↔ (N.peerManager.getPeers.any fun e => e.2.isActive) = false := by
  rw [List.any_eq_false]
  constructor
  · intro h e he hact
    have hno := h e.1 e.2 (OrderedMap.mem_toList.mp he)
    exact absurd hact (by rw [hno]; decide)
  · intro h x p hp
    exact Bool.not_eq_true _ ▸ h (x, p) (OrderedMap.mem_toList.mpr hp)

theorem ClearsOnly.nobodyActive_iff (h : ClearsOnly d N N') : N'.NobodyActive ↔ N.NobodyActive := by
  have hact x : (N'.peerManager.findPeer x).any Peer.isActive =
      (N.peerManager.findPeer x).any Peer.isActive := by
    by_cases hx : x = d
    · rw [hx, h.cleared, Option.any_map]
      rfl
    · rw [h.others x hx]
  have hiff (M : BL_PeerConnectivityLayer_API P O) :
      M.NobodyActive ↔ ∀ x, (M.peerManager.findPeer x).any Peer.isActive = false := by
    refine forall_congr' fun x => ?_
    cases M.peerManager.findPeer x with
    | none => exact iff_of_true (fun _ hp => by cases hp) rfl
    | some p => exact ⟨fun hp => hp p rfl, fun hp _ he => Option.some.inj he ▸ hp⟩
  rw [hiff, hiff]
  simp only [hact]

theorem socketConnectFailedHandler_clears
    (hd : (N.peerManager.findPeer d).any Peer.isActive = false) :
    ∃ N', N.socketConnectFailedHandler d = .ok N' ∧ ClearsOnly d N N' := by
  cases hp : N.peerManager.findPeer d with
  | none =>
      refine ⟨N, by simp only [socketConnectFailedHandler, hp], rfl, rfl, rfl, rfl, rfl, ?_,
        fun _ _ => rfl⟩
      rw [hp]
      rfl
  | some p =>
      rw [hp] at hd
      have hact : p.isActive = false := hd
      by_cases htry : p.isTryConnect = true
      · have hid : p.id = d := N.peerManager.id_of_findPeer hp
        refine ⟨N.setPeer p.clearTryConnect, ?_, rfl, rfl, rfl, rfl, rfl, ?_, fun x hx => ?_⟩
        · simp only [socketConnectFailedHandler, hp, hact, htry, Bool.false_eq_true, if_false,
            if_true]
        · refine (PeerManager.findPeer_setPeer _).trans ?_
          rw [if_pos (show d = p.clearTryConnect.id from hid.symm), hp]
          rfl
        · refine (PeerManager.findPeer_setPeer _).trans (if_neg fun he => hx ?_)
          exact he.trans hid
      · refine ⟨N, ?_, rfl, rfl, rfl, rfl, rfl, ?_, fun _ _ => rfl⟩
        · simp only [socketConnectFailedHandler, hp, hact, htry, Bool.false_eq_true, if_false]
        · rw [hp]
          refine congrArg some ?_
          cases p
          exact congrArg (fun b => Peer.mk _ _ _ b _ _ _ _ _) (Bool.not_eq_true _ ▸ htry)

/-- The case falls through to the handler of a close. -/
theorem switch_connectFailed (ar : Archive P O) (ads : AddrAd P O) (k : PeerAnswers P)
    (hd : (N.peerManager.findPeer d).any Peer.isActive = false) :
    ∃ M, N.socketConnectFailedHandler d = .ok M ∧ ClearsOnly d N M ∧ (N.NobodyActive ∧
        N.switchAsyncEventHandler ar ads k (.peerSocketConnectFailed d) = .ok M ∨
      ¬N.NobodyActive ∧
        N.switchAsyncEventHandler ar ads k (.peerSocketConnectFailed d) = .error .nullDeref) := by
  obtain ⟨M, hM, hclears⟩ := socketConnectFailedHandler_clears hd
  have hfall : N.switchAsyncEventHandler ar ads k (.peerSocketConnectFailed d) =
      M.socketCloseHandler none := by
    simp only [switchAsyncEventHandler, hM]
    rfl
  refine ⟨M, hM, hclears, ?_⟩
  rw [hfall, ← hclears.nobodyActive_iff, nobodyActive_iff, socketCloseHandler]
  cases M.peerManager.getPeers.any fun e => e.2.isActive with
  | true => exact .inr ⟨by decide, rfl⟩
  | false => exact .inl ⟨rfl, rfl⟩

/-- **A failed connect touches only its own peer**, as `SocketConnectFailedHandler` alone
leaves it, if and only if no peer is active. -/
theorem connectFailed_frame_iff (ar : Archive P O) (ads : AddrAd P O)
    (N : BL_PeerConnectivityLayer_API P O) (k : PeerAnswers P) (d : P)
    (hd : (N.peerManager.findPeer d).any Peer.isActive = false) :
    (∃ N', N.switchAsyncEventHandler ar ads k (.peerSocketConnectFailed d) = .ok N' ∧
        N.socketConnectFailedHandler d = .ok N' ∧ ClearsOnly d N N') ↔ N.NobodyActive := by
  obtain ⟨M, hM, hclears, ⟨hno, hok⟩ | ⟨hact, herr⟩⟩ := switch_connectFailed ar ads k hd
  · exact iff_of_true ⟨M, hok, hM, hclears⟩ hno
  · refine iff_of_false ?_ hact
    rintro ⟨N', hN', -⟩
    exact nomatch herr.symm.trans hN'

end BL_PeerConnectivityLayer_API

/-! ## Runs -/

section Run

open BL_PeerConnectivityLayer_API

/-- The connect to node 7 fails, up to the event for the layer of peers. -/
def failsTo7 : List (NodeAct Nat (List Nat)) :=
  [.connectPeer 7 (.inProgress 6), .connectSocketIOCallback 6, .handleEvent { err := true },
    .handleEvent {}]

/-- What a run says about the failed connect that is next. -/
def FailsNext (N : BL_PeerConnectivityLayer_API Nat (List Nat)) : Prop :=
  N.socketLayer.eventQueue = [.peerSocketConnectFailed 7] ∧
    (N.peerManager.findPeer 7).any Peer.isActive = false

instance (N : BL_PeerConnectivityLayer_API Nat (List Nat)) : Decidable (FailsNext N) :=
  inferInstanceAs (Decidable (_ ∧ _))

/-- While node 9 is a neighbor the connect to node 7 fails: a null socket is followed, and
the node stops. -/
theorem failed_connect_kills : ∃ N, (nodeSys byteArchive listAddrAd 0 0 0).Reach N ∧
    FailsNext N ∧
    N.switchAsyncEventHandler byteArchive listAddrAd {} (.peerSocketConnectFailed 7) =
      .error .nullDeref ∧
    ¬∃ N', N.switchAsyncEventHandler byteArchive listAddrAd {} (.peerSocketConnectFailed 7) =
        .ok N' ∧ N.socketConnectFailedHandler 7 = .ok N' ∧ ClearsOnly 7 N N' := by
  have hrun : (nodeRun byteArchive listAddrAd 0 0 0 (fun _ _ => true) (metPeer ++ failsTo7)).any
      (fun N : BL_PeerConnectivityLayer_API Nat (List Nat) =>
        decide (FailsNext N) && N.peerManager.getPeers.any fun e => e.2.isActive) = true := by
    decide +kernel
  obtain ⟨N, hN, hu, ht⟩ := nodeRun_any hrun
  obtain ⟨hnext, hact⟩ := Bool.and_eq_true_iff.mp ht
  have hnext := of_decide_eq_true hnext
  obtain ⟨-, -, -, ⟨hno, -⟩ | ⟨-, herr⟩⟩ :=
    switch_connectFailed byteArchive listAddrAd {} hnext.2
  · exact absurd (nobodyActive_iff.mp hno) (by rw [hact]; decide)
  · exact ⟨N, hu.reach, hnext, herr, fun ⟨N', hN', _⟩ => nomatch herr.symm.trans hN'⟩

/-- Alone in the table, node 7 has its flag cleared. -/
theorem connectFailed_frame_iff_alone : ∃ N, (nodeSys byteArchive listAddrAd 0 0 0).Reach N ∧
    FailsNext N ∧
    ((∃ N', N.switchAsyncEventHandler byteArchive listAddrAd {} (.peerSocketConnectFailed 7) =
        .ok N' ∧ N.socketConnectFailedHandler 7 = .ok N' ∧ ClearsOnly 7 N N') ↔
      N.NobodyActive) := by
  have hrun : (nodeRun byteArchive listAddrAd 0 0 0 (fun _ _ => true) failsTo7).any
      (fun N : BL_PeerConnectivityLayer_API Nat (List Nat) => decide (FailsNext N)) = true := by
    decide +kernel
  obtain ⟨N, hN, hu, ht⟩ := nodeRun_any hrun
  have hnext := of_decide_eq_true ht
  exact ⟨N, hu.reach, hnext,
    connectFailed_frame_iff byteArchive listAddrAd N {} 7 hnext.2⟩

end Run

end Bleep
