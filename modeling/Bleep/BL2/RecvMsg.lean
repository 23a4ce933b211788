/-
# `Bleep.BL2.RecvMsg` — which messages between peer layers stop a node

`RecvMsgHandler` gets the source id that the message carries, whoever sent it.
For a `PONG` it looks the source up and follows the pointer; for an `ADDR` with
few addresses it draws a peer from the table for each of them.  Neither asks
whether there is one.

`Harmless` says when the handler can do without asking
(`recvMsgHandler_safe_iff`).  Nothing a node has done before makes a message
harmless: a connection that never became a peer is read like any other, and an
empty table is enough for both (`recvMsg_kills`).
-/
import Bleep.BL2.Node

namespace Bleep

open BL_PeerConnectivityLayer_API

variable {P O : Type} [LinearOrder P] {ar : Archive P O} {ads : AddrAd P O}
  {N : BL_PeerConnectivityLayer_API P O}

/-- The source of a `PONG` is in the table, and if addresses are relayed the table is
not empty. -/
def Harmless (ads : AddrAd P O) (N : BL_PeerConnectivityLayer_API P O) (sourcePeerId : P)
    (msg : Message P O) : Prop :=
  (msg.type = "PONG" → (N.peerManager.findPeer sourcePeerId).isSome = true) ∧
    (msg.type = "ADDR" → ∀ vAddr ∈ ads.vAddr msg.ptrToObj, vAddr ≠ [] → vAddr.length ≤ 10 →
      N.peerManager.getPeers ≠ [])

/-! ## Relaying addresses -/

theorem relayAddr_total {m : PeerManager P} (hm : m.getPeers ≠ []) (source addr : P)
    (draws : List Nat) (ad : AdvertisementManager P) :
    ∃ ad', relayAddr m source addr draws ad = .ok ad' := by
  induction draws generalizing ad with
  | nil => exact ⟨ad, rfl⟩
  | cons r draws ih =>
      have hlt : r % m.getPeers.length < m.getPeers.length :=
        Nat.mod_lt _ (List.length_pos_iff.mpr hm)
      simp only [relayAddr, List.getElem?_eq_getElem hlt]
      exact ih _

theorem recvAddrs_total {m : PeerManager P} (hm : m.getPeers ≠ []) (source : P) (size : Nat)
    (vAddr : List P) (draws : List Draw) (ad : AdvertisementManager P) :
    ∃ ad', recvAddrs m source size vAddr draws ad = .ok ad' := by
  induction vAddr generalizing draws ad with
  | nil => exact ⟨ad, rfl⟩
  | cons addr vAddr ih =>
      simp only [recvAddrs]
      split
      · obtain ⟨ad', had⟩ := relayAddr_total hm source addr (draws.headD {}).targets ad
        obtain ⟨ad'', hrest⟩ := ih draws.tail ad'
        exact ⟨ad'', bind_ok.mpr ⟨ad', had, hrest⟩⟩
      · exact ih draws.tail ad

theorem recvAddrs_of_size {m : PeerManager P} (source : P) {size : Nat} (hsize : ¬ size ≤ 10)
    (vAddr : List P) (draws : List Draw) (ad : AdvertisementManager P) :
    recvAddrs m source size vAddr draws ad = .ok ad := by
  induction vAddr generalizing draws with
  | nil => rfl
  | cons addr vAddr ih =>
      simp only [recvAddrs, if_neg hsize]
      exact ih draws.tail

theorem Draw.targets_ne_nil (d : Draw) : d.targets ≠ [] := by
  unfold Draw.targets
  split
  · exact List.cons_ne_nil _ _
  · exact List.cons_ne_nil _ _

/-- The first draw from an empty table goes wrong. -/
theorem recvAddrs_empty {m : PeerManager P} (hm : m.getPeers = []) (source : P) {size : Nat}
    (hsize : size ≤ 10) {vAddr : List P} (hne : vAddr ≠ []) (draws : List Draw)
    (ad : AdvertisementManager P) :
    recvAddrs m source size vAddr draws ad = .error .nullDeref := by
  obtain ⟨addr, vAddr, rfl⟩ := List.exists_cons_of_ne_nil hne
  obtain ⟨r, rs, hr⟩ := List.exists_cons_of_ne_nil (draws.headD {}).targets_ne_nil
  have hfault : relayAddr m source addr (draws.headD {}).targets ad = .error .nullDeref := by
    rw [hr]
    simp only [relayAddr, hm, List.getElem?_nil]
  simp only [recvAddrs, if_pos hsize, hfault]
  rfl

theorem recvAddrs_safe_iff {m : PeerManager P} (source : P) (vAddr : List P) (draws : List Draw)
    (ad : AdvertisementManager P) :
    recvAddrs m source vAddr.length vAddr draws ad ≠ .error .nullDeref ↔
      (vAddr ≠ [] → vAddr.length ≤ 10 → m.getPeers ≠ []) := by
  constructor
  · intro h hne hsize hm
    exact h (recvAddrs_empty hm source hsize hne draws ad)
  · intro h hfault
    by_cases hne : vAddr = []
    · subst hne
      exact nomatch hfault
    · by_cases hsize : vAddr.length ≤ 10
      · obtain ⟨ad', had⟩ := recvAddrs_total (h hne hsize) source vAddr.length vAddr draws ad
        exact nomatch had.symm.trans hfault
      · exact nomatch (recvAddrs_of_size source hsize vAddr draws ad).symm.trans hfault

/-! ## The handler -/

/-- **No missing peer is followed, and nothing drawn from an empty table**, exactly if
the message is harmless. -/
theorem recvMsgHandler_safe_iff (ar : Archive P O) (ads : AddrAd P O)
    (N : BL_PeerConnectivityLayer_API P O) (k : PeerAnswers P) (sourcePeerId : P)
    (msg : Message P O) :
    N.recvMsgHandler ar ads k sourcePeerId msg ≠ .error .nullDeref ↔
      Harmless ads N sourcePeerId msg := by
  -- the types are compared one after the other
  have hother : msg.type ≠ "PONG" → msg.type ≠ "ADDR" → Harmless ads N sourcePeerId msg :=
    fun hpong haddr => ⟨fun h => absurd h hpong, fun h => absurd h haddr⟩
  unfold recvMsgHandler
  split
  · next ht => exact iff_of_true nofun (hother (by rw [ht]; decide) (by rw [ht]; decide))
  split
  · next ht => exact iff_of_true nofun (hother (by rw [ht]; decide) (by rw [ht]; decide))
  split
  · next ht =>
      have hpong : msg.type ≠ "PONG" := by rw [ht]; decide
      cases hv : ads.vAddr msg.ptrToObj with
      | none =>
          refine iff_of_true nofun ⟨fun h => absurd h hpong, fun _ vAddr hmem => ?_⟩
          exact nomatch hv.symm.trans hmem
      | some vAddr =>
          have hiff := recvAddrs_safe_iff (m := N.peerManager) msg.src vAddr k.draws N.adManager
          constructor
          · intro h
            refine ⟨fun hp => absurd hp hpong, fun _ v hmem => ?_⟩
            obtain rfl := Option.some.inj (hv.symm.trans hmem)
            refine hiff.mp fun hfault => h ?_
            show (recvAddrs _ _ _ _ _ _ >>= _) = _
            rw [hfault]
            rfl
          · intro h hfault
            refine hiff.mpr (h.2 ht vAddr hv) ?_
            cases hr : recvAddrs N.peerManager msg.src vAddr.length vAddr k.draws N.adManager with
            | error e =>
                simp only [hr] at hfault
                exact congrArg _ (Except.error.inj hfault)
            | ok ad =>
                simp only [hr] at hfault
                exact nomatch hfault
  · next haddr =>
      split
      · next ht => exact iff_of_true nofun (hother (by rw [ht]; decide) haddr)
      split
      · next ht =>
          split
          · next hnone =>
              refine iff_of_false (fun h => h rfl) fun h => ?_
              exact nomatch (hnone ▸ h.1 ht : (none : Option (Peer P)).isSome = true)
          · next p hp =>
              refine iff_of_true nofun ⟨fun _ => ?_, fun h => absurd h haddr⟩
              rw [hp]
              rfl
      · next hpong => exact iff_of_true nofun (hother hpong haddr)

/-! ## Nodes that are stopped -/

/-- What node 9 sends first on the connection accepted on descriptor 5. -/
def firstMsg (type : MessageType) (vAddr : List Nat) : List (NodeAct Nat (List Nat)) :=
  acceptOn 5 ++ [.dataSocketIOCallback ⟨1, ⟨0, 5, none⟩⟩ true, .handleEvent (readsMsg 9 type vAddr)]

/-- Somebody who is not a peer sends a `PONG`, or an `ADDR` with one address, to a node
without peers: either stops the node. -/
theorem recvMsg_kills :
    (∃ N, nodeRun byteArchive listAddrAd 0 0 0 (fun _ _ => true) (firstMsg "PONG" []) = some N ∧
      (nodeSys byteArchive listAddrAd 0 0 0).Reach N ∧
      N.Aborts byteArchive listAddrAd (.handleEvent {}) .nullDeref) ∧
    ∃ N, nodeRun byteArchive listAddrAd 0 0 0 (fun _ _ => true) (firstMsg "ADDR" [7]) = some N ∧
      (nodeSys byteArchive listAddrAd 0 0 0).Reach N ∧
      N.Aborts byteArchive listAddrAd (.handleEvent {}) .nullDeref := by
  refine ⟨aborts_of_nodeRun ?_, aborts_of_nodeRun ?_⟩
  · decide +kernel
  · decide +kernel

end Bleep
