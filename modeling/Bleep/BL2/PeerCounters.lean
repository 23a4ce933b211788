/-
# `Bleep.BL2.PeerCounters` — the counters of the table of peers

`_inPeerNum` and `_outPeerNum` are counted up by `AddPeer` and down by `RemovePeer`.
The difference between a counter and the number of entries it stands for is its
*leak*.  It starts as whatever the memory of the counter held, a removal keeps it,
and so does an addition under an id that has no entry; an addition that replaces
an entry makes it larger by one for good (`leak_addPeer`).

So the counters are right exactly if they started as zero and nothing was
replaced (`counters_of_unseen`).  `ConnectPeer` and `PeerNotifyHandler` look for an
*active* peer only, and replace one that is still being connected to
(`counters_leak`).
-/
import Bleep.BL2.NodeFaults

namespace Bleep

variable {P O : Type} [LinearOrder P]

namespace PeerManager

/-- The counter of the peers of one type; there is none for the type `none`. -/
def num (m : PeerManager P) : PeerType → Int
  | .incomingPeer => m.inPeerNum
  | .outgoingPeer => m.outPeerNum
  | .none => m.peerNum .none

/-- How many peers are counted and not there. -/
def leak (m : PeerManager P) (ty : PeerType) : Int := m.num ty - m.peerNum ty

/-- Both counters are the numbers of entries they stand for. -/
def Exact (m : PeerManager P) : Prop :=
  m.inPeerNum = m.peerNum .incomingPeer ∧ m.outPeerNum = m.peerNum .outgoingPeer

instance (m : PeerManager P) : Decidable m.Exact := inferInstanceAs (Decidable (_ ∧ _))

variable {m m' : PeerManager P} {p : Peer P} {ty : PeerType}

theorem exact_iff_leak : m.Exact ↔ ∀ ty, m.leak ty = 0 := by
  constructor
  · rintro ⟨hin, hout⟩ ty
    refine Int.sub_eq_zero.mpr ?_
    cases ty with
    | none => rfl
    | incomingPeer => exact hin
    | outgoingPeer => exact hout
  · intro h
    exact ⟨Int.sub_eq_zero.mp (h .incomingPeer), Int.sub_eq_zero.mp (h .outgoingPeer)⟩

/-- What `AddPeer` replaces is counted on. -/
theorem leak_addPeer (hty : ty ≠ .none) : (m.addPeer p).leak ty =
    m.leak ty + ((m.findPeer p.id).map (counts ty)).getD 0 := by
  have hnum : (m.addPeer p).num ty = m.num ty + counts ty p := by
    cases ty with
    | none => exact absurd rfl hty
    | incomingPeer => rfl
    | outgoingPeer => rfl
  unfold leak
  rw [hnum, peerNum_addPeer]
  omega

theorem leak_dropPeer (h : m.findPeer p.id = some p) : (m.dropPeer p).leak ty = m.leak ty := by
  have hpeer : (m.dropPeer p).peerNum ty = m.peerNum ty - counts ty p := peerNum_dropPeer h
  have hnum : (m.dropPeer p).num ty = m.num ty - counts ty p := by
    cases ty with
    | none => exact hpeer
    | incomingPeer => rfl
    | outgoingPeer => rfl
  unfold leak
  rw [hnum, hpeer]
  omega

theorem leak_setPeer {x : P} {old : Peer P} (h : m.findPeer x = some old) (hid : p.id = old.id)
    (hty : p.peerType = old.peerType) : (m.setPeer p).leak ty = m.leak ty := by
  have hfind : m.findPeer p.id = some old := by rw [hid, id_of_findPeer h, h]
  have hpeer : (m.setPeer p).peerNum ty = m.peerNum ty := peerNum_setPeer hfind hty
  have hnum : (m.setPeer p).num ty = m.num ty := by
    cases ty with
    | none => exact hpeer
    | incomingPeer => rfl
    | outgoingPeer => rfl
  unfold leak
  rw [hnum, hpeer]

theorem SamePeers.leak (h : SamePeers m m') : m'.leak ty = m.leak ty := by
  have hnum : m'.num ty = m.num ty := by
    cases ty with
    | none => exact h.peerNum _
    | incomingPeer => exact h.inPeerNum
    | outgoingPeer => exact h.outPeerNum
  unfold PeerManager.leak
  rw [hnum, h.peerNum]

theorem leak_drops (h : Drops m m') : m'.leak ty = m.leak ty := by
  induction h with
  | refl => rfl
  | tail _ hs ih =>
      obtain ⟨p, hp, rfl⟩ := hs
      exact (leak_dropPeer hp).trans ih

theorem Exact.not_faulty (h : m.Exact) : ¬ m.Faulty (.assertion "wrong peernum") := by
  rintro ⟨m', p, hd, hp, ⟨-, hnum⟩ | ⟨hne, -⟩⟩
  · have hleak : ∀ ty, (m'.dropPeer p).leak ty = 0 := fun ty =>
      (leak_dropPeer hp).trans ((leak_drops hd).trans (exact_iff_leak.mp h ty))
    obtain ⟨hin, hout⟩ := exact_iff_leak.mpr hleak
    cases hty : p.peerType with
    | none =>
        rw [hty] at hnum
        exact nomatch hnum
    | incomingPeer =>
        rw [hty] at hnum
        refine of_decide_eq_false hnum ?_
        rw [hin]
        exact Int.natCast_nonneg _
    | outgoingPeer =>
        rw [hty] at hnum
        refine of_decide_eq_false hnum ?_
        rw [hout]
        exact Int.natCast_nonneg _
  · exact hne rfl

end PeerManager

open PeerManager

namespace BL_PeerConnectivityLayer_API

variable {ar : Archive P O} {ads : AddrAd P O} {N N' : BL_PeerConnectivityLayer_API P O}
  {a : NodeAct P O} {ty : PeerType}

/-- There is no entry under the id, or an active one that stays. -/
def spare (N : BL_PeerConnectivityLayer_API P O) (id : P) : Bool :=
  (N.peerManager.findPeer id).all Peer.isActive

/-- No entry is replaced: `ConnectPeer` opens no connection for, and a `notifyPeerId`
does not add, a peer that is in the table. -/
def unseen (N : BL_PeerConnectivityLayer_API P O) : NodeAct P O → Bool
  | .connectPeer id (.inProgress _) => N.spare id
  | .handleEvent _ =>
      match N.socketLayer.eventQueue with
      | .peerRecvNotifyPeerId id _ :: _ =>
          MAX_INCOMINGPEER_NUM ≤ N.peerManager.inPeerNum || N.spare id
      | _ => true
  | _ => true

/-! ## One step -/

theorem leak_disconnected {p : Peer P} (hp : N.peerManager.findPeer p.id = some p)
    (h : Disconnected N p N') : N'.peerManager.leak ty = N.peerManager.leak ty := by
  rw [h.peerManager]
  exact leak_dropPeer hp

theorem leak_disconnectSilent {M : BL_PeerConnectivityLayer_API P O}
    (h : disconnectSilent N.peerManager.getPeers N = .ok M) :
    M.peerManager.leak ty = N.peerManager.leak ty := by
  refine disconnectSilent_rule (R := fun M => M.peerManager.leak ty = N.peerManager.leak ty)
    ?_ (fun e he => mem_getPeers.mp he) (getPeers_pairwise _) rfl h
  intro M M' p _ _ hM hp hd
  exact (leak_disconnected hp hd).trans hM

theorem spare_of_inactive {id : P} (h : (N.peerManager.findPeer id).any Peer.isActive = false) :
    N.spare id = true ↔ N.peerManager.findPeer id = none := by
  unfold spare
  cases hp : N.peerManager.findPeer id with
  | none => exact iff_of_true rfl rfl
  | some p =>
      rw [hp] at h
      have hact : p.isActive = false := h
      rw [Option.all_some, hact]
      exact iff_of_false nofun nofun

/-- `AddPeer` for a peer that is not active keeps the leaks exactly if it replaces
nothing. -/
theorem leak_added_iff {p : Peer P}
    (hact : (N.peerManager.findPeer p.id).any Peer.isActive = false) :
    (∀ ty, (N.peerManager.addPeer p).leak ty = N.peerManager.leak ty) ↔ N.spare p.id = true := by
  rw [spare_of_inactive hact]
  constructor
  · intro h
    cases hq : N.peerManager.findPeer p.id with
    | none => rfl
    | some q =>
        -- the type of the replaced peer leaks
        have hleak := leak_addPeer (m := N.peerManager) (p := p) q.typed
        rw [h q.peerType, hq, Option.map_some, Option.getD_some] at hleak
        have hone : counts q.peerType q = 1 := if_pos rfl
        omega
  · intro hnone ty
    by_cases hty : ty = .none
    · subst hty
      exact (Int.sub_self _).trans (Int.sub_self _).symm
    · rw [leak_addPeer hty, hnone]
      exact Int.add_zero _

/-- **A step keeps the leaks exactly if it replaces no entry.** -/
theorem leak_step_iff (h : NodeStep ar N a N') :
    (∀ ty, N'.peerManager.leak ty = N.peerManager.leak ty) ↔ N.unseen a = true := by
  -- a step that keeps them and is not about adding
  have hkeep : (∀ ty, N'.peerManager.leak ty = N.peerManager.leak ty) → N.unseen a = true →
      ((∀ ty, N'.peerManager.leak ty = N.peerManager.leak ty) ↔ N.unseen a = true) :=
    fun h h' => iff_of_true h h'
  have hself : ∀ {x : P} {p : Peer P}, N.peerManager.findPeer x = some p →
      N.peerManager.findPeer p.id = some p := fun hp => (id_of_findPeer hp).symm ▸ hp
  cases h with
  | @connectIdle id answer hidle =>
      refine hkeep (fun _ => rfl) ?_
      cases answer with
      | inProgress fd =>
          rcases hidle with hact | hne
          · show N.spare id = true
            unfold spare
            obtain ⟨p, hp, hp'⟩ := (Option.any_eq_true _ _).mp hact
            rw [hp]
            exact hp'
          · exact nomatch hne
      | _ => rfl
  | connectOpened hact _ => exact leak_added_iff (p := (Peer.outgoing _ _).setTryConnect) hact
  | disconnectAbsent _ => exact hkeep (fun _ => rfl) rfl
  | disconnected hp hd =>
      exact hkeep (fun _ => leak_disconnected (hself hp) hd) rfl
  | sent hw => exact hkeep (fun _ => by rw [hw.peerManager]) rfl
  | listenReady => exact hkeep (fun _ => rfl) rfl
  | connectReady => exact hkeep (fun _ => rfl) rfl
  | dataReady _ => exact hkeep (fun _ => rfl) rfl
  | pinged hM hpeers _ =>
      exact hkeep (fun _ => hpeers.leak.trans (leak_disconnectSilent hM)) rfl
  | timerIdle _ => exact hkeep (fun _ => rfl) rfl
  | @timerOpened _ id fd _ hnone _ =>
      refine hkeep ?_ rfl
      refine (leak_added_iff (p := (Peer.outgoing _ _).setTryConnect) ?_).mpr ?_
      · show (N.peerManager.findPeer id).any Peer.isActive = false
        rw [hnone]
        rfl
      · show N.spare id = true
        unfold spare
        rw [hnone]
        rfl
  | advertised hp _ => exact hkeep (fun _ => by rw [hp]) rfl
  | destroyed _ _ => exact hkeep (fun _ => rfl) rfl
  | accepted hq _ _ => exact hkeep (fun _ => rfl) (by simp only [unseen, hq])
  | acceptFailed hq _ => exact hkeep (fun _ => rfl) (by simp only [unseen, hq])
  | @layer1 k event rest L hq hl _ _ =>
      refine hkeep (fun _ => rfl) ?_
      cases event with
      | peerRecvNotifyPeerId id sock => exact nomatch hl
      | _ => simp only [unseen, hq]
  | @layer2 k event rest N' hq hs =>
      cases hs with
      | attached hfind =>
          have hp := mem_getPeers.mp (List.mem_of_find?_eq_some hfind)
          refine hkeep (fun ty => ?_) (by simp only [unseen, hq])
          rw [attach_peerManager]
          exact leak_setPeer hp rfl rfl
      | connectFailed hp _ _ =>
          refine hkeep (fun ty => ?_) (by simp only [unseen, hq])
          exact leak_setPeer hp rfl rfl
      | connectFailedIdle _ => exact hkeep (fun _ => rfl) (by simp only [unseen, hq])
      | closeUnknown => exact hkeep (fun _ => rfl) (by simp only [unseen, hq])
      | closed hp _ _ =>
          refine hkeep (fun ty => ?_) (by simp only [unseen, hq])
          exact leak_dropPeer (hself hp)
      | recvMsg hpeers _ => exact hkeep (fun _ => hpeers.leak) (by simp only [unseen, hq])
      | recvProtocolMsg => exact hkeep (fun _ => rfl) (by simp only [unseen, hq])
      | @notifyDuplicate id sock hact =>
          refine hkeep (fun _ => rfl) ?_
          obtain ⟨p, hp, hp'⟩ := (Option.any_eq_true _ _).mp hact
          have hfind : N.peerManager.findPeer id = some p := hp
          simp only [unseen, hq, spare, hfind, Option.all_some, hp', Bool.or_true]
      | notifyLimit _ hlimit =>
          refine hkeep (fun _ => rfl) ?_
          have hlimit' : MAX_INCOMINGPEER_NUM ≤ N.peerManager.inPeerNum := hlimit
          simp only [unseen, hq, hlimit', decide_true, Bool.true_or]
      | notifyAdded hact hlimit =>
          have hlimit' : ¬ MAX_INCOMINGPEER_NUM ≤ N.peerManager.inPeerNum := hlimit
          simp only [unseen, hq, hlimit', decide_false, Bool.false_or]
          exact leak_added_iff (N := N) (p := .incoming _ _ _) hact
      | protocol => exact hkeep (fun _ => rfl) (by simp only [unseen, hq])

/-! ## Runs -/

theorem leak_of_unseen {me : P} {o i : Int}
    (h : (nodeSys ar ads me o i).Under (fun N a => N.unseen a = true) N) :
    ∀ ty, N.peerManager.leak ty = (PeerManager.new me o i).leak ty := by
  refine h.invariant (P := fun N => ∀ ty, N.peerManager.leak ty = (PeerManager.new me o i).leak ty)
    ?_ ?_
  · rintro N rfl ty
    rfl
  · intro N a N' _ hN hc hs ty
    exact ((leak_step_iff (step_cases hs)).mpr hc ty).trans (hN ty)

theorem exact_new (me : P) {o i : Int} : (PeerManager.new me o i).Exact ↔ o = 0 ∧ i = 0 := by
  have hempty : ∀ ty, (PeerManager.new me o i).peerNum ty = 0 := fun _ => rfl
  unfold Exact
  rw [hempty, hempty]
  exact And.comm

/-- **The counters are exact**, in a run that replaces no entry, exactly if they were
zero from the start; then no removal stops the node, and the next step keeps them exact
exactly if it replaces no entry. -/
theorem counters_of_unseen {me : P} {o i : Int}
    (h : (nodeSys ar ads me o i).Under (fun N a => N.unseen a = true) N) :
    (N.peerManager.Exact ↔ o = 0 ∧ i = 0) ∧
      (N.peerManager.Exact → (∀ a, ¬ Aborts ar ads N a (.assertion "wrong peernum")) ∧
        ∀ a N', (nodeSys ar ads me o i).step N a N' →
          (N'.peerManager.Exact ↔ N.unseen a = true)) := by
  refine ⟨?_, fun hexact => ⟨fun a ha => ?_, fun a N' hs => ?_⟩⟩
  · rw [← exact_new me, exact_iff_leak, exact_iff_leak]
    exact forall_congr' fun ty => by rw [leak_of_unseen h]
  · exact hexact.not_faulty (aborts_aboutTable (by decide) ha)
  · have hzero := exact_iff_leak.mp hexact
    rw [← leak_step_iff (step_cases hs), exact_iff_leak]
    exact forall_congr' fun ty => by rw [hzero ty]

end BL_PeerConnectivityLayer_API

open BL_PeerConnectivityLayer_API

/-! ## Counters that are wrong -/

/-- Node 0 connects to node 7 and somebody, who turns out to be node 9, connects to it. -/
def metTwo : List (NodeAct Nat (List Nat)) :=
  .connectPeer 7 (.inProgress 6) :: acceptOn 5 ++
    [.dataSocketIOCallback ⟨2, ⟨1, 5, none⟩⟩ true, .handleEvent (readsMsg 9 "notifyPeerId" []),
      .handleEvent {}]

theorem counters_of_unseen_metTwo :
    ∃ N, nodeRun byteArchive listAddrAd 0 0 0 unseen metTwo = some N ∧ N.peerManager.Exact ∧
      ∀ a, ¬ Aborts byteArchive listAddrAd N a (.assertion "wrong peernum") := by
  have hrun :
      (nodeRun byteArchive listAddrAd 0 0 0 unseen metTwo).isSome = true := by decide +kernel
  obtain ⟨N, hN⟩ := Option.isSome_iff_exists.mp hrun
  obtain ⟨hexact, hsafe⟩ := counters_of_unseen (nodeRun_under hN)
  have h0 := hexact.mpr ⟨rfl, rfl⟩
  exact ⟨N, hN, h0, (hsafe h0).1⟩

/-- A second `ConnectPeer` for a node that has not answered yet counts it twice; and
where the memory of a counter held -1, the first peer that is removed stops the
node. -/
theorem counters_leak :
    (∃ N, nodeRun byteArchive listAddrAd 0 0 0 (fun _ _ => true)
        [.connectPeer 7 (.inProgress 5), .connectPeer 7 (.inProgress 6)] = some N ∧
      (nodeSys byteArchive listAddrAd 0 0 0).Reach N ∧ N.peerManager.outPeerNum = 2 ∧
      N.peerManager.peerNum .outgoingPeer = 1) ∧
    ∃ N, nodeRun byteArchive listAddrAd 0 (-1) 0 (fun _ _ => true)
        [.connectPeer 7 (.inProgress 5)] = some N ∧
      (nodeSys byteArchive listAddrAd 0 (-1) 0).Reach N ∧
      Aborts byteArchive listAddrAd N (.disconnectPeer 7) (.assertion "wrong peernum") := by
  constructor
  · have hrun : (nodeRun byteArchive listAddrAd 0 0 0 (fun _ _ => true)
        [.connectPeer 7 (.inProgress 5), .connectPeer 7 (.inProgress 6)]).any
        (fun N : BL_PeerConnectivityLayer_API Nat (List Nat) => decide
          (N.peerManager.outPeerNum = 2 ∧ N.peerManager.peerNum .outgoingPeer = 1)) = true := by
      decide +kernel
    obtain ⟨N, hN, hu, hnum⟩ := nodeRun_any hrun
    exact ⟨N, hN, hu.reach, of_decide_eq_true hnum⟩
  · exact aborts_of_nodeRun (by decide +kernel)

end Bleep
