/-
# `Bleep.BL2.PingTimer` — whom the ping timer disconnects

At a tick the timer disconnects everybody whose flag says that no `PONG` has come since the
last one, sends a `PING` to everybody left and resets the flags.  `SendMsgToPeer` sends nothing
to a peer that is not active yet, and the timer does not look at what it returns: the flag of
such a peer is reset all the same, and the next tick disconnects it although nobody has asked
it anything.

To say so a run keeps a record of the peers that were asked at the last tick and have not
answered since (`Watched`).  In a run in which each tick finds every peer that it keeps active,
the timer disconnects only these, and the next step keeps it so exactly if it does the same
(`silent_of_asksAll`).
-/
import Bleep.BL2.Node

namespace Bleep

variable {P O : Type} [LinearOrder P]

namespace BL_PeerConnectivityLayer_API

variable (ar : Archive P O) (ads : AddrAd P O) (N : BL_PeerConnectivityLayer_API P O)

/-! ## What a tick does -/

/-- The peers on whom the first loop calls `DisconnectPeer`. -/
def disconnects : List (P × Peer P) → BL_PeerConnectivityLayer_API P O → List P
  | [], _ => []
  | (peerId, peerPtr) :: peers, N =>
      if peerPtr.isPongReceived then disconnects peers N
      else peerId :: match N.disconnectPeer peerId with
        | .error _ => []
        | .ok (_, N) => disconnects peers N

/-- The peers into whose data sockets the second loop puts a `PING`. -/
def pings (k : PeerAnswers P) : List (P × Peer P) → BL_PeerConnectivityLayer_API P O → List P
  | [], _ => []
  | (_, peerPtr) :: peers, N =>
      let id := peerPtr.getPeerId
      let (sent, N) :=
        N.sendMsgToPeer ar id (.make N.peerManager.myPeerId id "PING" (k.messageId id "PING"))
      let rest := pings k peers (N.setPeer (peerPtr.setPongReceived false))
      if sent then id :: rest else rest

/-- Whose `PONG` an action handles. -/
def hearsPong : NodeAct P O → Option P
  | .handleEvent _ =>
      match N.socketLayer.eventQueue with
      | .peerRecvMsg msgSourceId msg :: _ => if msg.type = "PONG" then some msgSourceId else none
      | _ => none
  | _ => none

/-- The peers that were asked at the last tick and have not answered, after an action. -/
def asks (asked : List P) : NodeAct P O → List P
  | .pingtimerCallback k =>
      match disconnectSilent N.peerManager.getPeers N with
      | .error _ => []
      | .ok N => pings ar k N.peerManager.getPeers N
  | a =>
      match N.hearsPong a with
      | none => asked
      | some id => asked.filter (· ≠ id)

/-- A tick finds every peer that it keeps active. -/
def asksAll : NodeAct P O → Bool
  | .pingtimerCallback _ =>
      N.peerManager.getPeers.all fun e => !e.2.isPongReceived || e.2.isActive
  | _ => true

end BL_PeerConnectivityLayer_API

/-! ## Runs -/

/-- A node, with the peers that were asked and have not answered. -/
structure Watched (P O : Type) [LinearOrder P] where
  node : BL_PeerConnectivityLayer_API P O
  asked : List P

namespace Watched

/-- The next tick disconnects nobody but those who were asked and have not answered. -/
def Heeded (S : Watched P O) : Prop :=
  ∀ id p, S.node.peerManager.findPeer id = some p → p.pongReceived = false → id ∈ S.asked

/-- The step as a function. -/
def next (ar : Archive P O) (ads : AddrAd P O) (S : Watched P O) (a : NodeAct P O) :
    Option (Watched P O) :=
  (a.next ar ads S.node).map fun N => ⟨N, S.node.asks ar S.asked a⟩

end Watched

/-- A node whose ping timer is watched. -/
def watchedSys (ar : Archive P O) (ads : AddrAd P O) (myPeerId : P) (outPeerNum inPeerNum : Int) :
    TransSys (Watched P O) (NodeAct P O) where
  init S := S = ⟨.init myPeerId outPeerNum inPeerNum, []⟩
  step S a S' := (nodeSys ar ads myPeerId outPeerNum inPeerNum).step S.node a S'.node ∧
    S'.asked = S.node.asks ar S.asked a

namespace BL_PeerConnectivityLayer_API

variable {ar : Archive P O} {ads : AddrAd P O} {N N' : BL_PeerConnectivityLayer_API P O}
  {a : NodeAct P O} {k : PeerAnswers P}

/-! ## The two loops -/

theorem mem_disconnects {id : P} {l : List (P × Peer P)} (h : id ∈ disconnects l N) :
    ∃ p, (id, p) ∈ l ∧ p.pongReceived = false := by
  induction l generalizing N with
  | nil => cases h
  | cons e l ih =>
      obtain ⟨x, p⟩ := e
      rw [disconnects] at h
      split at h
      case isTrue hpong =>
        obtain ⟨p', hp', hflag⟩ := ih h
        exact ⟨p', List.mem_cons_of_mem _ hp', hflag⟩
      case isFalse hpong =>
        rcases List.mem_cons.mp h with rfl | h
        · exact ⟨p, List.mem_cons_self, Bool.not_eq_true _ ▸ hpong⟩
        · split at h
          · cases h
          · obtain ⟨p', hp', hflag⟩ := ih h
            exact ⟨p', List.mem_cons_of_mem _ hp', hflag⟩

/-- Those who have answered are left by the first loop. -/
theorem findPeer_disconnectSilent {M : BL_PeerConnectivityLayer_API P O}
    (h : disconnectSilent N.peerManager.getPeers N = .ok M) {id : P} {p : Peer P} :
    M.peerManager.findPeer id = some p ↔
      N.peerManager.findPeer id = some p ∧ p.pongReceived = true := by
  -- the silent ones that are still there are in the rest of the list
  have hwalk := disconnectSilent_walk (l := N.peerManager.getPeers)
    (R := fun l N' => (l.Pairwise fun e e' => e.1 ≠ e'.1) ∧ ∀ x q,
      N'.peerManager.findPeer x = some q ↔
        N.peerManager.findPeer x = some q ∧ (q.pongReceived = true ∨ (x, q) ∈ l))
    ?_ ?_ (fun e he => PeerManager.mem_getPeers.mp he) (getPeers_pairwise _)
    ⟨getPeers_pairwise _, fun x q => ?_⟩ h
  · rw [hwalk.2]
    simp only [List.not_mem_nil, or_false]
  · rintro N' p l hpong ⟨hkeys, hN'⟩
    refine ⟨(List.pairwise_cons.mp hkeys).2, fun x q => ?_⟩
    rw [hN', List.mem_cons]
    refine and_congr_right fun _ => ⟨?_, ?_⟩
    · rintro (hq | heq | hq)
      · exact .inl hq
      · exact .inl ((Prod.mk.inj heq).2 ▸ hpong)
      · exact .inr hq
    · exact Or.imp_right .inr
  · rintro N' N'' p l hpong ⟨hkeys, hN'⟩ hp hd
    obtain ⟨hne, hkeys⟩ := List.pairwise_cons.mp hkeys
    refine ⟨hkeys, fun x q => ?_⟩
    rw [hd.peerManager, PeerManager.findPeer_dropPeer]
    split
    case isTrue hx =>
      subst hx
      refine iff_of_false (fun hnone => by cases hnone) ?_
      rintro ⟨hq, hflag | hmem⟩
      · obtain rfl := Option.some.inj (((hN' _ _).mp hp).1.symm.trans hq)
        rw [hpong] at hflag
        cases hflag
      · exact hne _ hmem rfl
    case isFalse hx =>
      rw [hN', List.mem_cons]
      refine and_congr_right fun _ => or_congr_right (or_iff_right fun heq => ?_)
      exact hx (Prod.mk.inj heq).1
  · rw [← PeerManager.mem_getPeers (e := (x, q)), and_iff_left_of_imp]
    exact .inr

/-- The node after one peer of the second loop. -/
def pinged (ar : Archive P O) (N : BL_PeerConnectivityLayer_API P O) (k : PeerAnswers P)
    (peerPtr : Peer P) : BL_PeerConnectivityLayer_API P O :=
  (N.sendMsgToPeer ar peerPtr.id (.make N.peerManager.myPeerId peerPtr.id "PING"
    (k.messageId peerPtr.id "PING"))).2.setPeer (peerPtr.setPongReceived false)

theorem findPeer_pinged (p : Peer P) (x : P) :
    (N.pinged ar k p).peerManager.findPeer x
      = if x = p.id then some (p.setPongReceived false) else N.peerManager.findPeer x := by
  rw [pinged, setPeer, PeerManager.findPeer_setPeer, (sendMsgToPeer_snd _ _ _).peerManager]
  rfl

theorem pings_cons (e : P × Peer P) (l : List (P × Peer P)) :
    pings ar k (e :: l) N =
      if (N.peerManager.findPeer e.2.id).any Peer.isActive = true then
        e.2.id :: pings ar k l (N.pinged ar k e.2)
      else pings ar k l (N.pinged ar k e.2) := by
  rw [← sendMsgToPeer_fst]
  rfl

section Loop

variable {l : List (P × Peer P)} {e : P × Peer P}

theorem findPeer_pinged_of_mem (ar : Archive P O) (k : PeerAnswers P)
    (hl : ∀ e' ∈ e :: l, N.peerManager.findPeer e'.1 = some e'.2)
    (hkeys : (e :: l).Pairwise fun e e' => e.1 ≠ e'.1) :
    ∀ e' ∈ l, (N.pinged ar k e.2).peerManager.findPeer e'.1 = some e'.2 := by
  intro e' he'
  have hid := PeerManager.id_of_findPeer (hl e List.mem_cons_self)
  rw [findPeer_pinged, hid, if_neg (Ne.symm ((List.pairwise_cons.mp hkeys).1 e' he'))]
  exact hl e' (List.mem_cons_of_mem _ he')

theorem mem_pings {id : P} (hl : ∀ e ∈ l, N.peerManager.findPeer e.1 = some e.2)
    (hkeys : l.Pairwise fun e e' => e.1 ≠ e'.1) :
    id ∈ pings ar k l N ↔ ∃ p, (id, p) ∈ l ∧ p.isActive = true := by
  induction l generalizing N with
  | nil =>
      refine iff_of_false List.not_mem_nil ?_
      rintro ⟨p, hp, -⟩
      cases hp
  | cons e l ih =>
      have he := hl e List.mem_cons_self
      have hid := PeerManager.id_of_findPeer he
      have hrest := ih (findPeer_pinged_of_mem ar k hl hkeys)
        (List.pairwise_cons.mp hkeys).2
      have hcons : (∃ p, (id, p) ∈ e :: l ∧ p.isActive = true) ↔
          (id = e.1 ∧ e.2.isActive = true) ∨ ∃ p, (id, p) ∈ l ∧ p.isActive = true := by
        constructor
        · rintro ⟨p, hp, hact⟩
          rcases List.mem_cons.mp hp with rfl | hp
          · exact .inl ⟨rfl, hact⟩
          · exact .inr ⟨p, hp, hact⟩
        · rintro (⟨rfl, hact⟩ | ⟨p, hp, hact⟩)
          · exact ⟨e.2, List.mem_cons_self, hact⟩
          · exact ⟨p, List.mem_cons_of_mem _ hp, hact⟩
      rw [hcons, ← hrest, pings_cons, hid, he, Option.any_some]
      by_cases hact : e.2.isActive = true
      · rw [if_pos hact, List.mem_cons, and_iff_left hact]
      · rw [if_neg hact, or_iff_right fun h => hact h.2]

theorem findPeer_pingAll_of_not_mem {id : P} (hid : ∀ e ∈ l, e.2.id ≠ id) :
    (pingAll ar k l N).peerManager.findPeer id = N.peerManager.findPeer id := by
  induction l generalizing N with
  | nil => rfl
  | cons e l ih =>
      refine (ih (N := N.pinged ar k e.2) fun e' he' =>
        hid e' (List.mem_cons_of_mem _ he')).trans ?_
      rw [findPeer_pinged, if_neg (Ne.symm (hid e List.mem_cons_self))]

theorem findPeer_pingAll {id : P} {p : Peer P}
    (hl : ∀ e ∈ l, N.peerManager.findPeer e.1 = some e.2)
    (hkeys : l.Pairwise fun e e' => e.1 ≠ e'.1) (hmem : (id, p) ∈ l) :
    (pingAll ar k l N).peerManager.findPeer id = some (p.setPongReceived false) := by
  induction l generalizing N with
  | nil => cases hmem
  | cons e l ih =>
      have hrest := findPeer_pinged_of_mem ar k hl hkeys
      obtain ⟨hne, htail⟩ := List.pairwise_cons.mp hkeys
      rcases List.mem_cons.mp hmem with rfl | hmem
      · have hid := PeerManager.id_of_findPeer (hl _ List.mem_cons_self)
        have hother : ∀ e' ∈ l, e'.2.id ≠ id := by
          intro e' he' heq
          rw [PeerManager.id_of_findPeer (hl e' (List.mem_cons_of_mem _ he'))] at heq
          exact hne e' he' heq.symm
        refine (findPeer_pingAll_of_not_mem (N := N.pinged ar k p) hother).trans ?_
        rw [findPeer_pinged, if_pos hid.symm]
      · exact ih hrest htail hmem

end Loop

/-- After a tick exactly the peers that it kept are silent, and exactly the active ones of
them asked. -/
theorem heeded_tick_iff (asked : List P) (h : N.pingtimerCallback ar k = .ok N') :
    (⟨N', N.asks ar asked (.pingtimerCallback k)⟩ : Watched P O).Heeded ↔
      N.asksAll (.pingtimerCallback k) = true := by
  obtain ⟨M, hM, hN'⟩ := bind_ok.mp h
  obtain rfl := Except.ok.inj hN'
  have hl : ∀ e ∈ M.peerManager.getPeers, M.peerManager.findPeer e.1 = some e.2 :=
    fun e he => PeerManager.mem_getPeers.mp he
  have hkeys := getPeers_pairwise M.peerManager
  have hasked : N.asks ar asked (.pingtimerCallback k) = pings ar k M.peerManager.getPeers M := by
    rw [asks, hM]
  rw [hasked, asksAll, List.all_eq_true]
  constructor
  · intro hheed e he
    by_cases hpong : e.2.pongReceived = true
    · have hleft := (findPeer_disconnectSilent hM).mpr ⟨PeerManager.mem_getPeers.mp he, hpong⟩
      have hmem := PeerManager.mem_getPeers.mpr hleft
      obtain ⟨p, hp, hact⟩ :=
        (mem_pings hl hkeys).mp (hheed e.1 _ (findPeer_pingAll hl hkeys hmem) rfl)
      obtain rfl := Option.some.inj ((hl _ hp).symm.trans hleft)
      rw [hact, Bool.or_true]
    · have hflag : e.2.pongReceived = false := Bool.not_eq_true _ ▸ hpong
      rw [Peer.isPongReceived, hflag, Bool.not_false, Bool.true_or]
  · intro hall id p' hp' _
    cases hleft : M.peerManager.findPeer id with
    | none =>
        have hother : ∀ e ∈ M.peerManager.getPeers, e.2.id ≠ id := by
          rintro e he rfl
          have hfind := hl e he
          rw [← PeerManager.id_of_findPeer hfind, hleft] at hfind
          cases hfind
        cases hleft.symm.trans ((findPeer_pingAll_of_not_mem hother).symm.trans hp')
    | some p =>
        obtain ⟨hfind, hpong⟩ := (findPeer_disconnectSilent hM).mp hleft
        have hact := hall (id, p) (PeerManager.mem_getPeers.mpr hfind)
        rw [Peer.isPongReceived, hpong, Bool.not_true, Bool.false_or] at hact
        exact (mem_pings hl hkeys).mpr ⟨p, PeerManager.mem_getPeers.mpr hleft, hact⟩

/-! ## The other steps -/

/-- Nobody is silent who was not before. -/
def NoNewSilence (m m' : PeerManager P) : Prop :=
  ∀ x p', m'.findPeer x = some p' → p'.pongReceived = false →
    ∃ p, m.findPeer x = some p ∧ p.pongReceived = false

theorem NoNewSilence.refl (m : PeerManager P) : NoNewSilence m m :=
  fun _ p hp hflag => ⟨p, hp, hflag⟩

theorem noNewSilence_addPeer (m : PeerManager P) {peer : Peer P} (h : peer.pongReceived = true) :
    NoNewSilence m (m.addPeer peer) := by
  intro x p' hp' hflag
  rw [PeerManager.findPeer_addPeer] at hp'
  split at hp'
  · obtain rfl := Option.some.inj hp'
    rw [h] at hflag
    cases hflag
  · exact ⟨p', hp', hflag⟩

theorem noNewSilence_setPeer {m : PeerManager P} {x : P} {p peer : Peer P}
    (hp : m.findPeer x = some p) (hid : peer.id = p.id)
    (h : peer.pongReceived = p.pongReceived) : NoNewSilence m (m.setPeer peer) := by
  intro y p' hp' hflag
  rw [PeerManager.findPeer_setPeer] at hp'
  split at hp'
  · next hy =>
      obtain rfl := Option.some.inj hp'
      have hyx : y = x := hy.trans (hid.trans (PeerManager.id_of_findPeer hp))
      exact ⟨p, hyx ▸ hp, h ▸ hflag⟩
  · exact ⟨p', hp', hflag⟩

theorem noNewSilence_dropPeer (m : PeerManager P) (peer : Peer P) :
    NoNewSilence m (m.dropPeer peer) := by
  intro x p' hp' hflag
  rw [PeerManager.findPeer_dropPeer] at hp'
  split at hp'
  · cases hp'
  · exact ⟨p', hp', hflag⟩

theorem recvMsgHandler_flags {src : P} {msg : Message P O}
    (h : N.recvMsgHandler ar ads k src msg = .ok N') :
    NoNewSilence N.peerManager N'.peerManager ∧
      (msg.type = "PONG" → ∀ p, N'.peerManager.findPeer src = some p → p.pongReceived = true) := by
  cases recvMsgHandler_cases h with
  | ignored _ hpong => exact ⟨.refl _, fun ht => absurd ht hpong⟩
  | addr haddr _ _ => exact ⟨.refl _, fun ht => absurd (haddr.symm.trans ht) (by decide)⟩
  | ping hping hw =>
      rw [hw.peerManager]
      exact ⟨.refl _, fun ht => absurd (hping.symm.trans ht) (by decide)⟩
  | @pong p _ hp =>
      have hid := PeerManager.id_of_findPeer hp
      refine ⟨?_, fun _ p' hp' => ?_⟩
      · intro x p' hp' hflag
        rw [setPeer, PeerManager.findPeer_setPeer] at hp'
        split at hp'
        · obtain rfl := Option.some.inj hp'
          cases hflag
        · exact ⟨p', hp', hflag⟩
      · have hset : (N.peerManager.setPeer (p.setPongReceived true)).findPeer src
            = some (p.setPongReceived true) :=
          (PeerManager.findPeer_setPeer _).trans (if_pos hid.symm)
        obtain rfl := Option.some.inj (hset.symm.trans hp')
        rfl
  | protocol _ hpong => exact ⟨.refl _, fun ht => absurd ht hpong⟩

/-- A step that is no tick silences nobody, and whose `PONG` is handled is not silent. -/
theorem flags_of_step (h : N.act ar ads a = some (.ok N')) (hping : ∀ k, a ≠ .pingtimerCallback k) :
    NoNewSilence N.peerManager N'.peerManager ∧
      ∀ id p, N.hearsPong a = some id → N'.peerManager.findPeer id = some p →
        p.pongReceived = true := by
  by_cases hmsg : ∃ k src msg rest, a = .handleEvent k ∧
      N.socketLayer.eventQueue = .peerRecvMsg src msg :: rest
  · obtain ⟨k, src, msg, rest, rfl, hq⟩ := hmsg
    obtain ⟨hkeep, hend⟩ := recvMsgHandler_flags (recvMsg_of_act hq h)
    refine ⟨hkeep, fun id p hpong hp => ?_⟩
    simp only [hearsPong, hq] at hpong
    split at hpong
    · next ht =>
        obtain rfl := Option.some.inj hpong
        exact hend ht p hp
    · cases hpong
  · have hnone : N.hearsPong a = none := by
      unfold hearsPong
      split
      · split
        · next hq => exact absurd ⟨_, _, _, _, rfl, hq⟩ hmsg
        · rfl
      · rfl
    refine ⟨?_, fun id p hpong => by rw [hnone] at hpong; cases hpong⟩
    cases step_cases h with
    | connectIdle _ => exact .refl _
    | connectOpened _ _ => exact noNewSilence_addPeer _ rfl
    | disconnectAbsent _ => exact .refl _
    | disconnected _ hd => rw [hd.peerManager]; exact noNewSilence_dropPeer _ _
    | sent hw => rw [hw.peerManager]; exact .refl _
    | listenReady => exact .refl _
    | connectReady => exact .refl _
    | dataReady _ => exact .refl _
    | pinged _ _ _ => exact absurd rfl (hping _)
    | timerIdle _ => exact .refl _
    | timerOpened _ _ _ => exact noNewSilence_addPeer _ rfl
    | advertised hpeers _ => rw [hpeers]; exact .refl _
    | destroyed _ _ => exact .refl _
    | accepted _ _ _ => exact .refl _
    | acceptFailed _ _ => exact .refl _
    | layer1 _ _ _ _ => exact .refl _
    | layer2 hq hev =>
        cases hev with
        | attached hfind =>
            have hp := PeerManager.mem_getPeers.mp (List.mem_of_find?_eq_some hfind)
            rw [attach_peerManager]
            exact noNewSilence_setPeer hp rfl rfl
        | connectFailed hp _ _ => exact noNewSilence_setPeer hp rfl rfl
        | connectFailedIdle _ => exact .refl _
        | closeUnknown => exact .refl _
        | closed _ _ _ => exact noNewSilence_dropPeer _ _
        | recvMsg _ _ => exact absurd ⟨_, _, _, _, rfl, hq⟩ hmsg
        | recvProtocolMsg => exact .refl _
        | notifyDuplicate _ => exact .refl _
        | notifyLimit _ _ => exact .refl _
        | notifyAdded _ _ => exact noNewSilence_addPeer _ rfl
        | protocol => exact .refl _

end BL_PeerConnectivityLayer_API

/-! ## Watched runs -/

namespace Watched

open BL_PeerConnectivityLayer_API

variable {ar : Archive P O} {ads : AddrAd P O} {me : P} {o i : Int} {S S' : Watched P O}
  {a : NodeAct P O}

theorem asks_of_ne (N : BL_PeerConnectivityLayer_API P O) (asked : List P)
    (hping : ∀ k, a ≠ .pingtimerCallback k) :
    N.asks ar asked a =
      match N.hearsPong a with
      | none => asked
      | some id => asked.filter (· ≠ id) := by
  cases a with
  | pingtimerCallback k => exact absurd rfl (hping k)
  | _ => rfl

theorem Heeded.step (h : S.Heeded) (hs : (watchedSys ar ads me o i).step S a S')
    (hping : ∀ k, a ≠ .pingtimerCallback k) : S'.Heeded := by
  obtain ⟨hkeep, hend⟩ := flags_of_step hs.1 hping
  intro id p hp hflag
  obtain ⟨p₀, hp₀, hflag₀⟩ := hkeep id p hp hflag
  have hasked := h id p₀ hp₀ hflag₀
  rw [hs.2, asks_of_ne _ _ hping]
  split
  · exact hasked
  · next src hsrc =>
      refine List.mem_filter.mpr ⟨hasked, decide_eq_true ?_⟩
      rintro rfl
      rw [hend id p hsrc hp] at hflag
      cases hflag

theorem heeded_step_iff (h : S.Heeded) (hs : (watchedSys ar ads me o i).step S a S') :
    S'.Heeded ↔ S.node.asksAll a = true := by
  by_cases hping : ∃ k, a = .pingtimerCallback k
  · obtain ⟨k, rfl⟩ := hping
    obtain ⟨N', asked'⟩ := S'
    obtain ⟨hact, rfl⟩ := hs
    exact heeded_tick_iff S.asked (Option.some.inj (move_of_act (by rintro _ ⟨⟩) hact))
  · have hping : ∀ k, a ≠ .pingtimerCallback k := fun k hk => hping ⟨k, hk⟩
    refine iff_of_true (h.step hs hping) ?_
    cases a with
    | pingtimerCallback k => exact absurd rfl (hping k)
    | _ => rfl

theorem step_of_next (h : S.next ar ads a = some S') : (watchedSys ar ads me o i).step S a S' := by
  obtain ⟨N', hN', rfl⟩ := Option.map_eq_some_iff.mp h
  exact ⟨NodeAct.step_of_next hN', rfl⟩

/-- A schedule, run from the start. -/
def run (ar : Archive P O) (ads : AddrAd P O) (me : P) (o i : Int)
    (C : Watched P O → NodeAct P O → Bool) (acts : List (NodeAct P O)) : Option (Watched P O) :=
  TransSys.exec (next ar ads) C ⟨.init me o i, []⟩ acts

theorem run_any {C : Watched P O → NodeAct P O → Bool} {acts : List (NodeAct P O)}
    {test : Watched P O → Bool} (h : (run ar ads me o i C acts).any test = true) :
    ∃ S, run ar ads me o i C acts = some S ∧
      (watchedSys ar ads me o i).Under (fun S a => C S a = true) S ∧ test S = true :=
  TransSys.exec_any _ _ (fun _ _ _ => step_of_next) rfl h

end Watched

open BL_PeerConnectivityLayer_API

/-- **The ping timer** disconnects only peers into whose data sockets the last tick has put a
`PING` and whose `PONG` has not been handled since, in a run in which each tick finds the
peers that it keeps active.  The next step keeps it so exactly if it does the same. -/
theorem silent_of_asksAll {ar : Archive P O} {ads : AddrAd P O} {me : P} {o i : Int}
    {S : Watched P O}
    (h : (watchedSys ar ads me o i).Under (fun S a => S.node.asksAll a = true) S) :
    (∀ id ∈ disconnects S.node.peerManager.getPeers S.node, id ∈ S.asked) ∧
      ∀ a S', (watchedSys ar ads me o i).step S a S' →
        (S'.Heeded ↔ S.node.asksAll a = true) := by
  have hheed : S.Heeded := by
    refine h.invariant (P := Watched.Heeded) ?_ ?_
    · rintro S rfl id p hp
      cases (PeerManager.findPeer_new me id o i).symm.trans hp
    · intro S a S' _ hS hc hs
      exact (Watched.heeded_step_iff hS hs).mpr hc
  refine ⟨fun id hid => ?_, fun a S' hs => Watched.heeded_step_iff hheed hs⟩
  obtain ⟨p, hp, hflag⟩ := mem_disconnects hid
  exact hheed id p (PeerManager.mem_getPeers.mp hp) hflag

/-- Node 9 is asked at a tick and has not answered at the next one. -/
theorem silent_of_asksAll_metPeer :
    ∃ S, Watched.run byteArchive listAddrAd 0 0 0 (fun S a => S.node.asksAll a)
        (metPeer ++ [.pingtimerCallback {}]) = some S ∧
      disconnects S.node.peerManager.getPeers S.node = [9] ∧ 9 ∈ S.asked := by
  have hrun : (Watched.run byteArchive listAddrAd 0 0 0 (fun S a => S.node.asksAll a)
      (metPeer ++ [.pingtimerCallback {}])).any (fun S : Watched Nat (List Nat) =>
        decide (disconnects S.node.peerManager.getPeers S.node = [9])) = true := by
    decide +kernel
  obtain ⟨S, hS, hu, hids⟩ := Watched.run_any hrun
  have hids := of_decide_eq_true hids
  exact ⟨S, hS, hids, (silent_of_asksAll hu).1 9 (hids ▸ List.mem_singleton_self 9)⟩

/-- Node 0 is connecting to node 7 when the timer ticks, and the connection is then
established. -/
def tickWhileConnecting : List (NodeAct Nat (List Nat)) :=
  [.connectPeer 7 (.inProgress 5), .pingtimerCallback {}, .connectSocketIOCallback 5,
    .handleEvent {}, .handleEvent {}]

/-- The next tick disconnects node 7, whom nobody has asked. -/
theorem unasked_disconnected :
    ¬ ∀ S : Watched Nat (List Nat), (watchedSys byteArchive listAddrAd 0 0 0).Reach S →
      ∀ id ∈ disconnects S.node.peerManager.getPeers S.node, id ∈ S.asked := by
  intro h
  have hrun : (Watched.run byteArchive listAddrAd 0 0 0 (fun _ _ => true) tickWhileConnecting).any
      (fun S : Watched Nat (List Nat) =>
        decide (disconnects S.node.peerManager.getPeers S.node = [7] ∧ S.asked = [])) = true := by
    decide +kernel
  obtain ⟨S, -, hu, ht⟩ := Watched.run_any hrun
  obtain ⟨hids, hnone⟩ := of_decide_eq_true ht
  have hmem := h S hu.reach 7 (hids ▸ List.mem_singleton_self 7)
  rw [hnone] at hmem
  cases hmem

end Bleep
