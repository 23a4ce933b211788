/-
# `Bleep.BL2.AddrRelay` — what becomes of an address that is to be relayed

`PushAddr` queues an address for a peer and at the same time records that the peer knows it; it
never queues it again.  The timer sends what is queued with `SendMsgToPeer`, does not look at
what that returns, and clears the queues.  An address that is queued for a peer who is not
active at the tick is never sent, and never will be.

A run keeps a record of what `PushAddr` has queued and of what was put, in an `ADDR`, into a data
socket of which peer (`Relayed`).  Each address is queued once.  It is pending or has been put in
a run in which each tick finds the peers active for whom a relayed address is pending, and the
next step keeps it so exactly if it does the same (`addr_relay`).
-/
import Bleep.BL2.Node

namespace Bleep

variable {P O : Type} [LinearOrder P]

/-! ## Queues and known addresses -/

namespace AdvertisementManager

variable (ad : AdvertisementManager P)

/-- `_addrToSend[dest]`. -/
def pending (dest : P) : List P := ad.addrToSend.getD dest []

/-- `_addrKnown[dest]`. -/
def known (dest : P) : List P := ad.addrKnown.getD dest []

/-- `_addrKnown[dest].count(addr)`. -/
def knows (dest addr : P) : Bool := (ad.known dest).contains addr

/-- What `PushAddr` queues: for whom, and which address. -/
def pushQueued (dest addr : P) : List (P × P) := if ad.knows dest addr then [] else [(dest, addr)]

variable {ad} {ad' ad'' : AdvertisementManager P}

theorem knows_iff {dest addr : P} : ad.knows dest addr = true ↔ addr ∈ ad.known dest :=
  List.contains_iff_mem

theorem getD_insert {t : Std.TreeMap P (List P)} {k x : P} {v : List P} :
    (t.insert k v).getD x [] = if x = k then v else t.getD x [] := by
  rw [Std.TreeMap.getD_insert]
  simp only [compare_eq_iff_eq, eq_comm (a := x)]

theorem mem_pending {dest addr : P} :
    addr ∈ ad.pending dest ↔ ∃ vAddr, (dest, vAddr) ∈ ad.addrToSend.toList ∧ addr ∈ vAddr := by
  simp only [pending, Std.TreeMap.getD_eq_getD_getElem?, OrderedMap.mem_toList]
  cases ad.addrToSend[dest]? with
  | none => simp
  | some vAddr => simp

/-- From `ad` to `ad'` the addresses of `queued` were queued, and none was before. -/
structure Queues (queued : List (P × P)) (ad ad' : AdvertisementManager P) : Prop where
  nodup : queued.Nodup
  fresh : ∀ dest addr, (dest, addr) ∈ queued → addr ∉ ad.known dest
  known : ∀ dest addr, addr ∈ ad'.known dest ↔ addr ∈ ad.known dest ∨ (dest, addr) ∈ queued
  pending : ∀ dest addr, addr ∈ ad.pending dest ∨ (dest, addr) ∈ queued → addr ∈ ad'.pending dest

theorem Queues.refl (ad : AdvertisementManager P) : Queues [] ad ad where
  nodup := .nil
  fresh _ _ h := by cases h
  known _ _ := (or_iff_left List.not_mem_nil).symm
  pending _ _ := Or.rec id fun h => by cases h

theorem Queues.trans {q q' : List (P × P)} (h : Queues q ad ad') (h' : Queues q' ad' ad'') :
    Queues (q ++ q') ad ad'' where
  nodup := by
    refine h.nodup.append h'.nodup ?_
    rintro ⟨dest, addr⟩ hq hq'
    exact h'.fresh dest addr hq' ((h.known dest addr).mpr (.inr hq))
  fresh dest addr hq hknown := by
    rcases List.mem_append.mp hq with hq | hq
    · exact h.fresh dest addr hq hknown
    · exact h'.fresh dest addr hq ((h.known dest addr).mpr (.inl hknown))
  known dest addr := by rw [h'.known, h.known, List.mem_append, or_assoc]
  pending dest addr := by
    rintro (hp | hq)
    · exact h'.pending dest addr (.inl (h.pending dest addr (.inl hp)))
    · rcases List.mem_append.mp hq with hq | hq
      · exact h'.pending dest addr (.inl (h.pending dest addr (.inr hq)))
      · exact h'.pending dest addr (.inr hq)

theorem queues_advertiseLocal (ad : AdvertisementManager P) (dest : P) :
    Queues [] ad (ad.advertiseLocal dest) where
  nodup := .nil
  fresh _ _ h := by cases h
  known _ _ := (or_iff_left List.not_mem_nil).symm
  pending x addr := by
    rintro (hp | hq)
    · rw [AdvertisementManager.pending, advertiseLocal, getD_insert]
      split
      · next hx => exact List.mem_append_left _ (hx ▸ hp)
      · exact hp
    · cases hq

theorem pushAddr_of_known {dest addr : P} (h : addr ∈ ad.known dest) : ad.pushAddr dest addr = ad :=
  if_pos h

theorem known_pushAddr {dest addr : P} (h : addr ∉ ad.known dest) (x : P) :
    (ad.pushAddr dest addr).known x = if x = dest then addr :: ad.known dest else ad.known x := by
  rw [pushAddr, if_neg (show addr ∉ ad.addrKnown.getD dest [] from h)]
  exact getD_insert

theorem pending_pushAddr {dest addr : P} (h : addr ∉ ad.known dest) (x : P) :
    (ad.pushAddr dest addr).pending x
      = if x = dest then ad.pending dest ++ [addr] else ad.pending x := by
  rw [pushAddr, if_neg (show addr ∉ ad.addrKnown.getD dest [] from h)]
  exact getD_insert

theorem queues_pushAddr (ad : AdvertisementManager P) (dest addr : P) :
    Queues (ad.pushQueued dest addr) ad (ad.pushAddr dest addr) := by
  by_cases hk : addr ∈ ad.known dest
  · rw [pushQueued, if_pos (knows_iff.mpr hk), pushAddr_of_known hk]
    exact .refl ad
  · rw [pushQueued, if_neg (mt knows_iff.mp hk)]
    refine ⟨List.nodup_singleton _, ?_, fun x y => ?_, fun x y => ?_⟩
    · rintro x y hxy
      obtain ⟨rfl, rfl⟩ := Prod.mk.inj (List.mem_singleton.mp hxy)
      exact hk
    · rw [known_pushAddr hk, List.mem_singleton, Prod.mk.injEq]
      split
      · next hx => rw [hx, and_iff_right rfl, List.mem_cons, or_comm]
      · next hx => exact (or_iff_left fun h => hx h.1).symm
    · rw [pending_pushAddr hk, List.mem_singleton, Prod.mk.injEq]
      rintro (hp | ⟨rfl, rfl⟩)
      · split
        · next hx => exact List.mem_append_left _ (hx ▸ hp)
        · exact hp
      · rw [if_pos rfl]
        exact List.mem_append_right _ (List.mem_singleton_self _)

end AdvertisementManager

namespace BL_PeerConnectivityLayer_API

open AdvertisementManager

variable (ar : Archive P O) (ads : AddrAd P O) (N : BL_PeerConnectivityLayer_API P O)

/-! ## What is queued and what is put into sockets -/

/-- What the relays of one address queue. -/
def relayQueued (m : PeerManager P) (source addr : P) :
    List Nat → AdvertisementManager P → List (P × P)
  | [], _ => []
  | random :: draws, ad =>
      match m.getPeers[random % m.getPeers.length]? with
      | none => []
      | some (_, relayedPeer) =>
          let dest := relayedPeer.getPeerId
          if dest ≠ source then
            ad.pushQueued dest addr ++ relayQueued m source addr draws (ad.pushAddr dest addr)
          else relayQueued m source addr draws ad

/-- What the loop over the addresses of an `ADDR` queues. -/
def recvQueued (m : PeerManager P) (source : P) (size : Nat) :
    List P → List Draw → AdvertisementManager P → List (P × P)
  | [], _, _ => []
  | addr :: vAddr, draws, ad =>
      if size ≤ 10 then
        let targets := (draws.headD {}).targets
        relayQueued m source addr targets ad ++
          match relayAddr m source addr targets ad with
          | .error _ => []
          | .ok ad => recvQueued m source size vAddr draws.tail ad
      else recvQueued m source size vAddr draws.tail ad

/-- What an action queues. -/
def queues : NodeAct P O → List (P × P)
  | .handleEvent k =>
      match N.socketLayer.eventQueue with
      | .peerRecvMsg _ msg :: _ =>
          if msg.type = "ADDR" then
            (ads.vAddr msg.ptrToObj).elim [] fun vAddr =>
              recvQueued N.peerManager msg.src vAddr.length vAddr k.draws N.adManager
          else []
      | _ => []
  | _ => []

/-- The addresses that the loop of `SendAdToPeers` puts into data sockets, and of whom. -/
def adsPut (k : PeerAnswers P) :
    List (P × List P) → BL_PeerConnectivityLayer_API P O → List (P × P)
  | [], _ => []
  | (dest, vAddr) :: rest, N =>
      let msg : Message P O :=
        { Message.make (O := O) N.peerManager.myPeerId dest "ADDR" (k.messageId dest "ADDR") with
          ptrToObj := some (ads.make vAddr) }
      let (sent, N) := N.sendMsgToPeer ar dest msg
      (if sent then vAddr.map (dest, ·) else []) ++ adsPut k rest N

/-- What an action puts into data sockets. -/
def puts : NodeAct P O → List (P × P)
  | .sendAdToPeers k => adsPut ar ads k N.adManager.addrToSend.toList N
  | _ => []

end BL_PeerConnectivityLayer_API

/-! ## Runs -/

/-- A node, with what was queued by `PushAddr` and what was put into data sockets. -/
structure Relayed (P O : Type) [LinearOrder P] where
  node : BL_PeerConnectivityLayer_API P O
  queued : List (P × P)
  put : List (P × P)

/-- A step of a node, or a call of `PushAddr` at any time. -/
inductive RelayAct (P O : Type) where
  | node (a : NodeAct P O)
  | pushAddr (dest addr : P)

namespace Relayed

/-- The step as a function. -/
def next (ar : Archive P O) (ads : AddrAd P O) (S : Relayed P O) :
    RelayAct P O → Option (Relayed P O)
  | .node a =>
      (a.next ar ads S.node).map fun N =>
        ⟨N, S.queued ++ S.node.queues ads a, S.put ++ S.node.puts ar ads a⟩
  | .pushAddr dest addr =>
      let ad := S.node.adManager
      some ⟨{ S.node with adManager := ad.pushAddr dest addr },
        S.queued ++ ad.pushQueued dest addr, S.put⟩

/-- An address that a peer is recorded to know is pending, or has been put into a data socket
of the peer. -/
def Accounted (S : Relayed P O) : Prop :=
  ∀ dest addr, addr ∈ S.node.adManager.known dest →
    addr ∈ S.node.adManager.pending dest ∨ (dest, addr) ∈ S.put

/-- A tick finds every peer active for whom an address is pending that was relayed, and that
has not been put into a data socket of the peer before. -/
def reaches (S : Relayed P O) : RelayAct P O → Bool
  | .node (.sendAdToPeers _) =>
      S.node.adManager.addrToSend.toList.all fun e =>
        (S.node.peerManager.findPeer e.1).any Peer.isActive ||
          e.2.all fun addr => !S.node.adManager.knows e.1 addr || S.put.contains (e.1, addr)
  | _ => true

end Relayed

/-- A node whose relays are recorded. -/
def relayedSys (ar : Archive P O) (ads : AddrAd P O) (myPeerId : P) (outPeerNum inPeerNum : Int) :
    TransSys (Relayed P O) (RelayAct P O) where
  init S := S = ⟨.init myPeerId outPeerNum inPeerNum, [], []⟩
  step S a S' := S.next ar ads a = some S'

namespace BL_PeerConnectivityLayer_API

open AdvertisementManager

variable {ar : Archive P O} {ads : AddrAd P O} {N N' : BL_PeerConnectivityLayer_API P O}
  {a : NodeAct P O} {k : PeerAnswers P}

/-! ## Queueing -/

theorem relayAddr_queues {m : PeerManager P} {source addr : P} {draws : List Nat}
    {ad ad' : AdvertisementManager P} (h : relayAddr m source addr draws ad = .ok ad') :
    Queues (relayQueued m source addr draws ad) ad ad' := by
  induction draws generalizing ad with
  | nil =>
      obtain rfl := Except.ok.inj h
      exact .refl _
  | cons random draws ih =>
      cases hdraw : m.getPeers[random % m.getPeers.length]? with
      | none =>
          simp only [relayAddr, hdraw] at h
          cases h
      | some e =>
          simp only [relayAddr, hdraw] at h
          simp only [relayQueued, hdraw]
          split at h
          · next hne =>
              rw [if_pos hne]
              exact (queues_pushAddr _ _ _).trans (ih h)
          · next heq =>
              rw [if_neg heq]
              exact ih h

theorem recvAddrs_queues {m : PeerManager P} {source : P} {size : Nat} {vAddr : List P}
    {draws : List Draw} {ad ad' : AdvertisementManager P}
    (h : recvAddrs m source size vAddr draws ad = .ok ad') :
    Queues (recvQueued m source size vAddr draws ad) ad ad' := by
  induction vAddr generalizing draws ad with
  | nil =>
      obtain rfl := Except.ok.inj h
      exact .refl _
  | cons addr vAddr ih =>
      simp only [recvAddrs] at h
      simp only [recvQueued]
      split at h
      · next hsize =>
          obtain ⟨ad₁, hrelay, hrest⟩ := bind_ok.mp h
          rw [if_pos hsize, hrelay]
          exact (relayAddr_queues hrelay).trans (ih hrest)
      · next hsize =>
          rw [if_neg hsize]
          exact ih h

theorem recvMsgHandler_queues {src : P} {msg : Message P O}
    (h : N.recvMsgHandler ar ads k src msg = .ok N') :
    Queues
      (if msg.type = "ADDR" then
        (ads.vAddr msg.ptrToObj).elim [] fun vAddr =>
          recvQueued N.peerManager msg.src vAddr.length vAddr k.draws N.adManager
      else []) N.adManager N'.adManager := by
  cases recvMsgHandler_cases h with
  | ignored haddr _ => rw [if_neg haddr]; exact .refl _
  | addr haddr hv had =>
      rw [if_pos haddr, hv, Option.elim_some]
      exact recvAddrs_queues had
  | ping hping hw =>
      rw [if_neg fun haddr => absurd (hping.symm.trans haddr) (by decide), hw.adManager]
      exact .refl _
  | pong hpong _ =>
      rw [if_neg fun haddr => absurd (hpong.symm.trans haddr) (by decide)]
      exact .refl _
  | protocol haddr _ => rw [if_neg haddr]; exact .refl _

theorem attach_adManager (peer : Peer P) (sock : SocketPtr P) :
    (N.attach ar k peer sock).adManager = N.adManager.advertiseLocal peer.id := by
  simp only [attach]
  rw [(sendMsgToPeer_snd _ _ _).adManager, (sendMsgToPeer_snd _ _ _).adManager]
  rfl

theorem pingtimerCallback_adManager (h : N.pingtimerCallback ar k = .ok N') :
    N'.adManager = N.adManager := by
  obtain ⟨M, hM, hN'⟩ := bind_ok.mp h
  obtain rfl := Except.ok.inj hN'
  have hsilent : M.adManager = N.adManager :=
    disconnectSilent_rule (R := fun M => M.adManager = N.adManager)
      (fun _ _ _ _ _ hkeep _ hd => hd.adManager.trans hkeep)
      (fun e he => PeerManager.mem_getPeers.mp he) (getPeers_pairwise _) rfl hM
  have hping (l : List (P × Peer P)) (M : BL_PeerConnectivityLayer_API P O) :
      (pingAll ar k l M).adManager = M.adManager := by
    induction l generalizing M with
    | nil => rfl
    | cons e l ih => exact (ih _).trans (sendMsgToPeer_snd _ _ _).adManager
  rw [hping, hsilent]

/-- A step that is no tick queues what is recorded of it. -/
theorem queues_of_act (h : N.act ar ads a = some (.ok N')) (had : ∀ k, a ≠ .sendAdToPeers k) :
    Queues (N.queues ads a) N.adManager N'.adManager := by
  by_cases hmsg : ∃ k src msg rest, a = .handleEvent k ∧
      N.socketLayer.eventQueue = .peerRecvMsg src msg :: rest
  · obtain ⟨k, src, msg, rest, rfl, hq⟩ := hmsg
    have hrecv := recvMsgHandler_queues (recvMsg_of_act hq h)
    simp only [queues, hq]
    exact hrecv
  · have hnone : N.queues ads a = [] := by
      unfold queues
      split
      · split
        · next hq => exact absurd ⟨_, _, _, _, rfl, hq⟩ hmsg
        · rfl
      · rfl
    rw [hnone]
    cases step_cases h with
    | disconnected _ hd => rw [hd.adManager]; exact .refl _
    | sent hw => rw [hw.adManager]; exact .refl _
    | pinged _ _ _ =>
        rw [pingtimerCallback_adManager (Option.some.inj (move_of_act (by rintro _ ⟨⟩) h))]
        exact .refl _
    | advertised _ _ => exact absurd rfl (had _)
    | layer2 hq hev =>
        cases hev with
        | attached _ => rw [attach_adManager]; exact queues_advertiseLocal _ _
        | recvMsg _ _ => exact absurd ⟨_, _, _, _, rfl, hq⟩ hmsg
        | _ => exact .refl _
    | _ => exact .refl _

/-! ## Sending -/

/-- The loop of `SendAdToPeers` puts the addresses of the active peers into their sockets. -/
theorem mem_adsPut {l : List (P × List P)} {dest addr : P} :
    (dest, addr) ∈ adsPut ar ads k l N ↔
      (N.peerManager.findPeer dest).any Peer.isActive = true ∧
        ∃ vAddr, (dest, vAddr) ∈ l ∧ addr ∈ vAddr := by
  induction l generalizing N with
  | nil => simp [adsPut]
  | cons e l ih =>
      obtain ⟨x, vAddr⟩ := e
      simp only [adsPut]
      rw [List.mem_append, ih, sendMsgToPeer_fst, (sendMsgToPeer_snd _ _ _).peerManager]
      constructor
      · rintro (hput | ⟨hact, v, hv, haddr⟩)
        · split at hput
          · next hact =>
              obtain ⟨y, hy, heq⟩ := List.mem_map.mp hput
              obtain ⟨rfl, rfl⟩ := Prod.mk.inj heq
              exact ⟨hact, vAddr, List.mem_cons_self, hy⟩
          · cases hput
        · exact ⟨hact, v, List.mem_cons_of_mem _ hv, haddr⟩
      · rintro ⟨hact, v, hv, haddr⟩
        rcases List.mem_cons.mp hv with heq | hv
        · obtain ⟨rfl, rfl⟩ := Prod.mk.inj heq
          rw [if_pos hact]
          exact .inl (List.mem_map_of_mem haddr)
        · exact .inr ⟨hact, v, hv, haddr⟩

theorem sendAdToPeers_adManager (N : BL_PeerConnectivityLayer_API P O) (k : PeerAnswers P) :
    (N.sendAdToPeers ar ads k).adManager = { N.adManager with addrToSend := ∅ } := by
  simp only [sendAdToPeers]
  rw [(sendAds_wrote _ _ _).adManager]

theorem pending_sendAdToPeers (N : BL_PeerConnectivityLayer_API P O) (k : PeerAnswers P)
    (dest : P) :
    (N.sendAdToPeers ar ads k).adManager.pending dest = [] := by
  rw [sendAdToPeers_adManager]
  exact Std.TreeMap.getD_emptyc

theorem known_sendAdToPeers (N : BL_PeerConnectivityLayer_API P O) (k : PeerAnswers P) (dest : P) :
    (N.sendAdToPeers ar ads k).adManager.known dest = N.adManager.known dest := by
  rw [sendAdToPeers_adManager]
  rfl

end BL_PeerConnectivityLayer_API

/-! ## Recorded runs -/

namespace Relayed

open BL_PeerConnectivityLayer_API AdvertisementManager

variable {ar : Archive P O} {ads : AddrAd P O} {me : P} {o i : Int} {S S' : Relayed P O}
  {a : RelayAct P O}

/-- What a step does to the queues and to the record. -/
inductive RelayStep (ar : Archive P O) (ads : AddrAd P O) (S : Relayed P O) :
    RelayAct P O → Relayed P O → Prop
  | queues {a : RelayAct P O} {S' : Relayed P O} {q : List (P × P)} :
      Queues q S.node.adManager S'.node.adManager → S'.queued = S.queued ++ q → S'.put = S.put →
      S.reaches a = true → RelayStep ar ads S a S'
  | tick {k : PeerAnswers P} :
      RelayStep ar ads S (.node (.sendAdToPeers k))
        ⟨S.node.sendAdToPeers ar ads k, S.queued,
          S.put ++ adsPut ar ads k S.node.adManager.addrToSend.toList S.node⟩

theorem step_cases (h : S.next ar ads a = some S') : RelayStep ar ads S a S' := by
  cases a with
  | pushAddr dest addr =>
      obtain rfl := Option.some.inj h
      exact .queues (queues_pushAddr _ _ _) rfl rfl rfl
  | node a =>
      obtain ⟨N', hN', rfl⟩ := Option.map_eq_some_iff.mp h
      have hstep : (nodeSys ar ads S.node.peerManager.myPeerId 0 0).step S.node a N' :=
        NodeAct.step_of_next hN'
      have hact : S.node.act ar ads a = some (.ok N') := hstep
      by_cases htick : ∃ k, a = .sendAdToPeers k
      · obtain ⟨k, rfl⟩ := htick
        obtain rfl := Except.ok.inj (Option.some.inj (move_of_act (by rintro _ ⟨⟩) hact))
        have hqueues : S.node.queues ads (.sendAdToPeers k) = [] := rfl
        rw [hqueues, List.append_nil]
        exact .tick
      · have had : ∀ k, a ≠ .sendAdToPeers k := fun k hk => htick ⟨k, hk⟩
        refine .queues (queues_of_act hact had) rfl ?_ ?_
        · cases a with
          | sendAdToPeers k => exact absurd rfl (had k)
          | _ => exact List.append_nil _
        · cases a with
          | sendAdToPeers k => exact absurd rfl (had k)
          | _ => rfl

/-- What was queued is what is recorded as known, and it was queued once. -/
structure Once (S : Relayed P O) : Prop where
  nodup : S.queued.Nodup
  known : ∀ dest addr, (dest, addr) ∈ S.queued ↔ addr ∈ S.node.adManager.known dest

theorem Once.step (h : S.Once) (hs : RelayStep ar ads S a S') : S'.Once := by
  cases hs with
  | @queues _ _ q hq hqueued _ _ =>
      constructor
      · rw [hqueued]
        refine h.nodup.append hq.nodup ?_
        rintro ⟨dest, addr⟩ hold hnew
        exact hq.fresh dest addr hnew ((h.known dest addr).mp hold)
      · intro dest addr
        rw [hqueued, List.mem_append, hq.known, h.known]
  | tick =>
      refine ⟨h.nodup, fun dest addr => ?_⟩
      rw [known_sendAdToPeers]
      exact h.known dest addr

theorem accounted_step_iff (h : S.Accounted) (hs : RelayStep ar ads S a S') :
    S'.Accounted ↔ S.reaches a = true := by
  cases hs with
  | @queues _ _ q hq _ hput hreach =>
      refine iff_of_true (fun dest addr hknown => ?_) hreach
      rw [hput]
      rcases (hq.known dest addr).mp hknown with hold | hnew
      · exact (h dest addr hold).imp_left fun hp => hq.pending dest addr (.inl hp)
      · exact .inl (hq.pending dest addr (.inr hnew))
  | @tick k =>
      have hput (dest addr : P) : (dest, addr) ∈ adsPut ar ads k S.node.adManager.addrToSend.toList
          S.node ↔ (S.node.peerManager.findPeer dest).any Peer.isActive = true ∧
            addr ∈ S.node.adManager.pending dest := by
        rw [mem_adsPut, mem_pending]
      have hafter (dest addr : P) : (addr ∈ (S.node.sendAdToPeers ar ads k).adManager.pending dest ∨
          (dest, addr) ∈ S.put ++ adsPut ar ads k S.node.adManager.addrToSend.toList S.node) ↔
            (dest, addr) ∈ S.put ∨ (S.node.peerManager.findPeer dest).any Peer.isActive = true ∧
              addr ∈ S.node.adManager.pending dest := by
        rw [pending_sendAdToPeers, or_iff_right List.not_mem_nil, List.mem_append, hput]
      simp only [Accounted, hafter, known_sendAdToPeers, reaches, List.all_eq_true, Bool.or_eq_true,
        Bool.not_eq_true', ← Bool.not_eq_true, knows_iff, List.contains_iff_mem]
      constructor
      · rintro hacc ⟨dest, vAddr⟩ he
        by_cases hact : (S.node.peerManager.findPeer dest).any Peer.isActive = true
        · exact .inl hact
        · refine .inr fun addr haddr => ?_
          by_cases hknown : addr ∈ S.node.adManager.known dest
          · exact .inr ((hacc dest addr hknown).resolve_right fun hnow => hact hnow.1)
          · exact .inl hknown
      · intro hreach dest addr hknown
        rcases h dest addr hknown with hpending | hold
        · obtain ⟨vAddr, he, haddr⟩ := mem_pending.mp hpending
          rcases hreach _ he with hact | hall
          · exact .inr ⟨hact, hpending⟩
          · exact .inl ((hall addr haddr).resolve_left fun hnot => hnot hknown)
        · exact .inl hold

/-- A schedule, run from the start. -/
def run (ar : Archive P O) (ads : AddrAd P O) (me : P) (o i : Int)
    (C : Relayed P O → RelayAct P O → Bool) (acts : List (RelayAct P O)) : Option (Relayed P O) :=
  TransSys.exec (next ar ads) C ⟨.init me o i, [], []⟩ acts

theorem run_any {C : Relayed P O → RelayAct P O → Bool} {acts : List (RelayAct P O)}
    {test : Relayed P O → Bool} (h : (run ar ads me o i C acts).any test = true) :
    ∃ S, run ar ads me o i C acts = some S ∧
      (relayedSys ar ads me o i).Under (fun S a => C S a = true) S ∧ test S = true :=
  TransSys.exec_any _ _ (fun _ _ _ hs => hs) rfl h

end Relayed

open BL_PeerConnectivityLayer_API

/-- **Address relay.**  In every run `PushAddr` queues an address for a peer at most once.
Addresses that a peer is recorded to know are pending, or have been put into a data socket of
the peer, in a run in which each tick finds the peers active for whom a relayed address is
pending, and the next step keeps it so exactly if it does the same. -/
theorem addr_relay (ar : Archive P O) (ads : AddrAd P O) (me : P) (o i : Int) :
    (∀ S, (relayedSys ar ads me o i).Reach S → S.queued.Nodup) ∧
      ∀ S, (relayedSys ar ads me o i).Under (fun S a => S.reaches a = true) S →
        S.Accounted ∧ ∀ a S', (relayedSys ar ads me o i).step S a S' →
          (S'.Accounted ↔ S.reaches a = true) := by
  have hempty (dest : P) : (AdvertisementManager.new me).known dest = [] := Std.TreeMap.getD_emptyc
  constructor
  · intro S h
    have honce : S.Once := by
      refine h.invariant (P := Relayed.Once) ?_ ?_
      · rintro S rfl
        refine ⟨.nil, fun dest addr => ?_⟩
        show (dest, addr) ∈ [] ↔ addr ∈ (AdvertisementManager.new me).known dest
        rw [hempty]
        exact iff_of_false List.not_mem_nil List.not_mem_nil
      · intro S a S' _ hS _ hs
        exact hS.step (Relayed.step_cases hs)
    exact honce.nodup
  · intro S h
    have hacc : S.Accounted := by
      refine h.invariant (P := Relayed.Accounted) ?_ ?_
      · intro S hS dest addr hknown
        rw [hS] at hknown
        change addr ∈ (AdvertisementManager.new me).known dest at hknown
        rw [hempty] at hknown
        cases hknown
      · intro S a S' _ hS hc hs
        exact (Relayed.accounted_step_iff hS (Relayed.step_cases hs)).mpr hc
    exact ⟨hacc, fun a S' hs => Relayed.accounted_step_iff hacc (Relayed.step_cases hs)⟩

/-- Node 9 is a peer when the timer sends it the address of node 3. -/
theorem addr_relay_metPeer :
    ∃ S, Relayed.run byteArchive listAddrAd 0 0 0 Relayed.reaches
        (metPeer.map .node ++ [.pushAddr 9 3, .node (.sendAdToPeers {})]) = some S ∧
      3 ∈ S.node.adManager.known 9 ∧ (3 ∈ S.node.adManager.pending 9 ∨ (9, 3) ∈ S.put) := by
  have hrun : (Relayed.run byteArchive listAddrAd 0 0 0 Relayed.reaches
      (metPeer.map .node ++ [.pushAddr 9 3, .node (.sendAdToPeers {})])).any
        (fun S : Relayed Nat (List Nat) => decide (3 ∈ S.node.adManager.known 9)) = true := by
    decide +kernel
  obtain ⟨S, hS, hu, hknown⟩ := Relayed.run_any hrun
  have hknown := of_decide_eq_true hknown
  exact ⟨S, hS, hknown, ((addr_relay byteArchive listAddrAd 0 0 0).2 S hu).1 9 3 hknown⟩

/-- Node 0 is connecting to node 7 when it relays it an address that node 9 has sent, and the
timer ticks. -/
def relayWhileConnecting : List (NodeAct Nat (List Nat)) :=
  metPeer ++
    [.connectPeer 7 (.inProgress 6), .dataSocketIOCallback firstSock true,
      .handleEvent (readsMsg 9 "ADDR" [3]), .handleEvent {}, .sendAdToPeers {}]

/-- The address is lost. -/
theorem relayed_lost :
    ¬ ∀ S : Relayed Nat (List Nat), (relayedSys byteArchive listAddrAd 0 0 0).Reach S →
      S.Accounted := by
  intro h
  have hrun : (Relayed.run byteArchive listAddrAd 0 0 0 (fun _ _ => true)
      (relayWhileConnecting.map .node)).any
      (fun S : Relayed Nat (List Nat) => decide (3 ∈ S.node.adManager.known 7 ∧
        3 ∉ S.node.adManager.pending 7 ∧ (7, 3) ∉ S.put)) = true := by
    decide +kernel
  obtain ⟨S, -, hu, ht⟩ := Relayed.run_any hrun
  obtain ⟨hknown, hpending, hput⟩ := of_decide_eq_true ht
  exact (h S hu.reach 7 3 hknown).elim hpending hput

end Bleep
