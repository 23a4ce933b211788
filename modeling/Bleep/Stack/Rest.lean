/-
# `Bleep.Stack.Rest` — hosts whose timers rest come to rest

In a run without timers (`CalmRun`) libev polls the data sockets and the events are handled.
An action moves something from one place to the next, or nothing (`Refines.moved`).  What
is left to do is measured by three values, in this order (`Fabric.Left`): the queues of
the network behind the hosts, which go down with every message a protocol takes if the
protocol alone cannot go on for ever; the backlog; and the volume.

So only finitely many actions of such a run move anything (`CalmRun.moves_end`): what the
layers of sockets and of peers do between two handlers of the protocol never goes on by
itself.  Transaction gossip and proof of work end alone, and so end over sockets
(`gossip_hosts_rest`, `pow_hosts_rest`).
-/
import Bleep.BL3.PoWEnds
import Bleep.Stack.Drain
import Bleep.Stack.OverSockets

namespace Bleep

open Protocol

section General

variable {P O S X L : Type} [LinearOrder P] {links : Links P}
  {app : ProtocolLayer P O S X L} {ar : Archive P O} {ads : AddrAd P O} {F F' : Fabric P O S}
  {x : Queues P S X × ℕ × ℕ}

/-! ## Runs without timers -/

/-- An endless run of steady hosts in which no timer fires. -/
structure CalmRun (links : Links P) (app : ProtocolLayer P O S X L) (ar : Archive P O)
    (ads : AddrAd P O) (f : ℕ → Fabric P O S) (e : ℕ → P × HostAct P O L) : Prop where
  steady : ∀ i, (f i).Steady links app ar ads (e i)
  calm : ∀ i, (e i).2.isCalm = true
  step : ∀ i, (f i).act links app ar ads (e i).1 (e i).2 = some (.ok (f (i + 1)))

variable {f : ℕ → Fabric P O S} {e : ℕ → P × HostAct P O L}

theorem CalmRun.cons (h : CalmRun links app ar ads f e) {a : P × HostAct P O L}
    (hc : F.Steady links app ar ads a) (hcalm : a.2.isCalm = true)
    (hs : F.act links app ar ads a.1 a.2 = some (.ok (f 0))) :
    CalmRun links app ar ads (fun i => Nat.casesOn i F f) (fun i => Nat.casesOn i a e) where
  steady
    | 0 => hc
    | i + 1 => h.steady i
  calm
    | 0 => hcalm
    | i + 1 => h.calm i
  step
    | 0 => hs
    | i + 1 => h.step i

/-- libev polls a data socket of `n`. -/
def Fabric.poll (F : Fabric P O S) (n : P) (sock : SocketPtr P) (readable : Bool) : Fabric P O S :=
  let peers := (F.host n).peers.pushAsyncEvent
    (if readable then .socketRecv sock else .socketWrite sock)
  F.set n { F.host n with peers } F.pipe

section Poll

variable {n : P} {sock : SocketPtr P} {readable : Bool}

theorem Fabric.steady_poll : F.Steady links app ar ads
    (n, .node (.dataSocketIOCallback sock readable)) where
  steady := trivial
  reads _ hr := absurd hr (Option.not_mem_none _)
  sendable _ hm := absurd hm List.not_mem_nil

theorem Fabric.act_poll (hl : Linked links n (F.host n).peers)
    (hsock : sock ∈ (F.host n).peers.socketLayer.objects)
    (hr : readable = true ∨ ((F.host n).peers.socketLayer.heap sock.obj).writable = true) :
    F.act links app ar ads n (.node (.dataSocketIOCallback sock readable)) =
      some (.ok (F.poll n sock readable)) := by
  have hact : (F.host n).peers.act ar ads (.dataSocketIOCallback sock readable) =
      some (.ok ((F.host n).peers.pushAsyncEvent
        (if readable then .socketRecv sock else .socketWrite sock))) := by
    rw [hl.act_eq_move (by rintro _ ⟨⟩), BL_PeerConnectivityLayer_API.move, if_pos ⟨hsock, hr⟩]
  rw [Fabric.act, Host.act, hact]
  rfl

theorem exists_polls (hl : Linked links n (F.host n).peers)
    (hsock : sock ∈ (F.host n).peers.socketLayer.objects) :
    ∃ f e, f 0 = F ∧ CalmRun links app ar ads f e := by
  let f : ℕ → Fabric P O S := fun i => Nat.rec F (fun _ G => G.poll n sock true) i
  have hkeep : ∀ i, Linked links n ((f i).host n).peers ∧
      sock ∈ ((f i).host n).peers.socketLayer.objects := by
    intro i
    induction i with
    | zero => exact ⟨hl, hsock⟩
    | succ i ih =>
        have hhost : ((f i).poll n sock true).host n = _ := (f i).set_host_self n _ _
        show Linked links n (((f i).poll n sock true).host n).peers ∧
          sock ∈ (((f i).poll n sock true).host n).peers.socketLayer.objects
        rw [hhost]
        exact ⟨ih.1.keep (.refl _) rfl rfl rfl rfl, ih.2⟩
  refine ⟨f, fun _ => (n, .node (.dataSocketIOCallback sock true)), rfl, ⟨fun i => ?_, fun _ => rfl,
    fun i => ?_⟩⟩
  · exact (f i).steady_poll
  · exact (f i).act_poll (hkeep i).1 (hkeep i).2 (.inl rfl)

end Poll

/-! ## What is left to do -/

/-- Less is left to do. -/
abbrev Less (links : Links P) (app : ProtocolLayer P O S X L) :
    Queues P S X × ℕ × ℕ → Queues P S X × ℕ × ℕ → Prop :=
  Prod.Lex (Delivers (app.protocol links.nbrs)) (Prod.Lex (· < ·) (· < ·))

/-- If the protocol alone comes to an end, nothing descends for ever. -/
theorem acc_less {c : Config P S X} {q : Queues P S X} (hfly : c.Flies q)
    (hend : ¬ (app.protocol links.nbrs).Endless c) (y : ℕ × ℕ) : Acc (Less links app) (q, y) := by
  have hwf : WellFounded (Prod.Lex (· < ·) (· < ·) : ℕ × ℕ → ℕ × ℕ → Prop) :=
    WellFounded.prod_lex wellFounded_lt wellFounded_lt
  exact Prod.lexAccessible (hfly.acc_delivers hend) hwf.apply y

variable [Fintype P]

/-- What is left to do. -/
structure Fabric.Left (links : Links P) (app : ProtocolLayer P O S X L) (ar : Archive P O)
    (ads : AddrAd P O) (F : Fabric P O S) (x : Queues P S X × ℕ × ℕ) : Prop where
  refines : Refines links app ar ads F x.1
  laden : ∃ t, (F.places links).Laden app ar ads t ∧
    x.2 = ((F.places links).backlog t, (F.places links).volume)

theorem exists_left {q : Queues P S X} (h : Refines links app ar ads F q) :
    ∃ y, F.Left links app ar ads (q, y) := by
  obtain ⟨t, ht⟩ := h.laden
  exact ⟨_, h, t, ht, rfl⟩

/-- An action that moves something leaves less to do, and any other as much. -/
theorem Fabric.Left.step (happ : app.Lawful) (hads : ads.Lawful) (h : F.Left links app ar ads x)
    {e : P × HostAct P O L} (hc : F.Steady links app ar ads e) (hcalm : e.2.isCalm = true)
    (hs : F.act links app ar ads e.1 e.2 = some (.ok F')) :
    (F.Moves e → ∃ y, Less links app y x ∧ F'.Left links app ar ads y) ∧
      (¬ F.Moves e → F'.Left links app ar ads x) := by
  obtain ⟨q, y⟩ := x
  obtain ⟨href, t, hladen, hy⟩ := h
  obtain rfl : y = ((F.places links).backlog t, (F.places links).volume) := hy
  obtain ⟨kind, q', -, hmoved, href', hq', hmoves, -⟩ := href.moved happ hads hc hcalm hs
  obtain ⟨t', hladen', hlowers⟩ := hmoved.lowers hladen
  have hleft : F'.Left links app ar ads
      (q', (F'.places links).backlog t', (F'.places links).volume) := ⟨href', t', hladen', rfl⟩
  rw [hmoves]
  cases kind with
  | polls =>
      refine ⟨fun hm => by cases hm <;> contradiction, fun _ => ?_⟩
      obtain rfl : q' = q := hq'
      exact ⟨href', t', hladen', hlowers.symm⟩
  | skips =>
      refine ⟨fun hm => by cases hm <;> contradiction, fun _ => ?_⟩
      obtain rfl : q' = q := hq'
      exact ⟨href', t', hladen', hlowers.symm⟩
  | moves =>
      refine ⟨fun _ => ⟨_, ?_, hleft⟩, fun hno => absurd (.inl rfl) hno⟩
      obtain rfl : q' = q := hq'
      exact .right _ hlowers
  | takes => exact ⟨fun _ => ⟨_, .left _ _ hq', hleft⟩, fun hno => absurd (.inr rfl) hno⟩

/-- Where the protocol alone comes to an end, the hosts do. -/
theorem CalmRun.moves_end (happ : app.Lawful) (hads : ads.Lawful)
    (h : CalmRun links app ar ads f e) {c : Config P S X} {q : Queues P S X} (hfly : c.Flies q)
    (href : Refines links app ar ads (f 0) q) (hend : ¬ (app.protocol links.nbrs).Endless c) :
    ∃ n, ∀ i ≥ n, ¬ (f i).Moves (e i) := by
  obtain ⟨y, hleft⟩ := exists_left href
  obtain ⟨n, -, hn⟩ := Descent.marks_end
    (fun i x hx => hx.step happ hads (h.steady i) (h.calm i) (h.step i))
    (acc_less hfly hend y) hleft
  exact ⟨n, hn⟩

end General

/-! ## Two hosts -/

section Two

variable {S X L : Type} {app : ProtocolLayer (Fin 2) TwoObject S X L}

theorem exists_calmRun_two (happ : app.Lawful) (table : List (Message (Fin 2) TwoObject))
    (acts : List (Fin 2 × HostAct (Fin 2) TwoObject L)) (k : PeerAnswers (Fin 2))
    (good : Fabric (Fin 2) TwoObject S → Bool)
    (h : ((TransSys.exec (Fabric.next app table)
      (fun F e => decide (F.Steady twoLinks app (tableArchive table) addrAd e)) (twoHosts app)
      acts).bind fun F =>
        (F.next app table (0, .node (.dataSocketIOCallback (twoSock 0) false))).bind fun G =>
          (G.next app table (0, .node (.handleEvent k))).map fun G' =>
            good F && G.Moves (L := L) (0, .node (.handleEvent k)) &&
              decide (G.Steady twoLinks app (tableArchive table) addrAd
                (0, .node (.handleEvent k)) ∧
                  twoSock 0 ∈ (G'.host 0).peers.socketLayer.objects)) = some true) :
    ∃ f e, SteadyRun twoLinks app (tableArchive table) addrAd (fun _ _ => True) (f 0) ∧
      CalmRun twoLinks app (tableArchive table) addrAd f e ∧ (f 1).Moves (e 1) = true ∧
      good (f 0) = true := by
  obtain ⟨F, hF, h⟩ := Option.bind_eq_some_iff.mp h
  obtain ⟨G, hG, h⟩ := Option.bind_eq_some_iff.mp h
  obtain ⟨G', hG', h⟩ := Option.map_eq_some_iff.mp h
  simp only [Bool.and_eq_true, decide_eq_true_eq] at h
  obtain ⟨⟨hgood, hmoves⟩, hsteady, hsock⟩ := h
  have hrun : SteadyRun twoLinks app (tableArchive table) addrAd (fun _ _ => True) F :=
    steadyRun_twoHosts (fun _ _ hc => ⟨of_decide_eq_true hc, fun _ _ => trivial⟩) hF
  have hrun' : SteadyRun twoLinks app (tableArchive table) addrAd (fun _ _ => True) G' :=
    (hrun.step ⟨F.steady_poll, fun _ _ => trivial⟩ (F.act_of_next hG)).step
      ⟨hsteady, fun _ _ => trivial⟩ (G.act_of_next hG')
  obtain ⟨c, q, -, -, href⟩ := exists_network happ addrAd_lawful hrun'
  obtain ⟨f, e, rfl, hpolls⟩ := exists_polls (href.linked 0) hsock
  have hcalm := (hpolls.cons hsteady rfl (G.act_of_next hG')).cons F.steady_poll rfl
    (F.act_of_next hG)
  exact ⟨_, _, hrun, hcalm, hmoves, hgood⟩

end Two

/-! ## Transaction gossip and proof of work -/

/-- **Gossip comes to rest over sockets**: if no timer fires any more, whatever is polled
and however much the system calls read and write at a time, from some action on nobody
reads or writes a byte or handles a message. -/
theorem gossip_hosts_rest {N H A : Type} [LinearOrder N] [Fintype N] [LinearOrder A]
    [DecidableEq H] [Zero H] {links : Links N} {ar : Archive N (WireObject N H A)}
    {f : ℕ → Fabric N (WireObject N H A) (BL_ProtocolLayerEx1 H A)}
    {e : ℕ → N × HostAct N (WireObject N H A) (Ex1Act A)}
    (h : SteadyRun links ex1Layer ar addrAd (fun _ _ => True) (f 0))
    (hcalm : CalmRun links ex1Layer ar addrAd f e) : ∃ n, ∀ i ≥ n, ¬ (f i).Moves (e i) := by
  obtain ⟨c, q, hc, hfly, hF⟩ := exists_network ex1Layer_lawful addrAd_lawful h
  have hkeep : (ex1Sys H links.nbrs).Under (fun _ a => Keeps a) c :=
    hc.mono fun _ _ _ hcond => hcond.1
  exact hcalm.moves_end ex1Layer_lawful addrAd_lawful hfly hF
    (Gossip.not_endless_of_backed (Gossip.paid_of_under hkeep).1)

/-- The first host writes an announcement, and comes to rest. -/
theorem gossip_hosts_rest_two : ∃ (f : ℕ → TwoGossips)
    (e : ℕ → Fin 2 × HostAct (Fin 2) TwoObject (Ex1Act Nat)),
    CalmRun twoLinks ex1Layer (tableArchive gossipMsgs) addrAd f e ∧ (f 1).Moves (e 1) = true ∧
      ∃ n, ∀ i ≥ n, ¬ (f i).Moves (e i) := by
  obtain ⟨f, e, hrun, hcalm, hmoves, -⟩ := exists_calmRun_two ex1Layer_lawful
    gossipMsgs (gossipActs.take 2) { send := [8, 4, 1] } (fun _ => true) (by decide +kernel)
  exact ⟨f, e, hcalm, hmoves, gossip_hosts_rest hrun hcalm⟩

/-- **Proof of work comes to rest over sockets**, while nobody mines: with distinct hashes,
from some action on nobody reads or writes a byte or handles a message. -/
theorem pow_hosts_rest {N H A : Type} [LinearOrder N] [Fintype N] [LinearOrder A] [DecidableEq H]
    [Zero H] [Zero A] {sha : Sha256 H A} {links : Links N} {ar : Archive N (WireObject N H A)}
    {f : ℕ → Fabric N (WireObject N H A) (PoWNode N H A)}
    {e : ℕ → N × HostAct N (WireObject N H A) (PoWAct H A)}
    (h : SteadyRun links (powLayer sha) ar addrAd (fun _ _ => True) (f 0))
    (hd : DistinctHashes sha (f 0).layers)
    (hcalm : CalmRun links (powLayer sha) ar addrAd f e) : ∃ n, ∀ i ≥ n, ¬ (f i).Moves (e i) := by
  obtain ⟨c, q, hc, hfly, hF⟩ := exists_network (powLayer_lawful sha) addrAd_lawful h
  have hdist := distinctHashes_congr (hF.node_eq hfly) hd
  exact hcalm.moves_end (powLayer_lawful sha) addrAd_lawful hfly hF
    (not_endless_of_distinct hc.reach hdist)

/-- The first host writes the announcement of a block, and comes to rest. -/
theorem pow_hosts_rest_two : ∃ (f : ℕ → TwoNodes)
    (e : ℕ → Fin 2 × HostAct (Fin 2) TwoObject (PoWAct Nat Nat)),
    CalmRun twoLinks nonceLayer (tableArchive fetchMsgs) addrAd f e ∧ (f 1).Moves (e 1) = true ∧
      ∃ n, ∀ i ≥ n, ¬ (f i).Moves (e i) := by
  obtain ⟨f, e, hrun, hcalm, hmoves, hnodup⟩ := exists_calmRun_two (powLayer_lawful nonceSha)
    fetchMsgs (fetchActs.take 4) { send := [8, 4, 1] }
    (fun F => ((mintedList nonceSha [0, 1] F.layers).map POWBlock.block_hash).Nodup)
    (by decide +kernel)
  have hdist := distinctHashes_of_nodup (by decide) (of_decide_eq_true hnodup)
  exact ⟨f, e, hcalm, hmoves, pow_hosts_rest hrun hdist hcalm⟩

end Bleep
