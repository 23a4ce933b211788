/-
# `Bleep.Stack.OverSockets` — what holds of the protocols holds of hosts over sockets

The hosts are a network of messages (`fabric_simulated`): whatever the layers of
sockets and of peers do between the protocols, it loses, doubles, reorders and makes up
nothing.  What was proved of all runs over messages can therefore be read off the hosts:
proof of work stays safe and converges (`pow_hosts_safe`, `pow_hosts_converge`), and
transaction gossip agrees (`gossip_hosts_agree`).
-/
import Bleep.BL3.PoWConverge
import Bleep.Stack.Protocols

namespace Bleep

open Protocol BL_PeerConnectivityLayer_API

section General

variable {P O S X L : Type} [LinearOrder P] {links : Links P} {app : ProtocolLayer P O S X L}
  {ar : Archive P O} {ads : AddrAd P O} {F : Fabric P O S} {q : Queues P S X}
  {Allowed : S → X → Prop}

/-- The runs of steady hosts in which the protocol layers take messages only as
`Allowed`. -/
abbrev SteadyRun (links : Links P) (app : ProtocolLayer P O S X L) (ar : Archive P O)
    (ads : AddrAd P O) (Allowed : S → X → Prop) : Fabric P O S → Prop :=
  (fabricSys links app ar ads).Under fun F e =>
    F.Steady links app ar ads e ∧ ∀ t ∈ F.taken app e, Allowed t.1 t.2

theorem Refines.chan_nil (h : Refines links app ar ads F q) (hidle : F.Idle links) (a b : P) :
    q.chan a b = [] := by
  by_cases hb : b ∈ links.nbrs a
  · have hs := h.stream a b hb
    have hwait : waiting app a (F.host b).peers.socketLayer.eventQueue = [] := by
      have hfroms := fun e he =>
        froms_of_not_isMessage app a (hidle.eventQueue b e he)
      rw [waiting, List.filterMap_eq_nil_iff.mpr fun e he => (hfroms e he).1,
        List.filterMap_eq_nil_iff.mpr fun e he => (hfroms e he).2]
      rfl
    rw [hidle.pipe a b hb, hidle.recvBytes a b hb, hwait] at hs
    exact hs.nil (hidle.unsent a b hb)
  · exact h.away a b hb

/-- The network of messages behind the hosts, and the queues between the two. -/
theorem exists_network (happ : app.Lawful) (hads : ads.Lawful)
    (h : SteadyRun links app ar ads Allowed F) :
    ∃ c q, (app.protocol links.nbrs).sys.Under
        (fun c a => Keeps a ∧ InOrder c a ∧ ∀ t ∈ c.taken a, Allowed t.1 t.2) c ∧
      c.Flies q ∧ Refines links app ar ads F q := by
  obtain ⟨q, hq, hF⟩ := refines_of_steady happ hads h
  obtain ⟨c, hc, hfly⟩ := Fifo.simulated hq
  exact ⟨c, q, hc, hfly, hF⟩

variable {c : Config P S X}

theorem Refines.node_eq (h : Refines links app ar ads F q) (hfly : c.Flies q) :
    c.node = fun n => (F.host n).layer := by
  rw [hfly.node]
  exact funext fun n => (h.layer n).symm

theorem Refines.wire_nil (h : Refines links app ar ads F q) (hfly : c.Flies q)
    (hidle : F.Idle links) : c.wire = [] :=
  hfly.wire_nil (h.chan_nil hidle)

/-- A steady host is stopped by its protocol only. -/
theorem Refines.aborts (happ : app.Lawful) (hads : ads.Lawful) (h : Refines links app ar ads F q)
    (hfly : c.Flies q) {e : P × HostAct P O L} {fault : Fault}
    (hsteady : F.Steady links app ar ads e)
    (hfault : F.act links app ar ads e.1 e.2 = some (.error fault)) :
    ∃ a, (app.protocol links.nbrs).Aborts c a fault := by
  cases h.outcome happ hads hsteady hfault with
  | aborts ha => exact hfly.aborts ha

end General

/-! ## Two hosts -/

section Two

/-- The connection of two hosts as each has it: the first opened it. -/
def twoConn (n : Fin 2) : Conn (Fin 2) where
  id := 0
  fd := 5
  opener := if n = 0 then some 1 else none

def twoSock (n : Fin 2) : SocketPtr (Fin 2) := { obj := 1, conn := twoConn n }

def twoLinks : Links (Fin 2) where
  nbrs := theOther
  sock n _ := twoSock n
  symm {a b} := by revert a b; decide
  ne {a b} := by revert a b; decide
  fd_inj {a b c} := by revert a b c; decide
  obj_inj {a b c} := by revert a b c; decide

/-- The objects of messages in runs of two hosts. -/
abbrev TwoObject := WireObject (Fin 2) Nat Nat

def twoPeers (n : Fin 2) : BL_PeerConnectivityLayer_API (Fin 2) TwoObject :=
  { BL_PeerConnectivityLayer_API.init (O := TwoObject) n 0 0 with
    socketLayer :=
      (BL_SocketLayer_API.init.openFd 5 (twoConn n).opener).createDataSocket (twoConn n)
    peerManager := (PeerManager.new n 0 0).addPeer
      (if n = 0 then (Peer.outgoing 1 (twoConn n)).setDataSocket (some (twoSock n))
      else .incoming 0 0 (some (twoSock n))) }

variable {S X L : Type} (app : ProtocolLayer (Fin 2) TwoObject S X L)

def twoHosts : Fabric (Fin 2) TwoObject S where
  host n := { peers := twoPeers n, layer := app.start n }
  pipe _ _ := []

theorem linked_twoPeers (n : Fin 2) : Linked twoLinks n (twoPeers n) where
  me := by revert n; decide +kernel
  socketOf := by revert n; decide +kernel
  known := by revert n; decide +kernel
  ids := by revert n; decide +kernel
  data := by revert n; decide +kernel
  owned := by revert n; decide +kernel
  objects := by revert n; decide +kernel

theorem connected_twoHosts : (twoHosts app).Connected twoLinks app where
  linked := linked_twoPeers
  layer _ := rfl
  eventQueue _ := rfl
  recvBytes _ _ _ := rfl
  sendBuff _ _ _ := rfl
  pipe _ _ := rfl

/-- An archive that writes the places of messages in a table. -/
def tableArchive (table : List (Message (Fin 2) TwoObject)) : Archive (Fin 2) TwoObject where
  serialize msg := [UInt8.ofNat (table.idxOf msg)]
  deserialize
    | [b] => table[b.toNat]?.map some
    | _ => none

/-- Host `n` reads these bytes. -/
def arrive (n : Fin 2) (bs : List UInt8) (size : 0 < bs.length ∧ bs.length ≤ 2000) :
    List (Fin 2 × HostAct (Fin 2) TwoObject L) :=
  [(n, .node (.dataSocketIOCallback (twoSock n) true)),
    (n, .node (.handleEvent { recv := [.data bs size] }))]

/-- The message `i` of the table goes from `n` to the other host, where it is read in two
parts and handed to the protocol. -/
def hop (n : Fin 2) (i : UInt8) : List (Fin 2 × HostAct (Fin 2) TwoObject L) :=
  [(n, .node (.dataSocketIOCallback (twoSock n) false)),
    (n, .node (.handleEvent { send := [8, 4, 1] }))] ++
  arrive (1 - n) BLEEP_MAGIC (by decide) ++
  arrive (1 - n) (intBytes 1 ++ [i]) (show 0 < 5 ∧ 5 ≤ 2000 by decide) ++
  [(1 - n, .node (.handleEvent {})), (1 - n, .node (.handleEvent {}))]

/-- What an action that does not stop its host makes of the hosts. -/
def Fabric.next (table : List (Message (Fin 2) TwoObject)) (F : Fabric (Fin 2) TwoObject S)
    (e : Fin 2 × HostAct (Fin 2) TwoObject L) : Option (Fabric (Fin 2) TwoObject S) :=
  (F.act twoLinks app (tableArchive table) addrAd e.1 e.2).bind Except.toOption

variable {app}

theorem Fabric.act_of_next {table : List (Message (Fin 2) TwoObject)}
    {F F' : Fabric (Fin 2) TwoObject S} {e : Fin 2 × HostAct (Fin 2) TwoObject L}
    (h : F.next app table e = some F') :
    F.act twoLinks app (tableArchive table) addrAd e.1 e.2 = some (.ok F') := by
  obtain ⟨r, hr, hok⟩ := Option.bind_eq_some_iff.mp h
  cases r with
  | error _ => cases hok
  | ok _ => exact Option.some.inj hok ▸ hr

theorem steadyRun_twoHosts {table : List (Message (Fin 2) TwoObject)} {Allowed : S → X → Prop}
    {C : Fabric (Fin 2) TwoObject S → Fin 2 × HostAct (Fin 2) TwoObject L → Bool}
    (hC : ∀ F e, C F e = true → F.Steady twoLinks app (tableArchive table) addrAd e ∧
      ∀ t ∈ F.taken app e, Allowed t.1 t.2)
    {acts : List (Fin 2 × HostAct (Fin 2) TwoObject L)} {F : Fabric (Fin 2) TwoObject S}
    (h : TransSys.exec (Fabric.next app table) C (twoHosts app) acts = some F) :
    SteadyRun twoLinks app (tableArchive table) addrAd Allowed F := by
  have hnext : ∀ F e F', Fabric.next app table F e = some F' →
      (fabricSys twoLinks app (tableArchive table) addrAd).step F e F' := fun F e F' hF =>
    F.act_of_next hF
  exact (TransSys.exec_under _ C hnext acts (.start (connected_twoHosts app)) h).mono
    fun F e _ hc => hC F e hc

abbrev TwoGossips := Fabric (Fin 2) TwoObject (BL_ProtocolLayerEx1 Nat Nat)

abbrev TwoNodes := Fabric (Fin 2) TwoObject (PoWNode (Fin 2) Nat Nat)

/-- The message about `obj` from `n` to the other host. -/
def twoMsg (n : Fin 2) (obj : MessageObject Nat Nat) : Message (Fin 2) TwoObject where
  src := n
  dest := 1 - n
  type := obj.type
  ptrToObj := some (.protocol obj)
  messageId := ""

/-- Nothing is anywhere between two hosts. -/
def Fabric.empty (F : Fabric (Fin 2) TwoObject S) : Bool :=
  decide ((∀ n m, ((F.host n).peers.socketLayer.heap (twoLinks.sock n m).obj).unsent = [] ∧
      F.pipe n m = [] ∧ (F.host n).peers.socketLayer.recvBytes (twoLinks.sock n m).getFD = []) ∧
    ∀ n, (F.host n).peers.socketLayer.eventQueue = [])

theorem idle_of_empty {F : Fabric (Fin 2) TwoObject S} (h : F.empty = true) : F.Idle twoLinks := by
  obtain ⟨hlink, hqueue⟩ := of_decide_eq_true h
  refine ⟨fun n m _ => (hlink n m).1, fun n m _ => (hlink n m).2.1, fun n m _ => (hlink m n).2.2,
    ?_⟩
  intro n event hevent
  rw [hqueue] at hevent
  cases hevent

/-- A transaction is announced, asked for and sent. -/
def gossipMsgs : List (Message (Fin 2) TwoObject) :=
  let tx : SimpleTransaction Nat Nat := .make 1 2 3 0
  [twoMsg 0 (.txInv [tx.getId]), twoMsg 1 (.txGetdata [tx.getId]), twoMsg 0 (.txTxs [tx])]

def gossipActs : List (Fin 2 × HostAct (Fin 2) TwoObject (Ex1Act Nat)) :=
  [(0, .timer (.txgen 1 2 3) {}), (0, .timer .txbroadcast {})] ++ hop 0 0 ++ hop 1 1 ++ hop 0 2

theorem gossipActs_run : ∃ F : TwoGossips,
    SteadyRun twoLinks ex1Layer (tableArchive gossipMsgs) addrAd (fun _ _ => True) F ∧
      F.Idle twoLinks ∧ ∀ n, (F.host n).layer.txToBroadcast = [] ∧
        (F.host n).layer.txPool.getPendingTxNum = 1 := by
  have hrun : (TransSys.exec (Fabric.next ex1Layer gossipMsgs)
      (fun F e => decide (F.Steady twoLinks ex1Layer (tableArchive gossipMsgs) addrAd e))
      (twoHosts ex1Layer) gossipActs).map
        (fun F : TwoGossips =>
          decide (F.empty = true ∧ ∀ n, (F.host n).layer.txToBroadcast = [] ∧
            (F.host n).layer.txPool.getPendingTxNum = 1)) = some true := by decide +kernel
  obtain ⟨F, hF, hv⟩ := Option.map_eq_some_iff.mp hrun
  obtain ⟨hempty, hend⟩ := of_decide_eq_true hv
  exact ⟨F, steadyRun_twoHosts (fun _ _ hc => ⟨of_decide_eq_true hc, fun _ _ => trivial⟩) hF,
    idle_of_empty hempty, hend⟩

end Two

/-! ## The refinement -/

section Refinement

variable {P O S X L : Type} [LinearOrder P] {links : Links P} {app : ProtocolLayer P O S X L}
  {ar : Archive P O} {ads : AddrAd P O} {F : Fabric P O S} {Allowed : S → X → Prop}

/-- **What runs over the layers runs over messages.**  Every state that steady hosts come
to is a state of the network of messages whose connections keep the order and lose
nothing: the protocol layers are in the states of its processes, and take the messages
these take; nothing is in flight when nothing is in a buffer, on its way or waiting; and
if a steady host stops, a handler of the protocol stops it: the layers below do not
fail. -/
theorem fabric_simulated (happ : app.Lawful) (hads : ads.Lawful)
    (h : SteadyRun links app ar ads Allowed F) :
    ∃ c, (app.protocol links.nbrs).sys.Under
        (fun c a => Keeps a ∧ InOrder c a ∧ ∀ t ∈ c.taken a, Allowed t.1 t.2) c ∧
      (∀ n, (F.host n).layer = c.node n) ∧ (F.Idle links → c.wire = []) ∧
      ∀ e fault, F.Steady links app ar ads e →
        F.act links app ar ads e.1 e.2 = some (.error fault) →
        ∃ a, (app.protocol links.nbrs).Aborts c a fault := by
  obtain ⟨c, q, hc, hfly, hF⟩ := exists_network happ hads h
  refine ⟨c, hc, fun n => (congrFun (hF.node_eq hfly) n).symm, hF.wire_nil hfly, ?_⟩
  exact fun e fault hsteady hfault => hF.aborts happ hads hfly hsteady hfault

end Refinement

/-- Behind the run `gossipActs` there is a network with nothing left in flight. -/
theorem fabric_simulated_gossip : ∃ (F : TwoGossips)
    (c : Ex1Config (Fin 2) Nat Nat),
    SteadyRun twoLinks ex1Layer (tableArchive gossipMsgs) addrAd (fun _ _ => True) F ∧
      (ex1Sys Nat theOther).Under (fun c a => Keeps a ∧ InOrder c a) c ∧ c.wire = [] ∧
      ∀ n, (c.node n).txPool.getPendingTxNum = 1 := by
  obtain ⟨F, hF, hidle, hend⟩ := gossipActs_run
  obtain ⟨c, hc, hnode, hwire, -⟩ := fabric_simulated ex1Layer_lawful addrAd_lawful hF
  refine ⟨F, c, hF, hc.mono fun _ _ _ hcond => ⟨hcond.1, hcond.2.1⟩, hwire hidle, fun n => ?_⟩
  rw [← hnode]
  exact (hend n).2

/-! ## Proof of work -/

section PoW

variable {N H A : Type} [LinearOrder N] [LinearOrder A] [DecidableEq H] [Zero H] [Zero A]
  {sha : Sha256 H A} {links : Links N} {ar : Archive N (WireObject N H A)}
  {F : Fabric N (WireObject N H A) (PoWNode N H A)}

/-- The protocol layers of the hosts, with nothing in flight. -/
def Fabric.layers (F : Fabric N (WireObject N H A) (PoWNode N H A)) : PoWConfig N H A where
  node n := (F.host n).layer
  wire := []

/-- No inventory with a block the node lacks is taken while the node is busy with
another inventory. -/
def PoWNode.Heeds (p : PoWNode N H A) (obj : MessageObject H A) : Prop :=
  p.layer.processing = true → ∀ h ∈ obj.announced, p.layer.blocktree.containBlock h = true

instance (p : PoWNode N H A) (obj : MessageObject H A) : Decidable (p.Heeds obj) :=
  inferInstanceAs (Decidable (_ → _))

omit [LinearOrder N] [Zero H] [Zero A] in
theorem heeded_of_heeds {c : PoWConfig N H A} {a : Act N (PoWAct H A)}
    (h : ∀ t ∈ c.taken a, t.1.Heeds t.2) : Heeded c a := by
  cases a with
  | deliver i => exact fun pk hpk => h _ (Option.mem_map_of_mem _ hpk)
  | fire _ _ => trivial
  | lose _ => trivial

omit [LinearOrder N] [DecidableEq H] in
theorem distinctHashes_congr {c c' : PoWConfig N H A} (hnode : c.node = c'.node)
    (h : DistinctHashes sha c') : DistinctHashes sha c := by
  have hmint : ∀ b, Minted sha c b → Minted sha c' b := by
    rintro b (hb | ⟨n, hn⟩)
    · exact .inl hb
    · exact .inr ⟨n, hnode ▸ hn⟩
  exact fun b b' hb hb' => h b b' (hmint b hb) (hmint b' hb')

/-! ### A run of two hosts -/

abbrev nonceLayer : ProtocolLayer (Fin 2) TwoObject (PoWNode (Fin 2) Nat Nat)
    (MessageObject Nat Nat) (PoWAct Nat Nat) := powLayer nonceSha

/-- The block the first host mines. -/
def minedBlk : POWBlock Nat Nat where
  block_idx := 1
  tx_list := [.make 7 0 0 0, .make 7 1 0 0]
  block_hash := 8
  nonce := 7
  tx_hash := 2
  prev_block_hash := 1
  timestamp := 0
  difficulty := 0

/-- The block is announced, and the second host asks for the chain and for the block. -/
def fetchMsgs : List (Message (Fin 2) TwoObject) :=
  [twoMsg 0 (.blkInv [8]), twoMsg 1 (.blkGetBlocks [1]), twoMsg 0 (.blkInv [1, 8]),
    twoMsg 1 (.blkGetData 8), twoMsg 0 (.blkBlk minedBlk)]

def fetchActs : List (Fin 2 × HostAct (Fin 2) TwoObject (PoWAct Nat Nat)) :=
  [(0, .timer (.txgen 7 0 0 0) {}), (0, .timer (.txgen 7 1 0 0) {}),
    (0, .timer (.miningTimer 7 0) {}), (0, .timer .blockMiningComplete {})] ++
  hop 0 0 ++ hop 1 1 ++ hop 0 2 ++ hop 1 3 ++ hop 0 4

theorem fetchActs_run : ∃ F : TwoNodes,
    SteadyRun twoLinks nonceLayer (tableArchive fetchMsgs) addrAd PoWNode.Heeds F ∧
      DistinctHashes nonceSha F.layers ∧ F.Idle twoLinks ∧ (∀ n, (F.host n).layer.queue = []) ∧
      (F.host 1).layer.layer.blocktree.treeheight = 2 := by
  have hrun : (TransSys.exec (Fabric.next nonceLayer fetchMsgs)
      (fun F e =>
        decide (F.Steady twoLinks nonceLayer (tableArchive fetchMsgs) addrAd e ∧
          ∀ t ∈ F.taken nonceLayer e, t.1.Heeds t.2))
      (twoHosts nonceLayer) fetchActs).map
        (fun F : TwoNodes =>
          decide (((mintedList nonceSha [0, 1] F.layers).map POWBlock.block_hash).Nodup ∧
            F.empty = true ∧ (∀ n, (F.host n).layer.queue = []) ∧
            (F.host 1).layer.layer.blocktree.treeheight = 2)) = some true := by decide +kernel
  obtain ⟨F, hF, hv⟩ := Option.map_eq_some_iff.mp hrun
  obtain ⟨hnodup, hempty, hrest⟩ := of_decide_eq_true hv
  exact ⟨F, steadyRun_twoHosts (fun _ _ hc => of_decide_eq_true hc) hF,
    distinctHashes_of_nodup (by decide) hnodup, idle_of_empty hempty, hrest⟩

/-- **Hosts that run proof of work do not fail**, in any of their layers, whatever the
system calls return and whenever timers fire and watchers queue events; and the blocks
of each form a tree of minted blocks whose tip is deepest. -/
theorem pow_hosts_safe (h : SteadyRun links (powLayer sha) ar addrAd (fun _ _ => True) F)
    (hd : DistinctHashes sha F.layers) :
    (∀ e fault, F.Steady links (powLayer sha) ar addrAd e →
      F.act links (powLayer sha) ar addrAd e.1 e.2 ≠ some (.error fault)) ∧
    ∀ n, TreeOK sha (Minted sha F.layers) (F.host n).layer.layer.blocktree := by
  obtain ⟨c, q, hc, hfly, hF⟩ := exists_network (powLayer_lawful sha) addrAd_lawful h
  have hnode : c.node = F.layers.node := hF.node_eq hfly
  have hdist := distinctHashes_congr hnode hd
  have hchain : ChainOK sha c := chain_invariant hc.reach hdist
  refine ⟨?_, fun n => ?_⟩
  · intro e fault hsteady hfault
    obtain ⟨a, ha⟩ := hF.aborts (powLayer_lawful sha) addrAd_lawful hfly hsteady hfault
    exact (sync_invariant hc.reach hdist).not_aborts hchain a fault ha
  · have htree := (hchain.node n).tree
    rw [hnode] at htree
    refine htree.mono ?_
    rintro b (hb | ⟨m, hm⟩)
    · exact .inl hb
    · exact .inr ⟨m, hnode ▸ hm⟩

theorem pow_hosts_safe_two : ∃ F : TwoNodes,
    SteadyRun twoLinks nonceLayer (tableArchive fetchMsgs) addrAd (fun _ _ => True) F ∧
      (F.host 1).layer.layer.blocktree.treeheight = 2 ∧
      TreeOK nonceSha (Minted nonceSha F.layers) (F.host 1).layer.layer.blocktree := by
  obtain ⟨F, hF, hdist, -, -, hheight⟩ := fetchActs_run
  have hF' : SteadyRun twoLinks nonceLayer (tableArchive fetchMsgs) addrAd
      (fun _ _ => True) F := hF.mono fun _ _ _ hc => ⟨hc.1, fun _ _ => trivial⟩
  exact ⟨F, hF', hheight, (pow_hosts_safe hF' hdist).2 1⟩

/-- **Blocks propagate over sockets**: when hosts that heed every inventory are idle and
no mined block is queued, connected hosts have trees of one height. -/
theorem pow_hosts_converge (h : SteadyRun links (powLayer sha) ar addrAd PoWNode.Heeds F)
    (hd : DistinctHashes sha F.layers) (hidle : F.Idle links)
    (hqueue : ∀ n, (F.host n).layer.queue = []) {n m : N} (hm : m ∈ links.nbrs n) :
    (F.host n).layer.layer.blocktree.treeheight = (F.host m).layer.layer.blocktree.treeheight := by
  obtain ⟨c, q, hc, hfly, hF⟩ := exists_network (powLayer_lawful sha) addrAd_lawful h
  have hnode : c.node = F.layers.node := hF.node_eq hfly
  have hdist := distinctHashes_congr hnode hd
  have hwire : c.wire = [] := hF.wire_nil hfly hidle
  have hheed : (powSys sha links.nbrs).Under (fun c a => Keeps a ∧ Heeded c a) c :=
    hc.mono fun _ _ _ hcond => ⟨hcond.1, heeded_of_heeds hcond.2.2⟩
  have hquiet : Quiescent c := by
    refine ⟨fun pk hpk => ?_, fun x => ?_⟩
    · rw [hwire] at hpk
      cases hpk
    · rw [hnode]
      exact hqueue x
  have hle : ∀ {x y : N}, y ∈ links.nbrs x →
      (F.host x).layer.layer.blocktree.treeheight ≤
        (F.host y).layer.layer.blocktree.treeheight := by
    intro x y hy
    have := height_le_of_quiescent hheed hdist hquiet hy
    rw [tree, tree, hnode] at this
    exact this
  exact le_antisymm (hle hm) (hle (links.symm hm))

theorem pow_hosts_converge_two : ∃ F : TwoNodes,
    SteadyRun twoLinks nonceLayer (tableArchive fetchMsgs) addrAd PoWNode.Heeds F ∧
      (F.host 0).layer.layer.blocktree.treeheight = 2 := by
  obtain ⟨F, hF, hdist, hidle, hqueue, hheight⟩ := fetchActs_run
  have heq := pow_hosts_converge hF hdist hidle hqueue (n := 0) (m := 1) (by decide)
  exact ⟨F, hF, heq.trans hheight⟩

end PoW

/-! ## Transaction gossip -/

/-- **Pools agree over sockets**: no host fails, and when the hosts are idle and have
announced all they generated, connected hosts have the same transactions. -/
theorem gossip_hosts_agree {N H A : Type} [LinearOrder N] [LinearOrder A] [DecidableEq H] [Zero H]
    {links : Links N} {ar : Archive N (WireObject N H A)}
    {F : Fabric N (WireObject N H A) (BL_ProtocolLayerEx1 H A)}
    (h : SteadyRun links ex1Layer ar addrAd (fun _ _ => True) F) :
    (∀ e fault, F.Steady links ex1Layer ar addrAd e →
      F.act links ex1Layer ar addrAd e.1 e.2 ≠ some (.error fault)) ∧
    (F.Idle links → (∀ n, (F.host n).layer.txToBroadcast = []) → ∀ n, ∀ m ∈ links.nbrs n,
      (F.host n).layer.txids = (F.host m).layer.txids) := by
  obtain ⟨c, q, hc, hfly, hF⟩ := exists_network ex1Layer_lawful addrAd_lawful h
  have hnode := hF.node_eq hfly
  refine ⟨?_, ?_⟩
  · intro e fault hsteady hfault
    obtain ⟨a, ha⟩ := hF.aborts ex1Layer_lawful addrAd_lawful hfly hsteady hfault
    -- the handlers of this protocol have no way to fail
    cases ha with
    | @fire n l _ hf => cases l <;> cases hf
    | deliver _ hf => cases hf
  · intro hidle hqueue n m hm
    have hwire : ∀ pk ∈ c.wire, pk.body.isPOWBlock = true := by
      intro pk hpk
      rw [hF.wire_nil hfly hidle] at hpk
      cases hpk
    have hkeep : (ex1Sys H links.nbrs).Under (fun _ a => Keeps a) c :=
      hc.mono fun _ _ _ hcond => hcond.1
    obtain ⟨hb, hp⟩ := Gossip.paid_of_under hkeep
    have hsub : ∀ {x y : N}, y ∈ links.nbrs x →
        (F.host x).layer.txids ⊆ (F.host y).layer.txids := by
      intro x y hy
      have hqueue' : ∀ k, (c.node k).txToBroadcast = [] := fun k => by
        rw [hnode]
        exact hqueue k
      have := Gossip.txids_subset hb hp hwire hqueue' hy
      rwa [hnode] at this
    exact (hsub hm).antisymm (hsub (links.symm hm))

theorem gossip_hosts_agree_two : ∃ F : TwoGossips,
    SteadyRun twoLinks ex1Layer (tableArchive gossipMsgs) addrAd (fun _ _ => True) F ∧
      (F.host 1).layer.txPool.getPendingTxNum = 1 ∧
      (F.host 0).layer.txids = (F.host 1).layer.txids := by
  obtain ⟨F, hF, hidle, hend⟩ := gossipActs_run
  exact ⟨F, hF, (hend 1).2,
    (gossip_hosts_agree hF).2 hidle (fun n => (hend n).1) 0 1 (by decide)⟩

end Bleep
