/-
# `Bleep.BL2.AddrSelection` — the trials of one outgoing-connection tick

`_timerCallback` makes up to ten trials, each with an address that
`SelectAddressFromTable` draws from the address table.  The table shuffles its ids with a
copy of the global engine, so the engine is where it was when the next trial starts, and
nothing else of a trial moves it: all trials of a tick draw the same address
(`selections_eq`).

A tick whose first address is a peer already therefore does nothing
(`timerCallback_hit`), although the loop is there to go on with another address.
-/
import Bleep.BL2.AddrManager
import Bleep.BL2.PeerConnectivityLayer

namespace Bleep

variable {P O G : Type} [LinearOrder P] [Inhabited P]

/-- What `SelectAddressFromTable` returns in the trials of a tick, one after the other. -/
def AddrManager.selections (sh : Shuffle G) : Nat → G → AddrManager P → List (Option P)
  | 0, _, _ => []
  | trials + 1, rng, m =>
      let (addr, m, rng) := m.selectAddressFromTable sh rng
      addr.map Address.addr :: selections sh trials rng m

namespace BL_PeerConnectivityLayer_API

/-- The id is that of a peer that is active or being connected to. -/
def isCurrentPeer (N : BL_PeerConnectivityLayer_API P O) (id : P) : Bool :=
  (N.peerManager.findPeer id).any fun peer => peer.isActive || peer.isTryConnect

/-- The trial that comes to `ConnectPeer`, counted from 0, and whom it connects to. -/
def connects (N : BL_PeerConnectivityLayer_API P O) : List (Option P) → Option (Nat × P)
  | [] => none
  | none :: selected => (N.connects selected).map fun (trial, id) => (trial + 1, id)
  | some addr :: selected =>
      if (N.peerManager.findPeer addr).isNone then some (0, addr)
      else if N.isCurrentPeer addr then
        (N.connects selected).map fun (trial, id) => (trial + 1, id)
      else none

/-- The periodic outgoing-connection update, with the addresses drawn from the table. -/
def outgoingTick (sh : Shuffle G) (rng : G) (addrManager : AddrManager P)
    (N : BL_PeerConnectivityLayer_API P O) (answer : BL_SocketLayer_API.ConnectAnswer) :
    Except Fault (BL_PeerConnectivityLayer_API P O) :=
  N.timerCallback (addrManager.selections sh 10 rng) answer

end BL_PeerConnectivityLayer_API

/-! ## What a selection leaves -/

omit [LinearOrder P] in
/-- A selection moves neither the table nor the global engine. -/
theorem AddrManager.selectAddressFromTable_snd (sh : Shuffle G) (rng : G) (m : AddrManager P) :
    (m.selectAddressFromTable sh rng).2 = (m, rng) := by
  rw [selectAddressFromTable]
  split
  · rfl
  · next h =>
      have hmem := (sh.perm rng m.vIds).mem_iff.mp (List.head_mem (sh.ne_nil rng h))
      obtain ⟨a, ha⟩ := mem_vIds.mp hmem
      simp only [subscript, ha]

omit [LinearOrder P] in
/-- All trials of a tick draw the same address. -/
theorem AddrManager.selections_eq (sh : Shuffle G) (rng : G) (m : AddrManager P) (trials : Nat) :
    m.selections sh trials rng
      = List.replicate trials ((m.selectAddressFromTable sh rng).1.map Address.addr) := by
  induction trials with
  | zero => rfl
  | succ trials ih =>
      obtain ⟨addr, hsel⟩ : ∃ addr, m.selectAddressFromTable sh rng = (addr, m, rng) :=
        ⟨_, Prod.ext rfl (selectAddressFromTable_snd sh rng m)⟩
      rw [hsel] at ih
      rw [selections, hsel, List.replicate_succ, ← ih]

namespace BL_PeerConnectivityLayer_API

variable {N : BL_PeerConnectivityLayer_API P O}

omit [Inhabited P] in
theorem trials_connects {answer : BL_SocketLayer_API.ConnectAnswer} {selected : List (Option P)}
    {trial : Nat} {id : P} (h : N.connects selected = some (trial, id)) :
    N.trials answer selected = (N.connectPeer id answer).map Prod.snd := by
  induction selected generalizing trial with
  | nil => cases h
  | cons o selected ih =>
      cases o with
      | none =>
          obtain ⟨⟨t, i⟩, hrest, he⟩ := Option.map_eq_some_iff.mp h
          obtain ⟨-, rfl⟩ := Prod.mk.inj he
          exact ih hrest
      | some addr =>
          rw [connects] at h
          rw [trials]
          cases hf : N.peerManager.findPeer addr with
          | none =>
              rw [hf, Option.isNone_none, if_pos rfl] at h
              obtain ⟨-, rfl⟩ := Prod.mk.inj (Option.some.inj h)
              cases N.connectPeer addr answer <;> rfl
          | some peer =>
              rw [hf, Option.isNone_some, if_neg Bool.false_ne_true] at h
              have hpeer : N.isCurrentPeer addr = (peer.isActive || peer.isTryConnect) := by
                rw [isCurrentPeer, hf, Option.any_some]
              split at h
              case isFalse => cases h
              case isTrue hcur =>
                obtain ⟨⟨t, i⟩, hrest, he⟩ := Option.map_eq_some_iff.mp h
                obtain ⟨-, rfl⟩ := Prod.mk.inj he
                rw [hpeer, Bool.or_eq_true] at hcur
                simp only
                split
                · exact ih hrest
                · next hact =>
                    rw [if_pos (hcur.resolve_left hact)]
                    exact ih hrest

omit [Inhabited P] in
theorem trials_replicate {id : P} (h : N.isCurrentPeer id = true)
    (answer : BL_SocketLayer_API.ConnectAnswer) (trials : Nat) :
    N.connects (List.replicate trials (some id)) = none
      ∧ N.trials answer (List.replicate trials (some id)) = .ok N := by
  obtain ⟨peer, hf, hcur⟩ := (Option.any_eq_true _ _).mp h
  induction trials with
  | zero => exact ⟨rfl, rfl⟩
  | succ trials ih =>
      rw [List.replicate_succ]
      refine ⟨?_, ?_⟩
      · rw [connects, hf, Option.isNone_some, if_neg Bool.false_ne_true, if_pos h, ih.1]
        rfl
      · rw [BL_PeerConnectivityLayer_API.trials, hf]
        rw [Bool.or_eq_true] at hcur
        simp only
        split
        · exact ih.2
        · next hact =>
            rw [if_pos (hcur.resolve_left hact)]
            exact ih.2

/-- A tick whose first address is a current peer leaves the node as it is. -/
theorem outgoingTick_hit (sh : Shuffle G) {rng : G} {m : AddrManager P} {addr : Address P}
    (hsel : (m.selectAddressFromTable sh rng).1 = some addr)
    (hpeer : N.isCurrentPeer addr.addr = true) (answer : BL_SocketLayer_API.ConnectAnswer) :
    N.connects (m.selections sh 10 rng) = none ∧ N.outgoingTick sh rng m answer = .ok N := by
  have hten := trials_replicate hpeer answer 10
  rw [outgoingTick, timerCallback, AddrManager.selections_eq, hsel, Option.map_some]
  refine ⟨hten.1, ?_⟩
  split
  · exact hten.2
  · rfl

/-- From some state of the global engine the first address of a tick is a current peer, and
a later trial of the tick comes to `ConnectPeer` with one that is not in the table of peers. -/
def RetryConnects (sh : Shuffle G) (m : AddrManager P) (N : BL_PeerConnectivityLayer_API P O) :
    Prop :=
  ∃ rng addr trial id, (m.selectAddressFromTable sh rng).1 = some addr
    ∧ N.isCurrentPeer addr.addr = true
    ∧ N.connects (m.selections sh 10 rng) = some (trial, id) ∧ N.peerManager.findPeer id = none

/-- No retry of a tick ever connects to anybody. -/
theorem no_retryConnects (sh : Shuffle G) (m : AddrManager P)
    (N : BL_PeerConnectivityLayer_API P O) :
    ¬ RetryConnects sh m N := by
  rintro ⟨rng, addr, trial, id, hsel, hpeer, hconn, -⟩
  rw [(outgoingTick_hit sh hsel hpeer .noAddress).1] at hconn
  cases hconn

end BL_PeerConnectivityLayer_API

/-! ## A table with a peer and another address -/

section Example

open AddrManager BL_PeerConnectivityLayer_API

/-- An engine that is any choice of orders. -/
def anyOrder : Shuffle ((ids : List Int) → { order : List Int // order.Perm ids }) where
  shuffle rng ids := ((rng ids).1, rng)
  perm rng ids := (rng ids).2

/-- Every order comes from some state of the engine. -/
def Shuffle.Every (sh : Shuffle G) : Prop :=
  ∀ ids order : List Int, order.Perm ids → ∃ rng, (sh.shuffle rng ids).1 = order

theorem anyOrder_every : anyOrder.Every := by
  intro ids order h
  refine ⟨fun x => if hx : x = ids then ⟨order, hx ▸ h⟩ else ⟨x, .refl x⟩, ?_⟩
  show (dite _ _ _ : { order : List Int // order.Perm ids }).1 = order
  rw [dif_pos rfl]

/-- A digest that repeats the first byte. -/
def firstByte : AddrHash Nat where
  sha256 data := Vector.replicate 32 (data.headD 0)
  bytes n := [UInt8.ofNat n]

/-- Node 0 is connecting to node 1. -/
def connectingNode : BL_PeerConnectivityLayer_API Nat Unit := (init 0 0 0).opened 1 5

/-- The tables that hold a current peer and an address that is no peer are not all ones
from which a retry can connect. -/
theorem retryConnects_fails :
    ¬ ∀ (sh : Shuffle ((ids : List Int) → { order : List Int // order.Perm ids }))
    (H : AddrHash Nat)
        (calls : List (UInt64 × Address Nat)) (m : AddrManager Nat)
        (N : BL_PeerConnectivityLayer_API Nat Unit), sh.Every → new.addAll H calls = .ok m →
        (∃ id, m.Stores id ∧ N.isCurrentPeer id = true) →
        (∃ id, m.Stores id ∧ N.peerManager.findPeer id = none) → RetryConnects sh m N := by
  intro h
  have hslots : slotOf firstByte 2 ≠ slotOf firstByte 1 :=
    fun he => absurd (congrArg (fun slot => slot.1.val) he) (by decide)
  have hadd : new.addAll firstByte [(0, ⟨1, 0⟩), (0, ⟨2, 0⟩)]
      = .ok ((new.inserting (slotOf firstByte 1) ⟨1, 0⟩).inserting
          (slotOf firstByte 2) ⟨2, 0⟩) := by
    refine bind_ok.mpr ⟨_, add_free rfl, bind_ok.mpr ⟨_, add_free ?_, rfl⟩⟩
    rw [vvNew_inserting, Prod.mk.eta, if_neg hslots]
    rfl
  have hfind (id : Nat) : connectingNode.peerManager.findPeer id
      = if id = 1 then some ((Peer.outgoing 1 ⟨0, 5, some 1⟩).setTryConnect) else none := by
    refine (PeerManager.findPeer_addPeer id).trans (if_congr Iff.rfl rfl ?_)
    exact PeerManager.findPeer_new _ _ _ _
  have hone : connectingNode.isCurrentPeer 1 = true := by
    rw [isCurrentPeer, hfind]
    rfl
  have htwo : connectingNode.peerManager.findPeer 2 = none := hfind 2
  obtain ⟨rng, addr, trial, id, hsel, hpeer, hconn, -⟩ := h anyOrder firstByte _ _ connectingNode
    anyOrder_every hadd
    ⟨1, ⟨0, ⟨1, 0⟩, by rw [getElem?_inserting, getElem?_inserting]; rfl, rfl⟩, hone⟩
    ⟨2, ⟨1, ⟨2, 0⟩, by rw [getElem?_inserting]; rfl, rfl⟩, htwo⟩
  rw [(outgoingTick_hit anyOrder hsel hpeer .noAddress).1] at hconn
  cases hconn

end Example

end Bleep
