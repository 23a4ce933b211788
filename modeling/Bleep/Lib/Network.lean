/-
# `Bleep.Lib.Network` — message-passing networks of handler-driven processes

Every process is a state `S`, a handler for one received message and a list of
local actions `L` (timers, queued work).  A handler answers with the new state
and the messages it sends, or stops the process with a fault `ε`.  Messages in
flight form one list, in the order they were sent; the environment delivers
any of them, or loses one.

Delivery orders and reliability are conditions on the actions of a run
(`InOrder`, `Keeps`), not different systems: `TransSys.Under` carries them.
-/
import Bleep.Lib.TransSys

/-- A message in flight. -/
structure Packet (N P : Type) where
  src : N
  dest : N
  body : P
  deriving DecidableEq, Repr

/-- A protocol: how a process starts, what its local actions do (`none`: not
enabled) and how it handles a message (`recv me source body`). -/
structure Protocol (N S P L ε : Type) where
  start : N → S
  fire : N → L → S → Option (Except ε (S × List (N × P)))
  recv : N → N → P → S → Except ε (S × List (N × P))

namespace Protocol

/-! The processes of a network of two or three can be named by numerals. -/

instance neZero_two : NeZero 2 := ⟨by decide⟩

instance neZero_three : NeZero 3 := ⟨by decide⟩

variable {N S P L ε : Type} [DecidableEq N]

/-- The state of a network: its processes and the messages in flight. -/
structure Config (N S P : Type) where
  node : N → S
  wire : List (Packet N P)

/-- What can happen in a network. -/
inductive Act (N L : Type) where
  | fire (n : N) (l : L)
  | deliver (i : Nat)
  | lose (i : Nat)
  deriving DecidableEq, Repr

/-- Address the messages a handler of `n` sends. -/
def packets (n : N) (out : List (N × P)) : List (Packet N P) :=
  out.map fun x => ⟨n, x.1, x.2⟩

/-- Process `n` goes to `s` and sends `out`; of the messages in flight, `w` are
still there. -/
def Config.post (c : Config N S P) (n : N) (s : S) (out : List (N × P))
    (w : List (Packet N P)) : Config N S P :=
  { node := Function.update c.node n s, wire := w ++ packets n out }

omit [DecidableEq N] in
theorem mem_packets {n : N} {out : List (N × P)} {pk : Packet N P} :
    pk ∈ packets n out ↔ pk.src = n ∧ (pk.dest, pk.body) ∈ out := by
  simp only [packets, List.mem_map]
  constructor
  · rintro ⟨x, hx, rfl⟩
    exact ⟨rfl, hx⟩
  · rintro ⟨rfl, h⟩
    exact ⟨(pk.dest, pk.body), h, rfl⟩

namespace Config

variable (c : Config N S P) (n : N) (s : S) (out : List (N × P)) (w : List (Packet N P))

@[simp] theorem post_node_self : (c.post n s out w).node n = s := by
  simp [post]

@[simp] theorem post_node_of_ne {m : N} (h : m ≠ n) : (c.post n s out w).node m = c.node m := by
  simp [post, h]

@[simp] theorem post_wire : (c.post n s out w).wire = w ++ packets n out := rfl

theorem mem_post_wire {pk : Packet N P} :
    pk ∈ (c.post n s out w).wire ↔ pk ∈ w ∨ (pk.src = n ∧ (pk.dest, pk.body) ∈ out) := by
  rw [post_wire, List.mem_append, mem_packets]

/-- What is shown of the process that moved and of the others holds of all. -/
theorem forall_post {R : N → S → Prop} (hn : R n s) (hm : ∀ m, m ≠ n → R m (c.node m)) (m : N) :
    R m ((c.post n s out w).node m) := by
  by_cases h : m = n
  · subst h
    rw [post_node_self]
    exact hn
  · rw [post_node_of_ne _ _ _ _ _ h]
    exact hm m h

end Config

variable (pr : Protocol N S P L ε)

/-- One step of the network. -/
inductive Step : Config N S P → Act N L → Config N S P → Prop
  | fire {c : Config N S P} {n : N} {l : L} {s : S} {out : List (N × P)} :
      pr.fire n l (c.node n) = some (.ok (s, out)) →
      Step c (.fire n l) (c.post n s out c.wire)
  | deliver {c : Config N S P} {i : Nat} {pk : Packet N P} {s : S} {out : List (N × P)} :
      c.wire[i]? = some pk →
      pr.recv pk.dest pk.src pk.body (c.node pk.dest) = .ok (s, out) →
      Step c (.deliver i) (c.post pk.dest s out (c.wire.eraseIdx i))
  | lose {c : Config N S P} {i : Nat} :
      i < c.wire.length → Step c (.lose i) { c with wire := c.wire.eraseIdx i }

/-- The network as a transition system: nothing is in flight at the start. -/
def sys : TransSys (Config N S P) (Act N L) where
  init c := c = { node := pr.start, wire := [] }
  step := pr.Step

/-- `pr.Aborts c a e`: the action stops its process with the fault `e`. -/
inductive Aborts : Config N S P → Act N L → ε → Prop
  | fire {c : Config N S P} {n : N} {l : L} {e : ε} :
      pr.fire n l (c.node n) = some (.error e) → Aborts c (.fire n l) e
  | deliver {c : Config N S P} {i : Nat} {pk : Packet N P} {e : ε} :
      c.wire[i]? = some pk → pr.recv pk.dest pk.src pk.body (c.node pk.dest) = .error e →
      Aborts c (.deliver i) e

/-! ## Conditions on runs -/

/-- Connections lose nothing. -/
def Keeps : Act N L → Prop
  | .lose _ => False
  | _ => True

instance : DecidablePred (Keeps : Act N L → Prop)
  | .lose _ => isFalse id
  | .fire _ _ => isTrue trivial
  | .deliver _ => isTrue trivial

/-- Every connection delivers in the order of sending: no earlier message in
flight has the same source and destination. -/
def InOrder (c : Config N S P) : Act N L → Prop
  | .deliver i => ∀ pk ∈ c.wire[i]?, ∀ q ∈ c.wire.take i, q.src = pk.src → q.dest ≠ pk.dest
  | _ => True

instance (c : Config N S P) : DecidablePred (InOrder c : Act N L → Prop)
  | .deliver i => inferInstanceAs
      (Decidable (∀ pk ∈ c.wire[i]?, ∀ q ∈ c.wire.take i, q.src = pk.src → q.dest ≠ pk.dest))
  | .fire _ _ => isTrue trivial
  | .lose _ => isTrue trivial

/-! ## Executing actions -/

/-- The step as a function, for running concrete schedules. -/
def next (c : Config N S P) : Act N L → Option (Config N S P)
  | .fire n l =>
      match pr.fire n l (c.node n) with
      | some (.ok (s, out)) => some (c.post n s out c.wire)
      | _ => none
  | .deliver i =>
      match c.wire[i]? with
      | none => none
      | some pk =>
          match pr.recv pk.dest pk.src pk.body (c.node pk.dest) with
          | .ok (s, out) => some (c.post pk.dest s out (c.wire.eraseIdx i))
          | .error _ => none
  | .lose i => if i < c.wire.length then some { c with wire := c.wire.eraseIdx i } else none

theorem step_of_next {c : Config N S P} {a : Act N L} {c' : Config N S P}
    (h : pr.next c a = some c') : pr.Step c a c' := by
  cases a with
  | fire n l =>
      simp only [next] at h
      split at h
      · next s out hf =>
          simp only [Option.some.injEq] at h
          exact h ▸ .fire hf
      · exact nomatch h
  | deliver i =>
      simp only [next] at h
      split at h
      · exact nomatch h
      · next pk hpk =>
          split at h
          · next s out hr =>
              simp only [Option.some.injEq] at h
              exact h ▸ .deliver hpk hr
          · exact nomatch h
  | lose i =>
      simp only [next] at h
      split at h
      · next hi =>
          simp only [Option.some.injEq] at h
          exact h ▸ .lose hi
      · exact nomatch h

/-- Run a schedule from the start, testing `C` before each action. -/
def run (C : Config N S P → Act N L → Bool) (acts : List (Act N L)) : Option (Config N S P) :=
  TransSys.exec pr.next C { node := pr.start, wire := [] } acts

theorem run_under {C : Config N S P → Act N L → Bool} {acts : List (Act N L)} {c : Config N S P}
    (h : pr.run C acts = some c) : pr.sys.Under (fun s a => C s a = true) c :=
  TransSys.exec_under pr.next C (fun _ _ _ => pr.step_of_next) acts (.start rfl) h

/-! ## The messages in flight -/

omit [DecidableEq N] in
theorem wire_perm {w : List (Packet N P)} {i : Nat} {pk : Packet N P} (h : w[i]? = some pk) :
    (pk :: w.eraseIdx i).Perm w := by
  obtain ⟨hi, rfl⟩ := List.getElem?_eq_some_iff.mp h
  exact List.getElem_cons_eraseIdx_perm hi

omit [DecidableEq N] in
theorem mem_of_wire {w : List (Packet N P)} {i : Nat} {pk : Packet N P} (h : w[i]? = some pk) :
    pk ∈ w := List.mem_of_getElem? h

omit [DecidableEq N] in
theorem mem_of_mem_eraseIdx {w : List (Packet N P)} {i : Nat} {pk : Packet N P}
    (h : pk ∈ w.eraseIdx i) : pk ∈ w := List.mem_of_mem_eraseIdx h

omit [DecidableEq N] in
theorem mem_wire_cases {w : List (Packet N P)} {i : Nat} {pk q : Packet N P}
    (h : w[i]? = some pk) (hq : q ∈ w) : q = pk ∨ q ∈ w.eraseIdx i :=
  List.mem_cons.mp ((wire_perm h).mem_iff.mpr hq)

omit [DecidableEq N] in
theorem countP_wire {w : List (Packet N P)} {i : Nat} {pk : Packet N P} (h : w[i]? = some pk)
    (p : Packet N P → Bool) :
    w.countP p = (w.eraseIdx i).countP p + if p pk then 1 else 0 := by
  rw [← (wire_perm h).countP_eq p, List.countP_cons]

end Protocol
