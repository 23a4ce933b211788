/-
# `Bleep.Lib.Fifo` — networks with a queue for every connection

In `Bleep.Lib.Network` the messages in flight are one list, and that connections
keep the order and lose nothing is a condition on runs.  An implementation has
no such list: it has a queue for every ordered pair of processes.  Here is the
network of queues, and the simulation of it by the network with one list
(`Fifo.simulated`).  Something that implements the queues therefore inherits what
was proved of all runs with `Keeps` and `InOrder`.
-/
import Bleep.Lib.Delivery

namespace Protocol

variable {N S P L ε : Type} [DecidableEq N]

/-- The processes, and the messages from `a` to `b` that were not yet handled. -/
structure Queues (N S P : Type) where
  node : N → S
  chan : N → N → List P

inductive FifoAct (N L : Type) where
  | fire (n : N) (l : L)
  | deliver (src dest : N)

/-- What a handler sends to `m`. -/
def sentTo (out : List (N × P)) (m : N) : List P := (out.filter (·.1 = m)).map Prod.snd

/-- Process `n` goes to `s` and sends `out`. -/
def Queues.post (q : Queues N S P) (n : N) (s : S) (out : List (N × P))
    (chan : N → N → List P) : Queues N S P where
  node := Function.update q.node n s
  chan a b := if a = n then chan a b ++ sentTo out b else chan a b

/-- The queues after the oldest message from `src` to `dest` was taken. -/
def Queues.pop (q : Queues N S P) (src dest : N) (rest : List P) (a b : N) : List P :=
  if a = src ∧ b = dest then rest else q.chan a b

variable (pr : Protocol N S P L ε)

inductive FifoStep : Queues N S P → FifoAct N L → Queues N S P → Prop
  | fire {q : Queues N S P} {n : N} {l : L} {s : S} {out : List (N × P)} :
      pr.fire n l (q.node n) = some (.ok (s, out)) →
      FifoStep q (.fire n l) (q.post n s out q.chan)
  | deliver {q : Queues N S P} {src dest : N} {o : P} {rest : List P} {s : S}
      {out : List (N × P)} : q.chan src dest = o :: rest →
      pr.recv dest src o (q.node dest) = .ok (s, out) →
      FifoStep q (.deliver src dest) (q.post dest s out (q.pop src dest rest))

/-- The network of queues: all of them are empty at the start. -/
def fifo : TransSys (Queues N S P) (FifoAct N L) where
  init q := q = { node := pr.start, chan := fun _ _ => [] }
  step := pr.FifoStep

/-- The message that is taken in an action, and the state of the process that takes it. -/
def Queues.taken (q : Queues N S P) : FifoAct N L → Option (S × P)
  | .deliver src dest => (q.chan src dest).head?.map fun o => (q.node dest, o)
  | .fire _ _ => none

def Config.taken (c : Config N S P) : Act N L → Option (S × P)
  | .deliver i => c.wire[i]?.map fun pk => (c.node pk.dest, pk.body)
  | _ => none

/-- The action stops its process. -/
inductive FifoAborts : Queues N S P → FifoAct N L → ε → Prop
  | fire {q : Queues N S P} {n : N} {l : L} {e : ε} :
      pr.fire n l (q.node n) = some (.error e) → FifoAborts q (.fire n l) e
  | deliver {q : Queues N S P} {src dest : N} {o : P} {rest : List P} {e : ε} :
      q.chan src dest = o :: rest → pr.recv dest src o (q.node dest) = .error e →
      FifoAborts q (.deliver src dest) e

/-! ## The messages of one connection -/

/-- The message goes from `a` to `b`. -/
def Packet.Goes (a b : N) (pk : Packet N P) : Bool := decide (pk.src = a ∧ pk.dest = b)

/-- The messages in flight from `a` to `b`, in order. -/
def between (w : List (Packet N P)) (a b : N) : List P :=
    (w.filter (Packet.Goes a b)).map Packet.body

theorem between_append (w w' : List (Packet N P)) (a b : N) :
    between (w ++ w') a b = between w a b ++ between w' a b := by
  rw [between, List.filter_append, List.map_append, between, between]

theorem between_packets (n : N) (out : List (N × P)) (a b : N) :
    between (packets n out) a b = if a = n then sentTo out b else [] := by
  induction out with
  | nil => simp [between, packets, sentTo]
  | cons x out ih =>
      have hcons : packets n (x :: out) = [⟨n, x.1, x.2⟩] ++ packets n out := rfl
      rw [hcons, between_append, ih]
      by_cases ha : a = n
      · by_cases hb : x.1 = b
        · simp [between, Packet.Goes, sentTo, ha, hb]
        · simp [between, Packet.Goes, sentTo, ha, hb]
      · simp [between, Packet.Goes, ha, Ne.symm ha]

/-- The oldest message of a connection, and what is in flight without it. -/
theorem exists_oldest {w : List (Packet N P)} {src dest : N} {o : P} {rest : List P}
    (h : between w src dest = o :: rest) : ∃ i, w[i]? = some ⟨src, dest, o⟩ ∧
      (∀ pk ∈ w.take i, pk.src = src → pk.dest ≠ dest) ∧
      ∀ a b, between (w.eraseIdx i) a b = if a = src ∧ b = dest then rest else between w a b := by
  induction w with
  | nil => cases h
  | cons pk w ih =>
      have hcons : ∀ a b, between (pk :: w) a b = between [pk] a b ++ between w a b := fun a b =>
        between_append [pk] w a b
      by_cases hgoes : pk.src = src ∧ pk.dest = dest
      · obtain ⟨rfl, rfl⟩ := hgoes
        have hone : between [pk] pk.src pk.dest = [pk.body] := by simp [between, Packet.Goes]
        rw [hcons, hone, List.singleton_append] at h
        obtain ⟨rfl, rfl⟩ := List.cons.inj h
        refine ⟨0, rfl, fun _ hx => (nomatch hx), fun a b => ?_⟩
        rw [List.eraseIdx_cons_zero]
        split
        · next hab => rw [hab.1, hab.2]
        · next hab =>
            have hnone : between [pk] a b = [] := by
              have hab' : ¬ (pk.src = a ∧ pk.dest = b) := fun h => hab ⟨h.1.symm, h.2.symm⟩
              simpa [between, Packet.Goes] using hab'
            rw [hcons, hnone, List.nil_append]
      · have hnone : between [pk] src dest = [] := by simpa [between, Packet.Goes] using hgoes
        rw [hcons, hnone, List.nil_append] at h
        obtain ⟨i, hi, hbefore, hrest⟩ := ih h
        refine ⟨i + 1, hi, ?_, fun a b => ?_⟩
        · intro x hx hsrc hdest
          rcases List.mem_cons.mp hx with rfl | hx
          · exact hgoes ⟨hsrc, hdest⟩
          · exact hbefore x hx hsrc hdest
        · rw [List.eraseIdx_cons_succ, ← List.singleton_append, between_append, hrest, hcons a b]
          split
          · next hab => rw [hab.1, hab.2, hnone, List.nil_append]
          · rfl

/-! ## The simulation -/

/-- The same processes, and the same messages in flight on every connection. -/
structure Config.Flies (c : Config N S P) (q : Queues N S P) : Prop where
  node : c.node = q.node
  chan : ∀ a b, between c.wire a b = q.chan a b

variable {pr} {c : Config N S P} {q q' : Queues N S P}

theorem Config.Flies.post (h : c.Flies q) (n : N) (s : S) (out : List (N × P))
    {w : List (Packet N P)} {chan : N → N → List P} (hw : ∀ a b, between w a b = chan a b) :
    (c.post n s out w).Flies (q.post n s out chan) where
  node := by rw [Config.post, Queues.post, h.node]
  chan a b := by
    rw [Config.post_wire, between_append, between_packets, hw]
    simp only [Queues.post]
    split
    · rfl
    · rw [List.append_nil]

theorem Config.Flies.deliver (h : c.Flies q) {src dest : N}
    (hs : pr.FifoStep q (.deliver src dest) q') :
    ∃ i c', InOrder c (.deliver i : Act N L) ∧
      c.taken (.deliver i : Act N L) = q.taken (.deliver src dest : FifoAct N L) ∧
      pr.Step c (.deliver i) c' ∧ c'.Flies q' := by
  cases hs with
  | @deliver _ _ o rest s out hchan hr =>
      obtain ⟨i, hi, hbefore, hrest⟩ := exists_oldest ((h.chan src dest).trans hchan)
      rw [← h.node] at hr
      refine ⟨i, _, fun pk hpk => ?_, ?_, .deliver hi hr, h.post dest s out ?_⟩
      · obtain rfl := Option.some.inj (hi.symm.trans hpk)
        exact hbefore
      · rw [Config.taken, Queues.taken, hi, hchan, h.node]
        rfl
      · intro a b
        rw [hrest, Queues.pop, h.chan]

theorem Config.Flies.step (h : c.Flies q) {a : FifoAct N L} (hs : pr.FifoStep q a q') :
    ∃ a' c', Keeps a' ∧ InOrder c a' ∧ c.taken a' = q.taken a ∧ pr.Step c a' c' ∧
      c'.Flies q' := by
  cases a with
  | fire n l =>
      cases hs with
      | @fire _ _ s out hf =>
          rw [← h.node] at hf
          exact ⟨.fire n l, _, trivial, trivial, rfl, .fire hf, h.post n s out h.chan⟩
  | deliver src dest =>
      obtain ⟨i, c', horder, htaken, hstep, hfly⟩ := h.deliver hs
      exact ⟨.deliver i, c', trivial, horder, htaken, hstep, hfly⟩

theorem Config.Flies.aborts (h : c.Flies q) {a : FifoAct N L} {e : ε} (ha : pr.FifoAborts q a e) :
    ∃ a', pr.Aborts c a' e := by
  cases ha with
  | fire hf => exact ⟨_, .fire (h.node ▸ hf)⟩
  | @deliver src dest o rest _ hchan hr =>
      obtain ⟨i, hi, -⟩ := exists_oldest ((h.chan src dest).trans hchan)
      exact ⟨.deliver i, .deliver hi (h.node ▸ hr)⟩

/-- **Queues are a network that loses nothing and keeps the order.**  What is assumed of
the messages taken is kept. -/
theorem Fifo.simulated {Allowed : S → P → Prop}
    (h : pr.fifo.Under (fun q a => ∀ t ∈ q.taken a, Allowed t.1 t.2) q) :
    ∃ c, pr.sys.Under
      (fun c a => Keeps a ∧ InOrder c a ∧ ∀ t ∈ c.taken a, Allowed t.1 t.2) c ∧ c.Flies q := by
  refine h.invariant (P := fun q => ∃ c, pr.sys.Under
    (fun c a => Keeps a ∧ InOrder c a ∧ ∀ t ∈ c.taken a, Allowed t.1 t.2) c ∧ c.Flies q) ?_ ?_
  · rintro q rfl
    exact ⟨_, .start rfl, rfl, fun _ _ => rfl⟩
  · rintro q a q' - ⟨c, hc, hfly⟩ hallowed hs
    obtain ⟨a', c', hkeep, horder, htaken, hstep, hfly'⟩ := hfly.step hs
    exact ⟨c', .step hc ⟨hkeep, horder, by rwa [htaken]⟩ hstep, hfly'⟩

theorem Config.Flies.wire_nil (h : c.Flies q) (hchan : ∀ a b, q.chan a b = []) : c.wire = [] := by
  refine List.eq_nil_iff_forall_not_mem.mpr fun pk hpk => ?_
  have hmem : pk.body ∈ between c.wire pk.src pk.dest :=
    List.mem_map_of_mem (List.mem_filter.mpr ⟨hpk, decide_eq_true ⟨rfl, rfl⟩⟩)
  rw [h.chan, hchan] at hmem
  cases hmem

/-! ## Delivering -/

/-- A message is taken from its queue. -/
def Delivers (pr : Protocol N S P L ε) (q' q : Queues N S P) : Prop :=
  ∃ src dest, pr.FifoStep q (.deliver src dest) q'

/-- If delivering ends in the network of messages, it ends in the network of queues. -/
theorem Config.Flies.acc_delivers (h : c.Flies q) (hend : ¬ pr.Endless c) :
    Acc (Delivers pr) q := by
  have hacc : Acc (fun c' c => ∃ k, pr.Step c (.deliver k) c') c := by
    by_contra hno
    obtain ⟨f, hf⟩ := not_acc_iff_exists_descending_chain.mp hno
    exact hend ⟨f, hf⟩
  clear hend
  induction hacc generalizing q with
  | intro c hc ih =>
      refine .intro q fun q' ⟨src, dest, hs⟩ => ?_
      obtain ⟨i, c', -, -, hstep, hfly⟩ := h.deliver hs
      exact ih c' ⟨i, hstep⟩ hfly

theorem Config.Flies.delivered (h : c.Flies q)
    (hd : Relation.ReflTransGen (fun q q' => Delivers pr q' q) q q') :
    ∃ c', pr.Delivered c c' ∧ c'.Flies q' := by
  induction hd with
  | refl => exact ⟨c, .refl, h⟩
  | tail _ hs ih =>
      obtain ⟨src, dest, hs⟩ := hs
      obtain ⟨c', hc', hfly⟩ := ih
      obtain ⟨i, c'', -, -, hstep, hfly'⟩ := hfly.deliver hs
      exact ⟨c'', hc'.tail ⟨i, hstep⟩, hfly'⟩

end Protocol
