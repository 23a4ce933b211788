/-
# `Bleep.Stack.Places` — how much is still on its way

Between the handlers of the protocols a message is in a data socket, in the network, in a
receive buffer or in an event queue.  `Places` are these, for all hosts, and `Moved` is
what one action of the layers of sockets and of peers does to them when no timer fires.

Two numbers say how much is left to do.  `backlog` counts the messages the layers of peers
have not yet handled, and a `PING` twice, since it is answered by a `PONG`.  `volume`
counts the bytes, those in data sockets twice, since they move to the network first.  An
action that moves something lowers the first, or leaves it and lowers the second
(`Moved.lowers`).
-/
import Bleep.Stack.Stream

namespace Bleep

open Framing BL_SocketLayer_API

variable {P O S X L : Type}

/-- What is where, for each host and each connection from `a` to `b`. -/
@[ext]
structure Places (P O : Type) where
  queue : P → List (AsyncEvent P O)
  unsent : P → P → List UInt8
  pipe : P → P → List UInt8
  inbox : P → P → List (UInt8 × Conn P)

/-! ## What is still to be handled -/

/-- A `PING` stands for its answer too. -/
def Message.weight (msg : Message P O) : Nat := if msg.type = "PING" then 2 else 1

theorem Message.weight_pos (msg : Message P O) : 0 < msg.weight := by
  unfold weight
  split <;> decide

def weigh (msgs : List (Message P O)) : Nat := (msgs.map Message.weight).sum

theorem weigh_append (msgs msgs' : List (Message P O)) :
    weigh (msgs ++ msgs') = weigh msgs + weigh msgs' := by
  rw [weigh, List.map_append, List.sum_append, weigh, weigh]

variable [LinearOrder P]

/-- The weight of an event, as a message of `a`. -/
def AsyncEvent.weight (a : P) : AsyncEvent P O → Nat
  | .peerRecvMsg src msg => if src = a then msg.weight else 0
  | _ => 0

theorem AsyncEvent.weight_of_not_isMessage {event : AsyncEvent P O} (a : P)
    (h : event.isMessage = false) : event.weight a = 0 := by
  cases event with
  | peerRecvMsg _ _ => cases h
  | _ => rfl

def weighEvents (a : P) (queue : List (AsyncEvent P O)) : Nat :=
  (queue.map (AsyncEvent.weight a)).sum

theorem weighEvents_cons (a : P) (event : AsyncEvent P O) (queue : List (AsyncEvent P O)) :
    weighEvents a (event :: queue) = event.weight a + weighEvents a queue := by
  rw [weighEvents, List.map_cons, List.sum_cons, weighEvents]

theorem weighEvents_append (a : P) (queue queue' : List (AsyncEvent P O)) :
    weighEvents a (queue ++ queue') = weighEvents a queue + weighEvents a queue' := by
  rw [weighEvents, List.map_append, List.sum_append, weighEvents, weighEvents]

/-- Messages weigh as events what they weighed as bytes. -/
theorem weighEvents_recv (a src : P) (msgs : List (Message P O)) :
    weighEvents a (msgs.map (.peerRecvMsg src)) = if a = src then weigh msgs else 0 := by
  induction msgs with
  | nil => simp [weighEvents, weigh]
  | cons msg msgs ih =>
      rw [List.map_cons, weighEvents_cons, ih]
      by_cases ha : a = src
      · simp [AsyncEvent.weight, weigh, ha]
      · simp [AsyncEvent.weight, ha, Ne.symm ha]

namespace Places

variable (p : Places P O) (t : P → P → List (Message P O))

/-- The messages from `x.1` the layer of peers of `x.2` is to handle. -/
def toHandle (x : P × P) : Nat := weigh (t x.1 x.2) + weighEvents x.1 (p.queue x.2)

/-- The bytes from `x.1` to `x.2` that are to be moved. -/
def toMove (x : P × P) : Nat := 2 * (p.unsent x.1 x.2).length + (p.pipe x.1 x.2).length

variable [Fintype P]

def backlog : Nat := ∑ x, p.toHandle t x

def volume : Nat := ∑ x, p.toMove x

/-- The events in all queues. -/
def pending : Nat := ∑ n, (p.queue n).length

end Places

/-! ## What actions do -/

namespace Places

variable (app : ProtocolLayer P O S X L) (ar : Archive P O) (ads : AddrAd P O)

/-- The messages in the bytes of every connection, and nothing whole in a receive
buffer. -/
structure Laden (p : Places P O) (t : P → P → List (Message P O)) : Prop where
  transit : ∀ a b, Transit app ar ads a (p.inbox a b) (p.pipe a b) (p.unsent a b) (t a b)
  stopped : ∀ a b, parseRound ar Prod.fst (p.inbox a b) = .ok none

/-- Another event queue. -/
def setQueue (p : Places P O) (n : P) (queue : List (AsyncEvent P O)) : Places P O :=
  { p with queue := Function.update p.queue n queue }

/-- `n` sends. -/
def post (p : Places P O) (n : P) (out : List (Message P O)) : Places P O :=
  { p with unsent := fun a b =>
      if a = n then p.unsent a b ++ (out.filter (·.dest = b)).flatMap (frame ar)
      else p.unsent a b }

/-- What an action comes to: a watcher queues an event, an event does nothing, something
is moved, or the protocol takes a message. -/
inductive Kind where
  | polls
  | skips
  | moves
  | takes
  deriving DecidableEq

/-- What an action without a timer does to the places. -/
inductive Moved (p : Places P O) : Kind → Places P O → Prop
  | polled {n : P} {event : AsyncEvent P O} : event.isMessage = false →
      Moved p .polls (p.setQueue n (p.queue n ++ [event]))
  | wrote {n m : P} {event : AsyncEvent P O} {rest : List (AsyncEvent P O)}
      {out keep : List UInt8} : p.queue n = event :: rest → event.isMessage = false →
      p.unsent n m = out ++ keep →
      Moved p (if out = [] then .skips else .moves)
        { p.setQueue n rest with
          unsent := fun a b => if a = n ∧ b = m then keep else p.unsent a b
          pipe := fun a b => if a = n ∧ b = m then p.pipe a b ++ out else p.pipe a b }
  | read {n m : P} {event : AsyncEvent P O} {rest : List (AsyncEvent P O)} {bs : List UInt8}
      {c : Conn P} {msgs : List (Message P O)} {remain : List (UInt8 × Conn P)} :
      p.queue n = event :: rest → event.isMessage = false → bs <+: p.pipe m n →
      Drains (parseRound ar Prod.fst) (p.inbox m n ++ bs.map (·, c)) msgs remain →
      Moved p (if bs = [] then .skips else .moves)
        { p.setQueue n (rest ++ msgs.map (.peerRecvMsg m)) with
          pipe := fun a b => if a = m ∧ b = n then (p.pipe a b).drop bs.length else p.pipe a b
          inbox := fun a b => if a = m ∧ b = n then remain else p.inbox a b }
  | answered {n : P} {msg : Message P O} {rest : List (AsyncEvent P O)}
      {out : List (Message P O)} : p.queue n = .peerRecvMsg msg.src msg :: rest →
      (∀ m ∈ out, Carried app ar ads n m) → (∀ m ∈ out, m.dest = msg.src) →
      weigh out < msg.weight → Moved p .moves ((p.setQueue n rest).post ar n out)
  | handedOver {n : P} {msg : Message P O} {rest : List (AsyncEvent P O)} :
      p.queue n = .peerRecvMsg msg.src msg :: rest →
      Moved p .moves (p.setQueue n (rest ++ [.protocolRecvMsg msg]))
  | took {n : P} {msg : Message P O} {rest : List (AsyncEvent P O)}
      {out : List (Message P O)} : p.queue n = .protocolRecvMsg msg :: rest →
      (∀ m ∈ out, Carried app ar ads n m) → Moved p .takes ((p.setQueue n rest).post ar n out)

/-- How an action changes the backlog and the volume. -/
def Kind.Lowers : Kind → ℕ × ℕ → ℕ × ℕ → Prop
  | .polls, x, y => y = x
  | .skips, x, y => y = x
  | .moves, x, y => Prod.Lex (· < ·) (· < ·) y x
  | .takes, _, _ => True

variable {app ar ads} {p p' : Places P O} {t t' : P → P → List (Message P O)} {n m : P}

/-! ### Changes of one place -/

@[simp] theorem queue_setQueue (queue : List (AsyncEvent P O)) (b : P) :
    (p.setQueue n queue).queue b = if b = n then queue else p.queue b :=
  Function.update_apply _ _ _ _

theorem toHandle_setQueue (queue : List (AsyncEvent P O)) (x : P × P) :
    (p.setQueue n queue).toHandle t x =
      weigh (t x.1 x.2) + weighEvents x.1 (if x.2 = n then queue else p.queue x.2) := by
  rw [toHandle, queue_setQueue]

theorem toHandle_of_popped {event : AsyncEvent P O} {rest : List (AsyncEvent P O)}
    (hq : p.queue n = event :: rest) (h : event.isMessage = false) (x : P × P) :
    (p.setQueue n rest).toHandle t x = p.toHandle t x := by
  rw [toHandle_setQueue, toHandle]
  split
  · next hx => rw [hx, hq, weighEvents_cons, AsyncEvent.weight_of_not_isMessage _ h, Nat.zero_add]
  · rfl

/-- The messages in the bytes, with what `n` sends. -/
def posted (t : P → P → List (Message P O)) (n : P) (out : List (Message P O)) (a b : P) :
    List (Message P O) :=
  if a = n then t a b ++ out.filter (·.dest = b) else t a b

theorem Laden.setQueue (h : Laden app ar ads p t) (n : P) (queue : List (AsyncEvent P O)) :
    Laden app ar ads (p.setQueue n queue) t :=
  ⟨h.transit, h.stopped⟩

theorem Laden.post (h : Laden app ar ads p t) {out : List (Message P O)}
    (hout : ∀ m ∈ out, Carried app ar ads n m) :
    Laden app ar ads (p.post ar n out) (posted t n out) where
  transit a b := by
    simp only [Places.post, posted]
    split
    · next ha =>
        subst ha
        exact (h.transit a b).post fun m hm => hout m (List.mem_of_mem_filter hm)
    · exact h.transit a b
  stopped := h.stopped

theorem Laden.write (h : Laden app ar ads p t) {out keep : List UInt8}
    (hout : p.unsent n m = out ++ keep) :
    Laden app ar ads { p with
      unsent := fun a b => if a = n ∧ b = m then keep else p.unsent a b
      pipe := fun a b => if a = n ∧ b = m then p.pipe a b ++ out else p.pipe a b } t where
  transit a b := by
    have hab := h.transit a b
    dsimp only
    split
    · next heq =>
        obtain ⟨rfl, rfl⟩ := heq
        refine ⟨hab.carried, ?_⟩
        rw [List.append_assoc, ← hout]
        exact hab.bytes
    · exact hab
  stopped := h.stopped

theorem Laden.read (h : Laden app ar ads p t) {bs : List UInt8} {c : Conn P}
    {msgs : List (Message P O)} {remain : List (UInt8 × Conn P)} (hpre : bs <+: p.pipe m n)
    (hd : Drains (parseRound ar Prod.fst) (p.inbox m n ++ bs.map (·, c)) msgs remain) :
    ∃ later, t m n = msgs ++ later ∧ Laden app ar ads { p with
      pipe := fun a b => if a = m ∧ b = n then (p.pipe a b).drop bs.length else p.pipe a b
      inbox := fun a b => if a = m ∧ b = n then remain else p.inbox a b }
      fun a b => if a = m ∧ b = n then later else t a b := by
  obtain ⟨later, hall, hlater⟩ := (h.transit m n).recv hpre hd
  refine ⟨later, hall, fun a b => ?_, fun a b => ?_⟩
  · dsimp only
    split
    · next heq =>
        obtain ⟨rfl, rfl⟩ := heq
        exact hlater
    · exact h.transit a b
  · dsimp only
    split
    · exact hd.stops
    · exact h.stopped a b

omit [LinearOrder P] in
theorem Laden.read_nil (h : Laden app ar ads p t) {c : Conn P} {msgs : List (Message P O)}
    {remain : List (UInt8 × Conn P)}
    (hd : Drains (parseRound ar Prod.fst) (p.inbox m n ++ ([] : List UInt8).map (·, c)) msgs
      remain) : msgs = [] := by
  rw [List.map_nil, List.append_nil] at hd
  exact (hd.unique (.stop (h.stopped m n))).1

/-! ### The numbers -/

/-- What a connection gives up, and another one gets. -/
theorem sum_shift [Fintype P] {f g : P × P → ℕ} {y z : P × P} {k l : ℕ}
    (h : ∀ x, f x + (if x = y then k else 0) = g x + (if x = z then l else 0)) :
    ∑ x, f x + k = ∑ x, g x + l := by
  have hone : ∀ (w : P × P) (j : ℕ), (∑ x, if x = w then j else 0) = j := fun w j => by
    rw [Finset.sum_ite_eq' Finset.univ w, if_pos (Finset.mem_univ w)]
  have hsum := Finset.sum_congr (rfl : Finset.univ = Finset.univ) fun x _ => h x
  rwa [Finset.sum_add_distrib, Finset.sum_add_distrib, hone, hone] at hsum

theorem Kind.lowers_bytes {bs : List UInt8} {b v v' : ℕ} (h : v' + bs.length = v) :
    Kind.Lowers (if bs = [] then .skips else .moves) (b, v) (b, v') := by
  split
  · next hbs =>
      rw [hbs, List.length_nil, Nat.add_zero] at h
      exact congrArg (b, ·) h
  · next hbs =>
      have hpos : 0 < bs.length := List.length_pos_iff.mpr hbs
      exact .right b (by omega)

theorem weigh_posted {out : List (Message P O)} {dest : P} (hout : ∀ m ∈ out, m.dest = dest)
    (x : P × P) : weigh (posted t n out x.1 x.2) =
      weigh (t x.1 x.2) + if x = (n, dest) then weigh out else 0 := by
  obtain ⟨a, b⟩ := x
  simp only [posted, Prod.mk.injEq]
  by_cases ha : a = n
  · rw [if_pos ha, weigh_append]
    by_cases hb : b = dest
    · have hall : out.filter (·.dest = b) = out :=
        List.filter_eq_self.mpr fun m hm => decide_eq_true ((hout m hm).trans hb.symm)
      rw [hall, if_pos ⟨ha, hb⟩]
    · have hnone : out.filter (·.dest = b) = [] :=
        List.filter_eq_nil_iff.mpr fun m hm hd => hb ((of_decide_eq_true hd).symm.trans (hout m hm))
      rw [hnone, if_neg fun h => hb h.2]
      rfl
  · rw [if_neg ha, if_neg fun h => ha h.1]
    rfl

theorem weighEvents_popped {msg : Message P O} {rest : List (AsyncEvent P O)}
    (hq : p.queue n = .peerRecvMsg msg.src msg :: rest) (x : P × P) :
    weighEvents x.1 (p.queue x.2) = weighEvents x.1 (if x.2 = n then rest else p.queue x.2) +
      if x = (msg.src, n) then msg.weight else 0 := by
  obtain ⟨a, b⟩ := x
  simp only [Prod.mk.injEq]
  by_cases hb : b = n
  · rw [if_pos hb, hb, hq, weighEvents_cons, AsyncEvent.weight, Nat.add_comm]
    by_cases ha : msg.src = a
    · rw [if_pos ha, if_pos ⟨ha.symm, rfl⟩]
    · rw [if_neg ha, if_neg fun h => ha h.1.symm]
  · rw [if_neg hb, if_neg fun h => hb h.2]
    rfl

section Numbers

variable [Fintype P]

theorem volume_write {out keep : List UInt8} (hout : p.unsent n m = out ++ keep) :
    volume { p with
      unsent := fun a b => if a = n ∧ b = m then keep else p.unsent a b
      pipe := fun a b => if a = n ∧ b = m then p.pipe a b ++ out else p.pipe a b } +
      out.length = p.volume := by
  refine sum_shift (y := (n, m)) (z := (n, m)) (l := 0) fun x => ?_
  obtain ⟨a, b⟩ := x
  simp only [toMove, Prod.mk.injEq, ite_self, Nat.add_zero]
  split
  · next hx =>
      obtain ⟨rfl, rfl⟩ := hx
      rw [hout, List.length_append, List.length_append]
      omega
  · rfl

theorem volume_read {bs : List UInt8} (hpre : bs <+: p.pipe m n)
    (inbox : P → P → List (UInt8 × Conn P)) :
    volume { p with
      pipe := fun a b => if a = m ∧ b = n then (p.pipe a b).drop bs.length else p.pipe a b
      inbox := inbox } + bs.length = p.volume := by
  refine sum_shift (y := (m, n)) (z := (m, n)) (l := 0) fun x => ?_
  obtain ⟨a, b⟩ := x
  simp only [toMove, Prod.mk.injEq, ite_self, Nat.add_zero]
  split
  · next hx =>
      obtain ⟨rfl, rfl⟩ := hx
      have hle := hpre.length_le
      rw [List.length_drop]
      omega
  · rfl

theorem backlog_read {event : AsyncEvent P O} {rest : List (AsyncEvent P O)}
    {msgs later : List (Message P O)} (hq : p.queue n = event :: rest)
    (hevent : event.isMessage = false) (hall : t m n = msgs ++ later) :
    (p.setQueue n (rest ++ msgs.map (.peerRecvMsg m))).backlog
      (fun a b => if a = m ∧ b = n then later else t a b) = p.backlog t := by
  refine Finset.sum_congr rfl fun x _ => ?_
  obtain ⟨a, b⟩ := x
  rw [toHandle_setQueue, toHandle]
  dsimp only
  by_cases hb : b = n
  · subst hb
    rw [if_pos rfl, weighEvents_append, weighEvents_recv, hq, weighEvents_cons,
      AsyncEvent.weight_of_not_isMessage _ hevent]
    by_cases ha : a = m
    · subst ha
      rw [if_pos ⟨rfl, rfl⟩, if_pos rfl, hall, weigh_append]
      omega
    · rw [if_neg fun h => ha h.1, if_neg ha]
      omega
  · rw [if_neg hb, if_neg fun h => hb h.2]

theorem backlog_answered {msg : Message P O} {rest : List (AsyncEvent P O)}
    {out : List (Message P O)} (hq : p.queue n = .peerRecvMsg msg.src msg :: rest)
    (hdest : ∀ m ∈ out, m.dest = msg.src) :
    ((p.setQueue n rest).post ar n out).backlog (posted t n out) + msg.weight =
      p.backlog t + weigh out := by
  refine sum_shift (y := (msg.src, n)) (z := (n, msg.src)) fun x => ?_
  have hpost : ((p.setQueue n rest).post ar n out).toHandle (posted t n out) x =
      weigh (posted t n out x.1 x.2) + weighEvents x.1 (if x.2 = n then rest else p.queue x.2) :=
    toHandle_setQueue rest x
  rw [hpost, weigh_posted hdest, toHandle, weighEvents_popped hq]
  omega

theorem backlog_handedOver {msg : Message P O} {rest : List (AsyncEvent P O)}
    (hq : p.queue n = .peerRecvMsg msg.src msg :: rest) :
    (p.setQueue n (rest ++ [.protocolRecvMsg msg])).backlog t + msg.weight = p.backlog t := by
  refine sum_shift (y := (msg.src, n)) (z := (msg.src, n)) (l := 0) fun x => ?_
  have happ : weighEvents x.1 (if x.2 = n then rest ++ [.protocolRecvMsg msg] else p.queue x.2) =
      weighEvents x.1 (if x.2 = n then rest else p.queue x.2) := by
    split
    · rw [weighEvents_append]
      rfl
    · rfl
  rw [toHandle_setQueue, happ, toHandle, weighEvents_popped hq, ite_self]
  omega

/-- **What moves goes down.** -/
theorem Moved.lowers {kind : Kind} (h : Laden app ar ads p t)
    (hm : Moved app ar ads p kind p') : ∃ t', Laden app ar ads p' t' ∧
      kind.Lowers (p.backlog t, p.volume) (p'.backlog t', p'.volume) := by
  cases hm with
  | @polled n event hevent =>
      refine ⟨t, h.setQueue n _, ?_⟩
      have hback : (p.setQueue n (p.queue n ++ [event])).backlog t = p.backlog t := by
        refine Finset.sum_congr rfl fun x _ => ?_
        rw [toHandle_setQueue, toHandle]
        split
        · next hx =>
            rw [hx, weighEvents_append, weighEvents_cons,
              AsyncEvent.weight_of_not_isMessage _ hevent]
            rfl
        · rfl
      exact congrArg (·, p.volume) hback
  | @wrote n m event rest out keep hq hevent hout =>
      have hback : (p.setQueue n rest).backlog t = p.backlog t :=
        Finset.sum_congr rfl fun x _ => toHandle_of_popped hq hevent x
      refine ⟨t, (h.setQueue n rest).write hout, ?_⟩
      rw [← hback]
      exact Kind.lowers_bytes (volume_write (p := p.setQueue n rest) hout)
  | @read n m event rest bs c msgs remain hq hevent hpre hd =>
      obtain ⟨later, hall, hladen⟩ :=
        (h.setQueue n (rest ++ msgs.map (.peerRecvMsg m))).read hpre hd
      refine ⟨_, hladen, ?_⟩
      rw [← backlog_read hq hevent hall]
      exact Kind.lowers_bytes
        (volume_read (p := p.setQueue n (rest ++ msgs.map (.peerRecvMsg m))) hpre
          fun a b => if a = m ∧ b = n then remain else p.inbox a b)
  | @answered n msg rest out hq hcar hdest hlt =>
      have hback : ((p.setQueue n rest).post ar n out).backlog (posted t n out) + msg.weight =
          p.backlog t + weigh out := backlog_answered hq hdest
      exact ⟨_, (h.setQueue n rest).post hcar, .left _ _ (by omega)⟩
  | @handedOver n msg rest hq =>
      have hback := backlog_handedOver (t := t) hq
      have hpos := msg.weight_pos
      exact ⟨t, h.setQueue n _, .left _ _ (by omega)⟩
  | took hq hcar => exact ⟨_, (h.setQueue _ _).post hcar, trivial⟩

theorem pending_pop {event : AsyncEvent P O} {rest : List (AsyncEvent P O)}
    (hq : p.queue n = event :: rest) : (p.setQueue n rest).pending < p.pending := by
  refine Finset.sum_lt_sum (fun b _ => ?_) ⟨n, Finset.mem_univ n, ?_⟩
  · rw [queue_setQueue]
    split
    · next hb =>
        rw [hb, hq]
        exact Nat.le_succ _
    · exact Nat.le_refl _
  · rw [queue_setQueue, if_pos rfl, hq]
    exact Nat.lt_succ_self _

theorem Moved.pending_lt {kind : Kind} (h : Laden app ar ads p t)
    (hm : Moved app ar ads p kind p') (hkind : kind = .skips) : p'.pending < p.pending := by
  cases hm with
  | wrote hq _ _ => exact pending_pop hq
  | @read n m event rest bs c msgs remain hq _ _ hd =>
      obtain rfl : bs = [] := by
        by_contra hne
        rw [if_neg hne] at hkind
        cases hkind
      obtain rfl := h.read_nil hd
      have hpop := pending_pop hq
      rwa [← List.append_nil rest] at hpop
  | polled _ => cases hkind
  | answered _ _ _ _ => cases hkind
  | handedOver _ => cases hkind
  | took _ _ => cases hkind

end Numbers

end Places

end Bleep
