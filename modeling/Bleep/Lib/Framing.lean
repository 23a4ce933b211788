/-
# `Bleep.Lib.Framing` — cutting a byte stream into messages as it comes in

A receiver keeps what it has read in a buffer and cuts complete frames off its
front.  One round is a function `next`: nothing to cut yet, one message and the
rest of the buffer, or a fault.  A round may be repeated until it cuts nothing
(`Drains`, and `drain` as a function).

If a round looks at the front of the buffer only (`Incremental`), then when the
bytes come in, and in which pieces, makes no difference: `Drains.append`.  If
moreover `next` undoes an encoding (`Frames`), then draining any first part of
an encoded stream cuts off exactly the messages whose encodings lie in that part
(`Drains.arrived_eq`).
-/
import Mathlib

namespace Framing

variable {β M ε : Type}

/-- A round of a parser. -/
abbrev Round (β M ε : Type) := List β → Except ε (Option (M × List β))

/-- Rounds repeated until one cuts nothing: the messages, and what is left. -/
inductive Drains (next : Round β M ε) : List β → List M → List β → Prop
  | stop {s : List β} : next s = .ok none → Drains next s [] s
  | item {s r q : List β} {m : M} {ms : List M} : next s = .ok (some (m, r)) →
      Drains next r ms q → Drains next s (m :: ms) q

/-- The loop; `spent` is the fault of running out of rounds. -/
def drain (next : Round β M ε) (spent : ε) : Nat → List β → Except ε (List M × List β)
  | 0, _ => .error spent
  | n + 1, s => do
      match ← next s with
      | none => return ([], s)
      | some (m, r) =>
          let (ms, q) ← drain next spent n r
          return (m :: ms, q)

/-- A round cuts off a part of the front, whatever comes behind. -/
structure Incremental (next : Round β M ε) : Prop where
  shrinks : ∀ {s r : List β} {m : M}, next s = .ok (some (m, r)) → r.length < s.length
  extends_ : ∀ {s r : List β} {m : M} (t : List β), next s = .ok (some (m, r)) →
    next (s ++ t) = .ok (some (m, r ++ t))

variable {next : Round β M ε} {spent : ε}

namespace Drains

theorem stops {s q : List β} {ms : List M} (h : Drains next s ms q) : next q = .ok none := by
  induction h with
  | stop h => exact h
  | item _ _ ih => exact ih

theorem unique {s q q' : List β} {ms ms' : List M} (h : Drains next s ms q)
    (h' : Drains next s ms' q') : ms = ms' ∧ q = q' := by
  induction h generalizing ms' with
  | stop hs =>
      cases h' with
      | stop _ => exact ⟨rfl, rfl⟩
      | item hs' _ => exact nomatch hs.symm.trans hs'
  | item hs _ ih =>
      cases h' with
      | stop hs' => exact nomatch hs.symm.trans hs'
      | item hs' hd =>
          obtain ⟨rfl, rfl⟩ := Prod.mk.inj (Option.some.inj (Except.ok.inj (hs.symm.trans hs')))
          obtain ⟨rfl, rfl⟩ := ih hd
          exact ⟨rfl, rfl⟩

theorem append (hi : Incremental next) {s q r t : List β} {ms ms' : List M}
    (h : Drains next s ms q) (h' : Drains next (q ++ t) ms' r) :
    Drains next (s ++ t) (ms ++ ms') r := by
  induction h with
  | stop _ => exact h'
  | item hs _ ih => exact .item (hi.extends_ t hs) (ih h')

/-- What drains at once drains in two pieces. -/
theorem split (hi : Incremental next) {s q r t : List β} {ms out : List M}
    (h : Drains next s ms q) (h' : Drains next (s ++ t) out r) :
    ∃ ms', out = ms ++ ms' ∧ Drains next (q ++ t) ms' r := by
  induction h generalizing out with
  | stop _ => exact ⟨out, rfl, h'⟩
  | item hs _ ih =>
      have hst := hi.extends_ t hs
      cases h' with
      | stop hs' => exact nomatch hs'.symm.trans hst
      | item hs' hd =>
          obtain ⟨rfl, rfl⟩ := Prod.mk.inj (Option.some.inj (Except.ok.inj (hs'.symm.trans hst)))
          obtain ⟨ms', rfl, hms⟩ := ih hd
          exact ⟨ms', rfl, hms⟩

theorem length_le (hi : Incremental next) {s q : List β} {ms : List M} (h : Drains next s ms q) :
    q.length ≤ s.length := by
  induction h with
  | stop _ => exact Nat.le_refl _
  | item hs _ ih => exact Nat.le_trans ih (Nat.le_of_lt (hi.shrinks hs))

theorem subset (hsub : ∀ {s r : List β} {m : M}, next s = .ok (some (m, r)) → r ⊆ s)
    {s q : List β} {ms : List M} (h : Drains next s ms q) : q ⊆ s := by
  induction h with
  | stop _ => exact fun _ hb => hb
  | item hs _ ih => exact fun _ hb => hsub hs (ih hb)

/-- Rounds that cut the same off the images of the buffers. -/
theorem map {γ : Type} {f : β → γ} {next' : Round γ M ε}
    (hf : ∀ s, next' (s.map f) = (next s).map (Option.map (Prod.map id (List.map f))))
    {s q : List β} {ms : List M} (h : Drains next s ms q) :
    Drains next' (s.map f) ms (q.map f) := by
  induction h with
  | stop hs => exact .stop (by rw [hf, hs]; rfl)
  | item hs _ ih => exact .item (by rw [hf, hs]; rfl) ih

theorem of_map {γ : Type} {f : β → γ} {next' : Round γ M ε}
    (hf : ∀ s, next' (s.map f) = (next s).map (Option.map (Prod.map id (List.map f))))
    {x y : List γ} {ms : List M} (h : Drains next' x ms y) :
    ∀ {s : List β}, s.map f = x → ∃ q, Drains next s ms q := by
  induction h with
  | stop hx =>
      rintro s rfl
      rw [hf] at hx
      cases hs : next s with
      | error e => exact nomatch hs ▸ hx
      | ok o =>
          cases o with
          | none => exact ⟨s, .stop hs⟩
          | some _ => exact nomatch hs ▸ hx
  | item hx _ ih =>
      rintro s rfl
      rw [hf] at hx
      cases hs : next s with
      | error e => exact nomatch hs ▸ hx
      | ok o =>
          cases o with
          | none => exact nomatch hs ▸ hx
          | some p =>
              rw [hs] at hx
              obtain ⟨rfl, hr⟩ := Prod.mk.inj (Option.some.inj (Except.ok.inj hx))
              obtain ⟨q, hq⟩ := ih hr
              exact ⟨q, .item hs hq⟩

end Drains

/-! ## The loop -/

theorem drain_of_stop {n : Nat} {s : List β} (hs : next s = .ok none) :
    drain next spent (n + 1) s = .ok ([], s) := by
  simp only [drain, hs]
  rfl

theorem drain_of_error {n : Nat} {s : List β} {e : ε} (hs : next s = .error e) :
    drain next spent (n + 1) s = .error e := by
  simp only [drain, hs]
  rfl

theorem drain_of_item {n : Nat} {s r : List β} {m : M} (hs : next s = .ok (some (m, r))) :
    drain next spent (n + 1) s = (drain next spent n r).map fun x => (m :: x.1, x.2) := by
  simp only [drain, hs]
  change (do let (ms, q) ← drain next spent n r; return (m :: ms, q)) = _
  cases drain next spent n r with
  | error e => rfl
  | ok x => rfl

/-- The loop answers what `Drains` says, given a round for every byte. -/
theorem drain_of_drains (hi : Incremental next) {s q : List β} {ms : List M}
    (h : Drains next s ms q) : ∀ {n : Nat}, s.length < n → drain next spent n s = .ok (ms, q) := by
  induction h with
  | stop hs =>
      intro n hn
      obtain ⟨k, rfl⟩ := Nat.exists_eq_add_of_lt hn
      exact drain_of_stop hs
  | item hs _ ih =>
      intro n hn
      obtain ⟨k, rfl⟩ : ∃ k, n = k + 1 := ⟨n - 1, by omega⟩
      have hlt := hi.shrinks hs
      rw [drain_of_item hs, ih (by omega)]
      rfl

theorem drains_of_drain : ∀ {n : Nat} {s q : List β} {ms : List M},
    drain next spent n s = .ok (ms, q) → Drains next s ms q
  | 0, _, _, _, h => nomatch h
  | n + 1, s, q, ms, h => by
      cases hs : next s with
      | error e => exact nomatch (drain_of_error hs).symm.trans h
      | ok o =>
          cases o with
          | none =>
              obtain ⟨rfl, rfl⟩ := Prod.mk.inj (Except.ok.inj ((drain_of_stop hs).symm.trans h))
              exact .stop hs
          | some x =>
              obtain ⟨m, r⟩ := x
              rw [drain_of_item hs] at h
              cases hd : drain next spent n r with
              | error e =>
                  rw [hd] at h
                  exact nomatch h
              | ok y =>
                  rw [hd] at h
                  obtain ⟨rfl, rfl⟩ := Prod.mk.inj (Except.ok.inj h)
                  exact .item hs (drains_of_drain hd)

theorem drain_error (hi : Incremental next) {e : ε} {n : Nat} :
    ∀ {s : List β}, drain next spent n s = .error e →
      e = spent ∧ n ≤ s.length ∨ ∃ r, next r = .error e := by
  induction n with
  | zero =>
      intro s h
      exact .inl ⟨(Except.error.inj h).symm, Nat.zero_le _⟩
  | succ n ih =>
      intro s h
      cases hs : next s with
      | error e' =>
          obtain rfl := Except.error.inj ((drain_of_error hs).symm.trans h)
          exact .inr ⟨s, hs⟩
      | ok o =>
          cases o with
          | none => exact nomatch (drain_of_stop hs).symm.trans h
          | some x =>
              obtain ⟨m, r⟩ := x
              have hlt := hi.shrinks hs
              rw [drain_of_item hs] at h
              cases hd : drain next spent n r with
              | error e' =>
                  rw [hd] at h
                  obtain rfl := Except.error.inj h
                  exact (ih hd).imp_left fun ⟨he, hle⟩ => ⟨he, by omega⟩
              | ok y =>
                  rw [hd] at h
                  exact nomatch h

/-- With a round for every byte the loop does not run out of rounds. -/
theorem drain_ne_spent (hi : Incremental next) (hne : ∀ s, next s ≠ .error spent) {n : Nat}
    {s : List β} (hn : s.length < n) : drain next spent n s ≠ .error spent := by
  intro h
  rcases drain_error hi h with ⟨-, hle⟩ | ⟨r, hr⟩
  · exact absurd hn (Nat.not_lt.mpr hle)
  · exact hne r hr

/-! ## Rounds that cut, whatever comes after them -/

/-- Rounds that each cut a message off; what the next one does is not said. -/
inductive Cuts (next : Round β M ε) : List β → List M → List β → Prop
  | nil {s : List β} : Cuts next s [] s
  | cons {s r q : List β} {m : M} {ms : List M} : next s = .ok (some (m, r)) →
      Cuts next r ms q → Cuts next s (m :: ms) q

/-- No message is cut off: the round stops or fails. -/
def Ends (next : Round β M ε) (s : List β) : Prop := ∀ m r, next s ≠ .ok (some (m, r))

theorem ends_of_stop {s : List β} (h : next s = .ok none) : Ends next s :=
  fun _ _ h' => nomatch h.symm.trans h'

namespace Cuts

theorem trans {s q r : List β} {ms ms' : List M} (h : Cuts next s ms q)
    (h' : Cuts next q ms' r) : Cuts next s (ms ++ ms') r := by
  induction h with
  | nil => exact h'
  | cons hs _ ih => exact .cons hs (ih h')

theorem extend (hi : Incremental next) {s q : List β} {ms : List M} (h : Cuts next s ms q)
    (t : List β) : Cuts next (s ++ t) ms (q ++ t) := by
  induction h with
  | nil => exact .nil
  | cons hs _ ih => exact .cons (hi.extends_ t hs) ih

theorem unique {s q q' : List β} {ms ms' : List M} (h : Cuts next s ms q) (hq : Ends next q)
    (h' : Cuts next s ms' q') (hq' : Ends next q') : ms = ms' ∧ q = q' := by
  induction h generalizing ms' with
  | nil =>
      cases h' with
      | nil => exact ⟨rfl, rfl⟩
      | cons hs' _ => exact absurd hs' (hq _ _)
  | cons hs _ ih =>
      cases h' with
      | nil => exact absurd hs (hq' _ _)
      | cons hs' hc =>
          obtain ⟨rfl, rfl⟩ := Prod.mk.inj (Option.some.inj (Except.ok.inj (hs.symm.trans hs')))
          obtain ⟨rfl, rfl⟩ := ih hq hc
          exact ⟨rfl, rfl⟩

theorem exists_ends (hi : Incremental next) (s : List β) :
    ∃ ms q, Cuts next s ms q ∧ Ends next q := by
  induction h : s.length using Nat.strongRecOn generalizing s with
  | _ n ih =>
      by_cases hend : Ends next s
      · exact ⟨[], s, .nil, hend⟩
      · obtain ⟨m, r, hs⟩ : ∃ m r, next s = .ok (some (m, r)) := by
          simpa [Ends, not_forall] using hend
        obtain ⟨ms, q, hc, hq⟩ := ih r.length (h ▸ hi.shrinks hs) r rfl
        exact ⟨m :: ms, q, .cons hs hc, hq⟩

end Cuts

theorem Drains.cuts {s q : List β} {ms : List M} (h : Drains next s ms q) : Cuts next s ms q := by
  induction h with
  | stop _ => exact .nil
  | item hs _ ih => exact .cons hs ih

theorem drain_error_iff (hi : Incremental next) {e : ε} : ∀ {n : Nat} {s : List β}, s.length < n →
    (drain next spent n s = .error e ↔ ∃ ms q, Cuts next s ms q ∧ next q = .error e)
  | 0, _, hn => absurd hn (Nat.not_lt_zero _)
  | n + 1, s, hn => by
      cases hs : next s with
      | error e' =>
          rw [drain_of_error hs]
          constructor
          · intro h
            exact ⟨[], s, .nil, hs.trans (congrArg _ (Except.error.inj h))⟩
          · rintro ⟨ms, q, hc, hq⟩
            cases hc with
            | nil => exact congrArg _ (Except.error.inj (hs.symm.trans hq))
            | cons hs' _ => exact nomatch hs.symm.trans hs'
      | ok o =>
          cases o with
          | none =>
              rw [drain_of_stop hs]
              constructor
              · intro h
                exact nomatch h
              · rintro ⟨ms, q, hc, hq⟩
                cases hc with
                | nil => exact nomatch hs.symm.trans hq
                | cons hs' _ => exact nomatch hs.symm.trans hs'
          | some x =>
              obtain ⟨m, r⟩ := x
              have hlt := hi.shrinks hs
              have hrest := drain_error_iff hi (e := e) (n := n) (s := r) (by omega)
              rw [drain_of_item hs]
              constructor
              · intro h
                cases hd : drain next spent n r with
                | ok y => exact nomatch hd ▸ h
                | error e' =>
                    rw [hd] at h
                    obtain rfl := Except.error.inj h
                    obtain ⟨ms, q, hc, hq⟩ := hrest.mp hd
                    exact ⟨m :: ms, q, .cons hs hc, hq⟩
              · rintro ⟨ms, q, hc, hq⟩
                cases hc with
                | nil => exact nomatch hs.symm.trans hq
                | cons hs' hc =>
                    obtain ⟨rfl, rfl⟩ :=
                      Prod.mk.inj (Option.some.inj (Except.ok.inj (hs.symm.trans hs')))
                    rw [hrest.mpr ⟨_, q, hc, hq⟩]
                    rfl

/-! ## Encoded streams -/

/-- The round reads these encodings: a whole one is cut off, or refused with a
fault, and of an incomplete one nothing is cut off. -/
structure Frames (next : Round β M ε) (frame : M → List β) (P : M → Prop)
    (refuse : M → Option ε) : Prop where
  whole : ∀ m t, P m → refuse m = none → next (frame m ++ t) = .ok (some (m, t))
  refused : ∀ m t e, P m → refuse m = some e → next (frame m ++ t) = .error e
  part : ∀ m s t, P m → s ++ t = frame m → t ≠ [] → next s = .ok none

/-- The messages of a list whose encodings lie in the first `n` bytes. -/
def arrived (frame : M → List β) : List M → Nat → List M
  | [], _ => []
  | m :: ms, n =>
      if (frame m).length ≤ n then m :: arrived frame ms (n - (frame m).length) else []

theorem arrived_initial (frame : M → List β) : ∀ (ms : List M) (n : Nat), arrived frame ms n <+: ms
  | [], _ => List.prefix_rfl
  | m :: ms, n => by
      unfold arrived
      split
      · exact (List.prefix_cons_inj m).mpr (arrived_initial frame ms _)
      · exact List.nil_prefix

theorem arrived_length (frame : M → List β) :
    ∀ (ms : List M) (n : Nat), ((arrived frame ms n).flatMap frame).length ≤ n
  | [], _ => Nat.zero_le _
  | m :: ms, n => by
      unfold arrived
      split
      · have hrest := arrived_length frame ms (n - (frame m).length)
        rw [List.flatMap_cons, List.length_append]
        omega
      · exact Nat.zero_le n

theorem arrived_all (frame : M → List β) :
    ∀ ms : List M, arrived frame ms (ms.flatMap frame).length = ms
  | [] => rfl
  | m :: ms => by
      rw [arrived, List.flatMap_cons, List.length_append, if_pos (Nat.le_add_right _ _),
        Nat.add_sub_cancel_left, arrived_all frame ms]

/-- Of a list one of whose encodings is not within the first `n` bytes nothing has
arrived; else the message has. -/
theorem arrived_cons_cases (frame : M → List β) (m : M) (ms : List M) {s t : List β}
    (h : s ++ t = (m :: ms).flatMap frame) :
    (∃ r, s = frame m ++ r ∧ r ++ t = ms.flatMap frame ∧
      arrived frame (m :: ms) s.length = m :: arrived frame ms r.length) ∨
    (∃ r, s ++ r = frame m ∧ r ≠ [] ∧ arrived frame (m :: ms) s.length = []) := by
  rw [List.flatMap_cons] at h
  rw [arrived]
  split
  · next hle =>
      obtain ⟨r, rfl⟩ : ∃ r, s = frame m ++ r :=
        (List.prefix_of_prefix_length_le ⟨ms.flatMap frame, rfl⟩ ⟨t, h⟩ hle).imp fun _ h => h.symm
      rw [List.append_assoc] at h
      refine .inl ⟨r, rfl, List.append_cancel_left h, ?_⟩
      rw [List.length_append, Nat.add_sub_cancel_left]
  · next hlt =>
      obtain ⟨r, hr⟩ : ∃ r, frame m = s ++ r :=
        (List.prefix_of_prefix_length_le ⟨t, h⟩ ⟨ms.flatMap frame, rfl⟩ (by omega)).imp
          fun _ h => h.symm
      refine .inr ⟨r, hr.symm, ?_, rfl⟩
      rintro rfl
      rw [List.append_nil] at hr
      exact hlt (Nat.le_of_eq (congrArg List.length hr))

variable {frame : M → List β} {P : M → Prop} {refuse : M → Option ε}

/-- **Draining the first part of a stream** cuts off the messages that lie in it,
and leaves what is behind them. -/
theorem Drains.arrived_eq (hf : Frames next frame P refuse) (hnil : next [] = .ok none) :
    ∀ {ms : List M}, (∀ m ∈ ms, P m) → ∀ {s t q : List β} {out : List M},
      s ++ t = ms.flatMap frame → Drains next s out q →
      out = arrived frame ms s.length ∧
        q = s.drop ((arrived frame ms s.length).flatMap frame).length
  | [], _, s, t, q, out, h, hd => by
      obtain ⟨rfl, -⟩ := List.append_eq_nil_iff.mp h
      exact hd.unique (.stop hnil)
  | m :: ms, hP, s, t, q, out, h, hd => by
      have hm := hP m List.mem_cons_self
      rcases arrived_cons_cases frame m ms h with ⟨r, rfl, hr, harr⟩ | ⟨r, hr, hne, harr⟩
      · cases hrefuse : refuse m with
        | some e =>
            have hnext := hf.refused m r e hm hrefuse
            cases hd with
            | stop hs => exact nomatch hs.symm.trans hnext
            | item hs _ => exact nomatch hs.symm.trans hnext
        | none =>
            have hnext := hf.whole m r hm hrefuse
            cases hd with
            | stop hs => exact nomatch hs.symm.trans hnext
            | item hs hd =>
                obtain ⟨rfl, rfl⟩ :=
                  Prod.mk.inj (Option.some.inj (Except.ok.inj (hs.symm.trans hnext)))
                obtain ⟨rfl, rfl⟩ := Drains.arrived_eq hf hnil
                  (fun x hx => hP x (List.mem_cons_of_mem _ hx)) hr hd
                rw [harr]
                refine ⟨rfl, ?_⟩
                rw [List.flatMap_cons, List.length_append, ← List.drop_drop, List.drop_left]
      · obtain ⟨rfl, rfl⟩ := hd.unique (.stop (hf.part m s r hm hr hne))
        rw [harr]
        exact ⟨rfl, rfl⟩

/-- If none of the messages that lie in it is refused, it can be drained. -/
theorem drains_arrived (hf : Frames next frame P refuse) (hnil : next [] = .ok none) :
    ∀ {ms : List M}, (∀ m ∈ ms, P m) → ∀ {s t : List β}, s ++ t = ms.flatMap frame →
      (∀ m ∈ arrived frame ms s.length, refuse m = none) →
      ∃ q, Drains next s (arrived frame ms s.length) q
  | [], _, s, t, h, _ => by
      obtain ⟨rfl, -⟩ := List.append_eq_nil_iff.mp h
      exact ⟨[], .stop hnil⟩
  | m :: ms, hP, s, t, h, hrefuse => by
      have hm := hP m List.mem_cons_self
      rcases arrived_cons_cases frame m ms h with ⟨r, rfl, hr, harr⟩ | ⟨r, hr, hne, harr⟩
      · rw [harr] at hrefuse ⊢
        obtain ⟨q, hq⟩ := drains_arrived hf hnil (fun x hx => hP x (List.mem_cons_of_mem _ hx)) hr
          fun x hx => hrefuse x (List.mem_cons_of_mem _ hx)
        exact ⟨q, .item (hf.whole m r hm (hrefuse m List.mem_cons_self)) hq⟩
      · rw [harr]
        exact ⟨s, .stop (hf.part m s r hm hr hne)⟩

/-! ## Rounds that cut off encodings and nothing else -/

/-- A round cuts a message off exactly where the buffer begins with its encoding. -/
structure Exact (next : Round β M ε) (frame : M → List β) (P : M → Prop) : Prop where
  cut : ∀ {s r : List β} {m : M}, next s = .ok (some (m, r)) ↔ P m ∧ s = frame m ++ r
  total : ∀ s, ∃ o, next s = .ok o
  pos : ∀ {m : M}, P m → 0 < (frame m).length

namespace Exact

theorem incremental (hx : Exact next frame P) : Incremental next where
  shrinks := by
    intro s r m h
    obtain ⟨hm, rfl⟩ := hx.cut.mp h
    have hpos := hx.pos hm
    rw [List.length_append]
    omega
  extends_ := by
    intro s r m t h
    obtain ⟨hm, rfl⟩ := hx.cut.mp h
    exact hx.cut.mpr ⟨hm, by rw [List.append_assoc]⟩

theorem stop_iff (hx : Exact next frame P) {s : List β} :
    next s = .ok none ↔ ∀ m r, P m → s ≠ frame m ++ r := by
  constructor
  · rintro h m r hm rfl
    exact nomatch h.symm.trans (hx.cut.mpr ⟨hm, rfl⟩)
  · intro h
    obtain ⟨o, ho⟩ := hx.total s
    cases o with
    | none => exact ho
    | some x =>
        obtain ⟨hm, hs⟩ := hx.cut.mp ho
        exact absurd hs (h _ _ hm)

theorem drains_iff (hx : Exact next frame P) {s q : List β} {ms : List M} :
    Drains next s ms q ↔
      (∀ m ∈ ms, P m) ∧ s = ms.flatMap frame ++ q ∧ next q = .ok none := by
  constructor
  · intro h
    induction h with
    | stop hs => exact ⟨fun _ hm => (nomatch hm), rfl, hs⟩
    | item hs _ ih =>
        obtain ⟨hm, rfl⟩ := hx.cut.mp hs
        obtain ⟨hms, rfl, hstop⟩ := ih
        exact ⟨List.forall_mem_cons.mpr ⟨hm, hms⟩,
          by rw [List.flatMap_cons, List.append_assoc], hstop⟩
  · rintro ⟨hms, rfl, hstop⟩
    induction ms with
    | nil => exact .stop hstop
    | cons m ms ih =>
        obtain ⟨hm, hms⟩ := List.forall_mem_cons.mp hms
        rw [List.flatMap_cons, List.append_assoc]
        exact .item (hx.cut.mpr ⟨hm, rfl⟩) (ih hms)

/-- No longer list of messages is at the front. -/
theorem longest (hx : Exact next frame P) {s q : List β} {ms : List M}
    (h : Drains next s ms q) {ms' : List M} (hP : ∀ m ∈ ms', P m)
    (hpre : ms'.flatMap frame <+: s) : ms' <+: ms := by
  induction h generalizing ms' with
  | stop hs =>
      cases ms' with
      | nil => exact List.nil_prefix
      | cons m ms' =>
          obtain ⟨t, ht⟩ := hpre
          rw [List.flatMap_cons, List.append_assoc] at ht
          exact absurd ht.symm (hx.stop_iff.mp hs m _ (hP m List.mem_cons_self))
  | item hs _ ih =>
      cases ms' with
      | nil => exact List.nil_prefix
      | cons m ms' =>
          obtain ⟨t, ht⟩ := hpre
          rw [List.flatMap_cons, List.append_assoc] at ht
          have hs' := hx.cut.mpr ⟨hP m List.mem_cons_self, ht.symm⟩
          obtain ⟨rfl, rfl⟩ := Prod.mk.inj (Option.some.inj (Except.ok.inj (hs.symm.trans hs')))
          exact (List.prefix_cons_inj _).mpr
            (ih (fun x hx => hP x (List.mem_cons_of_mem _ hx)) ⟨t, rfl⟩)

theorem exists_drains (hx : Exact next frame P) (s : List β) : ∃ ms q, Drains next s ms q := by
  induction h : s.length using Nat.strongRecOn generalizing s with
  | _ n ih =>
      obtain ⟨o, ho⟩ := hx.total s
      cases o with
      | none => exact ⟨[], s, .stop ho⟩
      | some x =>
          obtain ⟨m, r⟩ := x
          have hlt := hx.incremental.shrinks ho
          obtain ⟨ms, q, hd⟩ := ih r.length (h ▸ hlt) r rfl
          exact ⟨m :: ms, q, .item ho hd⟩

end Exact

end Framing
