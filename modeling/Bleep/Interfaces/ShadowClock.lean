/-
# `Bleep.Interfaces.ShadowClock` — the time a clock update passes on

`next_shadow_clock_update` takes the difference of two readings of the clock, with a branch
for a nanosecond part that went down.  `PrintTimeDiff` has the same formula in milliseconds.
The branch borrows a second but adds the nanoseconds the wrong way round: it is right only
where the two nanosecond parts are half a second apart (`nanoseconds_eq_iff`).

Arithmetic is exact, on integers and rationals.
-/
import Mathlib

namespace Bleep

/-- `struct timespec`, as `clock_gettime` fills it in. -/
structure Timespec where
  tv_sec : Int
  tv_nsec : Int
  nonneg : 0 ≤ tv_nsec
  lt : tv_nsec < 10 ^ 9

namespace Timespec

/-- The nanoseconds from one reading to another. -/
def elapsed (start cur : Timespec) : Int :=
  (cur.tv_sec - start.tv_sec) * 10 ^ 9 + (cur.tv_nsec - start.tv_nsec)

/-- `nanoseconds` of `next_shadow_clock_update`. -/
def nanoseconds (clock_start cur : Timespec) : Int :=
  if cur.tv_nsec ≥ clock_start.tv_nsec then
    (cur.tv_nsec - clock_start.tv_nsec) + (cur.tv_sec - clock_start.tv_sec) * 10 ^ 9
  else (clock_start.tv_nsec - cur.tv_nsec) + (cur.tv_sec - clock_start.tv_sec - 1) * 10 ^ 9

/-- `milliseconds` of `PrintTimeDiff`. -/
def milliseconds (start «end» : Timespec) : Rat :=
  if «end».tv_nsec ≥ start.tv_nsec then
    ((«end».tv_nsec - start.tv_nsec : Int) : Rat) / 10 ^ 6
      + ((«end».tv_sec - start.tv_sec : Int) : Rat) * 10 ^ 3
  else
    ((start.tv_nsec - «end».tv_nsec : Int) : Rat) / 10 ^ 6
      + ((«end».tv_sec - start.tv_sec - 1 : Int) : Rat) * 10 ^ 3

/-- The nanosecond part does not go down, or goes down by half a second. -/
def Unborrowed (start cur : Timespec) : Prop :=
  start.tv_nsec ≤ cur.tv_nsec ∨ start.tv_nsec - cur.tv_nsec = 5 * 10 ^ 8

instance (start cur : Timespec) : Decidable (Unborrowed start cur) :=
  inferInstanceAs (Decidable (_ ∨ _))

variable {start cur : Timespec}

/-- What the borrowing branch passes on. -/
theorem nanoseconds_borrow (h : cur.tv_nsec < start.tv_nsec) :
    nanoseconds start cur = elapsed start cur + (2 * (start.tv_nsec - cur.tv_nsec) - 10 ^ 9) := by
  rw [nanoseconds, if_neg (not_le.mpr h), elapsed]
  ring

theorem nanoseconds_eq_iff : nanoseconds start cur = elapsed start cur ↔ Unborrowed start cur := by
  by_cases h : start.tv_nsec ≤ cur.tv_nsec
  · have heq : nanoseconds start cur = elapsed start cur := by
      rw [nanoseconds, if_pos h, elapsed]
      ring
    exact ⟨fun _ => .inl h, fun _ => heq⟩
  · rw [nanoseconds_borrow (not_le.mp h), Unborrowed]
    constructor
    · intro heq
      exact .inr (by omega)
    · rintro (hle | hhalf)
      · exact absurd hle h
      · omega

theorem milliseconds_eq (start cur : Timespec) :
    milliseconds start cur = (nanoseconds start cur : Rat) / 10 ^ 6 := by
  rw [milliseconds, nanoseconds]
  split
  · push_cast
    ring
  · push_cast
    ring

theorem milliseconds_eq_iff :
    milliseconds start cur = (elapsed start cur : Rat) / 10 ^ 6 ↔ Unborrowed start cur := by
  have h6 : (10 ^ 6 : Rat) ≠ 0 := by norm_num
  rw [milliseconds_eq, div_left_inj' h6, Int.cast_inj, nanoseconds_eq_iff]

theorem elapsed_trans (a b c : Timespec) : elapsed a b + elapsed b c = elapsed a c := by
  simp only [elapsed]
  ring

end Timespec

/-! ## Runs -/

/-- The static `clock_start`, and what the calls of `next_shadow_clock_update` passed on. -/
structure ShadowClock where
  clock_start : Timespec
  passed : List Int

namespace ShadowClock

open Timespec

/-- `init_shadow_clock_update`, with the reading it takes. -/
def init_shadow_clock_update (cur : Timespec) : ShadowClock := ⟨cur, []⟩

/-- `next_shadow_clock_update`, with the reading it takes. -/
def next_shadow_clock_update (s : ShadowClock) (cur : Timespec) : ShadowClock :=
  ⟨cur, s.passed ++ [nanoseconds s.clock_start cur]⟩

/-- A run: `init`, then `next` with each further reading. -/
def run (first : Timespec) (rest : List Timespec) : ShadowClock :=
  rest.foldl next_shadow_clock_update (init_shadow_clock_update first)

/-- The pairs of successive readings. -/
def steps : Timespec → List Timespec → List (Timespec × Timespec)
  | _, [] => []
  | start, cur :: rest => (start, cur) :: steps cur rest

theorem foldl_next (s : ShadowClock) (rest : List Timespec) :
    rest.foldl next_shadow_clock_update s
      = ⟨rest.getLastD s.clock_start,
          s.passed ++ (steps s.clock_start rest).map fun p => nanoseconds p.1 p.2⟩ := by
  induction rest generalizing s with
  | nil => simp [steps]
  | cons cur rest ih =>
      rw [List.foldl_cons, ih, steps, List.map_cons, List.getLastD_cons,
        next_shadow_clock_update, List.append_assoc]
      rfl

theorem run_eq (first : Timespec) (rest : List Timespec) :
    run first rest
      = ⟨rest.getLastD first, (steps first rest).map fun p => nanoseconds p.1 p.2⟩ :=
  foldl_next _ rest

/-- The time that really passes telescopes. -/
theorem sum_elapsed (first : Timespec) (rest : List Timespec) :
    ((steps first rest).map fun p => elapsed p.1 p.2).sum =
      elapsed first (rest.getLastD first) := by
  induction rest generalizing first with
  | nil => simp [steps, elapsed]
  | cons cur rest ih =>
      rw [steps, List.map_cons, List.sum_cons, ih, elapsed_trans, List.getLastD_cons]

theorem eq_of_sum_eq {α : Type} {l : List α} {f g : α → Int} (hle : ∀ x ∈ l, f x ≤ g x)
    (hsum : (l.map f).sum = (l.map g).sum) : ∀ x ∈ l, f x = g x := by
  induction l with
  | nil =>
      intro x hx
      cases hx
  | cons a l ih =>
      have ha := hle a List.mem_cons_self
      have hl : ∀ x ∈ l, f x ≤ g x := fun x hx => hle x (List.mem_cons_of_mem a hx)
      have hrest := List.sum_le_sum hl
      rw [List.map_cons, List.map_cons, List.sum_cons, List.sum_cons] at hsum
      intro x hx
      rcases List.mem_cons.mp hx with rfl | hx
      · omega
      · exact ih hl (by omega) x hx

/-- What a run passes on adds up to the time between its first and its last reading, and
no part of it exceeds the time that passed in its step. -/
structure Exact (first : Timespec) (rest : List Timespec) : Prop where
  sum : (run first rest).passed.sum = elapsed first (run first rest).clock_start
  le : List.Forall₂ (fun d p => d ≤ elapsed p.1 p.2) (run first rest).passed (steps first rest)

theorem exact_iff (first : Timespec) (rest : List Timespec) :
    Exact first rest ↔ ∀ p ∈ steps first rest, Unborrowed p.1 p.2 := by
  have hle_iff : List.Forall₂ (fun d p => d ≤ elapsed p.1 p.2) (run first rest).passed
      (steps first rest) ↔ ∀ p ∈ steps first rest, nanoseconds p.1 p.2 ≤ elapsed p.1 p.2 := by
    rw [run_eq, List.forall₂_map_left_iff, List.forall₂_same]
  constructor
  · rintro ⟨hsum, hle⟩
    rw [run_eq, ← sum_elapsed] at hsum
    have heq := eq_of_sum_eq (hle_iff.mp hle) hsum
    intro p hp
    exact nanoseconds_eq_iff.mp (heq p hp)
  · intro h
    have heq : ∀ p ∈ steps first rest, nanoseconds p.1 p.2 = elapsed p.1 p.2 :=
      fun p hp => nanoseconds_eq_iff.mpr (h p hp)
    refine ⟨?_, hle_iff.mpr fun p hp => (heq p hp).le⟩
    rw [run_eq, List.map_congr_left heq]
    exact sum_elapsed first rest

/-- A difference is exact, in nanoseconds and in milliseconds, and a run adds up to the
time that passed, exactly where no nanosecond part goes down but by half a second. -/
theorem clock_exact_iff (start cur first : Timespec) (rest : List Timespec) :
    (nanoseconds start cur = elapsed start cur ↔ Unborrowed start cur)
      ∧ (milliseconds start cur = (elapsed start cur : Rat) / 10 ^ 6 ↔ Unborrowed start cur)
      ∧ (Exact first rest ↔ ∀ p ∈ steps first rest, Unborrowed p.1 p.2) :=
  ⟨nanoseconds_eq_iff, milliseconds_eq_iff, exact_iff first rest⟩

/-- A tenth of a second across a second boundary is passed on as nine tenths. -/
theorem clock_exact_fails :
    ¬ ∀ start cur : Timespec, 0 ≤ elapsed start cur →
      nanoseconds start cur = elapsed start cur
        ∧ milliseconds start cur = (elapsed start cur : Rat) / 10 ^ 6 := by
  intro h
  have hns := (h ⟨0, 9 * 10 ^ 8, by decide, by decide⟩ ⟨1, 0, by decide, by decide⟩ (by decide)).1
  exact absurd hns (by decide)

end ShadowClock

end Bleep
