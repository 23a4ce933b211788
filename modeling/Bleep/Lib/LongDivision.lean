/-
# `Bleep.Lib.LongDivision` — counted loops, and division by shifts and subtractions

`Loop.run` is a `while` loop under a bound on the number of its tests, and `Loop.Enters`
the states such a loop goes through.  An invariant graded by a number that every round
lowers (`Loop.Ranked`) gives both at once: the loop ends, and its last state is one where
the invariant holds and the test fails.

`Scaled n d j q r` is the invariant of a division of `n` by `d` whose quotient lacks its
last `j` bits.  Two ways of making the bits are covered: the next bit of the dividend is
brought down to the remainder (`Euclid.bring`), or a multiple of the divisor by a power of
two is taken off it (`Scaled.step`).
-/
import Mathlib

/-! ## Loops -/

namespace Loop

variable {σ : Type} (test : σ → Bool) (body : σ → σ)

/-- `while (test) body`; `none` when `fuel` tests were not enough. -/
def run : Nat → σ → Option σ
  | 0, _ => none
  | fuel + 1, s => if test s then run fuel (body s) else some s

/-- One round. -/
def Round (s t : σ) : Prop := test s = true ∧ t = body s

/-- `t` is a state of the loop that is entered at `s`. -/
def Enters : σ → σ → Prop := Relation.ReflTransGen (Round test body)

/-- An invariant graded by a number that every round lowers, and that keeps no round open
at `0`. -/
structure Ranked (I : Nat → σ → Prop) : Prop where
  stop : ∀ s, I 0 s → test s = false
  round : ∀ k s, I (k + 1) s → test s = true → I k (body s)

variable {test body} {I : Nat → σ → Prop}

/-- A loop with a graded invariant ends, whatever the bound on its tests, if only the
bound exceeds the grade. -/
theorem Ranked.run (h : Ranked test body I) {k fuel : Nat} {s : σ} (hI : I k s)
    (hk : k < fuel) :
    ∃ t j, Loop.run test body fuel s = some t ∧ test t = false ∧ I j t := by
  induction fuel generalizing k s with
  | zero => omega
  | succ fuel ih =>
      rw [Loop.run]
      cases hs : test s with
      | false => exact ⟨s, k, rfl, hs, hI⟩
      | true =>
          cases k with
          | zero => simp [h.stop s hI] at hs
          | succ k =>
              rw [if_pos rfl]
              exact ih (h.round k s hI hs) (by omega)

/-- The invariant holds in every state of the loop, at a grade no higher than at its start. -/
theorem Ranked.enters (h : Ranked test body I) {k : Nat} {s t : σ} (hI : I k s)
    (ht : Enters test body s t) : ∃ j ≤ k, I j t := by
  induction ht with
  | refl => exact ⟨k, Nat.le_refl k, hI⟩
  | tail _ hround ih =>
      obtain ⟨j, hj, hIj⟩ := ih
      obtain ⟨hs, rfl⟩ := hround
      cases j with
      | zero => simp [h.stop _ hIj] at hs
      | succ j => exact ⟨j, by omega, h.round j _ hIj hs⟩

end Loop

/-! ## Division -/

/-- `q` and `r` are the quotient and the remainder of `n` by `d`. -/
structure Euclid (n d q r : Nat) : Prop where
  eq : n = d * q + r
  lt : r < d

namespace Euclid

variable {n d q r b : Nat}

theorem div_mod (h : Euclid n d q r) : n / d = q ∧ n % d = r :=
  (Nat.div_mod_unique (Nat.zero_lt_of_lt h.lt)).mpr ⟨by rw [h.eq, Nat.add_comm], h.lt⟩

/-! The cases that need no loop. -/

theorem one (n : Nat) : Euclid n 1 n 0 := ⟨by omega, Nat.one_pos⟩

theorem self (hn : n ≠ 0) : Euclid n n 1 0 := ⟨by omega, Nat.pos_of_ne_zero hn⟩

theorem of_lt (h : n < d) : Euclid n d 0 n := ⟨by omega, h⟩

/-- The next bit of the dividend is brought down, and the divisor taken off if it fits. -/
theorem bring (h : Euclid n d q r) (hb : b < 2) :
    if d ≤ 2 * r + b then Euclid (2 * n + b) d (2 * q + 1) (2 * r + b - d)
    else Euclid (2 * n + b) d (2 * q) (2 * r + b) := by
  have heq := h.eq
  have hlt := h.lt
  have hmul : d * (2 * q) = 2 * (d * q) := by rw [Nat.mul_left_comm]
  have hmul' : d * (2 * q + 1) = 2 * (d * q) + d := by rw [Nat.mul_succ, hmul]
  split
  · constructor
    · rw [hmul']
      omega
    · omega
  · constructor
    · rw [hmul]
      omega
    · omega

theorem prefix_succ (n x : Nat) : n / 2 ^ x = 2 * (n / 2 ^ (x + 1)) + n / 2 ^ x % 2 := by
  rw [pow_succ, ← Nat.div_div_eq_div_mul]
  omega

end Euclid

/-- The quotient `q` lacks its last `j` bits: what is left of `n` is below `d * 2 ^ j`. -/
structure Scaled (n d j q r : Nat) : Prop where
  eq : n = d * q + r
  lt : r < d * 2 ^ j
  dvd : 2 ^ j ∣ q

namespace Scaled

variable {n d j q r : Nat}

theorem euclid (h : Scaled n d j q r) (hr : r < d) : Euclid n d q r := ⟨h.eq, hr⟩

theorem or_two_pow (h : 2 ^ (j + 1) ∣ q) : q ||| 2 ^ j = q + 2 ^ j := by
  obtain ⟨m, rfl⟩ := h
  exact (Nat.two_pow_add_eq_or_of_lt
    (Nat.pow_lt_pow_right Nat.one_lt_two (Nat.lt_succ_self j)) m).symm

/-- The scaled divisor is taken off if it fits, and its power of two entered in the
quotient. -/
theorem step (h : Scaled n d (j + 1) q r) :
    if d * 2 ^ j ≤ r then Scaled n d j (q ||| 2 ^ j) (r - d * 2 ^ j) else Scaled n d j q r := by
  have heq := h.eq
  have hlt := h.lt
  have hdvd : 2 ^ j ∣ q := (pow_dvd_pow 2 (Nat.le_succ j)).trans h.dvd
  rw [pow_succ, ← Nat.mul_assoc] at hlt
  split
  case isTrue hle =>
    rw [or_two_pow h.dvd]
    refine ⟨?_, by omega, dvd_add hdvd dvd_rfl⟩
    rw [Nat.mul_add]
    omega
  case isFalse hle => exact ⟨heq, by omega, hdvd⟩

/-- Before the first bit, with the divisor scaled to the length of the dividend. -/
theorem align (hle : d.size ≤ n.size) (hd : d ≠ 0) :
    Scaled n d (n.size - d.size + 1) 0 n := by
  refine ⟨by rw [Nat.mul_zero, Nat.zero_add], ?_, Nat.dvd_zero _⟩
  have hpos : 0 < d.size := Nat.size_pos.mpr (Nat.pos_of_ne_zero hd)
  have hge : 2 ^ (d.size - 1) ≤ d := Nat.lt_size.mp (by omega)
  calc n < 2 ^ n.size := Nat.lt_size_self n
    _ = 2 ^ (d.size - 1) * 2 ^ (n.size - d.size + 1) := by
        rw [← pow_add]
        congr 1
        omega
    _ ≤ d * 2 ^ (n.size - d.size + 1) := Nat.mul_le_mul_right _ hge

theorem align_lt (hle : d.size ≤ n.size) : d * 2 ^ (n.size - d.size) < 2 ^ n.size := by
  calc d * 2 ^ (n.size - d.size) < 2 ^ d.size * 2 ^ (n.size - d.size) :=
        Nat.mul_lt_mul_of_pos_right (Nat.lt_size_self d) (Nat.two_pow_pos _)
    _ = 2 ^ n.size := by
        rw [← pow_add]
        congr 1
        omega

end Scaled
