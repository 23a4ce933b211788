/-
# `Bleep.Fault` — the ways a handler can stop the process

The library is C++: a failed `M_Assert` calls `abort()`, following a null or
missing object is undefined behaviour, and a `while (true)` need not end.  A
modelled function that can do any of these answers in `Except Fault`.
-/
import Mathlib

namespace Bleep

inductive Fault where
  /-- `M_Assert(expr, msg)` with a false `expr`. -/
  | assertion (msg : String)
  /-- A null `shared_ptr` is followed, or the front of an empty container is read. -/
  | nullDeref
  /-- A loop goes on for more rounds than there are entries to visit. -/
  | diverges
  /-- `exit(-1)` after a failed system call. -/
  | exit
  /-- Memory outside an object is read or written. -/
  | outOfBounds
  /-- An exception nobody catches. -/
  | uncaught
  deriving DecidableEq, Repr

/-- `M_Assert(b, msg)`. -/
def mAssert (b : Bool) (msg : String) : Except Fault Unit :=
  if b then .ok () else .error (.assertion msg)

@[simp] theorem mAssert_true (msg : String) : mAssert true msg = .ok () := rfl

@[simp] theorem mAssert_false (msg : String) : mAssert false msg = .error (.assertion msg) := rfl

theorem bind_ok {α β : Type} {x : Except Fault α} {f : α → Except Fault β} {r : β} :
    (x >>= f) = .ok r ↔ ∃ a, x = .ok a ∧ f a = .ok r := by
  cases x with
  | error e =>
      constructor
      · intro h
        exact nomatch h
      · rintro ⟨_, h, _⟩
        exact nomatch h
  | ok a => exact ⟨fun h => ⟨a, rfl, h⟩, fun ⟨_, h, h'⟩ => Except.ok.inj h ▸ h'⟩

theorem bind_error {α β : Type} {x : Except Fault α} {f : α → Except Fault β} {e : Fault} :
    (x >>= f) = .error e ↔ x = .error e ∨ ∃ a, x = .ok a ∧ f a = .error e := by
  cases x with
  | error e' =>
      constructor
      · intro h
        exact .inl (congrArg _ (Except.error.inj h))
      · rintro (h | ⟨_, h, _⟩)
        · exact congrArg _ (Except.error.inj h)
        · exact nomatch h
  | ok a =>
      constructor
      · intro h
        exact .inr ⟨a, rfl, h⟩
      · rintro (h | ⟨_, h, h'⟩)
        · exact nomatch h
        · exact Except.ok.inj h ▸ h'

theorem mAssert_ok {b : Bool} {msg : String} {u : Unit} : mAssert b msg = .ok u ↔ b = true := by
  cases b with
  | true => exact ⟨fun _ => rfl, fun _ => rfl⟩
  | false => exact ⟨(nomatch ·), (nomatch ·)⟩

end Bleep
