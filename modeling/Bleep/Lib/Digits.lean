/-
# `Bleep.Lib.Digits` — numbers written with the highest digit first

`Digits.value b` reads a list of digits at the base `b`.  It is what a loop that shifts and
adds computes, it splits at any place (`value_append`), and lists of digits of one length are
told apart by it (`value_inj`); digits at the base `b * b` are pairs of digits at `b`
(`value_pairs`).

A printed number is the list of its hexadecimal digits, padded on the left.  The padding
does not change what is read (`textValue_leftpad`).
-/
import Mathlib

namespace Digits

variable {b : Nat}

/-- The number a list of digits is read as. -/
def value (b : Nat) (ds : List Nat) : Nat := ds.foldl (fun n d => n * b + d) 0

theorem value_nil (b : Nat) : value b [] = 0 := rfl

theorem value_concat (b : Nat) (ds : List Nat) (d : Nat) :
    value b (ds ++ [d]) = value b ds * b + d := by
  rw [value, List.foldl_append]
  rfl

theorem value_append (b : Nat) (xs ys : List Nat) :
    value b (xs ++ ys) = value b xs * b ^ ys.length + value b ys := by
  induction ys using List.reverseRecOn with
  | nil => rw [List.append_nil, List.length_nil, pow_zero, Nat.mul_one, value_nil, Nat.add_zero]
  | append_singleton ys d ih =>
      rw [← List.append_assoc, value_concat, value_concat, ih, List.length_append,
        List.length_singleton, pow_succ]
      ring

theorem value_lt {ds : List Nat} (h : ∀ d ∈ ds, d < b) : value b ds < b ^ ds.length := by
  induction ds using List.reverseRecOn with
  | nil => exact Nat.one_pos
  | append_singleton ds d ih =>
      have hds := ih fun e he => h e (List.mem_append_left _ he)
      have hd : d < b := h d (List.mem_append_right _ (List.mem_singleton_self d))
      rw [value_concat, List.length_append, List.length_singleton, pow_succ]
      calc value b ds * b + d < value b ds * b + b := Nat.add_lt_add_left hd _
        _ = (value b ds + 1) * b := (Nat.succ_mul _ _).symm
        _ ≤ b ^ ds.length * b := Nat.mul_le_mul_right b hds

theorem value_inj {xs ys : List Nat} (hlen : xs.length = ys.length) (hx : ∀ d ∈ xs, d < b)
    (hy : ∀ d ∈ ys, d < b) (h : value b xs = value b ys) : xs = ys := by
  induction xs using List.reverseRecOn generalizing ys with
  | nil => exact (List.eq_nil_of_length_eq_zero hlen.symm).symm
  | append_singleton xs d ih =>
      cases ys using List.reverseRecOn with
      | nil => simp at hlen
      | append_singleton ys e =>
          have hd : d < b := hx d (List.mem_append_right _ (List.mem_singleton_self d))
          have he : e < b := hy e (List.mem_append_right _ (List.mem_singleton_self e))
          rw [value_concat, value_concat] at h
          have hde : d = e := by
            have hmod := congrArg (· % b) h
            simpa [Nat.mod_eq_of_lt hd, Nat.mod_eq_of_lt he] using hmod
          have hval : value b xs = value b ys := by
            refine Nat.eq_of_mul_eq_mul_right (Nat.zero_lt_of_lt hd) ?_
            omega
          rw [ih (by simpa using hlen) (fun c hc => hx c (List.mem_append_left _ hc))
            (fun c hc => hy c (List.mem_append_left _ hc)) hval, hde]

theorem value_replicate_zero (b n : Nat) (ds : List Nat) :
    value b (List.replicate n 0 ++ ds) = value b ds := by
  have hzero : value b (List.replicate n 0) = 0 := by
    induction n with
    | zero => rfl
    | succ n ih => rw [List.replicate_succ', value_concat, ih, Nat.zero_mul]
  rw [value_append, hzero, Nat.zero_mul, Nat.zero_add]

/-- A digit at the base `b * b` is two digits at the base `b`. -/
theorem value_pairs (b : Nat) (ds : List Nat) :
    value (b * b) ds = value b (ds.flatMap fun d => [d / b, d % b]) := by
  induction ds using List.reverseRecOn with
  | nil => rfl
  | append_singleton ds d ih =>
      have hd : value b [d / b, d % b] = d := by
        show (0 * b + d / b) * b + d % b = d
        rw [Nat.zero_mul, Nat.zero_add, Nat.div_add_mod']
      rw [value_concat, List.flatMap_append, List.flatMap_singleton, value_append, hd, ih]
      show _ = _ * b ^ 2 + d
      rw [Nat.pow_two]

/-! ## Text -/

/-- The lower-case hexadecimal digits. -/
def hexChars : List Char :=
  ['0', '1', '2', '3', '4', '5', '6', '7', '8', '9', 'a', 'b', 'c', 'd', 'e', 'f']

/-- The digit a character stands for. -/
def hexDigit (c : Char) : Nat := hexChars.idxOf c

theorem hexDigit_lt {c : Char} (h : c ∈ hexChars) : hexDigit c < 16 := List.idxOf_lt_length_of_mem h

theorem hexDigit_inj {c e : Char} (hc : c ∈ hexChars) (h : hexDigit c = hexDigit e) :
    c = e := (List.idxOf_inj hc).mp h

theorem digitChar_spec : ∀ d < 16, Nat.digitChar d ∈ hexChars ∧ hexDigit (Nat.digitChar d) = d := by
  decide

/-- The number a text of hexadecimal digits is read as. -/
def textValue (text : List Char) : Nat := value 16 (text.map hexDigit)

theorem textValue_append (s t : List Char) :
    textValue (s ++ t) = textValue s * 16 ^ t.length + textValue t := by
  rw [textValue, List.map_append, value_append, List.length_map]
  rfl

theorem textValue_singleton (c : Char) : textValue [c] = hexDigit c := by
  show 0 * 16 + hexDigit c = _
  rw [Nat.zero_mul, Nat.zero_add]

theorem map_hexDigit_inj {s t : List Char} (hs : ∀ c ∈ s, c ∈ hexChars)
    (h : s.map hexDigit = t.map hexDigit) : s = t := by
  induction s generalizing t with
  | nil => exact (List.map_eq_nil_iff.mp h.symm).symm
  | cons c s ih =>
      cases t with
      | nil => cases h
      | cons e t =>
          obtain ⟨hce, hst⟩ := List.cons.inj h
          rw [hexDigit_inj (hs c List.mem_cons_self) hce,
            ih (fun d hd => hs d (List.mem_cons_of_mem c hd)) hst]

/-- Texts of one length are told apart by what they are read as. -/
theorem textValue_inj {s t : List Char} (hlen : s.length = t.length) (hs : ∀ c ∈ s, c ∈ hexChars)
    (ht : ∀ c ∈ t, c ∈ hexChars) (h : textValue s = textValue t) : s = t := by
  have hdigits {u : List Char} (hu : ∀ c ∈ u, c ∈ hexChars) : ∀ d ∈ u.map hexDigit, d < 16 := by
    intro d hd
    obtain ⟨c, hc, rfl⟩ := List.mem_map.mp hd
    exact hexDigit_lt (hu c hc)
  refine map_hexDigit_inj hs (value_inj ?_ (hdigits hs) (hdigits ht) h)
  rw [List.length_map, List.length_map, hlen]

theorem textValue_toDigits (n : Nat) : textValue (Nat.toDigits 16 n) = n := by
  induction n using Nat.strongRecOn with
  | ind n ih =>
      rw [Nat.toDigits_eq_if (by decide)]
      split
      case isTrue h => rw [textValue_singleton, (digitChar_spec n h).2]
      case isFalse h =>
        rw [textValue_append, ih (n / 16) (by omega), textValue_singleton,
          (digitChar_spec _ (Nat.mod_lt n (by decide))).2, List.length_singleton, pow_one,
          Nat.div_add_mod']

theorem mem_toDigits {n : Nat} : ∀ c ∈ Nat.toDigits 16 n, c ∈ hexChars := by
  induction n using Nat.strongRecOn with
  | ind n ih =>
      rw [Nat.toDigits_eq_if (by decide)]
      split
      case isTrue h =>
        intro c hc
        rw [List.mem_singleton.mp hc]
        exact (digitChar_spec n h).1
      case isFalse h =>
        intro c hc
        rcases List.mem_append.mp hc with hc | hc
        · exact ih (n / 16) (by omega) c hc
        · rw [List.mem_singleton.mp hc]
          exact (digitChar_spec _ (Nat.mod_lt n (by decide))).1

/-- A number padded to `w` digits: as wide as asked for, of digits only, and read back. -/
theorem leftpad_spec {w n : Nat} (hw : 0 < w) (h : n < 16 ^ w) :
    (List.leftpad w '0' (Nat.toDigits 16 n)).length = w
      ∧ (∀ c ∈ List.leftpad w '0' (Nat.toDigits 16 n), c ∈ hexChars)
      ∧ textValue (List.leftpad w '0' (Nat.toDigits 16 n)) = n := by
  have hlen : (Nat.toDigits 16 n).length ≤ w :=
    (Nat.length_toDigits_le_iff (by decide) hw).mpr h
  refine ⟨by rw [List.length_leftpad]; exact Nat.max_eq_left hlen, ?_, ?_⟩
  · intro c hc
    rcases List.mem_append.mp hc with hc | hc
    · rw [List.eq_of_mem_replicate hc]
      decide
    · exact mem_toDigits c hc
  · have hzero : hexDigit '0' = 0 := rfl
    rw [textValue, List.leftpad, List.map_append, List.map_replicate, hzero, value_replicate_zero]
    exact textValue_toDigits n

/-! ## Bytes in memory -/

/-- The `k` bytes of a number, the lowest first. -/
def littleEndian : Nat → Nat → List UInt8
  | 0, _ => []
  | k + 1, n => UInt8.ofNat n :: littleEndian k (n / 256)

theorem length_littleEndian (k n : Nat) : (littleEndian k n).length = k := by
  induction k generalizing n with
  | zero => rfl
  | succ k ih => rw [littleEndian, List.length_cons, ih]

theorem littleEndian_mod (k n : Nat) : littleEndian k (n % 256 ^ k) = littleEndian k n := by
  induction k generalizing n with
  | zero => rfl
  | succ k ih =>
      have hlow : n % 256 ^ (k + 1) % 256 = n % 256 :=
        Nat.mod_mod_of_dvd n (dvd_pow_self 256 k.succ_ne_zero)
      have hhigh : n % 256 ^ (k + 1) / 256 = n / 256 % 256 ^ k := by
        rw [pow_succ', Nat.mod_mul_right_div_self]
      have hbyte : UInt8.ofNat (n % 256 ^ (k + 1)) = UInt8.ofNat n :=
        UInt8.toNat_inj.mp (by rw [UInt8.toNat_ofNat', UInt8.toNat_ofNat']; exact hlow)
      rw [littleEndian, littleEndian, hbyte, hhigh, ih]

theorem littleEndian_inj {k m n : Nat} (hm : m < 256 ^ k) (hn : n < 256 ^ k)
    (h : littleEndian k m = littleEndian k n) : m = n := by
  induction k generalizing m n with
  | zero => omega
  | succ k ih =>
      obtain ⟨hlow, hrest⟩ := List.cons.inj h
      have hbyte : m % 256 = n % 256 := by simpa using congrArg UInt8.toNat hlow
      rw [pow_succ] at hm hn
      have hhigh : m / 256 = n / 256 := ih (by omega) (by omega) hrest
      omega

end Digits
