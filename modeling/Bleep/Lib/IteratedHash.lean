/-
# `Bleep.Lib.IteratedHash` — hashing a stream in blocks

The construction of Merkle and Damgård over any compression function: items are
collected until they fill a block, full blocks are compressed into the state, and
what is left at the end is padded to whole blocks.

An implementation that is fed piece by piece computes this whatever the pieces are,
because taking items one by one does not look at them (`absorb_append`).

If the padding tells the lengths of the inputs apart, then two inputs with the same digest
have a collision among the compressions made for them (`collides_of_digest_eq`).  It is
looked for among those: that there is some collision is a matter of counting.
-/
import Mathlib

namespace IteratedHash

variable {σ β : Type} (compress : σ → List β → σ) (n : Nat)

/-- One item: the block it fills is compressed. -/
def feed (st : σ × List β) (x : β) : σ × List β :=
  if st.2.length + 1 = n then (compress st.1 (st.2 ++ [x]), []) else (st.1, st.2 ++ [x])

/-- The state and the items that do not fill a block yet. -/
def absorb (st : σ × List β) (xs : List β) : σ × List β := xs.foldl (feed compress n) st

variable {compress n} {st : σ × List β} {s : σ} {p xs ys : List β}

theorem absorb_nil : absorb compress n st [] = st := rfl

theorem absorb_cons (x : β) :
    absorb compress n st (x :: xs) = absorb compress n (feed compress n st x) xs := rfl

theorem absorb_append :
    absorb compress n st (xs ++ ys) = absorb compress n (absorb compress n st xs) ys :=
  List.foldl_append

theorem absorb_within (h : p.length + xs.length < n) :
    absorb compress n (s, p) xs = (s, p ++ xs) := by
  induction xs generalizing p with
  | nil => rw [absorb_nil, List.append_nil]
  | cons x xs ih =>
      rw [List.length_cons] at h
      have hfeed : feed compress n (s, p) x = (s, p ++ [x]) := if_neg (by dsimp only; omega)
      rw [absorb_cons, hfeed, ih (by simp; omega), List.append_assoc, List.singleton_append]

theorem absorb_fill (h : p.length + xs.length = n) (hxs : xs ≠ []) :
    absorb compress n (s, p) xs = (compress s (p ++ xs), []) := by
  obtain ⟨ys, x, rfl⟩ := List.eq_nil_or_concat xs |>.resolve_left hxs
  rw [List.concat_eq_append, List.length_append, List.length_singleton] at h
  have hbefore : absorb compress n (s, p) ys = (s, p ++ ys) := absorb_within (by omega)
  rw [List.concat_eq_append, absorb_append, hbefore, absorb_cons, absorb_nil, ← List.append_assoc]
  exact if_pos (by rw [List.length_append]; omega)

variable (compress st xs) in
theorem length_absorb (h : st.2.length < n) :
    (absorb compress n st xs).2.length = (st.2.length + xs.length) % n := by
  induction xs generalizing st with
  | nil => rw [absorb_nil, List.length_nil, Nat.add_zero, Nat.mod_eq_of_lt h]
  | cons x xs ih =>
      rw [absorb_cons, List.length_cons]
      by_cases hfull : st.2.length + 1 = n
      · have hfeed : feed compress n st x = (compress st.1 (st.2 ++ [x]), []) := if_pos hfull
        have hempty : (compress st.1 (st.2 ++ [x]), ([] : List β)).2.length < n :=
          Nat.zero_lt_of_lt h
        have hsum : st.2.length + (xs.length + 1) = n + xs.length := by omega
        rw [hfeed, ih _ hempty, List.length_nil, Nat.zero_add, hsum, Nat.add_mod_left]
      · have hfeed : feed compress n st x = (st.1, st.2 ++ [x]) := if_neg hfull
        have hlen : (st.2 ++ [x]).length = st.2.length + 1 := by
          rw [List.length_append, List.length_singleton]
        rw [hfeed, ih _ (by dsimp only; omega)]
        dsimp only
        rw [hlen]
        congr 1
        omega

variable (compress s) in
theorem absorb_whole (hn : 0 < n) (h : n ∣ xs.length) :
    absorb compress n (s, []) xs = ((absorb compress n (s, []) xs).1, []) := by
  have hlen := length_absorb compress (s, []) xs hn
  rw [List.length_nil, Nat.zero_add, Nat.mod_eq_zero_of_dvd h] at hlen
  exact Prod.ext rfl (List.eq_nil_of_length_eq_zero hlen)

/-! ## The compressions that are made -/

variable (compress n)

/-- What is compressed while the items are taken, in order. -/
def compressions (st : σ × List β) : List β → List (σ × List β)
  | [] => []
  | x :: xs =>
      if st.2.length + 1 = n then (st.1, st.2 ++ [x]) :: compressions (feed compress n st x) xs
      else compressions (feed compress n st x) xs

variable {compress n}

theorem compressions_append :
    compressions compress n st (xs ++ ys) =
      compressions compress n st xs ++ compressions compress n (absorb compress n st xs) ys := by
  induction xs generalizing st with
  | nil => rfl
  | cons x xs ih =>
      rw [List.cons_append, compressions, compressions, absorb_cons, ih]
      split
      · rw [List.cons_append]
      · rfl

/-- The last compression of items that fill the block. -/
theorem mem_compressions_fill (h : p.length + xs.length = n) (hxs : xs ≠ []) :
    (s, p ++ xs) ∈ compressions compress n (s, p) xs := by
  obtain ⟨ys, x, rfl⟩ := List.eq_nil_or_concat xs |>.resolve_left hxs
  rw [List.concat_eq_append, List.length_append, List.length_singleton] at h
  have hbefore : absorb compress n (s, p) ys = (s, p ++ ys) := absorb_within (by omega)
  have hfull : (p ++ ys).length + 1 = n := by
    rw [List.length_append]
    omega
  rw [List.concat_eq_append, compressions_append, hbefore, compressions, if_pos hfull,
    List.append_assoc]
  exact List.mem_append_right _ List.mem_cons_self

theorem length_of_mem_compressions {q : σ × List β} (h : q ∈ compressions compress n st xs) :
    q.2.length = n := by
  induction xs generalizing st with
  | nil => cases h
  | cons x xs ih =>
      rw [compressions] at h
      split at h
      case isTrue hfull =>
        rcases List.mem_cons.mp h with rfl | h
        · rw [List.length_append, List.length_singleton, hfull]
        · exact ih h
      case isFalse => exact ih h

variable (compress)

/-- Two different compressions, one of each list, with the same outcome. -/
def Collides (qs qs' : List (σ × List β)) : Prop :=
  ∃ q ∈ qs, ∃ q' ∈ qs', q ≠ q' ∧ compress q.1 q.2 = compress q'.1 q'.2

variable {compress}

theorem Collides.mono {qs qs' rs rs' : List (σ × List β)} (h : Collides compress qs qs')
    (hsub : qs ⊆ rs) (hsub' : qs' ⊆ rs') : Collides compress rs rs' := by
  obtain ⟨q, hq, q', hq', hrest⟩ := h
  exact ⟨q, hsub hq, q', hsub' hq', hrest⟩

/-! ## Digests -/

variable (compress n)

/-- A padding for blocks of `n` items: it depends on the length, fills the last block, and
ends in `tail`, which tells apart the lengths below `bound`. -/
structure Padding (β : Type) (n bound : Nat) where
  pad : Nat → List β
  tail : Nat → List β
  whole : ∀ len, n ∣ len + (pad len).length
  suffix : ∀ len, tail len <:+ pad len
  size : Nat
  fits : size ≤ n
  length_tail : ∀ len, (tail len).length = size
  inj : ∀ {len len'}, len < bound → len' < bound → tail len = tail len' → len = len'

/-- The state after the padded input. -/
def digest {bound : Nat} (P : Padding β n bound) (iv : σ) (xs : List β) : σ :=
  (absorb compress n (iv, []) (xs ++ P.pad xs.length)).1

/-- The compressions made for a digest. -/
def digestCalls {bound : Nat} (P : Padding β n bound) (iv : σ) (xs : List β) :
    List (σ × List β) :=
  compressions compress n (iv, []) (xs ++ P.pad xs.length)

variable {compress n}

variable (compress) in
theorem exists_last (hn : 0 < n) (h : n ∣ xs.length) (hne : xs ≠ []) :
    ∃ init b, xs = init ++ b ∧ b.length = n ∧ n ∣ init.length ∧ ∀ s : σ,
      (absorb compress n (s, []) xs).1 = compress (absorb compress n (s, []) init).1 b ∧
      ((absorb compress n (s, []) init).1, b) ∈ compressions compress n (s, []) xs := by
  obtain ⟨k, hk⟩ := h
  have hpos : 0 < xs.length := List.length_pos_of_ne_nil hne
  have hk1 : k ≠ 0 := by
    rintro rfl
    omega
  have hsub : n * (k - 1) + n = xs.length := by
    rw [hk, ← Nat.mul_succ, Nat.succ_eq_add_one, Nat.sub_add_cancel (Nat.pos_of_ne_zero hk1)]
  obtain ⟨init, b, rfl, hinit⟩ : ∃ init b, xs = init ++ b ∧ init.length = n * (k - 1) :=
    ⟨xs.take (n * (k - 1)), xs.drop (n * (k - 1)), (List.take_append_drop _ _).symm,
      List.length_take_of_le (by omega)⟩
  have hb : b.length = n := by
    rw [List.length_append] at hsub
    omega
  refine ⟨init, b, rfl, hb, ⟨k - 1, hinit⟩, fun s => ?_⟩
  have hwhole := absorb_whole compress s hn ⟨k - 1, hinit⟩
  have hfill : ([] : List β).length + b.length = n := by rw [List.length_nil, Nat.zero_add, hb]
  have hcons : b ≠ [] := List.ne_nil_of_length_pos (by omega)
  constructor
  · rw [absorb_append, hwhole, absorb_fill hfill hcons, List.nil_append]
  · rw [compressions_append, hwhole]
    exact List.mem_append_right _ (mem_compressions_fill hfill hcons)

/-- Different inputs of one length, in whole blocks. -/
theorem collides_of_absorb_eq (hn : 0 < n) (hlen : xs.length = ys.length) (h : n ∣ xs.length)
    (hne : xs ≠ ys) {s : σ}
    (heq : (absorb compress n (s, []) xs).1 = (absorb compress n (s, []) ys).1) :
    Collides compress (compressions compress n (s, []) xs)
      (compressions compress n (s, []) ys) := by
  induction hm : xs.length using Nat.strong_induction_on generalizing xs ys with
  | _ m ih =>
      by_cases hnil : xs = []
      · subst hnil
        exact absurd (List.eq_nil_of_length_eq_zero hlen.symm).symm hne
      · have hnil' : ys ≠ [] := by
          rintro rfl
          exact hnil (List.eq_nil_of_length_eq_zero hlen)
        obtain ⟨init, b, rfl, hb, hinit, hlast⟩ := exists_last compress hn h hnil
        obtain ⟨init', b', rfl, hb', -, hlast'⟩ :=
          exists_last compress hn (hlen ▸ h) hnil'
        rw [(hlast s).1, (hlast' s).1] at heq
        by_cases hsame : ((absorb compress n (s, []) init).1, b) =
            ((absorb compress n (s, []) init').1, b')
        · -- the collision is further to the front
          obtain ⟨hstate, rfl⟩ := Prod.mk.inj hsame
          rw [List.length_append, List.length_append] at hlen
          rw [List.length_append] at hm
          have hfront := ih init.length (by omega) (by omega) hinit
            (fun h => hne (by rw [h])) hstate rfl
          rw [compressions_append, compressions_append]
          exact hfront.mono (List.subset_append_left _ _) (List.subset_append_left _ _)
        · exact ⟨_, (hlast s).2, _, (hlast' s).2, hsame, heq⟩

theorem collides_of_digest_eq {bound : Nat} (P : Padding β n bound) (hn : 0 < n) {iv : σ}
    (hx : xs.length < bound) (hy : ys.length < bound) (hne : xs ≠ ys)
    (heq : digest compress n P iv xs = digest compress n P iv ys) :
    Collides compress (digestCalls compress n P iv xs) (digestCalls compress n P iv ys) := by
  have hwhole : ∀ zs : List β, n ∣ (zs ++ P.pad zs.length).length := fun zs => by
    rw [List.length_append]
    exact P.whole zs.length
  by_cases hlen : xs.length = ys.length
  · have hpad : P.pad xs.length = P.pad ys.length := by rw [hlen]
    refine collides_of_absorb_eq hn ?_ (hwhole xs) ?_ heq
    · rw [List.length_append, List.length_append, hlen]
    · rw [hpad]
      exact fun h => hne (List.append_cancel_right h)
  · -- the last blocks differ in the lengths they tell
    have hends : ∀ {zs init b : List β}, zs ++ P.pad zs.length = init ++ b → b.length = n →
        P.tail zs.length <:+ b := by
      intro zs init b hsplit hb
      have hsuffix : P.tail zs.length <:+ init ++ b :=
        hsplit ▸ (P.suffix zs.length).trans (List.suffix_append zs _)
      refine List.suffix_of_suffix_length_le hsuffix (List.suffix_append init b) ?_
      rw [P.length_tail, hb]
      exact P.fits
    have hsize : 0 < P.size := by
      refine Nat.pos_of_ne_zero fun hzero => hlen (P.inj hx hy ?_)
      have hnil : ∀ len, P.tail len = [] := fun len =>
        List.eq_nil_of_length_eq_zero ((P.length_tail len).trans hzero)
      rw [hnil, hnil]
    have hnonempty : ∀ zs : List β, zs ++ P.pad zs.length ≠ [] := by
      intro zs h
      have hle := (P.suffix zs.length).length_le
      rw [(List.append_eq_nil_iff.mp h).2, P.length_tail] at hle
      exact absurd hsize (by simpa using hle)
    obtain ⟨init, b, hsplit, hb, -, hlast⟩ :=
      exists_last compress hn (hwhole xs) (hnonempty xs)
    obtain ⟨init', b', hsplit', hb', -, hlast'⟩ :=
      exists_last compress hn (hwhole ys) (hnonempty ys)
    rw [digest, digest, (hlast iv).1, (hlast' iv).1] at heq
    refine ⟨_, (hlast iv).2, _, (hlast' iv).2, fun hsame => ?_, heq⟩
    obtain ⟨-, rfl⟩ := Prod.mk.inj hsame
    have hle : (P.tail xs.length).length ≤ (P.tail ys.length).length := by
      rw [P.length_tail, P.length_tail]
    have htails := List.suffix_of_suffix_length_le (hends hsplit hb) (hends hsplit' hb') hle
    exact hlen (P.inj hx hy (htails.eq_of_length (by rw [P.length_tail, P.length_tail])))

end IteratedHash
