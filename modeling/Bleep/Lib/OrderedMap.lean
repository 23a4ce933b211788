/-
# `Bleep.Lib.OrderedMap` — searching and counting the entries of an ordered map

`Std.TreeMap` is the map that iterates in the order of its keys.  Two questions
about the entries as a list come up where such a map is searched with
`std::find_if`, or has its entries counted on the side: which entry is the first
with a property (`find?_eq_some_iff`), and how a count moves when an entry is
stored or erased (`count_insert`, `count_erase`).
-/
import Mathlib

namespace OrderedMap

variable {K V : Type} [LinearOrder K] {t : Std.TreeMap K V} {k x : K} {v : V}

theorem mem_toList : (k, v) ∈ t.toList ↔ t[k]? = some v :=
  Std.TreeMap.mem_toList_iff_getElem?_eq_some

theorem getElem?_insert : (t.insert k v)[x]? = if x = k then some v else t[x]? := by
  rw [Std.TreeMap.getElem?_insert]
  simp only [compare_eq_iff_eq, eq_comm (a := x)]

theorem getElem?_erase : (t.erase k)[x]? = if x = k then none else t[x]? := by
  rw [Std.TreeMap.getElem?_erase]
  simp only [compare_eq_iff_eq, eq_comm (a := x)]

theorem sorted_toList (t : Std.TreeMap K V) : t.toList.Pairwise fun a b => a.1 < b.1 :=
  Std.TreeMap.ordered_keys_toList.imp compare_lt_iff_lt.mp

theorem nodup_toList (t : Std.TreeMap K V) : t.toList.Nodup :=
  (sorted_toList t).imp fun h he => (he ▸ h).false

/-! ## The first entry with a property -/

theorem find?_eq_some_iff {f : K × V → Bool} : t.toList.find? f = some (k, v) ↔
    t[k]? = some v ∧ f (k, v) = true ∧
      ∀ x w, x < k → t[x]? = some w → f (x, w) = false := by
  constructor
  · intro h
    obtain ⟨hf, pre, post, hl, hpre⟩ := List.find?_eq_some_iff_append.mp h
    refine ⟨mem_toList.mp (List.mem_of_find?_eq_some h), hf, fun x w hx hw => ?_⟩
    have hsorted := sorted_toList t
    have hmem := mem_toList.mpr hw
    rw [hl] at hsorted hmem
    rcases List.mem_append.mp hmem with hin | hin
    · simpa using hpre _ hin
    · rcases List.mem_cons.mp hin with he | hin
      · exact absurd ((Prod.mk.inj he).1 ▸ hx) (lt_irrefl k)
      · -- the entries behind it have larger keys
        have hafter := (List.pairwise_cons.mp (List.pairwise_append.mp hsorted).2.1).1 _ hin
        exact absurd (hx.trans hafter) (lt_irrefl x)
  · rintro ⟨hk, hf, hfirst⟩
    cases hfind : t.toList.find? f with
    | none =>
        have hno := List.find?_eq_none.mp hfind _ (mem_toList.mpr hk)
        exact absurd hf hno
    | some e =>
        obtain ⟨x, w⟩ := e
        have hx := mem_toList.mp (List.mem_of_find?_eq_some hfind)
        have hfx : f (x, w) = true := List.find?_some hfind
        obtain ⟨-, pre, post, hl, hpre⟩ := List.find?_eq_some_iff_append.mp hfind
        rcases lt_trichotomy x k with hlt | rfl | hgt
        · exact nomatch (hfirst x w hlt hx).symm.trans hfx
        · rw [Option.some.inj (hx.symm.trans hk)]
        · -- then the entry of `k` stands before it
          have hsorted := sorted_toList t
          have hmem := mem_toList.mpr hk
          rw [hl] at hsorted hmem
          rcases List.mem_append.mp hmem with hin | hin
          · have hno := hpre _ hin
            rw [hf] at hno
            exact nomatch hno
          · rcases List.mem_cons.mp hin with he | hin
            · exact absurd ((Prod.mk.inj he).1 ▸ hgt) (lt_irrefl x)
            · have hafter := (List.pairwise_cons.mp (List.pairwise_append.mp hsorted).2.1).1 _ hin
              exact absurd (hgt.trans hafter) (lt_irrefl k)

/-! ## Counting entries -/

/-- The number of entries whose value has the property. -/
def count (t : Std.TreeMap K V) (f : V → Bool) : Nat := t.toList.countP fun e => f e.2

/-- A map is determined by what is found in it. -/
theorem toList_perm {t t' : Std.TreeMap K V} (h : ∀ x : K, t[x]? = t'[x]?) :
    t.toList.Perm t'.toList := by
  refine (List.perm_ext_iff_of_nodup (nodup_toList _) (nodup_toList _)).mpr ?_
  rintro ⟨x, w⟩
  rw [mem_toList, mem_toList, h x]

theorem toList_perm_of_getElem? (h : t[k]? = some v) :
    t.toList.Perm ((k, v) :: (t.erase k).toList) := by
  have hnot : (k, v) ∉ (t.erase k).toList := by
    rw [mem_toList, getElem?_erase, if_pos rfl]
    exact nofun
  refine (List.perm_ext_iff_of_nodup (nodup_toList _)
    (List.nodup_cons.mpr ⟨hnot, nodup_toList _⟩)).mpr ?_
  rintro ⟨x, w⟩
  rw [List.mem_cons, mem_toList, mem_toList, getElem?_erase]
  by_cases hx : x = k
  · subst hx
    simp [h, eq_comm]
  · simp [hx]

theorem count_erase (h : t[k]? = some v) (f : V → Bool) :
    count t f = count (t.erase k) f + if f v then 1 else 0 := by
  rw [count, (toList_perm_of_getElem? h).countP_eq, List.countP_cons]
  rfl

theorem count_erase_of_none (h : t[k]? = none) (f : V → Bool) :
    count (t.erase k) f = count t f := by
  refine (toList_perm fun x => ?_).countP_eq _
  rw [getElem?_erase]
  split
  · next hx => rw [hx, h]
  · rfl

/-- Storing an entry counts it, and no longer the one it takes the place of. -/
theorem count_insert (t : Std.TreeMap K V) (k : K) (v : V) (f : V → Bool) :
    count (t.insert k v) f = count (t.erase k) f + if f v then 1 else 0 := by
  have hv : (t.insert k v)[k]? = some v := by rw [getElem?_insert, if_pos rfl]
  rw [count_erase hv f]
  congr 1
  refine (toList_perm fun x => ?_).countP_eq _
  rw [getElem?_erase, getElem?_erase, getElem?_insert]
  split
  · rfl
  · rfl

end OrderedMap
