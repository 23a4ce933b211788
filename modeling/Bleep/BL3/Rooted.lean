/-
# `Bleep.BL3.Rooted` — trees whose walks end at genesis

`BlockTree.Rooted` is what `AppendBlock` keeps of any sequence of blocks, valid
or not: entries are stored under their block's hash, no entry is null, and from
every entry the predecessors lead to genesis.  `BlockTree.Grounded` is the same
without the second: hashes may be registered without a block.  On such a tree

  * no walk asserts, follows a null pointer or runs forever
    (`findCommonBlock_eq`, `getChainFromBlock_eq`, `printLongestChain_ok`), and
    `GetBlockLocator` asserts only where the height is 0 (`getBlockLocator_eq`,
    `getBlockLocator_zero`);
  * `AppendBlock` answers, with a rooted tree again (`appendBlock_ok`,
    `Rooted.linkBlock`), and never removes or changes an entry
    (`entry_linkBlock_mono`).

`BlockTree.Indexed` adds what holds when every block linked in has the index
after its parent's: depth is index, and the tip has the largest index.
-/
import Bleep.BL3.BlockTree

namespace Bleep.BlockTree

variable {H A W : Type} [DecidableEq H] {t : BlockTree H A W}

/-- The walk from a hash to genesis visits these hashes. -/
abbrev Path (t : BlockTree H A W) : H → List H → Prop :=
  Chain t.entry BlockTreeBlockIndex.prevblockhash

/-- The tree holds this block, with data, under its hash. -/
def Stores (t : BlockTree H A W) (k : H) (b : POWBlock H A W) : Prop :=
  ∃ p, t.entry k = some ⟨p, b⟩

/-- What the walks need: the stored blocks are filed under their hashes and lead to
genesis, and the tip is one of them.  There may be hashes without a block. -/
structure Grounded (t : BlockTree H A W) : Prop where
  keyed : ∀ k i, t.entry k = some i → i.block.block_hash = k
  linked : ∀ k i p, t.entry k = some i → i.prevblockhash = some p →
    p = i.block.prev_block_hash
  path : ∀ k i, t.entry k = some i → ∃ l, t.Path k l
  root : ∀ k i, t.entry k = some i → i.prevblockhash = none → k = t.genesis
  tip : t.containBlock t.lasthash = true
  genesis : t.containBlock t.genesis = true

/-- No hash is without a block. -/
structure Rooted (t : BlockTree H A W) : Prop extends Grounded t where
  noNull : ∀ k, t.containBlockHash k = true → t.containBlock k = true

/-- The height says whether the tip is genesis. -/
structure Measured [OfNat W 0] [OfNat W 1] (t : BlockTree H A W) : Prop where
  height : t.treeheight ≠ 0
  young : t.treeheight = 1 → t.lasthash = t.genesis

/-! ## Looking up -/

theorem containBlock_iff {k : H} : t.containBlock k = true ↔ ∃ i, t.entry k = some i := by
  simp [containBlock, Option.isSome_iff_exists]

theorem stores_iff {k : H} : t.containBlock k = true ↔ ∃ b, t.Stores k b := by
  rw [containBlock_iff]
  exact ⟨fun ⟨i, h⟩ => ⟨i.block, i.prevblockhash, h⟩, fun ⟨b, p, h⟩ => ⟨_, h⟩⟩

theorem Stores.contain {k : H} {b : POWBlock H A W} (h : t.Stores k b) : t.containBlock k = true :=
  stores_iff.mpr ⟨b, h⟩

theorem Stores.unique {k : H} {b b' : POWBlock H A W} (h : t.Stores k b) (h' : t.Stores k b') :
    b = b' := by
  obtain ⟨p, hp⟩ := h
  obtain ⟨p', hp'⟩ := h'
  rw [hp, Option.some.injEq, BlockTreeBlockIndex.mk.injEq] at hp'
  exact hp'.2

theorem Rooted.hash_eq (hr : t.Rooted) {k : H} {b : POWBlock H A W} (h : t.Stores k b) :
    b.block_hash = k := by
  obtain ⟨p, hp⟩ := h
  exact hr.keyed _ _ hp

theorem containBlockHash_of_entry {k : H} {i : BlockTreeBlockIndex H A W}
    (h : t.entry k = some i) : t.containBlockHash k = true := by
  rw [containBlockHash, decide_eq_true_eq, ← AList.lookup_isSome]
  rw [entry, Option.join_eq_some_iff] at h
  rw [h]
  rfl

theorem Rooted.containBlockHash_eq (hr : t.Rooted) (k : H) :
    t.containBlockHash k = t.containBlock k := by
  cases h : t.containBlock k with
  | true =>
      obtain ⟨i, hi⟩ := containBlock_iff.mp h
      exact containBlockHash_of_entry hi
  | false =>
      cases h' : t.containBlockHash k with
      | false => rfl
      | true => exact nomatch h.symm.trans (hr.noNull k h')

theorem deref_of_entry {k : H} {i : BlockTreeBlockIndex H A W} (h : t.entry k = some i) :
    t.deref k = .ok i := by
  simp [deref, h]

theorem getBlock_of_stores {k : H} {b : POWBlock H A W} (h : t.Stores k b) :
    t.getBlock k = .ok b := by
  obtain ⟨p, hp⟩ := h
  have hc : t.containBlock k = true := containBlock_iff.mpr ⟨_, hp⟩
  simp only [getBlock, hc, mAssert_true, deref_of_entry hp]
  rfl

theorem prevIndex_of_entry {p : H} {i j : BlockTreeBlockIndex H A W} (hi : i.prevblockhash = some p)
    (hj : t.entry p = some j) : t.prevIndex i = .ok j := by
  simp only [prevIndex, hi, containBlockHash_of_entry hj, mAssert_true]
  exact deref_of_entry hj

/-! ## Walks

On a path the three walks are list functions of it.  The induction is on the
path; the fuel only has to be its length. -/

theorem findCommonLoop_eq (hr : t.Grounded) (locator : List H) {k : H} {l : List H}
    (h : t.Path k l) : ∀ {i : BlockTreeBlockIndex H A W} {n : Nat}, t.entry k = some i →
      l.length ≤ n → (∃ x ∈ l, x ∈ locator) →
      ∃ c, l.find? (· ∈ locator) = some c ∧ t.findCommonLoop locator n i = .ok c := by
  induction h with
  | @root k v hv hp =>
      intro i n hi hn hx
      obtain ⟨n, rfl⟩ : ∃ m, n = m + 1 := ⟨n - 1, by simp at hn; omega⟩
      have hk := hr.keyed _ _ hi
      have hmem : k ∈ locator := by simpa using hx
      refine ⟨k, by simp [hmem], ?_⟩
      rw [findCommonLoop, hk, if_pos hmem]
  | @link k p v l hv hp hc ih =>
      intro i n hi hn hx
      obtain ⟨n, rfl⟩ : ∃ m, n = m + 1 := ⟨n - 1, by simp at hn; omega⟩
      have hk := hr.keyed _ _ hi
      rw [findCommonLoop, hk]
      by_cases hmem : k ∈ locator
      · exact ⟨k, by simp [hmem], by rw [if_pos hmem]⟩
      · rw [hv, Option.some.injEq] at hi
        subst hi
        obtain ⟨j, hj⟩ := hc.look_isSome
        obtain ⟨c, hc', hl⟩ := ih hj (by simpa using hn) (by simpa [hmem] using hx)
        refine ⟨c, by simp [hmem, hc'], ?_⟩
        rw [if_neg hmem, prevIndex_of_entry hp hj]
        exact hl

theorem findCommonLoop_error (hr : t.Grounded) (locator : List H) {k : H} {l : List H}
    (h : t.Path k l) : ∀ {i : BlockTreeBlockIndex H A W} {n : Nat}, t.entry k = some i →
      l.length ≤ n → (∀ x ∈ l, x ∉ locator) → t.findCommonLoop locator n i =
        .error (.assertion "need to be returned before reaching genesis block") := by
  induction h with
  | @root k v hv hp =>
      intro i n hi hn hx
      obtain ⟨n, rfl⟩ : ∃ m, n = m + 1 := ⟨n - 1, by simp at hn; omega⟩
      have hk := hr.keyed _ _ hi
      obtain rfl := Option.some.inj (hv.symm.trans hi)
      rw [findCommonLoop, hk, if_neg (hx k List.mem_cons_self), prevIndex, hp]
      rfl
  | @link k p v l hv hp hc ih =>
      intro i n hi hn hx
      obtain ⟨n, rfl⟩ : ∃ m, n = m + 1 := ⟨n - 1, by simp at hn; omega⟩
      have hk := hr.keyed _ _ hi
      obtain rfl := Option.some.inj (hv.symm.trans hi)
      obtain ⟨j, hj⟩ := hc.look_isSome
      rw [findCommonLoop, hk, if_neg (hx k List.mem_cons_self), prevIndex_of_entry hp hj]
      exact ih hj (by simpa using hn) fun x hmem => hx x (List.mem_cons_of_mem _ hmem)

theorem chainFromLoop_eq (hr : t.Grounded) (start : H) {k : H} {l : List H}
    (h : t.Path k l) : ∀ {i : BlockTreeBlockIndex H A W} {n : Nat}, t.entry k = some i →
      l.length ≤ n → start ∈ l →
      t.chainFromLoop start n i = .ok (l.takeWhile (· ≠ start) ++ [start]) := by
  induction h with
  | @root k v hv hp =>
      intro i n hi hn hx
      obtain ⟨n, rfl⟩ : ∃ m, n = m + 1 := ⟨n - 1, by simp at hn; omega⟩
      have hk := hr.keyed _ _ hi
      rw [List.mem_singleton] at hx
      subst hx
      simp [chainFromLoop, hk]
  | @link k p v l hv hp hc ih =>
      intro i n hi hn hx
      obtain ⟨n, rfl⟩ : ∃ m, n = m + 1 := ⟨n - 1, by simp at hn; omega⟩
      have hk := hr.keyed _ _ hi
      rw [chainFromLoop, hk]
      by_cases hs : k = start
      · simp [hs]
      · rw [hv, Option.some.injEq] at hi
        subst hi
        obtain ⟨j, hj⟩ := hc.look_isSome
        have hx' : start ∈ l := (List.mem_cons.mp hx).resolve_left fun he => hs he.symm
        rw [if_neg hs, prevIndex_of_entry hp hj]
        show (do let chain ← t.chainFromLoop start n j; return k :: chain) = _
        rw [ih hj (by simpa using hn) hx']
        simp [hs]

theorem printLoop_ok {k : H} {l : List H} (h : t.Path k l) :
    ∀ {i : BlockTreeBlockIndex H A W} {n : Nat}, t.entry k = some i → l.length ≤ n →
      t.printLoop n i = .ok () := by
  induction h with
  | @root k v hv hp =>
      intro i n hi hn
      obtain ⟨n, rfl⟩ : ∃ m, n = m + 1 := ⟨n - 1, by simp at hn; omega⟩
      rw [hv, Option.some.injEq] at hi
      subst hi
      simp [printLoop, hp]
  | @link k p v l hv hp hc ih =>
      intro i n hi hn
      obtain ⟨n, rfl⟩ : ∃ m, n = m + 1 := ⟨n - 1, by simp at hn; omega⟩
      rw [hv, Option.some.injEq] at hi
      subst hi
      obtain ⟨j, hj⟩ := hc.look_isSome
      simp only [printLoop, hp, containBlockHash_of_entry hj, mAssert_true, deref_of_entry hj]
      exact ih hj (by simpa using hn)

/-- The number of entries is enough rounds for every walk. -/
theorem Path.length_le_fuel {k : H} {l : List H} (h : t.Path k l) : l.length ≤ t.fuel := by
  have hkeys : ∀ k v, t.entry k = some v → k ∈ t.ledgermap.keys := by
    intro k v hv
    have := containBlockHash_of_entry hv
    rw [containBlockHash, decide_eq_true_eq] at this
    exact AList.mem_keys.mp this
  simpa [fuel, AList.keys, List.keys] using Chain.length_le hkeys h

/-! ## The depths of a locator -/

/-- How far below the tip the hashes of the locator are, one after another. -/
def locatorDepth : Nat → Nat
  | 0 => 0
  | k + 1 => locatorDepth k + if k + 1 < 5 then 1 else 2 ^ (k + 1 - 5 + 1)

theorem locatorDepth_le {k m : Nat} (h : k ≤ m) : locatorDepth k ≤ locatorDepth m := by
  induction h with
  | refl => exact Nat.le_refl _
  | step _ ih => exact ih.trans (Nat.le_add_right _ _)

/-- The entries of a list at the depths `k`, `k + 1`, …, as far as it reaches. -/
def sample (l : List H) (k n : Nat) : List H :=
  (List.range' k n).filterMap fun m => l[locatorDepth m]?

omit [DecidableEq H] in
theorem sample_ten (l : List H) :
    sample l 0 10 = [0, 1, 2, 3, 4, 6, 10, 18, 34, 66].filterMap (l[·]?) := rfl

omit [DecidableEq H] in
theorem length_sample_le (l : List H) (k n : Nat) : (sample l k n).length ≤ n := by
  have hle := List.length_filterMap_le (fun m => l[locatorDepth m]?) (List.range' k n)
  rwa [List.length_range'] at hle

omit [DecidableEq H] in
theorem sample_cons {l : List H} {k : Nat} {x : H} (h : l[locatorDepth k]? = some x) (n : Nat) :
    sample l k (n + 1) = x :: sample l (k + 1) n := by
  rw [sample, List.range'_succ]
  exact List.filterMap_cons_some h

omit [DecidableEq H] in
theorem sample_eq_nil {l : List H} {k : Nat} (h : l[locatorDepth k]? = none) (n : Nat) :
    sample l k n = [] := by
  refine List.filterMap_eq_nil_iff.mpr fun m hm => ?_
  have hle := locatorDepth_le (List.mem_range'_1.mp hm).1
  exact List.getElem?_eq_none_iff.mpr ((List.getElem?_eq_none_iff.mp h).trans hle)

section Grounded

variable (hr : t.Grounded)

include hr

theorem Grounded.tip_path : ∃ i l, t.entry t.lasthash = some i ∧ t.Path t.lasthash l := by
  obtain ⟨i, hi⟩ := containBlock_iff.mp hr.tip
  obtain ⟨l, hl⟩ := hr.path _ _ hi
  exact ⟨i, l, hi, hl⟩

theorem Grounded.genesis_mem {k : H} {l : List H} (h : t.Path k l) : t.genesis ∈ l := by
  obtain ⟨r, v, hl, hv, hp⟩ := h.exists_root
  exact hr.root _ _ hv hp ▸ List.mem_of_getLast? hl

omit hr in
theorem Path.contain_of_mem {k x : H} {l : List H} (h : t.Path k l) (hx : x ∈ l) :
    t.containBlock x = true := by
  obtain ⟨l', hl', -⟩ := h.of_mem hx
  exact containBlock_iff.mpr hl'.look_isSome

/-- `FindCommonBlock` answers the first hash of the tip's chain that is in the
locator, if there is one. -/
theorem findCommonBlock_of_common {l locator : List H} (h : t.Path t.lasthash l)
    (hx : ∃ x ∈ l, x ∈ locator) :
    ∃ c, l.find? (· ∈ locator) = some c ∧ t.findCommonBlock locator = .ok c := by
  obtain ⟨i, hi⟩ := h.look_isSome
  obtain ⟨c, hc, hl⟩ := findCommonLoop_eq hr locator h hi (Path.length_le_fuel h) hx
  refine ⟨c, hc, ?_⟩
  rw [findCommonBlock, deref_of_entry hi]
  exact hl

theorem findCommonBlock_error {l locator : List H} (h : t.Path t.lasthash l)
    (hx : ∀ x ∈ l, x ∉ locator) : t.findCommonBlock locator =
      .error (.assertion "need to be returned before reaching genesis block") := by
  obtain ⟨i, hi⟩ := h.look_isSome
  rw [findCommonBlock, deref_of_entry hi]
  exact findCommonLoop_error hr locator h hi (Path.length_le_fuel h) hx

theorem findCommonBlock_eq {l locator : List H} (h : t.Path t.lasthash l)
    (hg : t.genesis ∈ locator) :
    ∃ c, l.find? (· ∈ locator) = some c ∧ t.findCommonBlock locator = .ok c :=
  findCommonBlock_of_common hr h ⟨_, hr.genesis_mem h, hg⟩

theorem getChainFromBlock_eq {l : List H} {start : H} (h : t.Path t.lasthash l)
    (hs : start ∈ l) : t.getChainFromBlock start = .ok (l.takeWhile (· ≠ start) ++ [start]) := by
  obtain ⟨i, hi⟩ := h.look_isSome
  rw [getChainFromBlock, deref_of_entry hi]
  exact chainFromLoop_eq hr start h hi (Path.length_le_fuel h) hs

theorem getChainFromBlock_genesis {l : List H} (h : t.Path t.lasthash l) :
    t.getChainFromBlock t.genesis = .ok l := by
  obtain ⟨r, v, hlast, hv, hp⟩ := h.exists_root
  obtain ⟨init, rfl⟩ := List.getLast?_eq_some_iff.mp hlast
  have hrg := hr.root _ _ hv hp
  have hnd := h.nodup
  rw [getChainFromBlock_eq hr h (hr.genesis_mem h), ← hrg]
  have hne : ∀ x ∈ init, decide (x ≠ r) = true := by
    intro x hx
    refine decide_eq_true fun he => ?_
    exact (List.nodup_append.mp hnd).2.2 x hx r (List.mem_singleton_self r) he
  rw [List.takeWhile_append_of_pos hne]
  simp

theorem printLongestChain_ok : t.printLongestChain = .ok () := by
  obtain ⟨i, l, hi, hl⟩ := hr.tip_path
  rw [printLongestChain, deref_of_entry hi]
  exact printLoop_ok hl hi (Path.length_le_fuel hl)

/-! ## The locator -/

theorem Grounded.parent {k p : H} {i : BlockTreeBlockIndex H A W} (hi : t.entry k = some i)
    (hp : i.prevblockhash = some p) : ∃ j, t.entry p = some j := by
  obtain ⟨l, hl⟩ := hr.path _ _ hi
  cases hl with
  | root hv hn =>
      rw [hi, Option.some.injEq] at hv
      subst hv
      exact nomatch hn.symm.trans hp
  | link hv hp' hc =>
      rw [hi, Option.some.injEq] at hv
      subst hv
      rw [hp, Option.some.injEq] at hp'
      subst hp'
      exact hc.look_isSome

theorem Grounded.at_genesis {k : H} {i : BlockTreeBlockIndex H A W} (hi : t.entry k = some i)
    (hp : i.prevblockhash = none) : t.genesis = i.block.block_hash :=
  (hr.root _ _ hi hp).symm.trans (hr.keyed _ _ hi).symm

/-- Climbing from a place on a path leads to the place so many below, if there is one. -/
theorem climb_eq {k : H} {l : List H} (hl : t.Path k l) (step : Nat) :
    ∀ {d : Nat} {x : H} {i : BlockTreeBlockIndex H A W}, l[d]? = some x → t.entry x = some i →
      t.climb step i = .ok (l[d + step]?.bind t.entry) := by
  induction step with
  | zero =>
      intro d x i hx hi
      rw [Nat.add_zero, hx, Option.bind_some, hi]
      rfl
  | succ step ih =>
      intro d x i hx hi
      have hp : i.prevblockhash = l[d + 1]? := Chain.pred_getElem? hl hx hi
      rw [show d + (step + 1) = d + 1 + step by omega]
      cases hn : l[d + 1]? with
      | none =>
          rw [hn] at hp
          have hlen := List.getElem?_eq_none_iff.mp hn
          rw [List.getElem?_eq_none_iff.mpr (by omega : l.length ≤ d + 1 + step)]
          simp only [climb, hp, Option.map_none, hr.at_genesis hi hp, decide_true, mAssert_true]
          rfl
      | some y =>
          rw [hn] at hp
          obtain ⟨j, hj⟩ := hr.parent hi hp
          have hlook := hj
          rw [entry, Option.join_eq_some_iff] at hlook
          simp only [climb, hp, Option.map_some, hlook]
          exact ih hn hj

theorem locatorLoop_next {k : H} {l loc : List H} (hl : t.Path k l) {x : H}
    {i : BlockTreeBlockIndex H A W} (hx : l[locatorDepth loc.length]? = some x)
    (hi : t.entry x = some i) (n : Nat) (hten : loc.length + 1 < 10) :
    t.locatorLoop (n + 1) loc i =
      match l[locatorDepth (loc.length + 1)]?.bind t.entry with
      | none => .ok (loc ++ [x] ++ [t.genesis])
      | some j => t.locatorLoop n (loc ++ [x]) j := by
  have hk := hr.keyed _ _ hi
  have hlen : (loc ++ [x]).length = loc.length + 1 := List.length_append
  simp only [locatorLoop, hk, hlen]
  rw [if_neg (Nat.not_le.mpr hten)]
  by_cases h5 : loc.length + 1 < 5
  · have hp : i.prevblockhash = l[locatorDepth (loc.length + 1)]? := by
      rw [locatorDepth, if_pos h5]
      exact Chain.pred_getElem? hl hx hi
    rw [if_pos h5, ← hp]
    cases hprev : i.prevblockhash with
    | none =>
        simp only [(hr.at_genesis hi hprev).trans hk, decide_true, mAssert_true]
        rfl
    | some p =>
        obtain ⟨j, hj⟩ := hr.parent hi hprev
        simp only [containBlockHash_of_entry hj, mAssert_true, deref_of_entry hj, Option.bind_some,
          hj]
        rfl
  · rw [if_neg h5, climb_eq hr hl _ hx hi, locatorDepth, if_neg h5]
    cases l[locatorDepth loc.length + 2 ^ (loc.length + 1 - 5 + 1)]?.bind t.entry with
    | none => rfl
    | some j => rfl

/-- The loop samples the chain at the ten depths. -/
theorem locatorLoop_eq {k : H} {l : List H} (hl : t.Path k l) (n : Nat) :
    ∀ {loc : List H} {x : H} {i : BlockTreeBlockIndex H A W}, loc.length + (n + 1) = 10 →
      l[locatorDepth loc.length]? = some x → t.entry x = some i →
      t.locatorLoop (n + 1) loc i =
        .ok (loc ++ sample l loc.length (n + 1) ++ [t.genesis]) := by
  induction n with
  | zero =>
      intro loc x i hlen hx hi
      have hten : 10 ≤ (loc ++ [x]).length := by
        rw [List.length_append]
        exact hlen.ge
      simp only [locatorLoop, hr.keyed _ _ hi, if_pos hten, sample_cons hx]
      rfl
  | succ n ih =>
      intro loc x i hlen hx hi
      have hlen' : (loc ++ [x]).length = loc.length + 1 := List.length_append
      rw [locatorLoop_next hr hl hx hi _ (by omega), sample_cons hx]
      cases hn : l[locatorDepth (loc.length + 1)]? with
      | none =>
          rw [sample_eq_nil hn]
          rfl
      | some y =>
          obtain ⟨l', hl', -⟩ := hl.of_mem (List.mem_of_getElem? hn)
          obtain ⟨j, hj⟩ := hl'.look_isSome
          simp only [Option.bind_some, hj]
          rw [ih (by omega) (hlen' ▸ hn) hj, hlen', List.append_assoc loc]
          rfl

theorem Grounded.length_path_eq_one {k : H} {l : List H} (hl : t.Path k l) :
    l.length = 1 ↔ k = t.genesis := by
  obtain ⟨r, v, hlast, hv, hp⟩ := hl.exists_root
  have hroot := hr.root _ _ hv hp
  constructor
  · intro h1
    obtain ⟨x, rfl⟩ := List.length_eq_one_iff.mp h1
    obtain ⟨s, hs⟩ := hl.exists_cons
    obtain ⟨rfl, -⟩ := List.cons.inj hs
    exact (Option.some.inj hlast).trans hroot
  · intro hk
    obtain rfl : k = r := hk.trans hroot.symm
    rw [hl.unique (.root hv hp)]
    rfl

variable [OfNat W 0] [OfNat W 1] [DecidableEq W]

omit hr in
theorem getBlockLocator_zero (h0 : t.treeheight = 0) :
    t.getBlockLocator = .error (.assertion "At least genesis block should exist") := by
  rw [getBlockLocator, decide_eq_false (not_not.mpr h0)]
  rfl

omit hr in
theorem getBlockLocator_one (h0 : t.treeheight ≠ 0) (h1 : t.treeheight = 1) :
    t.getBlockLocator = .ok [t.lasthash] := by
  rw [getBlockLocator, decide_eq_true h0, if_pos h1]
  rfl

theorem getBlockLocator_eq {l : List H} (hl : t.Path t.lasthash l) (h0 : t.treeheight ≠ 0)
    (h1 : t.treeheight ≠ 1) : t.getBlockLocator = .ok (sample l 0 10 ++ [t.genesis]) := by
  obtain ⟨i, hi⟩ := hl.look_isSome
  have hd : l[locatorDepth 0]? = some t.lasthash := by
    obtain ⟨r, rfl⟩ := hl.exists_cons
    rfl
  rw [getBlockLocator, decide_eq_true h0, if_neg h1]
  refine bind_ok.mpr ⟨(), rfl, bind_ok.mpr ⟨i, deref_of_entry hi, ?_⟩⟩
  exact locatorLoop_eq hr hl 9 rfl hd hi

/-- `GetBlockLocator` answers on every tree that has a height. -/
theorem getBlockLocator_total (h0 : t.treeheight ≠ 0) : ∃ r, t.getBlockLocator = .ok r := by
  obtain ⟨-, l, -, hl⟩ := hr.tip_path
  by_cases h1 : t.treeheight = 1
  · exact ⟨_, getBlockLocator_one h0 h1⟩
  · exact ⟨_, getBlockLocator_eq hr hl h0 h1⟩

/-- The locator reaches genesis, and lies on the tip's chain. -/
theorem getBlockLocator_subset (hm : t.Measured) {l : List H} (hl : t.Path t.lasthash l) :
    ∃ r, t.getBlockLocator = .ok r ∧ t.genesis ∈ r ∧ ∀ x ∈ r, x ∈ l := by
  have hg := hr.genesis_mem hl
  by_cases h1 : t.treeheight = 1
  · have hone : t.getBlockLocator = .ok [t.genesis] :=
      hm.young h1 ▸ getBlockLocator_one hm.height h1
    refine ⟨_, hone, List.mem_singleton_self _, fun x hx => ?_⟩
    exact List.mem_singleton.mp hx ▸ hg
  · refine ⟨_, getBlockLocator_eq hr hl hm.height h1,
      List.mem_append_right _ (List.mem_singleton_self _), fun x hx => ?_⟩
    rcases List.mem_append.mp hx with hx | hx
    · obtain ⟨m, -, hm⟩ := List.mem_filterMap.mp hx
      exact List.mem_of_getElem? hm
    · exact List.mem_singleton.mp hx ▸ hg

theorem getBlockLocator_ok (hm : t.Measured) :
    ∃ r, t.getBlockLocator = .ok r ∧ t.genesis ∈ r ∧ ∀ x ∈ r, t.containBlock x = true := by
  obtain ⟨i, l, -, hl⟩ := hr.tip_path
  obtain ⟨r, hr', hg, hsub⟩ := getBlockLocator_subset hr hm hl
  exact ⟨r, hr', hg, fun x hx => Path.contain_of_mem hl (hsub x hx)⟩

end Grounded

/-! ## Appending -/

theorem entry_insertIndex (t : BlockTree H A W) (k x : H) (v : Option (BlockTreeBlockIndex H A W)) :
    (t.insertIndex k v).entry x =
      if x = k ∧ t.containBlockHash k = false then v else t.entry x := by
  simp only [insertIndex, containBlockHash, decide_eq_false_iff_not]
  split
  · next h => simp [h]
  · next h =>
      simp only [h, not_false_eq_true, and_true]
      split
      · next hx =>
          subst hx
          simp only [entry, AList.lookup_insert, Option.join_some]
      · next hx => simp only [entry, AList.lookup_insert_ne hx]

theorem containBlockHash_insertIndex (t : BlockTree H A W) (k x : H)
    (v : Option (BlockTreeBlockIndex H A W)) :
    (t.insertIndex k v).containBlockHash x = true ↔ x = k ∨ t.containBlockHash x = true := by
  simp only [insertIndex, containBlockHash]
  split
  · next h =>
      refine ⟨.inr, ?_⟩
      rintro (rfl | hx)
      · simpa using h
      · exact hx
  · next h => simp [AList.mem_insert]

section Append

variable [OfNat W 1] [Add W] [LE W] [DecidableLE W]

/-- The entry `AppendBlock` makes for a block. -/
def indexOf (blk : POWBlock H A W) : BlockTreeBlockIndex H A W := ⟨some blk.prev_block_hash, blk⟩

/-- All that `linkBlock` can do: nothing, if the parent's hash is unknown;
otherwise insert the entry and take the block for the tip if it extends the
tip or is higher. -/
theorem linkBlock_cases (t : BlockTree H A W) (b : POWBlock H A W) :
    (t.containBlockHash b.prev_block_hash = false ∧ t.linkBlock b = t) ∨
    (t.containBlockHash b.prev_block_hash = true ∧
      (t.linkBlock b).genesis = t.genesis ∧
      (t.linkBlock b).ledgermap = (t.insertIndex b.block_hash (some (indexOf b))).ledgermap ∧
      ((t.lasthash = b.prev_block_hash ∧
          (t.linkBlock b).lasthash = b.block_hash ∧ (t.linkBlock b).treeheight = t.treeheight + 1) ∨
       (t.lasthash ≠ b.prev_block_hash ∧ t.treeheight ≤ b.block_idx ∧
          (t.linkBlock b).lasthash = b.block_hash ∧
          (t.linkBlock b).treeheight = b.block_idx + 1) ∨
       (t.lasthash ≠ b.prev_block_hash ∧ ¬t.treeheight ≤ b.block_idx ∧
          (t.linkBlock b).lasthash = t.lasthash ∧ (t.linkBlock b).treeheight = t.treeheight))) := by
  have hins : ∀ (k : H) (v : Option (BlockTreeBlockIndex H A W)),
      (t.insertIndex k v).genesis = t.genesis ∧ (t.insertIndex k v).lasthash = t.lasthash ∧
        (t.insertIndex k v).treeheight = t.treeheight := by
    intro k v
    simp only [insertIndex]
    split <;> exact ⟨rfl, rfl, rfl⟩
  obtain ⟨hg, hl, hh⟩ := hins b.block_hash (some (indexOf b))
  cases hc : t.containBlockHash b.prev_block_hash with
  | false => exact .inl ⟨rfl, by simp [linkBlock, hc]⟩
  | true =>
      refine .inr ⟨rfl, ?_⟩
      simp only [linkBlock, hc, if_true]
      split
      · next h1 => exact ⟨hg, rfl, .inl ⟨h1, rfl, rfl⟩⟩
      · next h1 =>
          split
          · next h2 => exact ⟨hg, rfl, .inr (.inl ⟨h1, h2, rfl, rfl⟩)⟩
          · next h2 => exact ⟨hg, rfl, .inr (.inr ⟨h1, h2, hl, hh⟩)⟩

theorem linkBlock_of_unknown {b : POWBlock H A W}
    (hp : t.containBlockHash b.prev_block_hash = false) : t.linkBlock b = t := by
  rcases t.linkBlock_cases b with ⟨-, he⟩ | ⟨hk, -⟩
  · exact he
  · exact nomatch hp.symm.trans hk

theorem entry_linkBlock (t : BlockTree H A W) (b : POWBlock H A W) (x : H) :
    (t.linkBlock b).entry x =
      if t.containBlockHash b.prev_block_hash = true ∧ x = b.block_hash ∧
          t.containBlockHash b.block_hash = false
      then some (indexOf b) else t.entry x := by
  rcases t.linkBlock_cases b with ⟨h, he⟩ | ⟨h, -, hm, -⟩
  · rw [he, h]
    simp
  · have := entry_insertIndex t b.block_hash x (some (indexOf b))
    simp only [entry] at this ⊢
    rw [hm, this]
    simp only [h, true_and]

theorem entry_linkBlock_cases {b : POWBlock H A W} {k : H} {i : BlockTreeBlockIndex H A W}
    (hi : (t.linkBlock b).entry k = some i) : t.entry k = some i ∨
      (k = b.block_hash ∧ i = indexOf b ∧ t.containBlockHash b.prev_block_hash = true) := by
  rw [entry_linkBlock] at hi
  split at hi
  · next hc => exact .inr ⟨hc.2.1, (Option.some.inj hi).symm, hc.1⟩
  · exact .inl hi

theorem genesis_linkBlock (t : BlockTree H A W) (b : POWBlock H A W) :
    (t.linkBlock b).genesis = t.genesis := by
  rcases t.linkBlock_cases b with ⟨-, he⟩ | ⟨-, hg, -⟩
  · rw [he]
  · exact hg

/-- **No entry is removed or changed.** -/
theorem entry_linkBlock_mono (t : BlockTree H A W) (b : POWBlock H A W) (k : H)
    (i : BlockTreeBlockIndex H A W) (h : t.entry k = some i) :
    (t.linkBlock b).entry k = some i := by
  rw [entry_linkBlock, if_neg, h]
  rintro ⟨-, rfl, hf⟩
  exact nomatch hf.symm.trans (containBlockHash_of_entry h)

theorem Stores.linkBlock {k : H} {c : POWBlock H A W} (h : t.Stores k c) (b : POWBlock H A W) :
    (t.linkBlock b).Stores k c := by
  obtain ⟨p, hp⟩ := h
  exact ⟨p, t.entry_linkBlock_mono b _ _ hp⟩

theorem containBlock_linkBlock_mono {k : H} (b : POWBlock H A W) (h : t.containBlock k = true) :
    (t.linkBlock b).containBlock k = true := by
  obtain ⟨i, hi⟩ := containBlock_iff.mp h
  exact containBlock_iff.mpr ⟨i, t.entry_linkBlock_mono b _ _ hi⟩

theorem stores_linkBlock_cases {k : H} {c b : POWBlock H A W} (h : (t.linkBlock b).Stores k c) :
    t.Stores k c ∨ (k = b.block_hash ∧ c = b ∧ t.containBlockHash b.prev_block_hash = true) := by
  obtain ⟨p, hp⟩ := h
  rcases entry_linkBlock_cases hp with hold | ⟨hk, hi, hprev⟩
  · exact .inl ⟨p, hold⟩
  · exact .inr ⟨hk, (BlockTreeBlockIndex.mk.inj hi).2, hprev⟩

/-- After a block with a known parent was linked in, its hash is stored, unless the hash
was there without a block. -/
theorem contain_linkBlock_of {b : POWBlock H A W}
    (hb : t.containBlockHash b.block_hash = true → t.containBlock b.block_hash = true)
    (h : t.containBlock b.prev_block_hash = true) :
    (t.linkBlock b).containBlock b.block_hash = true := by
  obtain ⟨j, hj⟩ := containBlock_iff.mp h
  rw [containBlock_iff]
  cases hc : t.containBlockHash b.block_hash with
  | false =>
      exact ⟨indexOf b, by rw [entry_linkBlock, if_pos ⟨containBlockHash_of_entry hj, rfl, hc⟩]⟩
  | true =>
      obtain ⟨i, hi⟩ := containBlock_iff.mp (hb hc)
      exact ⟨i, t.entry_linkBlock_mono b _ _ hi⟩

theorem contain_linkBlock_self (hr : t.Rooted) {b : POWBlock H A W}
    (h : t.containBlock b.prev_block_hash = true) :
    (t.linkBlock b).containBlock b.block_hash = true :=
  contain_linkBlock_of (hr.noNull _) h

theorem containBlock_linkBlock (hr : t.Rooted) (b : POWBlock H A W) (k : H) :
    (t.linkBlock b).containBlock k =
      (t.containBlock k || (decide (k = b.block_hash) && t.containBlock b.prev_block_hash)) := by
  cases hk : t.containBlock k with
  | true => exact containBlock_linkBlock_mono b hk
  | false =>
      rw [Bool.false_or]
      cases hp : t.containBlock b.prev_block_hash with
      | false =>
          rw [linkBlock_of_unknown ((hr.containBlockHash_eq _).trans hp), hk, Bool.and_false]
      | true =>
          rw [Bool.and_true]
          by_cases he : k = b.block_hash
          · rw [he, contain_linkBlock_self hr hp, decide_eq_true rfl]
          · have hsame := t.entry_linkBlock b k
            rw [if_neg fun h => he h.2.1] at hsame
            rw [containBlock, hsame, decide_eq_false he]
            exact hk

theorem Path.linkBlock {k : H} {l : List H} (h : t.Path k l) (b : POWBlock H A W) :
    (t.linkBlock b).Path k l := Chain.mono (t.entry_linkBlock_mono b) h

/-- A tree stays grounded if neither the block's hash nor that of its parent is there
without a block. -/
theorem Grounded.linkBlock (hr : t.Grounded) {b : POWBlock H A W}
    (hp : t.containBlockHash b.prev_block_hash = true → t.containBlock b.prev_block_hash = true)
    (hb : t.containBlockHash b.block_hash = true → t.containBlock b.block_hash = true) :
    (t.linkBlock b).Grounded := by
  rcases t.linkBlock_cases b with ⟨-, he⟩ | ⟨hk, hg, -, htip⟩
  · exact he.symm ▸ hr
  have hprev := hp hk
  have hself := contain_linkBlock_of hb hprev
  constructor
  · intro k i hi
    rcases entry_linkBlock_cases hi with h | ⟨rfl, rfl, -⟩
    · exact hr.keyed _ _ h
    · rfl
  · intro k i p hi hpi
    rcases entry_linkBlock_cases hi with h | ⟨rfl, rfl, -⟩
    · exact hr.linked _ _ _ h hpi
    · exact (Option.some.inj hpi).symm
  · intro k i hi
    rcases entry_linkBlock_cases hi with h | ⟨rfl, rfl, -⟩
    · obtain ⟨l, hl⟩ := hr.path _ _ h
      exact ⟨l, hl.linkBlock b⟩
    · obtain ⟨j, hj⟩ := containBlock_iff.mp hprev
      obtain ⟨l, hl⟩ := hr.path _ _ hj
      exact ⟨_, .link hi rfl (hl.linkBlock b)⟩
  · intro k i hi hn
    rcases entry_linkBlock_cases hi with h | ⟨rfl, rfl, -⟩
    · exact hg ▸ hr.root _ _ h hn
    · exact nomatch hn
  · rcases htip with ⟨-, h, -⟩ | ⟨-, -, h, -⟩ | ⟨-, -, h, -⟩
    · exact h ▸ hself
    · exact h ▸ hself
    · exact h ▸ containBlock_linkBlock_mono b hr.tip
  · exact hg ▸ containBlock_linkBlock_mono b hr.genesis

/-- **`AppendBlock` keeps a tree rooted**, whatever the block. -/
theorem Rooted.linkBlock (hr : t.Rooted) (b : POWBlock H A W) : (t.linkBlock b).Rooted := by
  refine ⟨hr.toGrounded.linkBlock (hr.noNull _) (hr.noNull _), fun k hk => ?_⟩
  rcases t.linkBlock_cases b with ⟨-, he⟩ | ⟨hp, -, hm, -⟩
  · rw [he] at hk ⊢
    exact hr.noNull k hk
  · have hins : (t.insertIndex b.block_hash (some (indexOf b))).containBlockHash k = true := by
      simpa only [containBlockHash, hm] using hk
    rcases (containBlockHash_insertIndex _ _ _ _).mp hins with rfl | h
    · exact contain_linkBlock_self hr (hr.noNull _ hp)
    · exact containBlock_linkBlock_mono b (hr.noNull _ h)

theorem appendBlock_of_grounded {b : POWBlock H A W} (h : (t.linkBlock b).Grounded) :
    t.appendBlock b = .ok (t.linkBlock b) := by
  rw [appendBlock, printLongestChain_ok h]
  rfl

theorem appendBlock_ok (hr : t.Rooted) (b : POWBlock H A W) :
    t.appendBlock b = .ok (t.linkBlock b) := appendBlock_of_grounded (hr.linkBlock b).toGrounded

end Append

/-! ## Depth is index -/

section Indexed

variable {t : BlockTree H A}

structure Indexed (t : BlockTree H A) : Prop where
  base : ∀ b, t.Stores t.genesis b → b.block_idx = 0
  succ : ∀ k i p c, t.entry k = some i → i.prevblockhash = some p → t.Stores p c →
    i.block.block_idx = c.block_idx + 1
  tip : ∀ b, t.Stores t.lasthash b → t.treeheight = b.block_idx + 1
  below : ∀ k b, t.Stores k b → b.block_idx < t.treeheight

/-- The walk from a block to genesis makes as many steps as its index. -/
theorem Indexed.length_path (hr : t.Rooted) (hx : t.Indexed) {k : H} {b : POWBlock H A} {l : List H}
    (hb : t.Stores k b) (hl : t.Path k l) : l.length = b.block_idx + 1 := by
  obtain ⟨p, hp⟩ := hb
  refine Chain.length_eq (d := fun i => i.block.block_idx) ?_ ?_ hl _ hp
  · intro k v hv hn
    exact hx.base _ ⟨v.prevblockhash, hr.root _ _ hv hn ▸ hv⟩
  · intro k v p w hv hp hw
    exact hx.succ k v p w.block hv hp ⟨w.prevblockhash, hw⟩

/-- The tip moves only upwards: in both branches that move it the new height is
the old one plus one. -/
theorem Indexed.tip_linkBlock (hx : t.Indexed) (hr : t.Rooted) {b : POWBlock H A}
    (hidx : ∀ c, t.Stores b.prev_block_hash c → b.block_idx = c.block_idx + 1) :
    (t.linkBlock b).lasthash = t.lasthash ∧ (t.linkBlock b).treeheight = t.treeheight ∨
      (t.linkBlock b).lasthash = b.block_hash ∧
        (t.linkBlock b).treeheight = t.treeheight + 1 ∧ b.block_idx = t.treeheight := by
  rcases t.linkBlock_cases b with ⟨-, he⟩ | ⟨hp, hg, -, htip⟩
  · exact .inl ⟨by rw [he], by rw [he]⟩
  obtain ⟨c, hc⟩ := stores_iff.mp (hr.noNull _ hp)
  have hbc := hidx c hc
  have hcb := hx.below _ _ hc
  rcases htip with ⟨h, hl, hh⟩ | ⟨-, hle, hl, hh⟩ | ⟨h, hlt, hl, hh⟩
  · have := hx.tip c (h ▸ hc)
    exact .inr ⟨hl, hh, by omega⟩
  · exact .inr ⟨hl, by omega, by omega⟩
  · exact .inl ⟨hl, hh⟩

/-- **`AppendBlock` keeps depth and index together** if the block has the index
after its parent's and its hash is not that of another stored block. -/
theorem Indexed.linkBlock (hr : t.Rooted) (hx : t.Indexed) {b : POWBlock H A}
    (hidx : ∀ c, t.Stores b.prev_block_hash c → b.block_idx = c.block_idx + 1)
    (hsame : ∀ c, t.Stores b.block_hash c → c = b) : (t.linkBlock b).Indexed := by
  rcases t.linkBlock_cases b with ⟨-, he⟩ | ⟨hp, hg, -, htip⟩
  · exact he.symm ▸ hx
  obtain ⟨c, hc⟩ := stores_iff.mp (hr.noNull _ hp)
  have hself : (t.linkBlock b).Stores b.block_hash b := by
    obtain ⟨b', hb'⟩ := stores_iff.mp (contain_linkBlock_self hr (hr.noNull _ hp))
    rcases stores_linkBlock_cases hb' with h | ⟨-, rfl, -⟩
    · rw [← hsame b' h]
      exact hsame b' h ▸ hb'
    · exact hb'
  have hheight := hx.tip_linkBlock hr hidx
  constructor
  · intro x hs
    rw [hg] at hs
    rcases stores_linkBlock_cases hs with h | ⟨hk, rfl, -⟩
    · exact hx.base x h
    · obtain ⟨g, hg'⟩ := stores_iff.mp hr.genesis
      exact hsame g (hk ▸ hg') ▸ hx.base g hg'
  · intro k i p x hi hpi hs
    rcases entry_linkBlock_cases hi with hi | ⟨-, rfl, -⟩
    · obtain ⟨j, hj⟩ := hr.toGrounded.parent hi hpi
      obtain rfl := hs.unique (Stores.linkBlock (c := j.block) ⟨j.prevblockhash, hj⟩ b)
      exact hx.succ k i p j.block hi hpi ⟨j.prevblockhash, hj⟩
    · obtain rfl : b.prev_block_hash = p := Option.some.inj hpi
      obtain rfl := hs.unique (hc.linkBlock b)
      exact hidx _ hc
  · intro x hs
    rcases hheight with ⟨hl, hh⟩ | ⟨hl, hh, hi⟩
    · rw [hl] at hs
      obtain ⟨y, hy⟩ := stores_iff.mp hr.tip
      obtain rfl := hs.unique (hy.linkBlock b)
      exact hh.trans (hx.tip x hy)
    · rw [hl] at hs
      obtain rfl := hs.unique hself
      omega
  · intro k x hs
    rcases stores_linkBlock_cases hs with h | ⟨-, rfl, -⟩
    · have := hx.below k x h
      omega
    · -- the three branches of the tip in turn
      rcases htip with ⟨-, -, hh⟩ | ⟨-, -, -, hh⟩ | ⟨-, hlt, -, hh⟩
      · omega
      · omega
      · omega

theorem Indexed.measured (hr : t.Rooted) (hx : t.Indexed) : t.Measured := by
  obtain ⟨b, hb⟩ := stores_iff.mp hr.tip
  have hh := hx.tip b hb
  refine ⟨by omega, fun h1 => ?_⟩
  obtain ⟨-, l, -, hl⟩ := hr.tip_path
  have hlen := hx.length_path hr hb hl
  exact (hr.length_path_eq_one hl).mp (by omega)

end Indexed

/-! ## The initial tree -/

section Init

variable [Zero H] [Zero A] [OfNat W 0] [OfNat W 1] (sha : Sha256 H A W)

theorem entry_init (k : H) : (init sha).entry k =
    if k = (genesisBlock sha).block_hash then some ⟨none, genesisBlock sha⟩ else none := by
  simp only [init, entry]
  split
  · next h =>
      subst h
      simp only [AList.lookup_insert, Option.join_some]
  · next h => simp only [AList.lookup_insert_ne h, AList.lookup_empty, Option.join_none]

theorem stores_init {k : H} {b : POWBlock H A W} :
    (init sha).Stores k b ↔ k = (genesisBlock sha).block_hash ∧ b = genesisBlock sha := by
  simp only [Stores, entry_init]
  constructor
  · rintro ⟨p, h⟩
    split at h
    · next hk =>
        rw [Option.some.injEq, BlockTreeBlockIndex.mk.injEq] at h
        exact ⟨hk, h.2.symm⟩
    · exact nomatch h
  · rintro ⟨rfl, rfl⟩
    exact ⟨none, if_pos rfl⟩

theorem indexed_init (sha : Sha256 H A) : (init sha).Indexed := by
  constructor
  · intro b hb
    obtain ⟨-, rfl⟩ := (stores_init sha).mp hb
    rfl
  · intro k i p c hi hp
    rw [entry_init] at hi
    split at hi
    · obtain rfl := Option.some.inj hi
      exact nomatch hp
    · exact nomatch hi
  · intro b hb
    obtain ⟨-, rfl⟩ := (stores_init sha).mp hb
    rfl
  · intro k b hb
    obtain ⟨-, rfl⟩ := (stores_init sha).mp hb
    exact Nat.zero_lt_one

theorem rooted_init : (init sha).Rooted := by
  have hcase : ∀ k i, (init sha).entry k = some i →
      k = (genesisBlock sha).block_hash ∧ i = ⟨none, genesisBlock sha⟩ := by
    intro k i hi
    rw [entry_init] at hi
    split at hi
    · next h => exact ⟨h, (Option.some.inj hi).symm⟩
    · exact nomatch hi
  have hg : (init sha).entry (genesisBlock sha).block_hash = some ⟨none, genesisBlock sha⟩ := by
    rw [entry_init, if_pos rfl]
  refine ⟨⟨?_, ?_, ?_, ?_, ?_, ?_⟩, ?_⟩
  · intro k i hi
    obtain ⟨rfl, rfl⟩ := hcase k i hi
    rfl
  · intro k i p hi hp
    obtain ⟨rfl, rfl⟩ := hcase k i hi
    exact nomatch hp
  · intro k i hi
    obtain ⟨rfl, rfl⟩ := hcase k i hi
    exact ⟨_, .root hi rfl⟩
  · intro k i hi _
    exact (hcase k i hi).1
  · exact containBlock_iff.mpr ⟨_, hg⟩
  · exact containBlock_iff.mpr ⟨_, hg⟩
  · intro k hk
    simp only [init, containBlockHash, AList.mem_insert, decide_eq_true_eq] at hk
    rcases hk with rfl | h
    · exact containBlock_iff.mpr ⟨_, hg⟩
    · exact absurd h (AList.notMem_empty _)

end Init

end Bleep.BlockTree
