/-
# `Bleep.Testlibs.TestResult` — the heights of an emulation report

`get_blockHash_list` reads hash and height off the `UpdateTip` lines of a log, and
`filter_overlap_height` is to keep one entry for each height, with the last hash.

It takes a height for a repeated one if it is *contained* in an earlier height as a string,
and it removes the last entry every time it finds one, inside the loop over the entries.
The result is right at every point of a log exactly if no height is properly contained in an
earlier one (`filter_prefixes_iff`).  For a single log the condition is sufficient; it is not
necessary, since later entries can put right what an earlier one has spoilt.

A string is the list of its characters.
-/
import Bleep.Fault

namespace Bleep

/-- `IndexError`, which nobody catches. -/
abbrev IndexError : Fault := .uncaught

/-- `[block_hash, block_height]`. -/
abbrev BlockSoc := List Char × List Char

/-! ## The functions -/

/-- `l[i]`. -/
def pyIndex {α : Type} (l : List α) (i : Nat) : Except Fault α :=
  match l[i]? with
  | some a => .ok a
  | none => .error IndexError

/-- `get_blockHash_list`, on the lines of the file. -/
def get_blockHash_list : List (List Char) → Except Fault (List BlockSoc)
  | [] => .ok []
  | line :: lines =>
      if "UpdateTip".toList <:+: line then do
        let best ← pyIndex (line.splitOn ' ') 3
        let block_hash ← pyIndex (best.splitOn '=') 1
        let height ← pyIndex (line.splitOn ' ') 4
        let block_height ← pyIndex (height.splitOn '=') 1
        let block_hash_list ← get_blockHash_list lines
        return (block_hash, block_height) :: block_hash_list
      else get_blockHash_list lines

/-- The inner loop with the entry `blk`, for `count` more values of `j`. -/
def overlapLoop (blk : BlockSoc) : (count j : Nat) → List BlockSoc → Except Fault (List BlockSoc)
  | 0, _, result_list => .ok result_list
  | count + 1, j, result_list =>
      match result_list[j]? with
      | none => .error IndexError
      | some e =>
          if blk.2 <:+: e.2 then
            overlapLoop blk count (j + 1) (result_list.set j (blk.1, e.2)).dropLast
          else overlapLoop blk count (j + 1) result_list

/-- The outer loop, from its `i`-th round. -/
def filterLoop (i : Nat) (result_list : List BlockSoc) :
    List BlockSoc → Except Fault (List BlockSoc)
  | [] => .ok result_list
  | blk :: block_hash_list => do
      let result_list := result_list ++ [blk]
      let result_list ←
        if i = 0 then .ok result_list
        else overlapLoop blk (result_list.length - 1) 0 result_list
      filterLoop (i + 1) result_list block_hash_list

/-- `filter_overlap_height`. -/
def filter_overlap_height (node_output_file : List (List Char)) : Except Fault (List BlockSoc) := do
  let block_hash_list ← get_blockHash_list node_output_file
  filterLoop 0 [] block_hash_list

theorem get_blockHash_list_cons {line : List Char} {lines : List (List Char)}
    (h : "UpdateTip".toList <:+: line) :
    get_blockHash_list (line :: lines) = (do
      let best ← pyIndex (line.splitOn ' ') 3
      let block_hash ← pyIndex (best.splitOn '=') 1
      let height ← pyIndex (line.splitOn ' ') 4
      let block_height ← pyIndex (height.splitOn '=') 1
      let block_hash_list ← get_blockHash_list lines
      return (block_hash, block_height) :: block_hash_list) := by
  exact if_pos h

/-! ## What the report is to be -/

/-- The heights of a log, each once, in the order in which they first appear. -/
def heights (log : List BlockSoc) : List (List Char) := (log.map Prod.snd).reverse.dedup.reverse

/-- The hash of the last entry for a height. -/
def lastHash (log : List BlockSoc) (height : List Char) : List Char :=
  ((log.reverse.find? fun e => e.2 = height).map Prod.fst).getD []

/-- One entry for each height, with the last hash. -/
def report (log : List BlockSoc) : List BlockSoc :=
  (heights log).map fun height => (lastHash log height, height)

theorem mem_heights {log : List BlockSoc} {height : List Char} :
    height ∈ heights log ↔ ∃ e ∈ log, e.2 = height := by
  simp [heights]

theorem nodup_heights (log : List BlockSoc) : (heights log).Nodup :=
  List.nodup_reverse.mpr (List.nodup_dedup _)

theorem heights_concat (log : List BlockSoc) (blk : BlockSoc) :
    heights (log ++ [blk]) =
      if blk.2 ∈ heights log then heights log else heights log ++ [blk.2] := by
  have hmem : blk.2 ∈ heights log ↔ blk.2 ∈ (log.map Prod.snd).reverse := by simp [heights]
  have hcons : heights (log ++ [blk]) = (blk.2 :: (log.map Prod.snd).reverse).dedup.reverse := by
    rw [heights, List.map_append, List.reverse_append]
    rfl
  rw [hcons]
  by_cases h : blk.2 ∈ heights log
  · rw [if_pos h, List.dedup_cons_of_mem (hmem.mp h), heights]
  · rw [if_neg h, List.dedup_cons_of_notMem (mt hmem.mpr h), List.reverse_cons, heights]

theorem lastHash_concat (log : List BlockSoc) (blk : BlockSoc) (height : List Char) :
    lastHash (log ++ [blk]) height = if blk.2 = height then blk.1 else lastHash log height := by
  rw [lastHash, List.reverse_append, List.reverse_singleton, List.singleton_append,
    List.find?_cons]
  by_cases h : blk.2 = height
  · simp [h]
  · simp [h, lastHash]

/-- A known height gets its hash replaced, and a new one is appended. -/
theorem report_concat (log : List BlockSoc) (blk : BlockSoc) :
    report (log ++ [blk]) =
      if blk.2 ∈ heights log then
        (report log).map fun e => if blk.2 = e.2 then (blk.1, e.2) else e
      else report log ++ [blk] := by
  have hrow (height : List Char) : (lastHash (log ++ [blk]) height, height)
      = if blk.2 = height then (blk.1, height) else (lastHash log height, height) := by
    rw [lastHash_concat]
    split <;> rfl
  rw [report, heights_concat]
  simp only [hrow]
  split
  case isTrue h => rw [report, List.map_map]; rfl
  case isFalse h =>
    have hold : ∀ height ∈ heights log,
        (if blk.2 = height then (blk.1, height) else (lastHash log height, height))
          = (lastHash log height, height) := by
      intro height hh
      rw [if_neg]
      rintro rfl
      exact h hh
    rw [List.map_append, List.map_congr_left hold, List.map_singleton, if_pos rfl]
    rfl

/-! ## The inner loop -/

section Loop

variable {blk : BlockSoc}

/-- The entry is taken for an earlier one of the same height. -/
abbrev Taken (blk e : BlockSoc) : Prop := blk.2 <:+: e.2

theorem Taken.of_eq {e : BlockSoc} (h : blk.2 = e.2) : Taken blk e := by
  rw [Taken, h]

theorem cons_eq_append (A B C : List BlockSoc) (e : BlockSoc) :
    A ++ e :: B ++ C = A ++ [e] ++ B ++ C := by
  rw [List.append_assoc A [e] B]
  rfl

theorem overlapLoop_skip (A B C : List BlockSoc) {e : BlockSoc} (he : ¬ Taken blk e) :
    overlapLoop blk (e :: B).length A.length (A ++ e :: B ++ C)
      = overlapLoop blk B.length (A ++ [e]).length (A ++ [e] ++ B ++ C) := by
  have hget : (A ++ e :: B ++ C)[A.length]? = some e := by simp
  rw [List.length_cons, overlapLoop, hget, List.length_append, List.length_singleton,
    ← cons_eq_append]
  exact if_neg he

theorem overlapLoop_take (A B C : List BlockSoc) {e : BlockSoc} (he : Taken blk e) :
    overlapLoop blk (e :: B).length A.length (A ++ e :: B ++ C)
      = overlapLoop blk B.length (A ++ [(blk.1, e.2)]).length
          (A ++ [(blk.1, e.2)] ++ B ++ C).dropLast := by
  have hget : (A ++ e :: B ++ C)[A.length]? = some e := by simp
  have hset : (A ++ e :: B ++ C).set A.length (blk.1, e.2) = A ++ (blk.1, e.2) :: B ++ C := by
    simp
  rw [List.length_cons, overlapLoop, hget, List.length_append, List.length_singleton,
    ← cons_eq_append, ← hset]
  exact if_pos he

theorem overlapLoop_pass (A B C : List BlockSoc) (hB : ∀ e ∈ B, ¬ Taken blk e) :
    overlapLoop blk B.length A.length (A ++ B ++ C) = .ok (A ++ B ++ C) := by
  induction B generalizing A with
  | nil => rfl
  | cons e B ih =>
      rw [overlapLoop_skip A B C (hB e List.mem_cons_self), cons_eq_append A B C e]
      exact ih (A ++ [e]) fun x hx => hB x (List.mem_cons_of_mem e hx)

theorem overlapLoop_length {count j : Nat} {result_list res : List BlockSoc}
    (h : overlapLoop blk count j result_list = .ok res) : res.length ≤ result_list.length := by
  induction count generalizing j result_list with
  | zero => exact (congrArg List.length (Except.ok.inj h)).ge
  | succ count ih =>
      rw [overlapLoop] at h
      cases hget : result_list[j]? with
      | none =>
          rw [hget] at h
          cases h
      | some e =>
          rw [hget] at h
          simp only at h
          split at h
          · have hle := ih h
            rw [List.length_dropLast, List.length_set] at hle
            omega
          · exact ih h

/-- Where the new entry is taken for one of the remaining ones, an entry is lost. -/
theorem overlapLoop_lose {A B C res : List BlockSoc} (hB : ∃ e ∈ B, Taken blk e)
    (h : overlapLoop blk B.length A.length (A ++ B ++ C) = .ok res) :
    res.length < (A ++ B ++ C).length := by
  induction B generalizing A with
  | nil =>
      obtain ⟨e, he, -⟩ := hB
      cases he
  | cons e B ih =>
      by_cases he : Taken blk e
      · rw [overlapLoop_take A B C he] at h
        have hle := overlapLoop_length h
        rw [List.length_dropLast] at hle
        simp only [List.length_append, List.length_cons, List.length_nil] at hle ⊢
        omega
      · rw [overlapLoop_skip A B C he] at h
        rw [cons_eq_append]
        refine ih ?_ h
        obtain ⟨x, hx, htaken⟩ := hB
        rcases List.mem_cons.mp hx with rfl | hx
        · exact absurd htaken he
        · exact ⟨x, hx, htaken⟩

theorem overlapLoop_lose_two {A B C res : List BlockSoc} (hC : C ≠ []) {x y : BlockSoc}
    (hxy : x ≠ y) (hx : x ∈ B) (hy : y ∈ B) (htx : Taken blk x) (hty : Taken blk y)
    (h : overlapLoop blk B.length A.length (A ++ B ++ C) = .ok res) :
    res.length + 1 < (A ++ B ++ C).length := by
  induction B generalizing A with
  | nil => cases hx
  | cons e B ih =>
      by_cases he : Taken blk e
      · -- one of the two is still to come
        have hrest : ∃ z ∈ B, Taken blk z := by
          rcases List.mem_cons.mp hx with rfl | hx
          · exact ⟨y, (List.mem_cons.mp hy).resolve_left (Ne.symm hxy), hty⟩
          · exact ⟨x, hx, htx⟩
        rw [overlapLoop_take A B C he, List.dropLast_append_of_ne_nil hC] at h
        have hlt := overlapLoop_lose hrest h
        have hpos := List.length_pos_iff.mpr hC
        simp only [List.length_append, List.length_cons, List.length_nil,
          List.length_dropLast] at hlt ⊢
        omega
      · have hx' : x ∈ B := (List.mem_cons.mp hx).resolve_left fun hxe => he (hxe ▸ htx)
        have hy' : y ∈ B := (List.mem_cons.mp hy).resolve_left fun hye => he (hye ▸ hty)
        rw [overlapLoop_skip A B C he] at h
        rw [cons_eq_append]
        exact ih hx' hy' h

/-- Where heights are different and the new one is only taken for its own, the loop sets
its hash. -/
theorem overlapLoop_exact (A B : List BlockSoc) (hnd : (B.map Prod.snd).Nodup)
    (hown : ∀ e ∈ B, Taken blk e → blk.2 = e.2) :
    overlapLoop blk B.length A.length (A ++ B ++ [blk]) = .ok (
      if blk.2 ∈ B.map Prod.snd then
        A ++ B.map fun e => if blk.2 = e.2 then (blk.1, e.2) else e
      else A ++ B ++ [blk]) := by
  induction B generalizing A with
  | nil => rfl
  | cons e B ih =>
      obtain ⟨hnot, hnd⟩ := List.nodup_cons.mp hnd
      by_cases he : blk.2 = e.2
      · -- no further entry has this height
        have hpass : ∀ x ∈ B, ¬ Taken blk x := by
          intro x hx htaken
          have hxe := hown x (List.mem_cons_of_mem e hx) htaken
          exact hnot (he ▸ hxe ▸ List.mem_map_of_mem hx)
        have hmap : B.map (fun x => if blk.2 = x.2 then (blk.1, x.2) else x) = B := by
          refine (List.map_congr_left fun x hx => if_neg fun hbx => ?_).trans (List.map_id B)
          exact hpass x hx (.of_eq hbx)
        rw [overlapLoop_take A B [blk] (.of_eq he), List.dropLast_concat, if_pos (by
          rw [List.map_cons, he]; exact List.mem_cons_self), List.map_cons, if_pos he, hmap]
        have hend := overlapLoop_pass (A ++ [(blk.1, e.2)]) B [] hpass
        rw [List.append_nil] at hend
        rw [hend, List.append_assoc]
        rfl
      · rw [overlapLoop_skip A B [blk] fun ht => he (hown e List.mem_cons_self ht),
          ih (A ++ [e]) hnd fun x hx => hown x (List.mem_cons_of_mem e hx)]
        have hmem : blk.2 ∈ (e :: B).map Prod.snd ↔ blk.2 ∈ B.map Prod.snd := by
          rw [List.map_cons, List.mem_cons]
          exact or_iff_right he
        rw [if_congr hmem rfl rfl, List.map_cons, if_neg he, cons_eq_append A B [blk] e,
          List.append_assoc A [e]]
        rfl

end Loop

/-! ## Logs -/

/-- The report of a log is right. -/
def Right (log : List BlockSoc) : Prop := filterLoop 0 [] log = .ok (report log)

instance (log : List BlockSoc) : Decidable (Right log) :=
  inferInstanceAs (Decidable (_ = _))

/-- No height is contained in an earlier one but its own. -/
def Uncontained (log : List BlockSoc) : Prop :=
  log.Pairwise fun earlier later => later.2 <:+: earlier.2 → later.2 = earlier.2

instance (log : List BlockSoc) : Decidable (Uncontained log) :=
  inferInstanceAs (Decidable (List.Pairwise _ _))

variable {log : List BlockSoc} {blk : BlockSoc}

/-- One round of the outer loop. -/
def filterRound (i : Nat) (result_list : List BlockSoc) (blk : BlockSoc) :
    Except Fault (List BlockSoc) :=
  if i = 0 then .ok (result_list ++ [blk])
  else overlapLoop blk ((result_list ++ [blk]).length - 1) 0 (result_list ++ [blk])

theorem filterLoop_cons (i : Nat) (result_list : List BlockSoc) (e : BlockSoc)
    (log : List BlockSoc) :
    filterLoop i result_list (e :: log)
      = (filterRound i result_list e >>= fun res => filterLoop (i + 1) res log) := by
  rw [filterLoop, filterRound]
  split <;> rfl

theorem filterLoop_concat (i : Nat) (result_list log : List BlockSoc) (blk : BlockSoc) :
    filterLoop i result_list (log ++ [blk])
      = (filterLoop i result_list log >>= fun res => filterRound (i + log.length) res blk) := by
  induction log generalizing i result_list with
  | nil =>
      rw [List.nil_append, filterLoop_cons]
      exact bind_pure (filterRound i result_list blk)
  | cons e log ih =>
      rw [List.cons_append, filterLoop_cons, filterLoop_cons, bind_assoc]
      simp only [ih, List.length_cons, Nat.add_right_comm i 1, Nat.add_assoc]

theorem report_snd (log : List BlockSoc) : (report log).map Prod.snd = heights log := by
  rw [report, List.map_map]
  exact List.map_id _

theorem length_report_concat (log : List BlockSoc) (blk : BlockSoc) :
    (report (log ++ [blk])).length
      = (report log).length + if blk.2 ∈ heights log then 0 else 1 := by
  rw [report_concat]
  split
  · rw [List.length_map, Nat.add_zero]
  · rw [List.length_append, List.length_singleton]

/-- A round on a right report, from the second one on. -/
theorem filterRound_report (hne : log ≠ []) :
    filterRound (0 + log.length) (report log) blk
      = overlapLoop blk (report log).length ([] : List BlockSoc).length
          ([] ++ report log ++ [blk]) := by
  have hlen : 0 + log.length ≠ 0 := by
    rw [Nat.zero_add]
    exact fun h => hne (List.eq_nil_of_length_eq_zero h)
  rw [filterRound, if_neg hlen, List.length_append, List.length_singleton, Nat.add_sub_cancel]
  rfl

theorem exists_report {e : BlockSoc} (he : e ∈ log) : ∃ x ∈ report log, x.2 = e.2 := by
  have hmem : e.2 ∈ (report log).map Prod.snd := by
    rw [report_snd]
    exact mem_heights.mpr ⟨e, he, rfl⟩
  obtain ⟨x, hx, hxe⟩ := List.mem_map.mp hmem
  exact ⟨x, hx, hxe⟩

/-- **The step.**  A right report stays right exactly if the new height is contained in no
earlier one but its own. -/
theorem right_concat_iff (h : Right log) :
    Right (log ++ [blk]) ↔ ∀ e ∈ log, blk.2 <:+: e.2 → blk.2 = e.2 := by
  rw [Right, filterLoop_concat, show filterLoop 0 [] log = .ok (report log) from h]
  show filterRound (0 + log.length) (report log) blk = _ ↔ _
  by_cases hne : log = []
  · subst hne
    constructor
    · intro _ e he
      cases he
    · intro _
      rw [report_concat]
      rfl
  rw [filterRound_report hne]
  constructor
  · intro hround e he hsub
    obtain ⟨x, hx, hxe⟩ := exists_report he
    have htx : Taken blk x := by
      rw [Taken, hxe]
      exact hsub
    by_contra hdiff
    have hlen := length_report_concat log blk
    split at hlen
    case isTrue hknown =>
      -- taken for its own entry and for another one
      obtain ⟨b, hb, hbe⟩ := mem_heights.mp hknown
      obtain ⟨y, hy, hyb⟩ := exists_report hb
      have hxy : x ≠ y := by
        rintro rfl
        exact hdiff (by rw [← hbe, ← hyb, hxe])
      have hlt := overlapLoop_lose_two (List.cons_ne_nil _ _) hxy hx hy htx
        (.of_eq (by rw [hyb, hbe])) hround
      simp only [List.nil_append, List.length_append, List.length_singleton] at hlt
      omega
    case isFalse hnew =>
      have hlt := overlapLoop_lose ⟨x, hx, htx⟩ hround
      simp only [List.nil_append, List.length_append, List.length_singleton] at hlt
      omega
  · intro hown
    have hnd : ((report log).map Prod.snd).Nodup := by
      rw [report_snd]
      exact nodup_heights log
    have hown' : ∀ x ∈ report log, Taken blk x → blk.2 = x.2 := by
      intro x hx htaken
      have hmem : x.2 ∈ heights log := by
        rw [← report_snd]
        exact List.mem_map_of_mem hx
      obtain ⟨e, he, hex⟩ := mem_heights.mp hmem
      rw [← hex]
      exact hown e he (hex ▸ htaken)
    rw [overlapLoop_exact [] (report log) hnd hown', report_concat, report_snd]
    rfl

theorem uncontained_concat :
    Uncontained (log ++ [blk]) ↔ Uncontained log ∧ ∀ e ∈ log, blk.2 <:+: e.2 → blk.2 = e.2 := by
  rw [Uncontained, List.pairwise_append]
  constructor
  · rintro ⟨h, -, hblk⟩
    exact ⟨h, fun e he => hblk e he blk (List.mem_singleton_self blk)⟩
  · rintro ⟨h, hblk⟩
    refine ⟨h, List.pairwise_singleton _ _, fun e he b hb => ?_⟩
    rw [List.mem_singleton.mp hb]
    exact hblk e he

theorem prefix_concat_iff {l : List BlockSoc} :
    l <+: log ++ [blk] ↔ l <+: log ∨ l = log ++ [blk] := by
  rw [List.prefix_concat_iff, or_comm]

/-- The report is right at every point of a log exactly if no height of the log is contained
in an earlier one but its own. -/
theorem filterLoop_prefixes_iff (log : List BlockSoc) :
    (∀ l, l <+: log → Right l) ↔ Uncontained log := by
  induction log using List.reverseRecOn with
  | nil =>
      constructor
      · intro _
        exact .nil
      · intro _ l hl
        rw [List.prefix_nil.mp hl]
        rfl
  | append_singleton log blk ih =>
      rw [uncontained_concat, ← ih]
      constructor
      · intro h
        have hlog : ∀ l, l <+: log → Right l := fun l hl => h l (prefix_concat_iff.mpr (.inl hl))
        exact ⟨hlog, (right_concat_iff (hlog log List.prefix_rfl)).mp
          (h _ (prefix_concat_iff.mpr (.inr rfl)))⟩
      · rintro ⟨hlog, hblk⟩ l hl
        rcases prefix_concat_iff.mp hl with hl | rfl
        · exact hlog l hl
        · exact (right_concat_iff (hlog log List.prefix_rfl)).mpr hblk

/-! ## Log files -/

/-- An `UpdateTip` line of the node's log. -/
structure UpdateTip where
  time : List Char
  hash : List Char
  height : List Char
  rest : List Char
  time_blank : ' ' ∉ time
  hash_blank : ' ' ∉ hash
  hash_eq : '=' ∉ hash
  digits : ∀ c ∈ height, c.isDigit

namespace UpdateTip

/-- `<time> UpdateTip: new best=<hash> height=<height> <rest>`. -/
def line (u : UpdateTip) : List Char :=
  u.time ++ ' ' :: ("UpdateTip:".toList ++ ' ' :: ("new".toList ++ ' ' :: ("best=".toList ++ u.hash
    ++ ' ' :: ("height=".toList ++ u.height ++ ' ' :: u.rest))))

def entry (u : UpdateTip) : BlockSoc := (u.hash, u.height)

theorem not_mem_height (u : UpdateTip) {c : Char} (hc : c.isDigit = false) : c ∉ u.height := by
  intro h
  rw [u.digits c h] at hc
  cases hc

theorem splitOn_line (u : UpdateTip) :
    u.line.splitOn ' ' = u.time :: "UpdateTip:".toList :: "new".toList
      :: ("best=".toList ++ u.hash) :: ("height=".toList ++ u.height) :: u.rest.splitOn ' ' := by
  have hbest : ' ' ∉ "best=".toList ++ u.hash := by
    rw [List.mem_append, not_or]
    exact ⟨by decide, u.hash_blank⟩
  have hheight : ' ' ∉ "height=".toList ++ u.height := by
    rw [List.mem_append, not_or]
    exact ⟨by decide, u.not_mem_height rfl⟩
  rw [line, List.splitOn_append_cons_self_of_not_mem u.time_blank,
    List.splitOn_append_cons_self_of_not_mem (by decide),
    List.splitOn_append_cons_self_of_not_mem (by decide),
    List.splitOn_append_cons_self_of_not_mem hbest,
    List.splitOn_append_cons_self_of_not_mem hheight]

theorem splitOn_best (u : UpdateTip) :
    ("best=".toList ++ u.hash).splitOn '=' = ["best".toList, u.hash] := by
  show ("best".toList ++ '=' :: u.hash).splitOn '=' = _
  rw [List.splitOn_append_cons_self_of_not_mem (by decide), List.splitOn_eq_singleton u.hash_eq]

theorem splitOn_height (u : UpdateTip) :
    ("height=".toList ++ u.height).splitOn '=' = ["height".toList, u.height] := by
  show ("height".toList ++ '=' :: u.height).splitOn '=' = _
  rw [List.splitOn_append_cons_self_of_not_mem (by decide),
    List.splitOn_eq_singleton (u.not_mem_height rfl)]

theorem infix_line (u : UpdateTip) : "UpdateTip".toList <:+: u.line := by
  have htag : "UpdateTip".toList <:+: "UpdateTip:".toList := ⟨[], [':'], by decide⟩
  rw [line]
  generalize "UpdateTip:".toList = tag at htag ⊢
  refine htag.trans (List.infix_append_of_infix_right (List.infix_cons ?_))
  exact List.infix_append_left

theorem pyIndex_best (u : UpdateTip) :
    pyIndex (u.line.splitOn ' ') 3 = .ok ("best=".toList ++ u.hash) := by
  rw [u.splitOn_line]
  rfl

theorem pyIndex_height (u : UpdateTip) :
    pyIndex (u.line.splitOn ' ') 4 = .ok ("height=".toList ++ u.height) := by
  rw [u.splitOn_line]
  rfl

theorem get_blockHash_list_lines (us : List UpdateTip) :
    get_blockHash_list (us.map line) = .ok (us.map entry) := by
  induction us with
  | nil => rfl
  | cons u us ih =>
      rw [List.map_cons, get_blockHash_list_cons u.infix_line, pyIndex_best, pyIndex_height, ih]
      simp only [bind, Except.bind, splitOn_best, splitOn_height]
      rfl

theorem filter_lines (us : List UpdateTip) :
    filter_overlap_height (us.map line) = filterLoop 0 [] (us.map entry) := by
  rw [filter_overlap_height, get_blockHash_list_lines]
  rfl

/-- **The emulation report.**  Where no height of the log is contained in an earlier one but
its own, the report has one entry for each height, in the order of first appearance and with
the last hash.  It does so at every point of the log exactly in this case. -/
theorem filter_prefixes_iff (us : List UpdateTip) :
    (Uncontained (us.map entry) →
      filter_overlap_height (us.map line) = .ok (report (us.map entry))) ∧
    ((∀ l, l <+: us → filter_overlap_height (l.map line) = .ok (report (l.map entry))) ↔
      Uncontained (us.map entry)) := by
  have hiff := filterLoop_prefixes_iff (us.map entry)
  constructor
  · intro h
    rw [filter_lines]
    exact hiff.mpr h _ List.prefix_rfl
  · rw [← hiff]
    constructor
    · intro h l hl
      obtain ⟨l', hl', rfl⟩ := List.prefix_map_iff.mp hl
      rw [Right, ← filter_lines]
      exact h l' hl'
    · intro h l hl
      rw [filter_lines]
      exact h _ (hl.map entry)

/-- Height `1` after height `10`. -/
def tenOne : List UpdateTip :=
  [⟨[], ['a'], ['1', '0'], [], by decide, by decide, by decide, by simp⟩,
    ⟨[], ['b'], ['1'], [], by decide, by decide, by decide, by simp⟩]

/-- The report is not right for every log. -/
theorem filter_fails :
    ¬ ∀ us : List UpdateTip,
      filter_overlap_height (us.map line) = .ok (report (us.map entry)) := by
  intro h
  have hten := h tenOne
  rw [filter_lines] at hten
  revert hten
  decide

end UpdateTip

end Bleep
