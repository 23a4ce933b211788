/-
# `Bleep.BL3.TreeCalls` — a tree and the calls that fill it

`BlockTree` by itself, from its constructor on: any sequence of `AppendBlock` and
`AppendBlockHash`, with any blocks and hashes.  Two things are read off such sequences,
both with heights and indices of 64 bits.

*The locator.*  Where only blocks are appended, and none under the hash of genesis, it is
the sample of the tip's chain at ten depths, and genesis (`getBlockLocator_of_links`), as
long as the height does not overflow; the call in which it does leaves a tree that has no
locator (`getBlockLocator_linkBlock_iff`).

*Registered hashes.*  `AppendBlockHash` stores null, `AppendBlock` inserts without
overwriting, and asks of the parent only that its hash is a key.  So a block whose hash was
registered first is never stored, and may become the tip all the same
(`registered_stops`).  A block that becomes the tip is logged, from a buffer of 256
characters that the text of its timestamp alone can fill.  `Clean` says which calls keep
clear of both; after such calls a tree is grounded, and a further call works if and only if
it is clean (`hashFirst_of_clean`).
-/
import Bleep.BL2.EventLog
import Bleep.BL3.PoWChain

namespace Bleep

open BlockTree

variable {H A W : Type} [DecidableEq H]

/-- The calls that change a tree. -/
inductive TreeCall (H A : Type) (W : Type := Nat) where
  | appendBlock (blk : POWBlock H A W)
  | appendBlockHash (hash : H)

section Calls

variable [OfNat W 0] [OfNat W 1] [Add W] [LE W] [DecidableLE W]

omit [OfNat W 0] in
def TreeCall.perform (t : BlockTree H A W) : TreeCall H A W → Except Fault (BlockTree H A W)
  | .appendBlock blk => t.appendBlock blk
  | .appendBlockHash hash => .ok (t.appendBlockHash hash)

/-- A tree under any sequence of calls. -/
def callSys [Zero H] [Zero A] (sha : Sha256 H A W) :
    TransSys (BlockTree H A W) (TreeCall H A W) where
  init t := t = .init sha
  step t a t' := a.perform t = .ok t'

end Calls

namespace BlockTree

/-! ## Appending blocks only -/

section Links

variable {t t' : BlockTree H A W} [OfNat W 1] [Add W] [LE W] [DecidableLE W]

/-- The block moves the tip. -/
def MovesTip (t : BlockTree H A W) (b : POWBlock H A W) : Prop :=
  t.containBlockHash b.prev_block_hash = true ∧
    (t.lasthash = b.prev_block_hash ∨ t.treeheight ≤ b.block_idx)

instance (t : BlockTree H A W) (b : POWBlock H A W) : Decidable (t.MovesTip b) :=
  inferInstanceAs (Decidable (_ ∧ _))

/-- The height that the block gives the tree does not overflow. -/
def NoWrap [OfNat W 0] (t : BlockTree H A W) (b : POWBlock H A W) : Prop :=
  t.MovesTip b → if t.lasthash = b.prev_block_hash then t.treeheight + 1 ≠ 0
    else b.block_idx + 1 ≠ 0

instance [OfNat W 0] [DecidableEq W] (t : BlockTree H A W) (b : POWBlock H A W) :
    Decidable (t.NoWrap b) :=
  inferInstanceAs (Decidable (_ → _))

/-- The call appends a block, not under the hash of genesis, and the height does not
overflow. -/
def LinksOnly [OfNat W 0] (t : BlockTree H A W) : TreeCall H A W → Prop
  | .appendBlock blk => blk.block_hash ≠ t.genesis ∧ t.NoWrap blk
  | .appendBlockHash _ => False

theorem appendBlock_eq {b : POWBlock H A W} (h : t.appendBlock b = .ok t') :
    t' = t.linkBlock b := by
  obtain ⟨_, -, h⟩ := bind_ok.mp h
  exact (Except.ok.inj h).symm

theorem linkBlock_tip {b : POWBlock H A W} (hm : t.MovesTip b) :
    (t.linkBlock b).lasthash = b.block_hash ∧ (t.linkBlock b).treeheight =
      if t.lasthash = b.prev_block_hash then t.treeheight + 1 else b.block_idx + 1 := by
  rcases t.linkBlock_cases b with ⟨hk, -⟩ | ⟨-, -, -, ⟨he, hl, hh⟩ | ⟨hne, -, hl, hh⟩ |
    ⟨hne, hlt, -⟩⟩
  · exact nomatch hk.symm.trans hm.1
  · exact ⟨hl, by rw [hh, if_pos he]⟩
  · exact ⟨hl, by rw [hh, if_neg hne]⟩
  · exact absurd hm.2 (not_or.mpr ⟨hne, hlt⟩)

theorem linkBlock_same {b : POWBlock H A W} (hm : ¬t.MovesTip b) :
    (t.linkBlock b).lasthash = t.lasthash ∧ (t.linkBlock b).treeheight = t.treeheight := by
  rcases t.linkBlock_cases b with ⟨-, he⟩ | ⟨hk, -, -, ⟨he, -⟩ | ⟨-, hle, -⟩ | ⟨-, -, hl, hh⟩⟩
  · rw [he]
    exact ⟨rfl, rfl⟩
  · exact absurd ⟨hk, .inl he⟩ hm
  · exact absurd ⟨hk, .inr hle⟩ hm
  · exact ⟨hl, hh⟩

end Links

section Locator

variable {t t' : BlockTree H A UInt64}

/-- What such calls keep: the tree is rooted, and of height 1 exactly if its tip is
genesis. -/
structure Linked (t : BlockTree H A UInt64) : Prop where
  rooted : t.Rooted
  measured : t.Measured
  ofGenesis : t.lasthash = t.genesis → t.treeheight = 1

/-- A height that has grown is neither 0, unless it overflowed, nor 1. -/
theorem Linked.height_linkBlock (h : t.Linked) {b : POWBlock H A UInt64} (hm : t.MovesTip b) :
    (t.linkBlock b).treeheight ≠ 1 := by
  have h0 : t.treeheight.toNat ≠ 0 := fun h0 => h.measured.height (UInt64.toNat_inj.mp h0)
  obtain ⟨-, hh⟩ := linkBlock_tip hm
  intro h1
  have h1' := congrArg UInt64.toNat (hh.symm.trans h1)
  split at h1'
  · rw [UInt64.toNat_add] at h1'
    have := t.treeheight.toNat_lt
    simp only [UInt64.toNat_one] at h1'
    omega
  · next hne =>
      have hle := UInt64.le_iff_toNat_le.mp (hm.2.resolve_left hne)
      rw [UInt64.toNat_add] at h1'
      have := b.block_idx.toNat_lt
      simp only [UInt64.toNat_one] at h1'
      omega

theorem Linked.linkBlock (h : t.Linked) {b : POWBlock H A UInt64}
    (hb : b.block_hash ≠ t.genesis) (hw : t.NoWrap b) : (t.linkBlock b).Linked := by
  have hg := t.genesis_linkBlock b
  by_cases hm : t.MovesTip b
  · obtain ⟨hl, hh⟩ := linkBlock_tip hm
    have h1 := h.height_linkBlock hm
    refine ⟨h.rooted.linkBlock b, ⟨?_, fun he => absurd he h1⟩, fun he => ?_⟩
    · rw [hh]
      have hne := hw hm
      split at hne
      · next he => rwa [if_pos he]
      · next he => rwa [if_neg he]
    · exact absurd (hl.symm.trans (he.trans hg)) hb
  · obtain ⟨hl, hh⟩ := linkBlock_same hm
    refine ⟨h.rooted.linkBlock b, ⟨hh ▸ h.measured.height, fun h1 => ?_⟩, fun he => ?_⟩
    · rw [hl, hg]
      exact h.measured.young (hh ▸ h1)
    · exact hh.trans (h.ofGenesis (hl.symm.trans (he.trans hg)))

theorem linked_of_links [Zero H] [Zero A] {sha : Sha256 H A UInt64}
    (h : (callSys sha).Under LinksOnly t) : t.Linked := by
  refine h.invariant (P := Linked) ?_ ?_
  · rintro t rfl
    have h1 : (1 : UInt64) ≠ 0 := by decide
    exact ⟨rooted_init sha, ⟨h1, fun _ => rfl⟩, fun _ => rfl⟩
  · intro t a t' _ ht hc hs
    cases a with
    | appendBlock b =>
        obtain rfl := appendBlock_eq hs
        exact ht.linkBlock hc.1 hc.2
    | appendBlockHash k => exact absurd hc id

/-- A further block leaves a tree with a locator exactly if the height does not overflow. -/
theorem getBlockLocator_linkBlock_iff [Zero H] [Zero A] {sha : Sha256 H A UInt64}
    (h : (callSys sha).Under LinksOnly t) (b : POWBlock H A UInt64) :
    (∃ locator, (t.linkBlock b).getBlockLocator = .ok locator) ↔ t.NoWrap b := by
  have ht := linked_of_links h
  have hr := (ht.rooted.linkBlock b).toGrounded
  have hzero : (t.linkBlock b).treeheight ≠ 0 ↔ t.NoWrap b := by
    by_cases hm : t.MovesTip b
    · obtain ⟨-, hh⟩ := linkBlock_tip hm
      rw [hh, NoWrap, imp_iff_right hm]
      split
      · exact Iff.rfl
      · exact Iff.rfl
    · obtain ⟨-, hh⟩ := linkBlock_same hm
      rw [hh]
      exact iff_of_true ht.measured.height fun hm' => absurd hm' hm
  rw [← hzero]
  refine ⟨?_, getBlockLocator_total hr⟩
  rintro ⟨locator, hloc⟩ h0
  exact nomatch (getBlockLocator_zero h0).symm.trans hloc

end Locator

/-! ## Hashes registered before their blocks -/

/-- How `AppendBlock` prints a hash, through a stream, and the bits of a `double`, with
`%f`. -/
structure LineText (H : Type) where
  hash : H → String
  double : Nat → String

/-- The line of a block that becomes the tip: index, ten characters of either hash, and
timestamp. -/
def appendLine (txt : LineText H) (b : POWBlock H A UInt64) : List Char :=
  let ten (k : H) := String.ofList (((txt.hash k).toList.drop 2).take 10)
  sprintf "BlockAppend"
    [toString b.block_idx, ten b.block_hash, ten b.prev_block_hash, txt.double b.timestamp]

section Logged

variable {t t' : BlockTree H A UInt64} {txt : LineText H}

/-- The line of the block, if one is written, fits into its buffer. -/
def LineFits (txt : LineText H) (t : BlockTree H A UInt64) (b : POWBlock H A UInt64) : Prop :=
  t.MovesTip b → (appendLine txt b).length ≤ MAX_LINE

instance (b : POWBlock H A UInt64) : Decidable (t.LineFits txt b) :=
  inferInstanceAs (Decidable (_ → _))

/-- `AppendBlock` with the line it writes where it moves the tip. -/
def appendBlockLogged (txt : LineText H) (t : BlockTree H A UInt64) (b : POWBlock H A UInt64) :
    Except Fault (BlockTree H A UInt64) :=
  if t.LineFits txt b then t.appendBlock b else .error .outOfBounds

/-- A timestamp that prints to at most 200 characters leaves room for the rest. -/
theorem lineFits_of_double {b : POWBlock H A UInt64}
    (h : (txt.double b.timestamp).length ≤ 200) : t.LineFits txt b := by
  intro _
  have hidx : (printed (toString b.block_idx)).length ≤ 20 := by
    refine (List.takeWhile_prefix _).length_le.trans ?_
    rw [String.length_toList]
    refine (Nat.length_repr_le_iff (by decide)).mpr (b.block_idx.toNat_lt.trans (by decide))
  have hten (k : H) :
      (printed (String.ofList (((txt.hash k).toList.drop 2).take 10))).length ≤ 10 := by
    refine (List.takeWhile_prefix _).length_le.trans ?_
    rw [String.toList_ofList]
    exact List.length_take_le 10 _
  have htime : (printed (txt.double b.timestamp)).length ≤ 200 :=
    (List.takeWhile_prefix _).length_le.trans (String.length_toList.trans_le h)
  have hname : "BlockAppend".length = 11 := rfl
  have hh := hten b.block_hash
  have hp := hten b.prev_block_hash
  rw [appendLine, length_sprintf, hname]
  simp only [List.map_cons, List.map_nil, List.sum_cons, List.sum_nil, MAX_LINE]
  omega

end Logged

end BlockTree

def TreeCall.performLogged (txt : LineText H) (t : BlockTree H A UInt64) :
    TreeCall H A UInt64 → Except Fault (BlockTree H A UInt64)
  | .appendBlock blk => t.appendBlockLogged txt blk
  | .appendBlockHash hash => .ok (t.appendBlockHash hash)

/-- A tree under any sequence of calls, which write to the log. -/
def treeSys [Zero H] [Zero A] (txt : LineText H) (sha : Sha256 H A UInt64) :
    TransSys (BlockTree H A UInt64) (TreeCall H A UInt64) where
  init t := t = .init sha
  step t a t' := a.performLogged txt t = .ok t'

/-- Where every timestamp prints to at most 200 characters, the log takes nothing away. -/
theorem treeSys_eq [Zero H] [Zero A] {txt : LineText H} (sha : Sha256 H A UInt64)
    (h : ∀ bits, (txt.double bits).length ≤ 200) : treeSys txt sha = callSys sha := by
  have hperform (t : BlockTree H A UInt64) (a : TreeCall H A UInt64) :
      a.performLogged txt t = a.perform t := by
    cases a with
    | appendBlock b => exact if_pos (lineFits_of_double (h b.timestamp))
    | appendBlockHash k => rfl
  unfold treeSys callSys
  simp only [hperform]

namespace BlockTree

section Registered

variable {t t' : BlockTree H A UInt64} {txt : LineText H}

theorem appendBlockLogged_ok {b : POWBlock H A UInt64} :
    t.appendBlockLogged txt b = .ok t' ↔ t.LineFits txt b ∧ t.appendBlock b = .ok t' := by
  unfold appendBlockLogged
  split
  · next h => exact (and_iff_right h).symm
  · next h => exact iff_of_false nofun fun hf => h hf.1

theorem entry_appendBlockHash (t : BlockTree H A UInt64) (k : H) :
    (t.appendBlockHash k).entry = t.entry := by
  funext x
  rw [appendBlockHash, entry_insertIndex]
  split
  · next h =>
      obtain ⟨rfl, hno⟩ := h
      cases he : t.entry x with
      | none => rfl
      | some i => cases hno.symm.trans (containBlockHash_of_entry he)
  · rfl

theorem Grounded.appendBlockHash (hr : t.Grounded) (k : H) : (t.appendBlockHash k).Grounded := by
  have hsame : (t.appendBlockHash k).lasthash = t.lasthash ∧
      (t.appendBlockHash k).genesis = t.genesis := by
    unfold BlockTree.appendBlockHash insertIndex
    split
    · exact ⟨rfl, rfl⟩
    · exact ⟨rfl, rfl⟩
  obtain ⟨hl, hg⟩ := hsame
  have he := t.entry_appendBlockHash k
  constructor
  · rw [he]
    exact hr.keyed
  · rw [he]
    exact hr.linked
  · show ∀ x i, (t.appendBlockHash k).entry x = some i →
      ∃ l, Chain (t.appendBlockHash k).entry BlockTreeBlockIndex.prevblockhash x l
    rw [he]
    exact hr.path
  · rw [he, hg]
    exact hr.root
  · rw [containBlock, he, hl]
    exact hr.tip
  · rw [containBlock, he, hg]
    exact hr.genesis

/-- Tip and height stay where they are: the block is not above the tip, or it names the tip
itself and its index overflows to the height there is. -/
def KeepsTip (t : BlockTree H A UInt64) (b : POWBlock H A UInt64) : Prop :=
  b.block_idx < t.treeheight ∨ b.block_hash = t.lasthash ∧ b.block_idx + 1 = t.treeheight

instance (b : POWBlock H A UInt64) : Decidable (t.KeepsTip b) :=
  inferInstanceAs (Decidable (_ ∨ _))

/-- The call meets no hash without a block, or does nothing: a block whose parent is
stored has a new hash or is stored already; one whose parent is only registered has a
registered hash, and keeps the tip.  The line of a block that moves the tip fits. -/
def Clean (txt : LineText H) (t : BlockTree H A UInt64) : TreeCall H A UInt64 → Prop
  | .appendBlock b =>
      (t.containBlock b.prev_block_hash = true → t.containBlockHash b.block_hash = true →
        t.Stores b.block_hash b) ∧
      (t.containBlockHash b.prev_block_hash = true → t.containBlock b.prev_block_hash = false →
        t.containBlockHash b.block_hash = true ∧ t.KeepsTip b) ∧
      t.LineFits txt b
  | .appendBlockHash _ => True

/-- The call works: it answers, with a tip that has data; a block with a stored parent is
there afterwards; a block whose parent is only registered is not linked in. -/
def HashFirst (txt : LineText H) (t : BlockTree H A UInt64) (a : TreeCall H A UInt64) : Prop :=
  ∃ t', a.performLogged txt t = .ok t' ∧ t'.containBlock t'.lasthash = true ∧
    ∀ b, a = .appendBlock b →
      (t.containBlock b.prev_block_hash = true →
        t'.containBlock b.block_hash = true ∧ t'.getBlock b.block_hash = .ok b) ∧
      (t.containBlockHash b.prev_block_hash = true → t.containBlock b.prev_block_hash = false →
        t' = t)

theorem stores_linkBlock_iff {b : POWBlock H A UInt64}
    (h : t.containBlockHash b.block_hash = true) (c : POWBlock H A UInt64) :
    (t.linkBlock b).Stores b.block_hash c ↔ t.Stores b.block_hash c := by
  unfold Stores
  rw [entry_linkBlock, if_neg]
  rintro ⟨-, -, hno⟩
  exact nomatch hno.symm.trans h

theorem getBlock_iff {k : H} {b : POWBlock H A UInt64} :
    t.getBlock k = .ok b ↔ t.Stores k b := by
  refine ⟨fun h => ?_, getBlock_of_stores⟩
  obtain ⟨_, hc, -⟩ := bind_ok.mp h
  obtain ⟨c, hc⟩ := stores_iff.mp (mAssert_ok.mp hc)
  exact Except.ok.inj ((getBlock_of_stores hc).symm.trans h) ▸ hc

theorem linkBlock_of_keepsTip {b : POWBlock H A UInt64}
    (hb : t.containBlockHash b.block_hash = true) (hne : t.lasthash ≠ b.prev_block_hash)
    (hk : t.KeepsTip b) : t.linkBlock b = t := by
  have hins (v : Option (BlockTreeBlockIndex H A UInt64)) : t.insertIndex b.block_hash v = t :=
    if_pos (of_decide_eq_true hb)
  unfold linkBlock
  rw [hins, if_neg hne]
  rcases hk with hlow | ⟨hl, hh⟩
  · rw [if_neg (UInt64.not_le.mpr hlow)]
    split
    · rfl
    · rfl
  · rw [hl, hh]
    split
    · split
      · rfl
      · rfl
    · rfl

/-- A clean call leaves the tree grounded, and a block with a registered parent out. -/
theorem Grounded.linkBlock_clean (hr : t.Grounded) {b : POWBlock H A UInt64}
    (hc : Clean txt t (.appendBlock b)) : (t.linkBlock b).Grounded ∧
      (t.containBlockHash b.prev_block_hash = true → t.containBlock b.prev_block_hash = false →
        t.linkBlock b = t) := by
  obtain ⟨hstored, hregistered, -⟩ := hc
  cases hp : t.containBlock b.prev_block_hash with
  | true =>
      have hg := hr.linkBlock (fun _ => hp) fun h => (hstored hp h).contain
      exact ⟨hg, fun _ => nofun⟩
  | false =>
      have hsame (hk : t.containBlockHash b.prev_block_hash = true) : t.linkBlock b = t := by
        obtain ⟨hb, hkeep⟩ := hregistered hk hp
        refine linkBlock_of_keepsTip hb (fun he => ?_) hkeep
        rw [← he, hr.tip] at hp
        cases hp
      refine ⟨?_, fun hk _ => hsame hk⟩
      cases hk : t.containBlockHash b.prev_block_hash with
      | true => exact (hsame hk).symm ▸ hr
      | false => exact (linkBlock_of_unknown hk).symm ▸ hr

theorem Grounded.hashFirst (hr : t.Grounded) {a : TreeCall H A UInt64} (hc : Clean txt t a) :
    t.HashFirst txt a := by
  cases a with
  | appendBlockHash k => exact ⟨_, rfl, (hr.appendBlockHash k).tip, nofun⟩
  | appendBlock b =>
      obtain ⟨hg, hsame⟩ := hr.linkBlock_clean hc
      have happend := appendBlockLogged_ok.mpr ⟨hc.2.2, appendBlock_of_grounded hg⟩
      refine ⟨_, happend, hg.tip, fun c he => ?_⟩
      obtain rfl := TreeCall.appendBlock.inj he
      refine ⟨fun hp => ?_, hsame⟩
      suffices hs : (t.linkBlock b).Stores b.block_hash b from
        ⟨hs.contain, getBlock_of_stores hs⟩
      cases hb : t.containBlockHash b.block_hash with
      | true => exact (hc.1 hp hb).linkBlock b
      | false =>
          obtain ⟨j, hj⟩ := containBlock_iff.mp hp
          refine ⟨some b.prev_block_hash, ?_⟩
          rw [entry_linkBlock, if_pos ⟨containBlockHash_of_entry hj, rfl, hb⟩]
          rfl

/-- Where linking a block in changes nothing, its hash is there and the tip is kept. -/
theorem Grounded.keepsTip_of_linkBlock (hr : t.Grounded) {b : POWBlock H A UInt64}
    (hk : t.containBlockHash b.prev_block_hash = true)
    (hp : t.containBlock b.prev_block_hash = false) (hsame : t.linkBlock b = t) :
    t.containBlockHash b.block_hash = true ∧ t.KeepsTip b := by
  constructor
  · cases hno : t.containBlockHash b.block_hash with
    | true => rfl
    | false =>
        -- the block would have been inserted
        have he := t.entry_linkBlock b b.block_hash
        rw [if_pos ⟨hk, rfl, hno⟩, hsame] at he
        exact hno.symm.trans (containBlockHash_of_entry he)
  · have hne : t.lasthash ≠ b.prev_block_hash := by
      intro he
      rw [← he, hr.tip] at hp
      cases hp
    by_cases hm : t.MovesTip b
    · obtain ⟨hl, hh⟩ := linkBlock_tip hm
      rw [hsame] at hl hh
      rw [if_neg hne] at hh
      exact .inr ⟨hl.symm, hh.symm⟩
    · exact .inl (UInt64.not_le.mp fun hle => hm ⟨hk, .inr hle⟩)

theorem Grounded.clean_of_hashFirst (hr : t.Grounded) {a : TreeCall H A UInt64}
    (h : t.HashFirst txt a) : Clean txt t a := by
  cases a with
  | appendBlockHash k => trivial
  | appendBlock b =>
      obtain ⟨t', ht', -, hb⟩ := h
      obtain ⟨hdata, hreg⟩ := hb b rfl
      obtain ⟨hfits, ht'⟩ := appendBlockLogged_ok.mp ht'
      obtain rfl := appendBlock_eq ht'
      refine ⟨fun hp hk => ?_, fun hk hp => hr.keepsTip_of_linkBlock hk hp (hreg hk hp), hfits⟩
      exact (stores_linkBlock_iff hk b).mp (getBlock_iff.mp (hdata hp).2)

theorem grounded_of_clean [Zero H] [Zero A] {sha : Sha256 H A UInt64}
    (h : (treeSys txt sha).Under (Clean txt) t) : t.Grounded := by
  refine h.invariant (P := Grounded) ?_ ?_
  · rintro t rfl
    exact (rooted_init sha).toGrounded
  · intro t a t' _ hr hc hs
    cases a with
    | appendBlock b =>
        obtain ⟨-, hs⟩ := appendBlockLogged_ok.mp hs
        obtain rfl := appendBlock_eq hs
        exact (hr.linkBlock_clean hc).1
    | appendBlockHash k =>
        obtain rfl := Except.ok.inj hs
        exact hr.appendBlockHash k

/-- **Hash-first registration.**  After clean calls no walk reaches an entry without data,
and a further call works if and only if it is clean. -/
theorem hashFirst_of_clean [Zero H] [Zero A] {sha : Sha256 H A UInt64}
    (h : (treeSys txt sha).Under (Clean txt) t) :
    (t.containBlock t.lasthash = true ∧ t.printLongestChain = .ok () ∧
      (t.treeheight ≠ 0 → ∃ locator, t.getBlockLocator = .ok locator) ∧
      (t.treeheight = 0 → t.getBlockLocator =
        .error (.assertion "At least genesis block should exist")) ∧
      ∀ locator e, t.findCommonBlock locator = .error e →
        (∀ k ∈ locator, ∀ l, t.Path t.lasthash l → k ∉ l) ∧
          e = .assertion "need to be returned before reaching genesis block") ∧
    ∀ a, t.HashFirst txt a ↔ Clean txt t a := by
  have hr := grounded_of_clean h
  obtain ⟨-, l, -, hl⟩ := hr.tip_path
  refine ⟨⟨hr.tip, printLongestChain_ok hr, getBlockLocator_total hr, getBlockLocator_zero,
    fun locator e he => ?_⟩, fun a => ⟨hr.clean_of_hashFirst, hr.hashFirst⟩⟩
  by_cases hx : ∃ x ∈ l, x ∈ locator
  · obtain ⟨c, -, hc⟩ := findCommonBlock_of_common hr hl hx
    exact nomatch he.symm.trans hc
  · have hno : ∀ x ∈ l, x ∉ locator := fun x hxl hxloc => hx ⟨x, hxl, hxloc⟩
    refine ⟨fun k hk l' hl' hmem => hno k (hl.unique hl' ▸ hmem) hk, ?_⟩
    exact Except.error.inj (he.symm.trans (findCommonBlock_error hr hl hno))

end Registered

end BlockTree

/-! ## Runs -/

section Run

/-- A schedule of calls, run from the initial tree. -/
def callRun [Zero H] [Zero A] [OfNat W 0] [OfNat W 1] [Add W] [LE W] [DecidableLE W]
    (sha : Sha256 H A W) (C : BlockTree H A W → TreeCall H A W → Bool)
    (calls : List (TreeCall H A W)) : Option (BlockTree H A W) :=
  TransSys.exec (fun t a => (a.perform t).toOption) C (.init sha) calls

theorem callRun_any [Zero H] [Zero A] [OfNat W 0] [OfNat W 1] [Add W] [LE W] [DecidableLE W]
    {sha : Sha256 H A W} {C : BlockTree H A W → TreeCall H A W → Bool}
    {calls : List (TreeCall H A W)} {test : BlockTree H A W → Bool}
    (h : (callRun sha C calls).any test = true) :
    ∃ t, (callSys sha).Under (fun t a => C t a = true) t ∧ test t = true := by
  have hstep : ∀ (u : BlockTree H A W) (a : TreeCall H A W) (u' : BlockTree H A W),
      (a.perform u).toOption = some u' → (callSys sha).step u a u' := by
    intro u a u' hu
    show a.perform u = .ok u'
    cases hp : a.perform u with
    | error e =>
        rw [hp] at hu
        cases hu
    | ok v =>
        rw [hp] at hu
        exact congrArg Except.ok (Option.some.inj hu)
  obtain ⟨t, -, ht⟩ := TransSys.exec_any _ _ hstep rfl h
  exact ⟨t, ht⟩

/-- The block of hash `n + 1` over the block of hash `n`. -/
def blockOver (idx : W) (n : Nat) : POWBlock Nat Nat W where
  block_idx := idx
  tx_list := []
  block_hash := n + 1
  nonce := 0
  tx_hash := 0
  prev_block_hash := n
  timestamp := 0
  difficulty := 0

/-- With the index that this makes it in a chain. -/
def blockNo (n : Nat) : POWBlock Nat Nat := blockOver n n

def blockNo64 (n : Nat) : POWBlock Nat Nat UInt64 := blockOver n.toUInt64 n

def linksCheck (t : BlockTree Nat Nat UInt64) : TreeCall Nat Nat UInt64 → Bool
  | .appendBlock b => decide (b.block_hash ≠ t.genesis ∧ t.NoWrap b)
  | .appendBlockHash _ => false

/-- A hash, or a new block over a stored one. -/
def cleanCheck (t : BlockTree Nat Nat UInt64) : TreeCall Nat Nat UInt64 → Bool
  | .appendBlock b => t.containBlock b.prev_block_hash && !t.containBlockHash b.block_hash
  | .appendBlockHash _ => true

/-- Texts of the real form. -/
def plainText : LineText Nat where
  hash _ := "[[0000000000000000]]"
  double _ := "0.000000"

theorem plainText_short (bits : Nat) : (plainText.double bits).length ≤ 200 :=
  (by decide : "0.000000".length ≤ 200)

theorem clean_of_check {t : BlockTree Nat Nat UInt64} {a : TreeCall Nat Nat UInt64}
    (h : cleanCheck t a = true) : Clean plainText t a := by
  cases a with
  | appendBlockHash k => trivial
  | appendBlock b =>
      obtain ⟨hp, hb⟩ := Bool.and_eq_true_iff.mp h
      refine ⟨fun _ hk => ?_, fun _ hno => ?_, lineFits_of_double (plainText_short _)⟩
      · rw [hk] at hb
        cases hb
      · rw [hp] at hno
        cases hno

/-- Two blocks come, and the hash of a third that is not there yet. -/
theorem hashFirst_of_clean_two : ∃ t, (treeSys plainText nonceSha64).Under (Clean plainText) t ∧
    t.containBlockHash 9 = true ∧ t.containBlock 9 = false ∧ t.containBlock t.lasthash = true ∧
    (t.HashFirst plainText (.appendBlock (blockNo64 3)) ↔
      Clean plainText t (.appendBlock (blockNo64 3))) := by
  have hrun : (callRun nonceSha64 cleanCheck
      [.appendBlock (blockNo64 1), .appendBlockHash 9, .appendBlock (blockNo64 2)]).any
      (fun t => t.containBlockHash 9 && !t.containBlock 9) = true := by decide +kernel
  obtain ⟨t, hu, ht⟩ := callRun_any hrun
  obtain ⟨hk, hno⟩ := Bool.and_eq_true_iff.mp ht
  have hclean : (treeSys plainText nonceSha64).Under (Clean plainText) t := by
    rw [treeSys_eq nonceSha64 plainText_short]
    exact hu.mono fun _ _ _ => clean_of_check
  obtain ⟨⟨htip, -⟩, hiff⟩ := hashFirst_of_clean hclean
  exact ⟨t, hclean, hk, by simpa using hno, htip, hiff _⟩

/-- The hash of a child of genesis is registered, then the child is appended: it becomes
the tip without having been stored, and printing the chain follows a null pointer. -/
theorem registered_stops : ∃ t, (treeSys plainText nonceSha64).Reach t ∧
    t.containBlock (blockNo64 1).prev_block_hash = true ∧
    (TreeCall.appendBlock (blockNo64 1)).performLogged plainText t = .error .nullDeref ∧
    ¬t.HashFirst plainText (.appendBlock (blockNo64 1)) := by
  have hrun : (callRun nonceSha64 (fun _ _ => true) [.appendBlockHash 2]).any
      (fun t => t.containBlock 1 && match t.appendBlock (blockNo64 1) with
        | .ok _ => false
        | .error e => decide (e = .nullDeref)) = true := by decide +kernel
  obtain ⟨t, hu, ht⟩ := callRun_any hrun
  obtain ⟨hp, he⟩ := Bool.and_eq_true_iff.mp ht
  have herr : t.appendBlock (blockNo64 1) = .error .nullDeref := by
    split at he
    · cases he
    · next e heq => rw [heq, of_decide_eq_true he]
  have hlog : (TreeCall.appendBlock (blockNo64 1)).performLogged plainText t =
      .error .nullDeref :=
    (if_pos (lineFits_of_double (plainText_short _))).trans herr
  refine ⟨t, ?_, hp, hlog, ?_⟩
  · rw [treeSys_eq nonceSha64 plainText_short]
    exact hu.reach
  · rintro ⟨t', ht', -⟩
    exact nomatch hlog.symm.trans ht'

end Run

end Bleep
