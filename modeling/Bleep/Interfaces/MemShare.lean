/-
# `Bleep.Interfaces.MemShare` — sharing the memory of equal objects

`memshare::try_share` puts an object into the table of its type unless an equal
one is there, and `memshare::lookup` answers with the equal one of the table, if
there is one, in place of its argument.  Sharing is meant to save memory and to
change nothing else: with the flag off, `lookup` answers its argument
(`answersOff`), and with the flag on it should answer an object of the same
value (`Transparent`).

The table is a `std::unordered_set`: an entry is found by its hash code and then
by `operator==`.  Which fields these read is each class's own choice, and neither
class reads all.  So the answer is the *first* object shared that is equal in the
fields read (`find_ofShares`), and sharing is transparent exactly if that object
has the rest of the value, too (`transparent_iff`).
-/
import Bleep.BL3.BlockTree

namespace Bleep

/-- What a class must offer to be shared: `hash()` and an `operator==` that is an
equivalence. -/
structure Shareable (α : Type) where
  hash : α → UInt64
  eq : α → α → Bool
  equivalence : Equivalence fun p q => eq p q = true

namespace Shareable

variable {α : Type} (O : Shareable α)

/-- The table takes `q` for `p`: equal hash codes, and `operator==`. -/
def same (p q : α) : Bool := O.hash p == O.hash q && O.eq p q

variable {O} {p q r : α}

theorem same_iff : O.same p q = true ↔ O.hash p = O.hash q ∧ O.eq p q = true := by
  simp [same]

theorem same_symm (h : O.same p q = true) : O.same q p = true := by
  obtain ⟨hh, he⟩ := same_iff.mp h
  exact same_iff.mpr ⟨hh.symm, O.equivalence.symm he⟩

theorem same_trans (h : O.same p q = true) (h' : O.same q r = true) : O.same p r = true := by
  obtain ⟨hh, he⟩ := same_iff.mp h
  obtain ⟨hh', he'⟩ := same_iff.mp h'
  exact same_iff.mpr ⟨hh.trans hh', O.equivalence.trans he he'⟩

end Shareable

/-! ## The table -/

/-- `class memory_sharing`: the entries of `tbl`, oldest first. -/
structure MemorySharing {α : Type} (O : Shareable α) where
  tbl : List α
  distinct : tbl.Pairwise fun p q => O.same p q = false

namespace MemorySharing

variable {α : Type} {O : Shareable α}

def empty : MemorySharing O := ⟨[], .nil⟩

variable (m : MemorySharing O)

/-- `tbl.find`. -/
def find (p : α) : Option α := m.tbl.find? (O.same p)

/-- `try_share`: `insert` does not replace. -/
def tryShare (p : α) : MemorySharing O :=
  if h : m.find p = none then
    { tbl := m.tbl ++ [p]
      distinct := by
        refine List.pairwise_append.mpr ⟨m.distinct, List.pairwise_singleton _ _, ?_⟩
        intro q hq r hr
        rw [List.mem_singleton.mp hr]
        cases hs : O.same q p with
        | false => rfl
        | true => exact absurd (Shareable.same_symm hs) (List.find?_eq_none.mp h q hq) }
  else m

def lookup (p : α) : α := (m.find p).getD p

/-- The table after some objects were shared, in this order. -/
def ofShares (l : List α) : MemorySharing O := l.foldl tryShare empty

theorem find_tryShare (p q : α) :
    (m.tryShare q).find p = (m.find p).or (if O.same p q then some q else none) := by
  unfold tryShare
  split
  · show (m.tbl ++ [q]).find? (O.same p) = _
    rw [List.find?_append]
    refine congrArg _ ?_
    cases hs : O.same p q with
    | true => simp [hs]
    | false => simp [hs]
  · next h =>
      obtain ⟨r, hr⟩ := Option.ne_none_iff_exists'.mp h
      cases hs : O.same p q with
      | false => simp
      | true =>
          -- what stands for `q` stands for `p`
          have hpr : O.same p r = true := Shareable.same_trans hs (List.find?_some hr)
          cases hf : m.find p with
          | some _ => rfl
          | none => exact absurd hpr (List.find?_eq_none.mp hf r (List.mem_of_find?_eq_some hr))

/-- **The table answers the first object shared that it takes for `p`.** -/
theorem find_ofShares (l : List α) (p : α) :
    (ofShares l : MemorySharing O).find p = l.find? (O.same p) := by
  have hfold : ∀ (l : List α) (m : MemorySharing O),
      (l.foldl tryShare m).find p = (m.find p).or (l.find? (O.same p)) := by
    intro l
    induction l with
    | nil => intro m; simp
    | cons q l ih =>
        intro m
        rw [List.foldl_cons, ih, find_tryShare, Option.or_assoc]
        refine congrArg _ ?_
        cases hs : O.same p q with
        | true => simp [hs]
        | false => simp [hs]
  exact hfold l empty

end MemorySharing

/-! ## Calls -/

/-- A call of the library. -/
inductive ShareCall (α : Type) where
  | tryShare (p : α)
  | lookup (p : α)

namespace ShareCall

variable {α : Type}

/-- The object a call is made with. -/
def obj : ShareCall α → α
  | .tryShare p => p
  | .lookup p => p

/-- The objects shared by the calls. -/
def shares : List (ShareCall α) → List α
  | [] => []
  | .tryShare p :: calls => p :: shares calls
  | .lookup _ :: calls => shares calls

/-- What the lookups answer with the flag off. -/
def answersOff : List (ShareCall α) → List α
  | [] => []
  | .tryShare _ :: calls => answersOff calls
  | .lookup p :: calls => p :: answersOff calls

/-- What the lookups answer with the flag on. -/
def answersOn {O : Shareable α} : MemorySharing O → List (ShareCall α) → List α
  | _, [] => []
  | m, .tryShare p :: calls => answersOn (m.tryShare p) calls
  | m, .lookup p :: calls => m.lookup p :: answersOn m calls

/-- Sharing changes no answer, and equal objects have equal hash codes. -/
def Transparent (O : Shareable α) (calls : List (ShareCall α)) : Prop :=
  answersOn (MemorySharing.empty : MemorySharing O) calls = answersOff calls ∧
    ∀ c ∈ calls, ∀ d ∈ calls, O.eq c.obj d.obj = true → O.hash c.obj = O.hash d.obj

/-- Whenever `p` is looked up, the first object shared before with `R p` has the
value of `p`. -/
def FirstIs (R : α → α → Bool) (calls : List (ShareCall α)) : Prop :=
  ∀ before p after, calls = before ++ .lookup p :: after →
    ∀ q, (shares before).find? (R p) = some q → q = p

/-- The answers are the same from a table that already holds some objects. -/
theorem answersOn_eq_iff {O : Shareable α} (calls : List (ShareCall α)) :
    ∀ pre : List α, answersOn (MemorySharing.ofShares pre : MemorySharing O) calls =
        answersOff calls ↔
      ∀ before p after, calls = before ++ .lookup p :: after →
        ∀ q, (pre ++ shares before).find? (O.same p) = some q → q = p := by
  induction calls with
  | nil =>
      intro pre
      refine ⟨fun _ before p after h => ?_, fun _ => rfl⟩
      exact absurd h.symm (List.append_ne_nil_of_right_ne_nil _ (List.cons_ne_nil _ _))
  | cons c calls ih =>
      intro pre
      cases c with
      | tryShare x =>
          have hpre : (MemorySharing.ofShares pre : MemorySharing O).tryShare x =
              MemorySharing.ofShares (pre ++ [x]) := by
            rw [MemorySharing.ofShares, MemorySharing.ofShares, List.foldl_append]
            rfl
          show answersOn (MemorySharing.tryShare _ x) calls = answersOff calls ↔ _
          rw [hpre, ih]
          constructor
          · intro h before p after he q hq
            cases before with
            | nil => exact nomatch he
            | cons b before =>
                obtain ⟨rfl, rfl⟩ := List.cons.inj he
                refine h before p after rfl q ?_
                rwa [List.append_assoc]
          · intro h before p after he q hq
            refine h (.tryShare x :: before) p after (congrArg _ he) q ?_
            rwa [List.append_assoc] at hq
      | lookup x =>
          show (MemorySharing.ofShares pre : MemorySharing O).lookup x :: _ = x :: _ ↔ _
          rw [List.cons.injEq, ih]
          have hx : (MemorySharing.ofShares pre : MemorySharing O).lookup x = x ↔
              ∀ q, pre.find? (O.same x) = some q → q = x := by
            rw [MemorySharing.lookup, MemorySharing.find_ofShares]
            cases pre.find? (O.same x) with
            | none => simp
            | some q => simp
          rw [hx]
          constructor
          · rintro ⟨hhead, h⟩ before p after he q hq
            cases before with
            | nil =>
                obtain ⟨hxp, -⟩ := List.cons.inj he
                obtain rfl := ShareCall.lookup.inj hxp
                exact hhead q (by simpa [shares] using hq)
            | cons b before =>
                obtain ⟨rfl, rfl⟩ := List.cons.inj he
                exact h before p after rfl q hq
          · intro h
            refine ⟨fun q hq => h [] x calls rfl q (by simpa [shares] using hq), ?_⟩
            intro before p after he q hq
            exact h (.lookup x :: before) p after (congrArg _ he) q hq

/-- Sharing is transparent exactly if first objects have the value looked up and
equal objects of the calls have equal hash codes. -/
theorem transparent_iff_firstIs {O : Shareable α} (calls : List (ShareCall α)) :
    Transparent O calls ↔ FirstIs O.same calls ∧
      ∀ c ∈ calls, ∀ d ∈ calls, O.eq c.obj d.obj = true → O.hash c.obj = O.hash d.obj :=
  and_congr_left fun _ => answersOn_eq_iff calls []

end ShareCall

/-! ## Transactions and blocks -/

/-- `std::hash` of the standard library, at the types the classes use it at. -/
structure StdHash (H A : Type) where
  int : Int → UInt64
  float : A → UInt64
  string : H → UInt64

variable {H A : Type}

/-- `SimpleTransaction::hash`. -/
def SimpleTransaction.hashCode (std : StdHash H A) (p : SimpleTransaction H A) : UInt64 :=
  ((std.int p.sender_id ^^^ (std.int p.receiver_id <<< 1)) >>> 1) ^^^ (std.float p.amount <<< 1)

/-- The fields `SimpleTransaction::operator==` reads. -/
def SimpleTransaction.EqFields (p q : SimpleTransaction H A) : Prop :=
  p.sender_id = q.sender_id ∧ p.receiver_id = q.receiver_id ∧ p.amount = q.amount

/-- The fields `POWBlock::operator==` reads: neither block hash nor index nor
transactions. -/
def POWBlock.EqFields (p q : POWBlock H A) : Prop :=
  p.nonce = q.nonce ∧ p.tx_hash = q.tx_hash ∧ p.prev_block_hash = q.prev_block_hash ∧
    p.timestamp = q.timestamp ∧ p.difficulty = q.difficulty

theorem SimpleTransaction.EqFields.eq_of_id {p q : SimpleTransaction H A} (h : p.EqFields q)
    (hid : q._id = p._id) : q = p := by
  obtain ⟨h1, h2, h3⟩ := h
  cases p
  cases q
  simp only [SimpleTransaction.mk.injEq]
  exact ⟨hid, h1.symm, h2.symm, h3.symm⟩

theorem POWBlock.EqFields.eq_of_rest {p q : POWBlock H A} (h : p.EqFields q)
    (hhash : q.block_hash = p.block_hash) (hidx : q.block_idx = p.block_idx)
    (htxs : q.tx_list = p.tx_list) : q = p := by
  obtain ⟨h1, h2, h3, h4, h5⟩ := h
  cases p
  cases q
  simp only [POWBlock.mk.injEq]
  exact ⟨hidx, htxs, hhash, h1.symm, h2.symm, h3.symm, h4.symm, h5.symm⟩

instance [DecidableEq A] (p q : SimpleTransaction H A) : Decidable (p.EqFields q) :=
  inferInstanceAs (Decidable (_ ∧ _ ∧ _))

instance [DecidableEq H] (p q : POWBlock H A) : Decidable (p.EqFields q) :=
  inferInstanceAs (Decidable (_ ∧ _ ∧ _ ∧ _ ∧ _))

def SimpleTransaction.shareable [DecidableEq A] (std : StdHash H A) :
    Shareable (SimpleTransaction H A) where
  hash p := p.hashCode std
  eq p q := decide (p.EqFields q)
  equivalence := by
    simp only [decide_eq_true_eq]
    refine ⟨fun p => ⟨rfl, rfl, rfl⟩, ?_, ?_⟩
    · rintro p q ⟨h1, h2, h3⟩
      exact ⟨h1.symm, h2.symm, h3.symm⟩
    · rintro p q r ⟨h1, h2, h3⟩ ⟨h1', h2', h3'⟩
      exact ⟨h1.trans h1', h2.trans h2', h3.trans h3'⟩

def POWBlock.shareable [DecidableEq H] (std : StdHash H A) : Shareable (POWBlock H A) where
  hash p := std.string p.block_hash
  eq p q := decide (p.EqFields q)
  equivalence := by
    simp only [decide_eq_true_eq]
    refine ⟨fun p => ⟨rfl, rfl, rfl, rfl, rfl⟩, ?_, ?_⟩
    · rintro p q ⟨h1, h2, h3, h4, h5⟩
      exact ⟨h1.symm, h2.symm, h3.symm, h4.symm, h5.symm⟩
    · rintro p q r ⟨h1, h2, h3, h4, h5⟩ ⟨h1', h2', h3', h4', h5'⟩
      exact ⟨h1.trans h1', h2.trans h2', h3.trans h3', h4.trans h4', h5.trans h5'⟩

namespace ShareCall

/-- Whenever a transaction is looked up, the first one shared before with its
sender, receiver and amount has its id, hash included. -/
def FirstTxHasId [DecidableEq A] (calls : List (ShareCall (SimpleTransaction H A))) : Prop :=
  ∀ before p after, calls = before ++ .lookup p :: after →
    ∀ q, (shares before).find? (fun q => p.EqFields q) = some q → q._id = p._id

/-- Blocks that agree in the fields `operator==` reads agree in the hash code, and
whenever a block is looked up the first such block has its hash, its index and its
transactions. -/
def FirstBlkIsWhole [DecidableEq H] (std : StdHash H A)
    (calls : List (ShareCall (POWBlock H A))) : Prop :=
  (∀ c ∈ calls, ∀ d ∈ calls, c.obj.EqFields d.obj →
      std.string c.obj.block_hash = std.string d.obj.block_hash) ∧
    ∀ before p after, calls = before ++ .lookup p :: after →
      ∀ q, (shares before).find? (fun q => p.EqFields q) = some q →
        q.block_hash = p.block_hash ∧ q.block_idx = p.block_idx ∧ q.tx_list = p.tx_list

theorem hashCode_congr {std : StdHash H A} {p q : SimpleTransaction H A} (h : p.EqFields q) :
    p.hashCode std = q.hashCode std := by
  obtain ⟨h1, h2, h3⟩ := h
  rw [SimpleTransaction.hashCode, SimpleTransaction.hashCode, h1, h2, h3]

theorem mem_obj_of_mem_shares {α : Type} {calls : List (ShareCall α)} {q : α}
    (h : q ∈ shares calls) : ∃ c ∈ calls, c.obj = q := by
  induction calls with
  | nil => exact nomatch h
  | cons c calls ih =>
      cases c with
      | tryShare p =>
          rcases List.mem_cons.mp h with rfl | h
          · exact ⟨_, List.mem_cons_self, rfl⟩
          · obtain ⟨c, hc, hq⟩ := ih h
            exact ⟨c, List.mem_cons_of_mem _ hc, hq⟩
      | lookup p =>
          obtain ⟨c, hc, hq⟩ := ih h
          exact ⟨c, List.mem_cons_of_mem _ hc, hq⟩

theorem transparent_tx_iff [DecidableEq A] (std : StdHash H A)
    (calls : List (ShareCall (SimpleTransaction H A))) :
    Transparent (SimpleTransaction.shareable std) calls ↔ FirstTxHasId calls := by
  have hhash : ∀ p q : SimpleTransaction H A, (SimpleTransaction.shareable std).eq p q = true →
      (SimpleTransaction.shareable std).hash p = (SimpleTransaction.shareable std).hash q :=
    fun p q h => hashCode_congr (of_decide_eq_true h)
  have hsame : ∀ p : SimpleTransaction H A, (SimpleTransaction.shareable std).same p =
      fun q => decide (p.EqFields q) := by
    intro p
    funext q
    rw [Bool.eq_iff_iff, Shareable.same_iff]
    exact ⟨And.right, fun h => ⟨hhash p q h, h⟩⟩
  rw [transparent_iff_firstIs]
  constructor
  · rintro ⟨h, -⟩ before p after he q hq
    rw [h before p after he q (by rw [hsame]; exact hq)]
  · intro h
    refine ⟨fun before p after he q hq => ?_, fun c _ d _ => hhash _ _⟩
    rw [hsame] at hq
    have hfields : p.EqFields q := by simpa using List.find?_some hq
    exact hfields.eq_of_id (h before p after he q hq)

theorem transparent_blk_iff [DecidableEq H] (std : StdHash H A)
    (calls : List (ShareCall (POWBlock H A))) :
    Transparent (POWBlock.shareable std) calls ↔ FirstBlkIsWhole std calls := by
  have heq : ∀ p q : POWBlock H A, (POWBlock.shareable std).eq p q = true ↔ p.EqFields q :=
    fun p q => decide_eq_true_iff
  rw [transparent_iff_firstIs, and_comm, FirstBlkIsWhole]
  simp only [heq]
  refine and_congr_right fun hcode => ?_
  -- with equal hash codes the table finds by `operator==` alone
  have hfind : ∀ {before after : List (ShareCall (POWBlock H A))} {p : POWBlock H A},
      calls = before ++ .lookup p :: after →
        (shares before).find? ((POWBlock.shareable std).same p) =
          (shares before).find? fun q => p.EqFields q := by
    intro before after p he
    refine List.find?_congr fun q hq => ?_
    obtain ⟨c, hc, rfl⟩ := mem_obj_of_mem_shares hq
    rw [Bool.eq_iff_iff, Shareable.same_iff, heq, decide_eq_true_iff]
    refine and_iff_right_of_imp fun h => hcode (.lookup p) ?_ c ?_ h
    · rw [he]
      exact List.mem_append_right _ List.mem_cons_self
    · rw [he]
      exact List.mem_append_left _ hc
  constructor
  · intro h before p after he q hq
    obtain rfl := h before p after he q ((hfind he).trans hq)
    exact ⟨rfl, rfl, rfl⟩
  · intro h before p after he q hq
    rw [hfind he] at hq
    have hfields : p.EqFields q := by simpa using List.find?_some hq
    obtain ⟨hhash, hidx, htxs⟩ := h before p after he q hq
    exact hfields.eq_of_rest hhash hidx htxs

/-- A hash that tells all values apart. -/
def idHash : StdHash Nat Nat where
  int n := n.toNat.toUInt64
  float n := n.toUInt64
  string n := n.toUInt64

/-- The same payment made twice, at different times. -/
def payTwice : List (ShareCall (SimpleTransaction Nat Nat)) :=
  [.tryShare (.make 1 2 5 10), .tryShare (.make 1 2 5 11), .lookup (.make 1 2 5 11)]

/-- Two blocks that differ in their index, and so in their hash. -/
def indexApart : POWBlock Nat Nat × POWBlock Nat Nat :=
  (⟨1, [], 10, 7, 0, 1, 0, 0⟩, ⟨2, [], 11, 7, 0, 1, 0, 0⟩)

end ShareCall

end Bleep
