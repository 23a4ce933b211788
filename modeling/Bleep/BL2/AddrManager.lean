/-
# `Bleep.BL2.AddrManager` — the table of known addresses

`AddrManager` keeps an address in the one slot its string hashes to: the digest of the
string picks one of 1024 buckets, the digest of the string and the bucket one of 64 places
in it.  The slots hold ids, and a map the address of an id.

`Add` looks only at the slot, never for the address among the others.  That no address is
stored twice, that the ids in the slots are the keys of the map and that there are never
more than 65536 of them all follow from one coupling, `AddrManager.Inv`: what the map has
under an id is an address whose own slot holds the id.

SHA-256 is any function to 32 bytes.  `std::shuffle` is any function that leaves a
permutation, run on a copy of the global engine.
-/
import Bleep.Fault
import Bleep.Lib.OrderedMap
import Bleep.Utility.HashText

open Digits

namespace Bleep

/-! ## The class -/

/-- `class Address`; `timestamp` is a `double`, by its bits. -/
structure Address (P : Type) where
  addr : P
  timestamp : UInt64

/-- `class AddrManager`, with `NUM_BUCKET` buckets of `BUCKET_SIZE` slots. -/
structure AddrManager (P : Type) where
  nIdCount : Int
  mapAddr : Std.TreeMap Int (Address P)
  vvNew : Fin 1024 → Fin 64 → Int

/-- What the address table uses that is not its own: SHA-256, and the bytes of a string. -/
structure AddrHash (P : Type) where
  sha256 : List UInt8 → Vector UInt8 32
  bytes : P → List UInt8

/-- `std::shuffle` with an engine of type `G`: the order it leaves, and the engine after
its draws. -/
structure Shuffle (G : Type) where
  shuffle : G → List Int → List Int × G
  perm : ∀ rng ids, (shuffle rng ids).1.Perm ids

theorem Shuffle.ne_nil {G : Type} (sh : Shuffle G) (rng : G) {ids : List Int} (h : ids ≠ []) :
    (sh.shuffle rng ids).1 ≠ [] := fun he =>
  h (List.perm_nil.mp (he ▸ (sh.perm rng ids).symm))

/-- The conversion of a 64-bit word to `int`. -/
def intOf (word : UInt64) : Int := Int.bmod word.toNat (2 ^ 32)

theorem intOf_eq {word : UInt64} (h : word.toNat < 2 ^ 31) : intOf word = word.toNat :=
  Int.bmod_eq_of_le (by omega) (by omega)

/-- The bytes of the `int` a bucket is kept in. -/
def bucketBytes (n : Int) : List UInt8 := littleEndian 4 (n % 2 ^ 32).toNat

/-- A division that is not caught. -/
def DivError.fault : DivError → Fault
  | .domain_error => .uncaught
  | .running => .diverges

namespace AddrManager

variable {P G : Type} (H : AddrHash P)

/-- `GetNewBucket`. -/
def getNewBucket (addr : Address P) : Except Fault Int := do
  let ctx := SHA256_CTX.init.update (H.bytes addr.addr)
  let hash := ctx.final H.sha256
  let hash ← (hash.modT 257 1024).mapError DivError.fault
  return intOf hash.getint

/-- `GetBucketPosition`. -/
def getBucketPosition (addr : Address P) (Nbucket : Int) : Except Fault Int := do
  let ctx := (SHA256_CTX.init.update (H.bytes addr.addr)).update (bucketBytes Nbucket)
  let hash := ctx.final H.sha256
  let hash ← (hash.modT 257 64).mapError DivError.fault
  return intOf hash.getint

/-- `AddrManager()`. -/
def new : AddrManager P where
  nIdCount := 0
  mapAddr := ∅
  vvNew _ _ := -1

/-- `vvNew[bucket][bucketPosition]`: the element, if there is one. -/
def index (bucket bucketPosition : Int) : Except Fault (Fin 1024 × Fin 64) :=
  if h : (0 ≤ bucket ∧ bucket < 1024) ∧ 0 ≤ bucketPosition ∧ bucketPosition < 64 then
    .ok (⟨bucket.toNat, by omega⟩, ⟨bucketPosition.toNat, by omega⟩)
  else .error .outOfBounds

section Functions

variable [DecidableEq P] [Inhabited P]

/-- `mapAddr[id]`, which stores an empty address under an id that has none. -/
def subscript (mapAddr : Std.TreeMap Int (Address P)) (id : Int) :
    Address P × Std.TreeMap Int (Address P) :=
  match mapAddr[id]? with
  | some addr => (addr, mapAddr)
  | none => (⟨default, 0⟩, mapAddr.insert id ⟨default, 0⟩)

/-- What `Add` does at the slot of the address; `now` is what `GetGlobalClock` reads. -/
def addAt (slot : Fin 1024 × Fin 64) (now : UInt64) (addr : Address P) (m : AddrManager P) :
    AddrManager P :=
  let fInsert := m.vvNew slot.1 slot.2 == -1
  if !fInsert then
    let existAddrId := m.vvNew slot.1 slot.2
    let (existAddr, mapAddr) := subscript m.mapAddr existAddrId
    if existAddr.addr = addr.addr then
      { m with mapAddr := mapAddr.insert existAddrId { existAddr with timestamp := now } }
    else { m with mapAddr := mapAddr }
  else
    let addrId := m.nIdCount
    { nIdCount := m.nIdCount + 1
      vvNew := Function.update m.vvNew slot.1 (Function.update (m.vvNew slot.1) slot.2 addrId)
      mapAddr := m.mapAddr.insert addrId addr }

/-- `Add`. -/
def add (now : UInt64) (addr : Address P) (m : AddrManager P) : Except Fault (AddrManager P) := do
  let bucket ← getNewBucket H addr
  let bucketPosition ← getBucketPosition H addr bucket
  let slot ← index bucket bucketPosition
  return m.addAt slot now addr

/-- The ids of the map, in its order. -/
def vIds (m : AddrManager P) : List Int := m.mapAddr.toList.map Prod.fst

/-- The loop of `GetAddresses` over the shuffled ids. -/
def collect : List Int → List (Address P) → Std.TreeMap Int (Address P) →
    List (Address P) × Std.TreeMap Int (Address P)
  | [], vAddr, mapAddr => (vAddr, mapAddr)
  | id :: ids, vAddr, mapAddr =>
      if vAddr.length ≥ 1000 then (vAddr, mapAddr)
      else
        let (addr, mapAddr) := subscript mapAddr id
        collect ids (vAddr ++ [addr]) mapAddr

/-- `GetAddresses` with the global engine `rng`: a copy is shuffled with. -/
def getAddresses (sh : Shuffle G) (rng : G) (m : AddrManager P) :
    List (Address P) × AddrManager P × G :=
  let vIds := (sh.shuffle rng m.vIds).1
  let (vAddr, mapAddr) := collect vIds [] m.mapAddr
  (vAddr, { m with mapAddr := mapAddr }, rng)

/-- `SelectAddressFromTable` with the global engine `rng`: a copy is shuffled with. -/
def selectAddressFromTable (sh : Shuffle G) (rng : G) (m : AddrManager P) :
    Option (Address P) × AddrManager P × G :=
  if h : m.vIds = [] then (none, m, rng)
  else
    let vIds := (sh.shuffle rng m.vIds).1
    let (addr, mapAddr) := subscript m.mapAddr (vIds.head (sh.ne_nil rng h))
    (some addr, { m with mapAddr := mapAddr }, rng)

/-- The table after a list of calls of `Add`, each with the time it reads. -/
def addAll (m : AddrManager P) : List (UInt64 × Address P) → Except Fault (AddrManager P)
  | [] => .ok m
  | (now, addr) :: calls => do
      let m ← m.add H now addr
      m.addAll calls

end Functions

/-! ## The slot of a string -/

variable {H}

theorem toNat_final (data : List UInt8) :
    ((SHA256_CTX.mk data).final H.sha256).toNat = bufferValue (H.sha256 data).toList := by
  have hbound := bufferValue_lt (H.sha256 data).toList
  rw [Vector.length_toList] at hbound
  rw [SHA256_CTX.final, UINT256_t.toNat_ofBuffer]
  exact Nat.mod_eq_of_lt (hbound.trans_le (Nat.le_of_eq (by norm_num)))

/-- A digest reduced to an `int`. -/
theorem final_modT (data : List UInt8) {n : UInt64} (hn : n ≠ 0) (hlt : n.toNat ≤ 1024) :
    ∃ h, ((SHA256_CTX.mk data).final H.sha256).modT 257 n = .ok h ∧
      intOf h.getint = ((bufferValue (H.sha256 data).toList % n.toNat : Nat) : Int) := by
  obtain ⟨h, hok, -, hint⟩ := UINT256_t.modT_spec (by decide : 256 < 257)
    ((SHA256_CTX.mk data).final H.sha256) hn
  refine ⟨h, hok, ?_⟩
  have hpos : 0 < n.toNat := Nat.pos_of_ne_zero fun h0 => hn (UInt64.toNat_inj.mp h0)
  have hmod := Nat.mod_lt (bufferValue (H.sha256 data).toList) hpos
  rw [toNat_final] at hint
  rw [intOf_eq (by omega), hint]

/-- The bucket and the place in it that a string hashes to. -/
def slotOf (H : AddrHash P) (s : P) : Fin 1024 × Fin 64 :=
  let bucket := bufferValue (H.sha256 (H.bytes s)).toList % 1024
  (⟨bucket, Nat.mod_lt _ (by decide)⟩,
    ⟨bufferValue (H.sha256 (H.bytes s ++ bucketBytes bucket)).toList % 64,
      Nat.mod_lt _ (by decide)⟩)

theorem getNewBucket_eq (addr : Address P) :
    getNewBucket H addr = .ok ((slotOf H addr.addr).1 : Nat) := by
  obtain ⟨h, hok, hint⟩ := final_modT (H := H) (H.bytes addr.addr) (n := 1024) (by decide)
    (Nat.le_refl 1024)
  have hctx : SHA256_CTX.init.update (H.bytes addr.addr) = ⟨H.bytes addr.addr⟩ := rfl
  rw [getNewBucket, hctx, hok]
  exact congrArg Except.ok hint

theorem getBucketPosition_eq (addr : Address P) :
    getBucketPosition H addr ((slotOf H addr.addr).1 : Nat) =
      .ok ((slotOf H addr.addr).2 : Nat) := by
  obtain ⟨h, hok, hint⟩ := final_modT (H := H)
    (H.bytes addr.addr ++ bucketBytes ((slotOf H addr.addr).1 : Nat)) (n := 64)
    (by decide) (by decide)
  rw [getBucketPosition]
  have hctx : (SHA256_CTX.init.update (H.bytes addr.addr)).update
      (bucketBytes ((slotOf H addr.addr).1 : Nat))
      = ⟨H.bytes addr.addr ++ bucketBytes ((slotOf H addr.addr).1 : Nat)⟩ := rfl
  rw [hctx, hok]
  exact congrArg Except.ok hint

theorem index_slot (slot : Fin 1024 × Fin 64) :
    index ((slot.1 : Nat) : Int) ((slot.2 : Nat) : Int) = .ok slot := by
  have h1 := slot.1.isLt
  have h2 := slot.2.isLt
  rw [index, dif_pos (by omega)]
  rfl

/-! ## The invariant -/

/-- What the map has under an id is an address whose own slot holds the id, and every id
in a slot has one; the ids are the numbers below `nIdCount`. -/
structure Inv (H : AddrHash P) (m : AddrManager P) : Prop where
  slot : ∀ id a, m.mapAddr[id]? = some a →
    m.vvNew (slotOf H a.addr).1 (slotOf H a.addr).2 = id
  used : ∀ i j, m.vvNew i j ≠ -1 →
    ∃ a, m.mapAddr[m.vvNew i j]? = some a ∧ slotOf H a.addr = (i, j)
  ids : ∀ id, (∃ a, m.mapAddr[id]? = some a) ↔ 0 ≤ id ∧ id < m.nIdCount
  nonneg : 0 ≤ m.nIdCount

theorem inv_new : Inv H (new : AddrManager P) where
  slot id a h := by
    rw [new, Std.TreeMap.getElem?_emptyc] at h
    cases h
  used i j h := absurd rfl h
  ids id := by
    constructor
    · rintro ⟨a, h⟩
      rw [new, Std.TreeMap.getElem?_emptyc] at h
      cases h
    · intro h
      have hlt : id < 0 := h.2
      omega
  nonneg := Int.le_refl 0

variable {m m' : AddrManager P} {now : UInt64} {addr : Address P}

theorem Inv.ne_free (h : m.Inv H) {id : Int} {a : Address P} (ha : m.mapAddr[id]? = some a) :
    id ≠ -1 := by
  have := ((h.ids id).mp ⟨a, ha⟩).1
  omega

theorem Inv.fresh (h : m.Inv H) : m.mapAddr[m.nIdCount]? = none := by
  rw [← Option.not_isSome_iff_eq_none, Option.isSome_iff_exists, h.ids]
  omega

/-! ## `Add` -/

/-- The table with another address under an id. -/
def storing (m : AddrManager P) (id : Int) (a : Address P) : AddrManager P :=
  { m with mapAddr := m.mapAddr.insert id a }

/-- The table with the next id in a slot. -/
def inserting (m : AddrManager P) (slot : Fin 1024 × Fin 64) (a : Address P) : AddrManager P where
  nIdCount := m.nIdCount + 1
  vvNew := Function.update m.vvNew slot.1 (Function.update (m.vvNew slot.1) slot.2 m.nIdCount)
  mapAddr := m.mapAddr.insert m.nIdCount a

theorem getElem?_storing (m : AddrManager P) (id x : Int) (a : Address P) :
    (m.storing id a).mapAddr[x]? = if x = id then some a else m.mapAddr[x]? :=
  OrderedMap.getElem?_insert

theorem getElem?_inserting (m : AddrManager P) (slot : Fin 1024 × Fin 64) (x : Int)
    (a : Address P) :
    (m.inserting slot a).mapAddr[x]? = if x = m.nIdCount then some a else m.mapAddr[x]? :=
  OrderedMap.getElem?_insert

theorem vvNew_inserting (m : AddrManager P) (slot : Fin 1024 × Fin 64) (a : Address P)
    (i : Fin 1024) (j : Fin 64) :
    (m.inserting slot a).vvNew i j = if (i, j) = slot then m.nIdCount else m.vvNew i j := by
  obtain ⟨u, v⟩ := slot
  rw [inserting]
  by_cases hi : i = u
  · subst hi
    by_cases hj : j = v
    · subst hj
      simp
    · simp [hj]
  · simp [hi]

/-- What `Add` does, where the invariant holds: the time of the address is set, another
address is left where it is, or the address gets the next id and its slot. -/
inductive AddStep (H : AddrHash P) (now : UInt64) (addr : Address P) (m : AddrManager P) :
    AddrManager P → Prop
  | updated {id : Int} {a : Address P}
      (slot : m.vvNew (slotOf H addr.addr).1 (slotOf H addr.addr).2 = id)
      (here : m.mapAddr[id]? = some a) (same : a.addr = addr.addr) :
      AddStep H now addr m (m.storing id { a with timestamp := now })
  | ignored {id : Int} {a : Address P}
      (slot : m.vvNew (slotOf H addr.addr).1 (slotOf H addr.addr).2 = id)
      (here : m.mapAddr[id]? = some a) (other : a.addr ≠ addr.addr) : AddStep H now addr m m
  | inserted (free : m.vvNew (slotOf H addr.addr).1 (slotOf H addr.addr).2 = -1) :
      AddStep H now addr m (m.inserting (slotOf H addr.addr) addr)

theorem AddStep.inv (h : m.Inv H) (hs : AddStep H now addr m m') : m'.Inv H := by
  cases hs with
  | ignored slot here other => exact h
  | @updated id a slot here same =>
      refine ⟨fun x b hb => ?_, fun i j hij => ?_, fun x => ?_, h.nonneg⟩
      · -- the address under each id keeps its string
        rw [getElem?_storing] at hb
        split at hb
        · next hx =>
            obtain rfl := Option.some.inj hb
            rw [hx]
            exact h.slot id a here
        · exact h.slot x b hb
      · obtain ⟨b, hb, hslot⟩ := h.used i j hij
        rw [getElem?_storing]
        split
        · next hid =>
            have hba : b = a := Option.some.inj (hb.symm.trans ((congrArg _ hid).trans here))
            exact ⟨_, rfl, hba ▸ hslot⟩
        · exact ⟨b, hb, hslot⟩
      · show _ ↔ 0 ≤ x ∧ x < m.nIdCount
        rw [← h.ids x, getElem?_storing]
        split
        · next hx => exact ⟨fun _ => ⟨a, hx ▸ here⟩, fun _ => ⟨_, rfl⟩⟩
        · exact Iff.rfl
  | inserted free =>
      have hfresh := h.fresh
      refine ⟨fun x b hb => ?_, fun i j hij => ?_, fun x => ?_, ?_⟩
      · rw [getElem?_inserting] at hb
        rw [vvNew_inserting]
        split at hb
        · next hx =>
            obtain rfl := Option.some.inj hb
            rw [if_pos rfl, hx]
        · -- the slot of an older address was not free
          have hold := h.slot x b hb
          rw [if_neg, hold]
          intro he
          rw [Prod.mk.eta] at he
          rw [he, free] at hold
          exact h.ne_free hb hold.symm
      · rw [vvNew_inserting] at hij ⊢
        rw [getElem?_inserting]
        split
        · next hslot => exact ⟨addr, by rw [if_pos rfl], hslot.symm⟩
        · next hslot =>
            rw [if_neg hslot] at hij
            obtain ⟨b, hb, hbslot⟩ := h.used i j hij
            refine ⟨b, ?_, hbslot⟩
            rw [if_neg, hb]
            intro he
            rw [he, hfresh] at hb
            cases hb
      · show _ ↔ 0 ≤ x ∧ x < m.nIdCount + 1
        have hids := h.ids x
        have hnonneg := h.nonneg
        rw [getElem?_inserting]
        split
        · next hx => exact ⟨fun _ => by omega, fun _ => ⟨_, rfl⟩⟩
        · rw [hids]
          omega
      · show 0 ≤ m.nIdCount + 1
        have := h.nonneg
        omega

/-- What is stored stays where it is. -/
structure Keeps (m m' : AddrManager P) : Prop where
  stored : ∀ (id : Int) (a : Address P), m.mapAddr[id]? = some a →
    ∃ a' : Address P, m'.mapAddr[id]? = some a' ∧ a'.addr = a.addr
  slots : ∀ i j, m.vvNew i j ≠ -1 → m'.vvNew i j = m.vvNew i j

theorem Keeps.refl (m : AddrManager P) : m.Keeps m := ⟨fun _ a h => ⟨a, h, rfl⟩, fun _ _ _ => rfl⟩

theorem Keeps.trans {m'' : AddrManager P} (h : m.Keeps m') (h' : m'.Keeps m'') : m.Keeps m'' where
  stored id a ha := by
    obtain ⟨b, hb, hba⟩ := h.stored id a ha
    obtain ⟨c, hc, hcb⟩ := h'.stored id b hb
    exact ⟨c, hc, hcb.trans hba⟩
  slots i j hij := by
    have hmid := h.slots i j hij
    rw [h'.slots i j (hmid ▸ hij), hmid]

theorem AddStep.keeps (h : m.Inv H) (hs : AddStep H now addr m m') : m.Keeps m' := by
  cases hs with
  | ignored slot here other => exact .refl m
  | @updated id a slot here same =>
      refine ⟨fun x b hb => ?_, fun _ _ _ => rfl⟩
      rw [getElem?_storing]
      split
      · next hx =>
          have hba : b = a := Option.some.inj (hb.symm.trans ((congrArg _ hx).trans here))
          exact ⟨_, rfl, by rw [hba]⟩
      · exact ⟨b, hb, rfl⟩
  | inserted free =>
      refine ⟨fun x b hb => ⟨b, ?_, rfl⟩, fun i j hij => ?_⟩
      · rw [getElem?_inserting, if_neg, hb]
        intro hx
        rw [hx, h.fresh] at hb
        cases hb
      · rw [vvNew_inserting, if_neg]
        intro he
        rw [← he] at free
        exact hij free

/-- The string is in the table. -/
def Stores (m : AddrManager P) (s : P) : Prop :=
  ∃ (id : Int) (a : Address P), m.mapAddr[id]? = some a ∧ a.addr = s

/-- A different address occupies the slot of the string. -/
def Blocked (H : AddrHash P) (m : AddrManager P) (s : P) : Prop :=
  ∃ a : Address P, m.mapAddr[m.vvNew (slotOf H s).1 (slotOf H s).2]? = some a ∧ a.addr ≠ s

theorem Keeps.stores (h : m.Keeps m') {s : P} (hs : m.Stores s) : m'.Stores s := by
  obtain ⟨id, a, ha, rfl⟩ := hs
  obtain ⟨a', ha', he⟩ := h.stored id a ha
  exact ⟨id, a', ha', he⟩

theorem Keeps.blocked (h : m.Keeps m') (hm : m.Inv H) {s : P} (hs : m.Blocked H s) :
    m'.Blocked H s := by
  obtain ⟨a, ha, hne⟩ := hs
  obtain ⟨a', ha', he⟩ := h.stored _ a ha
  refine ⟨a', ?_, he ▸ hne⟩
  rw [h.slots _ _ (hm.ne_free ha), ha']

/-- After `Add` the address is in the table, or another one is in its slot. -/
theorem AddStep.added (hs : AddStep H now addr m m') :
    m'.Stores addr.addr ∨ m'.Blocked H addr.addr := by
  cases hs with
  | @updated id a slot here same =>
      exact .inl ⟨id, { a with timestamp := now }, by rw [getElem?_storing, if_pos rfl], same⟩
  | ignored slot here other => exact .inr ⟨_, by rw [slot, here], other⟩
  | inserted free => exact .inl ⟨_, _, by rw [getElem?_inserting, if_pos rfl], rfl⟩

/-! ## What the invariant says of a table -/

theorem Inv.slots_inj (h : m.Inv H) {i i' : Fin 1024} {j j' : Fin 64} (hij : m.vvNew i j ≠ -1)
    (he : m.vvNew i j = m.vvNew i' j') : (i, j) = (i', j') := by
  obtain ⟨a, ha, hslot⟩ := h.used i j hij
  obtain ⟨a', ha', hslot'⟩ := h.used i' j' (he ▸ hij)
  rw [← hslot, ← hslot', Option.some.inj (ha.symm.trans ((congrArg _ he).trans ha'))]

theorem Inv.keys (h : m.Inv H) (id : Int) :
    (∃ a, m.mapAddr[id]? = some a) ↔ id ≠ -1 ∧ ∃ i j, m.vvNew i j = id := by
  constructor
  · rintro ⟨a, ha⟩
    exact ⟨h.ne_free ha, _, _, h.slot id a ha⟩
  · rintro ⟨hne, i, j, rfl⟩
    obtain ⟨a, ha, -⟩ := h.used i j hne
    exact ⟨a, ha⟩

theorem Inv.unique (h : m.Inv H) {id id' : Int} {a a' : Address P} (ha : m.mapAddr[id]? = some a)
    (ha' : m.mapAddr[id']? = some a') (he : a.addr = a'.addr) : id = id' := by
  rw [← h.slot id a ha, ← h.slot id' a' ha', he]

theorem Inv.count_le (h : m.Inv H) : m.nIdCount ≤ 65536 := by
  have hget (k : Fin m.nIdCount.toNat) : ∃ a, m.mapAddr[(k : Int)]? = some a :=
    (h.ids k).mpr ⟨by omega, by omega⟩
  choose addr haddr using hget
  -- every id has a slot of its own
  have hinj : Function.Injective fun k => slotOf H (addr k).addr := by
    intro k l hkl
    have hk := h.slot _ _ (haddr k)
    have hl := h.slot _ _ (haddr l)
    simp only at hkl
    rw [hkl, hl] at hk
    exact Fin.ext (by omega)
  have hcard := Fintype.card_le_of_injective _ hinj
  rw [Fintype.card_fin, Fintype.card_prod, Fintype.card_fin, Fintype.card_fin] at hcard
  omega

/-! ## `GetAddresses` -/

theorem exists_id {ids : List Int} {l : List (Address P)} {b : Address P}
    (hl : List.Forall₂ (fun id a => m.mapAddr[id]? = some a) ids l) (hb : b ∈ l) :
    ∃ id ∈ ids, m.mapAddr[id]? = some b := by
  induction hl with
  | nil => cases hb
  | @cons id a ids l ha _ ih =>
      rcases List.mem_cons.mp hb with rfl | hb
      · exact ⟨id, List.mem_cons_self, ha⟩
      · obtain ⟨x, hx, hxb⟩ := ih hb
        exact ⟨x, List.mem_cons_of_mem id hx, hxb⟩

/-- Addresses found under different ids have different strings. -/
theorem Inv.pairwise (h : m.Inv H) {ids : List Int} {l : List (Address P)} (hnd : ids.Nodup)
    (hl : List.Forall₂ (fun id a => m.mapAddr[id]? = some a) ids l) :
    l.Pairwise fun a b => a.addr ≠ b.addr := by
  induction hl with
  | nil => exact .nil
  | @cons id a ids l ha hl ih =>
      obtain ⟨hnot, hnd⟩ := List.nodup_cons.mp hnd
      refine List.pairwise_cons.mpr ⟨fun b hb he => hnot ?_, ih hnd⟩
      obtain ⟨x, hx, hxb⟩ := exists_id hl hb
      rw [h.unique ha hxb he]
      exact hx

theorem length_vIds (m : AddrManager P) : m.vIds.length = m.mapAddr.size := by
  rw [vIds, List.length_map, Std.TreeMap.length_toList]

theorem nodup_vIds (m : AddrManager P) : m.vIds.Nodup :=
  List.pairwise_map.mpr ((OrderedMap.sorted_toList _).imp fun h => ne_of_lt h)

theorem mem_vIds {id : Int} : id ∈ m.vIds ↔ ∃ a, m.mapAddr[id]? = some a := by
  rw [vIds, List.mem_map]
  constructor
  · rintro ⟨⟨x, a⟩, hmem, rfl⟩
    exact ⟨a, OrderedMap.mem_toList.mp hmem⟩
  · rintro ⟨a, ha⟩
    exact ⟨(id, a), OrderedMap.mem_toList.mpr ha, rfl⟩

section GetAddresses

variable [Inhabited P]

theorem collect_spec {t : Std.TreeMap Int (Address P)} {ids : List Int}
    (hids : ∀ id ∈ ids, ∃ a, t[id]? = some a) (vAddr : List (Address P)) :
    ∃ l, collect ids vAddr t = (vAddr ++ l, t) ∧
      List.Forall₂ (fun id a => t[id]? = some a) (ids.take (1000 - vAddr.length)) l := by
  induction ids generalizing vAddr with
  | nil => exact ⟨[], by rw [collect, List.append_nil], by rw [List.take_nil]; exact .nil⟩
  | cons id ids ih =>
      rw [collect]
      split
      case isTrue hfull =>
        refine ⟨[], by rw [List.append_nil], ?_⟩
        rw [Nat.sub_eq_zero_of_le hfull, List.take_zero]
        exact .nil
      case isFalse hroom =>
        obtain ⟨a, ha⟩ := hids id List.mem_cons_self
        have hsub : subscript t id = (a, t) := by rw [subscript, ha]
        obtain ⟨l, hl, hfor⟩ := ih (fun x hx => hids x (List.mem_cons_of_mem id hx)) (vAddr ++ [a])
        refine ⟨a :: l, ?_, ?_⟩
        · rw [hsub]
          show collect ids (vAddr ++ [a]) t = _
          rw [hl, List.append_assoc]
          rfl
        · have hlen : 1000 - vAddr.length = (1000 - (vAddr ++ [a]).length) + 1 := by
            rw [List.length_append, List.length_singleton]
            omega
          rw [hlen, List.take_succ_cons]
          exact .cons ha hfor

/-- As many addresses as there are, but no more than 1000, all of the table and all
different; the table stays as it is. -/
theorem getAddresses_spec (h : m.Inv H) (sh : Shuffle G) (rng : G) :
    (m.getAddresses sh rng).2 = (m, rng)
      ∧ (m.getAddresses sh rng).1.length = min 1000 m.mapAddr.size
      ∧ ((m.getAddresses sh rng).1.Pairwise fun a b => a.addr ≠ b.addr)
      ∧ ∀ a ∈ (m.getAddresses sh rng).1, ∃ id : Int, m.mapAddr[id]? = some a := by
  have hperm := sh.perm rng m.vIds
  have hids : ∀ id ∈ (sh.shuffle rng m.vIds).1, ∃ a, m.mapAddr[id]? = some a :=
    fun id hid => mem_vIds.mp (hperm.mem_iff.mp hid)
  obtain ⟨l, hl, hfor⟩ := collect_spec hids []
  have hget : m.getAddresses sh rng = (l, m, rng) := by
    rw [getAddresses, hl]
    rfl
  rw [hget]
  refine ⟨rfl, ?_, ?_, fun a ha => ?_⟩
  · show l.length = _
    rw [← hfor.length_eq, List.length_take, hperm.length_eq, length_vIds]
    rfl
  · exact h.pairwise ((hperm.nodup_iff.mpr m.nodup_vIds).sublist (List.take_sublist _ _)) hfor
  · obtain ⟨id, -, hid⟩ := exists_id hfor ha
    exact ⟨id, hid⟩

end GetAddresses

/-! ## Runs -/

section Runs

variable [DecidableEq P] [Inhabited P]

/-- No index of `Add` is out of bounds, and no division of it fails. -/
theorem add_eq (now : UInt64) (addr : Address P) (m : AddrManager P) :
    m.add H now addr = .ok (m.addAt (slotOf H addr.addr) now addr) :=
  bind_ok.mpr ⟨_, getNewBucket_eq addr, bind_ok.mpr ⟨_, getBucketPosition_eq addr,
    bind_ok.mpr ⟨_, index_slot _, rfl⟩⟩⟩

theorem addAt_step (h : m.Inv H) :
    AddStep H now addr m (m.addAt (slotOf H addr.addr) now addr) := by
  simp only [addAt]
  by_cases hfree : m.vvNew (slotOf H addr.addr).1 (slotOf H addr.addr).2 = -1
  · rw [if_neg (by simp [hfree])]
    exact .inserted hfree
  · obtain ⟨a, ha, -⟩ := h.used _ _ hfree
    have hsub : subscript m.mapAddr (m.vvNew (slotOf H addr.addr).1 (slotOf H addr.addr).2)
        = (a, m.mapAddr) := by rw [subscript, ha]
    rw [if_pos (by simp [hfree]), hsub]
    by_cases hsame : a.addr = addr.addr
    · rw [if_pos hsame]
      exact .updated rfl ha hsame
    · rw [if_neg hsame]
      exact .ignored rfl ha hsame

theorem add_free (hfree : m.vvNew (slotOf H addr.addr).1 (slotOf H addr.addr).2 = -1) :
    m.add H now addr = .ok (m.inserting (slotOf H addr.addr) addr) := by
  rw [add_eq, addAt]
  simp only [hfree]
  rfl

theorem add_step (h : m.Inv H) (now : UInt64) (addr : Address P) :
    ∃ m', m.add H now addr = .ok m' ∧ AddStep H now addr m m' :=
  ⟨_, add_eq now addr m, addAt_step h⟩

/-- A list of calls keeps the invariant and what is stored, and each of its addresses is
in the table afterwards or finds another one in its slot. -/
theorem addAll_spec (h : m.Inv H) (calls : List (UInt64 × Address P)) :
    ∃ m', m.addAll H calls = .ok m' ∧ m'.Inv H ∧ m.Keeps m'
      ∧ ∀ call ∈ calls, m'.Stores call.2.addr ∨ m'.Blocked H call.2.addr := by
  induction calls generalizing m with
  | nil => exact ⟨m, rfl, h, .refl m, fun call hc => by cases hc⟩
  | cons call calls ih =>
      obtain ⟨now, addr⟩ := call
      obtain ⟨m₁, hadd, hstep⟩ := add_step h now addr
      have h₁ := hstep.inv h
      obtain ⟨m', hrun, hinv, hkeeps, hcalls⟩ := ih h₁
      refine ⟨m', bind_ok.mpr ⟨m₁, hadd, hrun⟩, hinv, (hstep.keeps h).trans hkeeps, ?_⟩
      intro c hc
      rcases List.mem_cons.mp hc with rfl | hc
      · exact hstep.added.imp hkeeps.stores (hkeeps.blocked h₁)
      · exact hcalls c hc

theorem addAll_append (m : AddrManager P) (calls more : List (UInt64 × Address P)) :
    m.addAll H (calls ++ more) = (m.addAll H calls >>= fun m => m.addAll H more) := by
  induction calls generalizing m with
  | nil => rfl
  | cons call calls ih =>
      obtain ⟨now, addr⟩ := call
      show (m.add H now addr >>= _) = ((m.add H now addr >>= _) >>= _)
      rw [add_eq]
      exact ih _

/-- Whatever is added, in any order and with any collisions: every call finds its bucket
and its slot within the array; the ids in the slots are different and are the keys of the
map; an address is stored in the slot of its own string and only once; what is stored stays,
and what was added and is not there found its slot taken; there are never more than 65536
ids; and `GetAddresses` draws from the table without repetition, whatever the shuffle. -/
theorem addrManager_table (H : AddrHash P) (sh : Shuffle G)
    (calls more : List (UInt64 × Address P)) :
    ∃ m m' : AddrManager P, new.addAll H calls = .ok m ∧ new.addAll H (calls ++ more) = .ok m'
      ∧ (∀ addr : Address P, ∃ bucket bucketPosition : Int, getNewBucket H addr = .ok bucket
          ∧ getBucketPosition H addr bucket = .ok bucketPosition
          ∧ (0 ≤ bucket ∧ bucket < 1024) ∧ 0 ≤ bucketPosition ∧ bucketPosition < 64)
      ∧ (∀ i i' j j', m.vvNew i j ≠ -1 → m.vvNew i j = m.vvNew i' j' → (i, j) = (i', j'))
      ∧ (∀ id : Int, (∃ a, m.mapAddr[id]? = some a) ↔ id ≠ -1 ∧ ∃ i j, m.vvNew i j = id)
      ∧ (∀ (id : Int) (a : Address P), m.mapAddr[id]? = some a →
          ∃ i j, m.vvNew i j = id ∧ getNewBucket H a = .ok (i : Nat)
            ∧ getBucketPosition H a (i : Nat) = .ok (j : Nat))
      ∧ (∀ (id id' : Int) (a a' : Address P), m.mapAddr[id]? = some a →
          m.mapAddr[id']? = some a' → a.addr = a'.addr → id = id')
      ∧ m.Keeps m'
      ∧ (∀ call ∈ calls, m'.Stores call.2.addr ∨ m'.Blocked H call.2.addr)
      ∧ (∀ id : Int, (∃ a, m.mapAddr[id]? = some a) → id < m.nIdCount)
      ∧ m.nIdCount ≤ 65536
      ∧ ∀ rng, (m.getAddresses sh rng).1.length = min 1000 m.mapAddr.size
          ∧ ((m.getAddresses sh rng).1.Pairwise fun a b => a.addr ≠ b.addr)
          ∧ ∀ a ∈ (m.getAddresses sh rng).1, ∃ id : Int, m.mapAddr[id]? = some a := by
  obtain ⟨m, hm, hinv, -, hcalls⟩ := addAll_spec (inv_new (H := H)) calls
  obtain ⟨m', hm', hinv', hkeeps, -⟩ := addAll_spec hinv more
  refine ⟨m, m', hm, by rw [addAll_append, hm]; exact hm', fun addr => ?_,
    fun _ _ _ _ => hinv.slots_inj, hinv.keys, fun id a ha => ?_,
    fun _ _ _ _ => hinv.unique, hkeeps,
    fun call hc => (hcalls call hc).imp hkeeps.stores (hkeeps.blocked hinv),
    fun id hid => ((hinv.ids id).mp hid).2, hinv.count_le,
    fun rng => (getAddresses_spec hinv sh rng).2⟩
  · have h1 := (slotOf H addr.addr).1.isLt
    have h2 := (slotOf H addr.addr).2.isLt
    exact ⟨_, _, getNewBucket_eq addr, getBucketPosition_eq addr, by omega, by omega, by omega⟩
  · exact ⟨_, _, hinv.slot id a ha, getNewBucket_eq a, getBucketPosition_eq a⟩

end Runs

end AddrManager

end Bleep
