/-
# `Bleep.BL1.RecvBuffer` — what a descriptor has received, and cutting messages off it

A message goes over the wire as the magic, its length as a four-byte `int` and
what the archive wrote (`frame`).  `RecvHandler` appends what it reads to the
buffer of the descriptor and then cuts complete messages off the front, one a
round (`parseRound`).

A round compares, copies and converts in C: the length is signed, is added to a
`size_t`, and a negative one can pass the test.  On frames none of that happens,
and the rounds undo `frame` (`frames_parseRound`).

`β` is the type of what is stored for a byte: the byte itself, or the byte with
a record of where it came from; `byte` reads the byte off.
-/
import Bleep.BL2.Message
import Bleep.Lib.Framing

namespace Bleep

variable {P O β : Type}

/-! ## The wire format -/

/-- `"BLEEPmsg"`. -/
def BLEEP_MAGIC : List UInt8 := [66, 76, 69, 69, 80, 109, 115, 103]

/-- The four bytes of an `int` that was assigned `n`. -/
def intBytes (n : Nat) : List UInt8 :=
  [UInt8.ofNat n, UInt8.ofNat (n / 2 ^ 8), UInt8.ofNat (n / 2 ^ 16), UInt8.ofNat (n / 2 ^ 24)]

/-- `memcpy` of four bytes into an `int`. -/
def intOfBytes (bs : List UInt8) : Int :=
  (BitVec.ofNat 32 (bs.foldr (fun b n => b.toNat + 2 ^ 8 * n) 0)).toInt

/-- A message as `SendMsgToPeer` queues it. -/
def frame (ar : Archive P O) (msg : Message P O) : List UInt8 :=
  BLEEP_MAGIC ++ intBytes (ar.serialize msg).length ++ ar.serialize msg

@[simp] theorem length_BLEEP_MAGIC : BLEEP_MAGIC.length = 8 := rfl

@[simp] theorem length_intBytes (n : Nat) : (intBytes n).length = 4 := rfl

theorem length_frame (ar : Archive P O) (msg : Message P O) :
    (frame ar msg).length = 12 + (ar.serialize msg).length := by
  simp only [frame, List.length_append, length_BLEEP_MAGIC, length_intBytes]

theorem intOfBytes_intBytes {n : Nat} (h : n < 2 ^ 31) : intOfBytes (intBytes n) = n := by
  have hsum : (intBytes n).foldr (fun b n => b.toNat + 2 ^ 8 * n) 0 = n := by
    simp only [intBytes, List.foldr_cons, List.foldr_nil, UInt8.toNat_ofNat']
    omega
  rw [intOfBytes, hsum, BitVec.toInt_eq_toNat_of_lt (by simp; omega), BitVec.toNat_ofNat,
    Nat.mod_eq_of_lt (by omega)]

/-! ## One round of the parse loop -/

section Round

variable (ar : Archive P O) (byte : β → UInt8)

/-- One round of the `while (true)` of `RecvHandler`. -/
def parseRound : Framing.Round β (Message P O) Fault := fun recv_str =>
  if BLEEP_MAGIC.isPrefixOf (recv_str.map byte) then
    if 12 ≤ recv_str.length then
      let msg_size := intOfBytes (((recv_str.map byte).drop 8).take 4)
      -- the sum is a `size_t`
      if msg_size ≠ 0 ∧ (12 + msg_size) % 2 ^ 64 ≤ recv_str.length then
        if msg_size < 0 then
          .error .outOfBounds
        else
          match ar.deserialize (((recv_str.map byte).drop 12).take msg_size.toNat) with
          | none => .error .uncaught
          | some none => .error .nullDeref
          | some (some msg) =>
              if msg.type.listed then
                .ok (some (msg, recv_str.drop (12 + msg_size.toNat)))
              else
                .error (.assertion "Unexpected message")
      else .ok none
    else .ok none
  else .ok none

/-- The parse loop: a round for each byte is more than it can use. -/
def parseLoop (recv_str : List β) : Except Fault (List (Message P O) × List β) :=
  Framing.drain (parseRound ar byte) .diverges (recv_str.length + 1) recv_str

theorem parseRound_some {s r : List β} {msg : Message P O}
    (h : parseRound ar byte s = .ok (some (msg, r))) :
    ∃ k : Nat, BLEEP_MAGIC <+: s.map byte ∧ 12 ≤ s.length ∧ 12 + k ≤ s.length ∧ k ≠ 0 ∧
      intOfBytes (((s.map byte).drop 8).take 4) = k ∧
      ar.deserialize (((s.map byte).drop 12).take k) = some (some msg) ∧
      msg.type.listed = true ∧ r = s.drop (12 + k) := by
  unfold parseRound at h
  split at h
  · next hmagic =>
      split at h
      · next hlen =>
          simp only at h
          split at h
          · next hsize =>
              split at h
              · exact nomatch h
              · next hneg =>
                  obtain ⟨k, hk⟩ := Int.eq_ofNat_of_zero_le (Int.not_lt.mp hneg)
                  rw [hk] at h hsize
                  simp only [Int.toNat_natCast] at h
                  split at h
                  · exact nomatch h
                  · exact nomatch h
                  · next msg' hmsg =>
                      split at h
                      · next hlisted =>
                          obtain ⟨rfl, rfl⟩ := Prod.mk.inj (Option.some.inj (Except.ok.inj h))
                          have hbound : intOfBytes (((s.map byte).drop 8).take 4) < 2 ^ 31 :=
                            BitVec.toInt_lt
                          refine ⟨k, List.isPrefixOf_iff_prefix.mp hmagic, hlen, ?_, ?_, hk, hmsg,
                            hlisted, rfl⟩
                          · omega
                          · omega
                      · exact nomatch h
          · exact nomatch h
      · exact nomatch h
  · exact nomatch h

/-- What is found is enough for the round to cut the message off. -/
theorem parseRound_eq {s : List β} {msg : Message P O} {k : Nat}
    (hmagic : BLEEP_MAGIC <+: s.map byte)
    (hlen : 12 + k ≤ s.length) (hk : k ≠ 0)
    (hint : intOfBytes (((s.map byte).drop 8).take 4) = k)
    (hmsg : ar.deserialize (((s.map byte).drop 12).take k) = some (some msg))
    (hlisted : msg.type.listed = true) :
    parseRound ar byte s = .ok (some (msg, s.drop (12 + k))) := by
  have hbound : intOfBytes (((s.map byte).drop 8).take 4) < 2 ^ 31 := BitVec.toInt_lt
  unfold parseRound
  rw [if_pos (List.isPrefixOf_iff_prefix.mpr hmagic), if_pos (by omega)]
  simp only [hint]
  rw [if_pos (by omega), if_neg (by omega), Int.toNat_natCast, hmsg]
  simp only [hlisted, if_true]

theorem parseRound_subset {s r : List β} {msg : Message P O}
    (h : parseRound ar byte s = .ok (some (msg, r))) : r ⊆ s := by
  obtain ⟨k, -, -, -, -, -, -, -, rfl⟩ := parseRound_some ar byte h
  exact List.drop_subset _ _

/-- A round looks at the front of the buffer. -/
theorem incremental_parseRound : Framing.Incremental (parseRound ar byte) where
  shrinks := by
    intro s r msg h
    obtain ⟨k, -, h12, -, -, -, -, -, rfl⟩ := parseRound_some ar byte h
    rw [List.length_drop]
    omega
  extends_ := by
    intro s r msg t h
    obtain ⟨k, hmagic, h12, hlen, hk, hint, hmsg, hlisted, rfl⟩ := parseRound_some ar byte h
    have hmap : (s ++ t).map byte = s.map byte ++ t.map byte := List.map_append
    have hlen' : (s.map byte).length = s.length := List.length_map byte
    have hfield : ∀ i j, i + j ≤ s.length →
        (((s ++ t).map byte).drop i).take j = ((s.map byte).drop i).take j := by
      intro i j hij
      rw [hmap, List.drop_append_of_le_length (by omega),
        List.take_append_of_le_length (by rw [List.length_drop]; omega)]
    rw [← List.drop_append_of_le_length (by omega)]
    refine parseRound_eq ar byte ?_ ?_ hk ?_ ?_ hlisted
    · rw [hmap]
      exact hmagic.trans (List.prefix_append _ _)
    · rw [List.length_append]
      omega
    · rw [hfield 8 4 (by omega), hint]
    · rw [hfield 12 k hlen, hmsg]

theorem parseRound_error {s : List β} {e : Fault} (h : parseRound ar byte s = .error e) :
    e ∈ [.outOfBounds, .uncaught, .nullDeref, .assertion "Unexpected message"] := by
  unfold parseRound at h
  split at h
  · split at h
    · simp only at h
      split at h
      · split at h
        · obtain rfl := Except.error.inj h
          decide
        · split at h
          · obtain rfl := Except.error.inj h
            decide
          · obtain rfl := Except.error.inj h
            decide
          · split at h
            · exact nomatch h
            · obtain rfl := Except.error.inj h
              decide
      · exact nomatch h
    · exact nomatch h
  · exact nomatch h

theorem parseRound_ne_diverges (s : List β) : parseRound ar byte s ≠ .error .diverges := by
  intro h
  exact absurd (parseRound_error ar byte h) (by decide)

theorem parseLoop_ends (s : List β) : parseLoop ar byte s ≠ .error .diverges :=
  Framing.drain_ne_spent (incremental_parseRound ar byte) (parseRound_ne_diverges ar byte)
    (Nat.lt_succ_self _)

theorem parseLoop_ok {s q : List β} {ms : List (Message P O)} :
    parseLoop ar byte s = .ok (ms, q) ↔ Framing.Drains (parseRound ar byte) s ms q :=
  ⟨Framing.drains_of_drain,
    fun h => Framing.drain_of_drains (incremental_parseRound ar byte) h (Nat.lt_succ_self _)⟩

/-- Only the bytes matter, not what is stored with them. -/
theorem parseRound_map (s : List β) : parseRound ar id (s.map byte) =
    (parseRound ar byte s).map (Option.map (Prod.map id (List.map byte))) := by
  unfold parseRound
  simp only [List.map_map, Function.id_comp, List.length_map]
  split
  · split
    · split
      · split
        · rfl
        · split
          · rfl
          · rfl
          · split
            · simp only [Except.map, Option.map_some, Prod.map_apply, id_eq, List.map_drop]
            · rfl
      · rfl
    · rfl
  · rfl

end Round

/-! ## Frames -/

/-- What is assumed of a message on the wire: the archive reads what it wrote,
which is not empty and whose length is an `int`. -/
structure Sendable (ar : Archive P O) (msg : Message P O) : Prop where
  faithful : ar.Faithful msg
  pos : 0 < (ar.serialize msg).length
  lt : (ar.serialize msg).length < 2 ^ 31

section Frames

variable {ar : Archive P O}

theorem fields_frame (ar : Archive P O) (msg : Message P O) (t : List UInt8) :
    BLEEP_MAGIC <+: frame ar msg ++ t ∧
      ((frame ar msg ++ t).drop 8).take 4 = intBytes (ar.serialize msg).length ∧
      (frame ar msg ++ t).drop 12 = ar.serialize msg ++ t := by
  simp only [frame, List.append_assoc]
  refine ⟨List.prefix_append _ _, ?_, ?_⟩
  · rw [List.drop_append_of_le_length (Nat.le_refl 8)]
    rfl
  · rw [← List.append_assoc, List.drop_append_of_le_length (Nat.le_refl 12)]
    rfl

/-- The assertion on the type of a message. -/
def refuse (msg : Message P O) : Option Fault :=
  if msg.type.listed then none else some (.assertion "Unexpected message")

theorem parseRound_frame {msg : Message P O} (h : Sendable ar msg) (t : List UInt8) :
    parseRound ar id (frame ar msg ++ t) =
      match refuse msg with
      | none => .ok (some (msg, t))
      | some e => .error e := by
  obtain ⟨hmagic, hint, hrest⟩ := fields_frame ar msg t
  have hlen := length_frame ar msg
  have hlt := h.lt
  have hpos := h.pos
  have hpay : ((frame ar msg ++ t).drop 12).take (ar.serialize msg).length = ar.serialize msg := by
    rw [hrest, List.take_left]
  have hdrop : (frame ar msg ++ t).drop (12 + (ar.serialize msg).length) = t := by
    rw [← hlen, List.drop_left]
  unfold parseRound
  simp only [List.map_id, hint, intOfBytes_intBytes hlt, Int.toNat_natCast, hpay, hdrop]
  rw [if_pos (List.isPrefixOf_iff_prefix.mpr hmagic), List.length_append, if_pos (by omega),
    if_pos (by omega), if_neg (by omega),
    show ar.deserialize (ar.serialize msg) = _ from h.faithful]
  cases hlisted : msg.type.listed with
  | true => simp only [refuse, hlisted, if_true]
  | false => simp only [refuse, hlisted, Bool.false_eq_true, if_false]

theorem frames_parseRound :
    Framing.Frames (parseRound ar id) (frame ar) (Sendable ar) refuse where
  whole := by
    intro msg t h hrefuse
    rw [parseRound_frame h, hrefuse]
  refused := by
    intro msg t e h hrefuse
    rw [parseRound_frame h, hrefuse]
  part := by
    intro msg s t h hst ht
    have hlen : s.length < 12 + (ar.serialize msg).length := by
      rw [← length_frame ar msg, ← hst, List.length_append]
      have := List.length_pos_iff.mpr ht
      omega
    unfold parseRound
    rw [List.map_id]
    split
    · split
      · next h12 =>
          have hint : (s.drop 8).take 4 = intBytes (ar.serialize msg).length := by
            rw [← (fields_frame ar msg []).2.1, List.append_nil, ← hst,
              List.drop_append_of_le_length (by omega),
              List.take_append_of_le_length (by rw [List.length_drop]; omega)]
          have hlt := h.lt
          simp only [hint, intOfBytes_intBytes hlt]
          rw [if_neg (by omega)]
      · rfl
    · rfl

end Frames

/-! ## The buffers of all descriptors -/

/-- `class RecvBufferManager`: the bytes of each descriptor that has a buffer. -/
structure RecvBufferManager (β : Type) where
  recvBuffMap : Int → Option (List β)

namespace RecvBufferManager

def init : RecvBufferManager β := { recvBuffMap := fun _ => none }

def getRecvBuffer (m : RecvBufferManager β) (fd : Int) : Option (List β) := m.recvBuffMap fd

def setRecvBuffer (m : RecvBufferManager β) (fd : Int) (b : Option (List β)) :
    RecvBufferManager β :=
  { recvBuffMap := fun x => if x = fd then b else m.recvBuffMap x }

def appendToBuffer (m : RecvBufferManager β) (fd : Int) (buf : List β) : RecvBufferManager β :=
  m.setRecvBuffer fd (some ((m.getRecvBuffer fd).getD [] ++ buf))

def removeRecvBuffer (m : RecvBufferManager β) (fd : Int) : RecvBufferManager β :=
  m.setRecvBuffer fd none

/-- The bytes held for a descriptor. -/
def bytes (m : RecvBufferManager β) (fd : Int) : List β := (m.getRecvBuffer fd).getD []

@[simp] theorem bytes_setRecvBuffer (m : RecvBufferManager β) (fd x : Int) (b : Option (List β)) :
    (m.setRecvBuffer fd b).bytes x = if x = fd then b.getD [] else m.bytes x := by
  simp only [bytes, getRecvBuffer, setRecvBuffer]
  split
  · rfl
  · rfl

theorem bytes_appendToBuffer (m : RecvBufferManager β) (fd x : Int) (buf : List β) :
    (m.appendToBuffer fd buf).bytes x = if x = fd then m.bytes fd ++ buf else m.bytes x :=
  bytes_setRecvBuffer m fd x _

theorem bytes_removeRecvBuffer (m : RecvBufferManager β) (fd x : Int) :
    (m.removeRecvBuffer fd).bytes x = if x = fd then [] else m.bytes x :=
  bytes_setRecvBuffer m fd x _

end RecvBufferManager

end Bleep
