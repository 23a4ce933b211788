/-
# `Bleep.Utility.HashText` — digests as numbers, and numbers as text

`UINT128_t(buf, len)` and `UINT256_t(buf, len)` shift the bytes of a buffer into words:
the last 8 into the lowest, the last 16 into the lower half.  `str` prints the words one by
one, each padded to 16 digits.

Both ways nothing is lost: a buffer is read as a big-endian number modulo the width
(`toNat_ofBuffer`), and the text is the number at base 16 (`str_spec`).
-/
import Bleep.Lib.Digits
import Bleep.Utility.UIntDiv

open WordPair Digits

namespace Bleep

/-! ## The functions -/

/-- `word <<= 8; word |= (uint64_t)rhs[i]`. -/
def shiftIn (word : UInt64) (byte : UInt8) : UInt64 := (word <<< 8) ||| byte.toUInt64

/-- A word as `std::setfill('0') << std::setw(16) << std::hex` prints it. -/
def hexWord (word : UInt64) : List Char := List.leftpad 16 '0' (Nat.toDigits 16 word.toNat)

namespace UINT128_t

/-- `UINT128_t(rhs, len)` for a buffer of `len` bytes. -/
def ofBuffer (rhs : List UInt8) : UINT128_t :=
  let len := rhs.length
  if len ≤ 8 then ⟨0, rhs.foldl shiftIn 0⟩
  else
    let lower_start_idx := len - 8
    ⟨(rhs.take lower_start_idx).foldl shiftIn 0, (rhs.drop lower_start_idx).foldl shiftIn 0⟩

/-- `gen_test`. -/
def gen_test (rhs : UINT128_t) : String := String.ofList (hexWord rhs.upper ++ hexWord rhs.lower)

/-- `str`. -/
def str (self : UINT128_t) : String := gen_test self

end UINT128_t

namespace UINT256_t

/-- `UINT256_t(rhs, len)` for a buffer of `len` bytes. -/
def ofBuffer (rhs : List UInt8) : UINT256_t :=
  let len := rhs.length
  if len > 16 then
    let lower_start := len - 16
    ⟨.ofBuffer (rhs.take lower_start), .ofBuffer (rhs.drop lower_start)⟩
  else ⟨.ofUInt64 0, .ofBuffer rhs⟩

/-- `str`. -/
def str (self : UINT256_t) : String := self.upper.str ++ self.lower.str

end UINT256_t

/-! ## The digest -/

/-- The bytes a `SHA256_CTX` has been given. -/
structure SHA256_CTX where
  data : List UInt8

namespace SHA256_CTX

/-- `sha256_init`. -/
def init : SHA256_CTX := ⟨[]⟩

/-- `sha256_update`. -/
def update (ctx : SHA256_CTX) (data : List UInt8) : SHA256_CTX := ⟨ctx.data ++ data⟩

/-- `sha256_final`, followed by the `UINT256_t` of the 32 bytes it leaves. -/
def final (sha256 : List UInt8 → Vector UInt8 32) (ctx : SHA256_CTX) : UINT256_t :=
  .ofBuffer (sha256 ctx.data).toList

end SHA256_CTX

/-! ## Reading a buffer -/

/-- The big-endian number of a buffer. -/
def bufferValue (buf : List UInt8) : Nat := value 256 (buf.map UInt8.toNat)

theorem bufferValue_append (xs ys : List UInt8) :
    bufferValue (xs ++ ys) = bufferValue xs * 256 ^ ys.length + bufferValue ys := by
  rw [bufferValue, List.map_append, value_append, List.length_map]
  rfl

theorem bufferValue_lt (buf : List UInt8) : bufferValue buf < 256 ^ buf.length := by
  rw [← List.length_map (f := UInt8.toNat)]
  refine value_lt fun d hd => ?_
  obtain ⟨c, -, rfl⟩ := List.mem_map.mp hd
  exact c.toNat_lt

theorem toNat_shiftIn (word : UInt64) (byte : UInt8) :
    (shiftIn word byte).toNat = (word.toNat * 256 + byte.toNat) % 2 ^ 64 := by
  have hb := byte.toNat_lt
  have hshl : (word <<< 8).toNat = word.toNat * 256 % 2 ^ 64 := toNat_shl (s := 8) (by decide)
  -- the low 8 bits of the shifted word are free
  obtain ⟨m, hm⟩ : ∃ m, (word <<< 8).toNat = 2 ^ 8 * m := ⟨word.toNat % 2 ^ 56, by omega⟩
  rw [shiftIn, UInt64.toNat_or, UInt8.toNat_toUInt64, hm, ← Nat.two_pow_add_eq_or_of_lt hb, ← hm,
    hshl]
  omega

/-- A loop that shifts bytes in drops what leaves the word at the top. -/
theorem toNat_foldl_shiftIn (buf : List UInt8) :
    (buf.foldl shiftIn 0).toNat = bufferValue buf % 2 ^ 64 := by
  induction buf using List.reverseRecOn with
  | nil => rfl
  | append_singleton buf b ih =>
      have hconcat : bufferValue (buf ++ [b]) = bufferValue buf * 256 + b.toNat := by
        rw [bufferValue, List.map_append, List.map_singleton, value_concat]
        rfl
      rw [List.foldl_append, List.foldl_cons, List.foldl_nil, toNat_shiftIn, ih, hconcat]
      omega

theorem bufferValue_cut (buf : List UInt8) {k : Nat} (h : k ≤ buf.length) :
    bufferValue buf = bufferValue (buf.take (buf.length - k)) * 256 ^ k
      + bufferValue (buf.drop (buf.length - k))
    ∧ bufferValue (buf.drop (buf.length - k)) < 256 ^ k := by
  have hlen : (buf.drop (buf.length - k)).length = k := by
    rw [List.length_drop]
    omega
  have happ := bufferValue_append (buf.take (buf.length - k)) (buf.drop (buf.length - k))
  have hlt := bufferValue_lt (buf.drop (buf.length - k))
  rw [List.take_append_drop, hlen] at happ
  rw [hlen] at hlt
  exact ⟨happ, hlt⟩

theorem UINT128_t.toNat_ofBuffer (buf : List UInt8) :
    (ofBuffer buf).toNat = bufferValue buf % 2 ^ 128 := by
  simp only [ofBuffer]
  split
  case isTrue h =>
    have hlt : bufferValue buf < 2 ^ 64 :=
      (bufferValue_lt buf).trans_le (Nat.pow_le_pow_right (n := 256) (by decide) h)
    show (ofUInt64 _).toNat = _
    rw [toNat_ofUInt64, toNat_foldl_shiftIn]
    omega
  case isFalse h =>
    obtain ⟨hcut, hlt⟩ := bufferValue_cut buf (k := 8) (by omega)
    rw [toNat, toNat_foldl_shiftIn, toNat_foldl_shiftIn, hcut, val]
    omega

theorem UINT256_t.toNat_ofBuffer (buf : List UInt8) :
    (ofBuffer buf).toNat = bufferValue buf % 2 ^ 256 := by
  simp only [ofBuffer]
  split
  case isTrue h =>
    obtain ⟨hcut, hlt⟩ := bufferValue_cut buf (k := 16) (by omega)
    rw [toNat, UINT128_t.toNat_ofBuffer, UINT128_t.toNat_ofBuffer, hcut, val]
    omega
  case isFalse h =>
    have hlt : bufferValue buf < 2 ^ 128 :=
      (bufferValue_lt buf).trans_le (Nat.pow_le_pow_right (n := 256) (by decide) (not_lt.mp h))
    show (ofUINT128 _).toNat = _
    rw [toNat_ofUINT128, UINT128_t.toNat_ofBuffer]
    omega

/-! ## Printing -/

/-- What a printed number is: so many hexadecimal digits, read back as the number. -/
structure Prints (text : List Char) (w n : Nat) : Prop where
  length : text.length = w
  hex : ∀ c ∈ text, c ∈ hexChars
  value : textValue text = n

theorem hexWord_prints (word : UInt64) : Prints (hexWord word) 16 word.toNat :=
  have h := leftpad_spec (w := 16) (n := word.toNat) (by decide) word.toNat_lt
  ⟨h.1, h.2.1, h.2.2⟩

theorem Prints.append {s t : List Char} {v w m n : Nat} (hs : Prints s v m) (ht : Prints t w n) :
    Prints (s ++ t) (v + w) (val (16 ^ w) m n) where
  length := by rw [List.length_append, hs.length, ht.length]
  hex c hc := (List.mem_append.mp hc).elim (hs.hex c) (ht.hex c)
  value := by rw [textValue_append, hs.value, ht.value, ht.length, val]

theorem UINT128_t.str_spec (x : UINT128_t) : Prints x.str.toList 32 x.toNat := by
  rw [str, gen_test, String.toList_ofList]
  exact (hexWord_prints x.upper).append (hexWord_prints x.lower)

theorem UINT256_t.str_spec (x : UINT256_t) : Prints x.str.toList 64 x.toNat := by
  rw [str, String.toList_append]
  exact x.upper.str_spec.append x.lower.str_spec

theorem UINT256_t.str_injective : Function.Injective UINT256_t.str := by
  intro x y h
  have hx := x.str_spec.value
  rw [h, y.str_spec.value] at hx
  exact toNat_inj.mp hx.symm

/-- The two hexadecimal digits of a byte. -/
def hexByte (byte : UInt8) : List Char :=
  [Nat.digitChar (byte.toNat / 16), Nat.digitChar (byte.toNat % 16)]

theorem hexBytes_prints (buf : List UInt8) :
    Prints (buf.flatMap hexByte) (2 * buf.length) (bufferValue buf) := by
  have hdigits (b : UInt8) : b.toNat / 16 < 16 ∧ b.toNat % 16 < 16 := by
    have := b.toNat_lt
    omega
  refine ⟨?_, ?_, ?_⟩
  · induction buf with
    | nil => rfl
    | cons b buf ih =>
        rw [List.flatMap_cons, List.length_append, ih, List.length_cons, hexByte]
        show 2 + _ = _
        omega
  · intro c hc
    obtain ⟨b, -, hb⟩ := List.mem_flatMap.mp hc
    rcases List.mem_pair.mp hb with rfl | rfl
    · exact (digitChar_spec _ (hdigits b).1).1
    · exact (digitChar_spec _ (hdigits b).2).1
  · have hpairs : (buf.flatMap hexByte).map hexDigit
        = (buf.map UInt8.toNat).flatMap fun d => [d / 16, d % 16] := by
      rw [List.map_flatMap, List.flatMap_map]
      refine congrArg (buf.flatMap ·) (funext fun b => ?_)
      rw [hexByte, List.map_cons, List.map_singleton, (digitChar_spec _ (hdigits b).1).2,
        (digitChar_spec _ (hdigits b).2).2]
    rw [textValue, hpairs, bufferValue]
    exact (value_pairs 16 _).symm

/-- A digest of 32 bytes is printed as its bytes are. -/
theorem UINT256_t.str_ofBuffer {buf : List UInt8} (h : buf.length = 32) :
    (ofBuffer buf).str.toList = buf.flatMap hexByte := by
  have hstr := (ofBuffer buf).str_spec
  have hbuf := hexBytes_prints buf
  have hlt := bufferValue_lt buf
  rw [h] at hlt
  refine textValue_inj (by rw [hstr.length, hbuf.length, h]) hstr.hex hbuf.hex ?_
  rw [hstr.value, hbuf.value, toNat_ofBuffer]
  exact Nat.mod_eq_of_lt (hlt.trans_le (Nat.le_of_eq (by norm_num)))

end Bleep
