/-
# `Bleep.Crypto.SHA256` — the digest, fed piece by piece

`sha256_init`, `sha256_update`, `sha256_final` and `sha256_transform`, with the buffer,
the counters and the words of a `SHA256_CTX`.

A context stands for the bytes it was given (`Represents`): the words are those after the
full blocks, the rest is in the buffer, and `bitlen` counts the bits of the full blocks.
So what is left by `sha256_final` depends on the bytes alone (`sha256_streams`); it is the
digest of `Bleep.Lib.IteratedHash` for the padding of this file, and two messages with one
digest have a collision of `sha256_transform` among the calls made for them
(`clash_of_sha256_eq`).

The counter of `sha256_update` is a 32-bit word and `len` is a `size_t`: from 2^32 bytes on
the loop does not end.
-/
import Bleep.Lib.Digits
import Bleep.Lib.IteratedHash

open Digits

namespace Bleep.Crypto

/-! ## `sha256_transform` -/

def ROTRIGHT (a b : UInt32) : UInt32 := (a >>> b) ||| (a <<< (32 - b))

def CH (x y z : UInt32) : UInt32 := (x &&& y) ^^^ (~~~x &&& z)

def MAJ (x y z : UInt32) : UInt32 := (x &&& y) ^^^ (x &&& z) ^^^ (y &&& z)

def EP0 (x : UInt32) : UInt32 := ROTRIGHT x 2 ^^^ ROTRIGHT x 13 ^^^ ROTRIGHT x 22

def EP1 (x : UInt32) : UInt32 := ROTRIGHT x 6 ^^^ ROTRIGHT x 11 ^^^ ROTRIGHT x 25

def SIG0 (x : UInt32) : UInt32 := ROTRIGHT x 7 ^^^ ROTRIGHT x 18 ^^^ (x >>> 3)

def SIG1 (x : UInt32) : UInt32 := ROTRIGHT x 17 ^^^ ROTRIGHT x 19 ^^^ (x >>> 10)

def k : Vector UInt32 64 := #v[
  0x428a2f98, 0x71374491, 0xb5c0fbcf, 0xe9b5dba5, 0x3956c25b, 0x59f111f1, 0x923f82a4, 0xab1c5ed5,
  0xd807aa98, 0x12835b01, 0x243185be, 0x550c7dc3, 0x72be5d74, 0x80deb1fe, 0x9bdc06a7, 0xc19bf174,
  0xe49b69c1, 0xefbe4786, 0x0fc19dc6, 0x240ca1cc, 0x2de92c6f, 0x4a7484aa, 0x5cb0a9dc, 0x76f988da,
  0x983e5152, 0xa831c66d, 0xb00327c8, 0xbf597fc7, 0xc6e00bf3, 0xd5a79147, 0x06ca6351, 0x14292967,
  0x27b70a85, 0x2e1b2138, 0x4d2c6dfc, 0x53380d13, 0x650a7354, 0x766a0abb, 0x81c2c92e, 0x92722c85,
  0xa2bfe8a1, 0xa81a664b, 0xc24b8b70, 0xc76c51a3, 0xd192e819, 0xd6990624, 0xf40e3585, 0x106aa070,
  0x19a4c116, 0x1e376c08, 0x2748774c, 0x34b0bcb5, 0x391c0cb3, 0x4ed8aa4a, 0x5b9cca4f, 0x682e6ff3,
  0x748f82ee, 0x78a5636f, 0x84c87814, 0x8cc70208, 0x90befffa, 0xa4506ceb, 0xbef9a3f7, 0xc67178f2]

/-- The four bytes at `j` as a word, the first highest. -/
def wordAt (data : Vector UInt8 64) (j : Nat) : UInt32 :=
  (data[j]!.toUInt32 <<< 24) ||| (data[j + 1]!.toUInt32 <<< 16) |||
    (data[j + 2]!.toUInt32 <<< 8) |||
    data[j + 3]!.toUInt32

/-- The array `m`; each of its words is written before it is read. -/
def schedule (data : Vector UInt8 64) : Vector UInt32 64 :=
  let m := (List.range 16).foldl (fun m i => m.set! i (wordAt data (4 * i))) (.replicate 64 0)
  (List.range' 16 48).foldl
    (fun m i => m.set! i (SIG1 m[i - 2]! + m[i - 7]! + SIG0 m[i - 15]! + m[i - 16]!)) m

/-- The variables `a` to `h`. -/
structure Work where
  a : UInt32
  b : UInt32
  c : UInt32
  d : UInt32
  e : UInt32
  f : UInt32
  g : UInt32
  h : UInt32

def round (m : Vector UInt32 64) (v : Work) (i : Nat) : Work :=
  let t1 := v.h + EP1 v.e + CH v.e v.f v.g + k[i]! + m[i]!
  let t2 := EP0 v.a + MAJ v.a v.b v.c
  { h := v.g, g := v.f, f := v.e, e := v.d + t1, d := v.c, c := v.b, b := v.a, a := t1 + t2 }

/-- The words `sha256_transform` leaves. -/
def transform (state : Vector UInt32 8) (data : Vector UInt8 64) : Vector UInt32 8 :=
  let v : Work := ⟨state[0], state[1], state[2], state[3], state[4], state[5], state[6], state[7]⟩
  let v := (List.range 64).foldl (round (schedule data)) v
  #v[state[0] + v.a, state[1] + v.b, state[2] + v.c, state[3] + v.d, state[4] + v.e,
    state[5] + v.f, state[6] + v.g, state[7] + v.h]

/-! ## The context -/

/-- `SHA256_CTX`.  The next byte has a place in the buffer. -/
structure SHA256_CTX where
  data : Vector UInt8 64
  datalen : UInt32
  bitlen : UInt64
  state : Vector UInt32 8
  room : datalen.toNat < 64

namespace SHA256_CTX

def iv : Vector UInt32 8 := #v[0x6a09e667, 0xbb67ae85, 0x3c6ef372, 0xa54ff53a, 0x510e527f,
  0x9b05688c, 0x1f83d9ab, 0x5be0cd19]

/-- `sha256_init`; `data` is what the memory of the buffer held. -/
def sha256_init (data : Vector UInt8 64) : SHA256_CTX where
  data
  datalen := 0
  bitlen := 0
  state := iv
  room := by decide

variable (ctx : SHA256_CTX)

theorem toNat_datalen_succ : (ctx.datalen + 1).toNat = ctx.datalen.toNat + 1 := by
  have := ctx.room
  rw [UInt32.toNat_add, UInt32.toNat_one, Nat.mod_eq_of_lt (by omega)]

/-- The body of the loop of `sha256_update`. -/
def updateByte (byte : UInt8) : SHA256_CTX :=
  let data := ctx.data.set ctx.datalen.toNat byte ctx.room
  if h : (ctx.datalen + 1).toNat = 64 then
    { data
      datalen := 0
      bitlen := ctx.bitlen + 512
      state := transform ctx.state data
      room := by decide }
  else
    { ctx with
      data
      datalen := ctx.datalen + 1
      room := by
        have := ctx.room
        have := ctx.toNat_datalen_succ
        omega }

/-- The loop from `i` on; `none` if it has not ended after `fuel` rounds. -/
def updateLoop (data : List UInt8) : Nat → UInt32 → SHA256_CTX → Option SHA256_CTX
  | 0, _, _ => none
  | fuel + 1, i, ctx =>
      match data[i.toNat]? with
      | none => some ctx
      | some byte => updateLoop data fuel (i + 1) (ctx.updateByte byte)

/-- `sha256_update`. -/
def sha256_update (fuel : Nat) (data : List UInt8) : Option SHA256_CTX := updateLoop data fuel 0 ctx

/-- `data[i++] = 0x00`, `count` times. -/
def zeros : Nat → Nat → Vector UInt8 64 → Vector UInt8 64
  | 0, _, data => data
  | count + 1, i, data => zeros count (i + 1) (data.set! i 0x00)

/-- The number of bits goes into the last eight bytes. -/
def putLength (data : Vector UInt8 64) (bitlen : UInt64) : Vector UInt8 64 :=
  let data := data.set! 63 bitlen.toUInt8
  let data := data.set! 62 (bitlen >>> 8).toUInt8
  let data := data.set! 61 (bitlen >>> 16).toUInt8
  let data := data.set! 60 (bitlen >>> 24).toUInt8
  let data := data.set! 59 (bitlen >>> 32).toUInt8
  let data := data.set! 58 (bitlen >>> 40).toUInt8
  let data := data.set! 57 (bitlen >>> 48).toUInt8
  data.set! 56 (bitlen >>> 56).toUInt8

/-- `hash[4 * j + i]` is the byte `i` of the word `j`, the first highest. -/
def hashBytes (state : Vector UInt32 8) : Vector UInt8 32 :=
  .ofFn fun n => ((state[n.val / 4]! >>> (24 - n.val % 4 * 8).toUInt32) &&& 0x000000ff).toUInt8

/-- The buffer and the words when the length is to be written. -/
def padded : Vector UInt8 64 × Vector UInt32 8 :=
  let i := ctx.datalen.toNat
  let data := ctx.data.set i 0x80 ctx.room
  if i < 56 then (zeros (55 - i) (i + 1) data, ctx.state)
  else
    let data := zeros (63 - i) (i + 1) data
    -- `memset(ctx->data, 0, 56)`
    (zeros 56 0 data, transform ctx.state data)

/-- `sha256_final`: what it leaves in `hash`. -/
def sha256_final : Vector UInt8 32 :=
  let (data, state) := ctx.padded
  let bitlen := ctx.bitlen + (ctx.datalen * 8).toUInt64
  hashBytes (transform state (putLength data bitlen))

end SHA256_CTX

/-! ## The digest -/

open SHA256_CTX IteratedHash

/-- The buffer with these bytes. -/
def toBlock (b : List UInt8) : Vector UInt8 64 := .ofFn fun i => b.getD i 0

/-- `sha256_transform` of a block given as a list. -/
def compress (state : Vector UInt32 8) (b : List UInt8) : Vector UInt32 8 :=
  transform state (toBlock b)

theorem toBlock_toList (data : Vector UInt8 64) : toBlock data.toList = data := by
  refine Vector.ext fun i hi => ?_
  rw [toBlock, Vector.getElem_ofFn, List.getD_eq_getElem _ _ (by simpa using hi),
    Vector.getElem_toList]

theorem compress_toList (state : Vector UInt32 8) (data : Vector UInt8 64) :
    compress state data.toList = transform state data := by
  rw [compress, toBlock_toList]

/-- The number of bits, the highest byte first. -/
def lengthBytes (len : Nat) : List UInt8 := (littleEndian 8 (8 * len)).reverse

theorem length_lengthBytes (len : Nat) : (lengthBytes len).length = 8 := by
  rw [lengthBytes, List.length_reverse, length_littleEndian]

/-- The bytes after a message of `len` bytes. -/
def padBytes (len : Nat) : List UInt8 :=
  0x80 :: List.replicate ((119 - len % 64) % 64) 0x00 ++ lengthBytes len

theorem length_padBytes (len : Nat) : (padBytes len).length = 9 + (119 - len % 64) % 64 := by
  rw [padBytes, List.length_append, List.length_cons, List.length_replicate, length_lengthBytes]
  omega

/-- The padding tells apart messages of less than 2^64 bits. -/
def padding : Padding UInt8 64 (2 ^ 61) where
  pad := padBytes
  tail := lengthBytes
  whole len := by
    rw [length_padBytes]
    omega
  suffix len := List.suffix_append _ _
  size := 8
  fits := by decide
  length_tail := length_lengthBytes
  inj hx hy h := by
    have hbits := littleEndian_inj (k := 8) (by omega) (by omega) (List.reverse_injective h)
    omega

/-- SHA-256 of a message. -/
def sha256 (message : List UInt8) : Vector UInt8 32 :=
  hashBytes (digest compress 64 padding iv message)

/-! ## What a context stands for -/

/-- The context after these bytes. -/
structure Represents (ctx : SHA256_CTX) (message : List UInt8) : Prop where
  state : ctx.state = (absorb compress 64 (iv, []) message).1
  pending : ctx.data.toList.take ctx.datalen.toNat = (absorb compress 64 (iv, []) message).2
  bitlen : ctx.bitlen = UInt64.ofNat (512 * (message.length / 64))

theorem represents_init (data : Vector UInt8 64) : Represents (sha256_init data) [] :=
  ⟨rfl, rfl, rfl⟩

section Represents

variable {ctx ctx' : SHA256_CTX} {message : List UInt8}

theorem Represents.datalen (h : Represents ctx message) :
    ctx.datalen.toNat = message.length % 64 := by
  have hroom := ctx.room
  have hlen := length_absorb compress (iv, []) message (show 0 < 64 by decide)
  rw [← h.pending, List.length_take, Vector.length_toList, List.length_nil, Nat.zero_add] at hlen
  omega

theorem take_set (data : Vector UInt8 64) {i : Nat} (hi : i < 64) (byte : UInt8) :
    (data.set i byte).toList.take (i + 1) = data.toList.take i ++ [byte] := by
  have hlen : i < data.toList.length := by rwa [Vector.length_toList]
  rw [Vector.toList_set, List.set_eq_take_append_cons_drop, if_pos hlen, List.take_append,
    List.take_of_length_le (by rw [List.length_take]; omega), List.length_take]
  congr 1
  rw [Nat.min_eq_left (by omega), Nat.add_sub_cancel_left]
  rfl

theorem Represents.updateByte (h : Represents ctx message) (byte : UInt8) :
    Represents (ctx.updateByte byte) (message ++ [byte]) := by
  have hroom := ctx.room
  have hdatalen := h.datalen
  have hsucc := ctx.toNat_datalen_succ
  have htake := take_set ctx.data hroom byte
  have hpending : (absorb compress 64 (iv, []) message).2.length = ctx.datalen.toNat := by
    rw [← h.pending, List.length_take, Vector.length_toList]
    omega
  rw [h.pending] at htake
  have hstep : absorb compress 64 (iv, []) (message ++ [byte]) =
      feed compress 64 (absorb compress 64 (iv, []) message) byte := by
    rw [absorb_append]
    rfl
  by_cases hfull : (ctx.datalen + 1).toNat = 64
  · -- the block is full
    have hall : (ctx.data.set ctx.datalen.toNat byte).toList =
        (absorb compress 64 (iv, []) message).2 ++ [byte] := by
      rw [← htake, List.take_of_length_le (by rw [Vector.length_toList]; omega)]
    have hfeed : feed compress 64 (absorb compress 64 (iv, []) message) byte =
        (transform ctx.state (ctx.data.set ctx.datalen.toNat byte), []) := by
      rw [feed, if_pos (by omega), ← hall, compress_toList, h.state]
    rw [SHA256_CTX.updateByte, dif_pos hfull]
    refine ⟨?_, ?_, ?_⟩
    · rw [hstep, hfeed]
    · rw [hstep, hfeed]
      rfl
    · have hblocks : (message ++ [byte]).length / 64 = message.length / 64 + 1 := by
        rw [List.length_append, List.length_singleton]
        omega
      rw [hblocks, Nat.mul_add, UInt64.ofNat_add, h.bitlen]
      rfl
  · have hfeed : feed compress 64 (absorb compress 64 (iv, []) message) byte =
        ((absorb compress 64 (iv, []) message).1,
          (absorb compress 64 (iv, []) message).2 ++ [byte]) := if_neg (by omega)
    rw [SHA256_CTX.updateByte, dif_neg hfull]
    refine ⟨?_, ?_, ?_⟩
    · rw [hstep, hfeed]
      exact h.state
    · rw [hstep, hfeed, ← htake, hsucc]
    · have hblocks : (message ++ [byte]).length / 64 = message.length / 64 := by
        rw [List.length_append, List.length_singleton]
        omega
      rw [hblocks]
      exact h.bitlen

theorem Represents.updates (h : Represents ctx message) (data : List UInt8) :
    Represents (data.foldl SHA256_CTX.updateByte ctx) (message ++ data) := by
  induction data generalizing ctx message with
  | nil => rwa [List.append_nil]
  | cons byte data ih =>
      have hall := ih (h.updateByte byte)
      rwa [List.append_assoc, List.singleton_append] at hall

end Represents

/-! ## `sha256_update` -/

section Update

variable {data : List UInt8}

theorem updateLoop_eq (hlen : data.length < 2 ^ 32) {i : UInt32} (hi : i.toNat ≤ data.length)
    (fuel : Nat) (ctx : SHA256_CTX) : updateLoop data fuel i ctx =
      if data.length - i.toNat < fuel then
        some ((data.drop i.toNat).foldl SHA256_CTX.updateByte ctx)
      else none := by
  induction fuel generalizing i ctx with
  | zero => rfl
  | succ fuel ih =>
      rw [updateLoop]
      by_cases hend : i.toNat = data.length
      · rw [List.getElem?_eq_none (by omega), hend, Nat.sub_self, if_pos (Nat.zero_lt_succ fuel),
          List.drop_length]
        rfl
      · have hlt : i.toNat < data.length := by omega
        have hnext : (i + 1).toNat = i.toNat + 1 := by
          rw [UInt32.toNat_add, UInt32.toNat_one, Nat.mod_eq_of_lt (by omega)]
        have hdrop : data.drop i.toNat = data[i.toNat] :: data.drop (i.toNat + 1) :=
          List.drop_eq_getElem_cons hlt
        rw [List.getElem?_eq_getElem hlt]
        dsimp only
        rw [ih (by omega), hnext, hdrop, List.foldl_cons]
        congr 1
        rw [eq_iff_iff]
        omega

/-- A counter of 32 bits does not come to a length it cannot hold. -/
theorem updateLoop_endless (hlen : 2 ^ 32 ≤ data.length) (fuel : Nat) (i : UInt32)
    (ctx : SHA256_CTX) : updateLoop data fuel i ctx = none := by
  induction fuel generalizing i ctx with
  | zero => rfl
  | succ fuel ih =>
      have hlt : i.toNat < data.length := lt_of_lt_of_le i.toNat_lt hlen
      rw [updateLoop, List.getElem?_eq_getElem hlt]
      exact ih (i + 1) _

/-- `sha256_update` ends in the context after the bytes, if it ends. -/
theorem sha256_update_eq_some {fuel : Nat} {ctx ctx' : SHA256_CTX}
    (h : ctx.sha256_update fuel data = some ctx') :
    data.length < 2 ^ 32 ∧ ctx' = data.foldl SHA256_CTX.updateByte ctx := by
  have hlen : data.length < 2 ^ 32 := by
    by_contra hge
    rw [sha256_update, updateLoop_endless (by omega)] at h
    cases h
  rw [sha256_update, updateLoop_eq hlen (by simp)] at h
  split at h
  · exact ⟨hlen, (Option.some.inj h).symm⟩
  · cases h

theorem exists_sha256_update (hlen : data.length < 2 ^ 32) {fuel : Nat} (hfuel : data.length < fuel)
    (ctx : SHA256_CTX) :
    ctx.sha256_update fuel data = some (data.foldl SHA256_CTX.updateByte ctx) := by
  rw [sha256_update, updateLoop_eq hlen (by simp), if_pos (by simpa using hfuel)]
  rfl

end Update

/-! ## `sha256_final` -/

section Final

theorem toList_set! (data : Vector UInt8 64) {i : Nat} (hi : i < 64) (byte : UInt8) :
    (data.set! i byte).toList = data.toList.take i ++ byte :: data.toList.drop (i + 1) := by
  rw [Vector.toList_set!, List.set_eq_take_append_cons_drop, if_pos (by rwa [Vector.length_toList])]

theorem toList_zeros (data : Vector UInt8 64) {count i : Nat} (h : i + count ≤ 64) :
    (zeros count i data).toList =
      data.toList.take i ++ (List.replicate count 0x00 ++ data.toList.drop (i + count)) := by
  induction count generalizing i data with
  | zero =>
      rw [zeros, List.replicate_zero, List.nil_append, Nat.add_zero, List.take_append_drop]
  | succ count ih =>
      have hlen : (data.toList.take i).length = i :=
        List.length_take_of_le (by rw [Vector.length_toList]; omega)
      have hset := toList_set! data (i := i) (by omega) 0x00
      have htake : (data.set! i 0x00).toList.take (i + 1) = data.toList.take i ++ [0x00] := by
        rw [hset, List.take_append, hlen, List.take_of_length_le (by omega),
          Nat.add_sub_cancel_left]
        rfl
      have hdrop : (data.set! i 0x00).toList.drop (i + 1 + count) =
          data.toList.drop (i + (count + 1)) := by
        have hsub : i + 1 + count - i = count + 1 := by omega
        rw [hset, List.drop_append, hlen, List.drop_eq_nil_of_le (by omega), List.nil_append, hsub,
          List.drop_succ_cons, List.drop_drop]
        congr 1
        omega
      rw [zeros, ih _ (by omega), htake, hdrop, List.append_assoc, List.singleton_append,
        ← List.cons_append, ← List.replicate_succ]

theorem toUInt8_shiftRight (w s : UInt64) (hs : s.toNat < 64) :
    (w >>> s).toUInt8 = UInt8.ofNat (w.toNat / 2 ^ s.toNat) := by
  refine UInt8.toNat_inj.mp ?_
  rw [UInt64.toNat_toUInt8, UInt64.toNat_shiftRight, UInt8.toNat_ofNat', Nat.mod_eq_of_lt hs,
    Nat.shiftRight_eq_div_pow]

theorem exists_eight {l : List UInt8} (h : l.length = 8) :
    ∃ a b c d e f g i, l = [a, b, c, d, e, f, g, i] := by
  obtain _ | ⟨a, _ | ⟨b, _ | ⟨c, _ | ⟨d, _ | ⟨e, _ | ⟨f, _ | ⟨g, _ | ⟨i, _ | ⟨j, l⟩⟩⟩⟩⟩⟩⟩⟩⟩ := l <;>
    simp at h
  exact ⟨a, b, c, d, e, f, g, i, rfl⟩

theorem toList_putLength (data : Vector UInt8 64) (bitlen : UInt64) :
    (putLength data bitlen).toList =
      data.toList.take 56 ++ (littleEndian 8 bitlen.toNat).reverse := by
  have hlen : (data.toList.take 56).length = 56 := List.length_take_of_le (by simp)
  have htlen : (data.toList.drop 56).length = 8 := by simp
  obtain ⟨a, b, c, d, e, f, g, i, htail⟩ := exists_eight htlen
  have hsplit : data.toList = data.toList.take 56 ++ [a, b, c, d, e, f, g, i] := by
    rw [← htail, List.take_append_drop]
  have hbytes : (littleEndian 8 bitlen.toNat).reverse = [(bitlen >>> 56).toUInt8,
      (bitlen >>> 48).toUInt8, (bitlen >>> 40).toUInt8, (bitlen >>> 32).toUInt8,
      (bitlen >>> 24).toUInt8, (bitlen >>> 16).toUInt8, (bitlen >>> 8).toUInt8,
      bitlen.toUInt8] := by
    simp [littleEndian, toUInt8_shiftRight, Nat.div_div_eq_div_mul]
  rw [putLength, hbytes]
  simp only [Vector.toList_set!]
  generalize data.toList.take 56 = front at hlen hsplit ⊢
  rw [hsplit]
  simp [hlen]

variable {ctx : SHA256_CTX} {message : List UInt8}

/-- The counter when the length is written. -/
theorem Represents.bits (h : Represents ctx message) :
    littleEndian 8 (ctx.bitlen + (ctx.datalen * 8).toUInt64).toNat =
      littleEndian 8 (8 * message.length) := by
  have hroom := ctx.room
  have hdatalen := h.datalen
  have hlow : (ctx.datalen * 8).toUInt64.toNat = 8 * (message.length % 64) := by
    have hmul : (ctx.datalen * 8).toNat = ctx.datalen.toNat * 8 % 2 ^ 32 := UInt32.toNat_mul _ _
    rw [UInt32.toNat_toUInt64, hmul, hdatalen, Nat.mod_eq_of_lt (by omega), Nat.mul_comm]
  have hsum : (ctx.bitlen + (ctx.datalen * 8).toUInt64).toNat = 8 * message.length % 256 ^ 8 := by
    rw [UInt64.toNat_add, hlow, h.bitlen, UInt64.toNat_ofNat', Nat.mod_add_mod]
    congr 1
    omega
  rw [hsum, littleEndian_mod]

theorem toList_marked (data : Vector UInt8 64) (count : Nat) {i : Nat} (hi : i < 64)
    (h : i + 1 + count ≤ 64) : (zeros count (i + 1) (data.set i 0x80)).toList =
      data.toList.take i ++ (0x80 :: List.replicate count 0x00) ++
        (data.set i 0x80).toList.drop (i + 1 + count) := by
  rw [toList_zeros _ h, take_set data hi]
  simp only [List.append_assoc, List.cons_append, List.nil_append]

/-- `sha256_final` leaves the digest of what the context was given. -/
theorem Represents.final (h : Represents ctx message) : ctx.sha256_final = sha256 message := by
  have hroom := ctx.room
  have hdatalen := h.datalen
  have hplen : (ctx.data.toList.take ctx.datalen.toNat).length = ctx.datalen.toNat :=
    List.length_take_of_le (by rw [Vector.length_toList]; omega)
  have habsorb : absorb compress 64 (iv, []) message =
      (ctx.state, ctx.data.toList.take ctx.datalen.toNat) :=
    Prod.ext h.state.symm h.pending.symm
  have hpad : ∀ count, (119 - message.length % 64) % 64 = count → padBytes message.length =
      0x80 :: List.replicate count 0x00 ++ lengthBytes message.length := by
    rintro _ rfl
    rfl
  rw [sha256, digest, absorb_append, habsorb, sha256_final, padded]
  by_cases hshort : ctx.datalen.toNat < 56
  · -- the length still fits
    have hcount : (119 - message.length % 64) % 64 = 55 - ctx.datalen.toNat := by omega
    have hmarked := toList_marked ctx.data (55 - ctx.datalen.toNat) hroom (by omega)
    have hfront : (ctx.data.toList.take ctx.datalen.toNat ++
        0x80 :: List.replicate (55 - ctx.datalen.toNat) 0x00).length = 56 := by
      rw [List.length_append, List.length_cons, List.length_replicate, hplen]
      omega
    have hfill : (ctx.data.toList.take ctx.datalen.toNat).length +
        (padBytes message.length).length = 64 := by
      rw [length_padBytes, hplen]
      omega
    rw [if_pos hshort]
    show hashBytes _ = hashBytes (absorb compress 64 (_, _) (padBytes message.length)).1
    rw [absorb_fill hfill (List.cons_ne_nil _ _), ← compress_toList, toList_putLength, h.bits,
      hmarked, List.take_left' hfront, hpad _ hcount, lengthBytes, List.append_assoc]
  · -- a block for the mark, and one for the length
    have hcount : (119 - message.length % 64) % 64 = 63 - ctx.datalen.toNat + 56 := by omega
    have hmarked := toList_marked ctx.data (63 - ctx.datalen.toNat) hroom (by omega)
    have hfill : (ctx.data.toList.take ctx.datalen.toNat).length +
        (0x80 :: List.replicate (63 - ctx.datalen.toNat) (0x00 : UInt8)).length = 64 := by
      rw [List.length_cons, List.length_replicate, hplen]
      omega
    have hlast : ([] : List UInt8).length +
        (List.replicate 56 (0x00 : UInt8) ++ lengthBytes message.length).length = 64 := by
      rw [List.length_append, List.length_replicate, length_lengthBytes]
      rfl
    have hblocks : padBytes message.length =
        (0x80 :: List.replicate (63 - ctx.datalen.toNat) 0x00) ++
          (List.replicate 56 0x00 ++ lengthBytes message.length) := by
      rw [hpad _ hcount, List.replicate_add, List.cons_append, List.cons_append, List.append_assoc]
    have hdrop : (ctx.data.set ctx.datalen.toNat 0x80).toList.drop
        (ctx.datalen.toNat + 1 + (63 - ctx.datalen.toNat)) = [] :=
      List.drop_eq_nil_of_le (by rw [Vector.length_toList]; omega)
    have hnil : ∀ data : Vector UInt8 64, ((zeros 56 0 data).toList).take 56 =
        List.replicate 56 0x00 := fun data => by
      rw [toList_zeros data (by decide), List.take_zero, List.nil_append,
        List.take_left' List.length_replicate]
    rw [hdrop, List.append_nil] at hmarked
    rw [if_neg hshort]
    show hashBytes _ = hashBytes (absorb compress 64 (_, _) (padBytes message.length)).1
    rw [hblocks, absorb_append, absorb_fill hfill (List.cons_ne_nil _ _),
      absorb_fill hlast (List.cons_ne_nil _ _), ← hmarked, compress_toList, ← compress_toList _
      (putLength _ _), toList_putLength, h.bits, hnil, List.nil_append, lengthBytes]

end Final

/-! ## Piece by piece -/

/-- Calls of `sha256_update`, one for each piece; `none` if one has not ended. -/
def feedAll (fuel : Nat) (ctx : SHA256_CTX) (chunks : List (List UInt8)) : Option SHA256_CTX :=
  chunks.foldlM (fun ctx chunk => ctx.sha256_update fuel chunk) ctx

section Pieces

variable {chunks : List (List UInt8)}

theorem feedAll_ends (h : ∀ chunk ∈ chunks, chunk.length < 2 ^ 32) (ctx : SHA256_CTX) :
    ∃ ctx', feedAll (2 ^ 32) ctx chunks = some ctx' := by
  induction chunks generalizing ctx with
  | nil => exact ⟨ctx, rfl⟩
  | cons chunk chunks ih =>
      have hchunk := h chunk List.mem_cons_self
      rw [feedAll, List.foldlM_cons, exists_sha256_update hchunk hchunk]
      exact ih (fun later hlater => h later (List.mem_cons_of_mem _ hlater)) _

theorem feedAll_keeps {fuel : Nat} {ctx ctx' : SHA256_CTX} {message : List UInt8}
    (h : Represents ctx message) (hend : feedAll fuel ctx chunks = some ctx') :
    (∀ chunk ∈ chunks, chunk.length < 2 ^ 32) ∧ Represents ctx' (message ++ chunks.flatten) := by
  induction chunks generalizing ctx message with
  | nil =>
      obtain rfl : ctx = ctx' := Option.some.inj hend
      rw [List.flatten_nil, List.append_nil]
      exact ⟨fun chunk hchunk => absurd hchunk List.not_mem_nil, h⟩
  | cons chunk chunks ih =>
      rw [feedAll, List.foldlM_cons] at hend
      obtain ⟨mid, hmid, hrest⟩ := Option.bind_eq_some_iff.mp hend
      obtain ⟨hlen, rfl⟩ := sha256_update_eq_some hmid
      obtain ⟨hshort, hall⟩ := ih (h.updates chunk) hrest
      rw [List.flatten_cons, ← List.append_assoc]
      exact ⟨List.forall_mem_cons.mpr ⟨hlen, hshort⟩, hall⟩

/-- **The pieces do not matter**: the calls end exactly when every piece has a length the
counter holds, and then `sha256_final` leaves the digest of all the bytes, whatever the
buffer held before. -/
theorem sha256_streams (buffer : Vector UInt8 64) (chunks : List (List UInt8)) :
    ((∃ fuel ctx, feedAll fuel (sha256_init buffer) chunks = some ctx) ↔
      ∀ chunk ∈ chunks, chunk.length < 2 ^ 32) ∧
    ∀ fuel ctx, feedAll fuel (sha256_init buffer) chunks = some ctx →
      ctx.sha256_final = sha256 chunks.flatten := by
  refine ⟨⟨?_, ?_⟩, ?_⟩
  · rintro ⟨fuel, ctx, hend⟩
    exact (feedAll_keeps (represents_init buffer) hend).1
  · intro hshort
    exact ⟨2 ^ 32, feedAll_ends hshort _⟩
  · intro fuel ctx hend
    obtain ⟨-, hall⟩ := feedAll_keeps (represents_init buffer) hend
    rw [List.nil_append] at hall
    exact hall.final

/-- "abc" -/
example : ((feedAll 3 (sha256_init (.replicate 64 0)) [[97], [98, 99]]).map sha256_final).map
    (fun hash => hash.toList.take 4) = some [0xba, 0x78, 0x16, 0xbf] := by decide +kernel

end Pieces

/-! ## Collisions -/

section Collisions

theorem toUInt8_byte (w s : UInt32) (hs : s.toNat < 32) :
    ((w >>> s) &&& 0x000000ff).toUInt8 = UInt8.ofNat (w.toNat / 2 ^ s.toNat) := by
  refine UInt8.toNat_inj.mp ?_
  rw [UInt32.toNat_toUInt8, UInt32.toNat_and, UInt32.toNat_shiftRight, UInt8.toNat_ofNat',
    Nat.mod_eq_of_lt hs, Nat.shiftRight_eq_div_pow]
  exact (congrArg (· % 2 ^ 8) (Nat.and_two_pow_sub_one_eq_mod _ 8)).trans (Nat.mod_mod _ _)

theorem hashBytes_inj {state state' : Vector UInt32 8} (h : hashBytes state = hashBytes state') :
    state = state' := by
  refine Vector.ext fun j hj => UInt32.toNat_inj.mp ?_
  have hbyte : ∀ i < 4, state[j].toNat / 2 ^ (24 - i * 8) % 256 =
      state'[j].toNat / 2 ^ (24 - i * 8) % 256 := by
    intro i hi
    have hn : 4 * j + i < 32 := by omega
    have hat : (hashBytes state)[4 * j + i] = (hashBytes state')[4 * j + i] := by rw [h]
    have hword : (4 * j + i) / 4 = j := by omega
    have hshift : 24 - (4 * j + i) % 4 * 8 = 24 - i * 8 := by omega
    have hs : (24 - i * 8).toUInt32.toNat = 24 - i * 8 :=
      Nat.mod_eq_of_lt (by omega : 24 - i * 8 < 2 ^ 32)
    simp only [hashBytes, Vector.getElem_ofFn, hword, hshift] at hat
    rw [toUInt8_byte _ _ (by omega), toUInt8_byte _ _ (by omega), hs,
      getElem!_pos state j hj, getElem!_pos state' j hj] at hat
    simpa using congrArg UInt8.toNat hat
  have h0 := hbyte 0 (by decide)
  have h1 := hbyte 1 (by decide)
  have h2 := hbyte 2 (by decide)
  have h3 := hbyte 3 (by decide)
  have hlt := state[j].toNat_lt
  have hlt' := state'[j].toNat_lt
  omega

/-- The calls of `sha256_transform` made for a message: the words and the block of each. -/
def transforms (message : List UInt8) : List (Vector UInt32 8 × Vector UInt8 64) :=
  (digestCalls compress 64 padding iv message).map fun q => (q.1, toBlock q.2)

/-- A collision of `sha256_transform` between a call for one message and a call for the
other. -/
def Clash (message message' : List UInt8) : Prop :=
  ∃ q ∈ transforms message, ∃ q' ∈ transforms message', q ≠ q' ∧
    transform q.1 q.2 = transform q'.1 q'.2

theorem toList_toBlock {b : List UInt8} (h : b.length = 64) : (toBlock b).toList = b := by
  have hlen : (toBlock b).toList.length = b.length := by rw [Vector.length_toList, h]
  refine List.ext_getElem hlen fun i hi hi' => ?_
  rw [Vector.getElem_toList]
  simp only [toBlock, Vector.getElem_ofFn]
  exact List.getD_eq_getElem _ _ hi'

theorem clash_of_sha256_eq {message message' : List UInt8} (hlen : message.length < 2 ^ 61)
    (hlen' : message'.length < 2 ^ 61) (hne : message ≠ message')
    (h : sha256 message = sha256 message') : Clash message message' := by
  obtain ⟨q, hq, q', hq', hdiff, heq⟩ :=
    collides_of_digest_eq padding (by decide) hlen hlen' hne (hashBytes_inj h)
  refine ⟨_, List.mem_map_of_mem hq, _, List.mem_map_of_mem hq', fun hsame => hdiff ?_, heq⟩
  obtain ⟨hstate, hblock⟩ := Prod.mk.inj hsame
  have hb := congrArg Vector.toList hblock
  rw [toList_toBlock (length_of_mem_compressions hq),
    toList_toBlock (length_of_mem_compressions hq')] at hb
  exact Prod.ext hstate hb

end Collisions

end Bleep.Crypto
