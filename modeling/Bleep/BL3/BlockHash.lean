/-
# `Bleep.BL3.BlockHash` — the bytes a block's hash is taken of

`POWBlock::SetGenesisBlock` and `POWMiner::_timerCallback` each feed five fields to
SHA-256.  Here the fields have the types of the code: words of 64 bits, a `double` by its
bits, and hashes that are printed.  The bytes of a header determine its fields
(`headerBytes_inj`), and both places hash the bytes of the header of the block they make.

`toBlock` forgets the words; the two functions are then those of `BL3.BlockTree` and
`BL3.ProtocolLayerPoW` at the digest `blockSha`.
-/
import Bleep.BL3.ProtocolLayerPoW
import Bleep.Utility.HashText

open Digits

namespace Bleep

/-! ## The bytes of a field -/

/-- The bytes of an `unsigned long`, or of a `double` given by its bits. -/
def wordBytes (word : UInt64) : List UInt8 := littleEndian 8 word.toNat

/-- The bytes of a printed hash, `str().c_str()`. -/
def textBytes (text : String) : List UInt8 := text.toList.map Char.toUInt8

/-! ## Blocks -/

/-- `class POWBlock` with the words its fields are kept in; `timestamp` is a `double`, by
its bits. -/
structure POWBlockWords (A : Type) where
  block_idx : UInt64
  tx_list : List (SimpleTransaction UINT256_t A)
  block_hash : UINT256_t
  nonce : UInt64
  tx_hash : UINT256_t
  prev_block_hash : UINT256_t
  timestamp : UInt64
  difficulty : UINT256_t

variable {A : Type}

namespace POWBlockWords

/-- The bytes `SetGenesisBlock` hashes, once the fields are set. -/
def genesisCtx (b : POWBlockWords A) : SHA256_CTX :=
  let ctx := SHA256_CTX.init
  let ctx := ctx.update (wordBytes b.nonce)
  let ctx := ctx.update (textBytes b.tx_hash.str)
  let ctx := ctx.update (wordBytes b.block_idx)
  let ctx := ctx.update (textBytes b.prev_block_hash.str)
  ctx.update (wordBytes b.timestamp)

/-- The fields `SetGenesisBlock` sets before it hashes them. -/
def genesisFields (b : POWBlockWords A) : POWBlockWords A :=
  { b with prev_block_hash := .ofUInt64 0, block_idx := 0, nonce := 0, timestamp := 0 }

/-- `SetGenesisBlock`. -/
def setGenesisBlock (sha256 : List UInt8 → Vector UInt8 32) (b : POWBlockWords A) :
    POWBlockWords A :=
  { b.genesisFields with block_hash := b.genesisFields.genesisCtx.final sha256 }

/-- The bytes `_timerCallback` hashes. -/
def timerCtx (nonce timestamp : UInt64) (candidateBlk : POWBlockWords A) : SHA256_CTX :=
  let blockidx := candidateBlk.block_idx
  let ctx := SHA256_CTX.init
  let ctx := ctx.update (wordBytes nonce)
  let ctx := ctx.update (textBytes candidateBlk.tx_hash.str)
  let ctx := ctx.update (wordBytes blockidx)
  let ctx := ctx.update (textBytes candidateBlk.prev_block_hash.str)
  ctx.update (wordBytes timestamp)

/-- The block `_timerCallback` makes of the candidate: a copy with three fields set. -/
def validBlk (sha256 : List UInt8 → Vector UInt8 32) (nonce timestamp : UInt64)
    (candidateBlk : POWBlockWords A) : POWBlockWords A :=
  { candidateBlk with
    nonce := nonce
    block_hash := (timerCtx nonce timestamp candidateBlk).final sha256
    timestamp := timestamp }

end POWBlockWords

/-! ## The layout -/

theorem length_wordBytes (word : UInt64) : (wordBytes word).length = 8 := length_littleEndian 8 _

theorem wordBytes_inj {v w : UInt64} (h : wordBytes v = wordBytes w) : v = w :=
  UInt64.toNat_inj.mp (littleEndian_inj v.toNat_lt w.toNat_lt h)

theorem length_textBytes (x : UINT256_t) : (textBytes x.str).length = 64 := by
  rw [textBytes, List.length_map, x.str_spec.length]

theorem hexChars_ascii : ∀ c ∈ hexChars, c.toNat < 2 ^ 8 := by
  simp [hexChars]

theorem toUInt8_inj {c e : Char} (hc : c ∈ hexChars) (he : e ∈ hexChars)
    (h : c.toUInt8 = e.toUInt8) : c = e := by
  have hmod : c.toNat % 2 ^ 8 = e.toNat % 2 ^ 8 := by
    have := congrArg UInt8.toNat h
    rwa [Char.toUInt8, Char.toUInt8, UInt32.toNat_toUInt8, UInt32.toNat_toUInt8] at this
  rw [Nat.mod_eq_of_lt (hexChars_ascii c hc), Nat.mod_eq_of_lt (hexChars_ascii e he)] at hmod
  exact Char.toNat_inj.mp hmod

theorem textBytes_inj {x y : UINT256_t} (h : textBytes x.str = textBytes y.str) : x = y := by
  refine UINT256_t.str_injective (String.toList_inj.mp ?_)
  have hx := x.str_spec.hex
  have hy := y.str_spec.hex
  rw [textBytes, textBytes] at h
  generalize x.str.toList = s at h hx
  generalize y.str.toList = t at h hy
  induction s generalizing t with
  | nil => exact (List.map_eq_nil_iff.mp h.symm).symm
  | cons c s ih =>
      cases t with
      | nil => cases h
      | cons e t =>
          obtain ⟨hce, hst⟩ := List.cons.inj h
          rw [toUInt8_inj (hx c List.mem_cons_self) (hy e List.mem_cons_self) hce,
            ih (fun d hd => hx d (List.mem_cons_of_mem c hd)) t hst
              (fun d hd => hy d (List.mem_cons_of_mem e hd))]

/-- The five fields of a header, one after the other. -/
def headerBytes (nonce : UInt64) (tx_hash : UINT256_t) (block_idx : UInt64)
    (prev_block_hash : UINT256_t) (timestamp : UInt64) : List UInt8 :=
  wordBytes nonce ++ textBytes tx_hash.str ++ wordBytes block_idx
    ++ textBytes prev_block_hash.str ++ wordBytes timestamp

/-- The bytes of a header determine its fields. -/
theorem headerBytes_inj {n n' i i' t t' : UInt64} {x x' p p' : UINT256_t}
    (h : headerBytes n x i p t = headerBytes n' x' i' p' t') :
    n = n' ∧ x = x' ∧ i = i' ∧ p = p' ∧ t = t' := by
  simp only [headerBytes] at h
  obtain ⟨h, ht⟩ := List.append_inj' h (by rw [length_wordBytes, length_wordBytes])
  obtain ⟨h, hp⟩ := List.append_inj' h (by rw [length_textBytes, length_textBytes])
  obtain ⟨h, hi⟩ := List.append_inj' h (by rw [length_wordBytes, length_wordBytes])
  obtain ⟨hn, hx⟩ := List.append_inj' h (by rw [length_textBytes, length_textBytes])
  exact ⟨wordBytes_inj hn, textBytes_inj hx, wordBytes_inj hi, textBytes_inj hp, wordBytes_inj ht⟩

namespace POWBlockWords

/-- The bytes of a block's own header. -/
def header (b : POWBlockWords A) : List UInt8 :=
  headerBytes b.nonce b.tx_hash b.block_idx b.prev_block_hash b.timestamp

variable (sha256 : List UInt8 → Vector UInt8 32)

theorem setGenesisBlock_header (b : POWBlockWords A) :
    b.genesisFields.genesisCtx.data = (b.setGenesisBlock sha256).header := rfl

theorem validBlk_header (nonce timestamp : UInt64) (c : POWBlockWords A) :
    (timerCtx nonce timestamp c).data = (validBlk sha256 nonce timestamp c).header := rfl

/-! ## The abstract blocks -/

/-- The block without its words. -/
def toBlock (b : POWBlockWords A) : POWBlock UINT256_t A where
  block_idx := b.block_idx.toNat
  tx_list := b.tx_list
  block_hash := b.block_hash
  nonce := b.nonce.toNat
  tx_hash := b.tx_hash
  prev_block_hash := b.prev_block_hash
  timestamp := b.timestamp.toNat
  difficulty := b.difficulty

instance : Zero UINT256_t := ⟨.ofUInt64 0⟩

/-- The digests of the blocks: the header's is of its bytes. -/
def blockSha (txs : List (SimpleTransaction UINT256_t A) → UINT256_t) : Sha256 UINT256_t A where
  txs := txs
  header nonce tx_hash block_idx prev_block_hash timestamp :=
    .ofBuffer (sha256 (headerBytes (.ofNat nonce) tx_hash (.ofNat block_idx) prev_block_hash
      (.ofNat timestamp))).toList

variable {sha256} {txs : List (SimpleTransaction UINT256_t A) → UINT256_t}

theorem toBlock_setGenesisBlock (b : POWBlockWords A) :
    (b.setGenesisBlock sha256).toBlock = b.toBlock.setGenesisBlock (blockSha sha256 txs) := rfl

theorem toBlock_validBlk (nonce timestamp : UInt64) (c : POWBlockWords A) :
    (validBlk sha256 nonce timestamp c).toBlock
      = POWMiner.validBlk (blockSha sha256 txs) nonce.toNat timestamp.toNat c.toBlock := by
  have hhash : ((validBlk sha256 nonce timestamp c).toBlock).block_hash
      = (blockSha sha256 txs).header nonce.toNat c.tx_hash c.block_idx.toNat c.prev_block_hash
          timestamp.toNat := by
    simp only [blockSha, UInt64.ofNat_toNat]
    rfl
  rw [POWMiner.validBlk]
  exact congrArg (fun hash => { c.toBlock with
    nonce := nonce.toNat, block_hash := hash, timestamp := timestamp.toNat }) hhash

end POWBlockWords

/-- A buffer is read as a big-endian number, a hash is printed as exactly 64 digits of its
value, and a block's hash is that of bytes laid out the same way for a genesis block and
for a mined one, which are the bytes of the fields the block carries and determine them. -/
theorem hash_encodings (sha256 : List UInt8 → Vector UInt8 32) :
    (∀ buf, (UINT256_t.ofBuffer buf).toNat = bufferValue buf % 2 ^ 256)
      ∧ (∀ x : UINT256_t, Prints x.str.toList 64 x.toNat)
      ∧ Function.Injective UINT256_t.str
      ∧ (∀ buf, buf.length = 32 → (UINT256_t.ofBuffer buf).str.toList = buf.flatMap hexByte)
      ∧ (∀ b b' : POWBlockWords A, b.header = b'.header →
          b.nonce = b'.nonce ∧ b.tx_hash = b'.tx_hash ∧ b.block_idx = b'.block_idx
            ∧ b.prev_block_hash = b'.prev_block_hash ∧ b.timestamp = b'.timestamp)
      ∧ (∀ b : POWBlockWords A,
          b.genesisFields.genesisCtx.data = (b.setGenesisBlock sha256).header
            ∧ (b.setGenesisBlock sha256).block_hash
              = .ofBuffer (sha256 (b.setGenesisBlock sha256).header).toList)
      ∧ (∀ nonce timestamp (c : POWBlockWords A),
          (POWBlockWords.timerCtx nonce timestamp c).data
              = (POWBlockWords.validBlk sha256 nonce timestamp c).header
            ∧ (POWBlockWords.validBlk sha256 nonce timestamp c).block_hash
              = .ofBuffer (sha256 (POWBlockWords.validBlk sha256 nonce timestamp c).header).toList
            ∧ POWBlockWords.validBlk sha256 nonce timestamp c
              = { c with
                  nonce := nonce
                  timestamp := timestamp
                  block_hash := (POWBlockWords.validBlk sha256 nonce timestamp c).block_hash }) :=
  ⟨UINT256_t.toNat_ofBuffer, UINT256_t.str_spec, UINT256_t.str_injective,
    fun _ => UINT256_t.str_ofBuffer, fun _ _ => headerBytes_inj,
    fun b => ⟨b.setGenesisBlock_header sha256, rfl⟩,
    fun nonce timestamp c => ⟨POWBlockWords.validBlk_header sha256 nonce timestamp c, rfl, rfl⟩⟩

end Bleep
