/-
# `Bleep.BL3.BlockTree` — proof-of-work blocks and the block tree

`POWBlock` (with the fields it inherits from `Block`), `BlockTreeBlockIndex` and
`BlockTree<POWBlock>`.

The map `_ledgermap` sends a hash string to a pointer that may be null
(`AppendBlockHash` stores null), hence the `Option` inside.  The string `""`,
which only the genesis entry has as its predecessor, is `none`; every other
string is an `H`.

Indices and heights are `unsigned long` in the code, and nothing checks the index
of a received block.  Their type is the parameter `W`: `UInt64`, with its
wrap-around, where a result depends on it, and `Nat` elsewhere.

Loops that follow predecessors are bounded by the number of entries; running
out is the fault `diverges`, so a proof that a function answers is a proof that
its loop ends.
-/
import Bleep.Fault
import Bleep.Lib.Chain
import Bleep.BL3.Transaction

namespace Bleep

/-- `class POWBlock : Block`.  `block_id` is only printed; of the `double`
`timestamp`, which is copied, digested and printed, this is the bit pattern. -/
structure POWBlock (H A : Type) (W : Type := Nat) where
  block_idx : W
  tx_list : List (SimpleTransaction H A)
  block_hash : H
  nonce : Nat
  tx_hash : H
  prev_block_hash : H
  timestamp : Nat
  difficulty : H
  deriving DecidableEq, Repr

/-- The two SHA-256 digests blocks are made with: `SetTxHash` digests the
serialised transaction list, and a block's hash digests nonce, transaction
hash, index, previous hash and timestamp. -/
structure Sha256 (H A : Type) (W : Type := Nat) where
  txs : List (SimpleTransaction H A) → H
  header : (nonce : Nat) → (tx_hash : H) → (block_idx : W) → (prev_block_hash : H) →
    (timestamp : Nat) → H

variable {H A W : Type}

/-- The ids of a block's transactions, as collected before `RemoveTxs`. -/
def POWBlock.txids (b : POWBlock H A W) : List (SimpleTransactionId H A) :=
  b.tx_list.map SimpleTransaction.getId

/-- `POWBlock("", txs)`: the hash fields are `UINT256_t()`, which is 0; the nonce
is not initialised and is set before it is read. -/
def POWBlock.make [Zero H] [OfNat W 0] (sha : Sha256 H A W)
    (txs : List (SimpleTransaction H A)) : POWBlock H A W :=
  { block_idx := 0, tx_list := txs, block_hash := 0, nonce := 0, tx_hash := sha.txs txs,
    prev_block_hash := 0, timestamp := 0, difficulty := 0 }

/-- `SetGenesisBlock`. -/
def POWBlock.setGenesisBlock [Zero H] [OfNat W 0] (sha : Sha256 H A W) (b : POWBlock H A W) :
    POWBlock H A W :=
  { b with
    prev_block_hash := 0, block_idx := 0, nonce := 0, timestamp := 0
    block_hash := sha.header 0 b.tx_hash 0 0 0 }

/-- The genesis block every `BlockTree` starts from: one transaction of 0 from
0 to 0. -/
def genesisBlock [Zero H] [Zero A] [OfNat W 0] (sha : Sha256 H A W) : POWBlock H A W :=
  (POWBlock.make sha [SimpleTransaction.make 0 0 0 0]).setGenesisBlock sha

/-- `class BlockTreeBlockIndex`. -/
structure BlockTreeBlockIndex (H A : Type) (W : Type := Nat) where
  prevblockhash : Option H
  block : POWBlock H A W

/-- `class BlockTree<POWBlock>`. -/
structure BlockTree (H A : Type) (W : Type := Nat) where
  ledgermap : AList fun _ : H => Option (BlockTreeBlockIndex H A W)
  treeheight : W
  lasthash : H
  genesis : H

namespace BlockTree

variable [DecidableEq H]

/-- `BlockTree()`. -/
def init [Zero H] [Zero A] [OfNat W 0] [OfNat W 1] (sha : Sha256 H A W) : BlockTree H A W :=
  let genesisblk := genesisBlock sha
  { ledgermap := (∅ : AList _).insert genesisblk.block_hash (some ⟨none, genesisblk⟩)
    treeheight := 1
    lasthash := genesisblk.block_hash
    genesis := genesisblk.block_hash }

variable (t : BlockTree H A W)

def getNextBlockIdx : W := t.treeheight

def getLastHash : H := t.lasthash

/-- The data stored for a hash: absent and null are both nothing. -/
def entry (hash : H) : Option (BlockTreeBlockIndex H A W) := (t.ledgermap.lookup hash).join

/-- `_ledgermap[hash]`, with the pointer followed. -/
def deref (hash : H) : Except Fault (BlockTreeBlockIndex H A W) :=
  match t.entry hash with
  | some i => .ok i
  | none => .error .nullDeref

def containBlockHash (hash : H) : Bool := decide (hash ∈ t.ledgermap)

def containBlock (hash : H) : Bool := (t.entry hash).isSome

def getBlock (hash : H) : Except Fault (POWBlock H A W) := do
  mAssert (t.containBlock hash) "should contain block"
  let i ← t.deref hash
  return i.block

/-- `blockIndex = _ledgermap[blockIndex->GetPrevBlockHash()]` with the two
assertions that precede it in the walks. -/
def prevIndex (i : BlockTreeBlockIndex H A W) : Except Fault (BlockTreeBlockIndex H A W) :=
  match i.prevblockhash with
  | none => .error (.assertion "need to be returned before reaching genesis block")
  | some p => do
      mAssert (t.containBlockHash p) "ledger should contain prevBlockHash"
      t.deref p

/-- The number of rounds a walk towards genesis is given. -/
def fuel : Nat := t.ledgermap.entries.length

/-- The loop of `FindCommonBlock`. -/
def findCommonLoop (locator : List H) : Nat → BlockTreeBlockIndex H A W → Except Fault H
  | 0, _ => .error .diverges
  | n + 1, i =>
      if i.block.block_hash ∈ locator then .ok i.block.block_hash
      else do
        let j ← t.prevIndex i
        findCommonLoop locator n j

def findCommonBlock (locator : List H) : Except Fault H := do
  let i ← t.deref t.lasthash
  t.findCommonLoop locator t.fuel i

/-- The loop of `GetChainFromBlock`. -/
def chainFromLoop (start : H) : Nat → BlockTreeBlockIndex H A W → Except Fault (List H)
  | 0, _ => .error .diverges
  | n + 1, i =>
      if i.block.block_hash = start then .ok [i.block.block_hash]
      else do
        let j ← t.prevIndex i
        let chain ← chainFromLoop start n j
        return i.block.block_hash :: chain

def getChainFromBlock (start : H) : Except Fault (List H) := do
  let i ← t.deref t.lasthash
  t.chainFromLoop start t.fuel i

/-- The loop of `PrintLongestChain`. -/
def printLoop : Nat → BlockTreeBlockIndex H A W → Except Fault Unit
  | 0, _ => .error .diverges
  | n + 1, i =>
      match i.prevblockhash with
      | none => .ok ()
      | some p => do
          mAssert (t.containBlockHash p) "ledger should contain prevBlockHash"
          let j ← t.deref p
          printLoop n j

def printLongestChain : Except Fault Unit := do
  let i ← t.deref t.lasthash
  t.printLoop t.fuel i

/-- The inner `for` of `GetBlockLocator`: `step` predecessors upwards, or `none`
where an entry without one is met on the way. -/
def climb : Nat → BlockTreeBlockIndex H A W → Except Fault (Option (BlockTreeBlockIndex H A W))
  | 0, i => .ok (some i)
  | step + 1, i =>
      match i.prevblockhash.map t.ledgermap.lookup with
      | none | some none => do
          mAssert (t.genesis = i.block.block_hash) "it should be genesis block"
          return none
      | some (some none) => .error (.assertion "blockIndex should exist!")
      | some (some (some j)) => climb step j

/-- The `while` of `GetBlockLocator`; it pushes one hash a round and stops at
the tenth. -/
def locatorLoop : Nat → List H → BlockTreeBlockIndex H A W → Except Fault (List H)
  | 0, _, _ => .error .diverges
  | n + 1, blockLocator, i =>
      let blockLocator := blockLocator ++ [i.block.block_hash]
      if 10 ≤ blockLocator.length then .ok (blockLocator ++ [t.genesis])
      else if blockLocator.length < 5 then
        match i.prevblockhash with
        | none => do
            mAssert (t.genesis = i.block.block_hash) "it should be genesis block"
            return blockLocator ++ [t.genesis]
        | some p => do
            mAssert (t.containBlockHash p) "ledger should contain prevBlockHash"
            let j ← t.deref p
            locatorLoop n blockLocator j
      else do
        match ← t.climb (2 ^ (blockLocator.length - 5 + 1)) i with
        | none => return blockLocator ++ [t.genesis]
        | some j => locatorLoop n blockLocator j

def getBlockLocator [OfNat W 0] [OfNat W 1] [DecidableEq W] : Except Fault (List H) := do
  mAssert (t.treeheight ≠ 0) "At least genesis block should exist"
  if t.treeheight = 1 then
    return [t.lasthash]
  else
    let i ← t.deref t.lasthash
    t.locatorLoop 10 [] i

/-- `std::unordered_map::insert`: an entry that is there, null or not, stays. -/
def insertIndex (hash : H) (v : Option (BlockTreeBlockIndex H A W)) : BlockTree H A W :=
  if hash ∈ t.ledgermap then t else { t with ledgermap := t.ledgermap.insert hash v }

def appendBlockHash (hash : H) : BlockTree H A W := t.insertIndex hash none

section Append

variable [OfNat W 1] [Add W] [LE W] [DecidableLE W]

/-- What `AppendBlock` does to the tree. -/
def linkBlock (blk : POWBlock H A W) : BlockTree H A W :=
  if t.containBlockHash blk.prev_block_hash then
    let t' := t.insertIndex blk.block_hash (some ⟨some blk.prev_block_hash, blk⟩)
    if t.lasthash = blk.prev_block_hash then
      { t' with lasthash := blk.block_hash, treeheight := t.treeheight + 1 }
    else if t.treeheight ≤ blk.block_idx then
      { t' with lasthash := blk.block_hash, treeheight := blk.block_idx + 1 }
    else t'
  else t

/-- `AppendBlock`, which ends by printing the chain of the tip.  The line for the event log
that it writes when the tip moves is added in `appendBlockLogged`. -/
def appendBlock (blk : POWBlock H A W) : Except Fault (BlockTree H A W) := do
  let t' := t.linkBlock blk
  t'.printLongestChain
  return t'

end Append

end BlockTree

end Bleep
