/-
# `Bleep.BL3.ProtocolLayerPoW` — the proof-of-work layer of one node

`POWMiner` and `BL_ProtocolLayerPoW` with the handlers of the four `POWBLOCK`
messages, of the transaction messages and of the event
`EmuBlockMiningComplete`.

Mining is emulated: `AsyncEmulateBlockMining` freezes a candidate and starts a
timer, `_timerCallback` turns the candidate into a block and *queues* it, and
only the handler of the queued event appends the block.  What the node does
between the two is what the invariants of this layer are about.
-/
import Bleep.BL3.TxGossip

namespace Bleep

variable {N H A W : Type}

/-- `class POWMiner`; `timer` says whether `_timer` is running. -/
structure POWMiner (H A : Type) (W : Type := Nat) where
  candidateBlk : Option (POWBlock H A W)
  isMining : Bool
  timer : Bool

namespace POWMiner

def init : POWMiner H A W := ⟨none, false, false⟩

def asyncEmulateBlockMining (_m : POWMiner H A W) (candidateBlk : POWBlock H A W) :
    POWMiner H A W :=
  { candidateBlk := some candidateBlk, timer := true, isMining := true }

def stopMining (m : POWMiner H A W) : POWMiner H A W := { m with timer := false, isMining := false }

/-- The block a finished candidate becomes. -/
def validBlk (sha : Sha256 H A W) (nonce timestamp : Nat) (c : POWBlock H A W) : POWBlock H A W :=
  { c with
    nonce := nonce
    block_hash := sha.header nonce c.tx_hash c.block_idx c.prev_block_hash timestamp
    timestamp := timestamp }

/-- `_timerCallback`: the block to be queued, and the miner after it. -/
def timerCallback (m : POWMiner H A W) (sha : Sha256 H A W) (nonce timestamp : Nat) :
    Except Fault (POWMiner H A W × POWBlock H A W) :=
  match m.candidateBlk with
  | none => .error .nullDeref
  | some c => .ok ({ m with timer := false, isMining := false }, validBlk sha nonce timestamp c)

end POWMiner

variable [LinearOrder A]

/-- `class BL_ProtocolLayerPoW` with what it inherits. -/
structure BL_ProtocolLayerPoW (H A : Type) (W : Type := Nat) [LinearOrder A] where
  txGossipProtocol : TxGossipProtocol H A
  powMiner : POWMiner H A W
  blocktree : BlockTree H A W
  processingBlkinv : List H
  processing : Bool
  blkPool : List (POWBlock H A W)
  txGenNum : Nat

/-- The default of `BL_ProtocolLayerPoW::txNumPerBlock`, which nothing sets. -/
def txNumPerBlock : Nat := 2

namespace BL_ProtocolLayerPoW

section Handlers

variable [DecidableEq H]

/-- `BL_ProtocolLayerPoW()`. -/
def init [Zero H] [Zero A] [OfNat W 0] [OfNat W 1] (sha : Sha256 H A W) :
    BL_ProtocolLayerPoW H A W where
  txGossipProtocol := .init
  powMiner := .init
  blocktree := .init sha
  processingBlkinv := []
  processing := false
  blkPool := []
  txGenNum := 0

variable (L : BL_ProtocolLayerPoW H A W)

/-- `_txPool`. -/
abbrev txPool : TxPool H A := L.txGossipProtocol.txPool

/-- The layer after `f` was done to `_txPool`. -/
def mapTxPool (f : TxPool H A → TxPool H A) : BL_ProtocolLayerPoW H A W :=
  { L with txGossipProtocol := { L.txGossipProtocol with txPool := f L.txPool } }

section Mining

variable [Zero H] [OfNat W 0] (sha : Sha256 H A W)

/-- `_makeCandidateBlock`. -/
def makeCandidateBlock : POWBlock H A W :=
  { POWBlock.make sha (L.txPool.getTxs txNumPerBlock) with
    block_idx := L.blocktree.getNextBlockIdx
    prev_block_hash := L.blocktree.getLastHash }

/-- Mining is started on a new candidate. -/
def emulateMining : BL_ProtocolLayerPoW H A W :=
  { L with powMiner := L.powMiner.asyncEmulateBlockMining (L.makeCandidateBlock sha) }

/-- Mining is started if there are enough transactions and the miner is idle. -/
def mineIfIdle : BL_ProtocolLayerPoW H A W :=
  if txNumPerBlock ≤ L.txPool.getPendingTxNum then
    if !L.powMiner.isMining then L.emulateMining sha else L
  else L

/-- Mining is stopped, and started again if there are enough transactions. -/
def restartMining : BL_ProtocolLayerPoW H A W :=
  let L := if L.powMiner.isMining then { L with powMiner := L.powMiner.stopMining } else L
  if txNumPerBlock ≤ L.txPool.getPendingTxNum then L.emulateMining sha else L

/-- `_txgentimerCallback`, for the transaction it drew at random. -/
def txgentimerCallback (tx : SimpleTransaction H A) : BL_ProtocolLayerPoW H A W :=
  let L :=
    if !L.txPool.containTx tx.getId then
      let L := L.mapTxPool (·.addTx tx)
      let L := { L with txGossipProtocol := L.txGossipProtocol.pushTxToBroadcast tx }
      L.mineIfIdle sha
    else L
  { L with txGenNum := L.txGenNum + 1 }

end Mining

section Blocks

variable [OfNat W 0] [OfNat W 1] [Add W] [LE W] [DecidableLE W] [DecidableEq W]

/-- The inventory handler.  `hashes.front()` of an empty list is undefined. -/
def recvPOWBlockInvHandler (source : N) (hashes : List H) :
    Except Fault (BL_ProtocolLayerPoW H A W × Sends N H A W) :=
  if L.processing then .ok (L, [])
  else do
    let lasthash := L.blocktree.getLastHash
    let (L, out) ←
      match hashes.head? with
      | none => .error .nullDeref
      | some front =>
          if !L.blocktree.containBlockHash front then do
            let blockLocator ← L.blocktree.getBlockLocator
            return (L, [(source, .blkGetBlocks blockLocator)])
          else
            let L := { L with processingBlkinv := hashes, processing := true }
            match hashes.find? fun h => !L.blocktree.containBlock h with
            | some h => .ok (L, [(source, .blkGetData h)])
            | none => .ok ({ L with processing := false }, [])
    mAssert (lasthash = L.blocktree.getLastHash) "Lasthash should not be changed"
    return (L, out)

/-- A hash is never `""`, so the assertion on `commonBlkHash` is not repeated
here: `FindCommonBlock` answers a hash or faults. -/
def recvPOWBlockGetBlocksHandler (source : N) (blockLocator : List H) :
    Except Fault (BL_ProtocolLayerPoW H A W × Sends N H A W) := do
  let commonBlkHash ← L.blocktree.findCommonBlock blockLocator
  let chain ← L.blocktree.getChainFromBlock commonBlkHash
  return (L, [(source, .blkInv chain.reverse)])

def recvPOWBlockGetDataHandler (source : N) (blockhash : H) :
    Except Fault (BL_ProtocolLayerPoW H A W × Sends N H A W) := do
  mAssert (L.blocktree.containBlockHash blockhash) "hash must be synchronized already."
  mAssert (L.blocktree.containBlock blockhash) "must have blockdata."
  let blk ← L.blocktree.getBlock blockhash
  return (L, [(source, .blkBlk blk)])

/-- The first part of the block handler: an unknown block's transactions leave
the pool and the block goes to the tree. -/
def acceptBlk (blk : POWBlock H A W) : Except Fault (BL_ProtocolLayerPoW H A W) :=
  if !L.blocktree.containBlock blk.block_hash then do
    let L := L.mapTxPool (·.removeTxs blk.txids)
    let blocktree ← L.blocktree.appendBlock blk
    return { L with blocktree }
  else .ok L

/-- The last part of the block handler: ask for the next block of the inventory
in hand, or be done with the inventory and relay it. -/
def continueInv [DecidableEq N] (neighborIds : List N) (source : N) :
    BL_ProtocolLayerPoW H A W × Sends N H A W :=
  if L.processing then
    match L.processingBlkinv.find? fun h => !L.blocktree.containBlock h with
    | some h => (L, [(source, .blkGetData h)])
    | none =>
      ({ L with processing := false }, relay neighborIds source (.blkInv L.processingBlkinv))
  else (L, [])

variable [Zero H] (sha : Sha256 H A W)

def recvPOWBlockBlkHandler [DecidableEq N] (neighborIds : List N) (source : N)
    (blkptr : POWBlock H A W) : Except Fault (BL_ProtocolLayerPoW H A W × Sends N H A W) := do
  let lasthash := L.blocktree.getLastHash
  let L ← L.acceptBlk blkptr
  let L := if lasthash ≠ L.blocktree.getLastHash then L.restartMining sha else L
  return L.continueInv neighborIds source

/-- `RecvMsgHandler`. -/
def recvMsgHandler [DecidableEq N] (neighborIds : List N) (source : N) :
    MessageObject H A W → Except Fault (BL_ProtocolLayerPoW H A W × Sends N H A W)
  | .txInv txids =>
      let (g, out) := L.txGossipProtocol.recvInventoryHandler source txids
      .ok ({ L with txGossipProtocol := g }, out)
  | .txGetdata txids =>
      let (g, out) := L.txGossipProtocol.recvGetdataHandler source txids
      .ok ({ L with txGossipProtocol := g }, out)
  | .txTxs txs =>
      let (g, out) := L.txGossipProtocol.recvTxsHandler neighborIds source txs
      .ok (mineIfIdle { L with txGossipProtocol := g } sha, out)
  | .blkInv hashlist => L.recvPOWBlockInvHandler source hashlist
  | .blkGetBlocks blockLocator => L.recvPOWBlockGetBlocksHandler source blockLocator
  | .blkGetData blockhash => L.recvPOWBlockGetDataHandler source blockhash
  | .blkBlk blk => L.recvPOWBlockBlkHandler sha neighborIds source blk

omit [Zero H] in
/-- `SwitchAsyncEventHandler`, case `EmuBlockMiningComplete`.  Unlike the block
handler it neither stops nor restarts the miner. -/
def emuBlockMiningComplete (neighborIds : List N) (minedBlk : POWBlock H A W) :
    Except Fault (BL_ProtocolLayerPoW H A W × Sends N H A W) := do
  let L := { L with blkPool := L.blkPool ++ [minedBlk] }
  let blocktree ← L.blocktree.appendBlock minedBlk
  let L := { L with blocktree }
  let L := L.mapTxPool (·.removeTxs minedBlk.txids)
  return (L, sendAll neighborIds (.blkInv [minedBlk.block_hash]))

end Blocks

end Handlers

end BL_ProtocolLayerPoW

end Bleep
