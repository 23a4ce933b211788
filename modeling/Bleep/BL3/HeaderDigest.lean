/-
# `Bleep.BL3.HeaderDigest` — blocks named by the digest of the code

`SetGenesisBlock` and `_timerCallback` with the calls of `sha256_init`, `sha256_update` and
`sha256_final` they make.  The hash they set is the one of `BL3.BlockHash` for the digest
of `Crypto.SHA256` (`setGenesisBlock_eq`, `validBlk_eq`).

The results about the network are for blocks with distinct hashes.  With this digest that
fails only with a collision in hand: of two calls of `sha256_transform` made for the
headers of two minted blocks, or of the digests of their lists of transactions
(`distinct_or_clash`).
-/
import Bleep.BL3.BlockHash
import Bleep.BL3.PoWNetwork
import Bleep.Crypto.SHA256

open Protocol Digits

namespace Bleep

variable {A : Type}

/-! ## The calls -/

section Calls

open Crypto.SHA256_CTX

variable (fuel : Nat) (buffer : Vector UInt8 64)

/-- The calls both functions make on the five fields; the buffer of the context is on the
stack and holds anything.  `none` if a call has not ended. -/
def hashFields (nonce : UInt64) (tx_hash : UINT256_t) (block_idx : UInt64)
    (prev_block_hash : UINT256_t) (timestamp : UInt64) : Option UINT256_t := do
  let ctx := sha256_init buffer
  let ctx ← ctx.sha256_update fuel (wordBytes nonce)
  let ctx ← ctx.sha256_update fuel (textBytes tx_hash.str)
  let ctx ← ctx.sha256_update fuel (wordBytes block_idx)
  let ctx ← ctx.sha256_update fuel (textBytes prev_block_hash.str)
  let ctx ← ctx.sha256_update fuel (wordBytes timestamp)
  return .ofBuffer ctx.sha256_final.toList

namespace POWBlockWords

/-- `SetGenesisBlock`. -/
def setGenesisBlockBy (b : POWBlockWords A) : Option (POWBlockWords A) := do
  let b := b.genesisFields
  let block_hash ← hashFields fuel buffer b.nonce b.tx_hash b.block_idx b.prev_block_hash
    b.timestamp
  return { b with block_hash }

/-- The block `_timerCallback` makes. -/
def validBlkBy (nonce timestamp : UInt64) (candidateBlk : POWBlockWords A) :
    Option (POWBlockWords A) := do
  let block_hash ← hashFields fuel buffer nonce candidateBlk.tx_hash candidateBlk.block_idx
    candidateBlk.prev_block_hash timestamp
  return { candidateBlk with nonce, block_hash, timestamp }

end POWBlockWords

variable {fuel buffer}

theorem hashFields_eq (hfuel : 64 < fuel) (n i t : UInt64) (x p : UINT256_t) :
    hashFields fuel buffer n x i p t =
      some (.ofBuffer (Crypto.sha256 (headerBytes n x i p t)).toList) := by
  have hword (word : UInt64) (ctx : Crypto.SHA256_CTX) :
      ctx.sha256_update fuel (wordBytes word) = some ((wordBytes word).foldl updateByte ctx) := by
    have hlen := length_wordBytes word
    exact Crypto.exists_sha256_update (by omega) (by omega) ctx
  have htext (hash : UINT256_t) (ctx : Crypto.SHA256_CTX) :
      ctx.sha256_update fuel (textBytes hash.str) =
        some ((textBytes hash.str).foldl updateByte ctx) := by
    have hlen := length_textBytes hash
    exact Crypto.exists_sha256_update (by omega) (by omega) ctx
  have hall := (((((Crypto.represents_init buffer).updates (wordBytes n)).updates
    (textBytes x.str)).updates (wordBytes i)).updates (textBytes p.str)).updates (wordBytes t)
  rw [List.nil_append] at hall
  simp only [hashFields, hword, htext, Option.bind_eq_bind, Option.bind_some]
  rw [hall.final]
  rfl

namespace POWBlockWords

theorem setGenesisBlock_eq (hfuel : 64 < fuel) (b : POWBlockWords A) :
    b.setGenesisBlockBy fuel buffer = some (b.setGenesisBlock Crypto.sha256) := by
  rw [setGenesisBlockBy, hashFields_eq hfuel]
  rfl

theorem validBlk_eq (hfuel : 64 < fuel) (nonce timestamp : UInt64) (c : POWBlockWords A) :
    validBlkBy fuel buffer nonce timestamp c =
      some (validBlk Crypto.sha256 nonce timestamp c) := by
  rw [validBlkBy, hashFields_eq hfuel]
  rfl

end POWBlockWords

end Calls

/-! ## The blocks of a run -/

section Made

variable {N H : Type} [Zero H] {sha : Sha256 H A}

/-- The fields a candidate has from its list of transactions. -/
structure Made (sha : Sha256 H A) (b : POWBlock H A) : Prop where
  tx_hash : b.tx_hash = sha.txs b.tx_list
  difficulty : b.difficulty = 0

/-- A block named by the digest of its header. -/
structure Named (sha : Sha256 H A) (b : POWBlock H A) : Prop extends Made sha b where
  block_hash : b.block_hash = sha.header b.nonce b.tx_hash b.block_idx b.prev_block_hash b.timestamp

theorem named_genesisBlock [Zero A] : Named sha (genesisBlock sha) := ⟨⟨rfl, rfl⟩, rfl⟩

theorem Made.validBlk {c : POWBlock H A} (h : Made sha c) (nonce timestamp : Nat) :
    Named sha (POWMiner.validBlk sha nonce timestamp c) := ⟨⟨h.tx_hash, h.difficulty⟩, rfl⟩

variable [LinearOrder A]

/-- What a node mines, and what it has mined. -/
structure NamesBlocks (sha : Sha256 H A) (p : PoWNode N H A) : Prop where
  cand : ∀ c ∈ p.layer.powMiner.candidateBlk, Made sha c
  mined : ∀ b, p.Mined b → Named sha b

variable {p p' : PoWNode N H A} {out : Sends N H A}

theorem made_of_fresh {L : BL_ProtocolLayerPoW H A} (h : L.Fresh sha) :
    ∀ c ∈ L.powMiner.candidateBlk, Made sha c := by
  intro c hc
  rw [h.miner] at hc
  obtain rfl := Option.some.inj hc
  exact ⟨rfl, rfl⟩

theorem cand_step {L L' : BL_ProtocolLayerPoW H A}
    (hstep : L'.Fresh sha ∨ L'.powMiner.candidateBlk = L.powMiner.candidateBlk)
    (h : ∀ c ∈ L.powMiner.candidateBlk, Made sha c) :
    ∀ c ∈ L'.powMiner.candidateBlk, Made sha c := by
  rcases hstep with hfresh | hsame
  · exact made_of_fresh hfresh
  · rwa [hsame]

variable [DecidableEq H]

theorem NamesBlocks.fire (h : NamesBlocks sha p) (hr : p.layer.blocktree.Rooted) {nb : List N}
    {l : PoWAct H A} (hf : p.fire sha nb l = some (.ok (p', out))) : NamesBlocks sha p' := by
  rcases PoWNode.fire_ok hr hf with htx | ⟨b, hmine, -⟩ | ⟨b, queue, hq, rfl, -⟩
  · refine ⟨cand_step (htx.miner.symm.imp_right fun hm => by rw [hm]) h.cand, fun b hb => ?_⟩
    exact h.mined b (hb.imp (htx.chain.blkPool ▸ ·) (htx.queue ▸ ·))
  · obtain ⟨c, nonce, timestamp, hc, rfl⟩ := hmine.block
    refine ⟨cand_step (.inr (by rw [hmine.layer])) h.cand, fun b hb => ?_⟩
    rw [PoWNode.Mined, hmine.layer, hmine.queue, List.mem_append, List.mem_singleton] at hb
    rcases hb with hb | hb | rfl
    · exact h.mined b (.inl hb)
    · exact h.mined b (.inr hb)
    · exact (h.cand c hc).validBlk nonce timestamp
  · refine ⟨cand_step (.inr rfl) h.cand, fun b' hb' => h.mined b' ?_⟩
    rcases hb' with hb' | hb'
    · rcases List.mem_append.mp hb' with hb' | hb'
      · exact .inl hb'
      · exact .inr (hq ▸ List.mem_singleton.mp hb' ▸ List.mem_cons_self)
    · exact .inr (hq ▸ List.mem_cons_of_mem _ hb')

theorem NamesBlocks.recv [DecidableEq N] (h : NamesBlocks sha p) (hr : p.layer.blocktree.Rooted)
    {nb : List N} {source : N} {obj : MessageObject H A}
    (hf : p.recv sha nb source obj = .ok (p', out)) : NamesBlocks sha p' := by
  refine ⟨cand_step ?_ h.cand, fun b hb => h.mined b ((PoWNode.recv_mined hr hf b).mp hb)⟩
  have hafter (b : POWBlock H A) := (p.layer.afterBlk_miner sha b).imp_right And.left
  cases PoWNode.recv_ok hr hf with
  | tx _ htx => exact htx.miner.symm.imp_right fun hm => by rw [hm]
  | blkAlone _ => exact hafter _
  | blkNext _ _ => exact hafter _
  | blkLast _ _ => exact (hafter _).imp_left fun hfresh => ⟨hfresh.pending, hfresh.miner⟩
  | _ => exact .inr rfl

variable [Zero A] [DecidableEq N] {nbrs : N → List N} {c : PoWConfig N H A}

theorem namesBlocks_of_reach (h : (powSys sha nbrs).Reach c) (n : N) :
    NamesBlocks sha (c.node n) := by
  refine h.invariant (P := fun c => ∀ n, NamesBlocks sha (c.node n)) ?_ ?_ n
  · rintro c rfl n
    refine ⟨fun c hc => (by cases hc), fun b hb => ?_⟩
    rcases hb with hb | hb <;> cases hb
  · intro c a c' hc hok _ hs
    cases hs with
    | @fire k l s out hf =>
        exact c.forall_post _ _ _ _ ((hok k).fire (rooted_of_reach hc k) hf) fun m _ => hok m
    | @deliver i pk s out _ hf =>
        exact c.forall_post _ _ _ _ ((hok pk.dest).recv (rooted_of_reach hc pk.dest) hf)
          fun m _ => hok m
    | lose _ => exact hok

/-- Every block there is carries the digest of its own header. -/
theorem named_of_minted (h : (powSys sha nbrs).Reach c) {b : POWBlock H A}
    (hb : Minted sha c b) : Named sha b := by
  rcases hb with rfl | ⟨n, hn⟩
  · exact named_genesisBlock
  · exact (namesBlocks_of_reach h n).mined b hn

end Made

/-! ## One hash, one block -/

/-- The numbers of the header fit the words they are kept in. -/
structure InWords (b : POWBlock UINT256_t A) : Prop where
  nonce : b.nonce < 2 ^ 64
  block_idx : b.block_idx < 2 ^ 64
  timestamp : b.timestamp < 2 ^ 64

/-- The bytes of a block's own header. -/
def blockHeader (b : POWBlock UINT256_t A) : List UInt8 :=
  headerBytes (.ofNat b.nonce) b.tx_hash (.ofNat b.block_idx) b.prev_block_hash
    (.ofNat b.timestamp)

theorem length_blockHeader (b : POWBlock UINT256_t A) : (blockHeader b).length = 152 := by
  simp only [blockHeader, headerBytes, List.length_append, length_wordBytes, length_textBytes]

theorem ofNat_inj {m n : Nat} (hm : m < 2 ^ 64) (hn : n < 2 ^ 64)
    (h : UInt64.ofNat m = UInt64.ofNat n) : m = n := by
  have hmod := congrArg UInt64.toNat h
  rwa [UInt64.toNat_ofNat', UInt64.toNat_ofNat', Nat.mod_eq_of_lt hm, Nat.mod_eq_of_lt hn] at hmod

theorem ofBuffer_inj {hash hash' : Vector UInt8 32}
    (h : UINT256_t.ofBuffer hash.toList = UINT256_t.ofBuffer hash'.toList) : hash = hash' := by
  have hfits : ∀ v : Vector UInt8 32, bufferValue v.toList < 2 ^ 256 := fun v => by
    have hlt := bufferValue_lt v.toList
    rw [Vector.length_toList] at hlt
    exact hlt.trans_le (by norm_num)
  have hval := congrArg UINT256_t.toNat h
  rw [UINT256_t.toNat_ofBuffer, UINT256_t.toNat_ofBuffer, Nat.mod_eq_of_lt (hfits hash),
    Nat.mod_eq_of_lt (hfits hash')] at hval
  have hbytes : hash.toList.map UInt8.toNat = hash'.toList.map UInt8.toNat := by
    refine value_inj (by simp) ?_ ?_ hval <;>
      · intro d hd
        obtain ⟨byte, -, rfl⟩ := List.mem_map.mp hd
        exact byte.toNat_lt
  have hlist := List.map_injective_iff.mpr (fun _ _ => UInt8.toNat_inj.mp) hbytes
  exact Vector.toList_inj.mp hlist

section Network

open POWBlockWords

variable {N : Type} {sha256 : List UInt8 → Vector UInt8 32}
  {txs : List (SimpleTransaction UINT256_t A) → UINT256_t} {b b' : POWBlock UINT256_t A}

theorem Named.digest_eq (h : Named (blockSha sha256 txs) b) (h' : Named (blockSha sha256 txs) b')
    (heq : b.block_hash = b'.block_hash) : sha256 (blockHeader b) = sha256 (blockHeader b') := by
  rw [h.block_hash, h'.block_hash] at heq
  exact ofBuffer_inj heq

theorem Named.ext (h : Named (blockSha sha256 txs) b) (h' : Named (blockSha sha256 txs) b')
    (hw : InWords b) (hw' : InWords b') (hheader : blockHeader b = blockHeader b')
    (hlist : b.tx_list = b'.tx_list) (heq : b.block_hash = b'.block_hash) : b = b' := by
  obtain ⟨hnonce, htx, hidx, hprev, htime⟩ := headerBytes_inj hheader
  have hd := h.difficulty.trans h'.difficulty.symm
  have hn := ofNat_inj hw.nonce hw'.nonce hnonce
  have hi := ofNat_inj hw.block_idx hw'.block_idx hidx
  have ht := ofNat_inj hw.timestamp hw'.timestamp htime
  cases b
  cases b'
  simp only at hn hi ht hd htx hprev hlist heq
  subst hn hi ht hd htx hprev hlist heq
  rfl

variable [LinearOrder A] [Zero A] [DecidableEq N] {nbrs : N → List N}
  {c : PoWConfig N UINT256_t A}

theorem eq_or_clash (h : (powSys (blockSha Crypto.sha256 txs) nbrs).Reach c)
    (hb : Minted (blockSha Crypto.sha256 txs) c b) (hb' : Minted (blockSha Crypto.sha256 txs) c b')
    (hw : InWords b) (hw' : InWords b') (heq : b.block_hash = b'.block_hash) :
    b = b' ∨ (b.tx_list ≠ b'.tx_list ∧ txs b.tx_list = txs b'.tx_list) ∨
      Crypto.Clash (blockHeader b) (blockHeader b') := by
  have hn := named_of_minted h hb
  have hn' := named_of_minted h hb'
  by_cases hheader : blockHeader b = blockHeader b'
  · by_cases hlist : b.tx_list = b'.tx_list
    · exact .inl (hn.ext hn' hw hw' hheader hlist heq)
    · obtain ⟨-, htx, -⟩ := headerBytes_inj hheader
      exact .inr (.inl ⟨hlist, (hn.tx_hash.symm.trans htx).trans hn'.tx_hash⟩)
  · have hlen (b : POWBlock UINT256_t A) : (blockHeader b).length < 2 ^ 61 := by
      rw [length_blockHeader]
      decide
    exact .inr (.inr (Crypto.clash_of_sha256_eq (hlen b) (hlen b') hheader (hn.digest_eq hn' heq)))

/-- **Distinct hashes, or a collision**: either the blocks of a network have distinct hashes,
or two of them carry different lists of transactions with one digest, or two calls of
`sha256_transform` made for their headers have one outcome. -/
theorem distinct_or_clash (h : (powSys (blockSha Crypto.sha256 txs) nbrs).Reach c)
    (hw : ∀ b, Minted (blockSha Crypto.sha256 txs) c b → InWords b) :
    DistinctHashes (blockSha Crypto.sha256 txs) c ∨
      ∃ b b', Minted (blockSha Crypto.sha256 txs) c b ∧ Minted (blockSha Crypto.sha256 txs) c b' ∧
        b.block_hash = b'.block_hash ∧
        ((b.tx_list ≠ b'.tx_list ∧ txs b.tx_list = txs b'.tx_list) ∨
          Crypto.Clash (blockHeader b) (blockHeader b')) := by
  by_cases hd : DistinctHashes (blockSha Crypto.sha256 txs) c
  · exact .inl hd
  · right
    simp only [DistinctHashes, not_forall] at hd
    obtain ⟨b, b', hb, hb', heq, hne⟩ := hd
    exact ⟨b, b', hb, hb', heq, (eq_or_clash h hb hb' (hw b hb) (hw b' hb') heq).resolve_left hne⟩

omit [DecidableEq N] in
theorem mem_mintedList {H : Type} [Zero H] {sha : Sha256 H A} {ns : List N} (hns : ∀ n, n ∈ ns)
    {c : PoWConfig N H A} {b : POWBlock H A} (h : Minted sha c b) : b ∈ mintedList sha ns c := by
  rcases h with rfl | ⟨n, hn⟩
  · exact List.mem_cons_self
  · exact List.mem_cons_of_mem _ (List.mem_flatMap.mpr ⟨n, hns n, List.mem_append.mpr hn⟩)

end Network

/-- Lists of transactions are told apart by their lengths. -/
def countTxs (l : List (SimpleTransaction UINT256_t Nat)) : UINT256_t := .ofUInt64 (.ofNat l.length)

/-- Two transactions are generated and mined. -/
def mineOnce : List (Act (Fin 1) (PoWAct UINT256_t Nat)) :=
  [.fire 0 (.txgen 0 1 5 (.ofUInt64 1)), .fire 0 (.txgen 1 0 5 (.ofUInt64 2)),
    .fire 0 (.miningTimer 7 3)]

theorem distinct_or_clash_mineOnce :
    let sha := POWBlockWords.blockSha Crypto.sha256 countTxs
    ∃ c : PoWConfig (Fin 1) UINT256_t Nat, (powSys sha fun _ => []).Reach c ∧
      (c.node 0).queue.length = 1 ∧
      (DistinctHashes sha c ∨ ∃ b b', Minted sha c b ∧ Minted sha c b' ∧
        b.block_hash = b'.block_hash ∧
        ((b.tx_list ≠ b'.tx_list ∧ countTxs b.tx_list = countTxs b'.tx_list) ∨
          Crypto.Clash (blockHeader b) (blockHeader b'))) := by
  intro sha
  have hrun : ((powProtocol sha fun _ : Fin 1 => []).run (fun _ _ => true) mineOnce).map
      (fun c => decide ((c.node 0).queue.length = 1 ∧ ∀ b ∈ mintedList sha [0] c,
        b.nonce < 2 ^ 64 ∧ b.block_idx < 2 ^ 64 ∧ b.timestamp < 2 ^ 64)) = some true := by
    decide +kernel
  obtain ⟨c, hc, hv⟩ := Option.map_eq_some_iff.mp hrun
  obtain ⟨hq, hall⟩ := of_decide_eq_true hv
  have hreach := (run_under _ hc).reach
  refine ⟨c, hreach, hq, distinct_or_clash hreach fun b hb => ?_⟩
  obtain ⟨hn, hi, ht⟩ := hall b (mem_mintedList (by decide) hb)
  exact ⟨hn, hi, ht⟩

end Bleep
