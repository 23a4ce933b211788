/-
# `Bleep.BL3.BlkReplies` — how many requests an inventory costs

Any peer may send any block at any time.  After every block the handler asks for
the first hash of its inventory that is still missing, whether the block brought
one or not.  A block that `Fills` a gap leaves one hash less to ask for, any other
costs a request more: `handleBlks_count` counts them, and `getdata_le_iff` says
when they are no more than the hashes of the inventory.
-/
import Bleep.BL3.PoWOpen
import Bleep.BL3.TreeCalls

namespace Bleep

open BlockTree Protocol

variable {N H A : Type}

section Layer

variable [LinearOrder A] [DecidableEq N] [DecidableEq H] [Zero H] {sha : Sha256 H A}
  {p : PoWNode N H A} {nb : List N} {source : N}

theorem recv_of_layer {obj : MessageObject H A} {r : BL_ProtocolLayerPoW H A × Sends N H A}
    (h : p.layer.recvMsgHandler sha nb source obj = .ok r) :
    ∃ p', p.recv sha nb source obj = .ok (p', r.2) ∧ p'.layer = r.1 :=
  ⟨_, bind_ok.mpr ⟨r, h, rfl⟩, rfl⟩

theorem recv_blk_ok (sha : Sha256 H A) (hr : p.layer.blocktree.Rooted) (nb : List N) (source : N)
    (b : POWBlock H A) : ∃ p' out, p.recv sha nb source (.blkBlk b) = .ok (p', out) ∧
      p'.layer.blocktree = (p.layer.accepted b).blocktree := by
  have hL : p.layer.recvMsgHandler sha nb source (.blkBlk b) =
      .ok ((p.layer.afterBlk sha b).continueInv nb source) :=
    BL_ProtocolLayerPoW.recvPOWBlockBlkHandler_eq sha hr nb source b
  obtain ⟨htree, -⟩ := (p.layer.afterBlk sha b).continueInv_frame nb source
  have hu := BL_ProtocolLayerPoW.afterBlk_untouched (L := p.layer) sha b
  obtain ⟨p', hp', hlayer⟩ := recv_of_layer hL
  exact ⟨p', _, hp', by rw [hlayer, htree, hu.blocktree]⟩

end Layer

/-! ## Requests for an inventory -/

section Missing

variable [DecidableEq H]

/-- The block brings a missing block of the list. -/
def Fills (t : BlockTree H A) (hashes : List H) (b : POWBlock H A) : Prop :=
  b.block_hash ∈ hashes ∧ t.containBlock b.block_hash = false ∧
    t.containBlockHash b.prev_block_hash = true

instance (t : BlockTree H A) (hashes : List H) (b : POWBlock H A) :
    Decidable (Fills t hashes b) :=
  inferInstanceAs (Decidable (_ ∧ _ ∧ _))

/-- How many missing blocks it brings. -/
def fill (t : BlockTree H A) (hashes : List H) (b : POWBlock H A) : Nat :=
  if Fills t hashes b then 1 else 0

theorem fill_le_one (t : BlockTree H A) (hashes : List H) (b : POWBlock H A) :
    fill t hashes b ≤ 1 := by
  unfold fill
  split
  · exact Nat.le_refl 1
  · exact Nat.zero_le 1

/-- How many different hashes of the list are missing. -/
def missing (t : BlockTree H A) (hashes : List H) : Nat :=
  hashes.dedup.countP fun k => !t.containBlock k

theorem missing_eq_zero {t : BlockTree H A} {hashes : List H} :
    missing t hashes = 0 ↔ ∀ k ∈ hashes, t.containBlock k = true := by
  rw [missing, List.countP_eq_zero]
  constructor
  · intro h k hk
    simpa using h k (List.mem_dedup.mpr hk)
  · intro h k hk
    simpa using h k (List.mem_dedup.mp hk)

theorem missing_pos_of_find? {t : BlockTree H A} {hashes : List H} {k : H}
    (h : hashes.find? (fun x => !t.containBlock x) = some k) : 0 < missing t hashes := by
  refine Nat.pos_of_ne_zero fun h0 => ?_
  have hk := missing_eq_zero.mp h0 k (List.mem_of_find?_eq_some h)
  have hno := List.find?_some h
  rw [hk] at hno
  cases hno

theorem missing_le (t : BlockTree H A) (hashes : List H) : missing t hashes ≤ hashes.length :=
  List.countP_le_length.trans hashes.dedup_sublist.length_le

theorem countP_flip {l : List H} (hn : l.Nodup) {a : H} (ha : a ∈ l) {f g : H → Bool}
    (hf : f a = true) (hg : g a = false) (he : ∀ x, x ≠ a → g x = f x) :
    l.countP f = 1 + l.countP g := by
  rw [(List.perm_cons_erase ha).countP_eq f, (List.perm_cons_erase ha).countP_eq g,
    List.countP_cons_of_pos hf, List.countP_cons_of_neg (by rw [hg]; decide), Nat.add_comm]
  refine congrArg (1 + ·) (List.countP_congr fun x hx => ?_)
  rw [he x (hn.mem_erase_iff.mp hx).1]

end Missing

/-- How many requests for blocks are sent. -/
def getDatas (out : Sends N H A) : Nat := out.countP fun x => x.2 matches .blkGetData _

theorem getDatas_relay [DecidableEq N] (nb : List N) (source : N) (hashes : List H) :
    getDatas (relay nb source (.blkInv hashes) : Sends N H A) = 0 := by
  refine List.countP_eq_zero.mpr ?_
  rintro ⟨m, o⟩ hx
  obtain ⟨-, -, rfl⟩ := mem_relay.mp hx
  exact nofun

section Count

variable [LinearOrder A] [DecidableEq H]

/-- A block that fills a gap leaves one hash less missing, any other as many. -/
theorem missing_accepted {L : BL_ProtocolLayerPoW H A} (hr : L.blocktree.Rooted)
    (hashes : List H) (b : POWBlock H A) : missing L.blocktree hashes =
      fill L.blocktree hashes b + missing (L.accepted b).blocktree hashes := by
  rw [L.accepted_blocktree b, fill]
  cases hb : L.blocktree.containBlock b.block_hash with
  | true =>
      rw [if_pos rfl, if_neg fun hf => ?_, Nat.zero_add]
      exact nomatch hb.symm.trans hf.2.1
  | false =>
      rw [if_neg Bool.false_ne_true]
      have hnew := containBlock_linkBlock hr b
      split
      · next hf =>
          have hp : L.blocktree.containBlock b.prev_block_hash = true := hr.noNull _ hf.2.2
          refine countP_flip hashes.nodup_dedup (List.mem_dedup.mpr hf.1) (by rw [hb]; rfl) ?_ ?_
          · rw [hnew, hp, decide_eq_true rfl]
            simp
          · intro x hx
            rw [hnew, decide_eq_false hx, Bool.false_and, Bool.or_false]
      · next hf =>
          rw [Nat.zero_add]
          refine List.countP_congr fun x hx => ?_
          have hno : (decide (x = b.block_hash) && L.blocktree.containBlock b.prev_block_hash) =
              false := by
            by_cases hxb : x = b.block_hash
            · cases hp : L.blocktree.containBlock b.prev_block_hash with
              | false => exact Bool.and_false _
              | true =>
                  refine absurd ⟨hxb ▸ List.mem_dedup.mp hx, hb, ?_⟩ hf
                  rw [hr.containBlockHash_eq, hp]
            · rw [decide_eq_false hxb, Bool.false_and]
          rw [hnew, hno, Bool.or_false]

variable [DecidableEq N] [Zero H] {sha : Sha256 H A} {p : PoWNode N H A}

/-- Requests sent, and blocks handled that brought a missing block or did not. -/
structure Tally where
  sent : Nat
  fills : Nat
  others : Nat

/-- A block with its sender, and the neighbors of the moment. -/
structure BlkReply (N H A : Type) where
  neighborIds : List N
  source : N
  blk : POWBlock H A

/-- The node handles blocks, one after another, until it is done with its inventory. -/
def handleBlks (sha : Sha256 H A) (p : PoWNode N H A) :
    List (BlkReply N H A) → Except Fault (PoWNode N H A × Tally)
  | [] => .ok (p, ⟨0, 0, 0⟩)
  | r :: replies =>
      if p.layer.processing then do
        let (p', out) ← p.recv sha r.neighborIds r.source (.blkBlk r.blk)
        let (p'', c) ← handleBlks sha p' replies
        let fills := fill p.layer.blocktree p.layer.processingBlkinv r.blk
        return (p'', ⟨getDatas out + c.sent, fills + c.fills, (1 - fills) + c.others⟩)
      else .ok (p, ⟨0, 0, 0⟩)

theorem recv_blk_processing (sha : Sha256 H A) (hr : p.layer.blocktree.Rooted)
    (hp : p.layer.processing = true) (nb : List N) (source : N) (b : POWBlock H A) :
    ∃ p' out, p.recv sha nb source (.blkBlk b) = .ok (p', out) ∧
      p'.layer.blocktree = (p.layer.accepted b).blocktree ∧
      (p'.layer.processing = true ∧ p'.layer.processingBlkinv = p.layer.processingBlkinv ∧
          getDatas out = 1 ∧
          0 < missing (p.layer.accepted b).blocktree p.layer.processingBlkinv ∨
        p'.layer.processing = false ∧ getDatas out = 0 ∧
          missing (p.layer.accepted b).blocktree p.layer.processingBlkinv = 0) := by
  have hu := BL_ProtocolLayerPoW.afterBlk_untouched (L := p.layer) sha b
  obtain ⟨hproc, hinv, -, -⟩ := p.layer.accepted_frame b
  obtain ⟨p', out, hrecv, htree⟩ := recv_blk_ok sha hr nb source b
  refine ⟨p', out, hrecv, htree, ?_⟩
  cases PoWNode.recv_ok hr hrecv with
  | tx h _ => exact nomatch h
  | blkAlone h => exact nomatch h.symm.trans hp
  | blkNext _ hk =>
      exact .inl ⟨hu.processing.trans (hproc.trans hp), hu.processingBlkinv.trans hinv, rfl,
        missing_pos_of_find? hk⟩
  | blkLast _ hall => exact .inr ⟨rfl, getDatas_relay nb source _, missing_eq_zero.mpr hall⟩

theorem handleBlks_idle (hp : p.layer.processing = false) (replies : List (BlkReply N H A)) :
    handleBlks sha p replies = .ok (p, ⟨0, 0, 0⟩) := by
  cases replies with
  | nil => rfl
  | cons r replies => exact if_neg (by rw [hp]; decide)

/-- **The count.**  The induction is on the blocks; as long as the inventory is in hand
something is missing. -/
theorem handleBlks_count (sha : Sha256 H A) (replies : List (BlkReply N H A)) :
    ∀ {p : PoWNode N H A}, p.layer.blocktree.Rooted → p.layer.processing = true →
      0 < missing p.layer.blocktree p.layer.processingBlkinv →
      ∃ p' c, handleBlks sha p replies = .ok (p', c) ∧
        c.sent + 1 =
          c.others + min (c.fills + 1) (missing p.layer.blocktree p.layer.processingBlkinv) ∧
        (p'.layer.processing = false ↔
          c.fills = missing p.layer.blocktree p.layer.processingBlkinv) := by
  induction replies with
  | nil =>
      intro p _ hp hm
      refine ⟨p, ⟨0, 0, 0⟩, rfl, ?_, ?_⟩
      · show 0 + 1 = 0 + min (0 + 1) _
        omega
      · rw [hp]
        exact iff_of_false nofun hm.ne
  | cons r replies ih =>
      intro p hr hp hm
      obtain ⟨p₁, out, hrecv, htree, hcase⟩ :=
        recv_blk_processing sha hr hp r.neighborIds r.source r.blk
      have hcount := missing_accepted hr p.layer.processingBlkinv r.blk
      have hr₁ := (PoWNode.recv_grows hr hrecv).rooted hr
      have hle := fill_le_one p.layer.blocktree p.layer.processingBlkinv r.blk
      have hstep {p' : PoWNode N H A} {c : Tally} (hc : handleBlks sha p₁ replies = .ok (p', c)) :
          handleBlks sha p (r :: replies) = .ok (p', ⟨getDatas out + c.sent,
            fill p.layer.blocktree p.layer.processingBlkinv r.blk + c.fills,
            (1 - fill p.layer.blocktree p.layer.processingBlkinv r.blk) + c.others⟩) := by
        rw [handleBlks, if_pos hp]
        exact bind_ok.mpr ⟨_, hrecv, bind_ok.mpr ⟨_, hc, rfl⟩⟩
      generalize fill p.layer.blocktree p.layer.processingBlkinv r.blk = d at hcount hle hstep
      rcases hcase with ⟨hp₁, hinv, hone, hpos⟩ | ⟨hp₁, hnone, hzero⟩
      · -- one request more
        obtain ⟨p', c, hc, hsent, hstop⟩ := ih hr₁ hp₁ (by rw [htree, hinv]; exact hpos)
        rw [htree, hinv] at hsent hstop
        refine ⟨p', _, hstep hc, ?_, ?_⟩
        · show getDatas out + c.sent + 1 = 1 - d + c.others + min (d + c.fills + 1) _
          omega
        · rw [hstop]
          show _ ↔ d + c.fills = _
          omega
      · -- the last missing block came
        refine ⟨p₁, _, hstep (handleBlks_idle hp₁ replies), ?_, ?_⟩
        · show getDatas out + 0 + 1 = 1 - d + 0 + min (d + 0 + 1) _
          omega
        · refine iff_of_true hp₁ ?_
          show d + 0 = _
          omega

theorem recv_inv_taken (sha : Sha256 H A) (hr : p.layer.blocktree.Rooted)
    (hp : p.layer.processing = false)
    {hashes : List H} {front : H} (hf : hashes.head? = some front)
    (hk : p.layer.blocktree.containBlockHash front = true) (nb : List N) (source : N) :
    ∃ p₁ out, p.recv sha nb source (.blkInv hashes) = .ok (p₁, out) ∧
      p₁.layer.blocktree = p.layer.blocktree ∧
      (missing p.layer.blocktree hashes = 0 ∧ p₁.layer.processing = false ∧ getDatas out = 0 ∨
        0 < missing p.layer.blocktree hashes ∧ p₁.layer.processing = true ∧
          p₁.layer.processingBlkinv = hashes ∧ getDatas out = 1) := by
  obtain ⟨⟨L, out⟩, hL⟩ := p.layer.recvPOWBlockInvHandler_total hr source hf (.inl hk)
  have hmsg : p.layer.recvMsgHandler sha nb source (.blkInv hashes) = .ok (L, out) := hL
  obtain ⟨p₁, hrecv, -⟩ := recv_of_layer hmsg
  refine ⟨p₁, out, hrecv, ?_⟩
  cases PoWNode.recv_ok hr hrecv with
  | tx h _ => exact nomatch h
  | invBusy h => exact nomatch h.symm.trans hp
  | invUnknown _ hf' hno _ =>
      obtain rfl := Option.some.inj (hf.symm.trans hf')
      exact nomatch hno.symm.trans hk
  | invTaken _ _ _ hk' => exact ⟨rfl, .inr ⟨missing_pos_of_find? hk', rfl, rfl, rfl⟩⟩
  | invKnown _ hall => exact ⟨rfl, .inl ⟨missing_eq_zero.mpr hall, rfl, rfl⟩⟩

/-- **The requests of one inventory** are no more than its hashes if and only if the blocks
that bring nothing are no more than the hashes that need no request; the inventory is done
with when all that was missing has come. -/
theorem getdata_le_iff [Zero A] (h : (openSys sha).Reach p) (hidle : p.layer.processing = false)
    {hashes : List H} {front : H} (hf : hashes.head? = some front)
    (hk : p.layer.blocktree.containBlockHash front = true) (nb : List N) (source : N)
    (replies : List (BlkReply N H A)) :
    ∃ p₁ out p' c, p.recv sha nb source (.blkInv hashes) = .ok (p₁, out) ∧
      handleBlks sha p₁ replies = .ok (p', c) ∧
      (getDatas out + c.sent ≤ hashes.length ↔
        c.others ≤ hashes.length - min (c.fills + 1) (missing p.layer.blocktree hashes)) ∧
      getDatas out + c.sent =
        c.others + min (c.fills + 1) (missing p.layer.blocktree hashes) ∧
      (p'.layer.processing = false ↔ c.fills = missing p.layer.blocktree hashes) := by
  have hr := rooted_of_open h
  have hle := missing_le p.layer.blocktree hashes
  obtain ⟨p₁, out, hrecv, htree, hcase⟩ := recv_inv_taken sha hr hidle hf hk nb source
  rcases hcase with ⟨hzero, hp₁, hnone⟩ | ⟨hpos, hp₁, hinv, hone⟩
  · refine ⟨p₁, out, p₁, _, hrecv, handleBlks_idle hp₁ replies, ?_, ?_, ?_⟩
    · exact iff_of_true (by rw [hnone]; exact Nat.zero_le _) (Nat.zero_le _)
    · rw [hnone, hzero]
      rfl
    · exact iff_of_true hp₁ hzero.symm
  · rw [← htree, ← hinv] at hpos
    obtain ⟨p', c, hc, hsent, hstop⟩ :=
      handleBlks_count sha replies (htree.symm ▸ hr) hp₁ hpos
    rw [htree, hinv] at hsent hstop
    refine ⟨p₁, out, p', c, hrecv, hc, ?_, ?_, hstop⟩
    · omega
    · omega

end Count

/-! ## Runs -/

section Run

/-- An inventory of two hashes, one of which is missing; three times the other block comes,
and there are four requests. -/
theorem getdata_unbounded : ∃ p₁ out p' c,
    (PoWNode.init nonceSha : PoWNode Nat Nat Nat).recv nonceSha [] 1 (.blkInv [1, 2]) =
      .ok (p₁, out) ∧
    handleBlks nonceSha p₁ (List.replicate 3 ⟨[], 1, genesisBlock nonceSha⟩) = .ok (p', c) ∧
    [1, 2].length < getDatas out + c.sent := by
  have hrun : (match (PoWNode.init nonceSha : PoWNode Nat Nat Nat).recv nonceSha [] 1
        (.blkInv [1, 2]) with
      | .ok (p₁, out) =>
          match handleBlks nonceSha p₁ (List.replicate 3 ⟨[], 1, genesisBlock nonceSha⟩) with
          | .ok (_, c) => decide ([1, 2].length < getDatas out + c.sent)
          | .error _ => false
      | .error _ => false) = true := by decide +kernel
  split at hrun
  · next p₁ out hrecv =>
      split at hrun
      · next p' c hc => exact ⟨p₁, out, p', c, hrecv, hc, of_decide_eq_true hrun⟩
      · cases hrun
  · cases hrun

/-- The same inventory, and the missing block comes. -/
theorem getdata_le_iff_answered : ∃ p₁ out p' c,
    (PoWNode.init nonceSha : PoWNode Nat Nat Nat).recv nonceSha [] 1 (.blkInv [1, 2]) =
      .ok (p₁, out) ∧
    handleBlks nonceSha p₁ [⟨[], 1, blockNo 1⟩] = .ok (p', c) ∧
    (getDatas out + c.sent ≤ 2 ↔ c.others ≤ 2 - min (c.fills + 1) 1) ∧
    getDatas out + c.sent = c.others + min (c.fills + 1) 1 ∧
    (p'.layer.processing = false ↔ c.fills = 1) := by
  have hmiss : missing
      (PoWNode.init nonceSha : PoWNode Nat Nat Nat).layer.blocktree [1, 2] = 1 := by
    decide
  have hknown : (PoWNode.init nonceSha : PoWNode Nat Nat Nat).layer.blocktree.containBlockHash 1 =
      true := by decide
  have hstart : (openSys nonceSha).Reach (PoWNode.init nonceSha : PoWNode Nat Nat Nat) := .start rfl
  have hfront : [1, 2].head? = some 1 := rfl
  have h := getdata_le_iff hstart rfl hfront hknown [] 1 [⟨[], 1, blockNo 1⟩]
  rwa [hmiss] at h

end Run

end Bleep
