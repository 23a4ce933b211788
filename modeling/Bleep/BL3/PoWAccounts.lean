/-
# `Bleep.BL3.PoWAccounts` — what a node on its own has generated and mined

A node without peers moves transactions from the generator to the pool and from
the pool into its blocks.  Three counters should agree: the number generated is
the number pending plus the number mined, and the next block index is one more
than the number of mined blocks (`Accounts`).

The generator counts what it drew, the pool what it took in, and a block takes
with it the transactions that were frozen into its candidate.  So the books stay
balanced over a step exactly if what is drawn is not pending, and a mined block
that is handled extends the tip with transactions that are all still pending
(`accounts_fire_iff`).  A run can break the second: after a block is mined and
before its event is handled the generator restarts the miner on the same
transactions (`accounts_off`).
-/
import Bleep.BL3.PoWMining
import Bleep.BL3.PoWOpen

namespace Bleep

open BlockTree SimpleTransactionId

variable {N H A : Type} [DecidableEq H]

theorem treeheight_linkBlock_iff {t : BlockTree H A} (hr : t.Rooted) {b : POWBlock H A}
    (hb : PoWNode.Belated t b) :
    (t.linkBlock b).treeheight = t.treeheight + 1 ↔ b.prev_block_hash = t.lasthash := by
  rcases t.linkBlock_cases b with ⟨hno, he⟩ | ⟨-, -, -, htip⟩
  · constructor
    · intro h
      rw [he] at h
      omega
    · intro h
      rw [hr.containBlockHash_eq, h, hr.tip] at hno
      exact nomatch hno
  · rcases htip with ⟨hl, -, hh⟩ | ⟨hl, hi, -, -⟩ | ⟨hl, -, -, hh⟩
    · exact ⟨fun _ => hl.symm, fun _ => hh⟩
    · rcases hb with hb | hb
      · exact absurd hb.1.symm hl
      · omega
    · refine ⟨fun h => ?_, fun h => absurd h.symm hl⟩
      omega

variable [LinearOrder A]

/-- A node without peers. -/
def soloSys [Zero H] [Zero A] [DecidableEq N] (sha : Sha256 H A) :
    TransSys (PoWNode N H A) (PoWAct H A) where
  init p := p = .init sha
  step p l p' := ∃ out, p.fire sha [] l = some (.ok (p', out))

namespace PoWNode

/-- The books balance: `GetTxGeneratedNum` against `GetPendingTxNum` and the
blocks of `_blkPool`, `GetNextBlockIdx` against `GetBlockPoolSize`. -/
def Accounts (p : PoWNode N H A) : Prop :=
  p.layer.txGenNum =
      p.layer.txPool.getPendingTxNum + (p.layer.blkPool.map fun b => b.tx_list.length).sum ∧
    p.layer.blocktree.getNextBlockIdx = p.layer.blkPool.length + 1

/-- A transaction that is drawn is not pending; a mined block that is handled
extends the tip, and its transactions are pending. -/
def Counted (p : PoWNode N H A) : PoWAct H A → Prop
  | .txgen sid rid a hash => p.layer.txPool.containTx ⟨sid, rid, a, hash⟩ = false
  | .blockMiningComplete => ∀ b ∈ p.queue.head?,
      b.prev_block_hash = p.layer.blocktree.lasthash ∧
        ∀ x ∈ b.txids, p.layer.txPool.containTx x = true
  | _ => True

variable {p : PoWNode N H A}

/-! ## One step -/

/-- The handled block takes all its transactions out of the pool, and raises the
height, exactly if the books balance afterwards. -/
theorem accounts_completed_iff (h : Accounts p) (hr : p.layer.blocktree.Rooted)
    {b : POWBlock H A} {queue : List (POWBlock H A)} (hb : Frozen p.layer.blocktree b) :
    Accounts ({ p with layer := p.layer.completed b, queue } : PoWNode N H A) ↔
      b.prev_block_hash = p.layer.blocktree.lasthash ∧
        ∀ x ∈ b.txids, p.layer.txPool.containTx x = true := by
  obtain ⟨hgen, hidx⟩ := h
  have hpool := p.layer.txPool.getPendingTxNum_removeTxs hb.distinct
  have hlen : b.txids.length = b.tx_list.length := List.length_map _
  rw [← treeheight_linkBlock_iff hr hb.belated, ← List.countP_eq_length]
  simp only [Accounts, BL_ProtocolLayerPoW.completed, List.map_append, List.sum_append,
    List.map_cons, List.map_nil, List.sum_cons, List.sum_nil, List.length_append,
    List.length_cons, List.length_nil, getNextBlockIdx] at hgen hidx ⊢
  show p.layer.txGenNum = (p.layer.txPool.removeTxs b.txids).getPendingTxNum + _ ∧ _ ↔ _
  constructor
  · rintro ⟨h1, h2⟩
    exact ⟨by omega, by omega⟩
  · rintro ⟨h1, h2⟩
    exact ⟨by omega, by omega⟩

variable [Zero H] {sha : Sha256 H A} {p' : PoWNode N H A} {out : Sends N H A} {nb : List N}

/-- **The books balance after a step exactly if the step is counted.** -/
theorem accounts_fire_iff (hok : FrozenOK p) (h : Accounts p) (hr : p.layer.blocktree.Rooted)
    {l : PoWAct H A} (hf : p.fire sha nb l = some (.ok (p', out))) :
    Accounts p' ↔ p.Counted l := by
  cases l with
  | txgen sid rid a hash =>
      obtain ⟨rfl, -⟩ := Prod.mk.inj (Except.ok.inj (Option.some.inj hf))
      have hchain := p.layer.txgentimerCallback_sameChain sha (.make sid rid a hash)
      have hnum := p.layer.txgentimerCallback_txGenNum sha (.make sid rid a hash)
      have hpool := p.layer.txgentimerCallback_txPool sha (.make sid rid a hash)
      obtain ⟨hgen, hidx⟩ := h
      show _ ∧ _ ↔ p.layer.txPool.containTx (SimpleTransaction.make sid rid a hash).getId = false
      rw [hnum, hpool, hchain.blkPool, hchain.blocktree]
      cases hc : p.layer.txPool.containTx (SimpleTransaction.make sid rid a hash).getId with
      | true =>
          simp only [if_true]
          refine ⟨fun h => ?_, nofun⟩
          omega
      | false =>
          simp only [Bool.false_eq_true, if_false, TxPool.getPendingTxNum_addTx _ hc]
          refine ⟨fun _ => trivial, fun _ => ⟨?_, hidx⟩⟩
          omega
  | txbroadcast =>
      simp only [PoWNode.fire, Option.some.injEq, Except.ok.injEq, Prod.mk.injEq] at hf
      obtain ⟨rfl, -⟩ := hf
      refine ⟨fun _ => trivial, fun _ => ⟨?_, h.2⟩⟩
      rw [BL_ProtocolLayerPoW.txPool, TxGossipProtocol.txbroadcasttimerCallback_txPool]
      exact h.1
  | miningTimer nonce timestamp =>
      obtain ⟨b, hmine, -⟩ := fire_miningTimer hf
      refine ⟨fun _ => trivial, fun _ => ?_⟩
      rw [Accounts, hmine.layer]
      exact h
  | blockMiningComplete =>
      obtain ⟨b, queue, hq, rfl, -⟩ := fire_blockMiningComplete hr hf
      rw [accounts_completed_iff h hr (hok.queue b (hq ▸ List.mem_cons_self))]
      simp only [Counted, hq, List.head?_cons, Option.mem_some_iff, forall_eq']

end PoWNode

/-! ## Runs -/

variable [DecidableEq N] [Zero H] [Zero A] {sha : Sha256 H A} {p : PoWNode N H A}

theorem rooted_of_solo {C : PoWNode N H A → PoWAct H A → Prop} (h : (soloSys sha).Under C p) :
    p.layer.blocktree.Rooted := by
  refine h.invariant (P := fun p => p.layer.blocktree.Rooted) ?_ ?_
  · rintro p rfl
    exact rooted_init sha
  · rintro p l p' _ hr _ ⟨out, hf⟩
    exact (PoWNode.fire_grows hr hf).rooted hr

theorem frozenOK_of_solo {C : PoWNode N H A → PoWAct H A → Prop} (h : (soloSys sha).Under C p) :
    PoWNode.FrozenOK p := by
  refine h.invariant (P := PoWNode.FrozenOK) ?_ ?_
  · rintro p rfl
    exact PoWNode.frozenOK_init sha
  · rintro p l p' hu hok _ ⟨out, hf⟩
    exact hok.fire (rooted_of_solo hu) hf

/-- **The books balance** in every state of a run whose steps are all counted. -/
theorem accounts_of_counted (h : (soloSys sha).Under PoWNode.Counted p) : p.Accounts := by
  refine h.invariant (P := PoWNode.Accounts) ?_ ?_
  · rintro p rfl
    refine ⟨?_, rfl⟩
    show 0 = TxPool.empty.getPendingTxNum + 0
    rw [TxPool.getPendingTxNum_empty]
  · rintro p l p' hu h hc ⟨out, hf⟩
    exact (PoWNode.accounts_fire_iff (frozenOK_of_solo hu) h (rooted_of_solo hu) hf).mpr hc

/-- A schedule of a node without peers, run from the start. -/
def soloRun (C : PoWNode Nat Nat Nat → PoWAct Nat Nat → Bool) (acts : List (PoWAct Nat Nat)) :
    Option (PoWNode Nat Nat Nat) :=
  TransSys.exec (fun p l => OpenAct.next nonceSha p (.fire [] l)) C (.init nonceSha) acts

theorem soloRun_under {C : PoWNode Nat Nat Nat → PoWAct Nat Nat → Bool}
    {acts : List (PoWAct Nat Nat)} {p : PoWNode Nat Nat Nat} (h : soloRun C acts = some p) :
    (soloSys nonceSha).Under (fun p l => C p l = true) p :=
  TransSys.exec_under _ _ (fun _ _ _ => OpenAct.step_of_next) acts (.start rfl) h

def countedCheck (p : PoWNode Nat Nat Nat) : PoWAct Nat Nat → Bool
  | .txgen sid rid a hash => !p.layer.txPool.containTx ⟨sid, rid, a, hash⟩
  | .blockMiningComplete => p.queue.all fun b =>
      b.prev_block_hash = p.layer.blocktree.lasthash && b.txids.all p.layer.txPool.containTx
  | _ => true

theorem counted_of_check {p : PoWNode Nat Nat Nat} {l : PoWAct Nat Nat}
    (h : countedCheck p l = true) : p.Counted l := by
  cases l with
  | txgen sid rid a hash =>
      show p.layer.txPool.containTx ⟨sid, rid, a, hash⟩ = false
      simpa [countedCheck] using h
  | blockMiningComplete =>
      intro b hb
      have hall := List.all_eq_true.mp h b (List.mem_of_mem_head? hb)
      obtain ⟨hprev, hin⟩ := Bool.and_eq_true_iff.mp hall
      exact ⟨of_decide_eq_true hprev, List.all_eq_true.mp hin⟩
  | _ => trivial

/-- Two transactions are generated. -/
def generateTwo : List (PoWAct Nat Nat) := [.txgen 0 0 0 0, .txgen 1 0 0 0]

/-- One block is mined of two of the three transactions. -/
theorem accounts_oneBlock : ∃ p : PoWNode Nat Nat Nat,
    (soloSys nonceSha).Under PoWNode.Counted p ∧ p.queue = [] ∧ p.layer.blkPool.length = 1 ∧
      p.layer.txGenNum = 3 ∧ p.layer.blocktree.getNextBlockIdx = 2 := by
  have hrun : ((soloRun countedCheck (generateTwo ++ [.miningTimer 7 0, .blockMiningComplete,
      .txgen 2 0 0 0])).map fun p : PoWNode Nat Nat Nat => decide (p.queue = [] ∧
        p.layer.blkPool.length = 1 ∧ p.layer.txGenNum = 3)) = some true := by decide +kernel
  obtain ⟨p, hp, hv⟩ := Option.map_eq_some_iff.mp hrun
  obtain ⟨hq, hb, hg⟩ := of_decide_eq_true hv
  have hu : (soloSys nonceSha).Under PoWNode.Counted p :=
    (soloRun_under hp).mono fun _ _ _ => counted_of_check
  obtain ⟨-, hidx⟩ := accounts_of_counted hu
  exact ⟨p, hu, hq, hb, hg, hidx.trans (congrArg (· + 1) hb)⟩

/-- A transaction is drawn twice while it is pending. -/
def drawTwice : List (PoWAct Nat Nat) := [.txgen 0 0 0 0, .txgen 0 0 0 0]

/-- Between the end of mining and the handling of its event a transaction is
generated, and the restarted miner mines the same transactions once more. -/
def mineTwice : List (PoWAct Nat Nat) := generateTwo ++
  [.miningTimer 7 0, .txgen 2 0 0 0, .blockMiningComplete, .miningTimer 8 0, .blockMiningComplete]

/-- The books do not balance with the queue drained: two were generated and one
is pending; or three were generated, one is pending and four are in blocks. -/
theorem accounts_off :
    (∃ p : PoWNode Nat Nat Nat, (soloSys nonceSha).Reach p ∧ p.queue = [] ∧
      p.layer.txGenNum ≠ p.layer.txPool.getPendingTxNum +
        (p.layer.blkPool.map fun b => b.tx_list.length).sum) ∧
      ∃ p : PoWNode Nat Nat Nat, (soloSys nonceSha).Reach p ∧ p.queue = [] ∧
        p.layer.txGenNum ≠ p.layer.txPool.getPendingTxNum +
          (p.layer.blkPool.map fun b => b.tx_list.length).sum ∧
        p.layer.blocktree.getNextBlockIdx ≠ p.layer.blkPool.length + 1 := by
  have hdraw : ((soloRun (fun _ _ => true) drawTwice).map fun p : PoWNode Nat Nat Nat =>
      decide (p.queue = [] ∧ p.layer.txGenNum ≠ p.layer.txPool.getPendingTxNum +
        (p.layer.blkPool.map fun b => b.tx_list.length).sum)) = some true := by decide +kernel
  have hmine : ((soloRun (fun _ _ => true) mineTwice).map fun p : PoWNode Nat Nat Nat =>
      decide (p.queue = [] ∧ p.layer.txGenNum ≠ p.layer.txPool.getPendingTxNum +
        (p.layer.blkPool.map fun b => b.tx_list.length).sum ∧
        p.layer.blocktree.getNextBlockIdx ≠ p.layer.blkPool.length + 1)) = some true := by
    decide +kernel
  obtain ⟨p, hp, hv⟩ := Option.map_eq_some_iff.mp hdraw
  obtain ⟨q, hq, hv'⟩ := Option.map_eq_some_iff.mp hmine
  exact ⟨⟨p, (soloRun_under hp).reach, of_decide_eq_true hv⟩,
    q, (soloRun_under hq).reach, of_decide_eq_true hv'⟩

end Bleep
