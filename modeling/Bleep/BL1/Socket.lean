/-
# `Bleep.BL1.Socket` — the sending half of a data socket

`AppendToSendBuff` queues a buffer, `DoSend` offers the queued buffers to
`send()` one after the other.  The kernel takes any part of what it is offered,
and the first buffer it does not take whole ends the call.

`unsent` is what is still to be written.  `DoSend` moves bytes from its front to
the network (`doSend_ok`), and the watcher asks for write events exactly while
something is queued (`Watched`).
-/
import Bleep.Fault

namespace Bleep

/-- A queued buffer: `pos` bytes of `data` are gone. -/
structure WriteMsg where
  data : List UInt8
  pos : Nat
  deriving DecidableEq

namespace WriteMsg

def dpos (msg : WriteMsg) : List UInt8 := msg.data.drop msg.pos

def nbytes (msg : WriteMsg) : Nat := msg.data.length - msg.pos

theorem length_dpos (msg : WriteMsg) : msg.dpos.length = msg.nbytes := List.length_drop

end WriteMsg

/-- A data socket; `writable` says whether its watcher asks for `ev::WRITE`. -/
structure DataSocket where
  sendBuff : List WriteMsg
  writable : Bool
  deriving DecidableEq

namespace DataSocket

/-- A new socket: its watcher asks for `ev::READ` only. -/
def new : DataSocket := { sendBuff := [], writable := false }

def setWritable (s : DataSocket) : DataSocket := { s with writable := true }

def unsetWritable (s : DataSocket) : DataSocket := { s with writable := false }

def appendToSendBuff (s : DataSocket) (buf : List UInt8) : DataSocket :=
  setWritable { s with sendBuff := s.sendBuff ++ [{ data := buf, pos := 0 }] }

/-- The loop of `DoSend`.  `answers` are what `send()` returns, call after call;
it takes no more than it is offered.  The bytes it took come first in the result. -/
def sendLoop (writable : Bool) : List WriteMsg → List Int → Except Fault (List UInt8 × DataSocket)
  | [], _ => .ok ([], { sendBuff := [], writable })
  | msg :: sendBuff, answers =>
      let numbytes := answers.headD 0
      if numbytes < 0 then
        .error .exit
      else
        let taken := msg.dpos.take numbytes.toNat
        let msg := { msg with pos := msg.pos + taken.length }
        if msg.nbytes = 0 then
          if sendBuff.isEmpty then
            .ok (taken, unsetWritable { sendBuff := [], writable })
          else do
            let (out, s) ← sendLoop writable sendBuff answers.tail
            return (taken ++ out, s)
        else
          .ok (taken, { sendBuff := msg :: sendBuff, writable })

def doSend (s : DataSocket) (answers : List Int) : Except Fault (List UInt8 × DataSocket) :=
  let s := if s.sendBuff.isEmpty then s.unsetWritable else s
  sendLoop s.writable s.sendBuff answers

/-! ## What is still to be written -/

def unsent (s : DataSocket) : List UInt8 := s.sendBuff.flatMap WriteMsg.dpos

/-- Write events are asked for while something is queued. -/
def Watched (s : DataSocket) : Prop := s.writable = true ↔ s.sendBuff ≠ []

theorem watched_new : new.Watched := ⟨(nomatch ·), fun h => absurd rfl h⟩

theorem unsent_appendToSendBuff (s : DataSocket) (buf : List UInt8) :
    (s.appendToSendBuff buf).unsent = s.unsent ++ buf := by
  simp [appendToSendBuff, setWritable, unsent, WriteMsg.dpos]

theorem watched_appendToSendBuff (s : DataSocket) (buf : List UInt8) :
    (s.appendToSendBuff buf).Watched := by
  simp [appendToSendBuff, setWritable, Watched]

theorem take_dpos (msg : WriteMsg) (n : Nat) :
    msg.dpos.take n ++ { msg with pos := msg.pos + (msg.dpos.take n).length }.dpos = msg.dpos := by
  have hdrop : { msg with pos := msg.pos + (msg.dpos.take n).length }.dpos =
      msg.dpos.drop (msg.dpos.take n).length := by
    simp only [WriteMsg.dpos, List.drop_drop]
  rw [hdrop, List.length_take]
  rcases Nat.le_total n msg.dpos.length with h | h
  · rw [Nat.min_eq_left h, List.take_append_drop]
  · rw [Nat.min_eq_right h, List.take_of_length_le h, List.drop_length, List.append_nil]

theorem dpos_of_nbytes {msg : WriteMsg} (h : msg.nbytes = 0) : msg.dpos = [] :=
  List.eq_nil_of_length_eq_zero (msg.length_dpos.trans h)

theorem sendLoop_ok {w : Bool} : ∀ {buff : List WriteMsg} {answers : List Int} {out : List UInt8}
    {s : DataSocket}, sendLoop w buff answers = .ok (out, s) → (w = true ↔ buff ≠ []) →
      out ++ s.unsent = buff.flatMap WriteMsg.dpos ∧ s.Watched := by
  intro buff
  induction buff with
  | nil =>
      intro answers out s h hw
      obtain ⟨rfl, rfl⟩ := Prod.mk.inj (Except.ok.inj h)
      exact ⟨rfl, hw⟩
  | cons msg buff ih =>
      intro answers out s h hw
      have htrue : w = true := hw.mpr (List.cons_ne_nil _ _)
      simp only [sendLoop] at h
      split at h
      · exact nomatch h
      · have htake := take_dpos msg (answers.headD 0).toNat
        split at h
        · next hz =>
            rw [dpos_of_nbytes hz, List.append_nil] at htake
            split at h
            · next he =>
                obtain ⟨rfl, rfl⟩ := Prod.mk.inj (Except.ok.inj h)
                rw [List.isEmpty_iff.mp he]
                refine ⟨?_, watched_new⟩
                simp only [htake, unsent, unsetWritable, List.flatMap_nil, List.flatMap_cons]
            · next he =>
                obtain ⟨⟨out', s'⟩, hr, h⟩ := bind_ok.mp h
                obtain ⟨rfl, rfl⟩ := Prod.mk.inj (Except.ok.inj h)
                obtain ⟨hout, hwatch⟩ := ih hr (iff_of_true htrue fun hb => he (by rw [hb]; rfl))
                refine ⟨?_, hwatch⟩
                rw [List.append_assoc, hout, htake, List.flatMap_cons]
        · obtain ⟨rfl, rfl⟩ := Prod.mk.inj (Except.ok.inj h)
          refine ⟨?_, iff_of_true htrue (List.cons_ne_nil _ _)⟩
          simp only [unsent, List.flatMap_cons, ← List.append_assoc, htake]

/-- **`DoSend`** moves bytes from the front of what is unsent to the network. -/
theorem doSend_ok {s s' : DataSocket} {answers : List Int} {out : List UInt8}
    (h : s.doSend answers = .ok (out, s')) (hw : s.Watched) :
    out ++ s'.unsent = s.unsent ∧ s'.Watched := by
  unfold doSend at h
  cases hb : s.sendBuff with
  | nil =>
      rw [hb] at h
      obtain ⟨hout, hwatch⟩ := sendLoop_ok h (by simp [unsetWritable, hb])
      refine ⟨hout.trans ?_, hwatch⟩
      simp [unsetWritable, unsent, hb]
  | cons msg buff =>
      rw [hb] at h
      exact sendLoop_ok h hw

theorem sendLoop_total {w : Bool} : ∀ (buff : List WriteMsg) {answers : List Int},
    (∀ n ∈ answers, 0 ≤ n) → ∃ r, sendLoop w buff answers = .ok r := by
  intro buff
  induction buff with
  | nil => exact fun _ => ⟨_, rfl⟩
  | cons msg buff ih =>
      intro answers hn
      have hhead : ¬ answers.headD 0 < 0 := by
        cases answers with
        | nil => exact Int.lt_irrefl 0
        | cons n _ => exact Int.not_lt.mpr (hn n List.mem_cons_self)
      have htail : ∀ n ∈ answers.tail, 0 ≤ n := fun n h => hn n (List.mem_of_mem_tail h)
      obtain ⟨r, hr⟩ := ih htail
      simp only [sendLoop, if_neg hhead]
      split
      · split
        · exact ⟨_, rfl⟩
        · exact ⟨_, by rw [hr]; rfl⟩
      · exact ⟨_, rfl⟩

theorem doSend_total (s : DataSocket) {answers : List Int} (hn : ∀ n ∈ answers, 0 ≤ n) :
    ∃ r, s.doSend answers = .ok r :=
  sendLoop_total _ hn

end DataSocket

end Bleep
