/-
# `Bleep.BL1.Connection` — messages over one connection

One end of a connection sends, the other receives.  A message is queued in three
buffers, `DoSend` moves any part of what is queued to the network, and
`RecvHandler` reads any part of what is in the network, in pieces of at most
2000 bytes.

`framing_lossless` says what comes out: one event for each message whose frame
has been read to its end, in the order of sending, and in the buffer the rest of
the bytes read.  The invariant behind it (`Channel.Framed`) is that every byte sent
has been read, is in the network or is queued, and that the events are what the
parse loop cuts off the bytes read, *taken at once*: the pieces make no
difference (`Framing.Drains.append`).
-/
import Bleep.BL1.SocketLayer
import Bleep.Lib.TransSys

namespace Bleep

open Framing BL_SocketLayer_API

variable {P O : Type}

/-- A connection: the data socket of the sender, the bytes in the network, and
the receiver.  `sent` and `recvd` record what was sent and what was read. -/
structure Channel (P O : Type) where
  sock : DataSocket
  pipe : List UInt8
  layer : BL_SocketLayer_API P O
  sent : List (Message P O)
  recvd : List UInt8

inductive ChannelAct (P O : Type) where
  | sendMsgToPeer (msg : Message P O)
  | doSend (answers : List Int)
  | recvHandler (rs : List RecvResult)

namespace Channel

variable (ar : Archive P O) (myPeerId : P) (fd : Int)

/-- What the system calls may return: `send()` and `recv()` do not fail, and
`recv()` reads from the front of what is in the network. -/
def Fits (l : Channel P O) : ChannelAct P O → Prop
  | .sendMsgToPeer _ => True
  | .doSend answers => ∀ n ∈ answers, 0 ≤ n
  | .recvHandler rs => (∀ r ∈ rs, r ≠ .closed ∧ r ≠ .failed) ∧ received rs <+: l.pipe

instance (l : Channel P O) : DecidablePred l.Fits
  | .sendMsgToPeer _ => inferInstanceAs (Decidable True)
  | .doSend _ => inferInstanceAs (Decidable (∀ n ∈ _, _))
  | .recvHandler _ => inferInstanceAs (Decidable (_ ∧ _))

def run (l : Channel P O) : ChannelAct P O → Except Fault (Channel P O)
  | .sendMsgToPeer msg =>
      let msg := msg.setSource myPeerId
      .ok { l with sock := l.sock.appendMsg ar msg, sent := l.sent ++ [msg] }
  | .doSend answers => do
      let (out, sock) ← l.sock.doSend answers
      return { l with sock, pipe := l.pipe ++ out }
  | .recvHandler rs => do
      let layer ← l.layer.recvHandler ar fd rs
      return { l with
        layer
        pipe := l.pipe.drop (received rs).length
        recvd := l.recvd ++ received rs }

/-- Nothing has been sent, and the receiver has a data socket. -/
structure Start (l : Channel P O) : Prop where
  sock : l.sock = .new
  pipe : l.pipe = []
  sent : l.sent = []
  recvd : l.recvd = []
  owner : (l.layer.owner fd).isSome = true
  recvBytes : l.layer.recvBytes fd = []
  eventQueue : l.layer.eventQueue = []

/-- All interleavings of sending, writing and reading. -/
def sys : TransSys (Channel P O) (ChannelAct P O) where
  init := Start fd
  step l a l' := l.Fits a ∧ l.run ar myPeerId fd a = .ok l'

/-- The assumption on what is sent. -/
def Sends (_l : Channel P O) : ChannelAct P O → Prop
  | .sendMsgToPeer msg => Sendable ar (msg.setSource myPeerId)
  | _ => True

/-- The messages whose frames have been read to their ends. -/
def complete (l : Channel P O) : List (Message P O) := arrived (frame ar) l.sent l.recvd.length

/-! ## The invariant -/

/-- Every byte is in one place, and the events are those of the bytes read. -/
structure Framed (l : Channel P O) : Prop where
  sendable : ∀ msg ∈ l.sent, Sendable ar msg
  bytes : l.recvd ++ (l.pipe ++ l.sock.unsent) = l.sent.flatMap (frame ar)
  watched : l.sock.Watched
  owner : (l.layer.owner fd).isSome = true
  drained : ∃ msgs, Drains (parseRound ar id) l.recvd msgs ((l.layer.recvBytes fd).map Prod.fst) ∧
    l.layer.eventQueue = msgs.map (recvEvent (l.layer.getDataSocket fd))

variable {ar myPeerId fd} {l l' : Channel P O}

theorem framed_of_start (h : l.Start fd) : l.Framed ar fd where
  sendable := by
    intro msg hmsg
    rw [h.sent] at hmsg
    exact nomatch hmsg
  bytes := by
    rw [h.recvd, h.pipe, h.sock, h.sent]
    rfl
  watched := h.sock ▸ DataSocket.watched_new
  owner := h.owner
  drained := by
    refine ⟨[], ?_, h.eventQueue⟩
    rw [h.recvd, h.recvBytes]
    exact .stop rfl

theorem map_tagged (s : List (UInt8 × Conn P)) (bs : List UInt8) (c : Conn P) :
    (s ++ bs.map (·, c)).map Prod.fst = s.map Prod.fst ++ bs := by
  rw [List.map_append, List.map_map]
  exact congrArg _ (List.map_id _)

/-- What was read before and what is read now parse as one. -/
theorem Framed.recv {rs : List RecvResult} {c : Conn P} {msgs : List (Message P O)}
    {remain : List (UInt8 × Conn P)} {layer : BL_SocketLayer_API P O} (h : l.Framed ar fd)
    (hd : Drains (parseRound ar Prod.fst)
      (l.layer.recvBytes fd ++ (received rs).map (·, c)) msgs remain)
    (hlayer : layer = { l.layer with
      eventQueue := l.layer.eventQueue ++ msgs.map (recvEvent (l.layer.getDataSocket fd))
      recvBuffManager := layer.recvBuffManager })
    (hremain : layer.recvBytes fd = remain) :
    ∃ msgs', Drains (parseRound ar id) (l.recvd ++ received rs) msgs'
        ((layer.recvBytes fd).map Prod.fst) ∧
      layer.eventQueue = msgs'.map (recvEvent (layer.getDataSocket fd)) := by
  obtain ⟨before, hbefore, hqueue⟩ := h.drained
  have hbytes := hd.map (parseRound_map ar Prod.fst)
  rw [map_tagged] at hbytes
  refine ⟨before ++ msgs, ?_, ?_⟩
  · rw [hremain]
    exact hbefore.append (incremental_parseRound ar id) hbytes
  · rw [hlayer, hqueue, List.map_append]
    rfl

/-- **One step** keeps the invariant. -/
theorem framed_step {a : ChannelAct P O} (h : l.Framed ar fd) (hs : l.Sends ar myPeerId a)
    (hfit : l.Fits a) (hrun : l.run ar myPeerId fd a = .ok l') : l'.Framed ar fd := by
  cases a with
  | sendMsgToPeer msg =>
      obtain rfl := Except.ok.inj hrun
      exact
        { sendable := by
            intro m hm
            rcases List.mem_append.mp hm with hm | hm
            · exact h.sendable m hm
            · exact List.mem_singleton.mp hm ▸ hs
          bytes := by
            change l.recvd ++ (l.pipe ++ (l.sock.appendMsg ar _).unsent) = _
            rw [DataSocket.unsent_appendMsg, List.flatMap_append, ← h.bytes, List.flatMap_singleton]
            simp only [List.append_assoc]
          watched := DataSocket.watched_appendToSendBuff _ _
          owner := h.owner
          drained := h.drained }
  | doSend answers =>
      obtain ⟨⟨out, sock⟩, hsend, hrun⟩ := bind_ok.mp hrun
      obtain rfl := Except.ok.inj hrun
      obtain ⟨hout, hwatched⟩ := DataSocket.doSend_ok hsend h.watched
      exact
        { sendable := h.sendable
          bytes := by
            change l.recvd ++ (l.pipe ++ out ++ sock.unsent) = _
            rw [List.append_assoc, hout, h.bytes]
          watched := hwatched
          owner := h.owner
          drained := h.drained }
  | recvHandler rs =>
      obtain ⟨layer, hrecv, hrun⟩ := bind_ok.mp hrun
      obtain rfl := Except.ok.inj hrun
      obtain ⟨hopen, hpipe⟩ := hfit
      obtain ⟨c, hc, ⟨hclosed, -, -⟩ | ⟨-, msgs, remain, hd, hlayer, hbytes⟩⟩ :=
        recvHandler_ok _ hrecv
      · exact absurd rfl (hopen _ (mem_of_seesClosed hclosed)).1
      · exact
          { sendable := h.sendable
            bytes := by
              obtain ⟨t, ht⟩ := hpipe
              change l.recvd ++ received rs ++
                (l.pipe.drop (received rs).length ++ l.sock.unsent) = _
              rw [← h.bytes, ← ht, List.drop_left]
              simp only [List.append_assoc]
            watched := h.watched
            owner := by
              change (layer.owner fd).isSome = true
              rw [hlayer]
              exact h.owner
            drained := h.recv hd hlayer ((hbytes fd).trans (if_pos rfl)) }

theorem framed_of_under (h : (sys ar myPeerId fd).Under (Sends ar myPeerId) l) :
    l.Framed ar fd := by
  refine h.invariant (fun _ => framed_of_start) ?_
  intro l a l' _ hl hsend hstep
  exact framed_step hl hsend hstep.1 hstep.2

/-! ## What comes out -/

theorem Framed.drained_eq (h : l.Framed ar fd) :
    l.layer.eventQueue = (l.complete ar).map (recvEvent (l.layer.getDataSocket fd)) ∧
      (l.layer.recvBytes fd).map Prod.fst =
        l.recvd.drop ((l.complete ar).flatMap (frame ar)).length := by
  obtain ⟨msgs, hd, hqueue⟩ := h.drained
  obtain ⟨hmsgs, hrest⟩ := hd.arrived_eq frames_parseRound rfl h.sendable h.bytes
  exact ⟨by rw [hqueue, hmsgs, complete], hrest⟩

/-- The process goes on, unless a message of a type `RecvHandler` does not list
has come in whole. -/
theorem Framed.run_total {a : ChannelAct P O} (h : l.Framed ar fd) (hfit : l.Fits a)
    (hlisted : ∀ msg ∈ l.sent, msg.type.listed = true) : ∃ l', l.run ar myPeerId fd a = .ok l' := by
  cases a with
  | sendMsgToPeer msg => exact ⟨_, rfl⟩
  | doSend answers =>
      obtain ⟨r, hr⟩ := l.sock.doSend_total hfit
      refine ⟨{ l with sock := r.2, pipe := l.pipe ++ r.1 }, ?_⟩
      simp only [run, hr]
      rfl
  | recvHandler rs =>
      obtain ⟨hopen, t, ht⟩ := hfit
      obtain ⟨c, hc⟩ := Option.isSome_iff_exists.mp h.owner
      obtain ⟨before, hbefore, -⟩ := h.drained
      have hbytes :
          (l.recvd ++ received rs) ++ (t ++ l.sock.unsent) = l.sent.flatMap (frame ar) := by
        rw [← h.bytes, ← ht]
        simp only [List.append_assoc]
      obtain ⟨q, hq⟩ := drains_arrived frames_parseRound rfl h.sendable hbytes fun msg hmsg => by
        rw [refuse, if_pos (hlisted msg ((arrived_initial _ _ _).subset hmsg))]
      -- the bytes there and those read now are the second piece
      obtain ⟨msgs, -, hd⟩ := hbefore.split (incremental_parseRound ar id) hq
      obtain ⟨remain, hd⟩ := hd.of_map (parseRound_map ar Prod.fst) (map_tagged _ _ c)
      obtain ⟨layer, hlayer⟩ := recvHandler_total _ hc hopen hd
      refine ⟨{ l with
        layer, pipe := l.pipe.drop (received rs).length, recvd := l.recvd ++ received rs }, ?_⟩
      simp only [run, hlayer]
      rfl

/-- **Framing is lossless.**  In every state of every interleaving the events are
those of the messages whose frames have been read to their ends, each once and
in order, the buffer holds what has been read behind them, and the watcher of the
sender asks for write events exactly if something is queued.  The receiver goes
on as long as only types it lists are sent. -/
theorem framing_lossless (h : (sys ar myPeerId fd).Under (Sends ar myPeerId) l) :
    l.layer.eventQueue = (l.complete ar).map (recvEvent (l.layer.getDataSocket fd)) ∧
      (l.layer.recvBytes fd).map Prod.fst =
        l.recvd.drop ((l.complete ar).flatMap (frame ar)).length ∧
      l.recvd ++ (l.pipe ++ l.sock.unsent) = l.sent.flatMap (frame ar) ∧
      (l.sock.writable = true ↔ l.sock.sendBuff ≠ []) ∧
      ((∀ msg ∈ l.sent, msg.type.listed = true) →
        ∀ a, l.Fits a → ∃ l', l.run ar myPeerId fd a = .ok l') := by
  have hl := framed_of_under h
  obtain ⟨hqueue, hrest⟩ := hl.drained_eq
  exact ⟨hqueue, hrest, hl.bytes, hl.watched, fun hlisted _ hfit => hl.run_total hfit hlisted⟩

/-! ## A run -/

section Run

/-- An archive for messages without an object and without an id. -/
def asciiArchive : Archive UInt8 Unit where
  serialize msg := msg.src :: msg.dest :: msg.type.toList.map fun c => UInt8.ofNat c.toNat
  deserialize
    | src :: dest :: type => some (some
        { src, dest, type := String.ofList (type.map fun b => Char.ofNat b.toNat),
          ptrToObj := none, messageId := "" })
    | _ => none

def asciiMsg (type : MessageType) : Message UInt8 Unit := .make 1 2 type ""

/-- A receiver that has accepted descriptor 5. -/
def acceptedFive : Channel UInt8 Unit where
  sock := .new
  pipe := []
  layer := acceptHandler .init [5]
  sent := []
  recvd := []

theorem start_acceptedFive : acceptedFive.Start 5 := by
  refine ⟨rfl, rfl, rfl, rfl, ?_, rfl, rfl⟩
  decide

/-- Two messages: the second is queued while the first is half written, the first
piece read ends in the length field, and the last one in the second magic. -/
def twoMessages : List (ChannelAct UInt8 Unit) :=
  let first := frame asciiArchive (asciiMsg "notifyPeerId")
  let second := frame asciiArchive (asciiMsg "PING")
  [.sendMsgToPeer (asciiMsg "notifyPeerId"), .doSend [8, 4, 1], .sendMsgToPeer (asciiMsg "PING"),
    .recvHandler [.data (first.take 10) (by decide +kernel)], .doSend [13, 5],
    .recvHandler [.data (first.drop 10 ++ second.take 3) (by decide +kernel), .again]]

def nextChecked (l : Channel UInt8 Unit) (a : ChannelAct UInt8 Unit) :
    Option (Channel UInt8 Unit) :=
  if l.Fits a then (l.run asciiArchive 1 5 a).toOption else none

theorem step_of_nextChecked {l l' : Channel UInt8 Unit} {a : ChannelAct UInt8 Unit}
    (h : nextChecked l a = some l') : (sys asciiArchive 1 5).step l a l' := by
  unfold nextChecked at h
  split at h
  · next hfit =>
      refine ⟨hfit, ?_⟩
      cases hr : l.run asciiArchive 1 5 a with
      | error e => exact nomatch hr ▸ h
      | ok l'' =>
          rw [hr] at h
          exact congrArg _ (Option.some.inj h)
  · exact nomatch h

def sendsCheck (_l : Channel UInt8 Unit) : ChannelAct UInt8 Unit → Bool
  | .sendMsgToPeer msg =>
      let msg := msg.setSource 1
      asciiArchive.deserialize (asciiArchive.serialize msg) = some (some msg) &&
        decide (0 < (asciiArchive.serialize msg).length ∧
          (asciiArchive.serialize msg).length < 2 ^ 31)
  | _ => true

theorem sends_of_check {l : Channel UInt8 Unit} {a : ChannelAct UInt8 Unit}
    (h : sendsCheck l a = true) :
    l.Sends asciiArchive 1 a := by
  cases a with
  | sendMsgToPeer msg =>
      obtain ⟨hread, hsize⟩ := Bool.and_eq_true_iff.mp h
      obtain ⟨hpos, hlt⟩ := of_decide_eq_true hsize
      have hfaithful : asciiArchive.deserialize (asciiArchive.serialize (msg.setSource 1)) =
          some (some (msg.setSource 1)) := of_decide_eq_true hread
      exact ⟨hfaithful, hpos, hlt⟩
  | doSend _ => trivial
  | recvHandler _ => trivial

/-- After `twoMessages` the first message is an event and the buffer holds `BLE`. -/
theorem framing_lossless_twoMessages :
    ∃ l, (sys asciiArchive 1 5).Under (Sends asciiArchive 1) l ∧
      l.layer.eventQueue =
        [.peerRecvNotifyPeerId 1
          (some { obj := 1, conn := { id := 0, fd := 5, opener := none } })] ∧
      (l.layer.recvBytes 5).map Prod.fst = [66, 76, 69] ∧ l.sock.writable = true := by
  have hrun : (TransSys.exec nextChecked sendsCheck acceptedFive twoMessages).map
      (fun l : Channel UInt8 Unit => decide (l.complete asciiArchive = [asciiMsg "notifyPeerId"] ∧
        l.layer.getDataSocket 5 = some { obj := 1, conn := { id := 0, fd := 5, opener := none } } ∧
        l.recvd.drop ((l.complete asciiArchive).flatMap (frame asciiArchive)).length =
          [66, 76, 69] ∧ l.sock.sendBuff ≠ [])) = some true := by decide +kernel
  obtain ⟨l, hl, hv⟩ := Option.map_eq_some_iff.mp hrun
  obtain ⟨hcomplete, hsock, hrest, hbuff⟩ := of_decide_eq_true hv
  have hu := (TransSys.exec_under nextChecked sendsCheck (fun _ _ _ => step_of_nextChecked) _
    (.start start_acceptedFive) hl).mono fun _ _ _ hc => sends_of_check hc
  obtain ⟨hqueue, hbytes, -, hwatch, -⟩ := framing_lossless hu
  refine ⟨l, hu, ?_, hbytes.trans hrest, hwatch.mpr hbuff⟩
  rw [hqueue, hcomplete, hsock]
  rfl

end Run

end Channel

end Bleep
