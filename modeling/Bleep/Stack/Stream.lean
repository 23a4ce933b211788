/-
# `Bleep.Stack.Stream` — one direction of one connection, from layer to layer

A message of the protocol from `a` to `b` is first in the data socket of `a`, then
in the network, in the receive buffer of `b`, in a `PeerRecvMsg` and at last in a
`ProtocolRecvMsg`.  `Stream` says that these places together hold the messages of a
queue: the payloads of the events waiting, and those of the messages whose frames
are the bytes in buffer, network and socket.

Each piece of code moves messages from one place to the next and leaves the queue
as it is (`Stream.write`, `Stream.recv`, `waiting_handOver`); sending puts messages
at its end (`Stream.post`), and the protocol takes its first (`Stream.deliver`).
-/
import Bleep.BL1.Connection
import Bleep.Stack.Fabric

namespace Bleep

open Framing BL_SocketLayer_API

variable {P O S X L : Type}

/-- What is known of a message that `a` sends to a neighbour. -/
structure Carried (app : ProtocolLayer P O S X L) (ar : Archive P O) (ads : AddrAd P O) (a : P)
    (msg : Message P O) : Prop where
  src : msg.src = a
  sendable : Sendable ar msg
  listed : msg.type.listed = true
  notify : msg.type ≠ "notifyPeerId"
  addr : msg.type = "ADDR" → (ads.vAddr msg.ptrToObj).isSome = true
  own : msg.type ∉ peerTypes → ∃ x, app.read msg.type msg.ptrToObj = .ok (some x)

/-! ## Events that wait -/

section Waiting

variable [LinearOrder P] (app : ProtocolLayer P O S X L)

/-- The payload of a message of `a` that the layer of peers has handed over. -/
def protocolFrom (a : P) : AsyncEvent P O → Option X
  | .protocolRecvMsg msg => if msg.src = a then app.payload msg else none
  | _ => none

/-- The payload of a message of `a` that the layer of peers has not seen. -/
def peerFrom (a : P) : AsyncEvent P O → Option X
  | .peerRecvMsg src msg => if src = a then app.payload msg else none
  | _ => none

/-- The payloads of the messages of `a` in an event queue, the oldest first: those
handed over are older than the others. -/
def waiting (a : P) (queue : List (AsyncEvent P O)) : List X :=
  queue.filterMap (protocolFrom app a) ++ queue.filterMap (peerFrom app a)

variable {app} {a : P} {queue : List (AsyncEvent P O)} {msg : Message P O}

theorem froms_of_not_isMessage (app : ProtocolLayer P O S X L) (a : P)
    {event : AsyncEvent P O} (h : event.isMessage = false) :
    protocolFrom app a event = none ∧ peerFrom app a event = none := by
  cases event with
  | peerRecvMsg _ _ => cases h
  | protocolRecvMsg _ => cases h
  | _ => exact ⟨rfl, rfl⟩

theorem waiting_push {event : AsyncEvent P O} (h : event.isMessage = false) :
    waiting app a (queue ++ [event]) = waiting app a queue := by
  obtain ⟨hproto, hpeer⟩ := froms_of_not_isMessage app a h
  simp [waiting, hproto, hpeer]

theorem waiting_pop {event : AsyncEvent P O} (h : event.isMessage = false) :
    waiting app a (event :: queue) = waiting app a queue := by
  obtain ⟨hproto, hpeer⟩ := froms_of_not_isMessage app a h
  simp [waiting, hproto, hpeer]

theorem waiting_pop_peer (src : P) (h : app.payload msg = none) :
    waiting app a (.peerRecvMsg src msg :: queue) = waiting app a queue := by
  have hproto : protocolFrom app a (.peerRecvMsg src msg) = none := rfl
  simp [waiting, hproto, peerFrom, h]

/-- The layer of peers hands a message over: it is behind those handed over before,
and in front of those not seen. -/
theorem waiting_handOver :
    waiting app a (queue ++ [.protocolRecvMsg msg]) =
      waiting app a (.peerRecvMsg msg.src msg :: queue) := by
  simp only [waiting, List.filterMap_append, List.filterMap_cons, List.filterMap_nil, protocolFrom,
    peerFrom]
  by_cases hsrc : msg.src = a
  · cases app.payload msg with
    | none => simp [hsrc]
    | some x => simp [hsrc]
  · simp [hsrc]

theorem waiting_pop_protocol {x : X} (h : app.payload msg = some x) :
    waiting app a (.protocolRecvMsg msg :: queue) =
      if a = msg.src then x :: waiting app a queue else waiting app a queue := by
  simp only [waiting, List.filterMap_cons, protocolFrom, peerFrom]
  by_cases hsrc : msg.src = a
  · simp [hsrc, h]
  · simp [hsrc, Ne.symm hsrc]

theorem waiting_arrived {ar : Archive P O} {ads : AddrAd P O} {b : P}
    (sock : Option (SocketPtr P)) {msgs : List (Message P O)}
    (hmsgs : ∀ msg ∈ msgs, Carried app ar ads b msg) :
    waiting app a (queue ++ msgs.map (recvEvent sock)) =
      waiting app a queue ++ if a = b then msgs.filterMap app.payload else [] := by
  have hevent : ∀ msg ∈ msgs, recvEvent sock msg = .peerRecvMsg b msg := by
    intro msg hmsg
    have hc := hmsgs msg hmsg
    rw [recvEvent, if_neg hc.notify, hc.src]
  have hproto : (msgs.map (recvEvent sock)).filterMap (protocolFrom app a) = [] := by
    refine List.filterMap_eq_nil_iff.mpr fun event he => ?_
    obtain ⟨msg, hmsg, rfl⟩ := List.mem_map.mp he
    rw [hevent msg hmsg]
    rfl
  have hpeer : (msgs.map (recvEvent sock)).filterMap (peerFrom app a) =
      if a = b then msgs.filterMap app.payload else [] := by
    rw [List.filterMap_map]
    split
    · next hab =>
        refine List.filterMap_congr fun msg hmsg => ?_
        rw [Function.comp_apply, hevent msg hmsg, peerFrom, if_pos hab.symm]
    · next hab =>
        refine List.filterMap_eq_nil_iff.mpr fun msg hmsg => ?_
        rw [Function.comp_apply, hevent msg hmsg, peerFrom, if_neg (Ne.symm hab)]
  rw [waiting, List.filterMap_append, List.filterMap_append, hproto, hpeer,
    List.append_nil, waiting, List.append_assoc]

end Waiting

/-! ## Messages in bytes -/

variable (app : ProtocolLayer P O S X L)

/-- The bytes from `a` in the receive buffer, in the network and in the data socket are
the frames of these messages. -/
structure Transit (ar : Archive P O) (ads : AddrAd P O) (a : P) (buf : List (UInt8 × Conn P))
    (pipe unsent : List UInt8) (msgs : List (Message P O)) : Prop where
  carried : ∀ msg ∈ msgs, Carried app ar ads a msg
  bytes : buf.map Prod.fst ++ (pipe ++ unsent) = msgs.flatMap (frame ar)

namespace Transit

variable {app} {ar : Archive P O} {ads : AddrAd P O} {a : P} {buf : List (UInt8 × Conn P)}
  {pipe unsent : List UInt8} {all : List (Message P O)}

theorem post (h : Transit app ar ads a buf pipe unsent all) {out : List (Message P O)}
    (hout : ∀ msg ∈ out, Carried app ar ads a msg) :
    Transit app ar ads a buf pipe (unsent ++ out.flatMap (frame ar)) (all ++ out) where
  carried msg hmsg := (List.mem_append.mp hmsg).elim (h.carried msg) (hout msg)
  bytes := by
    rw [List.flatMap_append, ← h.bytes]
    simp only [List.append_assoc]

/-- What comes out of the receive buffer are the first of them. -/
theorem recv (h : Transit app ar ads a buf pipe unsent all) {bs : List UInt8} {c : Conn P}
    {msgs : List (Message P O)} {remain : List (UInt8 × Conn P)} (hpre : bs <+: pipe)
    (hd : Drains (parseRound ar Prod.fst) (buf ++ bs.map (·, c)) msgs remain) :
    ∃ later, all = msgs ++ later ∧
      Transit app ar ads a remain (pipe.drop bs.length) unsent later := by
  obtain ⟨rest, rfl⟩ := hpre
  have hread := hd.map (parseRound_map ar Prod.fst)
  rw [Channel.map_tagged] at hread
  have hsplit : (buf.map Prod.fst ++ bs) ++ (rest ++ unsent) = all.flatMap (frame ar) := by
    rw [← h.bytes]
    simp only [List.append_assoc]
  obtain ⟨hmsgs, hremain⟩ :=
    hread.arrived_eq frames_parseRound rfl (fun m hm => (h.carried m hm).sendable) hsplit
  rw [← hmsgs] at hremain
  obtain ⟨later, rfl⟩ : msgs <+: all := hmsgs ▸ arrived_initial _ _ _
  -- the frames of the messages read are the front of the bytes read
  have hfront : (msgs.flatMap (frame ar)).length ≤ (buf.map Prod.fst ++ bs).length := by
    have hcuts := arrived_length (frame ar) (msgs ++ later) (buf.map Prod.fst ++ bs).length
    rwa [← hmsgs] at hcuts
  rw [List.flatMap_append] at hsplit
  refine ⟨later, rfl, fun msg hmsg => h.carried msg (List.mem_append_right _ hmsg), ?_⟩
  have hdrop := congrArg (List.drop (msgs.flatMap (frame ar)).length) hsplit
  rw [List.drop_append_of_le_length hfront, List.drop_left] at hdrop
  rw [hremain, List.drop_left]
  exact hdrop

theorem nil (h : Transit app ar ads a buf [] [] all)
    (hstop : parseRound ar Prod.fst buf = .ok none) : buf = [] := by
  have hread := (Drains.stop hstop).map (parseRound_map ar Prod.fst)
  have hbytes := h.bytes
  rw [List.append_nil, List.append_nil] at hbytes
  obtain ⟨hnone, -⟩ :=
    hread.arrived_eq frames_parseRound rfl (fun m hm => (h.carried m hm).sendable) h.bytes
  rw [hbytes, arrived_all] at hnone
  rw [← hnone] at hbytes
  exact List.map_eq_nil_iff.mp hbytes

end Transit

/-! ## The stream -/

/-- The messages of the queue `chan` from `a`, in the places between the handlers of
the two protocols. -/
structure Stream (ar : Archive P O) (ads : AddrAd P O) (a : P) (buf : List (UInt8 × Conn P))
    (pipe : List UInt8) (s : DataSocket) (waiting chan : List X) : Prop where
  stopped : parseRound ar Prod.fst buf = .ok none
  watched : s.Watched
  msgs : ∃ msgs : List (Message P O), (∀ msg ∈ msgs, Carried app ar ads a msg) ∧
    buf.map Prod.fst ++ (pipe ++ s.unsent) = msgs.flatMap (frame ar) ∧
    chan = waiting ++ msgs.filterMap app.payload

namespace Stream

variable {app} {ar : Archive P O} {ads : AddrAd P O} {a : P} {buf : List (UInt8 × Conn P)}
  {pipe : List UInt8} {s s' : DataSocket} {waiting chan : List X}

theorem post (h : Stream app ar ads a buf pipe s waiting chan) {out : List (Message P O)}
    (hout : ∀ msg ∈ out, Carried app ar ads a msg)
    (hunsent : s'.unsent = s.unsent ++ out.flatMap (frame ar)) (hw : s'.Watched) :
    Stream app ar ads a buf pipe s' waiting (chan ++ out.filterMap app.payload) where
  stopped := h.stopped
  watched := hw
  msgs := by
    obtain ⟨msgs, hmsgs, hbytes, hchan⟩ := h.msgs
    refine ⟨msgs ++ out, fun msg hmsg => ?_, ?_, ?_⟩
    · exact (List.mem_append.mp hmsg).elim (hmsgs msg) (hout msg)
    · rw [hunsent, List.flatMap_append, ← hbytes]
      simp only [List.append_assoc]
    · rw [hchan, List.filterMap_append, List.append_assoc]

theorem write (h : Stream app ar ads a buf pipe s waiting chan) {answers : List Int}
    {out : List UInt8} (hs : s.doSend answers = .ok (out, s')) :
    Stream app ar ads a buf (pipe ++ out) s' waiting chan where
  stopped := h.stopped
  watched := (DataSocket.doSend_ok hs h.watched).2
  msgs := by
    obtain ⟨msgs, hmsgs, hbytes, hchan⟩ := h.msgs
    refine ⟨msgs, hmsgs, ?_, hchan⟩
    rw [List.append_assoc, (DataSocket.doSend_ok hs h.watched).1, hbytes]

/-- What is read can be parsed, since it is what was framed. -/
theorem drains (h : Stream app ar ads a buf pipe s waiting chan) {bs : List UInt8}
    (hpre : bs <+: pipe) (c : Conn P) :
    ∃ msgs remain, Drains (parseRound ar Prod.fst) (buf ++ bs.map (·, c)) msgs remain := by
  obtain ⟨msgs, hmsgs, hbytes, -⟩ := h.msgs
  obtain ⟨rest, rfl⟩ := hpre
  have hall : (buf.map Prod.fst ++ bs) ++ (rest ++ s.unsent) = msgs.flatMap (frame ar) := by
    rw [← hbytes]
    simp only [List.append_assoc]
  obtain ⟨q, hq⟩ := drains_arrived frames_parseRound rfl (fun m hm => (hmsgs m hm).sendable) hall
    fun msg hmsg => by
      rw [refuse, if_pos (hmsgs msg ((arrived_initial _ _ _).subset hmsg)).listed]
  obtain ⟨remain, hd⟩ := hq.of_map (parseRound_map ar Prod.fst) (Channel.map_tagged _ _ c)
  exact ⟨_, remain, hd⟩

/-- `RecvHandler` takes bytes from the network, and turns what is complete into
events. -/
theorem recv (h : Stream app ar ads a buf pipe s waiting chan) {bs : List UInt8} {c : Conn P}
    {msgs : List (Message P O)} {remain : List (UInt8 × Conn P)} (hpre : bs <+: pipe)
    (hd : Drains (parseRound ar Prod.fst) (buf ++ bs.map (·, c)) msgs remain) :
    (∀ msg ∈ msgs, Carried app ar ads a msg) ∧
      Stream app ar ads a remain (pipe.drop bs.length) s
        (waiting ++ msgs.filterMap app.payload) chan := by
  obtain ⟨all, hall, hbytes, hchan⟩ := h.msgs
  have ht : Transit app ar ads a buf pipe s.unsent all := ⟨hall, hbytes⟩
  obtain ⟨later, rfl, hlater⟩ := ht.recv hpre hd
  refine ⟨fun msg hmsg => hall msg (List.mem_append_left _ hmsg), hd.stops, h.watched, later,
    hlater.carried, hlater.bytes, ?_⟩
  rw [hchan, List.filterMap_append, List.append_assoc]

theorem deliver {x : X} (h : Stream app ar ads a buf pipe s (x :: waiting) chan) :
    ∃ rest, chan = x :: rest ∧ Stream app ar ads a buf pipe s waiting rest := by
  obtain ⟨msgs, hmsgs, hbytes, hchan⟩ := h.msgs
  exact ⟨_, hchan, h.stopped, h.watched, msgs, hmsgs, hbytes, rfl⟩

theorem nil (h : Stream app ar ads a [] [] s [] chan) (hs : s.unsent = []) : chan = [] := by
  obtain ⟨msgs, -, hbytes, hchan⟩ := h.msgs
  rw [hs] at hbytes
  cases msgs with
  | nil => exact hchan
  | cons msg msgs =>
      have hlen := congrArg List.length hbytes
      simp only [List.flatMap_cons, List.length_append, length_frame, List.map_nil,
        List.length_nil] at hlen
      omega

end Stream

/-! ## Ends of connections -/

namespace Links

variable (links : Links P)

theorem far_sock {n m : P} (h : m ∈ links.nbrs n) :
    links.far n (links.sock n m).getFD = some m := by
  unfold far
  cases hf : (links.nbrs n).find? fun x => (links.sock n x).getFD = (links.sock n m).getFD with
  | none => exact absurd (decide_eq_true rfl) (List.find?_eq_none.mp hf m h)
  | some x =>
      have hfd := List.find?_some hf
      exact congrArg some (links.fd_inj (List.mem_of_find?_eq_some hf) h (of_decide_eq_true hfd))

end Links

end Bleep
