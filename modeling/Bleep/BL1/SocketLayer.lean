/-
# `Bleep.BL1.SocketLayer` — the socket layer, the event queue and the descriptors under it

`BL_SocketLayer_API` with its `SocketManager` and `RecvBufferManager`, the queue
of `MainEventManager`, and two things that are not in the source because the
machine keeps them: which connection each descriptor stands for (`conns`), and
the data sockets that exist (`objects`, with their contents in `heap`).

A descriptor number is used again after it is closed, a connection is not: a
`Conn` is one life of a descriptor.  Pointers to data sockets carry the
connection their descriptor stood for when the socket was made, and so does
every received byte.  No handler looks at these records.

What the kernel returns is an argument of each handler (`Answers`).
-/
import Bleep.BL1.RecvBuffer
import Bleep.BL1.Socket

namespace Bleep

variable {P O : Type}

/-! ## Connections, pointers, events -/

/-- One life of a descriptor; `opener` is the peer it was connected for, and
`none` if it was accepted. -/
structure Conn (P : Type) where
  id : Nat
  fd : Int
  opener : Option P
  deriving DecidableEq

/-- A `shared_ptr<DataSocket>` that is not null. -/
structure SocketPtr (P : Type) where
  obj : Nat
  conn : Conn P
  deriving DecidableEq

def SocketPtr.getFD (sock : SocketPtr P) : Int := sock.conn.fd

/-- `class AsyncEvent`, with the data each type of event has.  A `SocketRecv` and a
`SocketWrite` have a descriptor only; here they remember the data socket whose
watcher queued them.  `EmuBlockMiningComplete`, which the mining timer posts and only the
protocol layer reads, is not among them: the layers of sockets and peers never see it. -/
inductive AsyncEvent (P O : Type) where
  | socketAccept
  | socketConnect (newlyConnectedSocket : Int)
  | socketConnectFailed (failedSocket : Int) (failedDomain : P)
  | socketRecv (recvSocket : SocketPtr P)
  | socketWrite (writeSocket : SocketPtr P)
  | peerSocketConnect (dataSocket : Option (SocketPtr P))
  | peerSocketConnectFailed (failedDomain : P)
  | peerSocketClose (closedSocket : Option (SocketPtr P))
  | peerRecvMsg (msgSourceId : P) (msg : Message P O)
  | peerRecvNotifyPeerId (neighborId : P) (incomingSocket : Option (SocketPtr P))
  | protocolRecvMsg (protocolMsg : Message P O)
  deriving DecidableEq

/-- The data socket an event keeps alive. -/
def AsyncEvent.socket : AsyncEvent P O → Option (SocketPtr P)
  | peerSocketConnect sock => sock
  | peerSocketClose sock => sock
  | peerRecvNotifyPeerId _ sock => sock
  | _ => none

/-- The data socket an event is about. -/
def AsyncEvent.about : AsyncEvent P O → Option (SocketPtr P)
  | socketRecv sock => some sock
  | socketWrite sock => some sock
  | event => event.socket

/-- Whether `HandleAsyncEvent` gives the event to the socket layer. -/
def AsyncEvent.isLayer1 : AsyncEvent P O → Bool
  | socketAccept | socketConnect _ | socketConnectFailed _ _ | socketRecv _ | socketWrite _ => true
  | _ => false

/-- What one call of `recv()` returns. -/
inductive RecvResult where
  | data (bs : List UInt8) (size : 0 < bs.length ∧ bs.length ≤ 2000)
  | closed
  /-- `EAGAIN` or `EWOULDBLOCK`. -/
  | again
  | failed
  deriving DecidableEq

/-- What the system calls made by one handler return. -/
structure Answers where
  /-- The descriptors `accept()` returns before it fails. -/
  accepted : List Int := []
  /-- Whether `SO_ERROR` is set. -/
  err : Bool := false
  recv : List RecvResult := []
  send : List Int := []
  /-- The value of a member no constructor sets. -/
  uninit : Int := 0
  deriving DecidableEq

/-- The three buffers `SendMsgToPeer` queues for a message. -/
def DataSocket.appendMsg (s : DataSocket) (ar : Archive P O) (msg : Message P O) : DataSocket :=
  ((s.appendToSendBuff BLEEP_MAGIC).appendToSendBuff
    (intBytes (ar.serialize msg).length)).appendToSendBuff (ar.serialize msg)

theorem DataSocket.unsent_appendMsg (s : DataSocket) (ar : Archive P O) (msg : Message P O) :
    (s.appendMsg ar msg).unsent = s.unsent ++ frame ar msg := by
  simp only [appendMsg, unsent_appendToSendBuff, frame, List.append_assoc]

structure BL_SocketLayer_API (P O : Type) where
  eventQueue : List (AsyncEvent P O)
  connectSockets : Int → Option P
  dataSockets : Int → Option (SocketPtr P)
  recvBuffManager : RecvBufferManager (UInt8 × Conn P)
  conns : List (Conn P)
  objects : List (SocketPtr P)
  heap : Nat → DataSocket
  /-- No connection and no data socket has had this number or a larger one. -/
  next : Nat

namespace BL_SocketLayer_API

variable (L : BL_SocketLayer_API P O)

def init : BL_SocketLayer_API P O where
  eventQueue := []
  connectSockets := fun _ => none
  dataSockets := fun _ => none
  recvBuffManager := .init
  conns := []
  objects := []
  heap := fun _ => .new
  next := 0

/-! ## The kernel -/

/-- The connection a descriptor stands for. -/
def owner (fd : Int) : Option (Conn P) := L.conns.find? (·.fd = fd)

/-- The connection made when `fd` is opened next. -/
def nextConn (fd : Int) (opener : Option P) : Conn P := { id := L.next, fd, opener }

/-- A system call opens `fd`. -/
def openFd (fd : Int) (opener : Option P) : BL_SocketLayer_API P O :=
  { L with conns := L.nextConn fd opener :: L.conns, next := L.next + 1 }

/-- `close(fd)`. -/
def closeFd (fd : Int) : BL_SocketLayer_API P O :=
  { L with conns := L.conns.filter (·.fd ≠ fd) }

theorem fd_of_owner {fd : Int} {c : Conn P} (h : L.owner fd = some c) : c.fd = fd := by
  have hp := List.find?_some h
  exact of_decide_eq_true hp

@[simp] theorem owner_openFd (fd x : Int) (opener : Option P) :
    (L.openFd fd opener).owner x = if x = fd then some (L.nextConn fd opener) else L.owner x := by
  simp only [owner, openFd, List.find?_cons, nextConn]
  by_cases h : fd = x
  · simp [h]
  · simp [h, Ne.symm h]

@[simp] theorem owner_closeFd (fd x : Int) :
    (L.closeFd fd).owner x = if x = fd then none else L.owner x := by
  simp only [owner, closeFd, List.find?_filter]
  split
  · next h =>
      subst h
      exact List.find?_eq_none.mpr fun c _ hc => by simp at hc
  · next h =>
      congr 1
      funext c
      by_cases hc : c.fd = x
      · simp [hc, h]
      · simp [hc]

/-! ## `SocketManager` -/

def pushAsyncEvent (event : AsyncEvent P O) : BL_SocketLayer_API P O :=
  { L with eventQueue := L.eventQueue ++ [event] }

def getConnectSocket (fd : Int) : Option P := L.connectSockets fd

def removeConnectSocket (fd : Int) : BL_SocketLayer_API P O :=
  { L with connectSockets := fun x => if x = fd then none else L.connectSockets x }

def getDataSocket (fd : Int) : Option (SocketPtr P) := L.dataSockets fd

def removeDataSocket (fd : Int) : BL_SocketLayer_API P O :=
  { L with dataSockets := fun x => if x = fd then none else L.dataSockets x }

/-- The data socket made next. -/
def nextSocket (c : Conn P) : SocketPtr P := { obj := L.next, conn := c }

def setSocket (obj : Nat) (s : DataSocket) : BL_SocketLayer_API P O :=
  { L with heap := fun x => if x = obj then s else L.heap x }

/-- `CreateDataSocket` on the descriptor of `c`. -/
def createDataSocket (c : Conn P) : BL_SocketLayer_API P O :=
  { L with
    dataSockets := fun x => if x = c.fd then some (L.nextSocket c) else L.dataSockets x
    objects := L.nextSocket c :: L.objects
    heap := fun x => if x = L.next then .new else L.heap x
    next := L.next + 1 }

/-- `~DataSocket`. -/
def destroySocket (sock : SocketPtr P) : Except Fault (BL_SocketLayer_API P O) :=
  if (L.owner sock.getFD).isSome then
    .ok ({ L with objects := L.objects.filter (·.obj ≠ sock.obj) }.closeFd sock.getFD)
  else
    .error (.assertion "error on close data socket")

/-! ## The handlers -/

/-- `AcceptHandler`, for the descriptors `DoAccept` returns. -/
def acceptHandler (L : BL_SocketLayer_API P O) : List Int → BL_SocketLayer_API P O
  | [] => L
  | fd :: fds => acceptHandler ((L.openFd fd none).createDataSocket (L.nextConn fd none)) fds

def connectHandler (fd : Int) (err : Bool) : Except Fault (BL_SocketLayer_API P O) :=
  match L.owner fd with
  -- `getsockopt` fails
  | none => .error .exit
  | some c =>
      if err then
        let L := match L.getConnectSocket fd with
          | some domain => L.pushAsyncEvent (.socketConnectFailed fd domain)
          | none => L
        .ok ((L.removeConnectSocket fd).closeFd fd)
      else
        let L := (L.createDataSocket c).removeConnectSocket fd
        .ok (L.pushAsyncEvent (.peerSocketConnect (L.getDataSocket fd)))

def connectFailedHandler (_fd : Int) (domain : P) : BL_SocketLayer_API P O :=
  L.pushAsyncEvent (.peerSocketConnectFailed domain)

/-- The bytes the loop of `RecvHandler` reads: it goes on after a full buffer. -/
def received : List RecvResult → List UInt8
  | .data bs _ :: rs => if bs.length = 2000 then bs ++ received rs else bs
  | _ => []

/-- Whether the loop gets to the end of the connection. -/
def seesClosed : List RecvResult → Bool
  | .data bs _ :: rs => bs.length = 2000 && seesClosed rs
  | .closed :: _ => true
  | _ => false

/-- The loop of `RecvHandler` around `recv()`; whether it saw the connection
closed comes first. -/
def recvLoop (fd : Int) (c : Conn P) (m : RecvBufferManager (UInt8 × Conn P)) :
    List RecvResult → Except Fault (Bool × RecvBufferManager (UInt8 × Conn P))
  | [] => .ok (false, m)
  | .data bs _ :: rs =>
      let m := m.appendToBuffer fd (bs.map (·, c))
      if bs.length = 2000 then recvLoop fd c m rs else .ok (false, m)
  | .closed :: _ => .ok (true, m)
  | .again :: _ => .ok (false, m)
  | .failed :: _ => .error .exit

/-- The event of a message: `PeerRecvNotifyPeerId`, or `PeerRecvMsg` of any other
type. -/
def recvEvent (sock : Option (SocketPtr P)) (msg : Message P O) : AsyncEvent P O :=
  if msg.type = "notifyPeerId" then .peerRecvNotifyPeerId msg.src sock
  else .peerRecvMsg msg.src msg

/-- The rest of `RecvHandler` when `recv()` has returned 0. -/
def closedWhileRecv (fd : Int) : BL_SocketLayer_API P O :=
  let L := (L.pushAsyncEvent (.peerSocketClose (L.getDataSocket fd))).removeDataSocket fd
  { L with recvBuffManager := L.recvBuffManager.removeRecvBuffer fd }

/-- The part of `RecvHandler` that cuts messages off the buffer. -/
def parseBuffer (ar : Archive P O) (fd : Int) : Except Fault (BL_SocketLayer_API P O) :=
  match L.recvBuffManager.getRecvBuffer fd with
  | none => .ok L
  | some recv_str => do
      let (msgs, remain) ← parseLoop ar Prod.fst recv_str
      return { L with
        eventQueue := L.eventQueue ++ msgs.map (recvEvent (L.getDataSocket fd))
        recvBuffManager := L.recvBuffManager.setRecvBuffer fd (some remain) }

def recvHandler (ar : Archive P O) (fd : Int) (rs : List RecvResult) :
    Except Fault (BL_SocketLayer_API P O) :=
  match L.owner fd with
  -- `recv()` fails
  | none => .error .exit
  | some c => do
      let (closed, recvBuffManager) ← recvLoop fd c L.recvBuffManager rs
      let L := { L with recvBuffManager }
      parseBuffer (if closed then L.closedWhileRecv fd else L) ar fd

def writeHandler (fd : Int) (answers : List Int) : Except Fault (BL_SocketLayer_API P O) :=
  match L.getDataSocket fd with
  | none => .error (.assertion "dataSocket not exist for given (write) event")
  | some sock => do
      let (_, s) ← (L.heap sock.obj).doSend answers
      return L.setSocket sock.obj s

/-- `SwitchAsyncEventHandler` of layer 1. -/
def switchAsyncEventHandler (ar : Archive P O) (k : Answers) :
    AsyncEvent P O → Except Fault (BL_SocketLayer_API P O)
  | .socketAccept => .ok (L.acceptHandler k.accepted)
  | .socketConnect fd => L.connectHandler fd k.err
  | .socketConnectFailed fd domain => .ok (L.connectFailedHandler fd domain)
  | .socketRecv sock => L.recvHandler ar sock.getFD k.recv
  | .socketWrite sock => L.writeHandler sock.getFD k.send
  | _ => .ok L

/-! ## The interface of the layer -/

/-- What `getaddrinfo`, `socket` and `connect` return for a new connection. -/
inductive ConnectAnswer where
  | noAddress
  | refused
  /-- `EINPROGRESS` on this descriptor. -/
  | inProgress (fd : Int)
  deriving DecidableEq

/-- `ConnectSocket`: the connection, or nothing where the source returns `-1`. -/
def connectSocket (dest : P) :
    ConnectAnswer → Except Fault (Option (Conn P) × BL_SocketLayer_API P O)
  | .noAddress => .ok (none, L)
  | .refused => .error (.assertion "connect error returned")
  | .inProgress fd =>
      let c := L.nextConn fd (some dest)
      let L := L.openFd fd (some dest)
      .ok (some c, { L with
        connectSockets := fun x => if x = fd then some dest else L.connectSockets x })

def abandonConnectSocket (fd : Int) : BL_SocketLayer_API P O :=
    (L.removeConnectSocket fd).closeFd fd

def disconnectSocket (fd : Int) : BL_SocketLayer_API P O := L.removeDataSocket fd

/-! ## What `RecvHandler` does -/

/-- The bytes held for a descriptor. -/
def recvBytes (fd : Int) : List (UInt8 × Conn P) := L.recvBuffManager.bytes fd

theorem mem_of_seesClosed {rs : List RecvResult} (h : seesClosed rs = true) : .closed ∈ rs := by
  induction rs with
  | nil => exact nomatch h
  | cons r rs ih =>
      cases r with
      | data bs size =>
          simp only [seesClosed, Bool.and_eq_true] at h
          exact List.mem_cons_of_mem _ (ih h.2)
      | closed => exact List.mem_cons_self
      | again => exact nomatch h
      | failed => exact nomatch h

theorem recvLoop_ok {fd : Int} {c : Conn P} {rs : List RecvResult} {closed : Bool}
    {m m' : RecvBufferManager (UInt8 × Conn P)} (h : recvLoop fd c m rs = .ok (closed, m')) :
    closed = seesClosed rs ∧
      ∀ x, m'.bytes x = if x = fd then m.bytes fd ++ (received rs).map (·, c) else m.bytes x := by
  -- what the loop stops at adds nothing
  have hstop : ∀ {m : RecvBufferManager (UInt8 × Conn P)} (x : Int), m.bytes x =
      if x = fd then m.bytes fd ++ ([] : List UInt8).map (·, c) else m.bytes x := by
    intro m x
    split
    · next hx => rw [hx, List.map_nil, List.append_nil]
    · rfl
  induction rs generalizing m with
  | nil =>
      obtain ⟨rfl, rfl⟩ := Prod.mk.inj (Except.ok.inj h)
      exact ⟨rfl, hstop⟩
  | cons r rs ih =>
      cases r with
      | data bs size =>
          simp only [recvLoop] at h
          split at h
          · next hfull =>
              obtain ⟨hclosed, hbytes⟩ := ih h
              refine ⟨?_, fun x => ?_⟩
              · rw [hclosed, seesClosed, decide_eq_true hfull, Bool.true_and]
              rw [hbytes, m.bytes_appendToBuffer, m.bytes_appendToBuffer, if_pos rfl, received,
                if_pos hfull]
              split
              · rw [List.map_append, List.append_assoc]
              · rfl
          · next hfull =>
              obtain ⟨rfl, rfl⟩ := Prod.mk.inj (Except.ok.inj h)
              refine ⟨?_, fun x => ?_⟩
              · rw [seesClosed, decide_eq_false hfull, Bool.false_and]
              rw [m.bytes_appendToBuffer, received, if_neg hfull]
      | closed =>
          obtain ⟨rfl, rfl⟩ := Prod.mk.inj (Except.ok.inj h)
          exact ⟨rfl, hstop⟩
      | again =>
          obtain ⟨rfl, rfl⟩ := Prod.mk.inj (Except.ok.inj h)
          exact ⟨rfl, hstop⟩
      | failed => exact nomatch h

/-- The loop reads on while the connection is open and `recv()` does not fail. -/
theorem recvLoop_open (fd : Int) (c : Conn P) {rs : List RecvResult}
    (hrs : ∀ r ∈ rs, r ≠ .closed ∧ r ≠ .failed) (m : RecvBufferManager (UInt8 × Conn P)) :
    ∃ m', recvLoop fd c m rs = .ok (false, m') := by
  induction rs generalizing m with
  | nil => exact ⟨m, rfl⟩
  | cons r rs ih =>
      cases r with
      | data bs size =>
          simp only [recvLoop]
          split
          · exact ih (fun r hr => hrs r (List.mem_cons_of_mem _ hr)) _
          · exact ⟨_, rfl⟩
      | closed => exact absurd rfl (hrs _ List.mem_cons_self).1
      | again => exact ⟨m, rfl⟩
      | failed => exact absurd rfl (hrs _ List.mem_cons_self).2

/-- `parseBuffer` drains the buffer of the descriptor, and queues the messages. -/
theorem parseBuffer_ok {ar : Archive P O} {fd : Int} {L' : BL_SocketLayer_API P O}
    (h : L.parseBuffer ar fd = .ok L') : ∃ msgs remain,
      Framing.Drains (parseRound ar Prod.fst) (L.recvBytes fd) msgs remain ∧
      L' = { L with
        eventQueue := L.eventQueue ++ msgs.map (recvEvent (L.getDataSocket fd))
        recvBuffManager := L'.recvBuffManager } ∧
      ∀ x, L'.recvBytes x = if x = fd then remain else L.recvBytes x := by
  unfold parseBuffer at h
  split at h
  · next hb =>
      obtain rfl := Except.ok.inj h
      have hnil : L.recvBytes fd = [] := by
        rw [recvBytes, RecvBufferManager.bytes, hb, Option.getD_none]
      refine ⟨[], [], ?_, by rw [List.map_nil, List.append_nil], fun x => ?_⟩
      · rw [hnil]
        exact .stop rfl
      split
      · next hx => rw [hx, hnil]
      · rfl
  · next recv_str hb =>
      obtain ⟨⟨msgs, remain⟩, hparse, h⟩ := bind_ok.mp h
      obtain rfl := Except.ok.inj h
      refine ⟨msgs, remain, ?_, rfl,
        fun x => L.recvBuffManager.bytes_setRecvBuffer fd x (some remain)⟩
      rw [recvBytes, RecvBufferManager.bytes, hb, Option.getD_some]
      exact (parseLoop_ok ar _).mp hparse

theorem parseBuffer_total {ar : Archive P O} {fd : Int} {msgs : List (Message P O)}
    {remain : List (UInt8 × Conn P)}
    (h : Framing.Drains (parseRound ar Prod.fst) (L.recvBytes fd) msgs remain) :
    ∃ L', L.parseBuffer ar fd = .ok L' := by
  unfold parseBuffer
  split
  · exact ⟨_, rfl⟩
  · next recv_str hb =>
      rw [recvBytes, RecvBufferManager.bytes, hb, Option.getD_some] at h
      rw [(parseLoop_ok ar _).mpr h]
      exact ⟨_, rfl⟩

theorem recvHandler_ok {ar : Archive P O} {fd : Int} {rs : List RecvResult}
    {L' : BL_SocketLayer_API P O} (h : L.recvHandler ar fd rs = .ok L') :
    ∃ c, L.owner fd = some c ∧
      (seesClosed rs = true ∧
          L' = { L.closedWhileRecv fd with recvBuffManager := L'.recvBuffManager } ∧
          (∀ x, L'.recvBytes x = if x = fd then [] else L.recvBytes x) ∨
        seesClosed rs = false ∧ ∃ msgs remain, Framing.Drains (parseRound ar Prod.fst)
            (L.recvBytes fd ++ (received rs).map (·, c)) msgs remain ∧
          L' = { L with
            eventQueue := L.eventQueue ++ msgs.map (recvEvent (L.getDataSocket fd))
            recvBuffManager := L'.recvBuffManager } ∧
          ∀ x, L'.recvBytes x = if x = fd then remain else L.recvBytes x) := by
  unfold recvHandler at h
  split at h
  · exact nomatch h
  · next c hc =>
      obtain ⟨⟨closed, m⟩, hloop, h⟩ := bind_ok.mp h
      obtain ⟨hclosed, hbytes⟩ := recvLoop_ok hloop
      refine ⟨c, hc, ?_⟩
      cases closed with
      | true =>
          simp only [if_true] at h
          -- the buffer is gone, so there is nothing to parse
          have hnone :
              (closedWhileRecv { L with recvBuffManager := m } fd).recvBuffManager.getRecvBuffer
              fd = none := if_pos rfl
          rw [parseBuffer, hnone] at h
          obtain rfl := Except.ok.inj h
          refine .inl ⟨hclosed.symm, rfl, fun x => ?_⟩
          refine (m.bytes_removeRecvBuffer fd x).trans ?_
          split
          · rfl
          · next hx => rw [hbytes, if_neg hx]; rfl
      | false =>
          simp only [Bool.false_eq_true, if_false] at h
          obtain ⟨msgs, remain, hd, hL', hrest⟩ := parseBuffer_ok _ h
          refine .inr ⟨hclosed.symm, msgs, remain, ?_, hL', fun x => ?_⟩
          · have hfd := hbytes fd
            rw [if_pos rfl] at hfd
            exact hfd ▸ hd
          · rw [hrest]
            split
            · rfl
            · next hx => exact (hbytes x).trans (if_neg hx)

theorem recvHandler_total {ar : Archive P O} {fd : Int} {rs : List RecvResult} {c : Conn P}
    {msgs : List (Message P O)} {remain : List (UInt8 × Conn P)} (hc : L.owner fd = some c)
    (hrs : ∀ r ∈ rs, r ≠ .closed ∧ r ≠ .failed)
    (h : Framing.Drains (parseRound ar Prod.fst)
      (L.recvBytes fd ++ (received rs).map (·, c)) msgs remain) :
    ∃ L', L.recvHandler ar fd rs = .ok L' := by
  obtain ⟨m, hloop⟩ := recvLoop_open fd c hrs L.recvBuffManager
  have hbytes := (recvLoop_ok hloop).2 fd
  rw [if_pos rfl] at hbytes
  have hd : Framing.Drains (parseRound ar Prod.fst)
      (recvBytes { L with recvBuffManager := m } fd) msgs remain := by
    change Framing.Drains _ (m.bytes fd) msgs remain
    rw [hbytes]
    exact h
  obtain ⟨L', hL'⟩ := parseBuffer_total _ hd
  refine ⟨L', ?_⟩
  unfold recvHandler
  simp only [hc]
  rw [hloop]
  exact hL'

/-! ## What the handlers do -/

/-- What the handlers of layer 1 can do, `AcceptHandler` apart. -/
inductive LayerStep (ar : Archive P O) (k : Answers) (L : BL_SocketLayer_API P O) :
    AsyncEvent P O → BL_SocketLayer_API P O → Prop
  | connectError {fd : Int} {failed : List (AsyncEvent P O)} :
      (∀ event ∈ failed, ∃ domain, event = .socketConnectFailed fd domain) →
      LayerStep ar k L (.socketConnect fd)
        (abandonConnectSocket { L with eventQueue := L.eventQueue ++ failed } fd)
  | connected {fd : Int} {c : Conn P} : L.owner fd = some c →
      LayerStep ar k L (.socketConnect fd)
        (((L.createDataSocket c).removeConnectSocket fd).pushAsyncEvent
          (.peerSocketConnect (some (L.nextSocket c))))
  | connectFailed {fd : Int} {domain : P} :
      LayerStep ar k L (.socketConnectFailed fd domain)
        (L.pushAsyncEvent (.peerSocketConnectFailed domain))
  | closed {sock : SocketPtr P} {c : Conn P} {L' : BL_SocketLayer_API P O} :
      L.owner sock.getFD = some c → seesClosed k.recv = true →
      L' = { L.closedWhileRecv sock.getFD with recvBuffManager := L'.recvBuffManager } →
      (∀ x, L'.recvBytes x = if x = sock.getFD then [] else L.recvBytes x) →
      LayerStep ar k L (.socketRecv sock) L'
  | read {sock : SocketPtr P} {c : Conn P} {msgs : List (Message P O)}
      {remain : List (UInt8 × Conn P)} {L' : BL_SocketLayer_API P O} :
      L.owner sock.getFD = some c → seesClosed k.recv = false →
      Framing.Drains (parseRound ar Prod.fst)
        (L.recvBytes sock.getFD ++ (received k.recv).map (·, c)) msgs remain →
      L' = { L with
        eventQueue := L.eventQueue ++ msgs.map (recvEvent (L.getDataSocket sock.getFD))
        recvBuffManager := L'.recvBuffManager } →
      (∀ x, L'.recvBytes x = if x = sock.getFD then remain else L.recvBytes x) →
      LayerStep ar k L (.socketRecv sock) L'
  | written {sock own : SocketPtr P} {s : DataSocket} :
      L.getDataSocket sock.getFD = some own →
      LayerStep ar k L (.socketWrite sock) (L.setSocket own.obj s)

theorem switchAsyncEventHandler_ok {ar : Archive P O} {k : Answers} {event : AsyncEvent P O}
    {L' : BL_SocketLayer_API P O} (hl : event.isLayer1 = true) (hne : event ≠ .socketAccept)
    (h : L.switchAsyncEventHandler ar k event = .ok L') : LayerStep ar k L event L' := by
  cases event with
  | socketAccept => exact absurd rfl hne
  | socketConnect fd =>
      simp only [switchAsyncEventHandler, connectHandler] at h
      split at h
      · exact nomatch h
      · next c hc =>
          have hfd := L.fd_of_owner hc
          split at h
          · obtain rfl := Except.ok.inj h
            cases hd : L.getConnectSocket fd with
            | none =>
                have hnone : LayerStep ar k L (.socketConnect fd)
                    (abandonConnectSocket { L with eventQueue := L.eventQueue ++ [] } fd) :=
                  .connectError fun _ h => nomatch h
                rw [List.append_nil] at hnone
                exact hnone
            | some domain =>
                refine .connectError ?_
                intro event he
                exact ⟨domain, List.mem_singleton.mp he⟩
          · obtain rfl := Except.ok.inj h
            have hnew : ((L.createDataSocket c).removeConnectSocket fd).getDataSocket fd =
                some (L.nextSocket c) := if_pos hfd.symm
            rw [hnew]
            exact .connected hc
  | socketConnectFailed fd domain =>
      obtain rfl := Except.ok.inj h
      exact .connectFailed
  | socketRecv sock =>
      obtain ⟨c, hc, ⟨hclosed, hL, hbytes⟩ | ⟨hopen, msgs, remain, hd, hL, hbytes⟩⟩ :=
        recvHandler_ok _ h
      · exact .closed hc hclosed hL hbytes
      · exact .read hc hopen hd hL hbytes
  | socketWrite sock =>
      simp only [switchAsyncEventHandler, writeHandler] at h
      split at h
      · exact nomatch h
      · next own hown =>
          obtain ⟨⟨_, s⟩, -, h⟩ := bind_ok.mp h
          obtain rfl := Except.ok.inj h
          exact .written hown
  | _ => exact nomatch hl

end BL_SocketLayer_API

end Bleep
