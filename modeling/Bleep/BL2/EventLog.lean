/-
# `Bleep.BL2.EventLog` — the lines the layer of peers writes to the event log

`SocketConnectHandler`, `SocketCloseHandler`, `RecvMsgHandler`, `DisconnectPeer` and
`SendMsgToPeer` format a line each with `sprintf`, into a buffer of 256 characters on the stack,
and hand it to `shadow_push_eventlog`.  What they print are ids, types and message ids, and none
of these is bounded: `RecvHandler` asks of a type what it begins with, and of a source id and a
message id nothing at all.

A call stays within its buffers exactly if the strings it prints are short enough for the
formats (`lines_fit_iff`).  A character is a byte, and `%s` prints up to the first zero.
-/
import Bleep.BL2.PeerConnectivityLayer

namespace Bleep

/-! ## Formats -/

/-- What `%s` prints of `s.c_str()`. -/
def printed (s : String) : List Char := s.toList.takeWhile fun c => c.toNat ≠ 0

/-- `sprintf` with the format `name,%s,…,%s`. -/
def sprintf (name : String) (args : List String) : List Char :=
  name.toList ++ args.flatMap fun arg => ',' :: printed arg

/-- Characters a buffer takes besides the zero at the end. -/
def MAX_LINE : Nat := 255

theorem length_sprintf (name : String) (args : List String) :
    (sprintf name args).length
      = name.length + (args.map fun arg => (printed arg).length + 1).sum := by
  rw [sprintf, List.length_append, List.length_flatMap]
  rfl

/-- The room that the name and the commas leave for two strings, and for four. -/
theorem sprintf_two_le {name a b : String} (hname : name.length ≤ 253) :
    (sprintf name [a, b]).length ≤ MAX_LINE ↔
      (printed a).length + (printed b).length ≤ 253 - name.length := by
  rw [length_sprintf]
  simp only [List.map_cons, List.map_nil, List.sum_cons, List.sum_nil, MAX_LINE]
  omega

theorem sprintf_four_le {name a b c d : String} (hname : name.length ≤ 251) :
    (sprintf name [a, b, c, d]).length ≤ MAX_LINE ↔
      (printed a).length + (printed b).length + (printed c).length + (printed d).length
        ≤ 251 - name.length := by
  rw [length_sprintf]
  simp only [List.map_cons, List.map_nil, List.sum_cons, List.sum_nil, MAX_LINE]
  omega

/-- A line of the event log. -/
inductive LogLine (P : Type) where
  | connectPeer (my id : P)
  | disconnectIncomingPeer (my id : P)
  | disconnectOutgoingPeer (my id : P)
  | recvMessage (source my : P) (type : MessageType) (messageId : String)
  | unicastMessage (my dest : P) (type : MessageType) (messageId : String)

namespace LogLine

variable {P : Type} (getId : P → String)

def text : LogLine P → List Char
  | connectPeer my id => sprintf "ConnectPeer" [getId my, getId id]
  | disconnectIncomingPeer my id => sprintf "DisconnectIncomingPeer" [getId my, getId id]
  | disconnectOutgoingPeer my id => sprintf "DisconnectOutgoingPeer" [getId my, getId id]
  | recvMessage source my type messageId =>
      sprintf "RecvMessage" [getId source, getId my, type, messageId]
  | unicastMessage my dest type messageId =>
      sprintf "UnicastMessage" [getId my, getId dest, type, messageId]

/-- The line fits into its buffer. -/
def Fits (line : LogLine P) : Prop := (line.text getId).length ≤ MAX_LINE

/-- The characters that the peer id takes. -/
def idSize (id : P) : Nat := (printed (getId id)).length

variable {getId} {my id source dest : P} {type : MessageType} {messageId : String}

theorem fits_connectPeer :
    (connectPeer my id).Fits getId ↔ idSize getId my + idSize getId id ≤ 242 :=
  sprintf_two_le (by decide)

theorem fits_disconnectIncomingPeer :
    (disconnectIncomingPeer my id).Fits getId ↔ idSize getId my + idSize getId id ≤ 231 :=
  sprintf_two_le (by decide)

theorem fits_disconnectOutgoingPeer :
    (disconnectOutgoingPeer my id).Fits getId ↔ idSize getId my + idSize getId id ≤ 231 :=
  sprintf_two_le (by decide)

theorem fits_recvMessage :
    (recvMessage source my type messageId).Fits getId ↔
      idSize getId source + idSize getId my + (printed type).length + (printed messageId).length
        ≤ 240 :=
  sprintf_four_le (by decide)

theorem fits_unicastMessage :
    (unicastMessage my dest type messageId).Fits getId ↔
      idSize getId my + idSize getId dest + (printed type).length + (printed messageId).length
        ≤ 237 :=
  sprintf_four_le (by decide)

end LogLine

/-! ## What the functions write -/

namespace BL_PeerConnectivityLayer_API

variable {P O : Type} [LinearOrder P] (ar : Archive P O) (N : BL_PeerConnectivityLayer_API P O)

/-- The lines of `SendMsgToPeer`. -/
def sendLines (id : P) (msg : Message P O) : List (LogLine P) :=
  match N.peerManager.findPeer id with
  | none => []
  | some dest =>
      if dest.isActive then
        [.unicastMessage N.peerManager.myPeerId dest.getPeerId msg.type msg.messageId]
      else []

/-- The line of a peer that goes. -/
def goneLines (id : P) (peer : Peer P) : List (LogLine P) :=
  match peer.getPeerType with
  | .incomingPeer => [.disconnectIncomingPeer N.peerManager.myPeerId id]
  | .outgoingPeer => [.disconnectOutgoingPeer N.peerManager.myPeerId id]
  | .none => []

/-- The lines of `DisconnectPeer`, which stops at a peer without a socket. -/
def disconnectLines (id : P) : List (LogLine P) :=
  match N.peerManager.findPeer id with
  | none => []
  | some peer =>
      match N.releaseSocket peer with
      | .error _ => []
      | .ok _ => N.goneLines id peer

/-- The lines of `SocketCloseHandler`. -/
def closeLines : Option (SocketPtr P) → List (LogLine P)
  | none => []
  | some closedSocket =>
      match N.peerManager.getPeers.find? fun e =>
        e.2.getDataSocket.any fun sock => sock.getFD = closedSocket.getFD with
      | none => []
      | some (id, peer) => N.goneLines id peer

/-- The lines of `SocketConnectHandler` once a peer is found for the socket. -/
def attachLines (k : PeerAnswers P) (peer : Peer P) (sock : SocketPtr P) : List (LogLine P) :=
  let outgoingPeer := peer.clearTryConnect.setDataSocket (some sock)
  let id := outgoingPeer.getPeerId
  let myPeerId := N.peerManager.myPeerId
  let N := N.setPeer outgoingPeer
  let message := .make myPeerId id "notifyPeerId" (k.messageId id "notifyPeerId")
  let getAddrMsg := .make myPeerId id "GETADDR" (k.messageId id "GETADDR")
  .connectPeer myPeerId id :: N.sendLines id message
    ++ (N.sendMsgToPeer ar id message).2.sendLines id getAddrMsg

/-- The lines of `SocketConnectHandler`. -/
def connectLines (k : PeerAnswers P) : Option (SocketPtr P) → List (LogLine P)
  | none => []
  | some sock =>
      match N.peerManager.getPeers.find? fun e => e.2.getConnSocket = sock.getFD with
      | none => []
      | some (_, peer) => N.attachLines ar k peer sock

/-- The lines of `RecvMsgHandler`. -/
def recvLines (k : PeerAnswers P) (sourcePeerId : P) (msg : Message P O) : List (LogLine P) :=
  let myPeerId := N.peerManager.myPeerId
  .recvMessage sourcePeerId myPeerId msg.type msg.messageId ::
    if msg.type = "PING" then
      N.sendLines sourcePeerId
        (.make myPeerId sourcePeerId "PONG" (k.messageId sourcePeerId "PONG"))
    else []

/-- A call of one of the functions, with what it is given. -/
inductive LogCall (P O : Type) where
  | socketConnectHandler (k : PeerAnswers P) (dataSocket : Option (SocketPtr P))
  | socketCloseHandler (closedSocket : Option (SocketPtr P))
  | recvMsgHandler (k : PeerAnswers P) (sourcePeerId : P) (msg : Message P O)
  | disconnectPeer (id : P)
  | sendMsgToPeer (id : P) (msg : Message P O)

/-- The lines that a call formats. -/
def lines : LogCall P O → List (LogLine P)
  | .socketConnectHandler k dataSocket => N.connectLines ar k dataSocket
  | .socketCloseHandler closedSocket => N.closeLines closedSocket
  | .recvMsgHandler k sourcePeerId msg => N.recvLines k sourcePeerId msg
  | .disconnectPeer id => N.disconnectLines id
  | .sendMsgToPeer id msg => N.sendLines id msg

/-! ## Short strings -/

section Short

variable (getId : P → String)

/-- The ids of the node and of a peer, together. -/
def idsSize (id : P) : Nat := LogLine.idSize getId N.peerManager.myPeerId + LogLine.idSize getId id

/-- A message to `id` has a short type and message id, where it is sent. -/
def ShortMsg (id : P) (type : MessageType) (messageId : String) : Prop :=
  (N.peerManager.findPeer id).any Peer.isActive = true →
    N.idsSize getId id + (printed type).length + (printed messageId).length ≤ 237

/-- The strings that a call is given, and those it finds in the table, are short. -/
def Short : LogCall P O → Prop
  | .socketConnectHandler k dataSocket =>
      ∀ sock ∈ dataSocket,
        ∀ e ∈ N.peerManager.getPeers.find? fun e => e.2.getConnSocket = sock.getFD,
        N.idsSize getId e.2.id ≤ 242 ∧
          N.idsSize getId e.2.id + 12 + (printed (k.messageId e.2.id "notifyPeerId")).length ≤ 237 ∧
          N.idsSize getId e.2.id + 7 + (printed (k.messageId e.2.id "GETADDR")).length ≤ 237
  | .socketCloseHandler closedSocket =>
      ∀ sock ∈ closedSocket, ∀ e ∈ N.peerManager.getPeers.find? fun e =>
        e.2.getDataSocket.any fun own => own.getFD = sock.getFD, N.idsSize getId e.1 ≤ 231
  | .recvMsgHandler k sourcePeerId msg =>
      N.idsSize getId sourcePeerId + (printed msg.type).length + (printed msg.messageId).length
          ≤ 240 ∧
        (msg.type = "PING" → N.ShortMsg getId sourcePeerId "PONG" (k.messageId sourcePeerId "PONG"))
  | .disconnectPeer id =>
      ∀ peer ∈ N.peerManager.findPeer id, (N.releaseSocket peer).isOk = true →
        N.idsSize getId id ≤ 231
  | .sendMsgToPeer id msg => N.ShortMsg getId id msg.type msg.messageId

end Short

variable {ar N} {getId : P → String} {id : P}

theorem sendLines_active {msg : Message P O}
    (h : (N.peerManager.findPeer id).any Peer.isActive = true) :
    N.sendLines id msg =
      [.unicastMessage N.peerManager.myPeerId id msg.type msg.messageId] := by
  obtain ⟨dest, hdest, hact⟩ := (Option.any_eq_true _ _).mp h
  simp only [sendLines, hdest, if_pos hact]
  rw [Peer.getPeerId, PeerManager.id_of_findPeer hdest]

theorem sendLines_idle {msg : Message P O}
    (h : ¬ (N.peerManager.findPeer id).any Peer.isActive = true) : N.sendLines id msg = [] := by
  cases hdest : N.peerManager.findPeer id with
  | none => simp only [sendLines, hdest]
  | some dest =>
      rw [hdest, Option.any_some] at h
      simp only [sendLines, hdest, if_neg h]

theorem sendMsgToPeer_idle {msg : Message P O}
    (h : ¬ (N.peerManager.findPeer id).any Peer.isActive = true) :
    N.sendMsgToPeer ar id msg = (false, N) := by
  have hsock : (N.peerManager.findPeer id).bind Peer.getDataSocket = none := by
    cases hp : N.peerManager.findPeer id with
    | none => rfl
    | some p =>
        rw [hp, Option.any_some, Peer.isActive] at h
        exact Option.not_isSome_iff_eq_none.mp h
  simp only [sendMsgToPeer, hsock]

/-- A message that is sent takes a line, and one that is not takes none. -/
theorem length_sendLines (msg : Message P O) :
    (N.sendLines id msg).length = if (N.sendMsgToPeer ar id msg).1 then 1 else 0 := by
  rw [sendMsgToPeer_fst]
  by_cases h : (N.peerManager.findPeer id).any Peer.isActive = true
  · rw [sendLines_active h, if_pos h]
    rfl
  · rw [sendLines_idle h, if_neg h]
    rfl

theorem sendLines_fit_iff {msg : Message P O} :
    (∀ line ∈ N.sendLines id msg, line.Fits getId) ↔
      N.ShortMsg getId id msg.type msg.messageId := by
  by_cases h : (N.peerManager.findPeer id).any Peer.isActive = true
  · rw [sendLines_active h, List.forall_mem_singleton, LogLine.fits_unicastMessage]
    exact (imp_iff_right h).symm
  · rw [sendLines_idle h]
    exact iff_of_true (List.forall_mem_nil _) fun hact => absurd hact h

theorem goneLines_fit_iff {peer : Peer P} :
    (∀ line ∈ N.goneLines id peer, line.Fits getId) ↔ N.idsSize getId id ≤ 231 := by
  rw [goneLines, Peer.getPeerType]
  cases hty : peer.peerType with
  | incomingPeer => exact List.forall_mem_singleton.trans LogLine.fits_disconnectIncomingPeer
  | outgoingPeer => exact List.forall_mem_singleton.trans LogLine.fits_disconnectOutgoingPeer
  | none => exact absurd hty peer.typed

/-- A peer that is attached is active when the two messages are sent. -/
theorem attachLines_eq (k : PeerAnswers P) (peer : Peer P) (sock : SocketPtr P) :
    N.attachLines ar k peer sock =
      [.connectPeer N.peerManager.myPeerId peer.id,
        .unicastMessage N.peerManager.myPeerId peer.id "notifyPeerId"
          (k.messageId peer.id "notifyPeerId"),
        .unicastMessage N.peerManager.myPeerId peer.id "GETADDR"
        (k.messageId peer.id "GETADDR")] := by
  obtain ⟨M, hM⟩ : ∃ M, M = N.setPeer (peer.clearTryConnect.setDataSocket (some sock)) := ⟨_, rfl⟩
  have hact : (M.peerManager.findPeer peer.id).any Peer.isActive = true := by
    have hfind : M.peerManager.findPeer peer.id
        = some (peer.clearTryConnect.setDataSocket (some sock)) := by
      rw [hM]
      exact (PeerManager.findPeer_setPeer _).trans (if_pos rfl)
    rw [hfind]
    rfl
  have hact' (msg : Message P O) :
      ((M.sendMsgToPeer ar peer.id msg).2.peerManager.findPeer peer.id).any Peer.isActive =
        true := by
    rw [(sendMsgToPeer_snd M peer.id msg).peerManager]
    exact hact
  have hmy (msg : Message P O) :
      (M.sendMsgToPeer ar peer.id msg).2.peerManager.myPeerId = N.peerManager.myPeerId := by
    rw [(sendMsgToPeer_snd M peer.id msg).peerManager, hM]
    rfl
  have hfirst (msg : Message P O) : M.sendLines peer.id msg
      = [.unicastMessage N.peerManager.myPeerId peer.id msg.type msg.messageId] := by
    rw [sendLines_active hact, hM]
    rfl
  have hsecond (msg msg' : Message P O) : (M.sendMsgToPeer ar peer.id msg).2.sendLines peer.id msg'
      = [.unicastMessage N.peerManager.myPeerId peer.id msg'.type msg'.messageId] := by
    rw [sendLines_active (hact' msg), hmy]
  rw [attachLines, ← hM]
  exact congrArg _ (congrArg₂ _ (hfirst _) (hsecond _ _))

theorem attachLines_fit_iff {k : PeerAnswers P} {peer : Peer P} {sock : SocketPtr P} :
    (∀ line ∈ N.attachLines ar k peer sock, line.Fits getId) ↔
      N.idsSize getId peer.id ≤ 242 ∧
        N.idsSize getId peer.id + 12 + (printed (k.messageId peer.id "notifyPeerId")).length ≤ 237 ∧
        N.idsSize getId peer.id + 7 + (printed (k.messageId peer.id "GETADDR")).length ≤ 237 := by
  rw [attachLines_eq, List.forall_mem_cons, List.forall_mem_cons, List.forall_mem_singleton,
    LogLine.fits_connectPeer, LogLine.fits_unicastMessage, LogLine.fits_unicastMessage]
  rfl

theorem recvLines_fit_iff {k : PeerAnswers P} {source : P} {msg : Message P O} :
    (∀ line ∈ N.recvLines k source msg, line.Fits getId) ↔
      N.idsSize getId source + (printed msg.type).length + (printed msg.messageId).length ≤ 240 ∧
        (msg.type = "PING" → N.ShortMsg getId source "PONG" (k.messageId source "PONG")) := by
  rw [recvLines, List.forall_mem_cons, LogLine.fits_recvMessage, idsSize,
    Nat.add_comm (LogLine.idSize getId source)]
  refine and_congr_right fun _ => ?_
  by_cases hping : msg.type = "PING"
  · rw [if_pos hping, sendLines_fit_iff]
    exact (imp_iff_right hping).symm
  · rw [if_neg hping]
    exact iff_of_true (List.forall_mem_nil _) fun h => absurd h hping

theorem disconnectLines_fit_iff :
    (∀ line ∈ N.disconnectLines id, line.Fits getId) ↔
      ∀ peer ∈ N.peerManager.findPeer id, (N.releaseSocket peer).isOk = true →
        N.idsSize getId id ≤ 231 := by
  cases hpeer : N.peerManager.findPeer id with
  | none => simp [disconnectLines, hpeer]
  | some peer =>
      cases hrel : N.releaseSocket peer with
      | error e => simp [disconnectLines, hpeer, hrel, Except.isOk, Except.toBool]
      | ok sl =>
          simp only [disconnectLines, hpeer, hrel, goneLines_fit_iff, Option.mem_some_iff,
            forall_eq']
          exact (imp_iff_right rfl).symm

/-! ## Lines and handlers

A handler that comes to its end has written these lines, and done this. -/

theorem recvLines_of_ok {ads : AddrAd P O} {k : PeerAnswers P} {source : P} {msg : Message P O}
    {N' : BL_PeerConnectivityLayer_API P O} (h : N.recvMsgHandler ar ads k source msg = .ok N') :
    ∃ lines, N.recvLines k source msg =
        .recvMessage source N.peerManager.myPeerId msg.type msg.messageId :: lines ∧
      (lines = [] ∧ N'.socketLayer.heap = N.socketLayer.heap ∨
        msg.type = "PING" ∧ ∃ pong, lines = N.sendLines source pong ∧
          N.sendMsgToPeer ar source pong = (true, N')) := by
  refine ⟨_, rfl, ?_⟩
  by_cases hping : msg.type = "PING"
  · rw [if_pos hping]
    have hN : N' = (N.sendMsgToPeer ar source (.make N.peerManager.myPeerId source "PONG"
        (k.messageId source "PONG"))).2 := by
      simp only [recvMsgHandler, hping] at h
      exact (Except.ok.inj h).symm
    by_cases hact : (N.peerManager.findPeer source).any Peer.isActive = true
    · refine .inr ⟨hping, _, rfl, Prod.ext ?_ hN.symm⟩
      rw [sendMsgToPeer_fst]
      exact hact
    · refine .inl ⟨sendLines_idle hact, ?_⟩
      rw [hN, sendMsgToPeer_idle hact]
  · rw [if_neg hping]
    refine .inl ⟨rfl, ?_⟩
    cases recvMsgHandler_cases h with
    | ping ht _ => exact absurd ht hping
    | _ => rfl

theorem connectLines_of_ok {k : PeerAnswers P} {dataSocket : Option (SocketPtr P)}
    {N' : BL_PeerConnectivityLayer_API P O}
    (h : N.socketConnectHandler ar k dataSocket = .ok N') :
    ∃ sock peer, dataSocket = some sock ∧ N' = N.attach ar k peer sock ∧
      N.connectLines ar k dataSocket = N.attachLines ar k peer sock := by
  cases dataSocket with
  | none =>
      simp only [socketConnectHandler] at h
      split at h <;> cases h
  | some sock =>
      simp only [socketConnectHandler] at h
      split at h
      · cases h
      · next x peer hfind =>
          refine ⟨sock, peer, rfl, (Except.ok.inj h).symm, ?_⟩
          simp only [connectLines, hfind]

theorem closeLines_of_ok {closedSocket : Option (SocketPtr P)}
    {N' : BL_PeerConnectivityLayer_API P O} (h : N.socketCloseHandler closedSocket = .ok N') :
    N.closeLines closedSocket = [] ∧ N' = N ∨
      ∃ peer, N.peerManager.findPeer peer.id = some peer ∧
        N.closeLines closedSocket = N.goneLines peer.id peer ∧
        N' = { N with peerManager := N.peerManager.dropPeer peer } := by
  cases closedSocket with
  | none =>
      simp only [socketCloseHandler] at h
      split at h
      · cases h
      · exact .inl ⟨rfl, (Except.ok.inj h).symm⟩
  | some closedSocket =>
      simp only [socketCloseHandler] at h
      split at h
      · next hnone =>
          refine .inl ⟨?_, (Except.ok.inj h).symm⟩
          simp only [closeLines, hnone]
      · next id peer hfind =>
          have hpeer : N.peerManager.findPeer id = some peer :=
            PeerManager.mem_getPeers.mp (List.mem_of_find?_eq_some hfind)
          obtain ⟨m, hm, h⟩ := bind_ok.mp h
          obtain rfl := PeerManager.id_of_findPeer hpeer
          refine .inr ⟨peer, hpeer, ?_, ?_⟩
          · simp only [closeLines, hfind]
          · rw [← (PeerManager.removePeer_ok hm).2]
            exact (Except.ok.inj h).symm

theorem disconnectLines_of_ok {found : Bool} {N' : BL_PeerConnectivityLayer_API P O}
    (h : N.disconnectPeer id = .ok (found, N')) :
    found = false ∧ N.disconnectLines id = [] ∧ N' = N ∨
      found = true ∧ ∃ peer, N.peerManager.findPeer id = some peer ∧
        N.disconnectLines id = N.goneLines id peer ∧
        N'.peerManager = N.peerManager.dropPeer peer := by
  unfold disconnectPeer at h
  split at h
  · next hnone =>
      obtain ⟨rfl, rfl⟩ := Prod.mk.inj (Except.ok.inj h)
      refine .inl ⟨rfl, ?_, rfl⟩
      simp only [disconnectLines, hnone]
  · next peer hpeer =>
      obtain ⟨sl, hsl, h⟩ := bind_ok.mp h
      obtain ⟨m, hm, h⟩ := bind_ok.mp h
      obtain ⟨rfl, rfl⟩ := Prod.mk.inj (Except.ok.inj h)
      refine .inr ⟨rfl, peer, hpeer, ?_, (PeerManager.removePeer_ok hm).2⟩
      simp only [disconnectLines, hpeer, hsl]

/-- **The event log.**  The lines that a call formats have at most 255 characters exactly if
the strings it prints are short. -/
theorem lines_fit_iff (ar : Archive P O) (N : BL_PeerConnectivityLayer_API P O)
    (getId : P → String) (call : LogCall P O) :
    (∀ line ∈ N.lines ar call, (line.text getId).length ≤ 255) ↔ N.Short getId call := by
  cases call with
  | socketConnectHandler k dataSocket =>
      cases dataSocket with
      | none => simp [lines, connectLines, Short]
      | some sock =>
          simp only [lines, connectLines, Short, Option.mem_some_iff, forall_eq']
          cases N.peerManager.getPeers.find? fun e => e.2.getConnSocket = sock.getFD with
          | none => simp
          | some e =>
              simp only [Option.mem_some_iff, forall_eq']
              exact attachLines_fit_iff
  | socketCloseHandler closedSocket =>
      cases closedSocket with
      | none => simp [lines, closeLines, Short]
      | some sock =>
          simp only [lines, closeLines, Short, Option.mem_some_iff, forall_eq']
          cases N.peerManager.getPeers.find? fun e =>
            e.2.getDataSocket.any fun own => own.getFD = sock.getFD with
          | none => simp
          | some e =>
              simp only [Option.mem_some_iff, forall_eq']
              exact goneLines_fit_iff
  | recvMsgHandler k sourcePeerId msg => exact recvLines_fit_iff
  | disconnectPeer id => exact disconnectLines_fit_iff
  | sendMsgToPeer id msg => exact sendLines_fit_iff

/-- What is let through has no bound: anything may follow a `PING`. -/
theorem listed_ping (rest : String) : MessageType.listed ("PING" ++ rest) = true := by
  have hping : MessageType.startsWith ("PING" ++ rest) "PING" = true := by
    rw [MessageType.startsWith, String.toList_append, List.isPrefixOf_iff_prefix]
    exact List.prefix_append _ _
  rw [MessageType.listed, hping]
  simp only [Bool.or_true, Bool.true_or]

/-- `PING` with `n` characters behind it. -/
def longPing (n : Nat) : MessageType := "PING" ++ String.ofList (List.replicate n 'x')

theorem length_longPing (n : Nat) : (printed (longPing n)).length = 4 + n := by
  have hlist : (longPing n).toList = ['P', 'I', 'N', 'G'] ++ List.replicate n 'x' := by
    rw [longPing, String.toList_append]
    exact congrArg _ String.toList_ofList
  have hname : ∀ c ∈ ['P', 'I', 'N', 'G'], decide (c.toNat ≠ 0) = true := by simp
  have hall : ∀ c ∈ ['P', 'I', 'N', 'G'] ++ List.replicate n 'x', decide (c.toNat ≠ 0) = true := by
    intro c hc
    rcases List.mem_append.mp hc with hc | hc
    · exact hname c hc
    · rw [List.eq_of_mem_replicate hc]
      rfl
  rw [printed, hlist, List.takeWhile_eq_self_iff.mpr hall, List.length_append,
    List.length_replicate]
  rfl

/-- A message that is let through can be too long for its line. -/
theorem lines_fit_fails :
    ¬ ∀ (ar : Archive Nat Nat) (N : BL_PeerConnectivityLayer_API Nat Nat) (getId : Nat → String)
        (k : PeerAnswers Nat) (msg : Message Nat Nat),
      msg.type.listed = true →
      ∀ line ∈ N.lines ar (.recvMsgHandler k msg.src msg), (line.text getId).length ≤ 255 := by
  intro h
  have hbound (n : Nat) : (printed (longPing n)).length ≤ 240 := by
    have hfits := h ⟨fun _ => [], fun _ => none⟩ (.init 0 0 0) (fun _ => "") {}
      (.make 0 0 (longPing n) "") (listed_ping _)
    exact (Nat.le_add_left _ _).trans ((Nat.le_add_right _ _).trans (recvLines_fit_iff.mp hfits).1)
  have hlong := hbound 300
  rw [length_longPing] at hlong
  omega

end BL_PeerConnectivityLayer_API

end Bleep
