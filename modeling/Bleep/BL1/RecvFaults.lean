/-
# `Bleep.BL1.RecvFaults` — a length that wraps, and data that comes with a close

Two slips of `RecvHandler`, each with the exact condition under which it does no harm.

The test before a message is cut off adds the length field, an `int`, to a `size_t`.  From
−12 to −1 the sum wraps to less than the header has, passes, and a negative length goes to
the deserializer (`parseLoop_safe_iff`).

A `recv()` that returns 0 drops the buffer before the parse.  If data came in the same call
of the handler, after full buffers of 2000 bytes, a message it completes is lost
(`close_delivers_iff`).
-/
import Bleep.BL1.Connection

namespace Bleep

open Framing Channel

variable {P O β : Type}

/-! ## The length field -/

section Length

/-- What a round does with the range it hands to the deserializer; `remain` is what it
leaves in the buffer. -/
def handOver (ar : Archive P O) (range : List UInt8) (remain : List β) :
    Except Fault (Option (Message P O × List β)) :=
  match ar.deserialize range with
  | none => .error .uncaught
  | some none => .error .nullDeref
  | some (some msg) =>
      if msg.type.listed then .ok (some (msg, remain))
      else .error (.assertion "Unexpected message")

theorem handOver_ne_outOfBounds (ar : Archive P O) (range : List UInt8) (remain : List β) :
    handOver ar range remain ≠ .error .outOfBounds := by
  unfold handOver
  split
  · exact nofun
  · exact nofun
  · split
    · exact nofun
    · exact nofun

variable (ar : Archive P O) (byte : β → UInt8)

/-- The round stops, or hands over a range of positive length within the buffer, and leaves
less than there was. -/
def SafeRound (s : List β) : Prop :=
  parseRound ar byte s = .ok none ∨
    ∃ k, 0 < k ∧ 12 + k ≤ s.length ∧ (s.drop (12 + k)).length < s.length ∧
      parseRound ar byte s = handOver ar (((s.map byte).drop 12).take k) (s.drop (12 + k))

/-- The `int` behind the magic. -/
def msgSize (s : List β) : Int := intOfBytes (((s.map byte).drop 8).take 4)

/-- Behind the magic stands a negative length that passes the test. -/
def NegativeLength (s : List β) : Prop :=
  BLEEP_MAGIC <+: s.map byte ∧ 12 ≤ s.length ∧
    msgSize byte s < 0 ∧ (12 + msgSize byte s) % 2 ^ 64 ≤ s.length

instance (s : List β) : Decidable (NegativeLength byte s) :=
  inferInstanceAs (Decidable (_ ∧ _ ∧ _ ∧ _))

/-- A buffer is no longer than a string can be, and then the lengths are these. -/
theorem negativeLength_iff {s : List β} (hs : s.length < 2 ^ 63) :
    NegativeLength byte s ↔ BLEEP_MAGIC <+: s.map byte ∧ 12 ≤ s.length ∧
      -12 ≤ msgSize byte s ∧ msgSize byte s < 0 := by
  have hlow : -2 ^ 31 ≤ msgSize byte s := BitVec.le_toInt _
  constructor
  · rintro ⟨hmagic, hlen, hneg, hwrap⟩
    refine ⟨hmagic, hlen, ?_, hneg⟩
    omega
  · rintro ⟨hmagic, hlen, hge, hneg⟩
    refine ⟨hmagic, hlen, hneg, ?_⟩
    omega

theorem parseRound_cases (s : List β) :
    NegativeLength byte s ∧ parseRound ar byte s = .error .outOfBounds ∨
      ¬NegativeLength byte s ∧ (parseRound ar byte s = .ok none ∨
        ∃ k, 0 < k ∧ 12 + k ≤ s.length ∧
          parseRound ar byte s = handOver ar (((s.map byte).drop 12).take k)
            (s.drop (12 + k))) := by
  have hlow : msgSize byte s < 2 ^ 31 := BitVec.toInt_lt
  unfold parseRound
  split
  case isFalse hmagic =>
    exact .inr ⟨fun h => hmagic (List.isPrefixOf_iff_prefix.mpr h.1), .inl rfl⟩
  case isTrue hmagic =>
    split
    case isFalse hlen => exact .inr ⟨fun h => hlen h.2.1, .inl rfl⟩
    case isTrue hlen =>
      simp only
      rw [← msgSize]
      split
      case isFalse hsize =>
        refine .inr ⟨fun h => hsize ⟨?_, h.2.2.2⟩, .inl rfl⟩
        exact Int.ne_of_lt h.2.2.1
      case isTrue hsize =>
        split
        case isTrue hneg =>
          exact .inl ⟨⟨List.isPrefixOf_iff_prefix.mp hmagic, hlen, hneg, hsize.2⟩, rfl⟩
        case isFalse hneg =>
          refine .inr ⟨fun h => hneg h.2.2.1, .inr ⟨(msgSize byte s).toNat, ?_, ?_, rfl⟩⟩
          · omega
          · omega

theorem parseRound_outOfBounds_iff {s : List β} :
    parseRound ar byte s = .error .outOfBounds ↔ NegativeLength byte s := by
  rcases parseRound_cases ar byte s with ⟨hneg, h⟩ | ⟨hneg, h | ⟨k, -, -, h⟩⟩
  · exact iff_of_true h hneg
  · refine iff_of_false ?_ hneg
    rw [h]
    exact nofun
  · refine iff_of_false ?_ hneg
    rw [h]
    exact handOver_ne_outOfBounds ar _ _

theorem safeRound_iff {s : List β} : SafeRound ar byte s ↔ ¬NegativeLength byte s := by
  constructor
  · rintro h hneg
    rw [← parseRound_outOfBounds_iff ar] at hneg
    rcases h with h | ⟨k, -, -, -, h⟩
    · exact nomatch h.symm.trans hneg
    · exact handOver_ne_outOfBounds ar _ _ (h.symm.trans hneg)
  · intro hneg
    rcases parseRound_cases ar byte s with ⟨hneg', -⟩ | ⟨-, h | ⟨k, hk, hlen, h⟩⟩
    · exact absurd hneg' hneg
    · exact .inl h
    · refine .inr ⟨k, hk, hlen, ?_, h⟩
      rw [List.length_drop]
      omega

/-- **The parse loop ends**, and reads outside the buffer if and only if it gets to a
negative length that passes the test; a round is safe at every other buffer. -/
theorem parseLoop_safe_iff (s : List β) :
    (SafeRound ar byte s ↔ ¬NegativeLength byte s) ∧
      parseLoop ar byte s ≠ .error .diverges ∧
      (parseLoop ar byte s ≠ .error .outOfBounds ↔
        ∀ msgs q, Cuts (parseRound ar byte) s msgs q → ¬NegativeLength byte q) := by
  refine ⟨safeRound_iff ar byte, parseLoop_ends ar byte s, ?_⟩
  have hfail : drain (parseRound ar byte) .diverges (s.length + 1) s = .error .outOfBounds ↔ _ :=
    drain_error_iff (incremental_parseRound ar byte) (Nat.lt_succ_self s.length)
  rw [parseLoop, ne_eq, hfail]
  simp only [parseRound_outOfBounds_iff, not_exists, not_and]

end Length

/-- The magic and the length −1. -/
def minusOne : List UInt8 := BLEEP_MAGIC ++ [0xff, 0xff, 0xff, 0xff]

/-- At the length −1 the deserializer gets a negative length. -/
theorem minusOne_unsafe : ¬SafeRound asciiArchive id minusOne ∧
    parseLoop asciiArchive id minusOne = .error .outOfBounds := by
  have hneg : NegativeLength id minusOne := by decide
  refine ⟨fun h => (safeRound_iff asciiArchive id).mp h hneg, ?_⟩
  exact drain_of_error ((parseRound_outOfBounds_iff asciiArchive id).mpr hneg)

/-! ## A close that comes with data -/

namespace BL_SocketLayer_API

variable (L : BL_SocketLayer_API P O) (ar : Archive P O) (fd : Int)

/-- `RecvHandler` called for `fd` once after the other. -/
def recvCalls : List (List RecvResult) → Except Fault (BL_SocketLayer_API P O) :=
  List.foldlM (fun L rs => L.recvHandler ar fd rs) L

/-- The messages whose frames are at the front of a stream. -/
def FullyReceived (s : List UInt8) (msgs : List (Message P O)) : Prop :=
  ∃ q, Cuts (parseRound ar id) s msgs q ∧ Ends (parseRound ar id) q

/-- The bytes held for `fd`, without the record of where they came from. -/
def held : List UInt8 := (L.recvBytes fd).map Prod.fst

variable {L ar fd}

/-- One call that leaves the connection open: what it reads goes behind what is held, and
what that completes is queued. -/
theorem recvHandler_open {rs : List RecvResult} {L' : BL_SocketLayer_API P O}
    (hopen : seesClosed rs = false) (h : L.recvHandler ar fd rs = .ok L') :
    L'.getDataSocket fd = L.getDataSocket fd ∧
      ∃ msgs, Drains (parseRound ar id) (L.held fd ++ received rs) msgs (L'.held fd) ∧
        L'.eventQueue = L.eventQueue ++ msgs.map (recvEvent (L.getDataSocket fd)) := by
  obtain ⟨c, -, ⟨hclosed, -, -⟩ | ⟨-, msgs, remain, hd, hL', hbytes⟩⟩ := recvHandler_ok L h
  · exact absurd hopen (by rw [hclosed]; decide)
  · refine ⟨by rw [hL']; rfl, msgs, ?_, by rw [hL']⟩
    have hd' := hd.map (parseRound_map ar Prod.fst)
    rw [Channel.map_tagged] at hd'
    rw [held, held, hbytes fd, if_pos rfl]
    exact hd'

/-- The calls before the close: their messages are queued, and the rest is held. -/
theorem recvCalls_open : ∀ {rss : List (List RecvResult)}, (∀ rs ∈ rss, seesClosed rs = false) →
    ∀ {L L' : BL_SocketLayer_API P O} {s : List UInt8} {before : List (Message P O)},
      L.recvCalls ar fd rss = .ok L' → Drains (parseRound ar id) s before (L.held fd) →
      L'.getDataSocket fd = L.getDataSocket fd ∧
        ∃ msgs, Drains (parseRound ar id) (s ++ rss.flatMap received) (before ++ msgs)
            (L'.held fd) ∧
          L'.eventQueue = L.eventQueue ++ msgs.map (recvEvent (L.getDataSocket fd)) := by
  intro rss
  induction rss with
  | nil =>
      intro _ L L' s before hrun hd
      obtain rfl := Except.ok.inj hrun
      refine ⟨rfl, [], ?_, (List.append_nil _).symm⟩
      rw [List.flatMap_nil, List.append_nil, List.append_nil]
      exact hd
  | cons rs rss ih =>
      intro hopen L L' s before hrun hd
      obtain ⟨hrs, hrss⟩ := List.forall_mem_cons.mp hopen
      rw [recvCalls, List.foldlM_cons] at hrun
      obtain ⟨L₁, hfirst, hrest⟩ := bind_ok.mp hrun
      obtain ⟨hsock₁, msgs₁, hd₁, hqueue₁⟩ := recvHandler_open hrs hfirst
      obtain ⟨hsock, msgs, hd', hqueue⟩ :=
        ih hrss hrest (hd.append (incremental_parseRound ar id) hd₁)
      refine ⟨hsock.trans hsock₁, msgs₁ ++ msgs, ?_, ?_⟩
      · rw [List.flatMap_cons, ← List.append_assoc, ← List.append_assoc]
        exact hd'
      · rw [hqueue, hqueue₁, hsock₁, List.map_append, List.append_assoc]

theorem recvHandler_closed (ar : Archive P O) {c : Conn P} {rs : List RecvResult}
    (hc : L.owner fd = some c)
    (hclosed : seesClosed rs = true) : ∃ L', L.recvHandler ar fd rs = .ok L' ∧
      L'.eventQueue = L.eventQueue ++ [.peerSocketClose (L.getDataSocket fd)] := by
  have hloop : ∀ m, ∃ m', recvLoop fd c m rs = .ok (true, m') := by
    induction rs with
    | nil => cases hclosed
    | cons r rs ih =>
        intro m
        cases r with
        | data bs size =>
            obtain ⟨hfull, hrest⟩ := Bool.and_eq_true_iff.mp hclosed
            obtain ⟨m', hm'⟩ := ih hrest (m.appendToBuffer fd (bs.map (·, c)))
            refine ⟨m', ?_⟩
            rw [recvLoop, if_pos (of_decide_eq_true hfull), hm']
        | closed => exact ⟨m, rfl⟩
        | again => cases hclosed
        | failed => cases hclosed
  obtain ⟨m', hm'⟩ := hloop L.recvBuffManager
  -- the buffer is gone, so there is nothing to parse
  have hnone : (closedWhileRecv { L with recvBuffManager := m' } fd).recvBuffManager.getRecvBuffer
      fd = none := if_pos rfl
  refine ⟨closedWhileRecv { L with recvBuffManager := m' } fd, ?_, rfl⟩
  simp only [recvHandler, hc, hm']
  show parseBuffer _ ar fd = _
  rw [parseBuffer]
  simp only [if_true]
  rw [hnone]

/-- **A close loses no complete message** if and only if the call that sees it reads nothing
that completes one: the messages at the front of the stream are all queued, in order and
before the `PeerSocketClose`. -/
theorem close_delivers_iff {L₁ L' : BL_SocketLayer_API P O} {rss : List (List RecvResult)}
    {rs : List RecvResult} (hfresh : L.recvBytes fd = [])
    (hopen : ∀ rs ∈ rss, seesClosed rs = false) (hrun : L.recvCalls ar fd rss = .ok L₁)
    (hclosed : seesClosed rs = true) (hlast : L₁.recvHandler ar fd rs = .ok L') :
    (∃ msgs, FullyReceived ar (rss.flatMap received ++ received rs) msgs ∧
        L'.eventQueue = L.eventQueue ++ msgs.map (recvEvent (L.getDataSocket fd)) ++
          [.peerSocketClose (L.getDataSocket fd)]) ↔
      Ends (parseRound ar id) (L₁.held fd ++ received rs) := by
  have hi := incremental_parseRound ar (id : UInt8 → UInt8)
  have hnil : L.held fd = [] := by rw [held, hfresh, List.map_nil]
  have hstart : Drains (parseRound ar id) [] [] (L.held fd) := by
    rw [hnil]
    exact .stop rfl
  obtain ⟨hsock, before, hd, hqueue⟩ := recvCalls_open hopen hrun hstart
  rw [List.nil_append, List.nil_append] at hd
  have hqueue' : L'.eventQueue = L.eventQueue ++ before.map (recvEvent (L.getDataSocket fd)) ++
      [.peerSocketClose (L.getDataSocket fd)] := by
    obtain ⟨c, -, ⟨-, hL', -⟩ | ⟨hno, -⟩⟩ := recvHandler_ok L₁ hlast
    · rw [hL', ← hqueue, ← hsock]
      rfl
    · exact absurd hclosed (by rw [hno]; decide)
  -- the bytes of the last call come behind what is held, and are not looked at
  have hcuts := hd.cuts.extend hi (received rs)
  constructor
  · rintro ⟨msgs, ⟨q, hmsgs, hq⟩, hdelivered⟩
    obtain ⟨more, r, hmore, hr⟩ := Cuts.exists_ends hi (L₁.held fd ++ received rs)
    obtain ⟨hall, -⟩ := hmsgs.unique hq (hcuts.trans hmore) hr
    have hlen : msgs.length = before.length := by
      have h := congrArg List.length (hdelivered.symm.trans hqueue')
      simpa using h
    have hnone : more = [] := by
      rw [hall, List.length_append] at hlen
      exact List.eq_nil_of_length_eq_zero (by omega)
    subst hnone
    cases hmore with
    | nil => exact hr
  · intro hend
    exact ⟨before, ⟨_, hcuts, hend⟩, hqueue'⟩

/-! ### Runs -/

/-- A `PING` whose frame has 2000 bytes. -/
def longPing : Message UInt8 Unit :=
  asciiMsg (String.ofList ("PING".toList ++ List.replicate 1982 'x'))

theorem serialize_longPing : asciiArchive.serialize longPing =
    1 :: 2 :: (([80, 73, 78, 71] : List UInt8) ++ List.replicate 1982 120) := by
  show 1 :: 2 :: (String.ofList _).toList.map _ = _
  rw [String.toList_ofList, List.map_append, List.map_replicate]
  rfl

theorem length_serialize_longPing : (asciiArchive.serialize longPing).length = 1988 := by
  simp only [serialize_longPing, List.length_cons, List.length_append, List.length_replicate,
    List.length_nil]

theorem length_frame_longPing : (frame asciiArchive longPing).length = 2000 := by
  rw [length_frame, length_serialize_longPing]

theorem sendable_longPing : Sendable asciiArchive longPing where
  faithful := by
    show asciiArchive.deserialize (asciiArchive.serialize longPing) = _
    rw [serialize_longPing]
    show some (some _) = some (some _)
    rw [List.map_append, List.map_replicate]
    rfl
  pos := by
    rw [length_serialize_longPing]
    decide
  lt := by
    rw [length_serialize_longPing]
    decide

theorem startsWith_append (s : String) (t : List Char) :
    MessageType.startsWith (String.ofList (s.toList ++ t)) s = true := by
  rw [MessageType.startsWith, String.toList_ofList, List.isPrefixOf_iff_prefix]
  exact List.prefix_append _ _

theorem listed_longPing : longPing.type.listed = true := by
  have hstart : MessageType.startsWith longPing.type "PING" = true :=
    startsWith_append "PING" (List.replicate 1982 'x')
  simp only [MessageType.listed, hstart, Bool.or_true, Bool.true_or]

/-- The frame and the end of the connection in one call. -/
def closedWithPing : List RecvResult :=
  [.data (frame asciiArchive longPing) (by rw [length_frame_longPing]; decide), .closed]

theorem received_closedWithPing : received closedWithPing = frame asciiArchive longPing := by
  rw [closedWithPing, received, if_pos length_frame_longPing]
  exact List.append_nil _

theorem seesClosed_closedWithPing : seesClosed closedWithPing = true := by
  rw [closedWithPing, seesClosed, decide_eq_true length_frame_longPing]
  rfl

theorem fullyReceived_longPing :
    FullyReceived asciiArchive (received closedWithPing) [longPing] := by
  have hround := parseRound_frame sendable_longPing []
  rw [refuse, if_pos listed_longPing, List.append_nil] at hround
  rw [received_closedWithPing]
  exact ⟨[], .cons hround .nil, ends_of_stop rfl⟩

theorem owner_acceptedFive :
    acceptedFive.layer.owner 5 = some { id := 0, fd := 5, opener := none } := by decide

/-- The `PING` is fully received, and the connection's only event is its close. -/
theorem close_loses_longPing :
    FullyReceived asciiArchive (received closedWithPing) [longPing] ∧
      ∃ L', acceptedFive.layer.recvHandler asciiArchive 5 closedWithPing = .ok L' ∧
        L'.eventQueue = [.peerSocketClose (acceptedFive.layer.getDataSocket 5)] ∧
        ¬∃ msgs, FullyReceived asciiArchive (received closedWithPing) msgs ∧
          L'.eventQueue = acceptedFive.layer.eventQueue ++
            msgs.map (recvEvent (acceptedFive.layer.getDataSocket 5)) ++
            [.peerSocketClose (acceptedFive.layer.getDataSocket 5)] := by
  obtain ⟨L', hL', hqueue⟩ := recvHandler_closed asciiArchive owner_acceptedFive
    seesClosed_closedWithPing
  refine ⟨fullyReceived_longPing, L', hL', hqueue, ?_⟩
  rintro ⟨msgs, ⟨q, hc, hq⟩, hdelivered⟩
  obtain ⟨q', hc', hq'⟩ := fullyReceived_longPing
  obtain ⟨rfl, -⟩ := hc.unique hq hc' hq'
  have hlen := congrArg List.length (hqueue.symm.trans hdelivered)
  simp at hlen

theorem close_delivers_iff_longPing :
    ∃ L', acceptedFive.layer.recvHandler asciiArchive 5 closedWithPing = .ok L' ∧
      ((∃ msgs, FullyReceived asciiArchive ([].flatMap received ++ received closedWithPing) msgs ∧
        L'.eventQueue = acceptedFive.layer.eventQueue ++
          msgs.map (recvEvent (acceptedFive.layer.getDataSocket 5)) ++
          [.peerSocketClose (acceptedFive.layer.getDataSocket 5)]) ↔
      Ends (parseRound asciiArchive id)
        (acceptedFive.layer.held 5 ++ received closedWithPing)) := by
  obtain ⟨L', hL', -⟩ := recvHandler_closed asciiArchive owner_acceptedFive
    seesClosed_closedWithPing
  exact ⟨L', hL', close_delivers_iff rfl (nofun) rfl seesClosed_closedWithPing hL'⟩

end BL_SocketLayer_API

end Bleep
