/-
# `Bleep.BL1.SocketLayerBitcoin` — reading Bitcoin messages off a stream

`BL_SocketLayer_Bitcoin` replaces `RecvHandler`: what is read goes behind the bytes held
for the descriptor, and complete Bitcoin messages are cut off the front.  A message is the
magic, a 12-byte command, the length and the checksum of its payload and the payload
(`BitcoinMsg.frame`); one without payload is cut off by a branch of its own.

The magic is compared with `strncmp`, which stops at a zero byte; the magic has none, so
the comparison is whether the buffer begins with it (`strncmp_eq_zero`).  A round cuts off
a frame exactly where the buffer begins with one (`exact_parseRound`), and so how the
stream came in makes no difference (`recvHandler_fragments`).
-/
import Bleep.BL1.SocketLayer

namespace Bleep

/-! ## The wire format -/

/-- `"\xf9\xbe\xb4\xd9"`. -/
def BITCOIN_MAGIC : List UInt8 := [0xf9, 0xbe, 0xb4, 0xd9]

def BITCOIN_COMMAND_SIZE : Nat := 12

/-- `strncmp`: the first difference within `n` characters, up to a terminator. -/
def strncmp : List UInt8 → List UInt8 → Nat → Int
  | a :: as, b :: bs, n + 1 =>
      if a ≠ b then (a.toNat : Int) - b.toNat
      else if a = 0 then 0
      else strncmp as bs n
  | _, _, _ => 0

/-- `c_str()`: the bytes with their terminator. -/
def c_str (s : List UInt8) : List UInt8 := s ++ [0]

/-- `memcpy` of four bytes into a `uint32_t`. -/
def uint32OfBytes (bs : List UInt8) : UInt32 :=
  UInt32.ofNat (bs.foldr (fun b n => b.toNat + 2 ^ 8 * n) 0)

/-- The four bytes of a `uint32_t`. -/
def uint32Bytes (x : UInt32) : List UInt8 := intBytes x.toNat

@[simp] theorem length_uint32Bytes (x : UInt32) : (uint32Bytes x).length = 4 := rfl

theorem uint32OfBytes_uint32Bytes (x : UInt32) : uint32OfBytes (uint32Bytes x) = x := by
  have hx := x.toNat_lt
  have hsum : (uint32Bytes x).foldr (fun b n => b.toNat + 2 ^ 8 * n) 0 = x.toNat := by
    simp only [uint32Bytes, intBytes, List.foldr_cons, List.foldr_nil, UInt8.toNat_ofNat']
    omega
  rw [uint32OfBytes, hsum, UInt32.ofNat_toNat]

theorem uint32Bytes_uint32OfBytes {bs : List UInt8} (h : bs.length = 4) :
    uint32Bytes (uint32OfBytes bs) = bs := by
  match bs, h with
  | [a, b, c, d], _ =>
      have ha := a.toNat_lt
      have hb := b.toNat_lt
      have hc := c.toNat_lt
      have hd := d.toNat_lt
      have hval : (uint32OfBytes [a, b, c, d]).toNat
          = a.toNat + 2 ^ 8 * (b.toNat + 2 ^ 8 * (c.toNat + 2 ^ 8 * d.toNat)) := by
        simp only [uint32OfBytes, List.foldr_cons, List.foldr_nil, UInt32.toNat_ofNat']
        omega
      have hbyte {x : UInt8} {n : Nat} (hn : n % 2 ^ 8 = x.toNat) : UInt8.ofNat n = x := by
        rw [← UInt8.toNat_inj, UInt8.toNat_ofNat', hn]
      rw [uint32Bytes, hval, intBytes]
      refine congrArg₂ _ (hbyte ?_) (congrArg₂ _ (hbyte ?_) (congrArg₂ _ (hbyte ?_)
        (congrArg₂ _ (hbyte ?_) rfl)))
      all_goals omega

/-- Comparing with a string without zero bytes, over its length, is asking for a prefix. -/
theorem strncmp_eq_zero {magic : List UInt8} (hz : 0 ∉ magic) {s : List UInt8} :
    strncmp (c_str s) (c_str magic) magic.length = 0 ↔ magic <+: s := by
  induction magic generalizing s with
  | nil => simp [strncmp]
  | cons b magic ih =>
      obtain ⟨hb, hm⟩ : ¬0 = b ∧ 0 ∉ magic := by simpa using hz
      cases s with
      | nil =>
          -- the terminator is a difference
          have hpos : 0 < b.toNat := Nat.pos_of_ne_zero fun h => hb (UInt8.toNat_inj.mp h).symm
          show (if 0 ≠ b then ((0 : UInt8).toNat : Int) - b.toNat else _) = 0 ↔ _
          rw [if_pos hb]
          simp only [UInt8.toNat_zero, List.prefix_nil, reduceCtorEq, iff_false]
          omega
      | cons a s =>
          show (if a ≠ b then (a.toNat : Int) - b.toNat else if a = 0 then 0
            else strncmp (c_str s) (c_str magic) magic.length) = 0 ↔ _
          rw [List.cons_prefix_cons]
          by_cases hab : a = b
          · subst hab
            rw [if_neg (not_not.mpr rfl), if_neg (Ne.symm hb), ih hm]
            exact ⟨fun h => ⟨rfl, h⟩, And.right⟩
          · have hne : a.toNat ≠ b.toNat := mt UInt8.toNat_inj.mp hab
            rw [if_pos hab]
            constructor
            · omega
            · exact fun h => absurd h.1.symm hab

/-! ## Messages -/

/-- The data of an `AsyncEvent` of type `BitcoinRecvMsg`, the descriptor apart. -/
structure BitcoinMsg where
  command : List UInt8
  payloadLen : UInt32
  payloadChecksum : UInt32
  /-- A default `std::string` where no setter is called. -/
  payload : List UInt8 := []
  deriving DecidableEq

namespace BitcoinMsg

/-- The sizes of a message fit together. -/
structure WellFormed (msg : BitcoinMsg) : Prop where
  command : msg.command.length = BITCOIN_COMMAND_SIZE
  payload : msg.payload.length = msg.payloadLen.toNat

/-- A message on the wire. -/
def frame (msg : BitcoinMsg) : List UInt8 :=
  BITCOIN_MAGIC ++ msg.command ++ uint32Bytes msg.payloadLen ++ uint32Bytes msg.payloadChecksum
    ++ msg.payload

theorem length_frame {msg : BitcoinMsg} (h : msg.WellFormed) :
    msg.frame.length = 24 + msg.payloadLen.toNat := by
  simp only [frame, List.length_append, length_uint32Bytes, h.command, h.payload,
    BITCOIN_MAGIC, BITCOIN_COMMAND_SIZE, List.length_cons, List.length_nil]

/-- The bytes `i` to `i + j` of the buffer. -/
def field (s : List UInt8) (i j : Nat) : List UInt8 := (s.drop i).take j

theorem field_append_drop (s : List UInt8) (i j : Nat) :
    field s i j ++ s.drop (i + j) = s.drop i := by
  rw [field, ← List.drop_drop, List.take_append_drop]

theorem length_field {s : List UInt8} {i j : Nat} (h : i + j ≤ s.length) :
    (field s i j).length = j := by
  rw [field, List.length_take, List.length_drop]
  omega

theorem field_of_append {x y z : List UInt8} {i j : Nat} (hi : x.length = i)
    (hj : y.length = j) : field (x ++ y ++ z) i j = y := by
  subst hi hj
  rw [field, List.append_assoc, List.drop_left, List.take_left]

end BitcoinMsg

open BitcoinMsg (field)

/-- One round of the `while (true)` of `RecvHandler`. -/
def bitcoinRound : Framing.Round UInt8 BitcoinMsg Fault := fun recv_str =>
  if strncmp (c_str recv_str) (c_str BITCOIN_MAGIC) 4 = 0 then
    if recv_str.length ≥ 4 + 12 + 4 then
      let payload_size := uint32OfBytes (field recv_str (4 + 12) 4)
      if payload_size ≠ 0 ∧ recv_str.length ≥ 4 + 12 + 4 * 2 + payload_size.toNat then
        let command := field recv_str 4 12
        let checksum := uint32OfBytes (field recv_str (4 + 12 + 4) 4)
        let payload := field recv_str (4 + 12 + 4 * 2) payload_size.toNat
        .ok (some ({ command, payload, payloadLen := payload_size, payloadChecksum := checksum },
          recv_str.drop (4 + 12 + 4 * 2 + payload_size.toNat)))
      else if payload_size = 0 ∧ recv_str.length ≥ 4 + 12 + 4 * 2 then
        let command := field recv_str 4 12
        let checksum := uint32OfBytes (field recv_str (4 + 12 + 4) 4)
        .ok (some ({ command, payloadLen := payload_size, payloadChecksum := checksum },
          recv_str.drop (4 + 12 + 4 * 2)))
      else .ok none
    else .ok none
  else .ok none

/-! ## What a round does -/

/-- What a round cuts off: the same in both branches, each at its own sizes. -/
def cutAt (s : List UInt8) : BitcoinMsg × List UInt8 :=
  let payload_size := uint32OfBytes (field s 16 4)
  ({ command := field s 4 12
     payloadLen := payload_size
     payloadChecksum := uint32OfBytes (field s 20 4)
     payload := field s 24 payload_size.toNat }, s.drop (24 + payload_size.toNat))

theorem bitcoinRound_eq (s : List UInt8) : bitcoinRound s = .ok
    (if BITCOIN_MAGIC <+: s ∧ 24 + (uint32OfBytes (field s 16 4)).toNat ≤ s.length then
      some (cutAt s) else none) := by
  have hmagic : strncmp (c_str s) (c_str BITCOIN_MAGIC) 4 = 0 ↔ BITCOIN_MAGIC <+: s :=
    strncmp_eq_zero (by decide)
  unfold bitcoinRound
  simp only [Nat.reduceAdd, Nat.reduceMul]
  by_cases hm : BITCOIN_MAGIC <+: s
  · rw [if_pos (hmagic.mpr hm)]
    by_cases hlen : 24 + (uint32OfBytes (field s 16 4)).toNat ≤ s.length
    · rw [if_pos (And.intro hm hlen), if_pos (by omega)]
      by_cases hz : uint32OfBytes (field s 16 4) = 0
      · rw [if_neg fun h => h.1 hz, if_pos (And.intro hz (by omega)), cutAt, hz]
        rfl
      · rw [if_pos (And.intro hz hlen)]
        rfl
    · have hrhs : ¬(BITCOIN_MAGIC <+: s ∧ 24 + (uint32OfBytes (field s 16 4)).toNat ≤ s.length) :=
        mt And.right hlen
      rw [if_neg hrhs]
      split
      · rw [if_neg (mt And.right hlen), if_neg]
        rintro ⟨hz, h24⟩
        rw [hz] at hlen
        exact hlen h24
      · rfl
  · rw [if_neg (mt hmagic.mp hm), if_neg (mt And.left hm)]

theorem cutAt_frame {msg : BitcoinMsg} (h : msg.WellFormed) (t : List UInt8) :
    field (msg.frame ++ t) 16 4 = uint32Bytes msg.payloadLen
      ∧ cutAt (msg.frame ++ t) = (msg, t) := by
  have hcommand : msg.command.length = 12 := h.command
  -- the stream, split before and behind each field
  have hfield {x y z : List UInt8} {i j : Nat} (hs : msg.frame ++ t = x ++ y ++ z)
      (hi : x.length = i) (hj : y.length = j) : field (msg.frame ++ t) i j = y :=
    hs ▸ BitcoinMsg.field_of_append hi hj
  have h4 : field (msg.frame ++ t) 4 12 = msg.command :=
    hfield (x := BITCOIN_MAGIC) (z := uint32Bytes msg.payloadLen ++ uint32Bytes msg.payloadChecksum
      ++ msg.payload ++ t) (by simp only [BitcoinMsg.frame, List.append_assoc]) rfl hcommand
  have h16 : field (msg.frame ++ t) 16 4 = uint32Bytes msg.payloadLen :=
    hfield (x := BITCOIN_MAGIC ++ msg.command) (z := uint32Bytes msg.payloadChecksum
      ++ msg.payload ++ t) (by simp only [BitcoinMsg.frame, List.append_assoc])
      (by rw [List.length_append, hcommand]; rfl) rfl
  have h20 : field (msg.frame ++ t) 20 4 = uint32Bytes msg.payloadChecksum :=
    hfield (x := BITCOIN_MAGIC ++ msg.command ++ uint32Bytes msg.payloadLen)
      (z := msg.payload ++ t) (by simp only [BitcoinMsg.frame, List.append_assoc])
      (by rw [List.length_append, List.length_append, hcommand]; rfl) rfl
  have h24 : field (msg.frame ++ t) 24 msg.payloadLen.toNat = msg.payload :=
    hfield (x := BITCOIN_MAGIC ++ msg.command ++ uint32Bytes msg.payloadLen
      ++ uint32Bytes msg.payloadChecksum) (z := t) rfl
      (by simp only [List.length_append, hcommand]; rfl) h.payload
  have hrest : (msg.frame ++ t).drop (24 + msg.payloadLen.toNat) = t := by
    rw [← BitcoinMsg.length_frame h, List.drop_left]
  refine ⟨h16, ?_⟩
  simp only [cutAt, h4, h16, h20, uint32OfBytes_uint32Bytes, h24, hrest]

theorem frame_cutAt {s : List UInt8} (hm : BITCOIN_MAGIC <+: s)
    (hlen : 24 + (uint32OfBytes (field s 16 4)).toNat ≤ s.length) :
    (cutAt s).1.WellFormed ∧ s = (cutAt s).1.frame ++ (cutAt s).2 := by
  refine ⟨⟨BitcoinMsg.length_field (by omega), BitcoinMsg.length_field hlen⟩, ?_⟩
  have hmagic : BITCOIN_MAGIC = s.take 4 := List.prefix_iff_eq_take.mp hm
  have h4 : field s 4 12 ++ s.drop 16 = s.drop 4 := BitcoinMsg.field_append_drop s 4 12
  have h16 : field s 16 4 ++ s.drop 20 = s.drop 16 := BitcoinMsg.field_append_drop s 16 4
  have h20 : field s 20 4 ++ s.drop 24 = s.drop 20 := BitcoinMsg.field_append_drop s 20 4
  simp only [cutAt, BitcoinMsg.frame,
    uint32Bytes_uint32OfBytes (BitcoinMsg.length_field (by omega : 16 + 4 ≤ s.length)),
    uint32Bytes_uint32OfBytes (BitcoinMsg.length_field (by omega : 20 + 4 ≤ s.length)),
    List.append_assoc, BitcoinMsg.field_append_drop, hmagic, h20, h16, h4, List.take_append_drop]

/-- **A round cuts off a frame exactly where the buffer begins with one.** -/
theorem exact_bitcoinRound :
    Framing.Exact bitcoinRound BitcoinMsg.frame BitcoinMsg.WellFormed where
  cut := by
    intro s r msg
    rw [bitcoinRound_eq]
    constructor
    · intro h
      split at h
      · next hc =>
          obtain ⟨rfl, rfl⟩ := Prod.mk.inj (Option.some.inj (Except.ok.inj h))
          exact frame_cutAt hc.1 hc.2
      · exact nomatch h
    · rintro ⟨hmsg, rfl⟩
      obtain ⟨hsize, hcut⟩ := cutAt_frame hmsg r
      rw [if_pos, hcut]
      refine ⟨?_, ?_⟩
      · simp only [BitcoinMsg.frame, List.append_assoc]
        exact List.prefix_append _ _
      · rw [hsize, uint32OfBytes_uint32Bytes, List.length_append, BitcoinMsg.length_frame hmsg]
        exact Nat.le_add_right _ _
  total s := ⟨_, bitcoinRound_eq s⟩
  pos h := by
    rw [BitcoinMsg.length_frame h]
    omega

/-! ## The handler -/

/-- The events `RecvHandler` pushes. -/
inductive BitcoinEvent where
  | peerSocketClose (closedSocket : Option Nat)
  | bitcoinRecvMsg (bitcoinRecvSocket : Int) (msg : BitcoinMsg)
  deriving DecidableEq

/-- The message an event brings for a descriptor. -/
def BitcoinEvent.msgFor (fd : Int) : BitcoinEvent → Option BitcoinMsg
  | .bitcoinRecvMsg x msg => if x = fd then some msg else none
  | .peerSocketClose _ => none

theorem BitcoinEvent.msgFor_map (x fd : Int) (msgs : List BitcoinMsg) :
    (msgs.map (BitcoinEvent.bitcoinRecvMsg fd)).filterMap (msgFor x)
      = if x = fd then msgs else [] := by
  have hfun : msgFor x ∘ BitcoinEvent.bitcoinRecvMsg fd
      = fun msg => if fd = x then some msg else none := rfl
  rw [List.filterMap_map, hfun]
  by_cases h : x = fd
  · simp [h]
  · simp [h, Ne.symm h]

/-- What `RecvHandler` works on: the queue of `MainEventManager`, the data sockets by
descriptor, and the buffers. -/
structure BL_SocketLayer_Bitcoin where
  eventQueue : List BitcoinEvent
  dataSockets : Int → Option Nat
  recvBuffManager : RecvBufferManager UInt8

namespace BL_SocketLayer_Bitcoin

open BL_SocketLayer_API (received)

variable (L : BL_SocketLayer_Bitcoin)

def init : BL_SocketLayer_Bitcoin where
  eventQueue := []
  dataSockets := fun _ => none
  recvBuffManager := .init

def pushAsyncEvent (event : BitcoinEvent) : BL_SocketLayer_Bitcoin :=
  { L with eventQueue := L.eventQueue ++ [event] }

/-- The branch of `recv()` returning 0. -/
def closedWhileRecv (fd : Int) : BL_SocketLayer_Bitcoin :=
  let L := L.pushAsyncEvent (.peerSocketClose (L.dataSockets fd))
  { L with
    dataSockets := fun x => if x = fd then none else L.dataSockets x
    recvBuffManager := L.recvBuffManager.removeRecvBuffer fd }

/-- The loop of `RecvHandler` around `recv()`: it goes on after a full buffer. -/
def recvLoop (L : BL_SocketLayer_Bitcoin) (fd : Int) :
    List RecvResult → Except Fault BL_SocketLayer_Bitcoin
  | [] => .ok L
  | .data bs _ :: rs =>
      let L := { L with recvBuffManager := L.recvBuffManager.appendToBuffer fd bs }
      if bs.length = 2000 then recvLoop L fd rs else .ok L
  | .closed :: _ => .ok (L.closedWhileRecv fd)
  | .again :: _ => .ok L
  | .failed :: _ => .error .exit

/-- The parse loop: a round for each byte is more than it can use. -/
def parseBuffer (fd : Int) : Except Fault BL_SocketLayer_Bitcoin :=
  match L.recvBuffManager.getRecvBuffer fd with
  | none => .ok L
  | some recv_str => do
      let (msgs, remain) ← Framing.drain bitcoinRound .diverges (recv_str.length + 1) recv_str
      return { L with
        eventQueue := L.eventQueue ++ msgs.map (.bitcoinRecvMsg fd)
        recvBuffManager := L.recvBuffManager.setRecvBuffer fd (some remain) }

def recvHandler (fd : Int) (rs : List RecvResult) : Except Fault BL_SocketLayer_Bitcoin := do
  let L ← L.recvLoop fd rs
  L.parseBuffer fd

/-- `RecvHandler` called for one descriptor after the other. -/
def recvAll : List (Int × List RecvResult) → Except Fault BL_SocketLayer_Bitcoin :=
  List.foldlM (fun L (call : Int × List RecvResult) => L.recvHandler call.1 call.2) L

/-! ## What the handler does -/

/-- The bytes held for a descriptor. -/
def recvBytes (fd : Int) : List UInt8 := L.recvBuffManager.bytes fd

/-- The messages queued for a descriptor. -/
def events (fd : Int) : List BitcoinMsg := L.eventQueue.filterMap (BitcoinEvent.msgFor fd)

/-- What a step for one descriptor leaves alone at the others. -/
def Elsewhere (fd : Int) (L L' : BL_SocketLayer_Bitcoin) : Prop :=
  ∀ x, x ≠ fd → L'.recvBytes x = L.recvBytes x ∧ L'.events x = L.events x

theorem events_closedWhileRecv (fd x : Int) : (L.closedWhileRecv fd).events x = L.events x := by
  show List.filterMap _ (L.eventQueue ++ [_]) = _
  rw [List.filterMap_append]
  exact List.append_nil _

theorem recvLoop_ok (fd : Int) {rs : List RecvResult} (hfail : .failed ∉ rs)
    (L : BL_SocketLayer_Bitcoin) : ∃ L', L.recvLoop fd rs = .ok L' ∧ Elsewhere fd L L' ∧
      L'.events fd = L.events fd ∧
      (.closed ∉ rs → L'.recvBytes fd = L.recvBytes fd ++ received rs) := by
  induction rs generalizing L with
  | nil => exact ⟨L, rfl, fun _ _ => ⟨rfl, rfl⟩, rfl, fun _ => (List.append_nil _).symm⟩
  | cons r rs ih =>
      obtain ⟨hr, hrs⟩ := not_or.mp (mt List.mem_cons.mpr hfail)
      cases r with
      | data bs size =>
          have hfd : (L.recvBuffManager.appendToBuffer fd bs).bytes fd = L.recvBytes fd ++ bs :=
            (RecvBufferManager.bytes_appendToBuffer _ _ _ _).trans (if_pos rfl)
          have helse x (hx : x ≠ fd) :
              (L.recvBuffManager.appendToBuffer fd bs).bytes x = L.recvBytes x :=
            (RecvBufferManager.bytes_appendToBuffer _ _ _ _).trans (if_neg hx)
          rw [recvLoop]
          by_cases hfull : bs.length = 2000
          · obtain ⟨L', hL', hx, hev, hb⟩ := ih hrs
              { L with recvBuffManager := L.recvBuffManager.appendToBuffer fd bs }
            refine ⟨L', (if_pos hfull).trans hL', fun x hne => ?_, hev, fun hcl => ?_⟩
            · exact ⟨(hx x hne).1.trans (helse x hne), (hx x hne).2⟩
            · rw [hb (fun h => hcl (List.mem_cons_of_mem _ h)), received, if_pos hfull,
                ← List.append_assoc]
              exact congrArg (· ++ received rs) hfd
          · refine ⟨{ L with recvBuffManager := L.recvBuffManager.appendToBuffer fd bs },
              if_neg hfull, fun x hne => ⟨helse x hne, rfl⟩, rfl, fun _ => ?_⟩
            rw [received, if_neg hfull]
            exact hfd
      | closed =>
          refine ⟨_, rfl, fun x hx => ⟨?_, L.events_closedWhileRecv fd x⟩,
            L.events_closedWhileRecv fd fd, fun hcl => absurd List.mem_cons_self hcl⟩
          exact (RecvBufferManager.bytes_removeRecvBuffer _ _ _).trans (if_neg hx)
      | again => exact ⟨L, rfl, fun _ _ => ⟨rfl, rfl⟩, rfl, fun _ => (List.append_nil _).symm⟩
      | failed => exact absurd rfl hr

theorem parseBuffer_ok (fd : Int) : ∃ L' msgs, L.parseBuffer fd = .ok L' ∧ Elsewhere fd L L' ∧
    Framing.Drains bitcoinRound (L.recvBytes fd) msgs (L'.recvBytes fd) ∧
    L'.events fd = L.events fd ++ msgs := by
  have hx := exact_bitcoinRound
  unfold parseBuffer
  cases hb : L.recvBuffManager.getRecvBuffer fd with
  | none =>
      have hnil : L.recvBytes fd = [] := by
        rw [recvBytes, RecvBufferManager.bytes, hb, Option.getD_none]
      refine ⟨L, [], rfl, fun _ _ => ⟨rfl, rfl⟩, ?_, (List.append_nil _).symm⟩
      rw [hnil]
      exact .stop rfl
  | some recv_str =>
      have hbytes : L.recvBytes fd = recv_str := by
        rw [recvBytes, RecvBufferManager.bytes, hb, Option.getD_some]
      obtain ⟨msgs, remain, hd⟩ := hx.exists_drains recv_str
      have hdrain : Framing.drain bitcoinRound .diverges (recv_str.length + 1) recv_str
          = .ok (msgs, remain) := Framing.drain_of_drains hx.incremental hd (Nat.lt_succ_self _)
      simp only [hdrain]
      have hev x : ((L.eventQueue ++ msgs.map (BitcoinEvent.bitcoinRecvMsg fd)).filterMap
          (BitcoinEvent.msgFor x)) = L.events x ++ if x = fd then msgs else [] := by
        rw [List.filterMap_append, BitcoinEvent.msgFor_map]
        rfl
      refine ⟨_, msgs, rfl, fun x hne => ⟨?_, ?_⟩, ?_, ?_⟩
      · exact (RecvBufferManager.bytes_setRecvBuffer _ _ _ _).trans (if_neg hne)
      · exact (hev x).trans (by rw [if_neg hne, List.append_nil])
      · have hremain : (L.recvBuffManager.setRecvBuffer fd (some remain)).bytes fd = remain :=
          (RecvBufferManager.bytes_setRecvBuffer _ _ _ _).trans (if_pos rfl)
        show Framing.Drains bitcoinRound _ msgs
          ((L.recvBuffManager.setRecvBuffer fd (some remain)).bytes fd)
        rw [hbytes, hremain]
        exact hd
      · exact (hev fd).trans (by rw [if_pos rfl])

theorem recvHandler_ok (fd : Int) {rs : List RecvResult} (hrs : .failed ∉ rs) :
    ∃ L', L.recvHandler fd rs = .ok L' ∧ Elsewhere fd L L' ∧
      (.closed ∉ rs → ∃ msgs,
        Framing.Drains bitcoinRound (L.recvBytes fd ++ received rs) msgs (L'.recvBytes fd) ∧
        L'.events fd = L.events fd ++ msgs) := by
  obtain ⟨L₁, hloop, helse₁, hev₁, hbytes₁⟩ := recvLoop_ok fd hrs L
  obtain ⟨L₂, msgs, hparse, helse₂, hd, hev₂⟩ := L₁.parseBuffer_ok fd
  refine ⟨L₂, ?_, fun x hx => ?_, fun hcl => ⟨msgs, ?_, by rw [hev₂, hev₁]⟩⟩
  · rw [recvHandler, hloop]
    exact hparse
  · exact ⟨(helse₂ x hx).1.trans (helse₁ x hx).1, (helse₂ x hx).2.trans (helse₁ x hx).2⟩
  · rw [← hbytes₁ hcl]
    exact hd

/-! ## Fragments -/

/-- The bytes the calls read for a descriptor. -/
def stream (fd : Int) (calls : List (Int × List RecvResult)) : List UInt8 :=
  calls.flatMap fun call => if call.1 = fd then received call.2 else []

/-- No call fails, and the connection of `fd` stays open. -/
def Open (fd : Int) (calls : List (Int × List RecvResult)) : Prop :=
  ∀ call ∈ calls, .failed ∉ call.2 ∧ (call.1 = fd → .closed ∉ call.2)

/-- A run of calls drains what they bring, whatever was drained before. -/
theorem recvAll_ok (fd : Int) : ∀ {calls : List (Int × List RecvResult)}, Open fd calls →
    ∀ (L : BL_SocketLayer_Bitcoin) {s : List UInt8} {ms : List BitcoinMsg},
      Framing.Drains bitcoinRound s ms (L.recvBytes fd) →
      ∃ L' msgs, L.recvAll calls = .ok L' ∧ L'.events fd = L.events fd ++ msgs ∧
        Framing.Drains bitcoinRound (s ++ stream fd calls) (ms ++ msgs) (L'.recvBytes fd) := by
  intro calls
  induction calls with
  | nil =>
      intro _ L s ms hd
      refine ⟨L, [], rfl, (List.append_nil _).symm, ?_⟩
      rw [stream, List.flatMap_nil, List.append_nil, List.append_nil]
      exact hd
  | cons call calls ih =>
      intro hopen L s ms hd
      obtain ⟨hcall, hcalls⟩ := List.forall_mem_cons.mp hopen
      obtain ⟨L₁, hL₁, helse, hfd⟩ := L.recvHandler_ok call.1 hcall.1
      have hrun : L.recvAll (call :: calls) = L₁.recvAll calls := by
        rw [recvAll, List.foldlM_cons, hL₁]
        rfl
      by_cases hcfd : call.1 = fd
      · obtain ⟨msgs₁, hd₁, hev₁⟩ := hfd (hcall.2 hcfd)
        rw [hcfd] at hd₁ hev₁
        obtain ⟨L', msgs, hL', hev, hd'⟩ :=
          ih hcalls L₁ (hd.append exact_bitcoinRound.incremental hd₁)
        refine ⟨L', msgs₁ ++ msgs, hrun.trans hL', by rw [hev, hev₁, List.append_assoc], ?_⟩
        rw [stream, List.flatMap_cons, if_pos hcfd, ← List.append_assoc, ← List.append_assoc]
        exact hd'
      · obtain ⟨hbytes, hev₁⟩ := helse fd (Ne.symm hcfd)
        obtain ⟨L', msgs, hL', hev, hd'⟩ := ih hcalls L₁ (hbytes ▸ hd)
        refine ⟨L', msgs, hrun.trans hL', by rw [hev, hev₁], ?_⟩
        rw [stream, List.flatMap_cons, if_neg hcfd, List.nil_append]
        exact hd'

/-- **How the stream came in makes no difference**: the calls end, the messages queued for
the descriptor are those of the longest sequence of frames at the front of its stream, and
what is behind them stays in the buffer. -/
theorem recvHandler_fragments (L : BL_SocketLayer_Bitcoin) (fd : Int)
    (calls : List (Int × List RecvResult)) (hfresh : L.recvBytes fd = [])
    (hopen : Open fd calls) : ∃ L' msgs, L.recvAll calls = .ok L' ∧
      L'.events fd = L.events fd ++ msgs ∧ (∀ msg ∈ msgs, msg.WellFormed) ∧
      stream fd calls = msgs.flatMap BitcoinMsg.frame ++ L'.recvBytes fd ∧
      ∀ msgs' : List BitcoinMsg, (∀ msg ∈ msgs', msg.WellFormed) →
        msgs'.flatMap BitcoinMsg.frame <+: stream fd calls → msgs' <+: msgs := by
  have hstart : Framing.Drains bitcoinRound [] [] (L.recvBytes fd) := by
    rw [hfresh]
    exact .stop rfl
  obtain ⟨L', msgs, hL', hev, hd⟩ := recvAll_ok fd hopen L hstart
  rw [List.nil_append, List.nil_append] at hd
  obtain ⟨hmsgs, hstream, -⟩ := exact_bitcoinRound.drains_iff.mp hd
  exact ⟨L', msgs, hL', hev, hmsgs, hstream, fun _ => exact_bitcoinRound.longest hd⟩

/-- A `verack`, which has no payload, cut within its header, and the front of a second one. -/
def verackCalls : List (Int × List RecvResult) :=
  [(3, [.data [0xf9, 0xbe, 0xb4, 0xd9, 118, 101, 114, 97, 99, 107, 0, 0] (by decide)]),
    (4, [.again]),
    (3, [.data [0, 0, 0, 0, 0, 0, 0, 0, 93, 246, 224, 226, 0xf9, 0xbe] (by decide), .again])]

theorem recvHandler_fragments_verack : ∃ L' msgs, init.recvAll verackCalls = .ok L' ∧
    L'.events 3 = init.events 3 ++ msgs ∧ (∀ msg ∈ msgs, msg.WellFormed) ∧
    stream 3 verackCalls = msgs.flatMap BitcoinMsg.frame ++ L'.recvBytes 3 ∧
    ∀ msgs' : List BitcoinMsg, (∀ msg ∈ msgs', msg.WellFormed) →
      msgs'.flatMap BitcoinMsg.frame <+: stream 3 verackCalls → msgs' <+: msgs :=
  recvHandler_fragments init 3 verackCalls rfl (by
    show ∀ call ∈ verackCalls, _
    decide)

end BL_SocketLayer_Bitcoin

end Bleep
