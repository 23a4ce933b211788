/-
# `Bleep.ShadowLayer` — the commands the simulator writes to a node's pipe

A command is its length, as an `int` of four bytes, and its body (`encode`).  The callback of
the pipe reads a length and then the body, with as many `read` calls as it takes.

It takes what the first call returns for the whole length, and every further call asks for
the whole length again, up to 2000 bytes, and not for what is missing.  So a call that starts
inside a body can run on into the next command, and the total then passes the length and never
meets it.  A command comes through exactly if the first call returns the four bytes and nothing
is queued behind the body or the calls add up to it (`Lands`, `serve_iff`).
-/
import Bleep.BL1.RecvBuffer

namespace Bleep.ShadowLayer

/-! ## The callback -/

/-- `read(fd, buf, n)` on a pipe that its writer keeps open, where the system hands over
`size` bytes at a time: the bytes read and the bytes left, or `EAGAIN`. -/
def read (size n : Nat) (pipe : List UInt8) : Option (List UInt8 × List UInt8) :=
  if n = 0 then some ([], pipe)
  else if pipe = [] then none
  else
    let k := max 1 (min size (min n pipe.length))
    some (pipe.take k, pipe.drop k)

/-- The loop that receives the command, with the `j`-th call of the invocation next. -/
def recvLoop (split : Nat → Nat) (length : Int) :
    (fuel j : Nat) → (total_recv_size : Int) → (recv_str pipe : List UInt8) →
      Except Fault (List UInt8 × List UInt8)
  | 0, _, _, _, _ => .error .diverges
  | fuel + 1, j, total_recv_size, recv_str, pipe =>
      -- the count is a `size_t`
      match read (split j) (min 2000 length % 2 ^ 64).toNat pipe with
      | none => .error .exit
      | some (string_read, pipe) =>
          if 2000 < string_read.length then .error .outOfBounds
          else if string_read = [] then .error .exit
          else
            let total_recv_size := (total_recv_size + string_read.length).bmod (2 ^ 32)
            if total_recv_size = length then .ok (recv_str ++ string_read, pipe)
            else recvLoop split length fuel (j + 1) total_recv_size (recv_str ++ string_read) pipe

/-- What becomes of a command.  After the first two the process is gone. -/
inductive Outcome where
  /-- "wrong format for shadow-generated command" -/
  | wrongFormat
  | shutdown
  | ignored
  deriving DecidableEq

/-- `":"`. -/
def delimiter : UInt8 := 58

/-- `"shutdown"`. -/
def SHUTDOWN : List UInt8 := [115, 104, 117, 116, 100, 111, 119, 110]

/-- What follows the loop. -/
def parseCommand (recv_str : List UInt8) : Outcome :=
  if delimiter ∈ recv_str then
    let cmd_id := recv_str.takeWhile (· ≠ delimiter)
    if cmd_id = SHUTDOWN then .shutdown else .ignored
  else .wrongFormat

/-- What an invocation has received and what it has left in the pipe. -/
structure Invocation where
  recv_str : List UInt8
  outcome : Outcome
  pipe : List UInt8
  deriving DecidableEq

/-- `_shadowPipeIOCallback`, on a pipe that is ready. -/
def shadowPipeIOCallback (split : Nat → Nat) (pipe : List UInt8) : Except Fault Invocation :=
  let (length, pipe) :=
    match read (split 0) 4 pipe with
    | none => (0, pipe)
    | some (bytes, pipe) => (intOfBytes bytes, pipe)
  do
    let (recv_str, pipe) ← recvLoop split length (pipe.length + 1) 1 0 [] pipe
    return ⟨recv_str, parseCommand recv_str, pipe⟩

/-- The invocations from the `i`-th one on, until nothing is left or the process is gone. -/
def serve (split : Nat → Nat → Nat) : (fuel i : Nat) → (pipe : List UInt8) →
    Except Fault (List Invocation)
  | 0, _, _ => .error .diverges
  | fuel + 1, i, pipe =>
      if pipe = [] then .ok []
      else do
        let inv ← shadowPipeIOCallback (split i) pipe
        if inv.outcome = .ignored then
          let invs ← serve split fuel (i + 1) inv.pipe
          return inv :: invs
        else return [inv]

/-! ## Commands -/

/-- A command as it is written: the length is an `int`. -/
structure Command where
  body : List UInt8
  nonempty : body ≠ []
  int : body.length < 2 ^ 31

def Command.encode (c : Command) : List UInt8 := intBytes c.body.length ++ c.body

def encode (cmds : List Command) : List UInt8 := cmds.flatMap Command.encode

/-- One invocation for each command, which gets it as written and leaves the following ones. -/
def served : List Command → List Invocation
  | [] => []
  | c :: cmds =>
      ⟨c.body, parseCommand c.body, encode cmds⟩
        :: if parseCommand c.body = .ignored then served cmds else []

/-- The bytes that a call for a body of `length` bytes takes, if there are as many. -/
def readSize (length size : Nat) : Nat := max 1 (min size (min 2000 length))

/-- The calls of an invocation end where the command ends. -/
def Lands (split : Nat → Nat) (length : Nat) (later : List UInt8) : Prop :=
  4 ≤ split 0 ∧ (later = [] ∨ ∃ m, ∑ j ∈ Finset.range m, readSize length (split (1 + j)) = length)

/-- The calls of every invocation, from the `i`-th one on, end where its command ends. -/
def AllLand (split : Nat → Nat → Nat) : (i : Nat) → List Command → Prop
  | _, [] => True
  | i, c :: cmds =>
      Lands (split i) c.body.length (encode cmds) ∧
        (parseCommand c.body = .ignored → AllLand split (i + 1) cmds)

/-! ## Reading -/

section Read

variable {size n : Nat} {pipe : List UInt8}

theorem read_some {bytes left : List UInt8} (h : read size n pipe = some (bytes, left)) :
    bytes ++ left = pipe := by
  rw [read] at h
  split_ifs at h
  · cases h
    rfl
  · cases h
    exact List.take_append_drop _ _

theorem read_eq (size : Nat) (hn : n ≠ 0) (hpipe : pipe ≠ []) :
    ∃ k, k = max 1 (min size (min n pipe.length)) ∧
      read size n pipe = some (pipe.take k, pipe.drop k) := by
  refine ⟨_, rfl, ?_⟩
  rw [read, if_neg hn, if_neg hpipe]

end Read

section Loop

variable {split : Nat → Nat} {length total : Int} {fuel j : Nat} {recv_str pipe : List UInt8}

/-- The loop moves bytes from the front of the pipe to the end of the string. -/
theorem recvLoop_moves {r p : List UInt8}
    (h : recvLoop split length fuel j total recv_str pipe = .ok (r, p)) :
    r ++ p = recv_str ++ pipe ∧ recv_str.length ≤ r.length := by
  induction fuel generalizing j total recv_str pipe with
  | zero => cases h
  | succ fuel ih =>
      rw [recvLoop] at h
      split at h
      case h_1 => cases h
      case h_2 bytes left hread =>
        have hbytes := read_some hread
        dsimp only at h
        split_ifs at h
        · cases h
          rw [List.append_assoc, hbytes, List.length_append]
          exact ⟨rfl, Nat.le_add_right _ _⟩
        · obtain ⟨heq, hle⟩ := ih h
          rw [List.append_assoc, hbytes] at heq
          rw [List.length_append] at hle
          exact ⟨heq, by omega⟩

theorem recvLoop_ends (hfuel : pipe.length < fuel) :
    recvLoop split length fuel j total recv_str pipe ≠ .error .diverges := by
  induction fuel generalizing j total recv_str pipe with
  | zero => exact absurd hfuel (Nat.not_lt_zero _)
  | succ fuel ih =>
      rw [recvLoop]
      split
      case h_1 =>
        intro h
        cases h
      case h_2 bytes left hread =>
        have hlen := congrArg List.length (read_some hread)
        rw [List.length_append] at hlen
        dsimp only
        split_ifs with hover hnone
        · intro h
          cases h
        · intro h
          cases h
        · intro h
          cases h
        · have hpos := List.length_pos_iff.mpr hnone
          exact ih (by omega)

theorem readSize_pos (length size : Nat) : 0 < readSize length size :=
  lt_of_lt_of_le Nat.zero_lt_one (Nat.le_max_left _ _)

theorem toNat_count {length : Nat} (hint : length < 2 ^ 31) :
    (min 2000 (length : Int) % 2 ^ 64).toNat = min 2000 length := by
  omega

theorem recvLoop_succ (fuel : Nat) (total : Int) (recv_str : List UInt8) {length : Nat}
    (hpos : 0 < length) (hint : length < 2 ^ 31)
    (hpipe : pipe ≠ []) {k : Nat} (hk : k = min (readSize length (split j)) pipe.length) :
    recvLoop split length (fuel + 1) j total recv_str pipe
      = if (total + k).bmod (2 ^ 32) = length then
          .ok (recv_str ++ pipe.take k, pipe.drop k)
        else recvLoop split length fuel (j + 1) ((total + k).bmod (2 ^ 32))
          (recv_str ++ pipe.take k) (pipe.drop k) := by
  have hlen := List.length_pos_iff.mpr hpipe
  have hcount : min 2000 length ≠ 0 := by omega
  obtain ⟨k', hk', hread⟩ := read_eq (split j) hcount hpipe
  have hkk : k' = k := by
    rw [hk, hk', readSize]
    omega
  rw [hkk] at hread
  have hsize : k ≤ 2000 := by
    rw [hk, readSize]
    omega
  have hpipe : k ≤ pipe.length := by
    rw [hk]
    exact Nat.min_le_right _ _
  have htake : (pipe.take k).length = k := by
    rw [List.length_take]
    exact Nat.min_eq_left hpipe
  have hne : pipe.take k ≠ [] := by
    have hsome := readSize_pos length (split j)
    rw [← List.length_pos_iff, htake]
    omega
  rw [recvLoop, toNat_count hint, hread]
  dsimp only
  rw [if_neg (by rw [htake]; omega), if_neg hne, htake]

variable {rest later : List UInt8}

/-- The first call and the calls after it. -/
theorem exists_sum_iff (f : Nat → Nat) {n : Nat} (hn : 0 < n) :
    (∃ m, ∑ i ∈ Finset.range m, f (j + i) = n) ↔
      ∃ m, f j + ∑ i ∈ Finset.range m, f (j + 1 + i) = n := by
  have hsum (m : Nat) : ∑ i ∈ Finset.range (m + 1), f (j + i)
      = f j + ∑ i ∈ Finset.range m, f (j + 1 + i) := by
    rw [Finset.sum_range_succ', Nat.add_comm]
    refine congrArg _ (Finset.sum_congr rfl fun i _ => ?_)
    rw [Nat.add_assoc, Nat.add_comm 1]
  constructor
  · rintro ⟨m, hm⟩
    cases m with
    | zero => exact absurd hm hn.ne
    | succ m => exact ⟨m, (hsum m).symm.trans hm⟩
  · rintro ⟨m, hm⟩
    exact ⟨m + 1, (hsum m).trans hm⟩

theorem bmod_total {t length : Nat} (h : t ≤ length) (hint : length < 2 ^ 31) :
    ((t : Int)).bmod (2 ^ 32) = t := by
  rw [Int.bmod_eq_of_le_mul_two] <;> omega

/-- A loop with `rest` still to come gets it, and leaves what is queued behind it, exactly if
nothing is queued or the calls add up to it. -/
theorem recvLoop_eq_iff {length : Nat} (hint : length < 2 ^ 31) (hrest : rest ≠ [])
    (hle : rest.length ≤ length) (hfuel : rest.length + later.length < fuel) :
    recvLoop split length fuel j ((length - rest.length : Nat) : Int) recv_str (rest ++ later)
        = .ok (recv_str ++ rest, later) ↔
      later = [] ∨
        ∃ m, ∑ i ∈ Finset.range m, readSize length (split (j + i)) = rest.length := by
  induction fuel generalizing j rest recv_str with
  | zero => exact absurd hfuel (Nat.not_lt_zero _)
  | succ fuel ih =>
      have hlen := List.length_pos_iff.mpr hrest
      have hpos := readSize_pos length (split j)
      have hne : rest ++ later ≠ [] := fun h => hrest (List.append_eq_nil_iff.mp h).1
      obtain ⟨k, hk⟩ : ∃ k, k = min (readSize length (split j)) (rest ++ later).length := ⟨_, rfl⟩
      have hround := recvLoop_succ fuel ((length - rest.length : Nat) : Int) recv_str
        (by omega) hint hne hk
      rw [List.length_append] at hk
      have htotal :
          ((length - rest.length : Nat) : Int) + k = (length - rest.length + k : Nat) := by
        push_cast
        rfl
      rw [htotal] at hround
      rcases Nat.lt_trichotomy k rest.length with hlt | heq | hgt
      · -- the call ends inside the body
        have hsize : k = readSize length (split j) := by omega
        have hdrop : (rest.drop k).length = rest.length - k := List.length_drop
        have hsum : length - rest.length + k = length - (rest.drop k).length := by omega
        have hne' : ((length - (rest.drop k).length : Nat) : Int) ≠ length := by omega
        rw [hround, hsum, bmod_total (Nat.sub_le _ _) hint, if_neg hne',
          List.take_append_of_le_length hlt.le, List.drop_append_of_le_length hlt.le]
        have hnext := @ih (j + 1) (recv_str ++ rest.take k) (rest.drop k)
          (by rw [← List.length_pos_iff]; omega) (by omega) (by omega)
        rw [List.append_assoc, List.take_append_drop] at hnext
        rw [hnext, exists_sum_iff (fun i => readSize length (split i)) hlen, hdrop, ← hsize]
        refine or_congr_right (exists_congr fun m => ?_)
        clear hnext
        omega
      · -- the call ends with the body
        have hsum : length - rest.length + k = length := by omega
        rw [hround, hsum, bmod_total le_rfl hint, if_pos rfl, heq, List.take_left, List.drop_left]
        refine iff_of_true rfl ?_
        by_cases hnil : later = []
        · exact .inl hnil
        · have hlater := List.length_pos_iff.mpr hnil
          refine .inr ⟨1, ?_⟩
          rw [Finset.sum_range_one, Nat.add_zero]
          omega
      · -- the call runs on into what is queued
        have hlater : later ≠ [] := by
          rw [← List.length_pos_iff]
          omega
        have htake : ((rest ++ later).take k).length = k := by
          rw [List.length_take, List.length_append]
          omega
        refine iff_of_false (fun hres => ?_) ?_
        · rw [hround] at hres
          split_ifs at hres with hend
          · have hstr := congrArg List.length (Prod.mk.inj (Except.ok.inj hres)).1
            rw [List.length_append, List.length_append, htake] at hstr
            omega
          · have hstr := (recvLoop_moves hres).2
            rw [List.length_append, List.length_append, htake] at hstr
            omega
        · rintro (hnil | hsum)
          · exact hlater hnil
          · obtain ⟨m, hm⟩ := (exists_sum_iff (fun i => readSize length (split i)) hlen).mp hsum
            omega

end Loop

/-! ## Invocations -/

theorem Command.encode_ne_nil (c : Command) (later : List UInt8) : c.encode ++ later ≠ [] := by
  rw [← List.length_pos_iff, encode, List.length_append, List.length_append, length_intBytes]
  omega

/-- An invocation gets the command as it was written, and leaves what is queued behind it,
exactly if its calls land. -/
theorem shadowPipeIOCallback_iff (split : Nat → Nat) (c : Command) (later : List UInt8) :
    shadowPipeIOCallback split (c.encode ++ later)
        = .ok ⟨c.body, parseCommand c.body, later⟩ ↔ Lands split c.body.length later := by
  obtain ⟨k, hk, hread⟩ := read_eq (split 0) (n := 4) (by decide) (c.encode_ne_nil later)
  have hlen : (c.encode ++ later).length = 4 + c.body.length + later.length := by
    rw [Command.encode, List.length_append, List.length_append, length_intBytes]
  rw [shadowPipeIOCallback, hread]
  dsimp only
  rw [bind_ok]
  by_cases hfour : 4 ≤ split 0
  · -- the whole length
    have hk4 : k = 4 := by omega
    have htake : (c.encode ++ later).take k = intBytes c.body.length := by
      rw [hk4, Command.encode, List.append_assoc]
      rfl
    have hdrop : (c.encode ++ later).drop k = c.body ++ later := by
      rw [hk4, Command.encode, List.append_assoc]
      rfl
    have hfuel : c.body.length + later.length < (c.body ++ later).length + 1 := by
      rw [List.length_append]
      exact Nat.lt_succ_self _
    have hloop : recvLoop split c.body.length ((c.body ++ later).length + 1) 1
        ((c.body.length - c.body.length : Nat) : Int) [] (c.body ++ later)
          = .ok ([] ++ c.body, later) ↔ _ := recvLoop_eq_iff c.int c.nonempty le_rfl hfuel
    rw [Nat.sub_self, List.nil_append] at hloop
    rw [htake, hdrop, intOfBytes_intBytes c.int, Lands, and_iff_right hfour, ← hloop]
    constructor
    · rintro ⟨⟨r, p⟩, hr, hp⟩
      cases hp
      exact hr
    · intro h
      exact ⟨_, h, rfl⟩
  · refine iff_of_false ?_ fun h => hfour h.1
    rintro ⟨⟨r, p⟩, hr, hp⟩
    obtain ⟨hbody, -, hlater⟩ := Invocation.mk.inj (Except.ok.inj hp)
    -- bytes of the length are still in the pipe, and the loop drops none
    have hmoves := congrArg List.length (recvLoop_moves hr).1
    dsimp only at hbody hlater
    rw [hbody, hlater, List.length_append, List.nil_append, List.length_drop, hlen] at hmoves
    omega

theorem shadowPipeIOCallback_ends (split : Nat → Nat) (pipe : List UInt8) :
    shadowPipeIOCallback split pipe ≠ .error .diverges := by
  intro h
  rcases bind_error.mp h with hloop | ⟨_, _, hret⟩
  · exact recvLoop_ends (Nat.lt_succ_self _) hloop
  · cases hret

theorem encode_cons (c : Command) (cmds : List Command) :
    encode (c :: cmds) = c.encode ++ encode cmds := List.flatMap_cons

/-- A run of invocations on the commands that are queued. -/
theorem serve_encode_iff {split : Nat → Nat → Nat} {cmds : List Command} {fuel i : Nat}
    (hfuel : (encode cmds).length < fuel) :
    serve split fuel i (encode cmds) = .ok (served cmds) ↔ AllLand split i cmds := by
  induction cmds generalizing fuel i with
  | nil =>
      cases fuel with
      | zero => exact absurd hfuel (Nat.not_lt_zero _)
      | succ fuel => exact iff_of_true rfl trivial
  | cons c cmds ih =>
      cases fuel with
      | zero => exact absurd hfuel (Nat.not_lt_zero _)
      | succ fuel =>
          have hlen : (encode cmds).length < fuel := by
            rw [encode_cons, List.length_append, Command.encode, List.length_append,
              length_intBytes] at hfuel
            omega
          have hinv := shadowPipeIOCallback_iff (split i) c (encode cmds)
          rw [AllLand, ← hinv, encode_cons, serve, if_neg (c.encode_ne_nil _), bind_ok, served]
          constructor
          · rintro ⟨inv, hcall, hrest⟩
            split at hrest
            case isTrue hgo =>
              obtain ⟨invs, hinvs, hret⟩ := bind_ok.mp hrest
              obtain ⟨rfl, htail⟩ := List.cons.inj (Except.ok.inj hret)
              refine ⟨hcall, fun hign => ?_⟩
              rw [if_pos hign] at htail
              rw [← ih hlen, ← htail]
              exact hinvs
            case isFalse hstop =>
              obtain ⟨rfl, -⟩ := List.cons.inj (Except.ok.inj hrest)
              exact ⟨hcall, fun hign => absurd hign hstop⟩
          · rintro ⟨hcall, hrest⟩
            refine ⟨_, hcall, ?_⟩
            dsimp only
            split
            case isTrue hgo =>
              rw [(ih hlen).mpr (hrest hgo)]
              rfl
            case isFalse hstop => rfl

/-- **The shadow pipe.**  Each command that is queued gets an invocation that consumes its
length and its body and nothing else, exactly if the calls of every invocation land. -/
theorem serve_iff (split : Nat → Nat → Nat) (cmds : List Command) :
    serve split ((encode cmds).length + 1) 0 (encode cmds) = .ok (served cmds) ↔
      AllLand split 0 cmds :=
  serve_encode_iff (Nat.lt_succ_self _)

/-- A command of 2500 bytes. -/
def longCommand : Command where
  body := List.replicate 2500 delimiter
  nonempty := by
    rw [← List.length_pos_iff, List.length_replicate]
    decide
  int := by
    rw [List.length_replicate]
    decide

/-- With a command queued behind it, the long one does not come through even if every call
returns as much as it can. -/
theorem serve_fails :
    ¬ ∀ (split : Nat → Nat → Nat) (cmds : List Command),
      serve split ((encode cmds).length + 1) 0 (encode cmds) = .ok (served cmds) := by
  intro h
  have hall (cmds : List Command) : AllLand (fun _ _ => 2000) 0 cmds :=
    (serve_encode_iff (Nat.lt_succ_self _)).mp (h _ cmds)
  obtain ⟨⟨-, hland⟩, -⟩ := hall [longCommand, longCommand]
  have hbody : longCommand.body.length = 2500 := by
    rw [longCommand, List.length_replicate]
  rw [hbody] at hland
  rcases hland with hnil | ⟨m, hm⟩
  · rw [encode_cons] at hnil
    exact longCommand.encode_ne_nil _ hnil
  · have hsize : readSize 2500 2000 = 2000 := rfl
    dsimp only at hm
    rw [hsize, Finset.sum_const, Finset.card_range, smul_eq_mul] at hm
    omega

end Bleep.ShadowLayer
