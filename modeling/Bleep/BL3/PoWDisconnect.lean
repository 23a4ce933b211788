/-
# `Bleep.BL3.PoWDisconnect` — block synchronisation while peers come and go

In `PoWNetwork` everybody can always be reached.  Here every node has a table of
active peers that changes between any two messages, on each side by itself: a
message to somebody who is not in the table is not sent, `SendMsgToPeer` returns
`false` and no handler looks at that, and what is in flight can be lost once one
of its ends has dropped the other.

The protocol layer is told nothing of all this.  While a node processes an
inventory it waits for one message (`LinkOK`), and whoever takes that message
away, or the peer it is to come from, leaves the flag set for the rest of the
run (`Wedged`).  `Steady` lists the ways in which this comes about; without them
a node that processes has its request under way (`waits_of_steady`).
-/
import Bleep.BL3.PoWSync

namespace Bleep

open Protocol

variable {N H A : Type}

/-- A network and the peer tables of its nodes; `target` is not in the code and
remembers whom a node's last `GETDATA` was addressed to. -/
structure LinkConfig (N H A : Type) [LinearOrder A] where
  net : PoWConfig N H A
  peers : N → List N
  target : N → Option N

/-- What happens in a network, and to the tables: node `n` no longer has the peer
`m`, or has it (again). -/
inductive LinkAct (N H A : Type) where
  | net (a : Act N (PoWAct H A))
  | drop (n m : N)
  | attach (n m : N)

/-- Whom the `GETDATA` among the answers of a handler is addressed to, whether it
can be sent or not.  No handler makes more than one. -/
def addressee (out : Sends N H A) : Option N :=
  out.findSome? fun x =>
    match x.2 with
    | .blkGetData _ => some x.1
    | _ => none

theorem addressee_eq_none {out : Sends N H A} (n : N)
    (h : ∀ x ∈ out, requester (⟨n, x.1, x.2⟩ : Packet N (MessageObject H A)) = none) :
    addressee out = none := by
  refine List.findSome?_eq_none_iff.mpr ?_
  rintro ⟨d, o⟩ hx
  have hreq := h _ hx
  cases o with
  | blkGetData k => exact nomatch hreq
  | _ => rfl

variable [LinearOrder A] [DecidableEq N]

namespace LinkConfig

variable (c : LinkConfig N H A)

/-- `SendMsgToPeer`, for each of the answers of node `n`. -/
def sendMsgToPeer (n : N) (out : Sends N H A) : Sends N H A :=
  out.filter fun x => x.1 ∈ c.peers n

/-- Node `n` goes to `p` with the answers `out`; `w` is what was in flight. -/
def post (n : N) (p : PoWNode N H A) (out : Sends N H A)
    (w : List (Packet N (MessageObject H A))) : LinkConfig N H A :=
  { c with
    net := c.net.post n p (c.sendMsgToPeer n out) w
    target := Function.update c.target n ((addressee out).or (c.target n)) }

variable [DecidableEq H] [Zero H] [Zero A] (sha : Sha256 H A)

def next : LinkAct N H A → Option (LinkConfig N H A)
  | .net (.fire n l) =>
      match (c.net.node n).fire sha (c.peers n) l with
      | some (.ok (p, out)) => some (c.post n p out c.net.wire)
      | _ => none
  | .net (.deliver i) =>
      match c.net.wire[i]? with
      | none => none
      | some pk =>
          match (c.net.node pk.dest).recv sha (c.peers pk.dest) pk.src pk.body with
          | .ok (p, out) => some (c.post pk.dest p out (c.net.wire.eraseIdx i))
          | .error _ => none
  | .net (.lose i) =>
      match c.net.wire[i]? with
      | none => none
      | some pk =>
          if pk.dest ∈ c.peers pk.src ∧ pk.src ∈ c.peers pk.dest then none
          else some { c with net := { c.net with wire := c.net.wire.eraseIdx i } }
  | .drop n m =>
      some { c with peers := Function.update c.peers n ((c.peers n).filter (· ≠ m)) }
  | .attach n m => some { c with peers := Function.update c.peers n (m :: c.peers n) }

/-- The nodes of the network at the start; the tables are arbitrary. -/
def init (peers : N → List N) : LinkConfig N H A :=
  { net := { node := fun _ => .init sha, wire := [] }, peers, target := fun _ => none }

end LinkConfig

/-! ## The message a node waits for -/

section Waits

variable {c : LinkConfig N H A}

/-- The node has its request under way: the peer its last `GETDATA` was addressed
to is an active peer, and the `GETDATA` to it or a `BLK` from it is in flight. -/
def Waits (c : LinkConfig N H A) (n : N) : Prop :=
  (c.net.node n).layer.processing = true → ∃ m, c.target n = some m ∧ m ∈ c.peers n ∧
    ∃ pk ∈ c.net.wire, (pk.src = n ∧ pk.dest = m ∧ ∃ k, pk.body = .blkGetData k) ∨
      pk.src = m ∧ pk.dest = n ∧ ∃ b, pk.body = .blkBlk b

/-- The invariant of runs in which nothing goes wrong. -/
structure LinkOK (c : LinkConfig N H A) : Prop where
  balance : ∀ n, requests c.net.wire n = load c.net n
  aimed : ∀ pk ∈ c.net.wire, ∀ n ∈ requester pk, c.target n = some (responder pk)
  peer : ∀ n, (c.net.node n).layer.processing = true → ∃ m, c.target n = some m ∧ m ∈ c.peers n

theorem LinkOK.waits (h : LinkOK c) (n : N) : Waits c n := by
  intro hp
  obtain ⟨m, hm, hpeer⟩ := h.peer n hp
  refine ⟨m, hm, hpeer, ?_⟩
  -- its one request is in flight, to or from `m`
  have hpos : 0 < requests c.net.wire n := by
    rw [h.balance n, load, if_pos hp]
    exact Nat.one_pos
  obtain ⟨pk, hpk, hreq⟩ := List.countP_pos_iff.mp hpos
  have hreq' : requester pk = some n := of_decide_eq_true hreq
  have haim : responder pk = m := Option.some.inj ((h.aimed pk hpk n hreq').symm.trans hm)
  refine ⟨pk, hpk, ?_⟩
  obtain ⟨src, dest, body⟩ := pk
  cases body with
  | blkGetData k => exact .inl ⟨Option.some.inj hreq', haim, k, rfl⟩
  | blkBlk b => exact .inr ⟨haim, Option.some.inj hreq', b, rfl⟩
  | _ => cases hreq'

theorem requests_pos_of_waits {n : N} (h : Waits c n)
    (hp : (c.net.node n).layer.processing = true) :
    0 < requests c.net.wire n := by
  obtain ⟨m, -, -, pk, hpk, hreq⟩ := h hp
  refine List.countP_pos_iff.mpr ⟨pk, hpk, decide_eq_true ?_⟩
  obtain ⟨src, dest, body⟩ := pk
  rcases hreq with ⟨rfl, -, k, rfl⟩ | ⟨-, rfl, b, rfl⟩
  · rfl
  · rfl

/-- Once its one message is taken off the wire, a node waits for nothing. -/
theorem LinkOK.requests_eraseIdx (h : LinkOK c) {i : Nat} {pk : Packet N (MessageObject H A)}
    (hpk : c.net.wire[i]? = some pk) {n : N} (hn : requester pk = some n) :
    (c.net.node n).layer.processing = true ∧ requests (c.net.wire.eraseIdx i) n = 0 := by
  have hcount := requests_wire hpk n
  have hbal := h.balance n
  rw [if_pos hn] at hcount
  rw [load] at hbal
  split at hbal
  · next hp => exact ⟨hp, by omega⟩
  · omega

/-! ### A node moves -/

section Post

variable {n : N} {p : PoWNode N H A} {out : Sends N H A} {w : List (Packet N (MessageObject H A))}

theorem sendMsgToPeer_single {m : N} (h : m ∈ c.peers n) (o : MessageObject H A) :
    c.sendMsgToPeer n [(m, o)] = [(m, o)] := by
  simp [LinkConfig.sendMsgToPeer, h]

theorem requests_sendMsgToPeer
    (h : ∀ x ∈ out, requester (⟨n, x.1, x.2⟩ : Packet N (MessageObject H A)) = none) (m : N) :
    requests (packets n (c.sendMsgToPeer n out)) m = 0 :=
  requests_packets_eq_zero (fun x hx => h x (List.mem_of_mem_filter hx)) m

@[simp] theorem post_target_self :
    (c.post n p out w).target n = (addressee out).or (c.target n) := by
  simp [LinkConfig.post]

@[simp] theorem post_target_of_ne {m : N} (h : m ≠ n) :
    (c.post n p out w).target m = c.target m := by
  simp [LinkConfig.post, h]

/-- **The step lemma.**  Node `n` moves; what it gives as answers, and what is left
of the messages in flight, balance. -/
theorem LinkOK.post (h : LinkOK c) (hw : ∀ pk ∈ w, pk ∈ c.net.wire)
    (hbal : Balanced c.net (c.post n p out w).net)
    (hold : addressee out = none ∨ requests w n = 0)
    (hnew : ∀ x ∈ out, ∀ m ∈ requester (⟨n, x.1, x.2⟩ : Packet N (MessageObject H A)),
      (c.post n p out w).target m = some (responder ⟨n, x.1, x.2⟩))
    (hpeer : p.layer.processing = true →
      ∃ m, (addressee out).or (c.target n) = some m ∧ m ∈ c.peers n) :
    LinkOK (c.post n p out w) := by
  refine ⟨?_, ?_, ?_⟩
  · intro m
    have hm := hbal m
    have hm' := h.balance m
    omega
  · intro pk hpk m hm
    rcases (Config.mem_post_wire _ _ _ _ _).mp hpk with hin | ⟨rfl, hin⟩
    · have haim := h.aimed pk (hw pk hin) m hm
      by_cases hmn : m = n
      · subst hmn
        rcases hold with hnone | hzero
        · rw [post_target_self, hnone]
          exact haim
        · exact absurd hm (requester_ne_of_requests hzero hin)
      · rw [post_target_of_ne hmn]
        exact haim
    · exact hnew _ (List.mem_of_mem_filter hin) m hm
  · intro m hm
    by_cases hmn : m = n
    · subst hmn
      rw [post_target_self]
      refine hpeer ?_
      rwa [LinkConfig.post, Config.post_node_self] at hm
    · rw [post_target_of_ne hmn]
      refine h.peer m ?_
      rwa [LinkConfig.post, Config.post_node_of_ne _ _ _ _ _ hmn] at hm

theorem LinkOK.quiet (h : LinkOK c) (hw : ∀ pk ∈ w, pk ∈ c.net.wire)
    (hreq : ∀ m, requests w m = requests c.net.wire m)
    (hp : p.layer.processing = (c.net.node n).layer.processing)
    (hout : ∀ x ∈ out, requester (⟨n, x.1, x.2⟩ : Packet N (MessageObject H A)) = none) :
    LinkOK (c.post n p out w) := by
  have hnone := addressee_eq_none n hout
  refine h.post hw (balanced_of_quiet hp fun m => ?_) (.inl hnone) ?_ ?_
  · rw [requests_sendMsgToPeer hout, Nat.add_zero]
    exact hreq m
  · intro x hx m hm
    rw [hout x hx] at hm
    exact nomatch hm
  · intro hp'
    rw [hnone]
    exact h.peer n (hp ▸ hp')

end Post

section Deliver

variable {i : Nat} {src n : N} {p : PoWNode N H A} {out : Sends N H A}

theorem LinkOK.invTaken (h : LinkOK c) {hs : List H}
    (hpk : c.net.wire[i]? = some ⟨src, n, .blkInv hs⟩) (hpeer : src ∈ c.peers n)
    (hidle : (c.net.node n).layer.processing = false) (hp : p.layer.processing = true) {k : H} :
    LinkOK (c.post n p [(src, .blkGetData k)] (c.net.wire.eraseIdx i)) := by
  have hothers : ∀ m, requests (c.net.wire.eraseIdx i) m = requests c.net.wire m :=
    fun m => (requests_wire hpk m).symm
  have hzero : requests (c.net.wire.eraseIdx i) n = 0 := by
    rw [hothers n, h.balance n, load, hidle]
    rfl
  refine h.post (fun _ => mem_of_mem_eraseIdx) ?_ (.inr hzero)
    (List.forall_mem_singleton.mpr ?_) fun _ => ⟨src, rfl, hpeer⟩
  · rw [LinkConfig.post, sendMsgToPeer_single hpeer]
    exact balanced_of_request hidle hp hothers
  · rintro m ⟨⟩
    rw [post_target_self]
    rfl

/-- The block takes the place of the request. -/
theorem LinkOK.getData (h : LinkOK c) {k : H}
    (hpk : c.net.wire[i]? = some ⟨src, n, .blkGetData k⟩) (hpeer : src ∈ c.peers n)
    {b : POWBlock H A} :
    LinkOK (c.post n (c.net.node n) [(src, .blkBlk b)] (c.net.wire.eraseIdx i)) := by
  refine h.post (fun _ => mem_of_mem_eraseIdx) (balanced_of_quiet rfl fun m => ?_) (.inl rfl)
    (List.forall_mem_singleton.mpr ?_) (h.peer n)
  · rw [sendMsgToPeer_single hpeer, requests_single, requests_wire hpk m]
    rfl
  · rintro m ⟨⟩
    have hto := h.aimed _ (mem_of_wire hpk) src rfl
    by_cases hsn : src = n
    · subst hsn
      rw [post_target_self]
      exact hto
    · rw [post_target_of_ne hsn]
      exact hto

/-- A block on its way is one that its node waits for, from its peer. -/
theorem LinkOK.of_blk (h : LinkOK c) {b : POWBlock H A}
    (hpk : c.net.wire[i]? = some ⟨src, n, .blkBlk b⟩) :
    (c.net.node n).layer.processing = true ∧ src ∈ c.peers n ∧
      requests (c.net.wire.eraseIdx i) n = 0 := by
  obtain ⟨hp, hzero⟩ := h.requests_eraseIdx hpk (n := n) rfl
  obtain ⟨m, hm, hpeer⟩ := h.peer n hp
  obtain rfl : src = m :=
    Option.some.inj ((h.aimed _ (mem_of_wire hpk) n rfl).symm.trans hm)
  exact ⟨hp, hpeer, hzero⟩

theorem LinkOK.blkNext (h : LinkOK c) {b : POWBlock H A}
    (hpk : c.net.wire[i]? = some ⟨src, n, .blkBlk b⟩)
    (hp : p.layer.processing = (c.net.node n).layer.processing) {k : H} :
    LinkOK (c.post n p [(src, .blkGetData k)] (c.net.wire.eraseIdx i)) := by
  obtain ⟨-, hpeer, hzero⟩ := h.of_blk hpk
  refine h.post (fun _ => mem_of_mem_eraseIdx) (balanced_of_quiet hp fun m => ?_) (.inr hzero)
    (List.forall_mem_singleton.mpr ?_) fun _ => ⟨src, rfl, hpeer⟩
  · rw [sendMsgToPeer_single hpeer, requests_single, requests_wire hpk m]
    rfl
  · rintro m ⟨⟩
    rw [post_target_self]
    rfl

/-- The block was the one thing under way for the node. -/
theorem LinkOK.blkLast (h : LinkOK c) {b : POWBlock H A}
    (hpk : c.net.wire[i]? = some ⟨src, n, .blkBlk b⟩) (hp : p.layer.processing = false)
    (hout : ∀ x ∈ out, requester (⟨n, x.1, x.2⟩ : Packet N (MessageObject H A)) = none) :
    LinkOK (c.post n p out (c.net.wire.eraseIdx i)) := by
  obtain ⟨hbusy, -, -⟩ := h.of_blk hpk
  refine h.post (fun _ => mem_of_mem_eraseIdx) ?_ (.inl (addressee_eq_none n hout)) ?_ ?_
  · exact balanced_of_done hpk hbusy hp (requests_sendMsgToPeer hout)
  · intro x hx m hm
    rw [hout x hx] at hm
    exact nomatch hm
  · exact fun hp' => nomatch hp.symm.trans hp'

end Deliver

end Waits

/-! ## Handlers and what is asked for -/

variable [DecidableEq H] [Zero H] {sha : Sha256 H A}

/-- A handler asks for a block, or sends one, for somebody who waited already; or
it starts to process an inventory. -/
theorem recv_requester {nb : List N} {p p' : PoWNode N H A} (hr : p.layer.blocktree.Rooted)
    {src n : N} {body : MessageObject H A} {out : Sends N H A}
    (hf : p.recv sha nb src body = .ok (p', out)) {x : N × MessageObject H A} (hx : x ∈ out)
    {m : N} (hm : requester (⟨n, x.1, x.2⟩ : Packet N (MessageObject H A)) = some m) :
    requester (⟨src, n, body⟩ : Packet N (MessageObject H A)) = some m ∨
      m = n ∧ p.layer.processing = false := by
  -- of a single answer to the sender
  have hone : ∀ {o : MessageObject H A}, x ∈ [(src, o)] →
      requester (⟨n, src, o⟩ : Packet N (MessageObject H A)) = some m := by
    intro o hx'
    obtain rfl := List.mem_singleton.mp hx'
    exact hm
  cases PoWNode.recv_ok hr hf with
  | tx _ htx => exact nomatch (requester_of_silent (htx.silent x hx)).symm.trans hm
  | invBusy _ => exact nomatch hx
  | invUnknown _ _ _ _ => exact nomatch hone hx
  | invTaken hp _ _ _ => exact .inr ⟨(Option.some.inj (hone hx)).symm, hp⟩
  | invKnown _ _ => exact nomatch hx
  | getBlocks _ _ _ => exact nomatch hone hx
  | getData _ => exact .inl (hone hx)
  | blkAlone _ => exact nomatch hx
  | blkNext _ _ => exact .inl (hone hx)
  | blkLast _ _ =>
      obtain ⟨d, o⟩ := x
      obtain ⟨-, -, rfl⟩ := mem_relay.mp hx
      exact nomatch hm

theorem recv_processing {nb : List N} {p p' : PoWNode N H A} (hr : p.layer.blocktree.Rooted)
    {src n : N} {body : MessageObject H A} {out : Sends N H A}
    (hf : p.recv sha nb src body = .ok (p', out)) (hp : p.layer.processing = true)
    (hn : requester (⟨src, n, body⟩ : Packet N (MessageObject H A)) ≠ some n) :
    p'.layer.processing = true := by
  cases PoWNode.recv_ok hr hf with
  | tx _ htx => exact htx.chain.processing.trans hp
  | invTaken _ _ _ _ => rfl
  | invKnown hp' _ => exact nomatch hp'.symm.trans hp
  | blkAlone _ => exact absurd rfl hn
  | blkNext _ _ => exact absurd rfl hn
  | blkLast _ _ => exact absurd rfl hn
  | _ => exact hp

theorem LinkOK.fire {c : LinkConfig N H A} (h : LinkOK c) {n : N}
    (hr : (tree c.net n).Rooted) {l : PoWAct H A} {p : PoWNode N H A} {out : Sends N H A}
    (hf : (c.net.node n).fire sha (c.peers n) l = some (.ok (p, out))) :
    LinkOK (c.post n p out c.net.wire) := by
  rcases PoWNode.fire_ok hr hf with htx | ⟨b, hmine, rfl⟩ | ⟨b, q, -, rfl, rfl, -⟩
  · exact h.quiet (fun _ => id) (fun _ => rfl) htx.chain.processing
      fun x hx => requester_of_silent (htx.silent x hx)
  · exact h.quiet (fun _ => id) (fun _ => rfl) (by rw [hmine.layer]) fun x hx => nomatch hx
  · refine h.quiet (fun _ => id) (fun _ => rfl) rfl ?_
    rintro ⟨m, o⟩ hx
    obtain ⟨-, rfl⟩ := mem_sendAll.mp hx
    rfl

/-- The handler of this message asks its sender for a block, or sends it one. -/
def Replies (p : PoWNode N H A) : MessageObject H A → Prop
  | .blkInv hs => p.layer.processing = false ∧
      (∃ front, hs.head? = some front ∧ p.layer.blocktree.containBlockHash front = true) ∧
      ∃ k ∈ hs, p.layer.blocktree.containBlock k = false
  | .blkGetData _ => True
  | _ => False

theorem LinkOK.deliver {c : LinkConfig N H A} (h : LinkOK c) {i : Nat}
    {pk : Packet N (MessageObject H A)} (hpk : c.net.wire[i]? = some pk)
    (hr : (tree c.net pk.dest).Rooted)
    (hst : Replies (c.net.node pk.dest) pk.body → pk.src ∈ c.peers pk.dest)
    {p : PoWNode N H A} {out : Sends N H A}
    (hf : (c.net.node pk.dest).recv sha (c.peers pk.dest) pk.src pk.body = .ok (p, out)) :
    LinkOK (c.post pk.dest p out (c.net.wire.eraseIdx i)) := by
  have hw : ∀ q ∈ c.net.wire.eraseIdx i, q ∈ c.net.wire := fun q => mem_of_mem_eraseIdx
  obtain ⟨src, n, body⟩ := pk
  -- a message that asks for nothing and brings nothing leaves the requests alone
  have hothers : requester (⟨src, n, body⟩ : Packet N (MessageObject H A)) = none →
      ∀ m, requests (c.net.wire.eraseIdx i) m = requests c.net.wire m := by
    intro hnone m
    rw [requests_wire hpk m, hnone, if_neg (Option.some_ne_none m).symm, Nat.add_zero]
  cases PoWNode.recv_ok hr hf with
  | tx hsil htx =>
      exact h.quiet hw (hothers (requester_of_silent (x := (n, body)) hsil)) htx.chain.processing
        fun x hx => requester_of_silent (htx.silent x hx)
  | invBusy _ => exact h.quiet hw (hothers rfl) rfl fun x hx => absurd hx List.not_mem_nil
  | invUnknown _ _ _ _ =>
      exact h.quiet hw (hothers rfl) rfl (List.forall_mem_singleton.mpr rfl)
  | @invTaken hs front k hp hfront hkn hk =>
      have hmissing : (c.net.node n).layer.blocktree.containBlock k = false := by
        have hnot := List.find?_some hk
        simpa using hnot
      refine h.invTaken hpk (hst ⟨hp, ⟨front, hfront, hkn⟩, k, ?_, hmissing⟩) hp rfl
      exact List.mem_of_find?_eq_some hk
  | invKnown hp _ => exact h.quiet hw (hothers rfl) hp.symm fun x hx => absurd hx List.not_mem_nil
  | getBlocks _ _ _ => exact h.quiet hw (hothers rfl) rfl (List.forall_mem_singleton.mpr rfl)
  | getData _ => exact h.getData hpk (hst trivial)
  | blkAlone hp =>
      have hbusy := hp.symm.trans (h.of_blk hpk).1
      exact Bool.noConfusion hbusy
  | @blkNext b k _ _ =>
      obtain ⟨-, hpr, -⟩ := PoWNode.afterBlk_frame sha (c.net.node n).layer b
      exact h.blkNext hpk hpr
  | @blkLast b _ _ =>
      refine h.blkLast hpk rfl ?_
      rintro ⟨m, o⟩ hx
      obtain ⟨-, -, rfl⟩ := mem_relay.mp hx
      rfl

/-! ## The network -/

variable [Zero A] {c c' : LinkConfig N H A} {a : LinkAct N H A}

/-- The network with changing tables. -/
def linkSys (sha : Sha256 H A) : TransSys (LinkConfig N H A) (LinkAct N H A) where
  init c := ∃ peers, c = .init sha peers
  step c a c' := c.next sha a = some c'

/-- A step of the network, without the guard: a node moves and sends what it can,
a message is lost, or a table changes. -/
theorem linkStep_cases (h : (linkSys sha).step c a c') :
    (∃ n l p out, a = .net (.fire n l) ∧
      (c.net.node n).fire sha (c.peers n) l = some (.ok (p, out)) ∧
      c' = c.post n p out c.net.wire) ∨
    (∃ i pk p out, a = .net (.deliver i) ∧ c.net.wire[i]? = some pk ∧
      (c.net.node pk.dest).recv sha (c.peers pk.dest) pk.src pk.body = .ok (p, out) ∧
      c' = c.post pk.dest p out (c.net.wire.eraseIdx i)) ∨
    (∃ i pk, a = .net (.lose i) ∧ c.net.wire[i]? = some pk ∧
      ¬ (pk.dest ∈ c.peers pk.src ∧ pk.src ∈ c.peers pk.dest) ∧
      c' = { c with net := { c.net with wire := c.net.wire.eraseIdx i } }) ∨
    (∃ n m, a = .drop n m ∧
      c' = { c with peers := Function.update c.peers n ((c.peers n).filter (· ≠ m)) }) ∨
    ∃ n m, a = .attach n m ∧
      c' = { c with peers := Function.update c.peers n (m :: c.peers n) } := by
  have h' : c.next sha a = some c' := h
  cases a with
  | net a =>
      cases a with
      | fire n l =>
          simp only [LinkConfig.next] at h'
          split at h'
          · next p out hf => exact .inl ⟨n, l, p, out, rfl, hf, (Option.some.inj h').symm⟩
          · exact nomatch h'
      | deliver i =>
          simp only [LinkConfig.next] at h'
          split at h'
          · exact nomatch h'
          · next pk hpk =>
              split at h'
              · next p out hf =>
                  exact .inr (.inl ⟨i, pk, p, out, rfl, hpk, hf, (Option.some.inj h').symm⟩)
              · exact nomatch h'
      | lose i =>
          simp only [LinkConfig.next] at h'
          split at h'
          · exact nomatch h'
          · next pk hpk =>
              split at h'
              · exact nomatch h'
              · next hup =>
                  exact .inr (.inr (.inl ⟨i, pk, rfl, hpk, hup, (Option.some.inj h').symm⟩))
  | drop n m => exact .inr (.inr (.inr (.inl ⟨n, m, rfl, (Option.some.inj h').symm⟩)))
  | attach n m => exact .inr (.inr (.inr (.inr ⟨n, m, rfl, (Option.some.inj h').symm⟩)))

theorem rooted_of_link {C : LinkConfig N H A → LinkAct N H A → Prop}
    (h : (linkSys sha).Under C c) (n : N) : (tree c.net n).Rooted := by
  refine h.invariant (P := fun c => ∀ n, (tree c.net n).Rooted) ?_ ?_ n
  · rintro c ⟨peers, rfl⟩ n
    exact BlockTree.rooted_init sha
  · intro c a c' _ hr _ hs
    rcases linkStep_cases hs with ⟨n, l, p, out, -, hf, rfl⟩ | ⟨i, pk, p, out, -, -, hf, rfl⟩ |
      ⟨i, pk, -, -, -, rfl⟩ | ⟨n, m, -, rfl⟩ | ⟨n, m, -, rfl⟩
    · exact c.net.forall_post (R := fun _ q => q.layer.blocktree.Rooted) _ _ _ _
        ((PoWNode.fire_grows (hr n) hf).rooted (hr n)) fun m _ => hr m
    · exact c.net.forall_post (R := fun _ q => q.layer.blocktree.Rooted) _ _ _ _
        ((PoWNode.recv_grows (hr pk.dest) hf).rooted (hr pk.dest)) fun m _ => hr m
    · exact hr
    · exact hr
    · exact hr

/-- Nothing comes between a node and the block it waits for: no `GETDATA` and no
`BLK` is lost, no node drops the peer it is fetching from, and nobody has to ask
for a block, or to send one, over a connection that is gone. -/
def Steady (c : LinkConfig N H A) : LinkAct N H A → Prop
  | .net (.deliver i) => ∀ pk ∈ c.net.wire[i]?, Replies (c.net.node pk.dest) pk.body →
      pk.src ∈ c.peers pk.dest
  | .net (.lose i) => ∀ pk ∈ c.net.wire[i]?, requester pk = none
  | .drop n m => (c.net.node n).layer.processing = true → c.target n ≠ some m
  | _ => True

/-! ## One step -/

theorem LinkOK.step (h : LinkOK c) (hr : ∀ n, (tree c.net n).Rooted) (hst : Steady c a)
    (hs : (linkSys sha).step c a c') : LinkOK c' := by
  rcases linkStep_cases hs with ⟨n, l, p, out, rfl, hf, rfl⟩ | ⟨i, pk, p, out, rfl, hpk, hf, rfl⟩ |
    ⟨i, pk, rfl, hpk, -, rfl⟩ | ⟨n, m, rfl, rfl⟩ | ⟨n, m, rfl, rfl⟩
  · exact h.fire (hr n) hf
  · exact h.deliver hpk (hr pk.dest) (hst pk hpk) hf
  · refine ⟨fun m => ?_, fun q hq => h.aimed q (mem_of_mem_eraseIdx hq), h.peer⟩
    have hnone : requester pk = none := hst pk hpk
    have hcount := requests_wire hpk m
    rw [hnone, if_neg nofun, Nat.add_zero] at hcount
    exact hcount.symm.trans (h.balance m)
  · refine ⟨h.balance, h.aimed, fun k hk => ?_⟩
    obtain ⟨y, hy, hpeer⟩ := h.peer k hk
    refine ⟨y, hy, ?_⟩
    show y ∈ Function.update c.peers n ((c.peers n).filter (· ≠ m)) k
    by_cases hkn : k = n
    · subst hkn
      have hne : y ≠ m := fun e => hst hk (e ▸ hy)
      rw [Function.update_self]
      exact List.mem_filter.mpr ⟨hpeer, by simpa using hne⟩
    · rw [Function.update_of_ne hkn]
      exact hpeer
  · refine ⟨h.balance, h.aimed, fun k hk => ?_⟩
    obtain ⟨y, hy, hpeer⟩ := h.peer k hk
    refine ⟨y, hy, ?_⟩
    show y ∈ Function.update c.peers n (m :: c.peers n) k
    by_cases hkn : k = n
    · subst hkn
      rw [Function.update_self]
      exact List.mem_cons_of_mem _ hpeer
    · rw [Function.update_of_ne hkn]
      exact hpeer

/-! ## Runs -/

theorem linkOK_init (peers : N → List N) : LinkOK (.init sha peers : LinkConfig N H A) := by
  refine ⟨fun n => rfl, ?_, ?_⟩
  · intro pk hpk
    exact nomatch hpk
  · intro n hp
    exact nomatch hp

theorem linkOK_of_steady (h : (linkSys sha).Under Steady c) : LinkOK c := by
  refine h.invariant ?_ ?_
  · rintro c ⟨peers, rfl⟩
    exact linkOK_init peers
  · intro c a c' hu hok hst hs
    exact hok.step (rooted_of_link hu) hst hs

/-! ### No other run -/

/-- Every other step leaves a node without its request, or without its peer. -/
theorem LinkOK.steady (h : LinkOK c) (hr : ∀ n, (tree c.net n).Rooted)
    (hs : (linkSys sha).step c a c') (hw : ∀ n, Waits c' n) : Steady c a := by
  rcases linkStep_cases hs with ⟨n, l, p, out, rfl, hf, rfl⟩ | ⟨i, pk, p, out, rfl, hpk, hf, rfl⟩ |
    ⟨i, pk, rfl, hpk, -, rfl⟩ | ⟨n, m, rfl, rfl⟩ | ⟨n, m, rfl, rfl⟩
  · trivial
  · intro q hq hrep
    obtain rfl := Option.some.inj (hpk.symm.trans hq)
    by_contra hgone
    obtain ⟨src, n, body⟩ := pk
    cases PoWNode.recv_ok (hr n) hf with
    | @invTaken hs front k hp hfront hkn hk =>
        -- the node asks somebody who is not its peer
        obtain ⟨m, hm, hpeer, -⟩ := hw n (by rw [LinkConfig.post, Config.post_node_self])
        rw [post_target_self] at hm
        obtain rfl : src = m := Option.some.inj hm
        exact hgone hpeer
    | @getData k b hk =>
        -- the request is gone and the block is not sent
        obtain ⟨hp, hzero⟩ := h.requests_eraseIdx hpk (n := src) rfl
        have hnosend : c.sendMsgToPeer n [(src, (.blkBlk b : MessageObject H A))] = [] := by
          have hgone' : src ∉ c.peers n := hgone
          simp [LinkConfig.sendMsgToPeer, hgone']
        have hp' : ((c.post n (c.net.node n) [(src, .blkBlk b)]
            (c.net.wire.eraseIdx i)).net.node src).layer.processing = true :=
          c.net.forall_post (R := fun m q => (c.net.node m).layer.processing = true →
            q.layer.processing = true) _ _ _ _ id (fun _ _ => id) src hp
        have hpos := requests_pos_of_waits (hw src) hp'
        rw [LinkConfig.post, hnosend, Config.post_wire, requests_append, hzero] at hpos
        exact absurd hpos (Nat.lt_irrefl 0)
    | invKnown _ hall =>
        obtain ⟨-, -, k, hk, hmiss⟩ := hrep
        exact nomatch (hall k hk).symm.trans hmiss
    | invUnknown _ hfront hun _ =>
        obtain ⟨-, ⟨front, hfront', hkn⟩, -⟩ := hrep
        obtain rfl := Option.some.inj (hfront.symm.trans hfront')
        exact nomatch hun.symm.trans hkn
    | invBusy hp => exact nomatch hp.symm.trans hrep.1
    | tx hsil _ =>
        cases body with
        | blkInv _ => exact nomatch hsil
        | blkGetData _ => exact nomatch hsil
        | _ => exact hrep
    | _ => exact hrep
  · intro q hq
    obtain rfl := Option.some.inj (hpk.symm.trans hq)
    by_contra hne
    obtain ⟨n, hn⟩ := Option.ne_none_iff_exists'.mp hne
    obtain ⟨hp, hzero⟩ := h.requests_eraseIdx hpk hn
    have hpos := requests_pos_of_waits (hw n) hp
    exact absurd hzero hpos.ne'
  · intro hp htarget
    obtain ⟨y, hy, hpeer, -⟩ := hw n hp
    obtain rfl : m = y := Option.some.inj (htarget.symm.trans hy)
    have hmem : m ∈ Function.update c.peers n ((c.peers n).filter (· ≠ m)) n := hpeer
    rw [Function.update_self] at hmem
    simpa using (List.mem_filter.mp hmem).2
  · trivial

/-- **A node that processes an inventory has its request under way**, in every run
in which nothing comes between it and the block; and the first step that does
ends this. -/
theorem waits_of_steady (h : (linkSys sha).Under Steady c) :
    (∀ n, Waits c n) ∧
      ∀ a c', (linkSys sha).step c a c' → ((∀ n, Waits c' n) ↔ Steady c a) := by
  have hok := linkOK_of_steady h
  refine ⟨hok.waits, fun a c' hs => ⟨hok.steady (rooted_of_link h) hs, fun hst => ?_⟩⟩
  exact (hok.step (rooted_of_link h) hst hs).waits

/-! ## A node that waits for nothing -/

/-- The node processes an inventory, and nothing is under way for it. -/
def Wedged (c : LinkConfig N H A) (n : N) : Prop :=
  (c.net.node n).layer.processing = true ∧ requests c.net.wire n = 0

theorem Wedged.step {n : N} (h : Wedged c n) (hr : ∀ n, (tree c.net n).Rooted)
    (hs : (linkSys sha).step c a c') : Wedged c' n := by
  obtain ⟨hp, hzero⟩ := h
  have herase : ∀ i, requests (c.net.wire.eraseIdx i) n = 0 := fun i =>
    Nat.le_zero.mp (hzero ▸ (List.eraseIdx_sublist c.net.wire i).countP_le)
  -- a move after which nothing new is asked for or brought
  have hpost : ∀ {m : N} {p : PoWNode N H A} {out : Sends N H A}
      {w : List (Packet N (MessageObject H A))}, requests w n = 0 →
      (m = n → p.layer.processing = true) →
      (∀ x ∈ out, requester (⟨m, x.1, x.2⟩ : Packet N (MessageObject H A)) ≠ some n) →
      Wedged (c.post m p out w) n := by
    intro m p out w hw hproc hout
    refine ⟨?_, ?_⟩
    · by_cases hmn : n = m
      · rw [hmn, LinkConfig.post, Config.post_node_self]
        exact hproc hmn.symm
      · rw [LinkConfig.post, Config.post_node_of_ne _ _ _ _ _ hmn]
        exact hp
    · rw [LinkConfig.post, Config.post_wire, requests_append, hw, Nat.zero_add]
      refine List.countP_eq_zero.mpr fun pk hpk => ?_
      obtain ⟨rfl, hx⟩ := mem_packets.mp hpk
      simpa using hout _ (List.mem_of_mem_filter hx)
  rcases linkStep_cases hs with ⟨m, l, p, out, rfl, hf, rfl⟩ | ⟨i, pk, p, out, rfl, hpk, hf, rfl⟩ |
    ⟨i, pk, rfl, hpk, -, rfl⟩ | ⟨m, k, rfl, rfl⟩ | ⟨m, k, rfl, rfl⟩
  · rcases PoWNode.fire_ok (hr m) hf with htx | ⟨b, hmine, rfl⟩ | ⟨b, q, -, rfl, rfl, -⟩
    · refine hpost hzero ?_ fun x hx => ?_
      · rintro rfl
        exact htx.chain.processing.trans hp
      · rw [requester_of_silent (htx.silent x hx)]
        exact nofun
    · refine hpost hzero ?_ fun x hx => nomatch hx
      rintro rfl
      rw [hmine.layer]
      exact hp
    · refine hpost hzero ?_ ?_
      · rintro rfl
        exact hp
      · rintro ⟨d, o⟩ hx
        obtain ⟨-, rfl⟩ := mem_sendAll.mp hx
        exact nofun
  · have hn := requester_ne_of_requests hzero (mem_of_wire hpk)
    refine hpost (herase i) ?_ fun x hx hm => ?_
    · rintro rfl
      exact recv_processing (hr _) hf hp hn
    · rcases recv_requester (hr _) hf hx hm with hreq | ⟨rfl, hp'⟩
      · exact hn hreq
      · exact nomatch hp'.symm.trans hp
  · exact ⟨hp, herase i⟩
  · exact ⟨hp, hzero⟩
  · exact ⟨hp, hzero⟩

theorem wedged_later {n : N} (hr : (linkSys sha).Reach c) (h : Wedged c n)
    (hl : (linkSys sha).Later c c') : Wedged c' n := by
  refine hl.keeps (H := fun _ => True) (P := fun c => Wedged c n) ?_ ?_ hr trivial h
  · exact fun _ _ _ _ _ _ => trivial
  · exact fun s a t hr _ hs hw => hw.step (rooted_of_link hr) hs

/-! ## Concrete runs -/

/-- A schedule of a network in which all are connected at first. -/
def linkRun (sha : Sha256 H A) (peers : N → List N) (C : LinkConfig N H A → LinkAct N H A → Bool)
    (acts : List (LinkAct N H A)) : Option (LinkConfig N H A) :=
  TransSys.exec (fun c a => c.next sha a) C (.init sha peers) acts

theorem linkRun_under {peers : N → List N} {C : LinkConfig N H A → LinkAct N H A → Bool}
    {acts : List (LinkAct N H A)} (h : linkRun sha peers C acts = some c) :
    (linkSys sha).Under (fun c a => C c a = true) c :=
  TransSys.exec_under _ _ (fun _ _ _ => id) acts (.start ⟨peers, rfl⟩) h

/-- Node 0 mines a block; node 1 has asked for it, and waits. -/
def askForBlock : List (LinkAct (Fin 2) Nat Nat) := (mineAndFetch.take 7).map .net

/-- A test of `Steady`, which asks more: only an idle node's peers change, nothing
is lost, and messages come from peers. -/
def steadyCheck (c : LinkConfig (Fin 2) Nat Nat) : LinkAct (Fin 2) Nat Nat → Bool
  | .net (.deliver i) => c.net.wire[i]?.all fun pk => pk.src ∈ c.peers pk.dest
  | .net (.lose _) => false
  | .drop n _ => !(c.net.node n).layer.processing
  | _ => true

theorem steady_of_check {c : LinkConfig (Fin 2) Nat Nat} {a : LinkAct (Fin 2) Nat Nat}
    (h : steadyCheck c a = true) : Steady c a := by
  cases a with
  | net a =>
      cases a with
      | fire _ _ => trivial
      | deliver i =>
          intro pk hpk _
          have hall : (c.net.wire[i]?.all fun pk => pk.src ∈ c.peers pk.dest) = true := h
          rw [hpk] at hall
          exact of_decide_eq_true hall
      | lose _ => exact nomatch h
  | drop n m =>
      intro hp
      have hidle : (!(c.net.node n).layer.processing) = true := h
      rw [hp] at hidle
      exact nomatch hidle
  | attach _ _ => trivial

/-- Before the block is mined, node 1 drops node 0 and has it again. -/
theorem waits_of_steady_reattached : ∃ c, (linkSys nonceSha).Under Steady c ∧
    (c.net.node 1).layer.processing = true ∧ Waits c (1 : Fin 2) := by
  have hrun : ((linkRun nonceSha theOther steadyCheck
      ([.drop 1 0, .attach 1 0] ++ askForBlock)).map fun c : LinkConfig (Fin 2) Nat Nat =>
        (c.net.node 1).layer.processing) = some true := by decide +kernel
  obtain ⟨c, hc, hp⟩ := Option.map_eq_some_iff.mp hrun
  have hst : (linkSys nonceSha).Under Steady c :=
    (linkRun_under hc).mono fun _ _ _ => steady_of_check
  exact ⟨c, hst, hp, (waits_of_steady hst).1 1⟩

/-- Node 1 waits for its block; node 0 is dropped, the `GETDATA` on the connection
is lost, and node 0 is a peer again: node 1 processes its inventory for ever. -/
theorem wedges : ∃ c, (linkSys nonceSha).Reach c ∧ c.target 1 = some (0 : Fin 2) ∧
    ¬ Waits c 1 ∧ ∀ c', (linkSys nonceSha).Later c c' →
      (c'.net.node 1).layer.processing = true ∧ ¬ Waits c' 1 := by
  have hrun : ((linkRun nonceSha theOther (fun _ _ => true)
      (askForBlock ++ [.drop 1 0, .net (.lose 0), .attach 1 0])).map
        fun c : LinkConfig (Fin 2) Nat Nat => (c.target 1, (c.net.node 1).layer.processing,
          requests c.net.wire 1)) = some (some 0, true, 0) := by decide +kernel
  obtain ⟨c, hc, hv⟩ := Option.map_eq_some_iff.mp hrun
  obtain ⟨htarget, hv⟩ := Prod.mk.inj hv
  obtain ⟨hp, hzero⟩ := Prod.mk.inj hv
  have hnot : ∀ {c : LinkConfig (Fin 2) Nat Nat}, Wedged c 1 → ¬ Waits c 1 := fun hw hwait =>
    absurd hw.2 (requests_pos_of_waits hwait hw.1).ne'
  have hreach := (linkRun_under hc).reach
  refine ⟨c, hreach, htarget, hnot ⟨hp, hzero⟩, fun c' hl => ?_⟩
  have hw := wedged_later hreach ⟨hp, hzero⟩ hl
  exact ⟨hw.1, hnot hw⟩

end Bleep
