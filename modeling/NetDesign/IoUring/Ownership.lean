import NetDesign.IoUring.Conservation

/-!
# Buffer ownership in `proactor`

The one token on a descriptor owns the `rbuffer` of its slot. A `recv` that delivered bytes
holds them there, the `send` it is answered by holds the same bytes, and a token on another
descriptor, a re-armed `recv` or a fresh `init_connect_item` has another slot. So the kernel
reads for a `send` what it delivered for the `recv` behind it, on the same connection.

* `owned_moves` — ownership is kept by every move.
* `echo_own_bytes` — what every executed `send` found in its buffer.
-/

namespace NetDesign.Proactor

open Uring

abbrev ProactorBoard := Board Mem Ptr ConnInfo

/-! ## What a token owns -/

/-- The slot of `fd` holds the bytes of a delivery to the connection that has `fd`. -/
def Holds (b : ProactorBoard) (fd : Int) (d : Delivery) : Prop :=
  b.net.owner fd = some d.conn ∧ (b.mem.connectList fd).rbuffer.read 0 d.bytes.length = d.bytes

/-- The READ branch handled the completion that delivered `d`. -/
def Delivered (handled : List (Handled Ptr ConnInfo)) (fd : Int) (d : Delivery) : Prop :=
  ∃ h ∈ handled, h.branch = .recv ∧ h.fd = fd ∧ h.cqe.got = some d ∧
    h.cqe.res = d.bytes.length

def Owns (b : ProactorBoard) : Token Ptr ConnInfo → Prop
  | .waiting e =>
    (e.opcode ≠ .accept → e.addr = .rbuffer e.fd) ∧
      (e.opcode = .send → ∃ d, e.cause = some d ∧ e.len = d.bytes.length ∧ Holds b e.fd d ∧
        Delivered b.handled e.fd d)
  | .ready q =>
    q.sqe.opcode = .recv → 0 < q.res →
      ∃ d, q.got = some d ∧ q.res = d.bytes.length ∧ Holds b q.sqe.fd d

def Owned (b : ProactorBoard) : Prop := ∀ x ∈ b.tokens, Owns b x

variable {b b' : ProactorBoard} {fd : Int} {d : Delivery} {x : Token Ptr ConnInfo}
  {m : Move Ptr ConnInfo}

/-- The slot and the owner of `fd` are as they were. -/
def SameSlot (b b' : ProactorBoard) (fd : Int) : Prop :=
  b'.mem.connectList fd = b.mem.connectList fd ∧ b'.net.owner fd = b.net.owner fd

theorem Holds.frame (h : Holds b fd d) (hsame : SameSlot b b' fd) : Holds b' fd d :=
  ⟨hsame.2.trans h.1, by rw [hsame.1]; exact h.2⟩

theorem Delivered.mono {l l' : List (Handled Ptr ConnInfo)} (h : Delivered l fd d)
    (hsub : ∀ y ∈ l, y ∈ l') : Delivered l' fd d := by
  obtain ⟨y, hy, hrest⟩ := h
  exact ⟨y, hsub y hy, hrest⟩

/-- A token keeps what it owns as long as its slot is left alone. -/
theorem Owns.frame (h : Owns b x) (hsame : ∀ fd, x.target = some fd → SameSlot b b' fd)
    (hsub : ∀ y ∈ b.handled, y ∈ b'.handled) : Owns b' x := by
  cases x with
  | waiting e =>
    refine ⟨h.1, fun hop => ?_⟩
    obtain ⟨d, hcause, hlen, hholds, hdel⟩ := h.2 hop
    have ht : (Token.waiting e).target = some e.fd :=
      Token.target_waiting_of_ne (by rw [hop]; decide)
    exact ⟨d, hcause, hlen, hholds.frame (hsame _ ht), hdel.mono hsub⟩
  | ready q =>
    intro hop hres
    obtain ⟨d, hgot, hlen, hholds⟩ := h hop hres
    have ht : (Token.ready q).target = some q.sqe.fd :=
      Token.target_ready_of_ne (by rw [hop]; decide)
    exact ⟨d, hgot, hlen, hholds.frame (hsame _ ht)⟩

/-! ## The memory of one slot -/

section Mem

variable {m : Mem} {i slot : Int}

theorem connectList_setItem_ne {item : ConnItem} (h : i ≠ slot) :
    (m.setItem slot item).connectList i = m.connectList i := Function.update_of_ne h _ _

theorem connectList_accepted_ne (h : i ≠ slot) :
    (plan.accepted m slot).connectList i = m.connectList i := Function.update_of_ne h _ _

theorem connectList_terminate_ne {ret : Int} (h : i ≠ slot) :
    (m.terminate slot ret).connectList i = m.connectList i := Function.update_of_ne h _ _

/-- The terminator is stored behind the bytes received. -/
theorem read_terminate (n : Nat) :
    ((m.terminate slot n).connectList slot).rbuffer.read 0 n =
      (m.connectList slot).rbuffer.read 0 n := by
  simp only [Mem.terminate, Mem.setItem, Function.update_self]
  split_ifs
  · rfl
  · exact Cells.read_write_of_outside (by omega)

theorem read_write_rbuffer (bytes : List Byte) :
    ((Memory.write m (Ptr.rbuffer slot) bytes).connectList slot).rbuffer.read 0 bytes.length =
      bytes := by
  simp [Memory.write, Mem.setItem]

end Mem

/-! ## Ownership is kept -/

section Moves

variable {T : Multiset (Token Ptr ConnInfo)} {e : Sqe Ptr ConnInfo} {o : Outcome}
  {p : Performed Mem Ptr ConnInfo} {q : Cqe Ptr ConnInfo} {sends : List (Sending Mem Ptr ConnInfo)}
  {tokens : Multiset (Token Ptr ConnInfo)}

/-- Executing an entry leaves the slots of the other tokens alone. -/
theorem sameSlot_exec (hbal : Balanced Set.univ b) (hb : Owned b)
    (hT : b.tokens = .waiting e ::ₘ T) (hp : perform b.net b.mem e o = some p) (hx : x ∈ T)
    (hfd : x.target = some fd) : SameSlot b ⟨tokens, p.mem, p.net, sends, b.handled⟩ fd := by
  rcases perform_cases hp with ⟨errno, rfl, rfl⟩ | ⟨fd', rfl, hop, -, -, hown, rfl⟩ |
    ⟨bytes, c, rfl, hop, hown, -, rfl⟩ | ⟨n, c, rfl, hop, -, -, rfl⟩
  · exact ⟨rfl, rfl⟩
  · have hne : fd ≠ fd' := by
      intro heq
      subst heq
      refine hbal.free fd (Set.mem_univ _) hown ?_
      exact mem_targets.2 ⟨x, hT ▸ Multiset.mem_cons_of_mem hx, hfd⟩
    exact ⟨rfl, Function.update_of_ne hne _ _⟩
  · have hop' : e.opcode ≠ .accept := by rw [hop]; decide
    have hne : fd ≠ e.fd := by
      intro heq
      subst heq
      exact hbal.others hT (Token.target_waiting_of_ne hop') (Set.mem_univ _) x hx hfd
    have he : Owns b (.waiting e) := hb _ (hT ▸ Multiset.mem_cons_self _ _)
    refine ⟨?_, rfl⟩
    simp only [he.1 hop']
    exact connectList_setItem_ne hne
  · exact ⟨rfl, rfl⟩

/-- Handling a completion leaves the slots of the other tokens alone. -/
theorem sameSlot_handle (hbal : Balanced Set.univ b) (hT : b.tokens = .ready q ::ₘ T) (hx : x ∈ T)
    (hfd : x.target = some fd) :
    SameSlot b
      ⟨(plan.effect b.mem q).tokens q + T, (plan.effect b.mem q).mem,
        (plan.effect b.mem q).close.elim b.net b.net.close, b.sends,
        b.handled ++ [⟨q, (plan.effect b.mem q).branch, (plan.effect b.mem q).fd⟩]⟩ fd := by
  cases hop : q.sqe.opcode with
  | accept =>
    have hne : fd ≠ q.res := by
      intro heq
      subst heq
      exact hbal.others hT (Token.target_ready_of_eq hop) (Set.mem_univ _) x hx hfd
    simp only [Plan.effect_accept hop]
    exact ⟨connectList_accepted_ne hne, rfl⟩
  | recv =>
    have hne : fd ≠ q.sqe.fd := by
      intro heq
      subst heq
      exact hbal.others hT (Token.target_ready_of_ne (by rw [hop]; decide)) (Set.mem_univ _) x hx
        hfd
    simp only [Plan.effect_recv hop, Plan.readEffect]
    refine ⟨?_, ?_⟩
    · show (if 0 < q.res then plan.read b.mem q.sqe.fd q.res else b.mem).connectList fd = _
      split_ifs
      · exact connectList_terminate_ne hne
      · rfl
    · show ((if q.res = 0 then some q.sqe.fd else none).elim b.net b.net.close).owner fd = _
      split_ifs
      · exact Function.update_of_ne hne _ _
      · rfl
  | send =>
    simp only [Plan.effect_send hop]
    exact ⟨rfl, rfl⟩

/-- The completion of a `recv` owns the bytes it stored. -/
theorem owns_performed (he : Owns b (.waiting e)) (hp : perform b.net b.mem e o = some p) :
    Owns ⟨tokens, p.mem, p.net, sends, b.handled⟩ (.ready p.cqe) := by
  rcases perform_cases hp with ⟨errno, rfl, rfl⟩ | ⟨fd, rfl, hop, -, -, -, rfl⟩ |
    ⟨bytes, c, rfl, hop, hown, -, rfl⟩ | ⟨n, c, rfl, hop, -, -, rfl⟩
  · intro _ hres
    simp only at hres
    omega
  · intro hop' _
    rw [hop] at hop'
    cases hop'
  · intro _ _
    refine ⟨⟨c, bytes⟩, rfl, rfl, hown, ?_⟩
    have haddr := he.1 (by rw [hop]; decide)
    simp only [haddr]
    exact read_write_rbuffer bytes
  · intro hop' _
    rw [hop] at hop'
    cases hop'

/-- The `send` filled for a completion owns the bytes of the `recv`. -/
theorem owns_filled (hq : Owns b (.ready q)) (hx : x ∈ (plan.effect b.mem q).tokens q) :
    Owns ⟨tokens, (plan.effect b.mem q).mem, (plan.effect b.mem q).close.elim b.net b.net.close,
      sends, b.handled ++ [⟨q, (plan.effect b.mem q).branch, (plan.effect b.mem q).fd⟩]⟩ x := by
  rcases Plan.mem_tokens hx with ⟨-, rfl | rfl⟩ | ⟨hop, hres, rfl⟩ | ⟨-, rfl⟩
  · exact ⟨fun h => absurd rfl h, fun h => by cases h⟩
  · exact ⟨fun _ => rfl, fun h => by cases h⟩
  · obtain ⟨d, hgot, hlen, hown, hread⟩ := hq hop hres
    have heff : plan.effect b.mem q = plan.readEffect b.mem q.sqe.fd q.res := Plan.effect_recv hop
    refine ⟨fun _ => rfl, fun _ => ⟨d, hgot, by simp [prepSend, plan, hlen], ⟨?_, ?_⟩, ?_⟩⟩
    · show ((plan.effect b.mem q).close.elim b.net b.net.close).owner q.sqe.fd = _
      rw [heff, Plan.readEffect, if_neg hres.ne']
      exact hown
    · show (((plan.effect b.mem q).mem).connectList q.sqe.fd).rbuffer.read 0 _ = _
      rw [heff, Plan.readEffect, if_pos hres, hlen]
      exact (read_terminate _).trans hread
    · exact ⟨_, List.mem_append_right _ (List.mem_singleton_self _),
        congrArg Effect.branch heff, congrArg Effect.fd heff, hgot, hlen⟩
  · exact ⟨fun _ => rfl, fun h => by cases h⟩

theorem owned_moves (hbal : Balanced Set.univ b) (hb : Owned b) (h : Moves server b m b') :
    Owned b' := by
  cases h with
  | @exec T e o p hT hp =>
    intro x hx
    rcases Multiset.mem_cons.1 hx with rfl | hxT
    · exact owns_performed (hb _ (hT ▸ Multiset.mem_cons_self _ _)) hp
    · apply (hb x (hT ▸ Multiset.mem_cons_of_mem hxT)).frame
      · intro fd hfd
        exact sameSlot_exec hbal hb hT hp hxT hfd
      · exact fun y hy => hy
  | @handle T q hT =>
    intro x hx
    rcases Multiset.mem_add.1 hx with hx | hxT
    · exact owns_filled (hb _ (hT ▸ Multiset.mem_cons_self _ _)) hx
    · apply (hb x (hT ▸ Multiset.mem_cons_of_mem hxT)).frame
      · intro fd hfd
        exact sameSlot_handle hbal hT hxT hfd
      · intro y hy
        exact List.mem_append_left _ hy

end Moves

/-! ## Runs -/

/-- The kernel read the bytes that the `recv` behind the `send` had delivered, on the same
connection. -/
def Echoes (handled : List (Handled Ptr ConnInfo)) (x : Sending Mem Ptr ConnInfo) : Prop :=
  ∃ h ∈ handled, h.branch = .recv ∧ h.fd = x.sqe.fd ∧ h.cqe.got = x.sqe.cause ∧
    h.cqe.got = some ⟨x.conn, x.bytes⟩ ∧ h.cqe.res = x.bytes.length

/-- Tokens own their slots, and what was sent is what was received. -/
structure Isolated (b : ProactorBoard) : Prop where
  owned : Owned b
  echoes : ∀ x ∈ b.sends, Echoes b.handled x

theorem Owns.echoes {e : Sqe Ptr ConnInfo} {c : Nat} (h : Owns b (.waiting e))
    (hop : e.opcode = .send) (hown : b.net.owner e.fd = some c) (n : Nat) :
    Echoes b.handled ⟨e, c, b.mem, n⟩ := by
  obtain ⟨⟨c', bytes⟩, hcause, hlen, ⟨hown', hread⟩, y, hy, hbranch, hfd, hgot, hres⟩ := h.2 hop
  have hc : c' = c := Option.some.inj (hown'.symm.trans hown)
  have hbytes : (⟨e, c, b.mem, n⟩ : Sending Mem Ptr ConnInfo).bytes = bytes := by
    rw [Sending.bytes, h.1 (by rw [hop]; decide), hlen]
    exact hread
  refine ⟨y, hy, hbranch, hfd, hgot.trans hcause.symm, ?_, ?_⟩
  · rw [hgot, hbytes, hc]
  · rw [hbytes, hres]

theorem isolated_moves (hbal : Balanced Set.univ b) (hb : Isolated b)
    (h : Moves server b m b') : Isolated b' := by
  refine ⟨owned_moves hbal hb.owned h, ?_⟩
  cases h with
  | @exec T e o p hT hp =>
    intro x hx
    rcases List.mem_append.1 hx with hx | hx
    · exact hb.echoes x hx
    · rcases perform_cases hp with ⟨errno, rfl, rfl⟩ | ⟨fd, rfl, -, -, -, -, rfl⟩ |
        ⟨bytes, c, rfl, -, -, -, rfl⟩ | ⟨n, c, rfl, hop, hown, -, rfl⟩
      · cases hx
      · cases hx
      · cases hx
      · cases List.mem_singleton.1 hx
        exact (hb.owned _ (hT ▸ Multiset.mem_cons_self _ _)).echoes hop hown n
  | handle hT =>
    intro x hx
    obtain ⟨y, hy, hrest⟩ := hb.echoes x hx
    exact ⟨y, List.mem_append_left _ hy, hrest⟩

variable {listenfd : Int} {table : Int → ConnItem} {s₀ s t : State} {a : Act} {as : List Act}

theorem isolated_init (hinit : init listenfd table = some s₀) : Isolated s₀.board := by
  rw [init_eq hinit]
  refine ⟨fun x hx => ?_, fun x hx => by cases hx⟩
  rw [start_tokens, Multiset.mem_singleton] at hx
  rw [hx]
  exact ⟨fun h => absurd rfl h, fun h => by cases h⟩

theorem isolated_step (hs : Sound server Set.univ s ∧ Isolated s.board)
    (hok : AcceptsInTable s a) (h : run s a = some t) :
    Sound server Set.univ t ∧ Isolated t.board := by
  refine ⟨hs.1.step hok.noRefusal h, ?_⟩
  rcases step_board server hs.1.pc hs.1.tagged h with ⟨-, hsame⟩ | ⟨m, -, hm⟩
  · exact hsame ▸ hs.2
  · exact isolated_moves hs.1.balanced hs.2 hm

/-- **Buffer ownership.** In every run, for every `send` the kernel executed, the bytes it
found in the buffer are exactly those delivered by the READ completion that queued it, and
the connection it sent them on is the one they were received on. -/
theorem echo_own_bytes (hinit : init listenfd table = some s₀)
    (h : Run run AcceptsInTable s₀ as s) : ∀ x ∈ s.sends, Echoes s.handled x :=
  (h.invariant ⟨init_sound hinit, isolated_init hinit⟩
    fun hs hok hstep => isolated_step hs hok hstep).2.echoes

/-- After `accepting`: descriptor 5 receives the bytes, and the kernel sends `n` of them. -/
def echoing (bytes : List Byte) (n : Nat) : List Act :=
  [.exec 1 (.received bytes), .post 0, .program, .program, .program, .program,
    .exec 1 (.sent n)]

theorem echo_own_bytes_reusing :
    ∃ s₀ s, init 3 blankTable = some s₀ ∧ exec run AcceptsInTable s₀ reusing = some s ∧
      s.sends.map (fun x => (x.conn, x.bytes)) = [(1, ascii "you"), (0, ascii "hi"),
        (2, ascii "ho")] ∧
      (s.net.owner 5 = some 2 ∧ s.net.owner 6 = some 1) ∧ ∀ x ∈ s.sends, Echoes s.handled x := by
  have hdone : ((init 3 blankTable).bind fun s₀ => exec run AcceptsInTable s₀ reusing).any
      (fun s => decide (s.sends.map (fun x => (x.conn, x.bytes)) = [(1, ascii "you"),
        (0, ascii "hi"), (2, ascii "ho")] ∧ s.net.owner 5 = some 2 ∧
          s.net.owner 6 = some 1)) = true := by
    decide +kernel
  obtain ⟨s₀, s, hinit, hexec, hsends, howners⟩ := exists_exec hdone
  exact ⟨s₀, s, hinit, hexec, hsends, howners, echo_own_bytes hinit (Run.of_exec hexec)⟩

end NetDesign.Proactor
