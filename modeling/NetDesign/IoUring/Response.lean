import NetDesign.IoUring.Conservation

/-!
# The shared buffer of io_uring/c_io_uring.cc

Every `send` is sent from the one `buffer` every `recv` stores into. So what the kernel reads
for a `send` is the response exactly when no `recv` stored a byte since the READ branch last
formatted it; between the two, the operations of all connections are in flight together.

* `response_intact_iff` — a run sends nothing but responses exactly when it executes each
  `send` before the next `recv` that stores.
* `response_overwritten` — two clients suffice to break it.
-/

namespace NetDesign.CIoUring

open Uring

/-! ## The memory -/

theorem length_response : response.length = 205 := by decide +kernel

/-- The buffer holds the response and nothing a client sent. -/
structure Mem.Clean (m : Mem) : Prop where
  text : m.buffer.read 0 response.length = response
  own : ∀ i : Int, 0 ≤ i → i < response.length → m.fromClient i = false

theorem Mem.clean_sprintf (m : Mem) : (m.sprintf response).Clean := by
  refine ⟨?_, fun i h0 hi => Cells.fill_apply_of_inside h0 (by omega)⟩
  rw [Mem.sprintf, Cells.read_take_write (by simp), List.take_left']
  rfl

theorem Mem.fromClient_receive (m : Mem) {bytes : List Byte} (h : bytes ≠ []) :
    (m.receive bytes).fromClient 0 = true := by
  have hpos : (0 : Int) < 0 + bytes.length := by
    have := List.length_pos_iff.2 h
    omega
  exact Cells.fill_apply_of_inside le_rfl hpos

theorem Mem.receive_nil (m : Mem) : m.receive [] = m := by
  simp [Mem.receive, Cells.fill]

/-- A store by the kernel goes to the buffer or nowhere. -/
theorem Mem.write_cases (m : Mem) (addr : Ptr) (bytes : List Byte) :
    Memory.write m addr bytes = m ∨
      (bytes ≠ [] ∧ Memory.write m addr bytes = m.receive bytes) := by
  cases addr with
  | buffer =>
    by_cases h : bytes = []
    · exact .inl (h ▸ m.receive_nil)
    · exact .inr ⟨h, rfl⟩
  | _ => exact .inl rfl

/-! ## The invariant -/

/-- Every `send` that waits is to send the response from the buffer; the buffer is clean as
long as the last store was the READ branch's, and begins with a client's byte otherwise. -/
structure Answers (b : Board Mem Ptr ConnInfo) : Prop where
  send : ∀ e, .waiting e ∈ b.tokens → e.opcode = .send →
    e.addr = .buffer ∧ e.len = response.length
  clean : b.mem.formatted = true → b.mem.Clean
  dirty : ∀ e, .waiting e ∈ b.tokens → e.opcode = .send → b.mem.formatted = false →
    b.mem.fromClient 0 = true

variable {b b' : Board Mem Ptr ConnInfo} {m : Move Ptr ConnInfo}

/-! ## What a move does to the buffer -/

/-- The kernel leaves memory alone or stores a client's bytes. -/
theorem mem_performed {net : Net} {mem : Mem} {e : Sqe Ptr ConnInfo} {o : Outcome}
    {p : Performed Mem Ptr ConnInfo} (h : perform net mem e o = some p) :
    p.mem = mem ∨ ∃ bytes, bytes ≠ [] ∧ p.mem = mem.receive bytes := by
  rcases perform_mem h with hmem | ⟨bytes, hmem⟩
  · exact .inl hmem
  · rcases mem.write_cases e.addr bytes with hw | ⟨hne, hw⟩
    · exact .inl (hmem.trans hw)
    · exact .inr ⟨bytes, hne, hmem.trans hw⟩

/-- The server leaves memory alone or formats the response. -/
theorem mem_effect (m : Mem) (q : Cqe Ptr ConnInfo) :
    (plan.effect m q).mem =
      if q.sqe.opcode = .recv ∧ 0 < q.res then m.sprintf response else m := by
  cases hop : q.sqe.opcode with
  | accept =>
    rw [Plan.effect_accept hop]
    rfl
  | recv =>
    rw [Plan.effect_recv hop]
    simp only [true_and]
    rfl
  | send =>
    rw [Plan.effect_send hop]
    rfl

/-- A `send` that waits is from before, or the READ branch has just filled it. -/
theorem waiting_send_cases {T : Multiset (Token Ptr ConnInfo)} {q : Cqe Ptr ConnInfo}
    {x : Sqe Ptr ConnInfo} (hT : b.tokens = .ready q ::ₘ T)
    (hx : .waiting x ∈ (plan.effect b.mem q).tokens q + T) (hs : x.opcode = .send) :
    .waiting x ∈ b.tokens ∨ ((q.sqe.opcode = .recv ∧ 0 < q.res) ∧ x.addr = .buffer ∧
      x.len = response.length) := by
  rcases Multiset.mem_add.1 hx with hx | hx
  · rcases Plan.mem_tokens hx with ⟨-, heq | heq⟩ | ⟨hop, hres, heq⟩ | ⟨-, heq⟩ <;> cases heq
    · cases hs
    · cases hs
    · exact .inr ⟨⟨hop, hres⟩, rfl, rfl⟩
    · cases hs
  · exact .inl (hT ▸ Multiset.mem_cons_of_mem hx)

theorem answers_moves (hb : Answers b) (h : Moves server b m b') : Answers b' := by
  cases h with
  | @exec T e o p hT hp =>
    have hold : ∀ x, .waiting x ∈ (.ready p.cqe ::ₘ T : Multiset (Token Ptr ConnInfo)) →
        .waiting x ∈ b.tokens := fun x => waiting_mem_of_exec hT
    refine ⟨fun x hx => hb.send x (hold x hx), ?_, fun x hx hop => ?_⟩
    all_goals rcases mem_performed hp with hmem | ⟨bytes, hne, hmem⟩ <;> simp only [hmem]
    · exact hb.clean
    · simp [Mem.receive, hne]
    · exact hb.dirty x (hold x hx) hop
    · exact fun _ => b.mem.fromClient_receive hne
  | @handle T q hT =>
    have hmem := mem_effect b.mem q
    by_cases hformats : q.sqe.opcode = .recv ∧ 0 < q.res
    · rw [if_pos hformats] at hmem
      refine ⟨?_, fun _ => hmem ▸ b.mem.clean_sprintf, ?_⟩
      · intro x hx hs
        rcases waiting_send_cases hT hx hs with hx | ⟨-, h⟩
        · exact hb.send x hx hs
        · exact h
      · intro x hx hs hdirty
        have hdirty : (plan.effect b.mem q).mem.formatted = false := hdirty
        rw [hmem] at hdirty
        cases hdirty
    · rw [if_neg hformats] at hmem
      have hold : ∀ x, .waiting x ∈ (plan.effect b.mem q).tokens q + T → x.opcode = .send →
          .waiting x ∈ b.tokens := by
        intro x hx hs
        exact (waiting_send_cases hT hx hs).resolve_right fun h => hformats h.1
      refine ⟨?_, hmem.symm ▸ hb.clean, ?_⟩
      · intro x hx hs
        exact hb.send x (hold x hx hs) hs
      · intro x hx hs
        exact hmem.symm ▸ hb.dirty x (hold x hx hs) hs

/-! ## Runs -/

/-- The kernel read the response, and no byte of a client. -/
def Intact (x : Sending Mem Ptr ConnInfo) : Prop :=
  x.bytes = response ∧ ∀ i : Int, 0 ≤ i → i < x.sqe.len → x.mem.fromClient i = false

/-- If a `send` is executed, the last store into the buffer was the READ branch's. -/
def MoveFormatted (mem : Mem) : Move Ptr ConnInfo → Prop
  | .exec _ (.sent _) => mem.formatted = true
  | _ => True

instance {mem : Mem} {m : Move Ptr ConnInfo} : Decidable (MoveFormatted mem m) :=
  match m with
  | .exec _ (.sent _) => inferInstanceAs (Decidable (_ = _))
  | .exec _ (.fail _) | .exec _ (.accepted _) | .exec _ (.received _) | .handle _ =>
    inferInstanceAs (Decidable True)

/-- No `recv` has stored into the buffer since the response was formatted, if a `send` is
executed. -/
def SendsFormatted (s : State) (a : Act) : Prop := ∀ m ∈ s.move a, MoveFormatted s.mem m

instance {s : State} {a : Act} : Decidable (SendsFormatted s a) :=
  inferInstanceAs (Decidable (∀ m ∈ s.move a, MoveFormatted s.mem m))

variable {sockfd : Int} {stack : Cells Byte} {s₀ s t : State} {a : Act} {as : List Act}

theorem intact_iff {e : Sqe Ptr ConnInfo} (hb : Answers b) (he : .waiting e ∈ b.tokens)
    (hop : e.opcode = .send) (c n : Nat) :
    Intact ⟨e, c, b.mem, n⟩ ↔ b.mem.formatted = true := by
  obtain ⟨haddr, hlen⟩ := hb.send e he hop
  have hbytes : (⟨e, c, b.mem, n⟩ : Sending Mem Ptr ConnInfo).bytes =
      b.mem.buffer.read 0 response.length := by
    rw [Sending.bytes, haddr, hlen]
    rfl
  refine ⟨?_, ?_⟩
  · intro hyp
    obtain ⟨-, hown⟩ := hyp
    by_contra hdirty
    have hclient := hb.dirty e he hop (by simpa using hdirty)
    have hzero := hown 0 le_rfl (by
      show (0 : Int) < e.len
      rw [hlen, length_response]
      decide)
    rw [hclient] at hzero
    cases hzero
  · intro hformatted
    obtain ⟨htext, hown⟩ := hb.clean hformatted
    exact ⟨hbytes.trans htext, fun i h0 hi => hown i h0 (hlen ▸ hi)⟩

theorem answers_init (hinit : init sockfd stack = some s₀) : Answers s₀.board := by
  rw [init_eq hinit]
  have honly : ∀ x : Sqe Ptr ConnInfo, Token.waiting x ∈
      ({ .waiting (prepAccept sockfd .clientaddr .len 0 ⟨sockfd, eventAccept⟩) } :
        Multiset (Token Ptr ConnInfo)) → x.opcode ≠ .send := by
    intro x hx
    cases Multiset.mem_singleton.1 hx
    exact Opcode.noConfusion
  rw [← start_tokens _ entriesLength
    (⟨sockfd, stack.fill 0 bufferLength 0, fun _ => false, false⟩ : Mem)] at honly
  exact {
    send := fun x hx hs => absurd hs (honly x hx)
    clean := fun h => by cases h
    dirty := fun x hx hs => absurd hs (honly x hx) }

theorem answers_step (hs : Sound server {fd | 0 ≤ fd} s ∧ Answers s.board)
    (h : main s a = some t) : Sound server {fd | 0 ≤ fd} t ∧ Answers t.board := by
  refine ⟨hs.1.step noRefusal_nonneg h, ?_⟩
  rcases step_board server hs.1.pc hs.1.tagged h with ⟨-, hsame⟩ | ⟨m, -, hm⟩
  · exact hsame ▸ hs.2
  · exact answers_moves hs.2 hm

/-- What a step adds to the sends, and when that is intact. -/
theorem sends_step (hs : Sound server {fd | 0 ≤ fd} s ∧ Answers s.board)
    (h : main s a = some t) :
    (∀ x ∈ t.sends, Intact x) ↔ (∀ x ∈ s.sends, Intact x) ∧ SendsFormatted s a := by
  rcases step_board server hs.1.pc hs.1.tagged h with ⟨hmove, hsame⟩ | ⟨m, hmove, hm⟩
  · have hsends : t.sends = s.sends := congrArg Board.sends hsame
    rw [hsends, and_iff_left]
    simp [SendsFormatted, hmove]
  · generalize htb : t.board = b' at hm
    have hsends : t.sends = b'.sends := congrArg Board.sends htb
    simp only [SendsFormatted, hmove, Option.mem_def, Option.some.injEq, forall_eq', hsends]
    cases hm with
    | @exec T e o p hT hp =>
      rcases perform_cases hp with ⟨errno, rfl, rfl⟩ | ⟨fd, rfl, -, -, -, -, rfl⟩ |
        ⟨bytes, c, rfl, -, -, -, rfl⟩ | ⟨n, c, rfl, hop, -, -, rfl⟩
      · simp [St.board, MoveFormatted]
      · simp [St.board, MoveFormatted]
      · simp [St.board, MoveFormatted]
      · have hmem : .waiting e ∈ s.board.tokens := hT ▸ Multiset.mem_cons_self _ _
        have hiff := intact_iff hs.2 hmem hop c n
        simp only [Option.toList_some, List.mem_append, List.mem_singleton, or_imp, forall_and,
          forall_eq]
        exact and_congr_right fun _ => hiff
    | handle hT => simp [St.board, MoveFormatted]

/-- **The responses are intact exactly when no `recv` comes between.** In every run, what the
kernel reads for its sends is the response and holds no byte of a client, exactly when it
executes every `send` with no byte stored by a `recv` since the response was last
formatted. -/
theorem response_intact_iff (hinit : init sockfd stack = some s₀)
    (h : Run main (fun _ _ => True) s₀ as s) :
    (∀ x ∈ s.sends, Intact x) ↔ Run main SendsFormatted s₀ as s := by
  have hsends : s₀.sends = [] := by rw [init_eq hinit]; rfl
  have hiff : (∀ x ∈ s.sends, Intact x) ↔
      Run main (fun s a => True ∧ SendsFormatted s a) s₀ as s :=
    h.good_iff ⟨init_sound hinit, answers_init hinit⟩ (fun hs _ hstep => answers_step hs hstep)
      (by simp [hsends]) fun hs _ hstep => sends_step hs hstep
  exact hiff.trans ⟨Run.mono fun _ _ hok => hok.2, Run.mono fun _ _ hok => ⟨trivial, hok⟩⟩

/-! ## Two clients -/

/-- Descriptor 5 has sent a request and its response is on the way, while a `recv` on
descriptor 6 is in flight. -/
def twoClients : List Act :=
  [.program, .exec 0 (.accepted 5), .post 0, .program, .program, .program, .program,
    .exec 0 (.accepted 6), .exec 0 (.received (ascii "G")), .post 0, .post 0,
    .program, .program, .program, .program, .program]

theorem response_intact_sending :
    ∃ s₀ s, init 3 (fun _ => 0) = some s₀ ∧
      exec main SendsFormatted s₀ (twoClients ++ [.exec 2 (.sent 205)]) = some s ∧
      s.sends.length = 1 ∧ ∀ x ∈ s.sends, Intact x := by
  have hdone : ((init 3 fun _ => 0).bind fun s₀ => exec main SendsFormatted s₀
      (twoClients ++ [.exec 2 (.sent 205)])).any (fun s => decide (s.sends.length = 1)) = true := by
    decide +kernel
  obtain ⟨s₀, s, hinit, hexec, hlen⟩ := exists_exec hdone
  have hrun := Run.of_exec hexec
  exact ⟨s₀, s, hinit, hexec, hlen,
    (response_intact_iff hinit (hrun.mono fun _ _ _ => trivial)).2 hrun⟩

/-- The byte client 6 sends goes out to client 5. -/
theorem response_overwritten :
    ¬ ∀ (sockfd : Int) (stack : Cells Byte) (s₀ s : State) (as : List Act),
      init sockfd stack = some s₀ → Run main (fun _ _ => True) s₀ as s →
        ∀ x ∈ s.sends, x.bytes <+: response := by
  intro hclaim
  have hrun : ((init 3 fun _ => 0).bind fun s₀ => exec main (fun _ _ => True) s₀
      (twoClients ++ [.exec 1 (.received (ascii "!")), .exec 1 (.sent 205)])).any
        (fun s => decide (∃ x ∈ s.sends, ¬ x.bytes <+: response)) = true := by
    decide +kernel
  obtain ⟨s₀, s, hinit, hexec, x, hx, hprefix⟩ := exists_exec hrun
  exact hprefix (hclaim 3 _ s₀ s _ hinit (Run.of_exec hexec) x hx)

end NetDesign.CIoUring
