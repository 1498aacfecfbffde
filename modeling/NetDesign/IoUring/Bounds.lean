import NetDesign.IoUring.Conservation

/-!
# The table and the buffers of `proactor`

The completion of an accept is used as an index before anything looks at it, and every other
index is one that was used before. The READ branch stores a terminator behind the bytes it
was told of, and the `recv` was given the whole buffer.

* `table_bounds_iff` — the indices of a run are in the table, and its failed accepts create no
  connection, exactly when the accepts it handles carry descriptors of the table.
* `terminator_iff` — the terminators of a run stay in their buffers exactly when no `recv` that
  is handled has filled its buffer.
-/

namespace NetDesign.Proactor

open Uring

variable {b b' : Board Mem Ptr ConnInfo} {s t : State} {a : Act} {q : Cqe Ptr ConnInfo}
  {m : Move Ptr ConnInfo}

/-- What the handling of a completion leaves in memory and in the queue. -/
theorem handle_apply (hs : Sound server {fd | 0 ≤ fd} s) (hmove : s.move a = some (.handle q))
    (h : run s a = some t) :
    t.mem = (plan.effect s.mem q).mem ∧
      t.sq = s.sq ++ (plan.effect s.mem q).prep.map fun e => { e with cause := q.got } := by
  cases steps_of_step h with
  | exec he =>
    simp [St.move, he] at hmove
  | post => simp [St.move] at hmove
  | submit hhead => simp [St.move, hhead] at hmove
  | peek hwait => simp [St.move, hwait] at hmove
  | handle hbatch hlt hq hhandle =>
    simp only [St.move, hbatch, if_pos hlt, hq, Option.map_some, Option.some.injEq,
      Move.handle.injEq] at hmove
    subst hmove
    cases server.handle_eq (hs.tagged (.ready _) (ready_mem_tokens hbatch hq)) hhandle
    exact ⟨rfl, rfl⟩
  | release hbatch hle => simp [St.move, hbatch, Nat.not_lt.2 hle] at hmove

/-! ## The table -/

def InTable (i : Int) : Prop := 0 ≤ i ∧ i < maxConnect

instance {i : Int} : Decidable (InTable i) := inferInstanceAs (Decidable (_ ∧ _))

/-- The move does not handle an accept with a descriptor that has no slot. -/
def Fits : Move Ptr ConnInfo → Prop
  | .handle q => q.sqe.opcode = .accept → InTable q.res
  | .exec _ _ => True

instance : DecidablePred Fits
  | .handle _ => inferInstanceAs (Decidable (_ → _))
  | .exec _ _ => inferInstanceAs (Decidable True)

/-- The server handles accepts only with descriptors that have a slot. -/
def AcceptsFit (s : State) (a : Act) : Prop := ∀ m ∈ s.move a, Fits m

instance : Decidable (AcceptsFit s a) := inferInstanceAs (Decidable (∀ m ∈ s.move a, _))

/-- A failed accept is answered by an accept alone, and changes no slot. -/
def Refuses (s : State) (a : Act) : Prop :=
  ∀ q t, s.move a = some (.handle q) → q.sqe.opcode = .accept → q.res < 0 → run s a = some t →
    t.mem.connectList = s.mem.connectList ∧ ∃ e, t.sq = s.sq ++ [e] ∧ e.opcode = .accept

/-- A descriptor that has no slot is not refused: it is used as an index. -/
theorem AcceptsFit.refuses (h : AcceptsFit s a) : Refuses s a := by
  intro q t hmove hop hneg _
  have hfit := h _ hmove hop
  exact absurd hfit.1 (not_le.2 hneg)

theorem touched_write (m : Mem) (addr : Ptr) (bytes : List Byte) :
    (Memory.write m addr bytes).touched = m.touched := by
  cases addr <;> rfl

/-- The memory an execution leaves has the same indices on record. -/
theorem touched_perform {net : Net} {mem : Mem} {e : Sqe Ptr ConnInfo} {o : Outcome}
    {p : Performed Mem Ptr ConnInfo} (h : perform net mem e o = some p) :
    p.mem.touched = mem.touched := by
  rcases perform_mem h with hmem | ⟨bytes, hmem⟩
  · rw [hmem]
  · rw [hmem, touched_write]

/-- The indices the handling of a completion uses. -/
def indices (q : Cqe Ptr ConnInfo) : List Int :=
  match q.sqe.opcode with
  | .accept => [q.res, q.res]
  | .recv => if 0 < q.res then [q.sqe.fd] else []
  | .send => [q.sqe.fd]

theorem touched_effect (m : Mem) (q : Cqe Ptr ConnInfo) :
    (plan.effect m q).mem.touched = m.touched ++ indices q := by
  cases hop : q.sqe.opcode with
  | accept =>
    rw [Plan.effect_accept hop, indices, hop]
    simp [Plan.acceptEffect, plan, Mem.openScope, Mem.closeScope, Mem.initConnectItem, Mem.touch,
      Mem.setItem]
  | recv =>
    rw [Plan.effect_recv hop, indices, hop]
    simp only [Plan.readEffect]
    split_ifs
    · rfl
    · rw [List.append_nil]
  | send =>
    rw [Plan.effect_send hop, indices, hop]
    rfl

/-- Every operation on a descriptor is on one that was used as an index. -/
def Indexed (b : Board Mem Ptr ConnInfo) : Prop :=
  ∀ x ∈ b.tokens, x.sqe.opcode ≠ .accept → x.sqe.fd ∈ b.mem.touched

theorem indexed_moves (hb : Indexed b) (h : Moves server b m b') : Indexed b' := by
  cases h with
  | @exec T e o p hT hp =>
    intro x hx hop
    show x.sqe.fd ∈ p.mem.touched
    rw [touched_perform hp]
    rcases Multiset.mem_cons.1 hx with rfl | hxT
    · rw [Token.sqe_ready, perform_sqe hp] at hop ⊢
      exact hb (.waiting e) (hT ▸ Multiset.mem_cons_self _ _) hop
    · exact hb x (hT ▸ Multiset.mem_cons_of_mem hxT) hop
  | @handle T q hT =>
    intro x hx hop
    show x.sqe.fd ∈ (plan.effect b.mem q).mem.touched
    rw [touched_effect, List.mem_append]
    rcases Multiset.mem_add.1 hx with hx | hxT
    · have hq : q.sqe.opcode ≠ .accept → q.sqe.fd ∈ b.mem.touched :=
        hb (.ready q) (hT ▸ Multiset.mem_cons_self _ _)
      rcases Plan.mem_tokens hx with ⟨hopq, rfl | rfl⟩ | ⟨hopq, -, rfl⟩ | ⟨hopq, rfl⟩
      · exact absurd rfl hop
      · exact .inr (by simp [indices, hopq, prepRecv])
      · exact .inl (hq (by rw [hopq]; decide))
      · exact .inl (hq (by rw [hopq]; decide))
    · exact .inl (hb x (hT ▸ Multiset.mem_cons_of_mem hxT) hop)

/-- **Only an accept brings a new index.** -/
theorem inTable_moves (hb : Indexed b) (h : Moves server b m b') :
    (∀ i ∈ b'.mem.touched, InTable i) ↔ (∀ i ∈ b.mem.touched, InTable i) ∧ Fits m := by
  cases h with
  | @exec T e o p hT hp =>
    show (∀ i ∈ p.mem.touched, InTable i) ↔ _
    rw [touched_perform hp]
    exact (and_iff_left trivial).symm
  | @handle T q hT =>
    show (∀ i ∈ (plan.effect b.mem q).mem.touched, InTable i) ↔ _
    rw [touched_effect, List.forall_mem_append]
    refine and_congr_right fun hall => ?_
    have hq : q.sqe.opcode ≠ .accept → InTable q.sqe.fd := fun hop =>
      hall _ (hb (.ready q) (hT ▸ Multiset.mem_cons_self _ _) hop)
    cases hop : q.sqe.opcode with
    | accept => simp [indices, Fits, hop]
    | recv =>
      have hfd := hq (by rw [hop]; decide)
      simp only [indices, Fits, hop, reduceCtorEq, false_imp_iff, iff_true]
      split_ifs
      · exact List.forall_mem_singleton.2 hfd
      · exact List.forall_mem_nil _
    | send =>
      have hfd := hq (by rw [hop]; decide)
      simp only [indices, Fits, hop, reduceCtorEq, false_imp_iff, iff_true]
      exact List.forall_mem_singleton.2 hfd

variable {listenfd : Int} {table : Int → ConnItem} {s₀ : State} {as : List Act}

theorem indexed_init (hinit : init listenfd table = some s₀) : Indexed s₀.board := by
  rw [init_eq hinit]
  intro x hx hop
  rw [start_tokens, Multiset.mem_singleton] at hx
  subst hx
  exact absurd rfl hop

theorem indexed_step (hs : Sound server {fd | 0 ≤ fd} s ∧ Indexed s.board)
    (h : run s a = some t) : Sound server {fd | 0 ≤ fd} t ∧ Indexed t.board := by
  refine ⟨hs.1.step noRefusal_nonneg h, ?_⟩
  rcases step_board server hs.1.pc hs.1.tagged h with ⟨-, hsame⟩ | ⟨m, -, hm⟩
  · exact hsame ▸ hs.2
  · exact indexed_moves hs.2 hm

theorem inTable_step (hs : Sound server {fd | 0 ≤ fd} s ∧ Indexed s.board)
    (h : run s a = some t) :
    (∀ i ∈ t.mem.touched, InTable i) ↔ (∀ i ∈ s.mem.touched, InTable i) ∧ AcceptsFit s a := by
  rcases step_board server hs.1.pc hs.1.tagged h with ⟨hmove, hsame⟩ | ⟨m, hmove, hm⟩
  · have hfit : AcceptsFit s a := by simp [AcceptsFit, hmove]
    have hmem : t.mem = s.mem := congrArg Board.mem hsame
    rw [hmem, and_iff_left hfit]
  · have hfit : AcceptsFit s a ↔ Fits m := by
      simp only [AcceptsFit, hmove, Option.mem_def, Option.some.injEq, forall_eq']
    rw [hfit]
    exact inTable_moves hs.2 hm

/-- **The bounds of the table.** In every run, every index used so far is in the table and
every failed accept was answered by an accept alone and changed no slot, exactly when the
server handled accepts only with descriptors that have a slot. -/
theorem table_bounds_iff (hinit : init listenfd table = some s₀)
    (h : Run run (fun _ _ => True) s₀ as s) :
    ((∀ i ∈ s.mem.touched, InTable i) ∧ Run run Refuses s₀ as s) ↔
      Run run AcceptsFit s₀ as s := by
  have hno : ∀ i ∈ s₀.mem.touched, InTable i := by
    rw [init_eq hinit]
    exact List.forall_mem_nil _
  have hiff := h.good_iff ⟨init_sound hinit, indexed_init hinit⟩
    (fun hs _ hstep => indexed_step hs hstep) hno fun hs _ hstep => inTable_step hs hstep
  simp only [true_and] at hiff
  rw [hiff]
  exact and_iff_left_of_imp (Run.mono fun _ _ hfit => hfit.refuses)

theorem table_bounds_accepting :
    ∃ s₀ s, init 3 blankTable = some s₀ ∧ exec run AcceptsFit s₀ accepting = some s ∧
      s.mem.touched = [5, 5] ∧ ∀ i ∈ s.mem.touched, InTable i := by
  have hdone : ((init 3 blankTable).bind fun s₀ => exec run AcceptsFit s₀ accepting).any
      (fun s => decide (s.mem.touched = [5, 5])) = true := by
    decide +kernel
  obtain ⟨s₀, s, hinit, hexec, htouched⟩ := exists_exec hdone
  have hrun := Run.of_exec hexec
  exact ⟨s₀, s, hinit, hexec, htouched,
    ((table_bounds_iff hinit (hrun.mono fun _ _ _ => trivial)).2 hrun).1⟩

/-- The accept fails with error number 24, and its completion is handled. -/
def refused : List Act := [.program, .exec 0 (.fail 23), .post 0, .program, .program]

/-- A failed accept is used as the index of a slot. -/
theorem table_overrun :
    ¬ ∀ (listenfd : Int) (table : Int → ConnItem) (s₀ s : State) (as : List Act),
      init listenfd table = some s₀ → Run run (fun _ _ => True) s₀ as s →
        (∀ i ∈ s.mem.touched, InTable i) ∧ Run run Refuses s₀ as s := by
  intro hclaim
  have hrun : ((init 3 blankTable).bind fun s₀ => exec run (fun _ _ => True) s₀ refused).any
      (fun s => decide (-24 ∈ s.mem.touched)) = true := by
    decide +kernel
  obtain ⟨s₀, s, hinit, hexec, hmem⟩ := exists_exec hrun
  exact absurd ((hclaim 3 _ s₀ s _ hinit (Run.of_exec hexec)).1 _ hmem) (by decide)

/-! ## The terminator -/

/-- The terminator is stored inside `rbuffer`, right behind the `ret` bytes received, and
nothing else of the table changes. -/
structure Terminates (m m' : Mem) (fd ret : Int) : Prop where
  stored : m'.terminators = m.terminators ++ [(fd, ret)]
  inside : 0 ≤ ret ∧ ret < bufferLength
  behind : (m'.connectList fd).rbuffer ret = 0
  kept : ∀ i, i ≠ ret → (m'.connectList fd).rbuffer i = (m.connectList fd).rbuffer i
  rlen : (m'.connectList fd).rlen = (m.connectList fd).rlen
  wbuffer : (m'.connectList fd).wbuffer = (m.connectList fd).wbuffer
  wlen : (m'.connectList fd).wlen = (m.connectList fd).wlen
  others : ∀ i, i ≠ fd → m'.connectList i = m.connectList i

theorem terminates_iff {m : Mem} {fd ret : Int} (hpos : 0 < ret) :
    Terminates m (m.terminate fd ret) fd ret ↔ ret < bufferLength := by
  refine ⟨fun h => h.inside.2, fun hlt => ?_⟩
  have hitem : (m.terminate fd ret).connectList fd =
      { m.connectList fd with rbuffer := (m.connectList fd).rbuffer.write ret [0] } := by
    simp only [Mem.terminate, Mem.setItem, Function.update_self, if_neg hlt.ne]
  exact {
    stored := rfl
    inside := ⟨hpos.le, hlt⟩
    behind := by
      have hwrite : (m.connectList fd).rbuffer.write ret [0] (ret + (0 : Nat)) = 0 :=
        Cells.write_apply_of_inside (Nat.zero_lt_one)
      rw [hitem]
      simpa using hwrite
    kept := fun i hi => by
      rw [hitem]
      refine Cells.write_apply_of_outside ?_
      rw [List.length_singleton]
      omega
    rlen := by rw [hitem]
    wbuffer := by rw [hitem]
    wlen := by rw [hitem]
    others := fun i hi => Function.update_of_ne hi _ _ }

/-- Handling a READ that delivered bytes terminates them. -/
def TerminatesInside (s : State) (a : Act) : Prop :=
  ∀ q t, s.move a = some (.handle q) → q.sqe.opcode = .recv → 0 < q.res → run s a = some t →
    Terminates s.mem t.mem q.sqe.fd q.res

/-- The move does not handle a `recv` that filled its buffer. -/
def Roomy : Move Ptr ConnInfo → Prop
  | .handle q => q.sqe.opcode = .recv → 0 < q.res → q.res ≠ q.sqe.len
  | .exec _ _ => True

instance : DecidablePred Roomy
  | .handle _ => inferInstanceAs (Decidable (_ → _ → _))
  | .exec _ _ => inferInstanceAs (Decidable True)

/-- The server does not handle a `recv` that delivered all it asked for. -/
def LeavesRoom (s : State) (a : Act) : Prop := ∀ m ∈ s.move a, Roomy m

instance : Decidable (LeavesRoom s a) := inferInstanceAs (Decidable (∀ m ∈ s.move a, _))

/-- Every `recv` is given the whole buffer, wherever it was armed, and delivers no more. -/
def Sized (b : Board Mem Ptr ConnInfo) : Prop :=
  ∀ x ∈ b.tokens, x.sqe.opcode = .recv →
    x.sqe.len = bufferLength ∧ ∀ q, x = .ready q → q.res ≤ bufferLength

theorem sized_moves (hb : Sized b) (h : Moves server b m b') : Sized b' := by
  cases h with
  | @exec T e o p hT hp =>
    intro x hx hop
    rcases Multiset.mem_cons.1 hx with rfl | hxT
    · rw [Token.sqe_ready, perform_sqe hp] at hop
      obtain ⟨hlen, -⟩ := hb (.waiting e) (hT ▸ Multiset.mem_cons_self _ _) hop
      refine ⟨by rw [Token.sqe_ready, perform_sqe hp]; exact hlen, fun q hq => ?_⟩
      cases hq
      rw [Token.sqe_waiting] at hlen
      rcases perform_cases hp with ⟨errno, -, rfl⟩ | ⟨fd, -, hop', -, -, -, rfl⟩ |
        ⟨bytes, c, -, -, -, hle, rfl⟩ | ⟨n, c, -, hop', -, -, rfl⟩
      · simp only
        omega
      · rw [hop'] at hop
        cases hop
      · simp only
        omega
      · rw [hop'] at hop
        cases hop
    · exact hb x (hT ▸ Multiset.mem_cons_of_mem hxT) hop
  | @handle T q hT =>
    intro x hx hop
    rcases Multiset.mem_add.1 hx with hx | hxT
    · rcases Plan.mem_tokens hx with ⟨-, rfl | rfl⟩ | ⟨-, -, rfl⟩ | ⟨-, rfl⟩
      · cases hop
      · exact ⟨rfl, fun q hq => by cases hq⟩
      · cases hop
      · exact ⟨rfl, fun q hq => by cases hq⟩
    · exact hb x (hT ▸ Multiset.mem_cons_of_mem hxT) hop

theorem sized_init (hinit : init listenfd table = some s₀) : Sized s₀.board := by
  rw [init_eq hinit]
  intro x hx hop
  rw [start_tokens, Multiset.mem_singleton] at hx
  subst hx
  cases hop

theorem sized_step (hs : Sound server {fd | 0 ≤ fd} s ∧ Sized s.board) (h : run s a = some t) :
    Sound server {fd | 0 ≤ fd} t ∧ Sized t.board := by
  refine ⟨hs.1.step noRefusal_nonneg h, ?_⟩
  rcases step_board server hs.1.pc hs.1.tagged h with ⟨-, hsame⟩ | ⟨m, -, hm⟩
  · exact hsame ▸ hs.2
  · exact sized_moves hs.2 hm

theorem terminator_step (hs : Sound server {fd | 0 ≤ fd} s ∧ Sized s.board)
    (h : run s a = some t) : TerminatesInside s a ↔ LeavesRoom s a := by
  -- Both are about the completion the step handles, if it handles one.
  rcases step_board server hs.1.pc hs.1.tagged h with ⟨hmove, -⟩ | ⟨m, hmove, hm⟩
  · refine iff_of_true (fun q u hq => ?_) (by simp [LeavesRoom, hmove])
    rw [hmove] at hq
    cases hq
  · have hroom : LeavesRoom s a ↔ Roomy m := by
      simp only [LeavesRoom, hmove, Option.mem_def, Option.some.injEq, forall_eq']
    rw [hroom]
    cases m with
    | exec e o =>
      refine iff_of_true (fun q u hq => ?_) trivial
      rw [hmove] at hq
      cases hq
    | handle q =>
      have hmem : ∀ u, run s a = some u → q.sqe.opcode = .recv → 0 < q.res →
          u.mem = s.mem.terminate q.sqe.fd q.res := by
        intro u hu hop hres
        rw [(handle_apply hs.1 hmove hu).1, Plan.effect_recv hop]
        exact if_pos hres
      have hlt : q.sqe.opcode = .recv → (q.res ≠ q.sqe.len ↔ q.res < bufferLength) := by
        intro hop
        obtain ⟨hlen, hle⟩ := hs.2 (.ready q) hm.ready_mem hop
        have hlen' : q.sqe.len = bufferLength := hlen
        have := hle q rfl
        omega
      refine ⟨?_, ?_⟩
      · intro hterm hop hres
        have hinside := hterm q t hmove hop hres h
        rw [hmem t h hop hres, terminates_iff hres] at hinside
        exact (hlt hop).2 hinside
      · intro hne q' u hq hop hres hu
        cases Move.handle.inj (Option.some.inj (hmove.symm.trans hq))
        rw [hmem u hu hop hres, terminates_iff hres]
        exact (hlt hop).1 (hne hop hres)

theorem sized_run {ok : State → Act → Prop} (hinit : init listenfd table = some s₀)
    (h : Run run ok s₀ as s) : Sound server {fd | 0 ≤ fd} s ∧ Sized s.board := by
  have hinv := h.invariant ⟨init_sound hinit, sized_init hinit⟩
    fun hs _ hstep => sized_step hs hstep
  exact hinv

/-- **The terminator stays in the buffer.** In every run, every READ that delivered bytes had
them terminated inside its `rbuffer`, with nothing else of the table changed, exactly when the
server handled no `recv` that delivered as many bytes as it asked for. -/
theorem terminator_iff (hinit : init listenfd table = some s₀)
    (h : Run run (fun _ _ => True) s₀ as s) :
    Run run TerminatesInside s₀ as s ↔ Run run LeavesRoom s₀ as s :=
  h.guard_iff ⟨init_sound hinit, sized_init hinit⟩ (fun hs _ hstep => sized_step hs hstep)
    fun hs _ hstep => terminator_step hs hstep

/-- After `accepting`: the `recv` on descriptor 5 delivers the bytes, and its completion is
handled. -/
def delivering (bytes : List Byte) : List Act :=
  [.exec 1 (.received bytes), .post 0, .program, .program]

theorem terminator_hi :
    ∃ s₀ s, init 3 blankTable = some s₀ ∧
      exec run LeavesRoom s₀ (accepting ++ delivering (ascii "hi")) = some s ∧
      s.mem.terminators = [(5, 2)] ∧
      Run run TerminatesInside s₀ (accepting ++ delivering (ascii "hi")).reverse s := by
  have hdone : ((init 3 blankTable).bind fun s₀ =>
      exec run LeavesRoom s₀ (accepting ++ delivering (ascii "hi"))).any
        (fun s => decide (s.mem.terminators = [(5, 2)])) = true := by
    decide +kernel
  obtain ⟨s₀, s, hinit, hexec, hstored⟩ := exists_exec hdone
  have hrun := Run.of_exec hexec
  exact ⟨s₀, s, hinit, hexec, hstored,
    (terminator_iff hinit (hrun.mono fun _ _ _ => trivial)).2 hrun⟩

/-- A `recv` that delivers 1024 bytes has its terminator stored behind the buffer. -/
theorem terminator_overrun :
    ¬ ∀ (listenfd : Int) (table : Int → ConnItem) (s₀ s : State) (as : List Act),
      init listenfd table = some s₀ → Run run AcceptsInTable s₀ as s →
        Run run TerminatesInside s₀ as s := by
  intro hclaim
  have hrun : ((init 3 blankTable).bind fun s₀ => exec run AcceptsInTable s₀
      (accepting ++ [.exec 1 (.received (List.replicate 1024 0)), .post 0, .program])).any
        (fun s => decide (¬ LeavesRoom s .program ∧ (run s .program).isSome = true)) = true := by
    decide +kernel
  obtain ⟨s₀, s, hinit, hexec, hfull, hstep⟩ := exists_exec hrun
  obtain ⟨t, ht⟩ := Option.isSome_iff_exists.1 hstep
  have hs := Run.of_exec hexec
  have hok : AcceptsInTable s .program := trivial
  obtain ⟨u, hu, hterm, -⟩ := Run.cons_iff.1 (hclaim 3 _ s₀ t _ hinit (.cons hs hok ht))
  cases hs.unique hu
  exact hfull ((terminator_step (sized_run hinit hs) ht).1 hterm)

end NetDesign.Proactor
