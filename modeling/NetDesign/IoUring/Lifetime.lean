import NetDesign.IoUring.Conservation

/-!
# The storage of an accept in `proactor`

`init` and the accept branch of `run` give the kernel the addresses of a `clientaddr` and a
`len` of their own. The entry that holds them is submitted at the head of the loop, when the
scope that owns the two objects has been left.

* `expired_step` — between the steps of a run no such scope is open, and no outstanding accept
  points into one that is still to open.
* `accept_storage_iff` — the storage of every accept that the kernel completes is there in
  those runs only in which it completes none.
-/

namespace NetDesign.Proactor

open Uring

/-- The object is in storage. The buffers of the table always are. -/
def Ptr.Live (m : Mem) : Ptr → Prop
  | .rbuffer _ => True
  | .clientaddr scope => scope ∈ m.live
  | .len scope => scope ∈ m.live

/-- When the kernel completes an accept with an outcome that `writes` the peer address and its
length, it finds both in storage. -/
def StorageOpen (writes : Outcome → Prop) (s : State) (a : Act) : Prop :=
  ∀ e o, s.move a = some (.exec e o) → e.opcode = .accept → writes o →
    e.addr.Live s.mem ∧ ∀ addrlen ∈ e.addrlen, addrlen.Live s.mem

/-- The kernel completes no accept with an outcome that `writes`. -/
def NoAcceptCompletes (writes : Outcome → Prop) (s : State) (a : Act) : Prop :=
  ∀ e o, s.move a = some (.exec e o) → e.opcode = .accept → ¬ writes o

/-- No scope is open, and every outstanding accept points into one that has been. -/
structure Expired (b : Board Mem Ptr ConnInfo) : Prop where
  live : b.mem.live = []
  accept : ∀ x ∈ b.tokens, x.sqe.opcode = .accept → ∃ scope < b.mem.scopes,
    x.sqe.addr = .clientaddr scope ∧ x.sqe.addrlen = some (.len scope)

variable {b b' : Board Mem Ptr ConnInfo} {m : Move Ptr ConnInfo} {s t : State} {a : Act}
  {writes : Outcome → Prop}

/-! ## What a move does to the scopes -/

theorem live_write (m : Mem) (addr : Ptr) (bytes : List Byte) :
    (Memory.write m addr bytes).live = m.live := by
  cases addr <;> rfl

theorem scopes_write (m : Mem) (addr : Ptr) (bytes : List Byte) :
    (Memory.write m addr bytes).scopes = m.scopes := by
  cases addr <;> rfl

theorem scopes_perform {net : Net} {mem : Mem} {e : Sqe Ptr ConnInfo} {o : Outcome}
    {p : Performed Mem Ptr ConnInfo} (h : perform net mem e o = some p) :
    p.mem.live = mem.live ∧ p.mem.scopes = mem.scopes := by
  rcases perform_mem h with hmem | ⟨bytes, hmem⟩
  · rw [hmem]
    exact ⟨rfl, rfl⟩
  · rw [hmem, live_write, scopes_write]
    exact ⟨rfl, rfl⟩

/-- The block that handles an accept closes the scope it opens. -/
theorem scopes_effect (m : Mem) (q : Cqe Ptr ConnInfo) :
    (plan.effect m q).mem.live = m.live ∧
      (plan.effect m q).mem.scopes = if q.sqe.opcode = .accept then m.scopes + 1 else m.scopes := by
  cases hop : q.sqe.opcode with
  | accept =>
    rw [Plan.effect_accept hop]
    exact ⟨rfl, rfl⟩
  | recv =>
    rw [Plan.effect_recv hop]
    simp only [Plan.readEffect, reduceCtorEq, if_false]
    split_ifs <;> exact ⟨rfl, rfl⟩
  | send =>
    rw [Plan.effect_send hop]
    exact ⟨rfl, rfl⟩

theorem expired_moves (hb : Expired b) (h : Moves server b m b') : Expired b' := by
  cases h with
  | @exec T e o p hT hp =>
    obtain ⟨hlive, hscopes⟩ := scopes_perform hp
    refine ⟨hlive.trans hb.live, fun x hx hop => ?_⟩
    have hold : ∀ y ∈ b.tokens, y.sqe = x.sqe → ∃ scope < p.mem.scopes,
        x.sqe.addr = .clientaddr scope ∧ x.sqe.addrlen = some (.len scope) := by
      intro y hy heq
      rw [hscopes, ← heq]
      exact hb.accept y hy (heq ▸ hop)
    rcases Multiset.mem_cons.1 hx with rfl | hxT
    · exact hold (.waiting e) (hT ▸ Multiset.mem_cons_self _ _) (perform_sqe hp).symm
    · exact hold x (hT ▸ Multiset.mem_cons_of_mem hxT) rfl
  | @handle T q hT =>
    obtain ⟨hlive, hscopes⟩ := scopes_effect b.mem q
    refine ⟨hlive.trans hb.live, fun x hx hop => ?_⟩
    show ∃ scope < (plan.effect b.mem q).mem.scopes, _
    rw [hscopes]
    rcases Multiset.mem_add.1 hx with hx | hxT
    · rcases Plan.mem_tokens hx with ⟨hopq, rfl | rfl⟩ | ⟨-, -, rfl⟩ | ⟨-, rfl⟩
      · rw [if_pos hopq]
        exact ⟨b.mem.scopes, Nat.lt_succ_self _, rfl, rfl⟩
      · cases hop
      · cases hop
      · cases hop
    · obtain ⟨scope, hlt, haddr⟩ := hb.accept x (hT ▸ Multiset.mem_cons_of_mem hxT) hop
      refine ⟨scope, ?_, haddr⟩
      split_ifs
      · exact Nat.lt_succ_of_lt hlt
      · exact hlt

/-! ## Runs -/

/-- An outstanding accept points into no open scope, not even while `run` is in the block that
opens the next one. -/
theorem Expired.not_live (hb : Expired b) {scope : Nat} (hlt : scope < b.mem.scopes) :
    scope ∉ b.mem.openScope.live := by
  have hopen : b.mem.openScope.live = [b.mem.scopes] := by
    rw [Mem.openScope, hb.live]
  rw [hopen, List.mem_singleton]
  exact hlt.ne

variable {listenfd : Int} {table : Int → ConnItem} {s₀ : State} {as : List Act}

theorem expired_init (hinit : init listenfd table = some s₀) : Expired s₀.board := by
  rw [init_eq hinit]
  refine ⟨rfl, fun x hx _ => ?_⟩
  rw [start_tokens, Multiset.mem_singleton] at hx
  subst hx
  exact ⟨0, Nat.zero_lt_one, rfl, rfl⟩

theorem expired_step (hs : Sound server {fd | 0 ≤ fd} s ∧ Expired s.board)
    (h : run s a = some t) : Sound server {fd | 0 ≤ fd} t ∧ Expired t.board := by
  refine ⟨hs.1.step noRefusal_nonneg h, ?_⟩
  rcases step_board server hs.1.pc hs.1.tagged h with ⟨-, hsame⟩ | ⟨m, -, hm⟩
  · exact hsame ▸ hs.2
  · exact expired_moves hs.2 hm

theorem expired_run (hinit : init listenfd table = some s₀)
    (h : Run run (fun _ _ => True) s₀ as s) : Sound server {fd | 0 ≤ fd} s ∧ Expired s.board := by
  have hinv := h.invariant ⟨init_sound hinit, expired_init hinit⟩
    fun hs _ hstep => expired_step hs hstep
  exact hinv

/-- **One completion.** The storage of an accept is gone when the kernel completes it. -/
theorem storageOpen_iff (hs : Sound server {fd | 0 ≤ fd} s ∧ Expired s.board)
    (h : run s a = some t) : StorageOpen writes s a ↔ NoAcceptCompletes writes s a := by
  have hgone : ∀ e o, s.move a = some (.exec e o) → e.opcode = .accept →
      ¬ e.addr.Live s.mem := by
    intro e o hmove hop
    have hwaiting : .waiting e ∈ s.board.tokens := by
      rcases step_board server hs.1.pc hs.1.tagged h with ⟨hnone, -⟩ | ⟨m, hsome, hm⟩
      · rw [hnone] at hmove
        cases hmove
      · cases hsome.symm.trans hmove
        exact hm.waiting_mem
    obtain ⟨scope, hlt, haddr, -⟩ := hs.2.accept _ hwaiting hop
    rw [Token.sqe_waiting] at haddr
    rw [haddr]
    exact fun hlive => hs.2.not_live hlt (List.mem_cons_of_mem _ hlive)
  constructor
  · intro hopen e o hmove hop hwrites
    exact hgone e o hmove hop (hopen e o hmove hop hwrites).1
  · intro hno e o hmove hop hwrites
    exact absurd hwrites (hno e o hmove hop)

/-- **The storage of the accepts.** Whichever outcomes write the peer address and its length, all
of them or only those of accepts that succeed: in a run, the storage of every accept that the
kernel completes with such an outcome is still there exactly when it completes none so. -/
theorem accept_storage_iff (writes : Outcome → Prop) (hinit : init listenfd table = some s₀)
    (h : Run run (fun _ _ => True) s₀ as s) :
    Run run (StorageOpen writes) s₀ as s ↔ Run run (NoAcceptCompletes writes) s₀ as s := by
  exact h.guard_iff ⟨init_sound hinit, expired_init hinit⟩
    (fun hs _ hstep => expired_step hs hstep) fun hs _ hstep => storageOpen_iff hs hstep

/-- The outcome of an accept that succeeds. -/
def Accepted (o : Outcome) : Prop := ∃ fd, o = .accepted fd

theorem accept_storage_accepting :
    ∃ s₀ s, init 3 blankTable = some s₀ ∧ exec run (fun _ _ => True) s₀ accepting = some s ∧
      s.net.owner 5 = some 0 ∧
      (Run run (StorageOpen Accepted) s₀ accepting.reverse s ↔
        Run run (NoAcceptCompletes Accepted) s₀ accepting.reverse s) := by
  have hdone : ((init 3 blankTable).bind fun s₀ =>
      exec run (fun _ _ => True) s₀ accepting).any
        (fun s => decide (s.net.owner 5 = some 0)) = true := by
    decide +kernel
  obtain ⟨s₀, s, hinit, hexec, hown⟩ := exists_exec hdone
  exact ⟨s₀, s, hinit, hexec, hown, accept_storage_iff Accepted hinit (Run.of_exec hexec)⟩

/-- The address of the first client is written to where the `clientaddr` of `init` was. -/
theorem accept_storage_gone :
    ¬ ∀ (listenfd : Int) (table : Int → ConnItem) (s₀ s : State) (as : List Act),
      init listenfd table = some s₀ → Run run (fun _ _ => True) s₀ as s →
        Run run (StorageOpen Accepted) s₀ as s := by
  intro hclaim
  have hdone : ((init 3 blankTable).bind fun s₀ => exec run (fun _ _ => True) s₀ [.program]).any
      (fun s => decide ((s.inflight[0]?).map Sqe.opcode = some .accept ∧
        (run s (.exec 0 (.accepted 5))).isSome = true)) = true := by
    decide +kernel
  obtain ⟨s₀, s, hinit, hexec, hop, hstep⟩ := exists_exec hdone
  obtain ⟨e, he, hop⟩ := Option.map_eq_some_iff.1 hop
  obtain ⟨t, ht⟩ := Option.isSome_iff_exists.1 hstep
  have hs := Run.of_exec hexec
  obtain ⟨u, hu, hopen, -⟩ := Run.cons_iff.1 (hclaim 3 _ s₀ t _ hinit (.cons hs trivial ht))
  cases hs.unique hu
  have hmove : s.move (.exec 0 (.accepted 5)) = some (.exec e (.accepted 5)) := by
    rw [St.move, he]
    rfl
  exact (storageOpen_iff (expired_run hinit hs) ht).1 hopen e _ hmove hop ⟨5, rfl⟩

end NetDesign.Proactor
