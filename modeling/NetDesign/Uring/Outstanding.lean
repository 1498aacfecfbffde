import NetDesign.Uring.Balance

/-!
# Outstanding operations and orphaned connections

The consequences of sound books for the rings themselves: how many operations of each kind
are outstanding, and which connections the server will hear of again.

* `Sound.one_accept`, `Sound.ops_le` — the conservation of operations.
* `noOrphan_iff_run` — no connection is orphaned exactly when no failed `recv` on an open
  descriptor was handled.
-/

namespace NetDesign.Uring

variable {μ α υ : Type*} {s : St μ α υ} {fd : Int}

namespace St

/-- The entries that were filled and whose completion was not handled yet. -/
def outstanding (s : St μ α υ) : List (Sqe α υ) :=
  s.sq ++ s.inflight ++ s.done.map Cqe.sqe ++ (s.cq.drop s.pc.taken).map Cqe.sqe

/-- The executed operations the server has not handled. -/
def completed (s : St μ α υ) : List (Cqe α υ) := s.done ++ s.cq.drop s.pc.taken

/-- The server took `fd` from the completion of an accept and has not closed it. -/
def Accepted (s : St μ α υ) (fd : Int) : Prop :=
  s.net.owner fd ≠ none ∧ ∀ q ∈ s.completed, q.sqe.opcode = .accept → q.res ≠ fd

/-- A `recv` or a `send` on `fd` is outstanding. -/
def Armed (s : St μ α υ) (fd : Int) : Prop :=
  ∃ e ∈ s.outstanding, e.opcode ≠ .accept ∧ e.fd = fd

def NoOrphan (s : St μ α υ) : Prop := ∀ fd, s.Accepted fd → s.Armed fd

end St

theorem coe_outstanding :
    (s.outstanding : Multiset (Sqe α υ)) = s.board.tokens.map Token.sqe := by
  simp only [St.outstanding, St.board, St.tokens, Multiset.map_add, Multiset.map_map,
    Function.comp_def, Token.sqe_waiting, Token.sqe_ready, Multiset.map_id', ← Multiset.coe_add,
    ← Multiset.map_coe]

theorem countP_outstanding (p : Sqe α υ → Prop) [DecidablePred p] :
    s.outstanding.countP p = s.board.tokens.countP fun x => p x.sqe := by
  rw [← Multiset.coe_countP, coe_outstanding, Multiset.countP_map, Multiset.countP_eq_card_filter]

theorem Token.target_eq_iff {x : Token α υ} :
    x.target = some fd ↔
      (x.sqe.opcode ≠ .accept ∧ x.sqe.fd = fd) ∨
        ∃ q, x = .ready q ∧ q.sqe.opcode = .accept ∧ q.res = fd := by
  cases x with
  | waiting e =>
    by_cases hop : e.opcode = .accept
    · simp [target_waiting_of_eq hop, hop]
    · simp [target_waiting_of_ne hop, hop]
  | ready q =>
    by_cases hop : q.sqe.opcode = .accept
    · simp [target_ready_of_eq hop, hop]
    · simp [target_ready_of_ne hop, hop]

theorem ready_mem_board {q : Cqe α υ} : .ready q ∈ s.board.tokens ↔ q ∈ s.completed := by
  simp only [St.board, St.tokens, St.completed, Multiset.mem_add, Multiset.mem_map,
    Multiset.mem_coe, List.mem_append, Token.ready.injEq, exists_eq_right, reduceCtorEq, and_false,
    exists_false, false_or]

/-- A descriptor is a target when it is armed or its accept is not handled. -/
theorem mem_targets_iff :
    fd ∈ s.board.targets ↔
      s.Armed fd ∨ ∃ q ∈ s.completed, q.sqe.opcode = .accept ∧ q.res = fd := by
  have harmed : s.Armed fd ↔ ∃ x ∈ s.board.tokens, x.sqe.opcode ≠ .accept ∧ x.sqe.fd = fd := by
    have hmem : ∀ e, e ∈ s.outstanding ↔ ∃ x ∈ s.board.tokens, x.sqe = e := fun e => by
      rw [← Multiset.mem_coe, coe_outstanding, Multiset.mem_map]
    refine ⟨?_, ?_⟩
    · intro hyp
      obtain ⟨e, he, hop⟩ := hyp
      obtain ⟨x, hx, rfl⟩ := (hmem e).1 he
      exact ⟨x, hx, hop⟩
    · intro hyp
      obtain ⟨x, hx, hop⟩ := hyp
      exact ⟨x.sqe, (hmem _).2 ⟨x, hx, rfl⟩, hop⟩
  rw [mem_targets, harmed]
  refine ⟨?_, ?_⟩
  · intro hyp
    obtain ⟨x, hx, ht⟩ := hyp
    rcases Token.target_eq_iff.1 ht with h | ⟨q, rfl, hq⟩
    · exact .inl ⟨x, hx, h⟩
    · exact .inr ⟨q, ready_mem_board.1 hx, hq⟩
  · intro hyp
    rcases hyp with ⟨x, hx, h⟩ | ⟨q, hq, h⟩
    · exact ⟨x, hx, Token.target_eq_iff.2 (.inl h)⟩
    · exact ⟨_, ready_mem_board.2 hq, Token.target_eq_iff.2 (.inr ⟨q, rfl, h⟩)⟩

theorem noOrphan_iff : s.NoOrphan ↔ ¬ ∃ fd, s.board.Orphan fd := by
  refine ⟨?_, ?_⟩
  · rintro h ⟨fd, hown, hfree⟩
    rw [mem_targets_iff, not_or] at hfree
    exact hfree.1 (h fd ⟨hown, fun q hq hop hres => hfree.2 ⟨q, hq, hop, hres⟩⟩)
  · rintro h fd ⟨hown, hacc⟩
    by_contra hidle
    refine h ⟨fd, hown, fun hmem => ?_⟩
    rcases mem_targets_iff.1 hmem with harm | ⟨q, hq, hop, hres⟩
    · exact hidle harm
    · exact hacc q hq hop hres

theorem countP_le_count_target (T : Multiset (Token α υ)) (fd : Int) :
    (T.countP fun x => x.sqe.opcode ≠ .accept ∧ x.sqe.fd = fd) ≤
      (T.filterMap Token.target).count fd := by
  induction T using Multiset.induction with
  | empty => simp
  | cons x T ih =>
    rw [Multiset.countP_cons]
    by_cases hx : x.sqe.opcode ≠ .accept ∧ x.sqe.fd = fd
    · rw [if_pos hx, Multiset.filterMap_cons_some _ _ _ (Token.target_eq_iff.2 (.inl hx)),
        Multiset.count_cons_self]
      exact Nat.succ_le_succ ih
    · rw [if_neg hx, Nat.add_zero, Multiset.filterMap_cons]
      exact ih.trans (Multiset.count_le_of_le _ (Multiset.le_add_left _ _))

section Sound

variable {srv : Server μ α υ} {D : Set Int}

theorem Sound.one_accept (h : Sound srv D s) :
    s.outstanding.countP (fun e => e.opcode = .accept) = 1 := by
  rw [countP_outstanding]
  exact h.accepts

/-- At most one `recv` or `send` on an open descriptor, and none on any other. -/
theorem Sound.ops_le (h : Sound srv D s) (hfd : fd ∈ D) :
    s.outstanding.countP (fun e => e.opcode ≠ .accept ∧ e.fd = fd) ≤
      if (s.net.owner fd).isSome then 1 else 0 := by
  rw [countP_outstanding]
  refine (countP_le_count_target s.board.tokens fd).trans ?_
  split_ifs with hown
  · exact h.balanced.one fd hfd
  · have hnone : s.net.owner fd = none := by simpa using hown
    exact (Multiset.count_eq_zero.2 (h.balanced.free fd hfd hnone)).le

end Sound

/-! ## Orphans over a run -/

/-- The move does not handle a failed `recv` on an open descriptor. -/
def Move.Succeeds (net : Net) : Move α υ → Prop
  | .handle q => q.sqe.opcode = .recv → net.owner q.sqe.fd ≠ none → 0 ≤ q.res
  | .exec _ _ => True

instance {net : Net} {m : Move α υ} : Decidable (m.Succeeds net) :=
  match m with
  | .handle _ => inferInstanceAs (Decidable (_ → _ → _))
  | .exec _ _ => inferInstanceAs (Decidable True)

/-- The server does not handle a failed `recv` on an open descriptor. -/
def RecvsSucceed (s : St μ α υ) (a : Act) : Prop := ∀ m ∈ s.move a, m.Succeeds s.net

instance {a : Act} : Decidable (RecvsSucceed s a) :=
  inferInstanceAs (Decidable (∀ m ∈ s.move a, m.Succeeds s.net))

theorem succeeds_iff {b : Board μ α υ} {m : Move α υ} :
    m.Succeeds b.net ↔ ¬ Abandons b m := by
  cases m with
  | exec e o =>
    refine iff_of_true trivial ?_
    intro hyp
    obtain ⟨q, hq, -⟩ := hyp
    cases hq
  | handle q =>
    simp only [Move.Succeeds, Abandons, Move.handle.injEq, exists_eq_left', not_and]
    refine imp_congr_right fun _ => ⟨fun himp hneg hown => ?_, fun himp hown => ?_⟩
    · have := himp hown
      omega
    · by_contra hneg
      exact himp (by omega) hown

theorem noRefusal_nonneg {a : Act} : NoRefusal {fd | 0 ≤ fd} s a := by
  intro e errno _ _ hmem
  have : (0 : Int) ≤ -(errno + 1) := hmem
  omega

variable [Memory μ α] {srv : Server μ α υ} {s₀ t : St μ α υ} {a : Act} {as : List Act}

theorem noOrphan_step (hs : Sound srv {fd | 0 ≤ fd} s)
    (h : step srv.batch srv.handle s a = some t) :
    t.NoOrphan ↔ s.NoOrphan ∧ RecvsSucceed s a := by
  rcases step_board srv hs.pc hs.tagged h with ⟨hmove, hsame⟩ | ⟨m, hmove, hm⟩
  · have hrecv : RecvsSucceed s a := by simp [RecvsSucceed, hmove]
    rw [noOrphan_iff, noOrphan_iff, hsame, and_iff_left hrecv]
  · have hrecv : RecvsSucceed s a ↔ ¬ Abandons s.board m := by
      simp only [RecvsSucceed, hmove, Option.mem_def, Option.some.injEq, forall_eq']
      exact succeeds_iff (b := s.board)
    rw [noOrphan_iff, noOrphan_iff, hrecv,
      orphan_booked hs.balanced hs.owner_nonneg (hm.booked hs.tagged), not_or]

/-- **Orphans.** In every run, no connection is orphaned exactly when the server never
handled a failed `recv` on an open descriptor. -/
theorem noOrphan_iff_run (srv : Server μ α υ) (h₀ : Sound srv {fd | 0 ≤ fd} s₀) (hno : s₀.NoOrphan)
    (h : Run (step srv.batch srv.handle) (fun _ _ => True) s₀ as s) :
    s.NoOrphan ↔ Run (step srv.batch srv.handle) RecvsSucceed s₀ as s := by
  have hiff := h.good_iff h₀ (fun hs _ hstep => hs.step noRefusal_nonneg hstep) hno
    fun hs _ hstep => noOrphan_step hs hstep
  exact hiff.trans ⟨Run.mono fun _ _ hok => hok.2, Run.mono fun _ _ hok => ⟨trivial, hok⟩⟩

end NetDesign.Uring
