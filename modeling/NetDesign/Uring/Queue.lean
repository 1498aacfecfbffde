import NetDesign.Uring.Outstanding

/-!
# The submission queue

Handling a completion fills one entry, or two if it is that of an accept. There is only one
accept, and it is in the queue once the batch has come to its completion, so a batch leaves
one entry more than it has completions.

* `queueOk_step` — the bound, through a batch and over the submit.
* `Sound.queue_le` — at most one batch of entries, and one, are queued.
* `queue_run` — a server that needs room for two entries always has a next step.
-/

namespace NetDesign.Uring

variable {μ α υ : Type*} {s t : St μ α υ}

/-- Every completion of the batch handled so far has filled one entry, and an accept two. -/
def QueueOk (batch : Nat) (s : St μ α υ) : Prop :=
  match s.pc with
  | .head => s.sq.length ≤ batch + 1
  | .waiting => s.sq = []
  | .batch _ i => s.sq.length ≤ i + s.sq.countP fun e => e.opcode = .accept

theorem length_replies (listenfd : Int) (k : Opcode × Int) (res : Int) :
    (replies listenfd k res).length ≤
      1 + (replies listenfd k res).countP fun k => k.1 = .accept := by
  obtain ⟨op, fd⟩ := k
  cases op with
  | accept => simp [replies]
  | recv =>
    simp only [replies]
    split_ifs <;> simp
  | send => simp [replies]

/-- The entries an effect fills, and the accepts among them. -/
theorem length_prep (srv : Server μ α υ) {m : μ} {q : Cqe α υ}
    (hq : q.userData = srv.tag q.sqe.key) :
    (srv.effect m q).prep.length ≤
      1 + (srv.effect m q).prep.countP fun e => e.opcode = .accept := by
  have hlen := length_replies (srv.listenfd m) q.sqe.key q.res
  rw [← srv.prep_key hq, List.length_map, List.countP_map] at hlen
  exact hlen

theorem St.getSqe_isSome {e : Sqe α υ} (h : s.sq.length < s.entries) :
    (s.getSqe e).isSome = true := by
  rw [getSqe, if_pos h]
  rfl

/-- What comes after an entry goes through if it does with one place less. -/
theorem St.bind_getSqe_isSome {β : Type*} {e : Sqe α υ} {f : St μ α υ → Option β}
    (h : s.sq.length < s.entries)
    (hf : ∀ t, t.sq.length = s.sq.length + 1 → t.entries = s.entries → (f t).isSome = true) :
    ((s.getSqe e).bind f).isSome = true := by
  rw [getSqe, if_pos h]
  exact hf _ List.length_append rfl

section

variable {srv : Server μ α υ} {D : Set Int}

/-- The queue holds at most the one accept there is. -/
theorem Sound.countP_sq (h : Sound srv D s) :
    s.sq.countP (fun e => e.opcode = .accept) ≤ 1 := by
  have hone : s.board.tokens.countP (fun x => x.sqe.opcode = .accept) = 1 := h.accepts
  have hle : (s.sq : Multiset (Sqe α υ)).map .waiting ≤ s.board.tokens := by
    simp only [St.board, St.tokens, add_assoc]
    exact Multiset.le_add_right _ _
  have hcount := Multiset.countP_le_of_le (fun x : Token α υ => x.sqe.opcode = .accept) hle
  rw [hone, Multiset.countP_map, ← Multiset.countP_eq_card_filter, Multiset.coe_countP] at hcount
  exact hcount

/-- **The queue is bounded** by one batch of entries, and one. -/
theorem Sound.queue_le (hs : Sound srv D s) (hq : QueueOk srv.batch s) :
    s.sq.length ≤ srv.batch + 1 := by
  have hone := hs.countP_sq
  cases hpc : s.pc with
  | head => simpa only [QueueOk, hpc] using hq
  | waiting =>
    simp only [QueueOk, hpc] at hq
    simp [hq]
  | batch n i =>
    simp only [QueueOk, hpc] at hq
    obtain ⟨hi, -, hn⟩ := hs.pc n i hpc
    omega

end

variable [Memory μ α] {srv : Server μ α υ} {D : Set Int} {a : Act}

/-- **A batch leaves one entry more than it has completions.** -/
theorem queueOk_step (hs : Sound srv D s) (hq : QueueOk srv.batch s)
    (h : step srv.batch srv.handle s a = some t) : QueueOk srv.batch t := by
  cases steps_of_step h with
  | exec => exact hq
  | post => exact hq
  | submit => exact rfl
  | peek hwait =>
    simp only [QueueOk, hwait] at hq
    simp [QueueOk, hq]
  | @handle n i q _ hbatch hlt hcq hhandle =>
    have htag := hs.tagged (.ready q) (ready_mem_tokens hbatch hcq)
    cases srv.handle_eq htag hhandle
    have hprep := length_prep srv (m := s.mem) htag
    simp only [QueueOk, hbatch] at hq
    simp only [QueueOk, St.apply, List.length_append, List.length_map, List.countP_append,
      List.countP_map, Function.comp_def]
    omega
  | @release n i hbatch hle =>
    have hone := hs.countP_sq
    obtain ⟨hi, -, hn⟩ := hs.pc n i hbatch
    simp only [QueueOk, hbatch] at hq
    simp only [QueueOk, St.cqAdvance]
    omega

/-- The ring does not change its size. -/
theorem entries_step (hs : Sound srv D s) (h : step srv.batch srv.handle s a = some t) :
    t.entries = s.entries := by
  cases steps_of_step h with
  | handle hbatch _ hcq hhandle =>
    cases srv.handle_eq (hs.tagged (.ready _) (ready_mem_tokens hbatch hcq)) hhandle
    rfl
  | _ => rfl

/-- A sound state of a ring of `entries` entries, with its queue within the bound. -/
structure Queued (srv : Server μ α υ) (entries : Nat) (s : St μ α υ) : Prop where
  sound : Sound srv {fd | 0 ≤ fd} s
  queueOk : QueueOk srv.batch s
  size : s.entries = entries

theorem queued_step {entries : Nat} (hs : Queued srv entries s)
    (h : step srv.batch srv.handle s a = some t) : Queued srv entries t :=
  ⟨hs.sound.step noRefusal_nonneg h, queueOk_step hs.sound hs.queueOk h,
    (entries_step hs.sound h).trans hs.size⟩

/-- A server whose handler goes through when there is room for two entries is never stuck. -/
theorem Queued.program_isSome {entries : Nat} (h : Queued srv entries s)
    (hentries : srv.batch + 2 ≤ entries)
    (hroom : ∀ {s : St μ α υ} {q}, s.sq.length + 2 ≤ s.entries → (srv.handle s q).isSome = true) :
    (step srv.batch srv.handle s .program).isSome = true := by
  have hsize := h.size
  simp only [step, loopStep]
  split
  · rfl
  · rfl
  · rename_i n i hbatch
    obtain ⟨-, hn, hle⟩ := h.sound.pc n i hbatch
    split_ifs with hlt
    · have hone := h.sound.countP_sq
      have hq := h.queueOk
      simp only [QueueOk, hbatch] at hq
      rw [List.getElem?_eq_getElem (by omega)]
      refine hroom ?_
      simp only
      omega
    · rfl

/-- **No entry is missing.** In every state of a run the queue is within its bound, and the
server has a next step. -/
theorem queue_run (srv : Server μ α υ) {entries : Nat} {s₀ : St μ α υ} {as : List Act}
    (h₀ : Queued srv entries s₀) (hentries : srv.batch + 2 ≤ entries)
    (hroom : ∀ {s : St μ α υ} {q}, s.sq.length + 2 ≤ s.entries → (srv.handle s q).isSome = true)
    (h : Run (step srv.batch srv.handle) (fun _ _ => True) s₀ as s) :
    s.sq.length ≤ srv.batch + 1 ∧ (step srv.batch srv.handle s .program).isSome = true := by
  have hs : Queued srv entries s := h.invariant h₀ fun hs _ hstep => queued_step hs hstep
  exact ⟨hs.sound.queue_le hs.queueOk, hs.program_isSome hentries hroom⟩

end NetDesign.Uring
