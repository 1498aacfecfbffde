import NetDesign.Uring.Queue

/-!
# Progress of the server loop

The server takes the completions in the order they were posted, and what the kernel does in
between keeps none of them waiting: a batch that begins while `d` of them are to be handled has
all of them or is full, and costs three steps beside those that handle its completions.

* `work` — the steps until the first `n` completions posted are handled, at most.
* `handled_within` — they are, once the server has taken as many.
-/

namespace NetDesign.Uring

variable {μ α υ : Type*} {s t u : St μ α υ} {n d : Nat}

def Act.isProgram : Act → Bool
  | .program => true
  | .exec _ _ | .post _ => false

/-- The batches that `d` completions are handled in, at most. -/
def batches (batch d : Nat) : Nat := (d + batch - 1) / batch

theorem batches_eq_zero {batch : Nat} (h : 0 < batch) : batches batch 0 = 0 :=
  Nat.div_eq_of_lt (by omega)

/-- A full batch is one of them. -/
theorem batches_sub {batch : Nat} (h : 0 < batch) (hd : 0 < d) :
    batches batch d = batches batch (d - batch) + 1 := by
  rw [batches, batches]
  rcases Nat.lt_or_ge batch d with hlt | hle
  · have hshift : d + batch - 1 = (d - batch + batch - 1) + batch := by omega
    rw [hshift, Nat.add_div_right _ h]
  · have hone : d + batch - 1 = (d - 1) + batch := by omega
    rw [hone, Nat.add_div_right _ h, Nat.div_eq_of_lt (by omega), Nat.div_eq_of_lt (by omega)]

/-- The steps of the server until `n` completions are handled, at most. -/
def work (batch n : Nat) (s : St μ α υ) : Nat :=
  let d := n - s.handled.length
  if d = 0 then 0
  else
    match s.pc with
    | .head => d + 3 * batches batch d - 1
    | .waiting => d + 3 * batches batch d - 2
    | .batch nready i => d + 3 * batches batch (d - (nready - i))

theorem work_le {batch : Nat} (h : 0 < batch) :
    work batch n s ≤ (n - s.handled.length) + 3 * batches batch (n - s.handled.length) := by
  simp only [work]
  split_ifs
  · exact Nat.zero_le _
  · cases s.pc with
    | head | waiting => exact Nat.sub_le _ _
    | batch nready i =>
      have hmono : batches batch (n - s.handled.length - (nready - i)) ≤
          batches batch (n - s.handled.length) := Nat.div_le_div_right (by omega)
      show _ + 3 * _ ≤ _
      omega

/-- No step is left exactly when all are handled. -/
theorem le_of_work_eq_zero {batch : Nat} (h : 0 < batch) (hwork : work batch n s = 0) :
    n ≤ s.handled.length := by
  by_contra hlt
  have hpos : 0 < n - s.handled.length := by omega
  have hbatches := batches_sub h hpos
  simp only [work, if_neg hpos.ne'] at hwork
  split at hwork <;> omega

variable [Memory μ α] {srv : Server μ α υ} {D : Set Int} {a : Act} {as : List Act}

/-- Nothing is taken back that was posted. -/
theorem posted_prefix_step (hs : Sound srv D s) (h : step srv.batch srv.handle s a = some t) :
    s.posted <+: t.posted := by
  cases steps_of_step h with
  | post => exact List.prefix_append _ _
  | handle hbatch _ hcq hhandle =>
    cases srv.handle_eq (hs.tagged (.ready _) (ready_mem_tokens hbatch hcq)) hhandle
    exact List.prefix_rfl
  | _ => exact List.prefix_rfl

/-- A sound state, after the completions `l` were posted. -/
structure After (srv : Server μ α υ) (D : Set Int) (l : List (Cqe α υ)) (s : St μ α υ) : Prop where
  sound : Sound srv D s
  posted : l <+: s.posted

theorem After.step {l : List (Cqe α υ)} (hs : After srv D l s) (hok : NoRefusal D s a)
    (h : step srv.batch srv.handle s a = some t) : After srv D l t :=
  ⟨hs.sound.step hok h, hs.posted.trans (posted_prefix_step hs.sound h)⟩

/-- **Each step of the server counts**, and no step of the kernel does. -/
theorem work_step (hbatch : 0 < srv.batch) (hs : Sound srv D s) (hn : n ≤ s.posted.length)
    (h : step srv.batch srv.handle s a = some t) :
    work srv.batch n t ≤ work srv.batch n s - if a.isProgram then 1 else 0 := by
  have hposted := congrArg List.length hs.posted
  rw [List.length_append, List.length_map, List.length_drop] at hposted
  cases steps_of_step h with
  | exec => exact le_rfl
  | post => exact le_rfl
  | submit hhead =>
    simp only [work, hhead, St.submit, Act.isProgram, if_true]
    split_ifs <;> omega
  | peek hwait =>
    simp only [hwait, Pc.taken] at hposted
    simp only [work, hwait, St.peekBatch, Act.isProgram, if_true]
    split_ifs with hd
    · omega
    · have hbatches := batches_sub hbatch (Nat.pos_of_ne_zero hd)
      rcases Nat.le_total srv.batch s.cq.length with hfull | hall
      · rw [Nat.min_eq_left hfull, Nat.sub_zero]
        omega
      · have hle : n - s.handled.length ≤ s.cq.length := by omega
        rw [Nat.min_eq_right hall, Nat.sub_zero, Nat.sub_eq_zero_of_le hle, batches_eq_zero hbatch]
        omega
  | @handle nready i q _ hpc hi hcq hhandle =>
    cases srv.handle_eq (hs.tagged (.ready q) (ready_mem_tokens hpc hcq)) hhandle
    simp only [work, hpc, St.apply, List.length_append, List.length_singleton, Act.isProgram,
      if_true]
    have hsame : n - (s.handled.length + 1) - (nready - (i + 1)) =
        n - s.handled.length - (nready - i) := by omega
    rw [hsame]
    split_ifs <;> omega
  | @release nready i hpc hle =>
    simp only [work, hpc, St.cqAdvance, Act.isProgram, if_true, Nat.sub_eq_zero_of_le hle,
      Nat.sub_zero]
    split_ifs <;> omega

/-- **No completion waits for long.** Whatever the kernel does meanwhile, the completions posted
so far are handled, in the order of posting, once the server has taken one step for each of them
and three for each batch. -/
theorem handled_within (hbatch : 0 < srv.batch) {ok : St μ α υ → Act → Prop} (hs : Sound srv D s)
    (hok : ∀ {s a}, ok s a → NoRefusal D s a)
    (h : Run (step srv.batch srv.handle) ok s as t) (hd : d = s.posted.length - s.handled.length)
    (has : d + 3 * batches srv.batch d ≤ as.countP Act.isProgram) :
    s.posted <+: t.handled.map Handled.cqe := by
  have hafter : After srv D s.posted t :=
    h.invariant ⟨hs, List.prefix_rfl⟩ fun hu hok' hstep => hu.step (hok hok') hstep
  have hwork := h.variant (After srv D s.posted) (work srv.batch s.posted.length) Act.isProgram
    ⟨hs, List.prefix_rfl⟩ (fun hu hok' hstep => hu.step (hok hok') hstep)
    fun hu hstep => work_step hbatch hu.sound hu.posted.length_le hstep
  have hzero : work srv.batch s.posted.length t = 0 := by
    have hle := work_le (s := s) (n := s.posted.length) hbatch
    rw [← hd] at hle
    omega
  have hlen := le_of_work_eq_zero hbatch hzero
  refine List.prefix_of_prefix_length_le hafter.posted ⟨_, hafter.sound.posted⟩ ?_
  rwa [List.length_map]

/-- The completions posted so far are handled, in the order of posting, once the server has taken
so many steps, and it can take them. -/
def Drains (batch : Nat) (handle : St μ α υ → Cqe α υ → Option (St μ α υ)) (s : St μ α υ) : Prop :=
  let d := s.posted.length - s.handled.length
  let steps := d + 3 * batches batch d
  (∀ as t, Run (step batch handle) (fun _ _ => True) s as t → steps ≤ as.countP Act.isProgram →
      s.posted <+: t.handled.map Handled.cqe) ∧
    ∃ t, Run (step batch handle) (fun _ _ => True) s (List.replicate steps .program) t

theorem Queued.drains {entries : Nat} (hs : Queued srv entries s) (hbatch : 0 < srv.batch)
    (hentries : srv.batch + 2 ≤ entries)
    (hroom : ∀ {s : St μ α υ} {q}, s.sq.length + 2 ≤ s.entries → (srv.handle s q).isSome = true) :
    Drains srv.batch srv.handle s := by
  refine ⟨fun as t h has => ?_, ?_⟩
  · exact handled_within hbatch hs.sound (fun _ => noRefusal_nonneg) h rfl has
  · apply Run.exists_replicate hs
    · exact fun hu _ hstep => queued_step hu hstep
    · exact fun hu => ⟨trivial, hu.program_isSome hentries hroom⟩

end NetDesign.Uring
