import NetDesign.SelectPoll.Poll

/-!
# The entries poll.cc acts on

The scan goes up to a client that was accepted after `poll` returned, over entries that `poll`
may never have written and that `main` never initialised. The entry of an accepted descriptor
is in order from then on.

* `tracks_step` — every round keeps the entries of accepted descriptors in order.
* `reported_iff` — the receives of a run are all on clients that were reported ready exactly
  when no descriptor that was never accepted has `POLLIN` in its entry when it is looked at.
-/

namespace NetDesign.SelectPoll.Poll

/-- The entry of a client has its descriptor, and that of a client that has gone is not
polled. -/
structure Tracks (s : State Fds) : Prop extends Ranged s where
  polled : ∀ fd, s.fds.owner fd ≠ none → (s.watch fd).fd = fd
  known : ∀ fd, s.fds.owner fd ≠ none → .accept fd ∈ s.trace
  gone : ∀ fd, .accept fd ∈ s.trace → s.fds.owner fd = none → (s.watch fd).fd = -1
  covered : ∀ fd, .accept fd ∈ s.trace → fd ≤ s.mxfd

/-- Each `recv` of the round is on a client whose entry this round's `poll` has set. -/
def ReceivesReported (s : State Fds) (env : Env) : Prop :=
  ∀ t new, main s env = some t → t.trace = new ++ s.trace →
    ∀ fd k r, .recv fd k r ∈ new → ∃ c ready,
      k = some c ∧ s.fds.owner fd = some c ∧ env.ready = some ready ∧ fd ≤ s.mxfd ∧
        (s.watch fd).fd = fd ∧ Reports s ready fd

/-- Descriptors that were never accepted: `poll` reports none of them, and the entries that it
did not look at but the scan does have no `POLLIN`. -/
def StrangersSilent (s : State Fds) (env : Env) : Prop :=
  ∀ ready, env.ready = some ready → ∀ i, s.sockfd < i → .accept i ∉ s.trace →
    (i ≤ s.mxfd → ¬ Reports s ready i) ∧
    (s.mxfd < i → Reports s ready s.sockfd → (∃ fd ∈ env.accepted, i ≤ fd) →
      hasPollin (s.watch i).revents = false)

variable {s t u : State Fds} {env : Env} {fd : Int}

theorem Tracks.waited (hs : Tracks s) (ready : Option (Int → Bool)) :
    Tracks (s.waited watcher ready) where
  toRanged := { hs.toRanged with }
  polled x hx := (poll_fd ready).trans (hs.polled x hx)
  known := hs.known
  gone x hx hown := (poll_fd ready).trans (hs.gone x hx hown)
  covered := hs.covered

theorem Tracks.joined (hs : Tracks s) (hlt : s.sockfd < fd) : Tracks (s.joined watcher fd) where
  toRanged := hs.toRanged.joined hlt
  polled x hx := by
    by_cases hxf : x = fd
    · subst hxf
      exact congrArg PollFd.fd add_self
    · simp only [State.joined, FdTable.accept_owner_of_ne hxf] at hx
      exact (congrArg PollFd.fd (add_of_ne hxf)).trans (hs.polled x hx)
  known x hx := by
    by_cases hxf : x = fd
    · subst hxf
      exact List.mem_cons_self
    · simp only [State.joined, FdTable.accept_owner_of_ne hxf] at hx
      exact List.mem_cons_of_mem _ (hs.known x hx)
  gone x hx hown := by
    by_cases hxf : x = fd
    · subst hxf
      simp [State.joined] at hown
    · simp only [State.joined, FdTable.accept_owner_of_ne hxf] at hown
      rcases List.mem_cons.1 hx with heq | hx
      · cases heq
        exact absurd rfl hxf
      · exact (congrArg PollFd.fd (add_of_ne hxf)).trans (hs.gone x hx hown)
  covered x hx := by
    rcases List.mem_cons.1 hx with heq | hx
    · cases heq
      exact Int.le_max_right _ _
    · exact le_trans (hs.covered x hx) (Int.le_max_left _ _)

theorem Tracks.left (hs : Tracks s) : Tracks (s.left watcher fd) where
  toRanged := hs.toRanged.left
  polled x hx := by
    obtain ⟨hxf, hown⟩ := FdTable.close_owner_ne_none hx
    exact (congrArg PollFd.fd (forget_of_ne hxf)).trans (hs.polled x hown)
  known x hx := by
    have hown : s.fds.owner x ≠ none := (FdTable.close_owner_ne_none hx).2
    exact List.mem_cons_of_mem _ (List.mem_cons_of_mem _ (hs.known x hown))
  gone x hx hown := by
    by_cases hxf : x = fd
    · subst hxf
      exact congrArg PollFd.fd forget_self
    · simp only [State.left, FdTable.close_owner_of_ne hxf] at hown
      have hmem : .accept x ∈ s.trace := by simpa [State.left] using hx
      exact (congrArg PollFd.fd (forget_of_ne hxf)).trans (hs.gone x hmem hown)
  covered x hx := hs.covered x (by simpa [State.left] using hx)

theorem Tracks.answered {res : Option (List Byte)} {buf : Cells Byte} {len : Nat} {ok : Bool}
    (hs : Tracks s) : Tracks (s.answered fd res buf len ok) where
  toRanged := { hs.toRanged with }
  polled := hs.polled
  known x hx := List.mem_cons_of_mem _ (List.mem_cons_of_mem _ (hs.known x hx))
  gone x hx := hs.gone x (by simpa [State.answered] using hx)
  covered x hx := hs.covered x (by simpa [State.answered] using hx)

theorem Tracks.accepts (hs : Tracks s) (hok : Succeeds watcher s env)
    (h : Accepts watcher env (s.waited watcher env.ready) u) : Tracks u := by
  have hw := hs.waited env.ready
  cases h with
  | idle => exact { hw with }
  | joined hready hacc => exact hw.joined (hok.lt hready hacc)
  | refused hready hnone => exact absurd hnone (hok.accepted_ne_none hready)

theorem Tracks.serves (hs : Tracks s) (h : Serves watcher env fd s t) : Tracks t := by
  cases h with
  | idle => exact { hs with }
  | left => exact hs.left
  | echoed => exact hs.answered
  | failed => exact hs.answered

/-- **The entries are kept.** -/
theorem tracks_step (hs : Tracks s) (hok : Succeeds watcher s env) (h : main s env = some t) :
    Tracks t :=
  main_invariant (fun hs => hs.le) (fun hs => hs.waited env.ready)
    (fun _ haccepts => hs.accepts hok haccepts) (fun _ hu hserves => hu.serves hserves) hs h

/-! ## The receives of a round -/

theorem Tracks.le_scanEnd_iff (hs : Tracks s) {ready : Int → Bool}
    (hready : env.ready = some ready) (hok : Succeeds watcher s env) (i : Int) :
    i ≤ watcher.scanEnd s env ↔
      i ≤ s.mxfd ∨ (Reports s ready s.sockfd ∧ ∃ fd ∈ env.accepted, i ≤ fd) := by
  have hlisten : watcher.isReady (watcher.wait s env.ready) s.sockfd = true ↔
      Reports s ready s.sockfd := by
    rw [hready]
    exact isReady_poll hs.nonneg hs.le
  rw [Watcher.scanEnd]
  split_ifs with hrep
  · obtain ⟨fd, hfd⟩ := Option.ne_none_iff_exists'.1 (hok.accepted_ne_none hrep)
    simp only [hfd, Option.getD_some, le_max_iff, hlisten.1 hrep, Option.mem_some_iff,
      exists_eq_left', true_and]
  · rw [hlisten] at hrep
    exact ⟨.inl, fun hyp => hyp.resolve_right fun hyp => hrep hyp.1⟩

/-- **The receives of a round.** -/
theorem receivesReported_iff (hs : Tracks s) (hok : Succeeds watcher s env)
    (h : main s env = some t) : ReceivesReported s env ↔ StrangersSilent s env := by
  obtain ⟨ready, hready⟩ := Option.isSome_iff_exists.1 hok.1
  obtain ⟨u, new, hround⟩ := main_recvd hs.le h
  have hpoll : watcher.wait s env.ready = poll s (some ready) := by rw [hready]; rfl
  have hscan := hs.le_scanEnd_iff hready hok
  refine ⟨?_, ?_⟩
  · intro hall ready' hready' i hlt hnew
    cases hready.symm.trans hready'
    -- The scan does not receive from `i`.
    have hnot : i ∉ recvd new := by
      intro hmem
      obtain ⟨k, r, hrecv⟩ := mem_recvd.1 hmem
      obtain ⟨c, -, -, howner, -⟩ := hall t new h hround.trace i k r hrecv
      refine hnew (hs.known i ?_)
      rw [howner]
      exact Option.some_ne_none _
    rw [hround.mem, hscan, hpoll] at hnot
    refine ⟨fun hle hrep => hnot ⟨hlt, .inl hle, ?_⟩, fun hgt hlisten hacc => ?_⟩
    · exact (isReady_poll (by have := hs.nonneg; omega) hle).2 hrep
    · rw [← isReady_poll_of_gt hgt]
      exact Bool.eq_false_iff.2 fun hset => hnot ⟨hlt, .inr ⟨hlisten, hacc⟩, hset⟩
  · intro hcond t' new' h' htrace fd k r hrecv
    cases h.symm.trans h'
    cases List.append_cancel_right (hround.trace.symm.trans htrace)
    obtain ⟨hlt, hle, hset⟩ := (hround.mem fd).1 (mem_recvd.2 ⟨k, r, hrecv⟩)
    rw [hscan] at hle
    rw [hpoll] at hset
    have hknown : .accept fd ∈ s.trace := by
      by_contra hnew
      obtain ⟨hin, hout⟩ := hcond ready hready fd hlt hnew
      rcases le_or_gt fd s.mxfd with hcov | hgt
      · exact hin hcov ((isReady_poll (by have := hs.nonneg; omega) hcov).1 hset)
      · rcases hle with hcov | ⟨hlisten, hacc⟩
        · omega
        · rw [isReady_poll_of_gt hgt, hout hgt hlisten hacc] at hset
          cases hset
    have hcov := hs.covered fd hknown
    have hrep : Reports s ready fd := (isReady_poll (by have := hs.nonneg; omega) hcov).1 hset
    have howner : s.fds.owner fd ≠ none := by
      intro hnone
      have hneg := hs.gone fd hknown hnone
      have hpos := hrep.1
      omega
    obtain ⟨c, hc⟩ := Option.ne_none_iff_exists'.1 howner
    obtain ⟨_, hjoin⟩ := hround.accepts.joins
    have hconn := (hround.recv hrecv).1
    rw [hjoin.owner (.inr (.inl howner))] at hconn
    exact ⟨c, ready, hconn.trans hc, hc, hready, hcov, hs.polled fd howner, hrep⟩

/-! ## Runs -/

variable {sockfd : Int} {others : Int → Bool} {fds : Fds} {s₀ : State Fds} {envs : List Env}

theorem tracks_init (hinit : init sockfd others fds = some s₀) : Tracks s₀ := by
  rw [init] at hinit
  split_ifs at hinit with h0
  cases hinit
  exact ⟨⟨h0, Int.le_refl _, fun fd hfd => absurd rfl hfd⟩, fun fd hfd => absurd rfl hfd,
    fun fd hfd => absurd rfl hfd, fun fd hfd => (by cases hfd), fun fd hfd => (by cases hfd)⟩

/-- **Reported clients.** Whatever the array holds at the start, all receives of a run are on
clients that the `poll` of the same round has reported exactly when, in every round, `poll`
reports no descriptor that was never accepted and the scan meets no such descriptor whose
`revents`, which `poll` has not written, has `POLLIN`. -/
theorem reported_iff (hinit : init sockfd others fds = some s₀)
    (h : Run main (Succeeds watcher) s₀ envs s) :
    Run main ReceivesReported s₀ envs s ↔ Run main StrangersSilent s₀ envs s :=
  h.guard_iff (tracks_init hinit) tracks_step receivesReported_iff

theorem reported_reusing :
    ∃ s₀ s, init 3 stdio zeroed = some s₀ ∧ Run main (Succeeds watcher) s₀ reusing.reverse s ∧
      s.fds.owner 4 = some 2 ∧
      (Run main ReceivesReported s₀ reusing.reverse s ↔
        Run main StrangersSilent s₀ reusing.reverse s) := by
  obtain ⟨s₀, s, hinit, hrun, howner⟩ := reusing_run
  exact ⟨s₀, s, hinit, hrun, howner, reported_iff hinit hrun⟩

/-- `POLLIN` happens to be in an entry of the array before `main` uses it. -/
def stale : Fds := Function.update zeroed 4 ⟨0, 0, pollin⟩

/-- A client is received from in the round that accepts it. -/
theorem received_unreported :
    ¬ ∀ (sockfd : Int) (others : Int → Bool) (fds : Fds) (s₀ s : State Fds) (envs : List Env),
      init sockfd others fds = some s₀ →
      Run main (fun s env => Succeeds watcher s env ∧ ∀ fd, env.received fd ≠ none) s₀ envs s →
        Run main ReceivesReported s₀ envs s := by
  intro hclaim
  have hround : ((init 3 stdio stale).any fun s₀ =>
      decide (Succeeds watcher s₀ (round [3] (some 4) (some (ascii "hi"))) ∧
        (main s₀ (round [3] (some 4) (some (ascii "hi")))).isSome = true)) = true := by
    decide +kernel
  obtain ⟨s₀, hinit, hdone⟩ := (Option.any_eq_true _ _).1 hround
  obtain ⟨hok, hsome⟩ := of_decide_eq_true hdone
  obtain ⟨s, hstep⟩ := Option.isSome_iff_exists.1 hsome
  have hrun := hclaim 3 stdio stale s₀ s _ hinit
    (.cons .nil ⟨hok, fun fd => Option.some_ne_none _⟩ hstep)
  obtain ⟨u, hu, hrep, -⟩ := Run.cons_iff.1 hrun
  cases hu
  have hsilent := (receivesReported_iff (tracks_init hinit) hok hstep).1 hrep
  cases hinit
  have hlow := (hsilent _ rfl 4 (by decide) List.not_mem_nil).2 (by decide) (by decide)
    ⟨4, rfl, Int.le_refl _⟩
  exact absurd hlow (by decide)

end NetDesign.SelectPoll.Poll
