import NetDesign.SelectPoll.Select

/-!
# The watched set of select.cc

A descriptor is in `rfds` when it is the listener or that of a client, and the clients lie
between the listener and `mxfd`: `accept` returns a descriptor that is not open, and everything
up to the listener is.

* `Watches` — what is watched, whoever comes and goes.
* `tracks_step` — this is kept by every round.
* `select_sound` — so a round receives once from every client that was reported ready, and
  from no other descriptor.
-/

namespace NetDesign.SelectPoll.Select

/-- The watched descriptors are the listener and the clients, which lie between it and `mxfd`. -/
structure Watches (s : State Sets) : Prop extends Ranged s where
  watched : ∀ fd, s.watch.rfds fd = true ↔ fd = s.sockfd ∨ s.fds.owner fd ≠ none

/-- So they do, with every descriptor below the listener open. -/
structure Tracks (s : State Sets) : Prop extends Watches s where
  below : ∀ fd, 0 ≤ fd → fd < s.sockfd → s.others fd = true

/-- `select` succeeds, and an `accept` returns the lowest descriptor that is not open, which an
`fd_set` has a bit for. -/
def Posix (s : State Sets) (env : Env) : Prop :=
  ∃ ready ∈ env.ready, ready s.sockfd = true →
    ∃ fd ∈ env.accepted, fd < tableSize ∧ ∀ n < fd.toNat, s.Open n

instance {s : State Sets} {env : Env} : Decidable (Posix s env) :=
  inferInstanceAs (Decidable (∃ ready ∈ env.ready, _ → ∃ fd ∈ env.accepted, _))

variable {s t u : State Sets} {env : Env} {fd : Int}

namespace Watches

theorem start (h0 : 0 ≤ s.sockfd) (hmxfd : s.mxfd = s.sockfd) (hfds : s.fds = .initial)
    (hrfds : s.watch.rfds = fdSet s.sockfd fdZero) : Watches s where
  nonneg := h0
  le := hmxfd.ge
  client fd hfd := absurd (congrArg (FdTable.owner · fd) hfds) hfd
  watched fd := by
    rw [hrfds, hfds]
    by_cases hfd : fd = s.sockfd
    · simp [hfd]
    · simp [fdSet_of_ne hfd, hfd, fdZero, FdTable.initial]

theorem waited (hs : Watches s) (ready : Option (Int → Bool)) :
    Watches (s.waited watcher ready) := by
  cases ready <;> exact { hs with }

theorem joined (hs : Watches s) (hlt : s.sockfd < fd) : Watches (s.joined watcher fd) where
  toRanged := hs.toRanged.joined hlt
  watched x := by
    by_cases hx : x = fd
    · subst hx
      simp [State.joined, watcher]
    · simp only [State.joined, watcher, fdSet_of_ne hx, FdTable.accept_owner_of_ne hx]
      exact hs.watched x

theorem left (hs : Watches s) (hlt : s.sockfd < fd) : Watches (s.left watcher fd) where
  toRanged := hs.toRanged.left
  watched x := by
    by_cases hx : x = fd
    · subst hx
      simp [State.left, watcher, hlt.ne']
    · simp only [State.left, watcher, fdClr_of_ne hx, FdTable.close_owner_of_ne hx]
      exact hs.watched x

end Watches

/-- A descriptor that is not open is above the listener. -/
theorem Tracks.lt_of_not_open (hs : Tracks s) (h0 : 0 ≤ fd) (hfree : ¬ s.Open fd) :
    s.sockfd < fd := by
  by_contra hle
  rcases Int.lt_or_eq_of_le (Int.not_lt.1 hle) with hlt | heq
  · exact hfree (.inr (.inr (hs.below fd h0 hlt)))
  · exact hfree (.inl heq)

theorem Tracks.left (hs : Tracks s) (hlt : s.sockfd < fd) : Tracks (s.left watcher fd) where
  toWatches := hs.toWatches.left hlt
  below x h0 hx := by
    have hne : x ≠ fd := (hx.trans hlt).ne
    simp only [State.left, Function.update_of_ne hne]
    exact hs.below x h0 hx

theorem Tracks.waited (hs : Tracks s) (ready : Option (Int → Bool)) :
    Tracks (s.waited watcher ready) :=
  { hs.toWatches.waited ready with below := hs.below }

/-- An `accept` that is called succeeds. -/
theorem Posix.accepted_ne_none (h : Posix s env)
    (hready : watcher.isReady (watcher.wait s env.ready) s.sockfd = true) :
    env.accepted ≠ none := by
  obtain ⟨ready, hmem, haccept⟩ := h
  rw [Option.mem_def] at hmem
  rw [hmem] at hready
  obtain ⟨fd, hfd, -⟩ := haccept ((Bool.and_eq_true _ _).mp hready).2
  rw [Option.mem_def] at hfd
  rw [hfd]
  exact Option.some_ne_none _

theorem Tracks.accepts (hs : Tracks s) (hok : Posix s env)
    (h : Accepts watcher env (s.waited watcher env.ready) u) : Tracks u := by
  have hw := hs.waited env.ready
  cases h with
  | idle => exact { hw with }
  | joined _ _ h0 hfree =>
    exact { hw.toWatches.joined (hw.lt_of_not_open h0 hfree) with below := hw.below }
  | refused hready hnone => exact absurd hnone (hok.accepted_ne_none hready)

theorem Tracks.serves (hs : Tracks s) (hlt : s.sockfd < fd) (h : Serves watcher env fd s t) :
    Tracks t := by
  cases h with
  | left => exact hs.left hlt
  | _ => exact { hs with }

/-- **The watched set is kept.** -/
theorem tracks_step (hs : Tracks s) (hok : Posix s env) (h : main s env = some t) : Tracks t :=
  main_invariant (fun hs => hs.le) (fun hs => hs.waited env.ready)
    (fun _ haccepts => hs.accepts hok haccepts) (fun hlt hu hserves => hu.serves hlt hserves) hs h

variable {sockfd : Int} {others : Int → Bool} {rset : FdSet} {s₀ : State Sets} {envs : List Env}

theorem tracks_init (hinit : init sockfd others rset = some s₀)
    (hbelow : ∀ fd, 0 ≤ fd → fd < sockfd → others fd = true) : Tracks s₀ := by
  rw [init] at hinit
  split_ifs at hinit with h0
  cases hinit
  exact ⟨.start h0 rfl rfl rfl, hbelow⟩

/-- **The registered set and the ready clients.** In every state of every run, `rfds` holds the
listener and the open clients, which lie between the listener and `mxfd`; and the next round
calls `recv` once on every client that `select` reports ready, on the connection it has at the
call of `select`, and on no other descriptor. -/
theorem select_sound (hinit : init sockfd others rset = some s₀)
    (hbelow : ∀ fd, 0 ≤ fd → fd < sockfd → others fd = true) (h : Run main Posix s₀ envs s) :
    (∀ fd, s.watch.rfds fd = true ↔ fd = s.sockfd ∨ s.fds.owner fd ≠ none) ∧
    (∀ fd, s.fds.owner fd ≠ none → s.sockfd < fd ∧ fd ≤ s.mxfd) ∧
    ∀ env ready t, env.ready = some ready → Posix s env → main s env = some t →
      ∃ new, t.trace = new ++ s.trace ∧ (recvd new).Nodup ∧
        (∀ fd, fd ∈ recvd new ↔ s.fds.owner fd ≠ none ∧ ready fd = true) ∧
        ∀ fd k r, .recv fd k r ∈ new → k = s.fds.owner fd := by
  have hs : Tracks s := h.invariant (tracks_init hinit hbelow) tracks_step
  refine ⟨hs.watched, hs.client, fun env ready t hready hok hstep => ?_⟩
  obtain ⟨u, new, hround⟩ := main_recvd hs.le hstep
  obtain ⟨_, hjoin⟩ := hround.accepts.joins
  have hmax : s.mxfd ≤ watcher.scanEnd s env := Watcher.mxfd_le_scanEnd
  have hmem : ∀ fd, fd ∈ recvd new ↔ s.fds.owner fd ≠ none ∧ ready fd = true := by
    intro fd
    have hisset : watcher.isReady (watcher.wait s env.ready) fd = true ↔
        s.watch.rfds fd = true ∧ ready fd = true := by
      simp only [watcher, select, hready, fdIsset, Bool.and_eq_true]
    rw [hround.mem, hisset, hs.watched]
    refine ⟨?_, ?_⟩
    · intro hyp
      obtain ⟨hlt, -, heq | hown, hfd⟩ := hyp
      · exact absurd heq hlt.ne'
      · exact ⟨hown, hfd⟩
    · intro hyp
      obtain ⟨hlt, hle⟩ := hs.client fd hyp.1
      exact ⟨hlt, by omega, .inr hyp.1, hyp.2⟩
  refine ⟨new, hround.trace, hround.nodup, hmem, fun fd k r hrecv => ?_⟩
  have hopen : s.Open fd := .inr (.inl ((hmem fd).1 (mem_recvd.2 ⟨k, r, hrecv⟩)).1)
  rw [(hround.recv hrecv).1]
  exact hjoin.owner hopen

theorem select_sound_reusing :
    ∃ s₀ s, init 3 stdio (fun _ => true) = some s₀ ∧ exec main Posix s₀ reusing = some s ∧
      s.fds.owner 4 = some 2 ∧
      (∀ fd, s.watch.rfds fd = true ↔ fd = s.sockfd ∨ s.fds.owner fd ≠ none) ∧
      (∀ fd, s.fds.owner fd ≠ none → s.sockfd < fd ∧ fd ≤ s.mxfd) ∧
      ∀ env ready t, env.ready = some ready → Posix s env → main s env = some t →
        ∃ new, t.trace = new ++ s.trace ∧ (recvd new).Nodup ∧
          (∀ fd, fd ∈ recvd new ↔ s.fds.owner fd ≠ none ∧ ready fd = true) ∧
          ∀ fd k r, .recv fd k r ∈ new → k = s.fds.owner fd := by
  have hdone : ((init 3 stdio fun _ => true).bind fun s₀ => exec main Posix s₀ reusing).any
      (fun s => decide (s.fds.owner 4 = some 2)) = true := by
    decide +kernel
  obtain ⟨s₀, s, hinit, hexec, howner⟩ := exists_exec hdone
  exact ⟨s₀, s, hinit, hexec, howner,
    select_sound hinit (fun fd h0 hlt => decide_eq_true ⟨h0, hlt⟩) (Run.of_exec hexec)⟩

end NetDesign.SelectPoll.Select
