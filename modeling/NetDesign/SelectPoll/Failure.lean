import NetDesign.SelectPoll.Select
import NetDesign.SelectPoll.Poll

/-!
# Failed system calls in the readiness loops

Neither loop looks at `nready`. When the wait fails, `select.cc` goes on with a copy of all that
is watched, and `poll.cc` with what earlier rounds have left in `revents`. The -1 of a failed
`Accept` goes on as an index.

* `failsSafely_iff` — a round does no harm exactly when what is left after a failed wait has
  nothing ready in it, and no `accept` fails.
* `failure_iff` — the two conditions, over runs of both servers.
-/

namespace NetDesign.SelectPoll

/-- A round in which the wait fails makes no call and leaves what is watched, `reg`, and `mxfd`
as they are. So does one in which `Accept` fails, but for its calls; and it stays inside the
tables. -/
def FailsSafely {ω ρ : Type*} (w : Watcher ω) (reg : ω → ρ) (s : State ω) (env : Env) : Prop :=
  ∀ t new used, w.main s env = some t → t.trace = new ++ s.trace →
    t.touched = s.touched ++ used →
    (env.ready = none → new = [] ∧ reg t.watch = reg s.watch ∧ t.mxfd = s.mxfd) ∧
    (.accept (-1) ∈ new → reg t.watch = reg s.watch ∧ t.mxfd = s.mxfd ∧
      ∀ i ∈ used, 0 ≤ i ∧ i < tableSize)

/-- A failed wait leaves nothing ready, and no `accept` fails. -/
def Harmless {ω : Type*} (w : Watcher ω) (s : State ω) (env : Env) : Prop :=
  (env.ready = none → ∀ fd, s.sockfd ≤ fd → fd ≤ s.mxfd →
    w.isReady (w.wait s none) fd = false) ∧
  (w.isReady (w.wait s env.ready) s.sockfd = true → env.accepted ≠ none)

section

variable {ω ρ : Type*} {w : Watcher ω} {reg : ω → ρ} {s t u : State ω} {env : Env}

/-! ## A round -/

/-- A scan that finds nothing ready. -/
theorem scan_idle (hle : u.sockfd ≤ u.mxfd)
    (hidle : ∀ fd, u.sockfd < fd → fd ≤ u.mxfd → w.isReady u.watch fd = false)
    (h : forInt (u.sockfd + 1) (u.mxfd + 1) (w.serve env) u = some t) :
    t.trace = u.trace ∧ t.watch = u.watch ∧ t.mxfd = u.mxfd := by
  have hrule := @scan_invariant _ w env t u
    (fun _ v => v.trace = u.trace ∧ v.watch = u.watch ∧ v.mxfd = u.mxfd) hle ⟨rfl, rfl, rfl⟩
  refine (hrule (fun {fd v v'} hlt hfd hframe hinv hserves => ?_) h).2
  have hno : ¬ w.isReady v.watch fd = true := by
    rw [hframe.isReady, hidle fd hlt hfd]
    exact Bool.false_ne_true
  cases hserves with
  | idle => exact hinv
  | left hready => exact absurd hready hno
  | echoed hready => exact absurd hready hno
  | failed hready => exact absurd hready hno

/-- A wait that leaves nothing ready. -/
theorem main_idle (hle : s.sockfd ≤ s.mxfd)
    (hidle : ∀ fd, s.sockfd ≤ fd → fd ≤ s.mxfd → w.isReady (w.wait s env.ready) fd = false)
    (h : w.main s env = some t) :
    t.trace = s.trace ∧ t.watch = w.wait s env.ready ∧ t.mxfd = s.mxfd := by
  obtain ⟨u, haccepts, hscan⟩ := main_cases h
  have hno : ¬ w.isReady (w.wait s env.ready) s.sockfd = true :=
    Bool.eq_false_iff.1 (hidle _ (Int.le_refl _) hle)
  cases haccepts with
  | idle =>
    exact scan_idle (u := (s.waited w env.ready).touch s.sockfd) hle
      (fun fd hlt hfd => hidle fd hlt.le hfd) hscan
  | joined hready => exact absurd hready hno
  | refused hready => exact absurd hready hno

/-- A scan only adds to what is touched. -/
theorem scan_touched (hle : u.sockfd ≤ u.mxfd)
    (h : forInt (u.sockfd + 1) (u.mxfd + 1) (w.serve env) u = some t) :
    ∃ used, t.touched = u.touched ++ used := by
  have hrule := @scan_invariant _ w env t u (fun _ v => ∃ used, v.touched = u.touched ++ used) hle
    ⟨[], (List.append_nil _).symm⟩
  refine (hrule (fun {fd v v'} _ _ _ hinv hserves => ?_) h).2
  obtain ⟨used, hused⟩ := hinv
  cases hserves with
  | left => exact ⟨used ++ [fd] ++ [fd], by simp [State.left, hused]⟩
  | _ => exact ⟨used ++ [fd], by simp [State.touch, State.answered, hused]⟩

theorem Accepts.touched (h : Accepts w env s u) : ∃ used, u.touched = s.touched ++ used := by
  cases h with
  | idle => exact ⟨_, rfl⟩
  | joined => exact ⟨_, List.append_assoc _ _ _⟩
  | refused => exact ⟨_, List.append_assoc _ _ _⟩

theorem main_touched (hle : s.sockfd ≤ s.mxfd) (h : w.main s env = some t) :
    ∃ u used used', Accepts w env (s.waited w env.ready) u ∧
      u.touched = s.touched ++ used ∧ t.touched = s.touched ++ (used ++ used') := by
  obtain ⟨u, haccepts, hscan⟩ := main_cases h
  obtain ⟨_, hjoin⟩ := haccepts.joins
  obtain ⟨used, hused⟩ := haccepts.touched
  obtain ⟨used', hused'⟩ := scan_touched (hjoin.sockfd ▸ le_trans hle hjoin.mxfd) hscan
  refine ⟨u, used, used', haccepts, hused, ?_⟩
  rw [hused', hused, List.append_assoc]
  rfl

/-- A listener that is ready has `accept` called. -/
theorem Accepts.called (h : Accepts w env s u) (hready : w.isReady s.watch s.sockfd = true) :
    ∃ res, u.trace = .accept res :: s.trace := by
  cases h with
  | idle hidle => exact absurd hready (Bool.eq_false_iff.1 hidle)
  | joined => exact ⟨_, rfl⟩
  | refused => exact ⟨_, rfl⟩

theorem Accepts.failed_iff (h : Accepts w env s u) : u.trace = .accept (-1) :: s.trace ↔
    w.isReady s.watch s.sockfd = true ∧ env.accepted = none := by
  cases h with
  | idle hidle =>
    exact iff_of_false (List.cons_ne_self _ _).symm fun hyp => Bool.eq_false_iff.1 hidle hyp.1
  | joined _ hacc h0 =>
    refine iff_of_false (fun htrace => ?_) fun hyp => by rw [hacc] at hyp; cases hyp.2
    cases htrace
    exact absurd h0 (by decide)
  | refused hready hnone => exact iff_of_true rfl ⟨hready, hnone⟩

/-- An `accept` that fails uses entry -1. -/
theorem Accepts.touched_of_failed {used : List Int} (h : Accepts w env s u)
    (hready : w.isReady s.watch s.sockfd = true) (hnone : env.accepted = none)
    (htouched : u.touched = s.touched ++ used) : -1 ∈ used := by
  cases h with
  | idle hidle => exact absurd hready (Bool.eq_false_iff.1 hidle)
  | joined _ hacc =>
    rw [hacc] at hnone
    cases hnone
  | refused =>
    have hused : [s.sockfd] ++ [-1] = used := by
      rw [State.refused, List.append_assoc] at htouched
      exact List.append_cancel_left htouched
    simp [← hused]

/-- **A round with a failure.** -/
theorem failsSafely_iff (hreg : reg (w.wait s none) = reg s.watch) (hle : s.sockfd ≤ s.mxfd)
    (h : w.main s env = some t) : FailsSafely w reg s env ↔ Harmless w s env := by
  obtain ⟨u, new, hround⟩ := main_recvd hle h
  obtain ⟨v, used, used', haccepts, hused, htouched⟩ := main_touched hle h
  refine ⟨fun hsafe => ⟨fun hnone fd hlow hhigh => ?_, fun hready hacc => ?_⟩, fun hcond => ?_⟩
  · obtain ⟨rfl, -⟩ := (hsafe t new _ h hround.trace htouched).1 hnone
    refine Bool.eq_false_iff.2 fun hready => ?_
    rw [← hnone] at hready
    rcases Int.lt_or_eq_of_le hlow with hlt | rfl
    · -- A client that looks ready is received from.
      have hmem := (hround.mem fd).2 ⟨hlt, le_trans hhigh Watcher.mxfd_le_scanEnd, hready⟩
      cases hmem
    · obtain ⟨res, hcall⟩ := hround.accepts.called hready
      exact absurd (hround.accept.2 hcall) List.not_mem_nil
  · have hmem : .accept (-1) ∈ new :=
      hround.accept.2 (hround.accepts.failed_iff.2 ⟨hready, hacc⟩)
    have hneg : -1 ∈ used := haccepts.touched_of_failed hready hacc hused
    have hin := ((hsafe t new _ h hround.trace htouched).2 hmem).2.2 (-1)
      (List.mem_append_left _ hneg)
    exact absurd hin.1 (by decide)
  · intro t' new' _ h' htrace _
    cases h.symm.trans h'
    cases List.append_cancel_right (hround.trace.symm.trans htrace)
    refine ⟨?_, ?_⟩
    · intro hnone
      have hidle := hcond.1 hnone
      rw [← hnone] at hidle hreg
      obtain ⟨hsame, hwatch, hmax⟩ := main_idle hle hidle h
      rw [hround.trace] at hsame
      exact ⟨List.append_left_eq_self.1 hsame, hwatch ▸ hreg, hmax⟩
    · intro hmem
      obtain ⟨hready, hacc⟩ := hround.accepts.failed_iff.1 (hround.accept.1 hmem)
      exact absurd hacc (hcond.2 hready)

/-! ## Runs -/

theorem le_step (hle : s.sockfd ≤ s.mxfd) (h : w.main s env = some t) : t.sockfd ≤ t.mxfd := by
  refine main_invariant (fun hu => hu) (fun hs => hs) (fun hw haccepts => ?_)
    (fun _ hu hserves => ?_) hle h
  · obtain ⟨_, hjoin⟩ := haccepts.joins
    exact hjoin.sockfd ▸ le_trans hw hjoin.mxfd
  · have hframe := hserves.frame
    rw [hframe.sockfd, hframe.mxfd]
    exact hu

end

/-- In `select.cc` the listener is always watched. -/
structure Listening (s : State Select.Sets) : Prop where
  le : s.sockfd ≤ s.mxfd
  watched : s.watch.rfds s.sockfd = true

/-- `select` succeeds, and an `accept` does. -/
def CallsSucceed (s : State Select.Sets) (env : Env) : Prop :=
  ∃ ready ∈ env.ready, ready s.sockfd = true → env.accepted ≠ none

section

open Select (Sets fdSet_self fdSet_of_ne fdClr_of_ne)

variable {s t u : State Sets} {env : Env} {fd : Int}

theorem Listening.added (hs : Listening s) : Select.fdSet fd s.watch.rfds s.sockfd = true := by
  by_cases heq : s.sockfd = fd
  · rw [heq]
    exact fdSet_self
  · rw [fdSet_of_ne heq]
    exact hs.watched

theorem Listening.accepts (hs : Listening s) (h : Accepts Select.watcher env s u) :
    Listening u := by
  cases h with
  | idle => exact ⟨hs.le, hs.watched⟩
  | joined => exact ⟨le_trans hs.le (Int.le_max_left _ _), hs.added⟩
  | refused => exact ⟨le_trans hs.le (Int.le_max_left _ _), hs.added⟩

theorem Listening.serves (hs : Listening s) (hlt : s.sockfd < fd)
    (h : Serves Select.watcher env fd s t) : Listening t := by
  cases h with
  | left => exact ⟨hs.le, (fdClr_of_ne hlt.ne).trans hs.watched⟩
  | _ => exact ⟨hs.le, hs.watched⟩

theorem Listening.waited (hs : Listening s) (ready : Option (Int → Bool)) :
    Listening (s.waited Select.watcher ready) := by
  cases ready <;> exact ⟨hs.le, hs.watched⟩

theorem listening_step (hs : Listening s) (h : Select.main s env = some t) : Listening t :=
  main_invariant Listening.le (fun hs => hs.waited env.ready)
    (fun hw haccepts => hw.accepts haccepts) (fun hlt hu hserves => hu.serves hlt hserves) hs h

theorem listening_init {sockfd : Int} {others : Int → Bool} {rset : Select.FdSet}
    (h : Select.init sockfd others rset = some s) : Listening s := by
  rw [Select.init] at h
  split_ifs at h with h0
  cases h
  exact ⟨Int.le_refl _, fdSet_self⟩

/-- A failed `select` leaves the listener in `rset`. -/
theorem Listening.harmless_iff (hs : Listening s) :
    Harmless Select.watcher s env ↔ CallsSucceed s env := by
  have hnone : Select.watcher.isReady (Select.watcher.wait s none) s.sockfd = true := hs.watched
  have hsome : ∀ ready, Select.watcher.isReady (Select.watcher.wait s (some ready)) s.sockfd =
      ready s.sockfd := fun ready => by
    simp only [Select.watcher, Select.select, Select.fdIsset, hs.watched, Bool.true_and]
  rw [Harmless, CallsSucceed]
  cases hready : env.ready with
  | none =>
    refine iff_of_false (fun hyp => ?_) fun hyp => ?_
    · have hidle := hyp.1 rfl s.sockfd (Int.le_refl _) hs.le
      rw [hnone] at hidle
      cases hidle
    · obtain ⟨ready, hmem, -⟩ := hyp
      cases hmem
  | some ready =>
    simp only [reduceCtorEq, false_imp_iff, true_and, hsome, Option.mem_some_iff, exists_eq_left']

theorem select_failsSafely_iff (hs : Listening s) (h : Select.main s env = some t) :
    FailsSafely Select.watcher Sets.rfds s env ↔ CallsSucceed s env :=
  (failsSafely_iff rfl hs.le h).trans hs.harmless_iff

end

/-- What `poll` is asked about. -/
def Poll.asked (fds : Poll.Fds) (i : Int) : Int × Poll.Short := ((fds i).fd, (fds i).events)

variable {sockfd : Int} {others : Int → Bool} {rset : Select.FdSet} {fds : Poll.Fds}
  {s₀ s : State Select.Sets} {p₀ p : State Poll.Fds} {envs envs' : List Env}

/-- **Failures.** A failed call leaves the select server as it was exactly when neither
`select` nor an `accept` fails, and the poll server exactly when a failed `poll` finds no
`POLLIN` left in the entries that it covers, and no `accept` fails. -/
theorem failure_iff (hs : Select.init sockfd others rset = some s₀)
    (h : Run Select.main (fun _ _ => True) s₀ envs s)
    (hp : Poll.init sockfd others fds = some p₀)
    (h' : Run Poll.main (fun _ _ => True) p₀ envs' p) :
    (Run Select.main (FailsSafely Select.watcher Select.Sets.rfds) s₀ envs s ↔
      Run Select.main CallsSucceed s₀ envs s) ∧
    (Run Poll.main (FailsSafely Poll.watcher Poll.asked) p₀ envs' p ↔
      Run Poll.main (Harmless Poll.watcher) p₀ envs' p) := by
  refine ⟨?_, ?_⟩
  · exact h.guard_iff (listening_init hs) (fun hs _ hstep => listening_step hs hstep)
      fun hs _ hstep => select_failsSafely_iff hs hstep
  · have hrule := @Run.guard_iff _ _ Poll.main (fun _ _ => True) p₀ p envs'
      (fun p => p.sockfd ≤ p.mxfd) (FailsSafely Poll.watcher Poll.asked) (Harmless Poll.watcher)
    exact hrule (Poll.init_started hp).1 (fun hle _ hstep => le_step hle hstep)
      (fun hle _ hstep => failsSafely_iff rfl hle hstep) h'

theorem failure_reusing :
    ∃ s₀ s p₀ p, Select.init 3 stdio (fun _ => true) = some s₀ ∧ s.fds.owner 4 = some 2 ∧
      Poll.init 3 stdio Poll.zeroed = some p₀ ∧ p.fds.owner 4 = some 2 ∧
      (Run Select.main (FailsSafely Select.watcher Select.Sets.rfds) s₀ reusing.reverse s ↔
        Run Select.main CallsSucceed s₀ reusing.reverse s) ∧
      (Run Poll.main (FailsSafely Poll.watcher Poll.asked) p₀ reusing.reverse p ↔
        Run Poll.main (Harmless Poll.watcher) p₀ reusing.reverse p) := by
  obtain ⟨s₀, s, hs, hrun, hso⟩ := Select.reusing_run
  obtain ⟨p₀, p, hp, hrun', hpo⟩ := Poll.reusing_run
  exact ⟨s₀, s, p₀, p, hs, hso, hp, hpo,
    failure_iff hs (hrun.mono fun _ _ _ => trivial) hp (hrun'.mono fun _ _ _ => trivial)⟩

/-- A `select` that fails is followed by an `accept`, and the -1 of an `Accept` that fails has
`fds[-1]` written to. -/
theorem failure_harms :
    (¬ ∀ sockfd others rset s₀ envs s, Select.init sockfd others rset = some s₀ →
      Run Select.main (fun _ _ => True) s₀ envs s →
        Run Select.main (FailsSafely Select.watcher Select.Sets.rfds) s₀ envs s) ∧
    ¬ ∀ sockfd others fds s₀ envs s, Poll.init sockfd others fds = some s₀ →
      Run Poll.main (fun _ _ => True) s₀ envs s →
        Run Poll.main (FailsSafely Poll.watcher Poll.asked) s₀ envs s := by
  refine ⟨?_, ?_⟩
  · intro hclaim
    have hround : ((Select.init 3 stdio fun _ => true).any fun s₀ =>
        (Select.main s₀ { round [] (some 4) none with ready := none }).isSome) = true := by
      decide +kernel
    obtain ⟨s₀, hinit, hsome⟩ := (Option.any_eq_true _ _).1 hround
    obtain ⟨s, hstep⟩ := Option.isSome_iff_exists.1 hsome
    have hrun := hclaim 3 stdio _ s₀ _ s hinit (.cons .nil trivial hstep)
    obtain ⟨u, hu, hsafe, -⟩ := Run.cons_iff.1 hrun
    cases hu
    obtain ⟨ready, hmem, -⟩ := (select_failsSafely_iff (listening_init hinit) hstep).1 hsafe
    cases hmem
  · intro hclaim
    have hround : ((Poll.init 3 stdio Poll.zeroed).any fun s₀ =>
        decide ((Poll.main s₀ (round [3] none none)).isSome = true ∧
          Poll.watcher.isReady (Poll.poll s₀ (round [3] none none).ready) s₀.sockfd = true)) =
        true := by
      decide +kernel
    obtain ⟨s₀, hinit, hdone⟩ := (Option.any_eq_true _ _).1 hround
    obtain ⟨hsome, hready⟩ := of_decide_eq_true hdone
    obtain ⟨s, hstep⟩ := Option.isSome_iff_exists.1 hsome
    have hrun := hclaim 3 stdio _ s₀ _ s hinit (.cons .nil trivial hstep)
    obtain ⟨u, hu, hsafe, -⟩ := Run.cons_iff.1 hrun
    cases hu
    have hharmless := (failsSafely_iff rfl (Poll.init_started hinit).1 hstep).1 hsafe
    exact hharmless.2 hready rfl

end NetDesign.SelectPoll
