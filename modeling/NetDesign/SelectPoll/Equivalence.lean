import NetDesign.SelectPoll.Select
import NetDesign.SelectPoll.Poll

/-!
# select.cc and poll.cc are the same server

`rfds` and the array `fds` of `poll.cc` are two representations of the watched set. They are
related between rounds by `Matches`, and within a round by `Agree`, where the two programs also
see the same descriptors ready.

* `main_rel` — a round of both, in the same environment, is possible or not in both and keeps
  `Matches`.
* `same_server` — so the runs of either are those of the other, call for call.
-/

namespace NetDesign.SelectPoll

open Select (Sets fdSet_self fdSet_of_ne fdClr_self fdClr_of_ne)
open Poll (PollFd Fds pollin hasPollin Reports)

/-- The entries that are used of the table. -/
def InTable (sockfd i : Int) : Prop := i = sockfd ∨ (0 ≤ i ∧ i < tableSize)

/-- Entry `i` says the same as bit `i`. -/
def SameEntry (i : Int) (bit : Bool) (entry : PollFd) : Prop :=
  (bit = true ∧ entry.fd = i ∧ entry.events = pollin) ∨ (bit = false ∧ entry.events = 0)

theorem sameEntry_added {rfds : Select.FdSet} {fds : Fds} {fd : Int} :
    SameEntry fd (Select.fdSet fd rfds fd) (Poll.add fds fd fd) :=
  .inl ⟨fdSet_self, congrArg PollFd.fd Poll.add_self, congrArg PollFd.events Poll.add_self⟩

theorem sameEntry_forgotten {rfds : Select.FdSet} {fds : Fds} {fd : Int} :
    SameEntry fd (Select.fdClr fd rfds fd) (Poll.forget fds fd fd) :=
  .inr ⟨fdClr_self, congrArg PollFd.events Poll.forget_self⟩

/-- The same state but for what is watched. -/
structure Alike (s : State Sets) (p : State Fds) : Prop where
  sockfd : p.sockfd = s.sockfd
  mxfd : p.mxfd = s.mxfd
  others : p.others = s.others
  fds : p.fds = s.fds
  trace : p.trace = s.trace

/-- The same descriptors are watched: all of them are open, and no entry above `mxfd` has
`POLLIN`. -/
structure Matches (s : State Sets) (p : State Fds) : Prop extends Alike s p where
  nonneg : 0 ≤ s.sockfd
  le : s.sockfd ≤ s.mxfd
  bound : s.mxfd = s.sockfd ∨ s.mxfd < tableSize
  entry : ∀ i, InTable s.sockfd i → SameEntry i (s.watch.rfds i) (p.watch i)
  rfds : ∀ i, s.watch.rfds i = true → InTable s.sockfd i ∧ i ≤ s.mxfd ∧ s.Open i
  fresh : ∀ i, s.mxfd < i → i < tableSize → hasPollin (p.watch i).revents = false

/-- In a round, both see the same descriptors ready. -/
structure Agree (s : State Sets) (p : State Fds) : Prop extends Matches s p where
  ready : ∀ i, s.sockfd ≤ i → InTable s.sockfd i →
    Poll.watcher.isReady p.watch i = Select.watcher.isReady s.watch i

variable {s : State Sets} {p : State Fds} {env : Env} {fd i : Int}

theorem Alike.open_iff (h : Alike s p) : p.Open fd ↔ s.Open fd := by
  rw [State.Open, State.Open, h.sockfd, h.fds, h.others]

theorem Matches.inTable_of_le (h : Matches s p) (hlt : s.sockfd < i) (hle : i ≤ s.mxfd) :
    InTable s.sockfd i := by
  have h0 := h.nonneg
  rcases h.bound with hmax | hmax
  · omega
  · exact .inr ⟨by omega, by omega⟩

/-! ## A round -/

theorem Matches.waited {ready : Int → Bool} (h : Matches s p) :
    Agree (s.waited Select.watcher (some ready)) (p.waited Poll.watcher (some ready)) where
  sockfd := h.sockfd
  mxfd := h.mxfd
  others := h.others
  fds := h.fds
  trace := h.trace
  nonneg := h.nonneg
  le := h.le
  bound := h.bound
  entry i hi := by
    have hfd : (Poll.poll p (some ready) i).fd = (p.watch i).fd := Poll.poll_fd _
    have hev : (Poll.poll p (some ready) i).events = (p.watch i).events := Poll.poll_events _
    have hentry := h.entry i hi
    rw [SameEntry] at hentry ⊢
    exact hfd ▸ hev ▸ hentry
  rfds := h.rfds
  fresh i hgt hlt := by
    have hsame := @Poll.isReady_poll_of_gt p ready i (h.mxfd ▸ hgt)
    exact hsame.trans (h.fresh i hgt hlt)
  ready i hle hi := by
    rcases le_or_gt i s.mxfd with hcov | hgt
    · have h0 : 0 ≤ i := le_trans h.nonneg hle
      have hcov' : i ≤ p.mxfd := h.mxfd ▸ hcov
      rw [Bool.eq_iff_iff]
      refine (Poll.isReady_poll h0 hcov').trans ?_
      simp only [Select.watcher, State.waited, Select.select, Select.fdIsset, Bool.and_eq_true]
      rcases h.entry i hi with ⟨hbit, hfd, hev⟩ | ⟨hbit, hev⟩
      · have hopen : p.Open i := h.open_iff.2 (h.rfds i hbit).2.2
        simp [Reports, hfd, hev, hbit, hopen, h0]
      · simp [Reports, hev, hbit]
    · have hbit : s.watch.rfds i = false := by
        refine Bool.eq_false_iff.2 fun hbit => ?_
        have := (h.rfds i hbit).2.1
        omega
      have hlt : i < tableSize := by
        have hle := h.le
        rcases hi with heq | ⟨-, hlt⟩
        · have hsock : i = s.sockfd := heq
          omega
        · exact hlt
      refine (Poll.isReady_poll_of_gt (h.mxfd ▸ hgt)).trans ((h.fresh i hgt hlt).trans ?_)
      simp [Select.watcher, State.waited, Select.select, Select.fdIsset, hbit]

/-- A step that leaves what is watched alone. -/
theorem Agree.touch (h : Agree s p) (i j : Int) : Agree (s.touch i) (p.touch j) := { h with }

theorem Agree.joined (h : Agree s p) (hlt : s.sockfd < fd) (hsize : fd < tableSize) :
    Agree (s.joined Select.watcher fd) (p.joined Poll.watcher fd) where
  sockfd := h.sockfd
  mxfd := congrArg (max · fd) h.mxfd
  others := h.others
  fds := congrArg (FdTable.accept · fd) h.fds
  trace := congrArg (Call.accept fd :: ·) h.trace
  nonneg := h.nonneg
  le := le_trans h.le (Int.le_max_left _ _)
  bound := by
    have hmax : (s.joined Select.watcher fd).mxfd = max s.mxfd fd := rfl
    rw [hmax]
    rcases h.bound with hbound | hbound
    · exact .inr (by omega)
    · exact .inr (max_lt hbound hsize)
  entry i hi := by
    by_cases hne : i = fd
    · subst hne
      exact sameEntry_added
    · have hbit : (s.joined Select.watcher fd).watch.rfds i = s.watch.rfds i := fdSet_of_ne hne
      have hrow : (p.joined Poll.watcher fd).watch i = p.watch i := Poll.add_of_ne hne
      rw [hbit, hrow]
      exact h.entry i hi
  rfds i hbit := by
    have hmax : s.mxfd ≤ max s.mxfd fd ∧ fd ≤ max s.mxfd fd :=
      ⟨Int.le_max_left _ _, Int.le_max_right _ _⟩
    by_cases hne : i = fd
    · subst hne
      refine ⟨.inr ⟨le_trans h.nonneg hlt.le, hsize⟩, hmax.2, .inr (.inl ?_)⟩
      simp [State.joined]
    · have hold : s.watch.rfds i = true := (fdSet_of_ne hne).symm.trans hbit
      obtain ⟨hin, hle, hopen⟩ := h.rfds i hold
      refine ⟨hin, le_trans hle hmax.1, ?_⟩
      simpa only [State.Open, State.joined, FdTable.accept_owner_of_ne hne] using hopen
  fresh i hgt hsize' := by
    have hold : s.mxfd < i := lt_of_le_of_lt (Int.le_max_left _ _) hgt
    exact (congrArg hasPollin Poll.add_revents).trans (h.fresh i hold hsize')
  ready i hle hi := Poll.watcher.isReady_add.trans (h.ready i hle hi)

theorem Agree.left (h : Agree s p) (hlt : s.sockfd < fd) :
    Agree (s.left Select.watcher fd) (p.left Poll.watcher fd) where
  sockfd := h.sockfd
  mxfd := h.mxfd
  others := by simp only [State.left, h.others]
  fds := congrArg (FdTable.close · fd) h.fds
  trace := by simp only [State.left, h.fds, h.trace]
  nonneg := h.nonneg
  le := h.le
  bound := h.bound
  entry i hi := by
    by_cases hne : i = fd
    · subst hne
      exact sameEntry_forgotten
    · have hbit : (s.left Select.watcher fd).watch.rfds i = s.watch.rfds i := fdClr_of_ne hne
      have hrow : (p.left Poll.watcher fd).watch i = p.watch i := Poll.forget_of_ne hne
      rw [hbit, hrow]
      exact h.entry i hi
  rfds i hbit := by
    have hne : i ≠ fd := by
      intro heq
      subst heq
      exact absurd (fdClr_self.symm.trans hbit) Bool.false_ne_true
    have hold : s.watch.rfds i = true := (fdClr_of_ne hne).symm.trans hbit
    obtain ⟨hin, hle, hopen⟩ := h.rfds i hold
    refine ⟨hin, hle, ?_⟩
    simpa only [State.Open, State.left, FdTable.close_owner_of_ne hne,
      Function.update_of_ne hne] using hopen
  fresh i hgt hsize := (congrArg hasPollin Poll.forget_revents).trans (h.fresh i hgt hsize)
  ready i hle hi := Poll.watcher.isReady_forget.trans (h.ready i hle hi)

theorem Agree.answered {res : Option (List Byte)} {buf : Cells Byte} {len : Nat} {ok : Bool}
    (h : Agree s p) : Agree (s.answered fd res buf len ok) (p.answered fd res buf len ok) :=
  { h with trace := by simp only [State.answered, h.fds, h.trace] }

/-- The two programs take the same branch. -/
theorem accepting_rel (h : Agree s p)
    (hok : Select.watcher.isReady s.watch s.sockfd = true →
      ∃ fd ∈ env.accepted, s.sockfd < fd ∧ fd < tableSize) :
    Option.Rel Agree (Select.watcher.accepting env s) (Poll.watcher.accepting env p) := by
  have hready := h.ready s.sockfd (Int.le_refl _) (.inl rfl)
  rw [accepting_eq, accepting_eq, h.sockfd, hready]
  split_ifs with hlisten
  · obtain ⟨fd, hfd, hlt, hsize⟩ := hok hlisten
    rw [Option.mem_def] at hfd
    simp only [hfd, h.open_iff]
    split_ifs with hfree
    · exact .some (h.joined hlt hsize)
    · exact .none
  · exact .some (h.touch _ _)

theorem serve_rel (h : Agree s p) (hlt : s.sockfd < fd) (hle : fd ≤ s.mxfd) :
    Option.Rel (fun t q => Agree t q ∧ Frame Select.watcher s t)
      (Select.watcher.serve env fd s) (Poll.watcher.serve env fd p) := by
  have hready := h.ready fd hlt.le (h.inTable_of_le hlt hle)
  rw [serve_eq, serve_eq, hready]
  split_ifs with hset
  · cases hres : env.received fd with
    | none => exact .some ⟨h.answered, rfl, rfl, fun _ => rfl⟩
    | some bytes =>
      simp only [h.open_iff]
      split_ifs with hlen hnil
      · exact .some ⟨h.left hlt, rfl, rfl, fun _ => rfl⟩
      · exact .some ⟨h.answered, rfl, rfl, fun _ => rfl⟩
      · exact .none
  · exact .some ⟨h.touch _ _, rfl, rfl, fun _ => rfl⟩

/-- `Succeeds` asks the same of the environment of both. -/
theorem succeeds_iff (h : Matches s p) :
    Succeeds Poll.watcher p env ↔ Succeeds Select.watcher s env := by
  refine and_congr_right fun hsome => ?_
  obtain ⟨ready, hready⟩ := Option.isSome_iff_exists.1 hsome
  have hagree : Agree (s.waited Select.watcher (some ready)) (p.waited Poll.watcher (some ready)) :=
    h.waited
  have hlisten : Poll.watcher.isReady (Poll.watcher.wait p (some ready)) s.sockfd =
      Select.watcher.isReady (Select.watcher.wait s (some ready)) s.sockfd :=
    hagree.ready s.sockfd (Int.le_refl _) (.inl rfl)
  rw [hready, h.sockfd, hlisten]

/-- **A round of both.** -/
theorem main_rel (h : Matches s p) (hok : Succeeds Select.watcher s env) :
    Option.Rel Matches (Select.main s env) (Poll.main p env) := by
  obtain ⟨ready, hready⟩ := Option.isSome_iff_exists.1 hok.1
  have hwait : Agree (s.waited Select.watcher env.ready) (p.waited Poll.watcher env.ready) := by
    rw [hready]
    exact h.waited
  refine rel_bind (accepting_rel hwait hok.2) fun {u v} hagree => ?_
  rw [hagree.sockfd, hagree.mxfd]
  have hle : u.sockfd + 1 ≤ u.mxfd + 1 := by
    have := hagree.le
    omega
  have hrule := @forInt_rel _ _ (u.sockfd + 1) (u.mxfd + 1) u v (Select.watcher.serve env)
    (Poll.watcher.serve env) (fun _ t q => Agree t q ∧ Frame Select.watcher u t) hle
    ⟨hagree, rfl, rfl, fun _ => rfl⟩
  refine rel_mono (fun hrel => hrel.1.toMatches) (hrule fun {i t q} hlo hhi hrel => ?_)
  obtain ⟨hagree', hframe⟩ := hrel
  have hserve := @serve_rel t q env i hagree' (by have := hframe.sockfd; omega)
    (by have := hframe.mxfd; omega)
  exact rel_mono (fun hrel => ⟨hrel.1, hframe.trans hrel.2⟩) hserve

/-! ## Runs -/

variable {sockfd : Int} {others : Int → Bool} {rset : Select.FdSet} {fds : Fds} {s₀ : State Sets}
  {p₀ : State Fds}

theorem matches_init (hs : Select.init sockfd others rset = some s₀)
    (hp : Poll.init sockfd others fds = some p₀)
    (hzero : ∀ i : Int, 0 ≤ i → i < tableSize → fds i = ⟨0, 0, 0⟩) : Matches s₀ p₀ := by
  rw [Select.init] at hs
  rw [Poll.init] at hp
  split_ifs at hs hp with h0
  cases hs
  cases hp
  refine ⟨⟨rfl, rfl, rfl, rfl, rfl⟩, h0, Int.le_refl _, .inl rfl, fun i hi => ?_, fun i hi => ?_,
    fun i hgt hsize => ?_⟩
  · by_cases heq : i = sockfd
    · subst heq
      exact sameEntry_added
    · obtain ⟨hlo, hhi⟩ := hi.resolve_left heq
      refine .inr ⟨fdSet_of_ne heq, ?_⟩
      exact congrArg PollFd.events ((Poll.add_of_ne heq).trans (hzero i hlo hhi))
  · have heq : i = sockfd := by
      by_contra hne
      exact absurd ((fdSet_of_ne hne).symm.trans hi) Bool.false_ne_true
    exact ⟨.inl heq, heq.le, .inl heq⟩
  · have hlt : sockfd < i := hgt
    have hentry : Poll.add fds sockfd i = ⟨0, 0, 0⟩ :=
      (Poll.add_of_ne hlt.ne').trans (hzero i (by omega) hsize)
    exact congrArg (fun entry => hasPollin entry.revents) hentry

/-- What is seen of the two programs: the same calls, the same `mxfd`, and the same descriptors
watched. -/
structure SameServer (s : State Sets) (p : State Fds) : Prop where
  trace : s.trace = p.trace
  mxfd : s.mxfd = p.mxfd
  inTable : ∀ i, s.watch.rfds i = true → InTable s.sockfd i
  rfds : ∀ i, InTable s.sockfd i →
    (s.watch.rfds i = true ↔ (p.watch i).fd = i ∧ (p.watch i).events = pollin)

theorem Matches.sameServer (h : Matches s p) : SameServer s p where
  trace := h.trace.symm
  mxfd := h.mxfd.symm
  inTable i hi := (h.rfds i hi).1
  rfds i hi := by
    rcases h.entry i hi with ⟨hbit, hfd, hev⟩ | ⟨hbit, hev⟩
    · exact iff_of_true hbit ⟨hfd, hev⟩
    · refine iff_of_false (Bool.eq_false_iff.1 hbit) fun hyp => ?_
      exact absurd (hev.symm.trans hyp.2) (by decide)

/-- **The same server.** With the table zeroed, every run of the select server is one of the
poll server in the same environment, and the other way around, with the same system calls, the
same `mxfd` and the same watched descriptors after every number of rounds. -/
theorem same_server (hs : Select.init sockfd others rset = some s₀)
    (hp : Poll.init sockfd others fds = some p₀)
    (hzero : ∀ i : Int, 0 ≤ i → i < tableSize → fds i = ⟨0, 0, 0⟩) :
    (∀ envs s, Run Select.main (Succeeds Select.watcher) s₀ envs s →
      ∃ p, Run Poll.main (Succeeds Poll.watcher) p₀ envs p ∧ SameServer s p) ∧
    ∀ envs p, Run Poll.main (Succeeds Poll.watcher) p₀ envs p →
      ∃ s, Run Select.main (Succeeds Select.watcher) s₀ envs s ∧ SameServer s p := by
  have h₀ := matches_init hs hp hzero
  refine ⟨?_, ?_⟩
  · intro envs s h
    obtain ⟨p, hrun, hrel⟩ := h.simulates (R := Matches) h₀ fun {s p t env} hrel hok hstep => by
      have hboth := main_rel hrel hok
      rw [hstep] at hboth
      obtain ⟨q, hq, hrel'⟩ := rel_some hboth
      exact ⟨q, (succeeds_iff hrel).2 hok, hq, hrel'⟩
    exact ⟨p, hrun, hrel.sameServer⟩
  · intro envs p h
    obtain ⟨s, hrun, hrel⟩ := h.simulates (R := fun p s => Matches s p) h₀
      fun {p s q env} hrel hok hstep => by
        have hok' := (succeeds_iff hrel).1 hok
        have hboth := rel_swap (main_rel hrel hok')
        rw [hstep] at hboth
        obtain ⟨t, ht, hrel'⟩ := rel_some hboth
        exact ⟨t, hok', ht, hrel'⟩
    exact ⟨s, hrun, hrel.sameServer⟩

theorem same_server_reusing :
    ∃ s₀ p₀ s p, Select.init 3 stdio (fun _ => true) = some s₀ ∧
      Poll.init 3 stdio Poll.zeroed = some p₀ ∧
      Run Select.main (Succeeds Select.watcher) s₀ reusing.reverse s ∧
      s.fds.owner 4 = some 2 ∧
      Run Poll.main (Succeeds Poll.watcher) p₀ reusing.reverse p ∧ SameServer s p := by
  obtain ⟨s₀, s, hs, hrun, howner⟩ := Select.reusing_run
  obtain ⟨p₀, -, hp, -⟩ := Poll.reusing_run
  obtain ⟨p, hrun', hsame⟩ := (same_server hs hp fun _ _ _ => rfl).1 _ _ hrun
  exact ⟨s₀, p₀, s, p, hs, hp, hrun, howner, hrun', hsame⟩

end NetDesign.SelectPoll
