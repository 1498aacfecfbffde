import NetDesign.Service
import NetDesign.SelectPoll.Session
import NetDesign.SelectPoll.Watched
import NetDesign.SelectPoll.Equivalence
import Mathlib.Data.Int.Interval

/-!
# The readiness loops refine the echo service

A client of `select.cc` or `poll.cc` has a descriptor between the listener and the end of the
tables, so there is room for as many clients as there are such descriptors. A round answers what
it receives, so between rounds no client is owed anything: the loops take the steps of the
service in which a client goes on to the next quiet stage at once.

* `refines_step` — what a round does, the service may do.
* `Refines.offers_connected`, `offers_exchanged`, `offers_left` — what the service may do, some
  round does.
* `echo_service` — so either server implements the service.
-/

namespace NetDesign.SelectPoll

open Select

/-- The descriptors that a client may have. -/
def seats (sockfd : Int) (others : Int → Bool) : Set Int :=
  {fd | sockfd < fd ∧ fd < tableSize ∧ others fd = false}

/-- Answers in full, requests that fit `buffer`, a descriptor for every client, and no `recv`
that fails. -/
noncomputable def rules (table : Set Int) : Rules Byte :=
  .chunked Session.FullEcho bufferLength table.encard False

/-- What is seen of the clients. -/
def view {ω : Type*} (s : State ω) : Service Byte := ⟨s.fds.count, connections s.trace⟩

section View

variable {ω : Type*} {w : Watcher ω} {s : State ω} {fd : Int} {c : Nat} {bytes : List Byte}
  {ok : Bool} {logs : Nat → List (Event Byte)} {e e' : Event Byte}

theorem record_record :
    record (record logs (some (c, e))) (some (c, e')) =
      Function.update logs c ([e', e] ++ logs c) := by
  simp [record]

theorem view_joined (hfds : descriptors s.trace = s.fds) (h0 : 0 ≤ fd) :
    view (s.joined w fd) = (view s).connected := by
  simp only [view, Service.connected, State.joined, connections, Call.event, if_pos h0, hfds,
    FdTable.accept]

theorem view_left (hfds : descriptors s.trace = s.fds) (hown : s.fds.owner fd = some c) :
    view (s.left w fd) = (view s).spoke c [.closed, .received []] := by
  have hfds' : descriptors (.recv fd (some c) (some []) :: s.trace) = s.fds := hfds
  simp only [view, Service.spoke, State.left, connections, Call.event, hfds', hown,
    Option.map_some, record_record]
  rfl

theorem view_answered {stack : Cells Byte} (hown : s.fds.owner fd = some c)
    (hlen : bytes.length ≤ bufferLength) :
    view (s.answered fd (some bytes) ((stack.fill 0 bufferLength 0).write 0 bytes)
        (sizeT bytes.length) ok) =
      (view s).spoke c [if ok = true then .sent bytes else .unsent, .received bytes] := by
  simp only [view, Service.spoke, State.answered, connections, Call.event, hown,
    Option.map_some, record_record, read_echo hlen]

theorem Talks.mem_opened {fds : FdTable} (h : Talks fds logs) :
    c ∈ (⟨fds.count, logs⟩ : Service Byte).opened ↔ ∃ fd, fds.owner fd = some c := by
  have hstage (hc : c < fds.count) : ∃ p, Session Session.FullEcho (logs c) p ∧
      (p = .closed ↔ ∀ fd, fds.owner fd ≠ some c) := by
    by_cases hown : ∃ fd, fds.owner fd = some c
    · obtain ⟨fd, hfd⟩ := hown
      exact ⟨.idle, h.idle fd c hfd, iff_of_false (by decide) fun hgone => hgone fd hfd⟩
    · have hgone : ∀ fd, fds.owner fd ≠ some c := fun fd hfd => hown ⟨fd, hfd⟩
      exact ⟨.closed, h.closed c hc hgone, iff_of_true rfl hgone⟩
  exact Service.mem_opened_iff_owner h.numbered hstage

end View

/-! ## Descriptors -/

/-- The clients have descriptors in `table`, and these are watched. -/
structure Keeps (table : Set Int) (s : State Sets) : Prop extends Watches s where
  seated : ∀ fd, s.fds.owner fd ≠ none → fd ∈ table
  mem : ∀ fd, fd ∈ table ↔ s.sockfd < fd ∧ fd < tableSize ∧ s.others fd = false

variable {table : Set Int} {s t u : State Sets} {v : Service Byte} {env : Env} {fd : Int}
  {c : Nat} {chunk : List Byte} {e : Event Byte} {ok : Bool}

namespace Keeps

theorem waited (hs : Keeps table s) (ready : Option (Int → Bool)) :
    Keeps table (s.waited watcher ready) :=
  { hs.toWatches.waited ready with seated := hs.seated, mem := hs.mem }

theorem mem_of_not_open (hs : Keeps table s) (hlt : s.sockfd < fd) (hsize : fd < tableSize)
    (hfree : ¬ s.Open fd) : fd ∈ table := by
  refine (hs.mem fd).2 ⟨hlt, hsize, ?_⟩
  by_contra hother
  exact hfree (.inr (.inr (Bool.eq_true_of_not_eq_false hother)))

/-- An open descriptor that a client may have is that of a client. -/
theorem exists_owner (hs : Keeps table s) (hmem : fd ∈ table) (hopen : s.Open fd) :
    ∃ c, s.fds.owner fd = some c := by
  obtain ⟨hlt, -, hother⟩ := (hs.mem fd).1 hmem
  rcases hopen with heq | hown | htrue
  · exact absurd heq hlt.ne'
  · exact Option.ne_none_iff_exists'.1 hown
  · rw [hother] at htrue
    cases htrue

theorem joined (hs : Keeps table s) (hlt : s.sockfd < fd) (hsize : fd < tableSize)
    (hfree : ¬ s.Open fd) : Keeps table (s.joined watcher fd) where
  toWatches := hs.toWatches.joined hlt
  seated x hx := by
    by_cases hxf : x = fd
    · subst hxf
      exact hs.mem_of_not_open hlt hsize hfree
    · simp only [State.joined, FdTable.accept_owner_of_ne hxf] at hx
      exact hs.seated x hx
  mem := hs.mem

theorem left (hs : Keeps table s) (hmem : fd ∈ table) : Keeps table (s.left watcher fd) where
  toWatches := hs.toWatches.left ((hs.mem fd).1 hmem).1
  seated x hx := hs.seated x (FdTable.close_owner_ne_none hx).2
  mem x := by
    by_cases hx : x = fd
    · subst hx
      have hrange := (hs.mem x).1 hmem
      simp [State.left, hmem, hrange.1, hrange.2.1]
    · simp only [State.left, Function.update_of_ne hx]
      exact hs.mem x

/-- What is reported ready was watched. -/
theorem mem_of_ready (hs : Keeps table s) (hok : Succeeds watcher s env) (hlt : s.sockfd < fd)
    (hready : watcher.isReady (watcher.wait s env.ready) fd = true) : fd ∈ table := by
  obtain ⟨ready, hsome⟩ := Option.isSome_iff_exists.1 hok.1
  rw [hsome] at hready
  have hwatched : s.watch.rfds fd = true := ((Bool.and_eq_true _ _).mp hready).1
  rcases (hs.watched fd).1 hwatched with heq | hown
  · exact absurd heq hlt.ne'
  · exact hs.seated fd hown

end Keeps

/-! ## What a round does, the service may do -/

/-- Unless a `recv` failed, the service may come to what is seen. -/
structure Refines (table : Set Int) (s : State Sets) : Prop
    extends Keeps table s, Conversing s where
  stepwise : (∀ fd k, .recv fd k none ∉ s.trace) →
    Service.Stepwise (rules table) Service.Quiet (view s)

namespace Refines

theorem waited (hs : Refines table s) (ready : Option (Int → Bool)) :
    Refines table (s.waited watcher ready) :=
  { hs.toKeeps.waited ready, hs with }

/-- There is room as long as an accept may return another descriptor. -/
theorem room_iff (hs : Refines table s) (hno : ∀ fd k, .recv fd k none ∉ s.trace) :
    ((view s).opened.card : ℕ∞) < (rules table).capacity ↔
      ∃ fd ∈ table, s.fds.owner fd = none :=
  Service.lt_encard_iff (hs.talks hno).numbered (fun _ => (hs.talks hno).mem_opened)
    hs.seated

/-- The session of an open connection is idle. -/
theorem admits (hs : Refines table s) (hno : ∀ fd k, .recv fd k none ∉ s.trace)
    (hown : s.fds.owner fd = some c) :
    c < s.fds.count ∧ (rules table).Admits ((view s).logs c) .idle := by
  have hlt := (hs.talks hno).numbered.lt hown
  have hidle := (hs.talks hno).idle fd c hown
  obtain ⟨p, hadmits⟩ := (hs.stepwise hno).reachable.admits c hlt
  exact ⟨hlt, hadmits.session.unique hidle ▸ hadmits⟩

theorem accepts (hs : Refines table s) (hok : Succeeds watcher s env)
    (h : Accepts watcher env (s.waited watcher env.ready) u) : Refines table u := by
  have hw : Refines table (s.waited watcher env.ready) := hs.waited env.ready
  have hu : Conversing u := hw.toConversing.accepts h
  cases h with
  | idle => exact { hw with }
  | @joined fd hready haccepted h0 hfree =>
    obtain ⟨fd', hfd', hlt, hsize⟩ := hok.2 hready
    obtain rfl : fd = fd' := Option.some.inj (haccepted.symm.trans hfd')
    refine { hw.toKeeps.joined hlt hsize hfree, hu with stepwise := fun hno => ?_ }
    have hno' : ∀ x k, .recv x k none ∉ s.trace := fun x k hmem =>
      hno x k (List.mem_cons_of_mem _ hmem)
    have hnone : s.fds.owner fd = none := by
      by_contra hown
      exact hfree (.inr (.inl hown))
    rw [view_joined hw.fds h0]
    exact (hw.stepwise hno').connected
      ((hw.room_iff hno').2 ⟨fd, hw.mem_of_not_open hlt hsize hfree, hnone⟩)
  | refused hready hnone => exact absurd hnone (hok.accepted_ne_none hready)

theorem serves (hs : Refines table s) (hmem : watcher.isReady s.watch fd = true → fd ∈ table)
    (h : Serves watcher env fd s t) : Refines table t := by
  have ht : Conversing t := hs.toConversing.serves h
  cases h with
  | idle => exact { hs with }
  | left hready hopen =>
    refine { hs.toKeeps.left (hmem hready), ht with stepwise := fun hno => ?_ }
    have hno' : ∀ x k, .recv x k none ∉ s.trace := fun x k hin =>
      hno x k (by simp [State.left, hin])
    obtain ⟨c, hown⟩ := hs.exists_owner (hmem hready) hopen
    obtain ⟨hc, hidle⟩ := hs.admits hno' hown
    rw [view_left hs.fds hown]
    refine (hs.stepwise hno').spoke hc hidle.ended.closed (.inr rfl) fun e he => ?_
    rw [List.mem_singleton.1 he]
    exact Service.not_quiet_received
  | @echoed bytes hready hopen _ hne hlen =>
    refine { hs.toKeeps, ht with stepwise := fun hno => ?_ }
    have hno' : ∀ x k, .recv x k none ∉ s.trace := fun x k hin =>
      hno x k (by simp [State.answered, hin])
    obtain ⟨c, hown⟩ := hs.exists_owner (hmem hready) hopen
    obtain ⟨hc, hidle⟩ := hs.admits hno' hown
    have howing := hidle.received hne (List.forall_mem_cons.2 ⟨hlen, hidle.fits⟩)
    have hanswer : (rules table).Admits ((if env.sent fd = true then .sent bytes else .unsent) ::
        .received bytes :: (view s).logs c) .idle := by
      split_ifs
      · refine howing.sent ?_
        rw [requests_received hne]
        exact rfl
      · exact howing.unsent
    rw [view_answered hown hlen]
    refine (hs.stepwise hno').spoke hc hanswer (.inl rfl) fun e he => ?_
    rw [List.mem_singleton.1 he]
    exact Service.not_quiet_received
  | failed =>
    refine { hs.toKeeps, ht with stepwise := fun hno => ?_ }
    exact absurd (List.mem_cons_of_mem _ List.mem_cons_self) (hno fd (s.fds.owner fd))

end Refines

/-- **A round.** -/
theorem refines_step (hs : Refines table s) (hok : Succeeds watcher s env)
    (h : main s env = some t) : Refines table t := by
  obtain ⟨u, haccepts, hscan⟩ := main_cases h
  obtain ⟨_, hjoin⟩ := haccepts.joins
  have hsock : u.sockfd = s.sockfd := hjoin.sockfd
  have hu : Refines table u := hs.accepts hok haccepts
  have hrule := @scan_invariant _ watcher env t u (fun _ s => Refines table s) hu.le hu
  refine (hrule (fun {fd v v'} hlt _ hframe hv hserves => ?_) hscan).2
  refine hv.serves (fun hready => ?_) hserves
  rw [hframe.isReady, hjoin.isReady] at hready
  exact hs.mem_of_ready hok (hsock ▸ hlt) hready

/-! ## What the service may do, a round does -/

/-- `select` succeeds, a descriptor is left for a client that comes, and no `recv` fails. -/
def Hears (s : State Sets) (env : Env) : Prop :=
  Succeeds watcher s env ∧ ∀ fd, env.received fd ≠ none

/-- A round in which `fd` alone is ready. The client says `chunk`, and its answer is sent or
not. -/
def saying (fd : Int) (chunk : List Byte) (ok : Bool) : Env where
  ready := some fun x => decide (x = fd)
  accepted := none
  received _ := some chunk
  sent _ := ok
  stack _ := 0

/-- A round in which a client connects, as `fd`. -/
def connecting (sockfd fd : Int) : Env :=
  { saying sockfd [] true with accepted := some fd }

theorem isReady_saying {i : Int} (chunk : List Byte) (ok : Bool) (hi : i ≠ fd) :
    watcher.isReady (watcher.wait s (saying fd chunk ok).ready) i = false := by
  simp [watcher, select, saying, fdIsset, hi]

theorem isReady_saying_self (chunk : List Byte) (ok : Bool) (hwatched : s.watch.rfds fd = true) :
    watcher.isReady (watcher.wait s (saying fd chunk ok).ready) fd = true := by
  simp [watcher, select, saying, fdIsset, hwatched]

/-- A round of `s` comes to what is seen as `v`. -/
def Offers (s : State Sets) (v : Service Byte) : Prop :=
  ∃ env t, Hears s env ∧ main s env = some t ∧ view t = v

namespace Refines

/-- Only the client of `fd` is ready. -/
theorem offers_saying (hs : Refines table s) (hown : s.fds.owner fd = some c)
    (chunk : List Byte) (ok : Bool)
    (hserve : ∀ u : State Sets, u.fds = s.fds → u.trace = s.trace → u.Open fd →
      watcher.isReady u.watch fd = true →
      ∃ t, watcher.serve (saying fd chunk ok) fd u = some t ∧ view t = v) :
    Offers s v := by
  have hne : s.fds.owner fd ≠ none := hown ▸ Option.some_ne_none c
  obtain ⟨hlt, hle⟩ := hs.client fd hne
  have hlisten := isReady_saying (s := s) chunk ok hlt.ne
  let u : State Sets := (s.waited watcher (saying fd chunk ok).ready).touch s.sockfd
  have haccept : watcher.accepting (saying fd chunk ok)
      (s.waited watcher (saying fd chunk ok).ready) = some u :=
    accepting_eq.trans (if_neg (Bool.eq_false_iff.1 hlisten))
  obtain ⟨t, hscan, ht⟩ := @scan_lone _ watcher (saying fd chunk ok) u fd (fun t => view t = v)
    (fun _ h => h) hlt hle (fun i _ hi => isReady_saying chunk ok hi) fun l =>
      hserve _ rfl rfl (.inr (.inl hne)) (isReady_saying_self chunk ok
        ((hs.watched fd).2 (.inr hne)))
  refine ⟨saying fd chunk ok, t, ⟨⟨rfl, fun hready => ?_⟩, fun _ hnone => by cases hnone⟩,
    ?_, ht⟩
  · rw [hlisten] at hready
    cases hready
  · exact (congrArg (Option.bind · _) haccept).trans hscan

/-- An idle client has a descriptor. -/
theorem exists_fd (hs : Refines table s) (hno : ∀ fd k, .recv fd k none ∉ s.trace)
    (hc : c < s.fds.count) (hidle : Session Session.FullEcho ((view s).logs c) .idle) :
    ∃ fd, s.fds.owner fd = some c :=
  (hs.talks hno).mem_opened.1 (Service.mem_opened.2 ⟨hc, Bool.eq_false_iff.2 fun hclosed => by
    cases hidle.isClosed_iff.1 hclosed⟩)

/-- A client says something, and its answer is sent or not. -/
theorem offers_exchanged (hs : Refines table s) (hown : s.fds.owner fd = some c)
    (hne : chunk ≠ []) (hlen : chunk.length ≤ bufferLength) (ok : Bool) :
    Offers s ((view s).spoke c [if ok = true then .sent chunk else .unsent, .received chunk]) := by
  refine hs.offers_saying hown chunk ok fun u hfds htrace hopen hready => ?_
  have hsame : view u = view s := by rw [view, view, hfds, htrace]
  rw [← hfds] at hown
  exact ⟨_, serve_echoed hready hopen rfl hne hlen, hsame ▸ view_answered hown hlen⟩

/-- A client goes. -/
theorem offers_left (hs : Refines table s) (hown : s.fds.owner fd = some c) :
    Offers s ((view s).spoke c [.closed, .received []]) := by
  refine hs.offers_saying hown [] true fun u hfds htrace hopen hready => ?_
  have hsame : view u = view s := by rw [view, view, hfds, htrace]
  have hdesc : descriptors u.trace = u.fds := by rw [hfds, htrace, hs.fds]
  rw [← hfds] at hown
  exact ⟨_, serve_left hready hopen rfl, hsame ▸ view_left hdesc hown⟩

/-- A client comes. -/
theorem offers_connected (hs : Refines table s) (hmem : fd ∈ table)
    (hfree : s.fds.owner fd = none) : Offers s (view s).connected := by
  obtain ⟨hlt, hsize, -⟩ := (hs.mem fd).1 hmem
  have hclosed : ¬ s.Open fd := fun hopen => by
    obtain ⟨c, hown⟩ := hs.exists_owner hmem hopen
    rw [hfree] at hown
    cases hown
  have h0 : 0 ≤ fd := hs.nonneg.trans hlt.le
  let env := connecting s.sockfd fd
  let u : State Sets := (s.waited watcher env.ready).joined watcher fd
  have hu : view u = (view s).connected := view_joined (hs.waited env.ready).fds h0
  have haccept : watcher.accepting env (s.waited watcher env.ready) = some u :=
    accepting_eq.trans ((if_pos (isReady_saying_self [] true ((hs.watched _).2 (.inl rfl)))).trans
      (if_pos ⟨h0, hclosed⟩))
  have hidle : ∀ i, s.sockfd < i → watcher.isReady u.watch i = false := fun i hi =>
    watcher.isReady_add.trans (isReady_saying [] true hi.ne')
  obtain ⟨t, hscan, ht⟩ := @scan_lone _ watcher env u fd (fun t => view t = (view s).connected)
    (fun _ h => h) hlt (Int.le_max_right _ _) (fun i hi _ => hidle i hi) fun l =>
      ⟨_, serve_idle (hidle fd hlt), hu⟩
  refine ⟨env, t, ⟨⟨rfl, fun _ => ⟨fd, rfl, hlt, hsize⟩⟩, fun _ hnone => by cases hnone⟩, ?_, ht⟩
  exact (congrArg (Option.bind · _) haccept).trans hscan

end Refines

/-! ## Runs -/

/-- The calls of a round succeed, but for `send`. -/
def Serving {ω : Type*} (w : Watcher ω) (s : State ω) (env : Env) : Prop :=
  Succeeds w s env ∧ RecvsSucceed w s env

theorem Hears.serving (h : Hears s env) : Serving watcher s env :=
  ⟨h.1, fun fd _ _ _ => h.2 fd⟩

variable {sockfd : Int} {others : Int → Bool} {rset : FdSet} {fds : Poll.Fds} {s₀ : State Sets}
  {p₀ p : State Poll.Fds} {envs : List Env}

theorem refines_init (hinit : init sockfd others rset = some s₀) :
    Refines (seats sockfd others) s₀ := by
  rw [init] at hinit
  split_ifs at hinit with h0
  cases hinit
  exact {
    toWatches := .start h0 rfl rfl rfl
    seated := fun fd hfd => absurd rfl hfd
    mem := fun fd => Iff.rfl
    fds := rfl
    talks := fun _ => .initial
    stepwise := fun _ => .start }

theorem refines_run (hinit : init sockfd others rset = some s₀)
    (h : Run main (Succeeds watcher) s₀ envs s) : Refines (seats sockfd others) s :=
  h.invariant (refines_init hinit) fun hs hok hstep => refines_step hs hok hstep

/-- **Whatever the service may come to is come to.** -/
theorem exists_run (hinit : init sockfd others rset = some s₀)
    (h : Service.Stepwise (rules (seats sockfd others)) Service.Quiet v) :
    ∃ envs s, Run main Hears s₀ envs s ∧ view s = v := by
  obtain ⟨hle, htrace⟩ := init_started hinit
  have hoffers : ∀ {v v' : Service Byte}, (∃ envs s, Run main Hears s₀ envs s ∧ view s = v) →
      (∀ {s}, Refines (seats sockfd others) s →
        (∀ fd k, .recv fd k none ∉ s.trace) → view s = v → Offers s v') →
      ∃ envs s, Run main Hears s₀ envs s ∧ view s = v' := by
    rintro v v' ⟨envs, s, hrun, hs⟩ hoffer
    have hrefines := refines_run hinit (hrun.mono fun _ _ hok => hok.1)
    have hno := Watcher.no_failed hle htrace (hrun.mono fun _ _ hok => hok.serving.2)
    obtain ⟨env, t, hok, hstep, ht⟩ := hoffer hrefines hno hs
    exact ⟨env :: envs, t, .cons hrun hok hstep, ht⟩
  refine h.exchanges (P := fun v => ∃ envs s, Run main Hears s₀ envs s ∧ view s = v)
    ⟨[], s₀, .nil, ?_⟩ ?_ ?_ ?_
  · rw [init] at hinit
    split_ifs at hinit
    cases hinit
    rfl
  · intro v hv hroom
    refine hoffers hv fun hs hno heq => ?_
    obtain ⟨fd, hmem, hfree⟩ := (hs.room_iff hno).1 (heq ▸ hroom)
    exact heq ▸ hs.offers_connected hmem hfree
  · intro v c chunk e hv hc hidle hne hadmits
    refine hoffers hv fun hs hno heq => ?_
    subst heq
    obtain ⟨fd, hown⟩ := hs.exists_fd hno hc hidle
    have hlen : chunk.length ≤ bufferLength :=
      hadmits.fits chunk (mem_requests.2 ⟨by simp, hne⟩)
    cases hadmits.session with
    | @sent _ bytes _ hbytes =>
      have hecho : bytes = Session.newest (requests (.received chunk :: (view _).logs c)) := hbytes
      rw [requests_received hne] at hecho
      subst hecho
      exact hs.offers_exchanged hown hne hlen true
    | unsent => exact hs.offers_exchanged hown hne hlen false
  · intro v c hv hc hidle
    refine hoffers hv fun hs hno heq => ?_
    subst heq
    obtain ⟨fd, hown⟩ := hs.exists_fd hno hc hidle
    exact hs.offers_left hown

/-- poll.cc has the same run. -/
theorem Hears.run_poll (h₀ : Matches s₀ p₀) (h : Run main Hears s₀ envs s) :
    ∃ p, Run Poll.main (Serving Poll.watcher) p₀ envs p ∧ Matches s p :=
  h.simulates h₀ fun {s p t env} hrel hok hstep => by
    have hboth := main_rel hrel hok.1
    rw [hstep] at hboth
    obtain ⟨q, hq, hrel'⟩ := rel_some hboth
    exact ⟨q, ⟨(succeeds_iff hrel).2 hok.1, fun fd _ _ _ => hok.2 fd⟩, hq, hrel'⟩

/-- So has select.cc. -/
theorem Matches.run_select (h₀ : Matches s₀ p₀)
    (h : Run Poll.main (Serving Poll.watcher) p₀ envs p) :
    ∃ s, Run main (Succeeds watcher) s₀ envs s ∧ Matches s p := by
  refine h.simulates (R := fun p s => Matches s p) h₀ fun {p s q env} hrel hok hstep => ?_
  have hok' := (succeeds_iff hrel).1 hok.1
  have hboth := rel_swap (main_rel hrel hok')
  rw [hstep] at hboth
  obtain ⟨t, ht, hrel'⟩ := rel_some hboth
  exact ⟨t, hok', ht, hrel'⟩

theorem Matches.view_eq (h : Matches s p) : view p = view s := by
  rw [view, view, h.fds, h.trace]

/-- What is seen of either server is what is seen of the service. -/
abbrev ImplementsEcho {ω : Type*} (w : Watcher ω) (s₀ : State ω) (table : Set Int) : Prop :=
  Implements w.main (Serving w) s₀ (fun _ s => view s) (rules table) Service.Quiet

theorem select_implements (hs : init sockfd others rset = some s₀) :
    ImplementsEcho watcher s₀ (seats sockfd others) := by
  obtain ⟨hle, htrace⟩ := init_started hs
  refine .of_stepwise (.inl rfl) (.inr rfl) fun v => ⟨?_, fun h => ?_⟩
  · rintro ⟨envs, s, hrun, rfl⟩
    refine (refines_run hs (hrun.mono fun _ _ hok => hok.1)).stepwise ?_
    exact Watcher.no_failed hle htrace (hrun.mono fun _ _ hok => hok.2)
  · obtain ⟨envs, s, hrun, heq⟩ := exists_run hs h
    exact ⟨envs, s, hrun.mono fun _ _ hok => hok.serving, heq⟩

theorem poll_implements (hs : init sockfd others rset = some s₀)
    (hp : Poll.init sockfd others fds = some p₀)
    (hzero : ∀ i : Int, 0 ≤ i → i < tableSize → fds i = ⟨0, 0, 0⟩) :
    ImplementsEcho Poll.watcher p₀ (seats sockfd others) := by
  obtain ⟨hle, htrace⟩ := Poll.init_started hp
  have hmatches := matches_init hs hp hzero
  refine .of_stepwise (.inl rfl) (.inr rfl) fun v => ⟨?_, fun h => ?_⟩
  · rintro ⟨envs, p, hrun, rfl⟩
    obtain ⟨s, hrun', hrel⟩ := hmatches.run_select hrun
    have hno := Watcher.no_failed hle htrace (hrun.mono fun _ _ hok => hok.2)
    rw [hrel.trace] at hno
    show Service.Stepwise _ _ (view p)
    exact hrel.view_eq ▸ (refines_run hs hrun').stepwise hno
  · obtain ⟨envs, s, hrun, heq⟩ := exists_run hs h
    obtain ⟨p, hrun', hrel⟩ := Hears.run_poll hmatches hrun
    exact ⟨envs, p, hrun', hrel.view_eq.trans heq⟩

/-- **The echo service.** With the table of poll.cc zeroed, either server implements the echo
service, as long as its calls succeed, `send` apart, and a client has a descriptor within the
tables: what is seen of the clients between two rounds is what may happen to as many as there
are such descriptors above the listener, each in a session of its own with requests that fit the
buffer and answers in full, unless the `send` fails, when nothing is due to any of them. -/
theorem echo_service (hs : init sockfd others rset = some s₀)
    (hp : Poll.init sockfd others fds = some p₀)
    (hzero : ∀ i : Int, 0 ≤ i → i < tableSize → fds i = ⟨0, 0, 0⟩) :
    ImplementsEcho watcher s₀ (seats sockfd others) ∧
      ImplementsEcho Poll.watcher p₀ (seats sockfd others) :=
  ⟨select_implements hs, poll_implements hs hp hzero⟩

/-- After the standard streams and the listener, 1020 clients have room. -/
theorem capacity_stdio : (rules (seats 3 stdio)).capacity = 1020 := by
  have hall : seats 3 stdio = Finset.Ioo (3 : Int) tableSize := by
    ext fd
    have hstdio : 3 < fd → stdio fd = false := fun hlt =>
      decide_eq_false fun hstdio => absurd hstdio.2 (by omega)
    simp only [seats, Set.mem_ofPred_eq, Finset.coe_Ioo, Set.mem_Ioo]
    exact ⟨fun h => ⟨h.1, h.2.1⟩, fun h => ⟨h.1, h.2, hstdio h.1⟩⟩
  show (seats 3 stdio).encard = 1020
  rw [hall, Set.encard_coe_eq_coe_finsetCard, Int.card_Ioo]
  rfl

theorem echo_service_stdio :
    ∃ s₀ p₀, init 3 stdio (fun _ => true) = some s₀ ∧
      Poll.init 3 stdio Poll.zeroed = some p₀ ∧
      (rules (seats 3 stdio)).capacity = 1020 ∧
      ImplementsEcho watcher s₀ (seats 3 stdio) ∧
      ImplementsEcho Poll.watcher p₀ (seats 3 stdio) := by
  obtain ⟨s₀, hs⟩ : ∃ s₀, init 3 stdio (fun _ => true) = some s₀ := ⟨_, rfl⟩
  obtain ⟨p₀, hp⟩ : ∃ p₀, Poll.init 3 stdio Poll.zeroed = some p₀ := ⟨_, rfl⟩
  exact ⟨s₀, p₀, hs, hp, capacity_stdio, echo_service hs hp fun _ _ _ => rfl⟩

end NetDesign.SelectPoll
