import NetDesign.SelectPoll.Server

/-!
# A round of a readiness loop

* `accepting_eq`, `serve_eq` — the two halves of a round in terms of the table of descriptors,
  what is watched and the trace.
* `Accepts`, `Serves` — what they can do.
* `main_cases` — a round is a wait, one of the first and one of the second for every
  descriptor from `sockfd + 1` to `mxfd`.
* `Ranged` — the clients lie between the listener and `mxfd`.
* `scan_invariant`, `scan_exists` — the invariant and the progress rule for the second half.
* `main_invariant` — the invariant rule for a round.
* `main_recvd` — a round receives once from every descriptor that was reported ready.
-/

namespace NetDesign.SelectPoll

variable {ω : Type*}

namespace State

variable (w : Watcher ω) (s : State ω)

/-- What the call that waits leaves. -/
def waited (ready : Option (Int → Bool)) : State ω := { s with watch := w.wait s ready }

/-- `fd` is accepted and watched. -/
def joined (fd : Int) : State ω :=
  { s with
    watch := w.add s.watch fd
    mxfd := max s.mxfd fd
    fds := s.fds.accept fd
    touched := s.touched ++ [s.sockfd] ++ [fd]
    trace := .accept fd :: s.trace }

/-- The loop goes on with the result of an `accept` that failed. -/
def refused : State ω :=
  { s with
    watch := w.add s.watch (-1)
    mxfd := max s.mxfd (-1)
    touched := s.touched ++ [s.sockfd] ++ [-1]
    trace := .accept (-1) :: s.trace }

/-- `fd` is closed and forgotten. -/
def left (fd : Int) : State ω :=
  { s with
    watch := w.forget s.watch fd
    others := Function.update s.others fd false
    fds := s.fds.close fd
    touched := s.touched ++ [fd] ++ [fd]
    trace := .close fd :: .recv fd (s.fds.owner fd) (some []) :: s.trace }

/-- What was received from `fd` is answered. -/
def answered (fd : Int) (res : Option (List Byte)) (buf : Cells Byte) (len : Nat) (ok : Bool) :
    State ω :=
  { s with
    touched := s.touched ++ [fd]
    trace := .send fd (s.fds.owner fd) buf len ok :: .recv fd (s.fds.owner fd) res :: s.trace }

end State

/-! ## What a round can do -/

/-- The first half of a round. -/
inductive Accepts (w : Watcher ω) (env : Env) (s : State ω) : State ω → Prop
  | idle : w.isReady s.watch s.sockfd = false → Accepts w env s (s.touch s.sockfd)
  | joined {fd : Int} :
      w.isReady s.watch s.sockfd = true → env.accepted = some fd → 0 ≤ fd → ¬ s.Open fd →
      Accepts w env s (s.joined w fd)
  | refused :
      w.isReady s.watch s.sockfd = true → env.accepted = none → Accepts w env s (s.refused w)

/-- One pass of the second half. -/
inductive Serves (w : Watcher ω) (env : Env) (fd : Int) (s : State ω) : State ω → Prop
  | idle : w.isReady s.watch fd = false → Serves w env fd s (s.touch fd)
  | left :
      w.isReady s.watch fd = true → s.Open fd → env.received fd = some [] →
      Serves w env fd s (s.left w fd)
  | echoed {bytes : List Byte} :
      w.isReady s.watch fd = true → s.Open fd → env.received fd = some bytes → bytes ≠ [] →
      bytes.length ≤ bufferLength →
      Serves w env fd s
        (s.answered fd (some bytes) ((env.stack.fill 0 bufferLength 0).write 0 bytes)
          (sizeT bytes.length) (env.sent fd))
  | failed :
      w.isReady s.watch fd = true → env.received fd = none →
      Serves w env fd s
        (s.answered fd none (env.stack.fill 0 bufferLength 0) (sizeT (-1)) (env.sent fd))

variable {w : Watcher ω} {env : Env} {s t u : State ω} {fd : Int}

theorem accepting_eq : w.accepting env s =
    if w.isReady s.watch s.sockfd = true then
      match env.accepted with
      | some fd => if 0 ≤ fd ∧ ¬ s.Open fd then some (s.joined w fd) else none
      | none => some (s.refused w)
    else some (s.touch s.sockfd) := by
  simp only [Watcher.accepting]
  refine if_congr Iff.rfl ?_ rfl
  cases env.accepted with
  | none => rfl
  | some fd =>
    have hopen : (s.touch s.sockfd).Open fd ↔ s.Open fd := Iff.rfl
    simp only [State.accept, hopen]
    split_ifs <;> rfl

theorem serve_eq : w.serve env fd s =
    if w.isReady s.watch fd = true then
      match env.received fd with
      | some bytes =>
        if s.Open fd ∧ bytes.length ≤ bufferLength then
          if bytes = [] then some (s.left w fd)
          else
            some (s.answered fd (some bytes) ((env.stack.fill 0 bufferLength 0).write 0 bytes)
              (sizeT bytes.length) (env.sent fd))
        else none
      | none =>
        some (s.answered fd none (env.stack.fill 0 bufferLength 0) (sizeT (-1)) (env.sent fd))
    else some (s.touch fd) := by
  simp only [Watcher.serve]
  refine if_congr Iff.rfl ?_ rfl
  cases env.received fd with
  | none =>
    have hcount : (-1 : Int) ≠ 0 := by decide
    simp only [State.recv, Option.bind_eq_bind, Option.bind_some, if_neg hcount, Cells.write_nil]
    rfl
  | some bytes =>
    have hopen : (s.touch fd).Open fd ↔ s.Open fd := Iff.rfl
    simp only [State.recv, hopen]
    by_cases hlen : s.Open fd ∧ bytes.length ≤ bufferLength
    · have hcount : (bytes.length : Int) = 0 ↔ bytes = [] := by simp
      simp only [if_pos hlen, Option.bind_eq_bind, Option.bind_some, hcount]
      refine if_ctx_congr Iff.rfl (fun hnil => ?_) fun _ => rfl
      subst hnil
      rfl
    · rw [if_neg hlen, if_neg hlen]
      rfl

theorem serve_idle (hready : w.isReady s.watch fd = false) :
    w.serve env fd s = some (s.touch fd) :=
  serve_eq.trans (if_neg (Bool.eq_false_iff.1 hready))

theorem serve_left (hready : w.isReady s.watch fd = true) (hopen : s.Open fd)
    (hres : env.received fd = some []) : w.serve env fd s = some (s.left w fd) := by
  have hlen : s.Open fd ∧ ([] : List Byte).length ≤ bufferLength := ⟨hopen, Nat.zero_le _⟩
  simp only [serve_eq, if_pos hready, hres, if_pos hlen, if_true]

theorem serve_echoed {bytes : List Byte} (hready : w.isReady s.watch fd = true) (hopen : s.Open fd)
    (hres : env.received fd = some bytes) (hne : bytes ≠ []) (hlen : bytes.length ≤ bufferLength) :
    w.serve env fd s = some (s.answered fd (some bytes)
      ((env.stack.fill 0 bufferLength 0).write 0 bytes) (sizeT bytes.length) (env.sent fd)) := by
  simp only [serve_eq, if_pos hready, hres, if_pos (And.intro hopen hlen), if_neg hne]

theorem accepting_cases (h : w.accepting env s = some t) : Accepts w env s t := by
  rw [accepting_eq] at h
  split_ifs at h with hready
  · cases hacc : env.accepted with
    | some fd =>
      simp only [hacc] at h
      split_ifs at h with hfd
      cases h
      exact .joined hready hacc hfd.1 hfd.2
    | none =>
      rw [hacc] at h
      cases h
      exact .refused hready hacc
  · cases h
    exact .idle (Bool.eq_false_of_not_eq_true hready)

theorem serve_cases (h : w.serve env fd s = some t) : Serves w env fd s t := by
  rw [serve_eq] at h
  split_ifs at h with hready
  · cases hres : env.received fd with
    | some bytes =>
      simp only [hres] at h
      split_ifs at h with hlen hnil
      · subst hnil
        cases h
        exact .left hready hlen.1 hres
      · cases h
        exact .echoed hready hlen.1 hres hnil hlen.2
    | none =>
      rw [hres] at h
      cases h
      exact .failed hready hres
  · cases h
    exact .idle (Bool.eq_false_of_not_eq_true hready)

/-- **What a round can do.** -/
theorem main_cases (h : w.main s env = some t) :
    ∃ u, Accepts w env (s.waited w env.ready) u ∧
      forInt (u.sockfd + 1) (u.mxfd + 1) (w.serve env) u = some t := by
  obtain ⟨u, haccept, hscan⟩ := Option.bind_eq_some_iff.1 h
  exact ⟨u, accepting_cases haccept, hscan⟩

/-- How far the scan of a round goes. -/
def Watcher.scanEnd (w : Watcher ω) (s : State ω) (env : Env) : Int :=
  if w.isReady (w.wait s env.ready) s.sockfd = true then max s.mxfd (env.accepted.getD (-1))
  else s.mxfd

theorem Watcher.mxfd_le_scanEnd : s.mxfd ≤ w.scanEnd s env := by
  rw [Watcher.scanEnd]
  split_ifs
  · exact Int.le_max_left _ _
  · exact Int.le_refl _

theorem Accepts.mxfd (h : Accepts w env (s.waited w env.ready) u) : u.mxfd = w.scanEnd s env := by
  cases h with
  | idle hidle =>
    have hno : ¬ w.isReady (w.wait s env.ready) s.sockfd = true := Bool.eq_false_iff.1 hidle
    exact (if_neg hno).symm
  | joined hready hacc =>
    refine Eq.trans ?_ (if_pos hready).symm
    rw [hacc]
    rfl
  | refused hready hacc =>
    refine Eq.trans ?_ (if_pos hready).symm
    rw [hacc]
    rfl

/-- The call that waits succeeds, and an `accept` returns a descriptor between the listener and
the end of the tables. -/
def Succeeds (w : Watcher ω) (s : State ω) (env : Env) : Prop :=
  env.ready.isSome = true ∧
    (w.isReady (w.wait s env.ready) s.sockfd = true →
      ∃ fd ∈ env.accepted, s.sockfd < fd ∧ fd < tableSize)

instance : Decidable (Succeeds w s env) :=
  inferInstanceAs (Decidable (_ ∧ (_ → ∃ fd ∈ env.accepted, _)))

namespace Succeeds

variable (hok : Succeeds w s env) (hready : w.isReady (w.wait s env.ready) s.sockfd = true)
include hok hready

theorem lt (hacc : env.accepted = some fd) : s.sockfd < fd := by
  obtain ⟨x, hx, hlt, -⟩ := hok.2 hready
  cases hacc.symm.trans hx
  exact hlt

theorem accepted_ne_none : env.accepted ≠ none := by
  obtain ⟨x, hx, -⟩ := hok.2 hready
  rw [Option.mem_def] at hx
  rw [hx]
  exact Option.some_ne_none _

end Succeeds

/-! ## The clients and `mxfd` -/

/-- The clients lie between the listener and `mxfd`. -/
structure Ranged (s : State ω) : Prop where
  nonneg : 0 ≤ s.sockfd
  le : s.sockfd ≤ s.mxfd
  client : ∀ fd, s.fds.owner fd ≠ none → s.sockfd < fd ∧ fd ≤ s.mxfd

theorem Ranged.joined (hs : Ranged s) (hlt : s.sockfd < fd) : Ranged (s.joined w fd) where
  nonneg := hs.nonneg
  le := le_trans hs.le (Int.le_max_left _ _)
  client x hx := by
    by_cases hxf : x = fd
    · subst hxf
      exact ⟨hlt, Int.le_max_right _ _⟩
    · simp only [State.joined, FdTable.accept_owner_of_ne hxf] at hx
      obtain ⟨hlo, hhi⟩ := hs.client x hx
      exact ⟨hlo, le_trans hhi (Int.le_max_left _ _)⟩

theorem Ranged.left (hs : Ranged s) : Ranged (s.left w fd) where
  nonneg := hs.nonneg
  le := hs.le
  client x hx := hs.client x (FdTable.close_owner_ne_none hx).2

/-! ## What is answered -/

/-- The count of a `recv` is not changed by its conversion. -/
theorem sizeT_count {bytes : List Byte} (h : bytes.length ≤ bufferLength) :
    sizeT bytes.length = bytes.length :=
  sizeT_natCast (h.trans_lt (by decide))

/-- A `send` finds in the buffer what was received. -/
theorem read_echo {stack : Cells Byte} {bytes : List Byte} (h : bytes.length ≤ bufferLength) :
    ((stack.fill 0 bufferLength 0).write 0 bytes).read 0 (sizeT bytes.length) = bytes := by
  rw [sizeT_count h]
  exact Cells.read_write_self

/-! ## The second half -/

/-- The scan leaves its own bounds, and what was reported, as they are. -/
structure Frame (w : Watcher ω) (s t : State ω) : Prop where
  sockfd : t.sockfd = s.sockfd
  mxfd : t.mxfd = s.mxfd
  isReady : ∀ fd, w.isReady t.watch fd = w.isReady s.watch fd

theorem Serves.frame (h : Serves w env fd s t) : Frame w s t := by
  cases h with
  | left => exact ⟨rfl, rfl, fun _ => w.isReady_forget⟩
  | _ => exact ⟨rfl, rfl, fun _ => rfl⟩

theorem Frame.trans (h : Frame w s t) (h' : Frame w t u) : Frame w s u :=
  ⟨h'.sockfd.trans h.sockfd, h'.mxfd.trans h.mxfd, fun fd => (h'.isReady fd).trans (h.isReady fd)⟩

/-- **The invariant rule of the scan.** -/
theorem scan_invariant {Inv : Int → State ω → Prop} (hle : u.sockfd ≤ u.mxfd)
    (h₀ : Inv (u.sockfd + 1) u)
    (hserve : ∀ {fd s t}, u.sockfd < fd → fd ≤ u.mxfd → Frame w u s → Inv fd s →
      Serves w env fd s t → Inv (fd + 1) t)
    (h : forInt (u.sockfd + 1) (u.mxfd + 1) (w.serve env) u = some t) :
    Frame w u t ∧ Inv (u.mxfd + 1) t := by
  have hrule := @forInt_invariant _ (u.sockfd + 1) (u.mxfd + 1) u t (w.serve env)
    (fun i s => Frame w u s ∧ Inv i s) (by omega) ⟨⟨rfl, rfl, fun _ => rfl⟩, h₀⟩
  refine hrule (fun hlo hhi hinv hstep => ?_) h
  have hserves := serve_cases hstep
  exact ⟨hinv.1.trans hserves.frame, hserve (by omega) (by omega) hinv.1 hinv.2 hserves⟩

/-- **The progress rule of the scan.** -/
theorem scan_exists {Inv : Int → State ω → Prop} (hle : u.sockfd ≤ u.mxfd)
    (h₀ : Inv (u.sockfd + 1) u)
    (hserve : ∀ {fd s}, u.sockfd < fd → fd ≤ u.mxfd → Frame w u s → Inv fd s →
      ∃ t, w.serve env fd s = some t ∧ Inv (fd + 1) t) :
    ∃ t, forInt (u.sockfd + 1) (u.mxfd + 1) (w.serve env) u = some t ∧ Inv (u.mxfd + 1) t := by
  have hrule := @forInt_exists _ (u.sockfd + 1) (u.mxfd + 1) u (w.serve env)
    (fun i s => Frame w u s ∧ Inv i s) (by omega) ⟨⟨rfl, rfl, fun _ => rfl⟩, h₀⟩
  obtain ⟨t, hscan, -, hinv⟩ := hrule fun {i s} hlo hhi hinv => by
    obtain ⟨t, hstep, ht⟩ := hserve (by omega) (by omega) hinv.1 hinv.2
    exact ⟨t, hstep, hinv.1.trans (serve_cases hstep).frame, ht⟩
  exact ⟨t, hscan, hinv⟩

/-- A scan that finds only `fd` ready, if any. -/
theorem scan_lone {Inv : State ω → Prop} (htouch : ∀ {s} i, Inv s → Inv (s.touch i))
    (hlt : u.sockfd < fd) (hle : fd ≤ u.mxfd)
    (hidle : ∀ i, u.sockfd < i → i ≠ fd → w.isReady u.watch i = false)
    (hserve : ∀ l, ∃ t, w.serve env fd { u with touched := l } = some t ∧ Inv t) :
    ∃ t, forInt (u.sockfd + 1) (u.mxfd + 1) (w.serve env) u = some t ∧ Inv t := by
  -- Nothing happens before `fd`, and after it the invariant is kept.
  have hrule := @scan_exists _ w env u (fun i s =>
    (i ≤ fd → ∃ l, s = { u with touched := l }) ∧ (fd < i → Inv s)) (hlt.le.trans hle)
    ⟨fun _ => ⟨u.touched, rfl⟩, fun h => absurd h (by omega)⟩
  obtain ⟨t, hscan, -, ht⟩ := hrule fun {i s} hi _ hframe hinv => by
    by_cases hfd : i = fd
    · subst hfd
      obtain ⟨l, rfl⟩ := hinv.1 le_rfl
      obtain ⟨t, hstep, ht⟩ := hserve l
      exact ⟨t, hstep, fun h => absurd h (by omega), fun _ => ht⟩
    · have hno : w.isReady s.watch i = false := (hframe.isReady i).trans (hidle i hi hfd)
      refine ⟨s.touch i, serve_idle hno, fun h => ?_, fun h => ?_⟩
      · obtain ⟨l, rfl⟩ := hinv.1 (by omega)
        exact ⟨_, rfl⟩
      · exact htouch i (hinv.2 (by omega))
  exact ⟨t, hscan, ht (by omega)⟩

/-- **The invariant rule of a round.** -/
theorem main_invariant {Inv : State ω → Prop} (hle : ∀ {u}, Inv u → u.sockfd ≤ u.mxfd)
    (hwait : Inv s → Inv (s.waited w env.ready))
    (haccept : ∀ {u}, Inv (s.waited w env.ready) →
      Accepts w env (s.waited w env.ready) u → Inv u)
    (hserve : ∀ {fd u v}, u.sockfd < fd → Inv u → Serves w env fd u v → Inv v)
    (h₀ : Inv s) (h : w.main s env = some t) : Inv t := by
  obtain ⟨u, haccepts, hscan⟩ := main_cases h
  have hu := haccept (hwait h₀) haccepts
  have hrule := @scan_invariant _ w env t u (fun _ v => Inv v) (hle hu) hu
  refine (hrule (fun hlt _ hframe hv hserves => ?_) hscan).2
  rw [← hframe.sockfd] at hlt
  exact hserve hlt hv hserves

/-- The descriptors received from. -/
def recvd (calls : List Call) : List Int :=
  calls.filterMap fun
    | .recv fd _ _ => some fd
    | _ => none

/-- The call ends an answer. -/
def Call.IsAnswer : Call → Prop
  | .send .. => True
  | .close _ => True
  | _ => False

/-- The calls `new` of a scan that has come to `i`: one `recv` on each descriptor below `i`
that was reported ready, on the connection it had when the scan began. -/
structure Scanned (w : Watcher ω) (env : Env) (u : State ω) (i : Int) (s : State ω)
    (new : List Call) : Prop where
  trace : s.trace = new ++ u.trace
  nodup : (recvd new).Nodup
  mem : ∀ fd, fd ∈ recvd new ↔ u.sockfd < fd ∧ fd < i ∧ w.isReady u.watch fd = true
  recv : ∀ {fd k r}, .recv fd k r ∈ new → k = u.fds.owner fd ∧ r = env.received fd
  accept : ∀ {res}, .accept res ∉ new
  ahead : ∀ fd, i ≤ fd → s.fds.owner fd = u.fds.owner fd

theorem Scanned.skip {new : List Call} {i : Int} (h : Scanned w env u i s new)
    (hidle : w.isReady u.watch i = false) (htrace : t.trace = s.trace) (hfds : t.fds = s.fds) :
    Scanned w env u (i + 1) t new where
  trace := htrace.trans h.trace
  nodup := h.nodup
  mem fd := by
    rw [h.mem]
    refine and_congr_right fun _ => and_congr_left fun hready => ?_
    have hne : fd ≠ i := by
      intro heq
      subst heq
      rw [hidle] at hready
      cases hready
    omega
  recv := h.recv
  accept := h.accept
  ahead fd hfd := by
    rw [hfds]
    exact h.ahead fd (by omega)

/-- The `recv` on `i`, and the call `c` that follows it. -/
theorem Scanned.receive {new : List Call} {i : Int} {c : Call} {r : Option (List Byte)}
    (h : Scanned w env u i s new) (hlt : u.sockfd < i) (hready : w.isReady u.watch i = true)
    (hr : env.received i = r) (htrace : t.trace = c :: .recv i (s.fds.owner i) r :: s.trace)
    (hc : c.IsAnswer)
    (hfds : ∀ fd, i < fd → t.fds.owner fd = s.fds.owner fd) :
    Scanned w env u (i + 1) t (c :: .recv i (s.fds.owner i) r :: new) := by
  have hrecvd : recvd (c :: .recv i (s.fds.owner i) r :: new) = i :: recvd new := by
    cases c with
    | send | close => rfl
    | recv | accept => exact hc.elim
  refine ⟨by rw [htrace, h.trace]; rfl, ?_, fun fd => ?_, fun hmem => ?_, fun hmem => ?_,
    fun fd hfd => ?_⟩
  · rw [hrecvd, List.nodup_cons, h.mem]
    exact ⟨fun hyp => absurd hyp.2.1 (lt_irrefl i), h.nodup⟩
  · rw [hrecvd, List.mem_cons, h.mem]
    refine ⟨?_, ?_⟩
    · intro hyp
      rcases hyp with rfl | ⟨h1, h2, h3⟩
      · exact ⟨hlt, by omega, hready⟩
      · exact ⟨h1, by omega, h3⟩
    · intro hyp
      by_cases heq : fd = i
      · exact .inl heq
      · exact .inr ⟨hyp.1, by omega, hyp.2.2⟩
  · rcases List.mem_cons.1 hmem with rfl | hmem
    · exact hc.elim
    · rcases List.mem_cons.1 hmem with heq | hmem
      · cases heq
        exact ⟨h.ahead i (Int.le_refl _), hr.symm⟩
      · exact h.recv hmem
  · rcases List.mem_cons.1 hmem with rfl | hmem
    · exact hc.elim
    · rcases List.mem_cons.1 hmem with heq | hmem
      · cases heq
      · exact h.accept hmem
  · rw [hfds fd (by omega)]
    exact h.ahead fd (by omega)

/-- **What a scan receives from.** -/
theorem scan_recvd (hle : u.sockfd ≤ u.mxfd)
    (h : forInt (u.sockfd + 1) (u.mxfd + 1) (w.serve env) u = some t) :
    ∃ new, Scanned w env u (u.mxfd + 1) t new := by
  have h₀ : Scanned w env u (u.sockfd + 1) u [] :=
    ⟨rfl, List.nodup_nil, fun fd => iff_of_false (by simp [recvd]) (by omega),
      fun hmem => (by cases hmem), List.not_mem_nil, fun _ _ => rfl⟩
  have hrule := @scan_invariant _ w env t u (fun i s => ∃ new, Scanned w env u i s new) hle ⟨[], h₀⟩
  refine (hrule (fun {fd s t} hlt _ hframe hinv hserves => ?_) h).2
  obtain ⟨new, hnew⟩ := hinv
  cases hserves with
  | idle hidle =>
    rw [hframe.isReady] at hidle
    exact ⟨new, hnew.skip hidle rfl rfl⟩
  | left hready _ hres =>
    rw [hframe.isReady] at hready
    exact ⟨_, hnew.receive hlt hready hres rfl trivial fun x hx =>
      FdTable.close_owner_of_ne (by omega)⟩
  | echoed hready _ hres =>
    rw [hframe.isReady] at hready
    exact ⟨_, hnew.receive hlt hready hres rfl trivial fun _ _ => rfl⟩
  | failed hready hres =>
    rw [hframe.isReady] at hready
    exact ⟨_, hnew.receive hlt hready hres rfl trivial fun _ _ => rfl⟩

/-! ## The receives of a round -/

/-- What the first half leaves alone, and the calls `new` it makes. -/
structure Joins (w : Watcher ω) (s u : State ω) (new : List Call) : Prop where
  sockfd : u.sockfd = s.sockfd
  mxfd : s.mxfd ≤ u.mxfd
  isReady : ∀ fd, w.isReady u.watch fd = w.isReady s.watch fd
  trace : u.trace = new ++ s.trace
  recv : ∀ {fd k r}, .recv fd k r ∉ new
  accept : ∀ {res}, .accept res ∈ new ↔ u.trace = .accept res :: s.trace
  owner : ∀ {fd}, s.Open fd → u.fds.owner fd = s.fds.owner fd

theorem Accepts.joins (h : Accepts w env s u) : ∃ new, Joins w s u new := by
  cases h with
  | idle =>
    refine ⟨[], rfl, Int.le_refl _, fun _ => rfl, rfl, List.not_mem_nil, ?_, fun _ => rfl⟩
    exact iff_of_false List.not_mem_nil (List.cons_ne_self _ _).symm
  | @joined fd _ _ _ hfree =>
    refine ⟨[.accept fd], rfl, Int.le_max_left _ _, fun _ => w.isReady_add, rfl, by simp, ?_,
      fun h => ?_⟩
    · simp [State.joined, eq_comm]
    · refine FdTable.accept_owner_of_ne ?_
      intro heq
      subst heq
      exact hfree h
  | refused =>
    refine ⟨[.accept (-1)], rfl, Int.le_max_left _ _, fun _ => w.isReady_add, rfl, by simp, ?_,
      fun _ => rfl⟩
    simp [State.refused, eq_comm]

theorem recvd_append (l l' : List Call) : recvd (l ++ l') = recvd l ++ recvd l' :=
  List.filterMap_append

theorem mem_recvd {l : List Call} : fd ∈ recvd l ↔ ∃ k r, .recv fd k r ∈ l := by
  rw [recvd, List.mem_filterMap]
  refine ⟨?_, ?_⟩
  · intro hyp
    obtain ⟨c, hc, heq⟩ := hyp
    cases c with
    | recv fd' k r =>
      cases heq
      exact ⟨k, r, hc⟩
    | _ => cases heq
  · intro hyp
    obtain ⟨k, r, hc⟩ := hyp
    exact ⟨_, hc, rfl⟩

/-- The calls `new` of a round: the `accept` of its first half, and one `recv` on each
descriptor above the listener that was reported ready, on the connection it had after that. -/
structure Received (w : Watcher ω) (env : Env) (s u t : State ω) (new : List Call) : Prop where
  accepts : Accepts w env (s.waited w env.ready) u
  trace : t.trace = new ++ s.trace
  nodup : (recvd new).Nodup
  mem : ∀ fd, fd ∈ recvd new ↔
    s.sockfd < fd ∧ fd ≤ w.scanEnd s env ∧ w.isReady (w.wait s env.ready) fd = true
  recv : ∀ {fd k r}, .recv fd k r ∈ new → k = u.fds.owner fd ∧ r = env.received fd
  accept : ∀ {res}, .accept res ∈ new ↔ u.trace = .accept res :: s.trace

/-- **What a round receives from.** -/
theorem main_recvd (hle : s.sockfd ≤ s.mxfd) (h : w.main s env = some t) :
    ∃ u new, Received w env s u t new := by
  obtain ⟨u, haccepts, hscan⟩ := main_cases h
  obtain ⟨joining, hjoin⟩ := haccepts.joins
  have hsock : u.sockfd = s.sockfd := hjoin.sockfd
  have hmax : s.mxfd ≤ u.mxfd := hjoin.mxfd
  obtain ⟨new, hnew⟩ := scan_recvd (by omega) hscan
  have hnone : recvd joining = [] :=
    List.eq_nil_iff_forall_not_mem.2 fun fd hmem => by
      obtain ⟨k, r, hrecv⟩ := mem_recvd.1 hmem
      exact hjoin.recv hrecv
  have hsame : recvd (new ++ joining) = recvd new := by rw [recvd_append, hnone, List.append_nil]
  refine ⟨u, new ++ joining, haccepts, ?_, ?_, fun fd => ?_, fun hmem => ?_, fun {res} => ?_⟩
  · rw [hnew.trace, hjoin.trace, List.append_assoc]
    rfl
  · rw [hsame]
    exact hnew.nodup
  · rw [hsame, hnew.mem, hjoin.isReady, hsock, Int.lt_add_one_iff, haccepts.mxfd]
    rfl
  · rcases List.mem_append.1 hmem with hmem | hmem
    · exact hnew.recv hmem
    · exact absurd hmem hjoin.recv
  · rw [List.mem_append, or_iff_right hnew.accept]
    exact hjoin.accept

end NetDesign.SelectPoll
