import NetDesign.Service
import NetDesign.Uring.Session
import NetDesign.Uring.Lockstep

/-!
# The service behind the rings

What is seen of a run are the connections so far and what happened on each. As long as every
`recv` asks for the same number of bytes, and an accept gives one of so many descriptors, that is
what a service may come to.

* `Seated` — the open descriptors are among those an accept may give.
* `Conducts.requests_le` — no request is longer than a `recv` asks for.
* `Conducts.reachable` — the service may come to what is seen of a run.
-/

namespace NetDesign.Uring

variable {μ α υ : Type*} {b b' : Board μ α υ} {m : Move α υ} {srv : Server μ α υ}
  {s t s₀ : St μ α υ} {a : Act} {as : List Act} {ok : St μ α υ → Act → Prop}
  {logs : Nat → List (Event Byte)} {c limit : Nat} {listenfd : Int} {seats : Set Int}
  {Allowed : List (List Byte) → List Byte → Prop}

/-! ## Descriptors -/

/-- No step of the server executes an operation. -/
theorem St.move_program_ne {s : St μ α υ} {e : Sqe α υ} {o : Outcome} :
    s.move .program ≠ some (.exec e o) := by
  rw [St.move]
  split
  · split_ifs <;> simp
  · simp

/-- The listener is `listenfd`, and the clients have descriptors in `seats`. -/
structure Seated (srv : Server μ α υ) (listenfd : Int) (seats : Set Int) (b : Board μ α υ) :
    Prop where
  listener : srv.listenfd b.mem = listenfd
  accept : ∀ e, .waiting e ∈ b.tokens → e.opcode = .accept → e.fd = listenfd
  owner : ∀ fd, b.net.owner fd ≠ none → fd ∈ seats

/-- An entry that is filled for an accept names the listener. -/
theorem fd_of_effect_accept {mem : μ} {q : Cqe α υ} {e : Sqe α υ}
    (htag : q.userData = srv.tag q.sqe.key) (he : .waiting e ∈ (srv.effect mem q).tokens q)
    (hop : e.opcode = .accept) : e.fd = srv.listenfd mem := by
  obtain ⟨e', he', heq⟩ := mem_effect_tokens.1 he
  cases heq
  have hkey : e'.key ∈ replies (srv.listenfd mem) q.sqe.key q.res :=
    srv.prep_key htag ▸ List.mem_map_of_mem he'
  have hop' : e'.opcode = .accept := hop
  cases hkind : q.sqe.opcode with
  | accept =>
    simp only [Sqe.key, hkind, hop', replies] at hkey
    simpa using hkey
  | recv =>
    simp only [Sqe.key, hkind, hop', replies] at hkey
    split_ifs at hkey <;> simp at hkey
  | send =>
    simp only [Sqe.key, hkind, hop', replies] at hkey
    simp at hkey

variable [Memory μ α]

theorem seated_moves (hkeep : KeepsListenfd srv) (htag : Tagged srv b)
    (hb : Seated srv listenfd seats b)
    (hseat : ∀ e fd, m = .exec e (.accepted fd) → 0 ≤ fd → fd ≠ listenfd → fd ∈ seats)
    (h : Moves srv b m b') : Seated srv listenfd seats b' := by
  cases h with
  | @exec T e o p hT hp =>
    refine ⟨?_, fun e' he' => hb.accept e' (waiting_mem_of_exec hT he'), fun fd hfd => ?_⟩
    · rcases perform_mem hp with hmem | ⟨bytes, hmem⟩
      · exact (congrArg srv.listenfd hmem).trans hb.listener
      · exact (congrArg srv.listenfd hmem).trans ((hkeep.write _ _ _).trans hb.listener)
    · rcases perform_cases hp with ⟨errno, rfl, rfl⟩ | ⟨x, rfl, hop, h0, hne, -, rfl⟩ |
        ⟨bytes, c, rfl, -, -, -, rfl⟩ | ⟨n, c, rfl, -, -, -, rfl⟩
      · exact hb.owner fd hfd
      · by_cases hx : fd = x
        · subst hx
          have hlisten := hb.accept e (hT ▸ Multiset.mem_cons_self _ _) hop
          exact hseat e fd rfl h0 (hlisten ▸ hne)
        · exact hb.owner fd fun hnone => hfd ((FdTable.accept_owner_of_ne hx).trans hnone)
      · exact hb.owner fd hfd
      · exact hb.owner fd hfd
  | @handle T q hT =>
    have hq : q.userData = srv.tag q.sqe.key := htag (.ready q) (hT ▸ Multiset.mem_cons_self _ _)
    refine ⟨(hkeep.effect _ _).trans hb.listener, fun e he hop => ?_, fun fd hfd => ?_⟩
    · rcases Multiset.mem_add.1 he with he | he
      · exact (fd_of_effect_accept hq he hop).trans hb.listener
      · exact hb.accept e (hT ▸ Multiset.mem_cons_of_mem he) hop
    · refine hb.owner fd fun hnone => hfd ?_
      cases (srv.effect b.mem q).close with
      | none => exact hnone
      | some x =>
        by_cases hx : fd = x
        · subst hx
          exact FdTable.close_owner_self
        · exact (FdTable.close_owner_of_ne hx).trans hnone

/-! ## Requests -/

/-- Every `recv` that waits asks for `limit` bytes. -/
def Sized (limit : Nat) (b : Board μ α υ) : Prop :=
  ∀ e, .waiting e ∈ b.tokens → e.opcode = .recv → e.len = limit

theorem sized_moves (heffect : ∀ m q e, .waiting e ∈ (srv.effect m q).tokens q →
    e.opcode = .recv → e.len = limit) (hb : Sized limit b) (h : Moves srv b m b') :
    Sized limit b' := by
  intro e he hop
  cases h with
  | exec hT => exact hb e (waiting_mem_of_exec hT he) hop
  | handle hT =>
    rcases Multiset.mem_add.1 he with he | he
    · exact heffect _ _ e he hop
    · exact hb e (hT ▸ Multiset.mem_cons_of_mem he) hop

/-- What is received is no longer than what was asked for. -/
theorem length_received {bytes : List Byte} (hb : Sized limit b) (h : Moves srv b m b')
    (hevent : Move.event b m = some (c, .received bytes)) : bytes.length ≤ limit := by
  cases h with
  | handle =>
    simp [Move.event, Option.bind_eq_some_iff] at hevent
  | @exec T e o p hT hp =>
    rcases perform_cases hp with ⟨errno, rfl, -⟩ | ⟨fd, rfl, -, -, -, -, -⟩ |
      ⟨got, c, rfl, hop, hown, hlen, -⟩ | ⟨n, c, rfl, -, hown, -, -⟩
    · cases hop : e.opcode <;> simp [Move.event, hop] at hevent
    · simp [Move.event] at hevent
    · simp only [Move.event, hown, Option.map_some, Option.some.injEq, Prod.mk.injEq,
        Event.received.injEq] at hevent
      obtain ⟨-, rfl⟩ := hevent
      exact hlen.trans (hb e (hT ▸ Multiset.mem_cons_self _ _) hop).le
    · simp [Move.event, hown] at hevent

/-! ## Clients -/

/-- What a move is to the clients: nothing, or one comes, or something happens to one. -/
theorem Moves.event_cases (hnumbered : b.net.Numbered) (h : Moves srv b m b') :
    (m.event b = none ∧ b'.net.count = b.net.count) ∨
    (m.event b = some (b.net.count, .accepted) ∧
      ∃ fd, b.net.owner fd = none ∧ b'.net = b.net.accept fd) ∨
    ∃ c e, m.event b = some (c, e) ∧ c < b.net.count ∧ b'.net.count = b.net.count := by
  have howner : ∀ (fd : Int) (e : Event Byte), m.event b = (b.net.owner fd).map (·, e) →
      b'.net.count = b.net.count → (m.event b = none ∧ b'.net.count = b.net.count) ∨
        ∃ c e, m.event b = some (c, e) ∧ c < b.net.count ∧ b'.net.count = b.net.count := by
    intro fd e hevent hcount
    cases hown : b.net.owner fd with
    | none => exact .inl ⟨hevent.trans (by rw [hown]; rfl), hcount⟩
    | some c => exact .inr ⟨c, e, hevent.trans (by rw [hown]; rfl), hnumbered.lt hown, hcount⟩
  cases h with
  | @exec T e o p hT hp =>
    rcases perform_cases hp with ⟨errno, rfl, rfl⟩ | ⟨fd, rfl, -, -, -, hown, rfl⟩ |
      ⟨bytes, c, rfl, -, -, -, rfl⟩ | ⟨n, c, rfl, -, -, -, rfl⟩
    · cases hop : e.opcode with
      | accept => exact .inl ⟨by rw [Move.event, hop], rfl⟩
      | recv => exact (howner e.fd _ (by rw [Move.event, hop]) rfl).imp_right .inr
      | send => exact (howner e.fd _ (by rw [Move.event, hop]) rfl).imp_right .inr
    · exact .inr (.inl ⟨rfl, fd, hown, rfl⟩)
    · exact (howner e.fd _ rfl rfl).imp_right .inr
    · exact (howner e.fd _ rfl rfl).imp_right .inr
  | @handle T q hT =>
    have hcount : ((srv.effect b.mem q).close.elim b.net b.net.close).count = b.net.count := by
      cases (srv.effect b.mem q).close <;> rfl
    cases hclosing : closing q.sqe.key q.res with
    | none => exact .inl ⟨by rw [Move.event, hclosing]; rfl, hcount⟩
    | some fd => exact (howner fd _ (by rw [Move.event, hclosing]; rfl) hcount).imp_right .inr

/-! ## Runs -/

/-- What is seen of a run. -/
def view (srv : Server μ α υ) (s₀ : St μ α υ) (as : List Act) (s : St μ α υ) : Service Byte :=
  ⟨s.net.count, history (step srv.batch srv.handle) St.event s₀ as⟩

/-- The answers that are allowed, requests that fit a `recv`, and a descriptor for every client,
also for one whose `recv` failed. -/
noncomputable def rules (Allowed : List (List Byte) → List Byte → Prop) (limit : Nat)
    (seats : Set Int) : Rules Byte := .chunked Allowed limit seats.encard True

structure Fitting (srv : Server μ α υ) (limit : Nat) (listenfd : Int) (seats : Set Int)
    (s : St μ α υ) : Prop where
  sound : Sound srv {fd | 0 ≤ fd} s
  sized : Sized limit s.board
  seated : Seated srv listenfd seats s.board

omit [Memory μ α] in
/-- At first only an accept waits. -/
theorem Fitting.start {entries : Nat} {mem : μ} {e : Sqe α υ} (hop : e.opcode = .accept)
    (htag : e.userData = srv.tag e.key) (hlisten : srv.listenfd mem = listenfd)
    (hfd : e.fd = listenfd) :
    Fitting srv limit listenfd seats { St.queueInit entries mem with sq := [e] } := by
  have hsame : ∀ e', .waiting e' ∈ ({ St.queueInit entries mem with sq := [e] } :
      St μ α υ).board.tokens → e' = e := fun e' he' => by
    rw [start_tokens, Multiset.mem_singleton] at he'
    exact Token.waiting.inj he'
  refine ⟨Sound.start hop htag _ _, fun e' he' hop' => ?_, hlisten, fun e' he' _ => ?_,
    fun fd hfd => absurd rfl hfd⟩
  · rw [hsame e' he', hop] at hop'
    cases hop'
  · rw [hsame e' he', hfd]

/-- What is allowed is kept in every run of the server from `s₀`, in which every `recv` asks for
`limit` bytes and an accept gives a descriptor in `seats`. -/
structure Conducts (srv : Server μ α υ) (ok : St μ α υ → Act → Prop) (s₀ : St μ α υ)
    (Allowed : List (List Byte) → List Byte → Prop) (limit : Nat) (listenfd : Int)
    (seats : Set Int) : Prop where
  keeps : KeepsListenfd srv
  recv_len : ∀ m q e, .waiting e ∈ (srv.effect m q).tokens q → e.opcode = .recv → e.len = limit
  start : Fitting srv limit listenfd seats s₀
  net : s₀.net = .initial
  seat : ∀ {s k fd}, ok s (.exec k (.accepted fd)) → 0 ≤ fd → fd ≠ listenfd → fd ∈ seats
  talks : ∀ {as s}, Run (step srv.batch srv.handle) ok s₀ as s →
    Talks Allowed s.board (history (step srv.batch srv.handle) St.event s₀ as)

namespace Conducts

variable (hr : Conducts srv ok s₀ Allowed limit listenfd seats)
include hr

theorem fitting (h : Run (step srv.batch srv.handle) ok s₀ as s) :
    Fitting srv limit listenfd seats s := by
  refine h.invariant hr.start fun {s a t} hs hok hstep => ?_
  refine ⟨hs.sound.step noRefusal_nonneg hstep, ?_, ?_⟩
  · rcases step_board srv hs.sound.pc hs.sound.tagged hstep with ⟨-, hsame⟩ | ⟨m, -, hm⟩
    · exact hsame ▸ hs.sized
    · exact sized_moves hr.recv_len hs.sized hm
  · rcases step_board srv hs.sound.pc hs.sound.tagged hstep with ⟨-, hsame⟩ | ⟨m, hmove, hm⟩
    · exact hsame ▸ hs.seated
    · refine seated_moves hr.keeps hs.sound.tagged hs.seated (fun e fd heq => ?_) hm
      subst heq
      cases a with
      | exec k o =>
        obtain ⟨e', -, heq⟩ := Option.map_eq_some_iff.1 hmove
        cases heq
        exact hr.seat hok
      | program => exact absurd hmove St.move_program_ne
      | post => cases hmove

/-- **No request is longer than a `recv` asks for.** -/
theorem requests_le (h : Run (step srv.batch srv.handle) ok s₀ as s) (c : Nat) :
    ∀ chunk ∈ requests (history (step srv.batch srv.handle) St.event s₀ as c),
      chunk.length ≤ limit := by
  induction h with
  | nil => exact fun _ hmem => by cases hmem
  | @cons as s t a hrun hok hstep ih =>
    have hs := hr.fitting hrun
    rw [hrun.history_cons]
    intro chunk hmem
    obtain ⟨hmem, hne⟩ := mem_requests.1 hmem
    rcases mem_record.1 hmem with hevent | hmem
    · rcases step_board srv hs.sound.pc hs.sound.tagged hstep with ⟨hmove, -⟩ | ⟨m, hmove, hm⟩
      · simp [St.event, hmove] at hevent
      · rw [St.event, hmove, Option.bind_some] at hevent
        exact length_received hs.sized hm hevent
    · exact ih chunk (mem_requests.2 ⟨hmem, hne⟩)

/-- The clients that are still there are those with a descriptor. -/
theorem mem_opened (h : Run (step srv.batch srv.handle) ok s₀ as s) (c : Nat) :
    c ∈ (view srv s₀ as s).opened ↔ ∃ fd, s.net.owner fd = some c :=
  Service.mem_opened_iff_owner (hr.talks h).numbered fun hc => ((hr.talks h).conducted hc).1

/-- There is room as long as an accept may give another descriptor. -/
theorem room_iff (h : Run (step srv.batch srv.handle) ok s₀ as s) :
    ((view srv s₀ as s).opened.card : ℕ∞) < seats.encard ↔
      ∃ fd ∈ seats, s.net.owner fd = none :=
  Service.lt_encard_iff (hr.talks h).numbered (hr.mem_opened h) (hr.fitting h).seated.owner

/-- **The service may come to what is seen of a run.** -/
theorem reachable (h : Run (step srv.batch srv.handle) ok s₀ as s) :
    Service.Reachable (rules Allowed limit seats) (view srv s₀ as s) := by
  induction h with
  | nil =>
    have hview : view srv s₀ [] s₀ = Service.start := by
      rw [view, hr.net]
      rfl
    exact hview ▸ .start
  | @cons as s t a hrun hok hstep ih =>
    have hs := hr.fitting hrun
    have hnext := hrun.cons hok hstep
    have hview : (view srv s₀ (a :: as) t).logs = record (view srv s₀ as s).logs (s.event a) :=
      hrun.history_cons
    rcases step_board srv hs.sound.pc hs.sound.tagged hstep with ⟨hmove, hsame⟩ | ⟨m, hmove, hm⟩
    · have hsame' : view srv s₀ (a :: as) t = view srv s₀ as s := by
        refine Service.ext (congrArg (fun b => b.net.count) hsame) (hview.trans ?_)
        rw [St.event, hmove]
        rfl
      exact hsame' ▸ ih
    · have hevent : s.event a = m.event s.board := by rw [St.event, hmove, Option.bind_some]
      rw [hevent] at hview
      rcases hm.event_cases (hr.talks hrun).numbered with ⟨hnone, hcount⟩ |
        ⟨haccepted, fd, hfree, hnet⟩ | ⟨c, e, hsaid, hc, hcount⟩
      · rw [hnone] at hview
        exact (Service.ext hcount hview : view srv s₀ (a :: as) t = view srv s₀ as s) ▸ ih
      · have hconnected : view srv s₀ (a :: as) t = (view srv s₀ as s).connected :=
          Service.ext (congrArg (FdTable.count ∘ Net.toFdTable) hnet)
            (hview.trans (congrArg _ haccepted))
        have hown : t.net.owner fd = some s.net.count :=
          (congrFun (congrArg (FdTable.owner ∘ Net.toFdTable) hnet) fd).trans
            FdTable.accept_owner_self
        have hseat := (hr.fitting hnext).seated.owner fd (hown ▸ Option.some_ne_none _)
        exact hconnected ▸ ih.connected ((hr.room_iff hrun).2 ⟨fd, hseat, hfree⟩)
      · have hsaid' : view srv s₀ (a :: as) t = (view srv s₀ as s).said c e :=
          Service.ext hcount (hview.trans (congrArg _ hsaid))
        obtain ⟨⟨p, hsession, -⟩, -⟩ := (hr.talks hnext).conducted (c := c) (hcount ▸ hc)
        have hlog : history (step srv.batch srv.handle) St.event s₀ (a :: as) c =
            e :: (view srv s₀ as s).logs c :=
          (congrFun hview c).trans (by rw [hsaid, record_self])
        refine hsaid' ▸ ih.said hc ⟨hlog ▸ hsession, ?_, fun _ => trivial⟩
        exact hlog ▸ hr.requests_le hnext c

end Conducts

end NetDesign.Uring
