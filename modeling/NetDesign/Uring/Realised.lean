import NetDesign.Uring.Service

/-!
# Whatever the service may come to takes place

A run in which one thing happens after the other: an operation is executed, its completion posted
and handled, and what answers it submitted, before the next one is executed. Only the completion
of a `recv` that delivered nothing is left for as long as the service leaves the connection open.

* `Reaches.finish`, `Reaches.serve` — a completion is handled, an operation served.
* `Realises.shows` — by induction on the service, what it may come to is seen of a run.
* `Realises.implements` — so the server implements the service.
-/

namespace NetDesign.Uring

variable {μ α υ : Type*} {srv : Server μ α υ} {s t s₀ : St μ α υ} {k c : Nat} {e : Sqe α υ}
  {q : Cqe α υ}

/-! ## A server at rest -/

/-- The server waits for a completion. -/
structure Waits (s : St μ α υ) : Prop where
  pc : s.pc = .waiting
  sq : s.sq = []
  cq : s.cq = []
  room : 2 ≤ s.entries

/-- No completion is left, but those after which a connection is closed. -/
structure Resting (s : St μ α υ) : Prop extends Waits s where
  done : ∀ q ∈ s.done, q.sqe.opcode = .recv ∧ q.res = 0

/-- The `k`-th operation was executed, with the result `p`. -/
def St.executed (s : St μ α υ) (k : Nat) (p : Performed μ α υ) : St μ α υ :=
  { s with
    inflight := s.inflight.eraseIdx k
    done := s.done ++ [p.cqe]
    net := p.net
    mem := p.mem
    sends := s.sends ++ p.sending.toList }

/-- The completion `q`, the `k`-th one, was handled. -/
def St.finished (srv : Server μ α υ) (s : St μ α υ) (k : Nat) (q : Cqe α υ) : St μ α υ :=
  let f := srv.effect s.mem q
  { s with
    inflight := s.inflight ++ f.prep.map fun e => { e with cause := q.got }
    done := s.done.eraseIdx k
    mem := f.mem
    net := f.close.elim s.net s.net.close
    current := none
    posted := s.posted ++ [q]
    handled := s.handled ++ [⟨q, f.branch, f.fd⟩] }

theorem Waits.executed (hw : Waits s) {p : Performed μ α υ} : Waits (s.executed k p) :=
  ⟨hw.pc, hw.sq, hw.cq, hw.room⟩

theorem Resting.finished (hs : Resting s) : Resting (s.finished srv k q) :=
  ⟨⟨hs.pc, hs.sq, hs.cq, hs.room⟩, fun q' hq' => hs.done q' (List.eraseIdx_subset hq')⟩

/-- What is not in flight is a completion. -/
theorem Resting.cases (hs : Resting s) {x : Token α υ} (hx : x ∈ s.board.tokens) :
    (∃ (k : Nat) (e : Sqe α υ), s.inflight[k]? = some e ∧ x = .waiting e) ∨
      ∃ (k : Nat) (q : Cqe α υ), s.done[k]? = some q ∧ x = .ready q := by
  simp only [St.board, St.tokens, hs.sq, hs.cq, List.drop_nil, Multiset.coe_nil,
    Multiset.map_zero, zero_add, add_zero, Multiset.mem_add, Multiset.mem_map,
    Multiset.mem_coe] at hx
  rcases hx with ⟨e, he, rfl⟩ | ⟨q, hq, rfl⟩
  · obtain ⟨k, hk⟩ := List.mem_iff_getElem?.1 he
    exact .inl ⟨k, e, hk, rfl⟩
  · obtain ⟨k, hk⟩ := List.mem_iff_getElem?.1 hq
    exact .inr ⟨k, q, hk, rfl⟩

theorem waiting_mem (he : s.inflight[k]? = some e) : .waiting e ∈ s.board.tokens := by
  simp [St.board, St.tokens, List.mem_of_getElem? he]

theorem ready_mem (hq : s.done[k]? = some q) : .ready q ∈ s.board.tokens := by
  simp [St.board, St.tokens, List.mem_of_getElem? hq]

/-- The accept is in flight. -/
theorem Resting.exists_accept (hs : Resting s) (haccepts : s.board.accepts = 1) :
    ∃ (k : Nat) (e : Sqe α υ), s.inflight[k]? = some e ∧ e.opcode = .accept := by
  have hpos : 0 < s.board.accepts := haccepts ▸ Nat.one_pos
  obtain ⟨x, hx, hop⟩ := Multiset.countP_pos.1 hpos
  rcases hs.cases hx with ⟨k, e, he, rfl⟩ | ⟨k, q, hq, rfl⟩
  · exact ⟨k, e, he, hop⟩
  · have hrecv := (hs.done q (List.mem_of_getElem? hq)).1
    exact absurd (hrecv.symm.trans hop) (by decide)

/-! ## The operation of a client -/

section Talks

variable {Allowed : List (List Byte) → List Byte → Prop} {logs : Nat → List (Event Byte)}
  {p : Stage}

theorem Talks.lt_count {b : Board μ α υ} (hb : Talks Allowed b logs)
    (h : Session Allowed (logs c) p) : c < b.net.count := by
  by_contra hc
  rw [hb.fresh c (Nat.not_lt.1 hc)] at h
  cases h

/-- While a request or an answer is due it is in flight. -/
theorem Resting.exists_operation (hs : Resting s) (hb : Talks Allowed s.board logs)
    (h : Session Allowed (logs c) p) (hp : p = .idle ∨ p = .owing) :
    ∃ (k : Nat) (e : Sqe α υ), s.inflight[k]? = some e ∧ s.net.owner e.fd = some c ∧
      e.opcode ≠ .accept ∧ At Allowed (logs c) (.waiting e) := by
  have hunique : ∀ {p'}, Session Allowed (logs c) p' → p' = .idle ∨ p' = .owing := fun h' =>
    h'.unique h ▸ hp
  cases hb.standing c (hb.lt_count h) with
  | @token x fd hx ht hown hat =>
    rcases hs.cases hx with ⟨k, e, he, rfl⟩ | ⟨k, q, hq, rfl⟩
    · have hop : e.opcode ≠ .accept := by
        intro hop
        rw [Token.target_waiting_of_eq hop] at ht
        cases ht
      obtain rfl := Option.some.inj ((Token.target_waiting_of_ne hop).symm.trans ht)
      exact ⟨k, e, he, hown, hop, hat⟩
    · obtain ⟨hop, hres⟩ := hs.done q (List.mem_of_getElem? hq)
      simp only [At, hop, hres, lt_irrefl, if_false, if_true] at hat
      rcases hunique hat with h | h <;> cases h
  | orphan _ _ hlost => rcases hunique hlost with h | h <;> cases h
  | gone _ hclosed => rcases hunique hclosed with h | h <;> cases h

/-- The operation in flight on an idle connection is its `recv`. -/
theorem Resting.exists_recv (hs : Resting s) (hb : Talks Allowed s.board logs)
    (h : Session Allowed (logs c) .idle) :
    ∃ (k : Nat) (e : Sqe α υ), s.inflight[k]? = some e ∧ s.net.owner e.fd = some c ∧
      e.opcode = .recv := by
  obtain ⟨k, e, he, hown, hop, hat⟩ := hs.exists_operation hb h (.inl rfl)
  refine ⟨k, e, he, hown, ?_⟩
  cases hop' : e.opcode with
  | accept => exact absurd hop' hop
  | recv => rfl
  | send =>
    simp only [At, hop'] at hat
    cases h.unique hat.1

/-- While an answer is due it is its `send`. -/
theorem Resting.exists_send (hs : Resting s) (hb : Talks Allowed s.board logs)
    (h : Session Allowed (logs c) .owing) :
    ∃ (k : Nat) (e : Sqe α υ), s.inflight[k]? = some e ∧ s.net.owner e.fd = some c ∧
      e.opcode = .send ∧ e.cause.map Delivery.bytes = (requests (logs c)).head? := by
  obtain ⟨k, e, he, hown, hop, hat⟩ := hs.exists_operation hb h (.inr rfl)
  cases hop' : e.opcode with
  | accept => exact absurd hop' hop
  | recv =>
    simp only [At, hop'] at hat
    cases h.unique hat
  | send =>
    simp only [At, hop'] at hat
    exact ⟨k, e, he, hown, hop', hat.2⟩

/-- The completion of an ended connection is left. -/
theorem Resting.exists_done (hs : Resting s) (hb : Talks Allowed s.board logs)
    (h : Session Allowed (logs c) .ended) :
    ∃ (k : Nat) (q : Cqe α υ), s.done[k]? = some q ∧ s.net.owner q.sqe.fd = some c ∧
      q.sqe.opcode = .recv ∧ q.res = 0 := by
  cases hb.standing c (hb.lt_count h) with
  | @token x fd hx ht hown hat =>
    rcases hs.cases hx with ⟨k, e, he, rfl⟩ | ⟨k, q, hq, rfl⟩
    · cases hop : e.opcode with
      | accept =>
        rw [Token.target_waiting_of_eq hop] at ht
        cases ht
      | recv =>
        simp only [At, hop] at hat
        cases h.unique hat
      | send =>
        simp only [At, hop] at hat
        cases h.unique hat.1
    · obtain ⟨hop, hres⟩ := hs.done q (List.mem_of_getElem? hq)
      have hfd : (Token.ready q).target = some q.sqe.fd :=
        Token.target_ready_of_ne (by rw [hop]; decide)
      obtain rfl := Option.some.inj (hfd.symm.trans ht)
      exact ⟨k, q, hq, hown, hop, hres⟩
  | orphan _ _ hlost => cases h.unique hlost
  | gone _ hclosed => cases h.unique hclosed

end Talks

/-! ## Runs -/

variable [Memory μ α] {ok : St μ α υ → Act → Prop} {logs : Nat → List (Event Byte)} {a : Act}
  {o : Outcome} {p : Performed μ α υ}

/-- A run leads to the state, with these logs. -/
def Reaches (srv : Server μ α υ) (ok : St μ α υ → Act → Prop) (s₀ s : St μ α υ)
    (logs : Nat → List (Event Byte)) : Prop :=
  ∃ as, Run (step srv.batch srv.handle) ok s₀ as s ∧
    history (step srv.batch srv.handle) St.event s₀ as = logs

namespace Reaches

theorem cons (h : Reaches srv ok s₀ s logs) (hok : ok s a)
    (hstep : step srv.batch srv.handle s a = some t) :
    Reaches srv ok s₀ t (record logs (s.event a)) := by
  obtain ⟨as, hrun, rfl⟩ := h
  exact ⟨a :: as, hrun.cons hok hstep, hrun.history_cons⟩

/-- A step that is nothing to a connection. -/
theorem silent (h : Reaches srv ok s₀ s logs) (hok : ok s a) (hevent : s.event a = none)
    (hstep : step srv.batch srv.handle s a = some t) : Reaches srv ok s₀ t logs := by
  have ht := h.cons hok hstep
  rwa [hevent, record_none] at ht

theorem exec (h : Reaches srv ok s₀ s logs) (hok : ok s (.exec k o))
    (he : s.inflight[k]? = some e) (hp : perform s.net s.mem e o = some p) :
    Reaches srv ok s₀ (s.executed k p) (record logs (Move.event s.board (.exec e o))) := by
  have ht := h.cons hok (by rw [step, he]; exact congrArg (Option.map _) hp)
  have hevent : s.event (.exec k o) = Move.event s.board (.exec e o) := by
    rw [St.event, St.move, he]
    rfl
  rwa [hevent] at ht

end Reaches

/-- The server has room for what it fills while it handles a completion, and nothing is asked of
its own steps, nor of when a completion is posted. -/
structure Free (srv : Server μ α υ) (ok : St μ α υ → Act → Prop) : Prop where
  batch : 0 < srv.batch
  room : ∀ {s : St μ α υ} {q}, s.sq.length + 2 ≤ s.entries → (srv.handle s q).isSome = true
  program : ∀ {s}, ok s .program
  post : ∀ {s k}, ok s (.post k)

/-- **A completion is handled.** -/
theorem Reaches.finish (h : Reaches srv ok s₀ s logs) (hfree : Free srv ok) (hw : Waits s)
    (hq : s.done[k]? = some q) (htag : q.userData = srv.tag q.sqe.key) :
    Reaches srv ok s₀ (s.finished srv k q) (record logs (Move.event s.board (.handle q))) := by
  obtain ⟨hpc, hsq, hcq, hentries⟩ := hw
  obtain ⟨entries, sq, inflight, done, cq, pc, mem, net, current, posted, handled, sends⟩ := s
  subst hpc hsq hcq
  have hposts := h.silent (hfree.post (k := k)) rfl (by rw [step, hq])
  have hpeek := hposts.silent hfree.program rfl rfl
  have hone : min srv.batch 1 = 1 := Nat.min_eq_right hfree.batch
  simp only [St.peekBatch, List.nil_append, List.length_singleton, hone] at hpeek
  obtain ⟨t, ht⟩ := Option.isSome_iff_exists.1
    (hfree.room (s := ⟨entries, [], inflight, done.eraseIdx k, [q], .batch 1 1, mem, net, q.got,
      posted ++ [q], handled, sends⟩) (q := q) hentries)
  have hhandle := hpeek.cons hfree.program ht
  cases srv.handle_eq htag ht
  have hrelease := hhandle.silent hfree.program rfl rfl
  exact hrelease.silent hfree.program rfl rfl

/-- **An operation is served.** -/
theorem Reaches.serve (h : Reaches srv ok s₀ s logs) (hfree : Free srv ok) (hs : Resting s)
    (hok : ok s (.exec k o)) (he : s.inflight[k]? = some e)
    (hp : perform s.net s.mem e o = some p) (htag : e.userData = srv.tag e.key)
    (hkept : closing e.key p.cqe.res = none) :
    ∃ t, Reaches srv ok s₀ t (record logs (Move.event s.board (.exec e o))) ∧ Resting t ∧
      t.net.toFdTable = p.net.toFdTable ∧ t.mem = (srv.effect p.mem p.cqe).mem := by
  have hsqe : p.cqe.sqe = e := perform_sqe hp
  have hq : (s.executed k p).done[s.done.length]? = some p.cqe := by
    simp [St.executed]
  have htag' : p.cqe.userData = srv.tag p.cqe.sqe.key := by
    rw [Cqe.userData, hsqe]
    exact htag
  have hclose : (srv.effect p.mem p.cqe).close = none := by
    rw [srv.close_eq htag', hsqe]
    exact hkept
  have hfinish := (h.exec hok he hp).finish hfree hs.toWaits.executed hq htag'
  have hevent : Move.event (s.executed k p).board (.handle p.cqe) = none := by
    rw [Move.event, hsqe, hkept]
    rfl
  rw [hevent, record_none] at hfinish
  refine ⟨_, hfinish, ⟨⟨hs.pc, hs.sq, hs.cq, hs.room⟩, ?_⟩, ?_, rfl⟩
  · have herase : (s.done ++ [p.cqe]).eraseIdx s.done.length = s.done := by
      rw [List.eraseIdx_append_of_length_le le_rfl, Nat.sub_self, List.eraseIdx_cons_zero,
        List.append_nil]
    show ∀ q ∈ (s.done ++ [p.cqe]).eraseIdx s.done.length, _
    rw [herase]
    exact hs.done
  · show ((srv.effect p.mem p.cqe).close.elim p.net p.net.close).toFdTable = _
    rw [hclose]
    rfl

/-! ## The service takes place -/

variable {Allowed : List (List Byte) → List Byte → Prop} {limit : Nat} {listenfd : Int}
  {seats : Set Int} {Ready : μ → Prop} {v : Service Byte}

/-- What a server has to do for whatever the service may come to. Its memory is `Ready` from the
moment it has handled a request. -/
structure Realises (srv : Server μ α υ) (ok : St μ α υ → Act → Prop) (s₀ : St μ α υ)
    (Allowed : List (List Byte) → List Byte → Prop) (limit : Nat) (listenfd : Int)
    (seats : Set Int) (Ready : μ → Prop) : Prop
    extends Conducts srv ok s₀ Allowed limit listenfd seats, Free srv ok where
  started : ∃ entries mem e, s₀ = { St.queueInit entries mem with sq := [e] } ∧ 2 ≤ entries
  seated : ∀ {s k fd}, fd ∈ seats → 0 ≤ fd ∧ fd ≠ listenfd ∧ ok s (.exec k (.accepted fd))
  ready : ∀ {m} {q : Cqe α υ}, q.sqe.opcode = .recv → 0 < q.res → Ready (srv.effect m q).mem
  ready_effect : ∀ {m} {q : Cqe α υ}, Ready m → Ready (srv.effect m q).mem
  ready_end : ∀ {m addr}, Ready m → Ready (Memory.write m addr [])
  allowed : ∀ {s k e o p}, s.inflight[k]? = some e → perform s.net s.mem e o = some p →
    e.opcode ≠ .accept → (∀ n, o ≠ .sent n) → ok s (.exec k o)
  send : ∀ {as s e reqs bytes}, Run (step srv.batch srv.handle) ok s₀ as s →
    .waiting e ∈ s.board.tokens → e.opcode = .send → e.cause.map Delivery.bytes = reqs.head? →
    Ready s.mem → Allowed reqs bytes →
    ∃ n ≤ e.len, (Memory.read s.mem e.addr e.len).take n = bytes ∧
      ∀ k, s.inflight[k]? = some e → ok s (.exec k (.sent n))

/-- The server is at rest, and `v` is what is seen. -/
structure Shows (srv : Server μ α υ) (ok : St μ α υ → Act → Prop) (s₀ : St μ α υ)
    (Allowed : List (List Byte) → List Byte → Prop) (Ready : μ → Prop) (v : Service Byte)
    (s : St μ α υ) : Prop where
  reaches : Reaches srv ok s₀ s v.logs
  resting : Resting s
  count : s.net.count = v.count
  ready : ∀ c, Session Allowed (v.logs c) .owing → Ready s.mem

/-- The next state at rest, after something happened to one client. -/
theorem Shows.next {event : Event Byte} {stage : Stage} (h : Shows srv ok s₀ Allowed Ready v s)
    (hsession : Session Allowed (event :: v.logs c) stage)
    (hreaches : Reaches srv ok s₀ t (record v.logs (some (c, event)))) (hrest : Resting t)
    (hcount : t.net.count = s.net.count) (hkept : Ready s.mem → Ready t.mem)
    (howing : stage = .owing → Ready t.mem) :
    Shows srv ok s₀ Allowed Ready (v.said c event) t where
  reaches := hreaches
  resting := hrest
  count := hcount.trans h.count
  ready k hk := by
    by_cases hkc : k = c
    · subst hkc
      rw [Service.said_logs_self] at hk
      exact howing (hsession.unique hk)
    · rw [Service.said_logs_of_ne hkc] at hk
      exact hkept (h.ready k hk)

namespace Realises

variable (hr : Realises srv ok s₀ Allowed limit listenfd seats Ready)
include hr

theorem talks_of_shows (h : Shows srv ok s₀ Allowed Ready v s) :
    Talks Allowed s.board v.logs := by
  obtain ⟨as, hrun, hlogs⟩ := h.reaches
  exact hlogs ▸ hr.talks hrun

theorem fitting_of_shows (h : Shows srv ok s₀ Allowed Ready v s) :
    Fitting srv limit listenfd seats s := by
  obtain ⟨as, hrun, -⟩ := h.reaches
  exact hr.fitting hrun

theorem tag_of_shows (h : Shows srv ok s₀ Allowed Ready v s) (he : s.inflight[k]? = some e) :
    e.userData = srv.tag e.key :=
  (hr.fitting_of_shows h).sound.tagged (.waiting e) (waiting_mem he)

/-- Nothing has happened yet. -/
theorem started_shows : ∃ s, Shows srv ok s₀ Allowed Ready .start s := by
  obtain ⟨entries, mem, e, rfl, hentries⟩ := hr.started
  have hstart : Reaches srv ok _ { St.queueInit entries mem with sq := [e] } fun _ => [] :=
    ⟨[], .nil, rfl⟩
  have hsubmit := hstart.silent hr.program rfl rfl
  exact ⟨_, hsubmit, ⟨⟨rfl, rfl, rfl, hentries⟩, fun _ hq => by cases hq⟩, rfl,
    fun _ h => by cases h⟩

/-- A client connects. -/
theorem connected_shows (h : Shows srv ok s₀ Allowed Ready v s)
    (hroom : (v.opened.card : ℕ∞) < seats.encard) :
    ∃ t, Shows srv ok s₀ Allowed Ready v.connected t := by
  have hfit := hr.fitting_of_shows h
  obtain ⟨as, hrun, hlogs⟩ := h.reaches
  have hview : view srv s₀ as s = v := Service.ext h.count hlogs
  obtain ⟨fd, hseat, hfree⟩ := (hr.room_iff hrun).1 (hview ▸ hroom)
  obtain ⟨k, e, he, hop⟩ := h.resting.exists_accept hfit.sound.accepts
  obtain ⟨h0, hne, hok⟩ := hr.seated (s := s) (k := k) hseat
  have hlisten : e.fd = listenfd := hfit.seated.accept e (waiting_mem he) hop
  have hp : perform s.net s.mem e (.accepted fd) =
      some ⟨s.net.accept fd, s.mem, ⟨e, fd, some ⟨s.net.count, []⟩⟩, none⟩ :=
    if_pos ⟨hop, h0, hlisten ▸ hne, hfree⟩
  obtain ⟨t, ht, hrest, hfds, hmem⟩ := h.reaches.serve hr.toFree h.resting hok he hp
    (hr.tag_of_shows h he) (by rw [Sqe.key, hop]; rfl)
  have hevent : Move.event s.board (.exec e (.accepted fd)) = some (v.count, .accepted) := by
    rw [← h.count]
    rfl
  rw [hevent] at ht
  refine ⟨t, ht, hrest, ?_, fun c hc => ?_⟩
  · rw [hfds]
    exact congrArg (· + 1) h.count
  · have hready : Ready s.mem := by
      by_cases hcv : c = v.count
      · subst hcv
        rw [Service.connected_logs_self] at hc
        generalize v.logs v.count = log at hc
        cases hc
      · rw [Service.connected_logs_of_ne hcv] at hc
        exact h.ready c hc
    exact hmem ▸ hr.ready_effect hready

/-- A request is received. -/
theorem received_shows {chunk : List Byte} (h : Shows srv ok s₀ Allowed Ready v s)
    (hidle : Session Allowed (v.logs c) .idle) (hne : chunk ≠ []) (hlen : chunk.length ≤ limit) :
    ∃ t, Shows srv ok s₀ Allowed Ready (v.said c (.received chunk)) t := by
  have hfit := hr.fitting_of_shows h
  obtain ⟨k, e, he, hown, hop⟩ := h.resting.exists_recv (hr.talks_of_shows h) hidle
  have hfits : chunk.length ≤ e.len := hlen.trans (hfit.sized e (waiting_mem he) hop).ge
  have hp : perform s.net s.mem e (.received chunk) =
      some ⟨s.net.receive c chunk, Memory.write s.mem e.addr chunk,
        ⟨e, chunk.length, some ⟨c, chunk⟩⟩, none⟩ := by
    simp only [perform, hown, if_pos (And.intro hop hfits)]
  have hpos : (0 : Int) < chunk.length := by
    have := List.length_pos_of_ne_nil hne
    omega
  have hok := hr.allowed he hp (by rw [hop]; decide) (by intro n h; cases h)
  obtain ⟨t, ht, hrest, hfds, hmem⟩ := h.reaches.serve hr.toFree h.resting hok he hp
    (hr.tag_of_shows h he) (by simp [Sqe.key, hop, closing, hne])
  have hevent : Move.event s.board (.exec e (.received chunk)) = some (c, .received chunk) := by
    rw [Move.event]
    simp only [St.board, hown]
    rfl
  rw [hevent] at ht
  have hready : Ready t.mem := hmem ▸ hr.ready hop hpos
  exact ⟨t, h.next (.received hidle hne) ht hrest (congrArg FdTable.count hfds)
    (fun _ => hready) fun _ => hready⟩

/-- An answer is sent. -/
theorem sent_shows {bytes : List Byte} (h : Shows srv ok s₀ Allowed Ready v s)
    (howing : Session Allowed (v.logs c) .owing) (hbytes : Allowed (requests (v.logs c)) bytes) :
    ∃ t, Shows srv ok s₀ Allowed Ready (v.said c (.sent bytes)) t := by
  obtain ⟨k, e, he, hown, hop, hcause⟩ := h.resting.exists_send (hr.talks_of_shows h) howing
  obtain ⟨as, hrun, -⟩ := h.reaches
  obtain ⟨n, hn, rfl, hok⟩ := hr.send hrun (waiting_mem he) hop hcause (h.ready c howing) hbytes
  have hp : perform s.net s.mem e (.sent n) =
      some ⟨s.net.transmit c ((Memory.read s.mem e.addr e.len).take n), s.mem,
        ⟨e, n, some ⟨c, (Memory.read s.mem e.addr e.len).take n⟩⟩, some ⟨e, c, s.mem, n⟩⟩ := by
    simp only [perform, hown, if_pos (And.intro hop hn)]
  obtain ⟨t, ht, hrest, hfds, hmem⟩ := h.reaches.serve hr.toFree h.resting (hok k he) he hp
    (hr.tag_of_shows h he) (by simp [Sqe.key, hop, closing])
  have hevent : Move.event s.board (.exec e (.sent n)) =
      some (c, .sent ((Memory.read s.mem e.addr e.len).take n)) := by
    rw [Move.event]
    simp only [St.board, hown]
    rfl
  rw [hevent] at ht
  exact ⟨t, h.next (.sent howing hbytes) ht hrest (congrArg FdTable.count hfds)
    (fun hready => hmem ▸ hr.ready_effect hready) fun heq => by cases heq⟩

/-- An operation of a client fails. -/
theorem failed_shows {event : Event Byte} {stage : Stage} (h : Shows srv ok s₀ Allowed Ready v s)
    (he : s.inflight[k]? = some e) (hop : e.opcode ≠ .accept)
    (hevent : Move.event s.board (.exec e (.fail 0)) = some (c, event))
    (hsession : Session Allowed (event :: v.logs c) stage) (hstage : stage ≠ .owing) :
    ∃ t, Shows srv ok s₀ Allowed Ready (v.said c event) t := by
  have hok := hr.allowed (o := .fail 0) he rfl hop (by intro n h; cases h)
  have hkept : closing e.key (-((0 : Nat) + 1)) = none := by
    cases hop' : e.opcode <;> simp [Sqe.key, hop', closing]
  obtain ⟨t, ht, hrest, hfds, hmem⟩ := h.reaches.serve hr.toFree h.resting hok he rfl
    (hr.tag_of_shows h he) hkept
  rw [hevent] at ht
  exact ⟨t, h.next hsession ht hrest (congrArg FdTable.count hfds)
    (fun hready => hmem ▸ hr.ready_effect hready) fun heq => absurd heq hstage⟩

/-- The client hangs up. The server has not heard of it. -/
theorem ended_shows (h : Shows srv ok s₀ Allowed Ready v s)
    (hidle : Session Allowed (v.logs c) .idle) :
    ∃ t, Shows srv ok s₀ Allowed Ready (v.said c (.received [])) t := by
  obtain ⟨k, e, he, hown, hop⟩ := h.resting.exists_recv (hr.talks_of_shows h) hidle
  have hp : perform s.net s.mem e (.received []) =
      some ⟨s.net.receive c [], Memory.write s.mem e.addr [], ⟨e, 0, some ⟨c, []⟩⟩, none⟩ := by
    simp only [perform, hown, if_pos (show e.opcode = .recv ∧ [].length ≤ e.len from
      ⟨hop, Nat.zero_le _⟩)]
    rfl
  have hok := hr.allowed he hp (by rw [hop]; decide) (by intro n h; cases h)
  have hevent : Move.event s.board (.exec e (.received [])) = some (c, .received []) := by
    rw [Move.event]
    simp only [St.board, hown]
    rfl
  have ht := h.reaches.exec hok he hp
  rw [hevent] at ht
  have hrest : Resting (s.executed k ⟨s.net.receive c [], Memory.write s.mem e.addr [],
      ⟨e, 0, some ⟨c, []⟩⟩, none⟩) := by
    refine ⟨h.resting.toWaits.executed, fun q hq => ?_⟩
    rcases List.mem_append.1 hq with hq | hq
    · exact h.resting.done q hq
    · cases List.mem_singleton.1 hq
      exact ⟨hop, rfl⟩
  exact ⟨_, h.next (.ended hidle) ht hrest rfl hr.ready_end fun heq => by cases heq⟩

/-- The server closes the connection. -/
theorem closed_shows (h : Shows srv ok s₀ Allowed Ready v s)
    (hended : Session Allowed (v.logs c) .ended) :
    ∃ t, Shows srv ok s₀ Allowed Ready (v.said c .closed) t := by
  obtain ⟨k, q, hq, hown, hop, hres⟩ := h.resting.exists_done (hr.talks_of_shows h) hended
  have htag : q.userData = srv.tag q.sqe.key :=
    (hr.fitting_of_shows h).sound.tagged (.ready q) (ready_mem hq)
  have ht := h.reaches.finish hr.toFree h.resting.toWaits hq htag
  have hevent : Move.event s.board (.handle q) = some (c, .closed) := by
    rw [Move.event, Sqe.key, hop, hres]
    simp only [closing, if_true, Option.bind_some, St.board, hown]
    rfl
  rw [hevent] at ht
  have hcount : (s.finished srv k q).net.count = s.net.count := by
    show ((srv.effect s.mem q).close.elim s.net s.net.close).count = _
    cases (srv.effect s.mem q).close <;> rfl
  exact ⟨_, h.next (.closed hended) ht h.resting.finished hcount hr.ready_effect
    fun heq => by cases heq⟩

/-- **Whatever the service may come to is seen of a run**, by induction on the service. -/
theorem shows (h : Service.Reachable (rules Allowed limit seats) v) :
    ∃ s, Shows srv ok s₀ Allowed Ready v s := by
  induction h with
  | start => exact hr.started_shows
  | connected _ hroom ih =>
    obtain ⟨s, hs⟩ := ih
    exact hr.connected_shows hs hroom
  | @said v c event stage hv hc hadmits ih =>
    obtain ⟨s, hs⟩ := ih
    obtain ⟨hsession, hfits, -⟩ := hadmits
    obtain ⟨_, hbefore⟩ := hv.admits c hc
    generalize hlog : v.logs c = log at hsession hfits hbefore
    cases hsession with
    | accepted => cases hbefore.session
    | received hidle hne =>
      rw [requests_received hne] at hfits
      exact hr.received_shows hs (hlog ▸ hidle) hne (hfits _ List.mem_cons_self)
    | sent howing hbytes => exact hr.sent_shows hs (hlog ▸ howing) (hlog ▸ hbytes)
    | unsent howing =>
      subst hlog
      obtain ⟨k, e, he, hown, hop, -⟩ := hs.resting.exists_send (hr.talks_of_shows hs) howing
      refine hr.failed_shows hs he (by rw [hop]; decide) ?_ (.unsent howing) (by decide)
      rw [Move.event, hop]
      simp only [St.board, hown]
      rfl
    | ended hidle => exact hr.ended_shows hs (hlog ▸ hidle)
    | closed hended => exact hr.closed_shows hs (hlog ▸ hended)
    | failed hidle =>
      subst hlog
      obtain ⟨k, e, he, hown, hop⟩ := hs.resting.exists_recv (hr.talks_of_shows hs) hidle
      refine hr.failed_shows hs he (by rw [hop]; decide) ?_ (.failed hidle) (by decide)
      rw [Move.event, hop]
      simp only [St.board, hown]
      rfl

/-- **The server implements the service.** -/
theorem implements : Implements (step srv.batch srv.handle) ok s₀ (view srv s₀)
    (rules Allowed limit seats) fun _ => True := by
  intro v
  constructor
  · rintro ⟨as, s, hrun, rfl⟩
    have hreachable := hr.reachable hrun
    exact ⟨hreachable, fun c hc => (hreachable.admits c hc).imp fun _ h => ⟨h, trivial⟩⟩
  · rintro ⟨hv, -⟩
    obtain ⟨s, hs⟩ := hr.shows hv
    obtain ⟨as, hrun, hlogs⟩ := hs.reaches
    exact ⟨as, s, hrun, Service.ext hs.count hlogs⟩

end Realises

end NetDesign.Uring
