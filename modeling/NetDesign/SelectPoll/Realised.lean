import NetDesign.SelectPoll.Service

/-!
# The sessions of the readiness loops take place

The two loops implement the echo service, and a client of the service may have every session in
which no answer is due at the end. So the loops hold exactly these.

* `Held.complete` — in what is held no answer is due.
* `ImplementsEcho.held` — it takes place.
* `readiness_sessions_exact` — what happens on a connection of either server.
-/

namespace NetDesign.SelectPoll

/-! ## What is received fits the buffer -/

theorem Blocks.recv_length {calls : List Call} {fd : Int} {k : Option Nat} {bytes : List Byte}
    (h : Blocks calls) (hmem : .recv fd k (some bytes) ∈ calls) : bytes.length ≤ bufferLength := by
  induction h with
  | nil => cases hmem
  | accept _ ih | failed _ ih => exact ih (by simpa using hmem)
  | left _ ih =>
    simp only [List.mem_cons, reduceCtorEq, false_or, Call.recv.injEq, Option.some.injEq] at hmem
    rcases hmem with ⟨-, -, rfl⟩ | hmem
    · exact Nat.zero_le _
    · exact ih hmem
  | echoed hread _ hlen _ ih =>
    simp only [List.mem_cons, reduceCtorEq, false_or, Call.recv.injEq, Option.some.injEq] at hmem
    rcases hmem with ⟨-, -, rfl⟩ | hmem
    · rw [← hread, Cells.length_read]
      exact hlen
    · exact ih hmem

/-- What is received on a connection is what a `recv` delivered. -/
theorem received_mem {calls : List Call} {c : Nat} {bytes : List Byte}
    (h : .received bytes ∈ connections calls c) : ∃ fd k, .recv fd k (some bytes) ∈ calls := by
  induction calls with
  | nil => cases h
  | cons call calls ih =>
    rcases mem_record.1 h with hevent | hold
    · cases call with
      | recv fd k res =>
        cases res with
        | none =>
          obtain ⟨k, -, heq⟩ := Option.map_eq_some_iff.1 hevent
          cases heq
        | some bytes' =>
          obtain ⟨k, -, heq⟩ := Option.map_eq_some_iff.1 hevent
          cases heq
          exact ⟨fd, _, List.mem_cons_self⟩
      | accept res =>
        rw [Call.event] at hevent
        split_ifs at hevent
        cases hevent
      | send fd k buf len ok =>
        obtain ⟨k, -, heq⟩ := Option.map_eq_some_iff.1 hevent
        split_ifs at heq
        all_goals cases heq
      | close fd =>
        obtain ⟨k, -, heq⟩ := Option.map_eq_some_iff.1 hevent
        cases heq
    · obtain ⟨fd, k, hmem⟩ := ih hold
      exact ⟨fd, k, List.mem_cons_of_mem _ hmem⟩

/-! ## The sessions -/

/-- A session in which nothing is due, and whose requests fit the buffer. -/
structure Complete (log : List (Event Byte)) : Prop where
  session : Session Session.FullEcho log .idle ∨ Session Session.FullEcho log .closed
  le : ∀ chunk ∈ requests log, chunk.length ≤ bufferLength

/-- It is what happens on a connection in some run in which no `recv` fails. -/
def Held {ω : Type*} (w : Watcher ω) (s₀ : State ω) (log : List (Event Byte)) : Prop :=
  ∃ envs s c, Run w.main (RecvsSucceed w) s₀ envs s ∧ c < s.fds.count ∧
    connections s.trace c = log

section

variable {log : List (Event Byte)}

theorem Held.complete {ω : Type*} {w : Watcher ω} {s₀ : State ω} (hle : s₀.sockfd ≤ s₀.mxfd)
    (hfds : s₀.fds = .initial) (htrace : s₀.trace = []) (h : Held w s₀ log) : Complete log := by
  obtain ⟨envs, s, c, hrun, hc, rfl⟩ := h
  obtain ⟨hidle, hclosed⟩ := Watcher.conducted hle hfds htrace hrun hc
  have hanswering : Answering s := hrun.invariant ⟨hle, htrace ▸ .nil⟩ fun hs _ hstep =>
    answering_step hs hstep
  refine ⟨?_, fun chunk hmem => ?_⟩
  · by_cases hown : ∃ fd, s.fds.owner fd = some c
    · exact .inl (hidle hown)
    · exact .inr (hclosed fun fd h => hown ⟨fd, h⟩)
  · obtain ⟨fd, k, hrecv⟩ := received_mem (mem_requests.1 hmem).1
    exact hanswering.blocks.recv_length hrecv

/-- The service has it. -/
theorem Complete.admits {table : Set Int} (h : Complete log) :
    ∃ p, (rules table).Admits log p ∧ Service.Quiet p := by
  rcases h.session with hidle | hclosed
  · exact ⟨.idle, ⟨hidle, h.le, fun h => by cases h⟩, .inl rfl⟩
  · exact ⟨.closed, ⟨hclosed, h.le, fun h => by cases h⟩, .inr rfl⟩

theorem ImplementsEcho.held {ω : Type*} {w : Watcher ω} {s₀ : State ω} {table : Set Int}
    (himp : ImplementsEcho w s₀ table) (hroom : table.Nonempty) (h : Complete log) :
    Held w s₀ log := by
  obtain ⟨envs, s, c, hrun, hc, hlog⟩ :=
    (himp.sessions (Set.encard_pos.2 hroom) log).2 h.admits
  exact ⟨envs, s, c, hrun.mono fun _ _ hok => hok.2, hc, hlog⟩

variable {s₀ : State Select.Sets} {p₀ : State Poll.Fds} {sockfd : Int} {others : Int → Bool}
  {rset : Select.FdSet} {fds : Poll.Fds}

theorem select_held_iff (hs : Select.init sockfd others rset = some s₀)
    (hfree : ∃ fd, sockfd < fd ∧ fd < tableSize ∧ others fd = false) :
    Held Select.watcher s₀ log ↔ Complete log := by
  obtain ⟨hle, htrace⟩ := Select.init_started hs
  have hfds : s₀.fds = .initial := by
    rw [Select.init] at hs
    split_ifs at hs
    cases hs
    rfl
  exact ⟨Held.complete hle hfds htrace, (select_implements hs).held hfree⟩

theorem poll_held_iff (hs : Select.init sockfd others rset = some s₀)
    (hp : Poll.init sockfd others fds = some p₀)
    (hzero : ∀ i : Int, 0 ≤ i → i < tableSize → fds i = ⟨0, 0, 0⟩)
    (hfree : ∃ fd, sockfd < fd ∧ fd < tableSize ∧ others fd = false) :
    Held Poll.watcher p₀ log ↔ Complete log := by
  obtain ⟨hle, htrace⟩ := Poll.init_started hp
  have hfds : p₀.fds = .initial := by
    rw [Poll.init] at hp
    split_ifs at hp
    cases hp
    rfl
  exact ⟨Held.complete hle hfds htrace,
    (poll_implements hs hp hzero).held hfree⟩

/-- **The sessions of the readiness loops.** What happens on a connection of either server, in
some run in which no `recv` fails, is exactly what is a session in which nothing is due, whose
requests fit the buffer, and whose answers are the requests in full unless their `send` fails. -/
theorem readiness_sessions_exact (hs : Select.init sockfd others rset = some s₀)
    (hp : Poll.init sockfd others fds = some p₀)
    (hzero : ∀ i : Int, 0 ≤ i → i < tableSize → fds i = ⟨0, 0, 0⟩)
    (hfree : ∃ fd, sockfd < fd ∧ fd < tableSize ∧ others fd = false) (log : List (Event Byte)) :
    (Held Select.watcher s₀ log ↔ Complete log) ∧ (Held Poll.watcher p₀ log ↔ Complete log) :=
  ⟨select_held_iff hs hfree, poll_held_iff hs hp hzero hfree⟩

/-- "hi" is not answered, "ho" is, and the client goes. -/
theorem readiness_sessions_exact_ho :
    ∃ s₀ p₀, Select.init 3 stdio (fun _ => true) = some s₀ ∧
      Poll.init 3 stdio Poll.zeroed = some p₀ ∧
      Held Select.watcher s₀ [.closed, .received [], .sent (ascii "ho"), .received (ascii "ho"),
        .unsent, .received (ascii "hi"), .accepted] ∧
      Held Poll.watcher p₀ [.closed, .received [], .sent (ascii "ho"), .received (ascii "ho"),
        .unsent, .received (ascii "hi"), .accepted] := by
  obtain ⟨s₀, hs⟩ : ∃ s₀, Select.init 3 stdio (fun _ => true) = some s₀ := ⟨_, rfl⟩
  obtain ⟨p₀, hp⟩ : ∃ p₀, Poll.init 3 stdio Poll.zeroed = some p₀ := ⟨_, rfl⟩
  have hexact := readiness_sessions_exact hs hp (fun _ _ _ => rfl) ⟨4, by decide⟩
  have hcomplete : Complete [.closed, .received [], .sent (ascii "ho"), .received (ascii "ho"),
      .unsent, .received (ascii "hi"), .accepted] := by
    have hhi : ascii "hi" ≠ [] := by decide
    have hho : ascii "ho" ≠ [] := by decide
    refine ⟨.inr (.closed (.ended (.sent (.received (.unsent (.received .accepted hhi)) hho) rfl))),
      ?_⟩
    decide
  exact ⟨s₀, p₀, hs, hp, (hexact _).1.2 hcomplete, (hexact _).2.2 hcomplete⟩

end

end NetDesign.SelectPoll
