import NetDesign.Uring.Realised
import NetDesign.IoUring.Session
import NetDesign.IoUring.Lockstep

/-!
# The services of the two `io_uring` servers

What the clients see together is within the rules of a service, and what the rules allow takes
place in a run, so the rules say exactly what the clients can see.

* `Proactor.partial_echo_service` — the answers are any parts of the requests, from their start.
* `CIoUring.response_service` — they are any parts of the response.
-/

namespace NetDesign

open Uring

theorem Plan.recv_len {μ α : Type*} {p : Plan μ α} {m : μ} {q : Cqe α ConnInfo}
    {e : Sqe α ConnInfo} (he : .waiting e ∈ (p.effect m q).tokens q) (hop : e.opcode = .recv) :
    e.len = p.recvLen := by
  rcases Plan.mem_tokens he with ⟨-, h | h⟩ | ⟨-, -, h⟩ | ⟨-, h⟩
  all_goals cases h
  · cases hop
  · rfl
  · cases hop
  · rfl

/-- A part of what is sent, from its start, is sent if the kernel takes so many bytes. -/
theorem exists_take {bytes all : List Byte} (h : bytes <+: all) :
    ∃ n ≤ all.length, all.take n = bytes :=
  ⟨bytes.length, h.length_le, (List.prefix_iff_eq_take.1 h).symm⟩

namespace Proactor

variable {listenfd : Int} {table : Int → ConnItem} {s₀ : State}

/-- The descriptors a client may have: those with an entry in `connect_list`. -/
def seats (listenfd : Int) : Set Int := {fd | 0 ≤ fd ∧ fd < maxConnect ∧ fd ≠ listenfd}

theorem seats_nonempty : (seats listenfd).Nonempty := by
  by_cases hzero : listenfd = 0
  · exact ⟨1, by decide, by decide, by omega⟩
  · exact ⟨0, by decide, by decide, Ne.symm hzero⟩

/-- Whatever is asked of the sends alone, `proactor` realises what can be sent so. -/
theorem realises {Allowed : List (List Byte) → List Byte → Prop} {ok : State → Act → Prop}
    (hinit : init listenfd table = some s₀) (htable : ∀ {s a}, ok s a → AcceptsInTable s a)
    (hallowed : ∀ {s a logs}, Owned s.board → ok s a → AnswersAllowed Allowed s a logs)
    (hok : ∀ {s a}, AcceptsInTable s a → (∀ e n, s.move a ≠ some (.exec e (.sent n))) → ok s a)
    (hsend : ∀ {s : State} {e reqs bytes}, e.len = (Session.newest reqs).length →
      Memory.read s.mem e.addr e.len = Session.newest reqs → Allowed reqs bytes →
      ∃ n ≤ e.len, (Memory.read s.mem e.addr e.len).take n = bytes ∧
        ∀ k, s.inflight[k]? = some e → ok s (.exec k (.sent n))) :
    Realises server ok s₀ Allowed bufferLength listenfd (seats listenfd) fun _ => True where
  keeps := keepsListenfd
  recv_len _ _ _ := Plan.recv_len
  start := by
    cases init_eq hinit
    exact .start rfl rfl rfl rfl
  net := by
    cases init_eq hinit
    rfl
  seat h h0 hne := ⟨h0, htable h, hne⟩
  talks h := talks hinit htable hallowed h
  batch := by decide
  room := handle_isSome
  program := hok trivial fun _ _ => St.move_program_ne
  post := hok trivial fun _ _ h => by cases h
  started := ⟨_, _, _, init_eq hinit, by decide⟩
  seated := by
    intro s k fd hseat
    obtain ⟨h0, hlt, hne⟩ := hseat
    refine ⟨h0, hne, hok hlt fun e n hmove => ?_⟩
    obtain ⟨e, -, heq⟩ := Option.map_eq_some_iff.1 hmove
    cases heq
  ready _ _ := trivial
  ready_effect _ := trivial
  ready_end _ := trivial
  allowed := by
    intro s k e o p he hp hop hsent
    refine hok ?_ fun e' n hmove => ?_
    · rcases perform_cases hp with ⟨errno, rfl, -⟩ | ⟨fd, -, haccept, -⟩ | ⟨bytes, c, rfl, -⟩ |
        ⟨n, c, rfl, -⟩
      · show s.inflight[k]?.map Sqe.opcode ≠ some .accept
        rw [he]
        simpa using hop
      · exact absurd haccept hop
      · trivial
      · trivial
    · rw [St.move, he] at hmove
      cases hmove
      exact absurd rfl (hsent n)
  send := by
    intro as s e reqs bytes h he hop hcause _ hbytes
    have howned := (h.invariant ⟨init_sound hinit, isolated_init hinit⟩
      fun hs hok hstep => isolated_step hs (htable hok) hstep).2.owned
    obtain ⟨hlen, hread⟩ := read_owned howned he hop hcause
    exact hsend hlen hread hbytes

/-- Accepted descriptors are in the table, and no `send` is short, though one may fail. -/
def SendsWhole (s : State) (a : Act) : Prop := AcceptsInTable s a ∧ ∀ m ∈ s.move a, m.Full

instance {s : State} {a : Act} : Decidable (SendsWhole s a) :=
  inferInstanceAs (Decidable (_ ∧ ∀ m ∈ s.move a, m.Full))

/-- The service whose answers are the requests in full, or fail. -/
theorem full_service (hinit : init listenfd table = some s₀) :
    Implements run SendsWhole s₀ (view server s₀)
      (rules Session.FullEcho bufferLength (seats listenfd)) fun _ => True := by
  have hrealises : Realises server SendsWhole s₀ Session.FullEcho bufferLength listenfd
      (seats listenfd) fun _ => True := by
    refine realises hinit And.left (fun howned hok => answersAllowed_full howned hok.2) ?_ ?_
    · intro s a htable hsent
      refine ⟨htable, fun m hm => ?_⟩
      cases m with
      | handle => trivial
      | exec e o =>
        cases o with
        | sent n => exact absurd hm (hsent e n)
        | _ => trivial
    · intro s e reqs bytes hlen hread hecho
      refine ⟨e.len, le_rfl, ?_, fun k he => ⟨trivial, fun m hm => ?_⟩⟩
      · rw [hread, hlen, List.take_length]
        exact hecho.symm
      · rw [St.move, he] at hm
        cases hm
        rfl
  exact hrealises.implements

end Proactor

namespace CIoUring

variable {sockfd : Int} {stack : Cells Byte} {s₀ : State}

/-- The descriptors a client may have. -/
def seats (sockfd : Int) : Set Int := {fd | 0 ≤ fd ∧ fd ≠ sockfd}

/-- There is always another one. -/
theorem encard_seats : (seats sockfd).encard = ⊤ := by
  have hinj : Function.Injective fun k : Nat => (k + sockfd.natAbs + 1 : Int) := fun _ _ h => by
    simpa using h
  refine (Set.infinite_of_injective_forall_mem hinj fun k => ?_).encard_eq
  exact ⟨by omega, by omega⟩

theorem sendsFormatted {s : State} {a : Act}
    (h : ∀ e n, s.move a = some (.exec e (.sent n)) → s.mem.formatted = true) :
    SendsFormatted s a := by
  intro m hm
  cases m with
  | handle => trivial
  | exec e o =>
    cases o with
    | sent n => exact h e n hm
    | _ => trivial

theorem realises (hinit : init sockfd stack = some s₀) :
    Realises server SendsFormatted s₀ (fun _ bytes => bytes <+: response) bufferLength sockfd
      (seats sockfd) fun m => m.formatted = true where
  keeps := keepsListenfd
  recv_len _ _ _ := Plan.recv_len
  start := by
    cases init_eq hinit
    exact .start rfl rfl rfl rfl
  net := by
    cases init_eq hinit
    rfl
  seat _ h0 hne := ⟨h0, hne⟩
  talks h := talks hinit answersAllowed_prefix h
  batch := by decide
  room := handle_isSome
  program := sendsFormatted fun _ _ h => absurd h St.move_program_ne
  post := sendsFormatted fun _ _ h => by cases h
  started := ⟨_, _, _, init_eq hinit, by decide⟩
  seated := by
    intro s k fd hseat
    refine ⟨hseat.1, hseat.2, sendsFormatted fun e n hmove => ?_⟩
    obtain ⟨e, -, heq⟩ := Option.map_eq_some_iff.1 hmove
    cases heq
  ready := by
    intro m q hop hres
    show (plan.effect m q).mem.formatted = true
    rw [Plan.effect_recv hop, Plan.readEffect]
    simp only [if_pos hres]
    rfl
  ready_effect := by
    intro m q hready
    show (plan.effect m q).mem.formatted = true
    cases hop : q.sqe.opcode with
    | accept =>
      rw [Plan.effect_accept hop]
      exact hready
    | recv =>
      rw [Plan.effect_recv hop, Plan.readEffect]
      by_cases hres : 0 < q.res
      · simp only [if_pos hres]
        rfl
      · simp only [if_neg hres]
        exact hready
    | send =>
      rw [Plan.effect_send hop]
      exact hready
  ready_end := by
    intro m addr hready
    cases addr with
    | buffer => exact (Bool.and_true _).trans hready
    | _ => exact hready
  allowed := by
    intro s k e o p he _ _ hsent
    refine sendsFormatted fun e' n hmove => ?_
    rw [St.move, he] at hmove
    cases hmove
    exact absurd rfl (hsent n)
  send := by
    intro as s e reqs bytes h he hop _ hready hprefix
    have hanswers := (h.invariant ⟨init_sound hinit, answers_init hinit⟩
      fun hs _ hstep => answers_step hs hstep).2
    obtain ⟨hlen, hread⟩ := read_send hanswers he hop
    rw [hread hready, hlen]
    obtain ⟨n, hn, htake⟩ := exists_take hprefix
    exact ⟨n, hn, htake, fun _ _ => sendsFormatted fun _ _ _ => hready⟩

/-- **The service of `main`.** In the runs in which no `recv` has stored into the buffer since the
response was formatted, whenever a `send` is executed, any number of clients have any sessions,
independently of each other, whose requests fit the buffer and whose answers are parts of the
response, from its start. Nothing else is seen of such a run. -/
theorem response_service (hinit : init sockfd stack = some s₀) (n : Nat)
    (logs : Nat → List (Event Byte)) :
    (∃ as s, Run main SendsFormatted s₀ as s ∧ s.net.count = n ∧
        history main St.event s₀ as = logs) ↔
      (∀ c < n, (∃ p, Session (fun _ bytes => bytes <+: response) (logs c) p) ∧
        ∀ chunk ∈ requests (logs c), chunk.length ≤ bufferLength) ∧
      ∀ c, n ≤ c → logs c = [] := by
  have hroom : ∀ k : Nat, (k : ℕ∞) < (seats sockfd).encard := fun k =>
    encard_seats ▸ ENat.natCast_lt_top k
  have hexhibits := (realises hinit).implements.exhibits_iff (v := ⟨n, logs⟩)
  refine ⟨?_, ?_⟩
  · rintro ⟨as, s, hrun, rfl, rfl⟩
    obtain ⟨hclients, hfresh⟩ := hexhibits.1 ⟨as, s, hrun, rfl⟩
    refine ⟨fun c hc => ?_, hfresh⟩
    obtain ⟨⟨p, ⟨hsession, hfits, -⟩, -⟩, -⟩ := hclients c hc
    exact ⟨⟨p, hsession⟩, hfits⟩
  · rintro ⟨hsessions, hfresh⟩
    obtain ⟨as, s, hrun, heq⟩ := hexhibits.2 ⟨fun c hc => by
      obtain ⟨⟨p, hsession⟩, hfits⟩ := hsessions c hc
      exact ⟨⟨p, ⟨hsession, hfits, fun _ => trivial⟩, trivial⟩, hroom _⟩, hfresh⟩
    cases heq
    exact ⟨as, s, hrun, rfl, rfl⟩

/-- Two clients, of which the second is not answered. -/
theorem response_service_two :
    ∃ s₀, init 3 (fun _ => 0) = some s₀ ∧ ∃ as s, Run main SendsFormatted s₀ as s ∧
      s.net.count = 2 ∧ history main St.event s₀ as = fun
        | 0 => [.sent (response.take 7), .received (ascii "G"), .sent response,
            .received (ascii "G"), .accepted]
        | 1 => [.received (ascii "G"), .accepted]
        | _ => [] := by
  obtain ⟨s₀, hinit⟩ : ∃ s₀, init 3 (fun _ => 0) = some s₀ := ⟨_, rfl⟩
  have hne : ascii "G" ≠ [] := by decide
  refine ⟨s₀, hinit, (response_service hinit 2 _).2 ⟨fun c hc => ?_, fun c hc => ?_⟩⟩
  · match c, hc with
    | 0, _ =>
      refine ⟨⟨.idle, ?_⟩, by decide⟩
      exact .sent (.received (.sent (.received .accepted hne) List.prefix_rfl) hne)
        (List.take_prefix _ _)
    | 1, _ => exact ⟨⟨.owing, .received .accepted hne⟩, by decide⟩
  · match c, hc with
    | c + 2, _ => rfl

end CIoUring

end NetDesign
