import NetDesign.Http
import NetDesign.Uring.Session
import NetDesign.IoUring.Echo
import NetDesign.IoUring.Response

/-!
# The sessions of the two `io_uring` servers

Both servers hold one session on each connection, whatever happens on the others. `proactor`
answers with a part of the request, from its start; `main` of io_uring/c_io_uring.cc with a part
of the response, as long as no `recv` stores between the formatting and the `send`.

* `Proactor.echo_sessions` — and what follows for the streams, `Proactor.echo_subsequence` and
  `Proactor.echo_complete`.
* `CIoUring.response_sessions` — and what follows for their framing, `CIoUring.framed_stream`.
-/

namespace NetDesign

open Uring

namespace Proactor

variable {listenfd : Int} {table : Int → ConnItem} {s₀ s : State} {a : Act} {as : List Act}
  {c : Nat}

/-- What a `send` that waits finds in its buffer: the request it answers. -/
theorem read_owned {e : Sqe Ptr ConnInfo} {reqs : List (List Byte)} (howned : Owned s.board)
    (he : .waiting e ∈ s.board.tokens) (hop : e.opcode = .send)
    (hcause : e.cause.map Delivery.bytes = reqs.head?) :
    e.len = (Session.newest reqs).length ∧
      Memory.read s.mem e.addr e.len = Session.newest reqs := by
  obtain ⟨haddr, hsend⟩ := howned _ he
  obtain ⟨d, hd, hlen, ⟨-, hread⟩, -⟩ := hsend hop
  have hnewest : Session.newest reqs = d.bytes := by
    rw [Session.newest, List.headD_eq_head?_getD, ← hcause, hd]
    rfl
  rw [hnewest, haddr (by rw [hop]; decide), hlen]
  exact ⟨rfl, hread⟩

theorem answersAllowed {logs : Nat → List (Event Byte)} (howned : Owned s.board) :
    AnswersAllowed Session.Echo s a logs := by
  intro e n c _ he hop _ hcause
  rw [Session.Echo, (read_owned howned he hop hcause).2]
  exact List.take_prefix _ _

/-- Accepted descriptors are in the table, and no `send` fails or is short. -/
def SendsAll (s : State) (a : Act) : Prop :=
  AcceptsInTable s a ∧ ∀ m ∈ s.move a, m.Full ∧ m.Unfailing

instance {s : State} {a : Act} : Decidable (SendsAll s a) :=
  inferInstanceAs (Decidable (_ ∧ ∀ m ∈ s.move a, m.Full ∧ m.Unfailing))

theorem answersAllowed_full {logs : Nat → List (Event Byte)} (howned : Owned s.board)
    (hok : ∀ m ∈ s.move a, m.Full) : AnswersAllowed Session.FullEcho s a logs := by
  intro e n c hmove he hop _ hcause
  obtain ⟨hlen, hread⟩ := read_owned howned he hop hcause
  have hfull : n = e.len := hok _ hmove
  rw [Session.FullEcho, hread, hfull, hlen, List.take_length]

theorem talks {Allowed : List (List Byte) → List Byte → Prop} {ok : State → Act → Prop}
    (hinit : init listenfd table = some s₀) (htable : ∀ {s a}, ok s a → AcceptsInTable s a)
    (hallowed : ∀ {s a logs}, Owned s.board → ok s a → AnswersAllowed Allowed s a logs)
    (h : Run run ok s₀ as s) : Talks Allowed s.board (history run St.event s₀ as) := by
  refine talks_run server (fun s => Sound server Set.univ s ∧ Isolated s.board)
    ⟨init_sound hinit, isolated_init hinit⟩ ?_ (fun hs hok => isolated_step hs (htable hok))
    (fun hs => hs.1.mono (Set.subset_univ _)) (fun hs hok => hallowed hs.2.owned hok) h
  rw [init_eq hinit]
  rfl

theorem talks_echo (hinit : init listenfd table = some s₀)
    (h : Run run AcceptsInTable s₀ as s) :
    Talks Session.Echo s.board (history run St.event s₀ as) :=
  talks hinit id (fun howned _ => answersAllowed howned) h

/-- **`proactor` holds a session on each connection.** In every run whose accepts give descriptors
in the table, the calls on a connection are an accept, then requests and answers in turn, and a
`recv` that delivers nothing or fails is the last of them before the `close`. Each answer is a
part of the request before it, from its start. What is outstanding on the descriptor is what the
session calls for. -/
theorem echo_sessions (hinit : init listenfd table = some s₀)
    (h : Run run AcceptsInTable s₀ as s) (hc : c < s.net.count) :
    Attended Session.Echo s.board c (history run St.event s₀ as c) := by
  have hs : Sound server {fd | 0 ≤ fd} s := (sound_run hinit h).mono (Set.subset_univ _)
  exact (talks_echo hinit h).attended hs.balanced hs.owner_nonneg hc

/-- A client receives the start of what it sent. -/
theorem echo_sessions_hi :
    ∃ s₀ s, init 3 blankTable = some s₀ ∧
      exec run AcceptsInTable s₀ (accepting ++ echoing (ascii "hi") 1) = some s ∧
      s.net.tx 0 = ascii "h" ∧ 0 < s.net.count ∧ Attended Session.Echo s.board 0
        (history run St.event s₀ (accepting ++ echoing (ascii "hi") 1).reverse 0) := by
  have hdone : ((init 3 blankTable).bind fun s₀ =>
      exec run AcceptsInTable s₀ (accepting ++ echoing (ascii "hi") 1)).any
        (fun s => decide (s.net.tx 0 = ascii "h" ∧ 0 < s.net.count)) = true := by
    decide +kernel
  obtain ⟨s₀, s, hinit, hexec, htx, hc⟩ := exists_exec hdone
  exact ⟨s₀, s, hinit, hexec, htx, hc, echo_sessions hinit (Run.of_exec hexec) hc⟩

/-- **Nothing is invented, repeated or moved.** In every run whose accepts give descriptors in the
table, however short its sends and whichever fail, the bytes transmitted on a connection are a
subsequence of those received. -/
theorem echo_subsequence (hinit : init listenfd table = some s₀)
    (h : Run run AcceptsInTable s₀ as s) (c : Nat) : (s.net.tx c).Sublist (s.net.rx c) :=
  (talks_echo hinit h).echoed c

/-- A `send` takes one byte of three, and the next one none. -/
theorem echo_subsequence_short :
    ∃ s₀ s, init 3 blankTable = some s₀ ∧
      exec run AcceptsInTable s₀ (accepting ++ echoing (ascii "abc") 1 ++
        [.post 0, .program, .program, .program, .program] ++ echoing (ascii "d") 0) = some s ∧
      (s.net.tx 0 = ascii "a" ∧ s.net.rx 0 = ascii "abcd") ∧
      (s.net.tx 0).Sublist (s.net.rx 0) := by
  have hdone : ((init 3 blankTable).bind fun s₀ => exec run AcceptsInTable s₀
      (accepting ++ echoing (ascii "abc") 1 ++
        [.post 0, .program, .program, .program, .program] ++ echoing (ascii "d") 0)).any
        (fun s => decide (s.net.tx 0 = ascii "a" ∧ s.net.rx 0 = ascii "abcd")) = true := by
    decide +kernel
  obtain ⟨s₀, s, hinit, hexec, hbytes⟩ := exists_exec hdone
  exact ⟨s₀, s, hinit, hexec, hbytes, echo_subsequence hinit (Run.of_exec hexec) 0⟩

/-- **Nothing is lost.** In every run whose accepts give descriptors in the table, and in which no
`send` fails or is short, a connection was sent all it received, but for a request that is still
to be answered: the `recv` for it was executed and its completion not handled, or its `send` waits,
on the descriptor of the connection. So one that was closed was sent all. -/
theorem echo_complete (hinit : init listenfd table = some s₀) (h : Run run SendsAll s₀ as s)
    (hc : c < s.net.count) :
    s.net.rx c = s.net.tx c ∨
      ∃ fd, s.net.owner fd = some c ∧ ∃ x ∈ s.board.tokens, x.target = some fd ∧
        ∃ d, x.due = some d ∧ s.net.rx c = s.net.tx c ++ d.bytes :=
  (talks hinit And.left (fun howned hok => answersAllowed_full howned fun m hm => (hok.2 m hm).1)
    h).complete (unsent_not_mem (fun hok m hm => (hok.2 m hm).2) h c) hc

/-- After "hi", "you" is received and its completion not yet handled. -/
theorem echo_complete_hi :
    ∃ s₀ s, init 3 blankTable = some s₀ ∧
      exec run SendsAll s₀ (accepting ++ echoing (ascii "hi") 2 ++ rearming ++
        [.exec 1 (.received (ascii "you"))]) = some s ∧
      s.net.tx 0 = ascii "hi" ∧ (s.net.rx 0 = s.net.tx 0 ∨
        ∃ fd, s.net.owner fd = some 0 ∧ ∃ x ∈ s.board.tokens, x.target = some fd ∧
          ∃ d, x.due = some d ∧ s.net.rx 0 = s.net.tx 0 ++ d.bytes) := by
  have hdone : ((init 3 blankTable).bind fun s₀ => exec run SendsAll s₀
      (accepting ++ echoing (ascii "hi") 2 ++ rearming ++
        [.exec 1 (.received (ascii "you"))])).any
        (fun s => decide (s.net.tx 0 = ascii "hi" ∧ 0 < s.net.count)) = true := by
    decide +kernel
  obtain ⟨s₀, s, hinit, hexec, htx, hc⟩ := exists_exec hdone
  exact ⟨s₀, s, hinit, hexec, htx, echo_complete hinit (Run.of_exec hexec) hc⟩

end Proactor

namespace CIoUring

variable {sockfd : Int} {stack : Cells Byte} {s₀ s : State} {a : Act} {as : List Act} {c : Nat}

/-- What a `send` that waits finds in the buffer. -/
theorem read_send {e : Sqe Ptr ConnInfo} (hb : Answers s.board) (he : .waiting e ∈ s.board.tokens)
    (hop : e.opcode = .send) : e.len = response.length ∧
      (s.mem.formatted = true → Memory.read s.mem e.addr e.len = response) := by
  obtain ⟨haddr, hlen⟩ := hb.send e he hop
  refine ⟨hlen, fun hformatted => ?_⟩
  rw [haddr, hlen]
  exact (hb.clean hformatted).text

theorem answersAllowed_length {logs : Nat → List (Event Byte)} (hb : Answers s.board) :
    AnswersAllowed (fun _ bytes => bytes.length ≤ response.length) s a logs := by
  intro e n c _ he hop _ _
  obtain ⟨haddr, hlen⟩ := hb.send e he hop
  rw [haddr, hlen]
  refine (List.length_take_le' _ _).trans ?_
  exact Cells.length_read.le

theorem answersAllowed_prefix {logs : Nat → List (Event Byte)} (hb : Answers s.board)
    (hok : SendsFormatted s a) : AnswersAllowed (fun _ bytes => bytes <+: response) s a logs := by
  intro e n c hmove he hop _ _
  rw [(read_send hb he hop).2 (hok _ hmove)]
  exact List.take_prefix _ _

/-- A `send` that is executed finds the response in the buffer and takes all of it. -/
def SendsResponse (s : State) (a : Act) : Prop :=
  SendsFormatted s a ∧ ∀ m ∈ s.move a, m.Full

instance {s : State} {a : Act} : Decidable (SendsResponse s a) :=
  inferInstanceAs (Decidable (_ ∧ ∀ m ∈ s.move a, m.Full))

theorem answersAllowed_response {logs : Nat → List (Event Byte)} (hb : Answers s.board)
    (hok : SendsResponse s a) : AnswersAllowed (fun _ bytes => bytes = response) s a logs := by
  intro e n c hmove he hop _ _
  obtain ⟨hlen, hread⟩ := read_send hb he hop
  have hfull : n = e.len := hok.2 _ hmove
  rw [hread (hok.1 _ hmove), hfull, hlen, List.take_length]

theorem talks {Allowed : List (List Byte) → List Byte → Prop} {ok : State → Act → Prop}
    (hinit : init sockfd stack = some s₀)
    (hallowed : ∀ {s a logs}, Answers s.board → ok s a → AnswersAllowed Allowed s a logs)
    (h : Run main ok s₀ as s) : Talks Allowed s.board (history main St.event s₀ as) := by
  refine talks_run server (fun s => Sound server {fd | 0 ≤ fd} s ∧ Answers s.board)
    ⟨init_sound hinit, answers_init hinit⟩ ?_ (fun hs _ hstep => answers_step hs hstep)
    (fun hs => hs.1) (fun hs hok => hallowed hs.2 hok) h
  rw [init_eq hinit]
  rfl

/-- **`main` holds a session on each connection.** In every run, the calls on a connection are an
accept, then requests and answers in turn, and a `recv` that delivers nothing or fails is the
last of them before the `close`. The answers are at most as long as the response, and a part of
it, from its start, if every `send` that is executed finds the buffer as the response was
formatted into it, with no byte of a `recv` stored since. -/
theorem response_sessions (hinit : init sockfd stack = some s₀)
    (h : Run main (fun _ _ => True) s₀ as s) (hc : c < s.net.count) :
    Conducted (fun _ bytes => bytes.length ≤ response.length) s.net c
        (history main St.event s₀ as c) ∧
      (Run main SendsFormatted s₀ as s →
        Conducted (fun _ bytes => bytes <+: response) s.net c
          (history main St.event s₀ as c)) := by
  refine ⟨?_, fun h' => ?_⟩
  · exact (talks hinit (fun hb _ => answersAllowed_length hb) h).conducted hc
  · exact (talks hinit answersAllowed_prefix h').conducted hc

/-- A client is sent the first bytes of the response, while another one is connected. -/
theorem response_sessions_two :
    ∃ s₀ s, init 3 (fun _ => 0) = some s₀ ∧
      exec main SendsFormatted s₀ (twoClients ++ [.exec 2 (.sent 7)]) = some s ∧
      s.net.count = 2 ∧ (s.net.rx 0 = ascii "G" ∧ s.net.tx 0 = response.take 7) ∧
      Conducted (fun _ bytes => bytes <+: response) s.net 0
        (history main St.event s₀ (twoClients ++ [Act.exec 2 (.sent 7)]).reverse 0) := by
  have hdone : ((init 3 fun _ => 0).bind fun s₀ => exec main SendsFormatted s₀
      (twoClients ++ [.exec 2 (.sent 7)])).any (fun s => decide (s.net.count = 2 ∧
        s.net.rx 0 = ascii "G" ∧ s.net.tx 0 = response.take 7)) = true := by
    decide +kernel
  obtain ⟨s₀, s, hinit, hexec, hcount, hbytes⟩ := exists_exec hdone
  have hrun := Run.of_exec hexec
  have hc : 0 < s.net.count := by omega
  exact ⟨s₀, s, hinit, hexec, hcount, hbytes,
    (response_sessions hinit (hrun.mono fun _ _ _ => trivial) hc).2 hrun⟩

/-- What the response declares as its body. -/
@[irreducible] def document : List Byte :=
  ascii "<html><head><title>0voice.king</title></head><body><h1>King</h1></body></html>\r\n\r\n"

theorem response_response : Http.response response = some (document, []) := by decide +kernel

/-- **The stream is well framed.** In every run whose sends find the response in the buffer and
take all of it, or fail, the stream of a connection is as many complete responses as there were
sends that did not fail, and there was a `send`, failed or not, for every request but the last one
at most. -/
theorem framed_stream (hinit : init sockfd stack = some s₀)
    (h : Run main SendsResponse s₀ as s) (hc : c < s.net.count) :
    let log := history main St.event s₀ as c
    Http.Framed document (sends log).length (s.net.tx c) ∧
      (sends log).length + failures log ≤ (requests log).length ∧
      (requests log).length ≤ (sends log).length + failures log + 1 := by
  intro log
  obtain ⟨⟨p, hsession, -⟩, -, htx⟩ :=
    (talks hinit answersAllowed_response h).conducted hc
  have hsends : sends log = List.replicate (sends log).length response :=
    List.eq_replicate_of_mem hsession.sends_allowed
  have hrequests := hsession.length_requests
  refine ⟨?_, ?_, ?_⟩
  · have hstream : s.net.tx c = (List.replicate (sends log).length response).flatten := by
      rw [← List.reverse_replicate, ← hsends, ← output_eq]
      exact htx
    rw [hstream]
    exact Http.framed_replicate response_response _
  · rw [hrequests]
    exact Nat.le_add_right _ _
  · rw [hrequests]
    split_ifs
    · exact le_rfl
    · exact Nat.le_succ _

theorem framed_stream_one :
    ∃ s₀ s, init 3 (fun _ => 0) = some s₀ ∧
      exec main SendsResponse s₀ (twoClients ++ [.exec 2 (.sent 205)]) = some s ∧
      s.sends.length = 1 ∧ Http.Framed document
        (sends (history main St.event s₀ (twoClients ++ [Act.exec 2 (.sent 205)]).reverse 0)).length
        (s.net.tx 0) := by
  have hdone : ((init 3 fun _ => 0).bind fun s₀ => exec main SendsResponse s₀
      (twoClients ++ [.exec 2 (.sent 205)])).any
        (fun s => decide (s.sends.length = 1 ∧ 0 < s.net.count)) = true := by
    decide +kernel
  obtain ⟨s₀, s, hinit, hexec, hlen, hc⟩ := exists_exec hdone
  exact ⟨s₀, s, hinit, hexec, hlen, (framed_stream hinit (Run.of_exec hexec) hc).1⟩

end CIoUring

end NetDesign
