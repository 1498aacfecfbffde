import NetDesign.Session
import NetDesign.Reactor.Buffer

/-!
# The sessions of `reactor`

The interest of a client in the epoll set is the stage of its session: it is registered for
`EPOLLIN` while a request is due and for `EPOLLOUT` while an answer is.

* `reply_sessions` — every connection holds a session, and answers with a part of the `reply` to
  all it has received, from its start.
-/

namespace NetDesign.Reactor

/-- What a call is to its connection. A `send` that fails returns -1. -/
def Call.event : Call → Event Byte
  | .accepted => .accepted
  | .received bytes => .received bytes
  | .failed => .failed
  | .sent bytes res => if 0 ≤ res then .sent (bytes.take res.toNat) else .unsent
  | .closed _ => .closed

def Phase.stage : Phase → Stage
  | .reading => .idle
  | .writing => .owing
  | .closed => .closed

/-- The calls on the connection `c`. -/
def State.calls (s : State) (c : Nat) : List (Event Byte) := (s.log c).map Call.event

/-- The answer is a part of the reply to all requests so far. -/
def Replied (reqs : List (List Byte)) (bytes : List Byte) : Prop :=
  bytes <+: reply reqs.reverse.flatten

variable {calls : List Call} {ph : Phase} {s t : State} {a : Act}

theorem received_eq (calls : List Call) : received calls = input (calls.map Call.event) := by
  induction calls with
  | nil => rfl
  | cons call calls ih =>
    rw [List.map_cons, input_cons, ← ih]
    cases call with
    | received bytes => rfl
    | sent bytes res =>
      rw [Call.event]
      split_ifs <;> exact (List.append_nil _).symm
    | _ => exact (List.append_nil _).symm

/-- **The life of a connection is a session.** -/
theorem session_of_life (hlife : Life calls ph) (hno : .failed ∉ calls) (hreplies : Replies calls) :
    Session Replied (calls.map Call.event) ph.stage := by
  induction hlife with
  | accepted => exact .accepted
  | received _ hne ih =>
    exact .received (ih (fun hmem => hno (List.mem_cons_of_mem _ hmem)) hreplies.2) hne
  | failed => exact absurd List.mem_cons_self hno
  | @sent calls bytes res _ ih =>
    have howing := ih (fun hmem => hno (List.mem_cons_of_mem _ hmem)) hreplies.2
    rw [List.map_cons, Call.event]
    split_ifs
    · refine .sent howing ?_
      rw [Replied, ← input_eq, ← received_eq, ← hreplies.1 bytes res rfl]
      exact List.take_prefix _ _
    · exact .unsent howing
  | closed _ ih =>
    have hidle := ih (fun hmem => hno (List.mem_cons_of_mem _ (List.mem_cons_of_mem _ hmem)))
      hreplies.2.2
    exact .closed (.ended hidle)

/-! ## Runs -/

/-- No `recv` of a run has failed. -/
structure Heard (s : State) : Prop where
  wired : Wired s
  buffered : Buffered s
  received : ∀ c, .failed ∉ s.log c

theorem received_moves (hs : ∀ c, .failed ∉ s.log c) (hok : RecvsReturn a) (h : Moves s a t) :
    ∀ c, .failed ∉ t.log c := by
  have hcons : ∀ (call : Call) (calls : List Call),
      (.failed ∉ call :: calls) ↔ .failed ∉ calls ∧ .failed ≠ call := by
    intro call calls
    rw [List.mem_cons, not_or, and_comm]
  cases h with
  | wait | shutdown | idle | refused => exact hs
  | opened =>
    refine (forall_update_and (.failed ∉ ·) (hcons _ _)).2 ⟨hs, ?_⟩
    simp
  | answered _ _ _ hserved =>
    refine (forall_update_and (.failed ∉ ·) (hcons _ _)).2 ⟨hs, ?_⟩
    cases hserved with
    | failed => exact absurd rfl hok
    | _ => simp
  | left =>
    refine (forall_update_and (.failed ∉ ·) (q := True) ?_).2 ⟨hs, trivial⟩
    simp

theorem heard_moves (hs : Heard s) (hok : RecvsReturn a) (h : Moves s a t) : Heard t :=
  ⟨wired_moves hs.wired h, buffered_moves hs.wired hs.buffered hok h,
    received_moves hs.received hok h⟩

variable {listenfd : Int} {storage : Int → ConnItem} {s₀ : State} {as : List Act}

theorem heard_init (hinit : init listenfd storage = some s₀) : Heard s₀ := by
  refine ⟨wired_init hinit, buffered_init hinit, fun c => ?_⟩
  rw [(init_idle hinit).2]
  exact List.not_mem_nil

theorem heard_run (hinit : init listenfd storage = some s₀)
    (h : Run run (fun _ a => RecvsReturn a) s₀ as s) : Heard s :=
  h.invariant (heard_init hinit) fun hs hok hstep =>
    heard_moves hs hok (moves_of_run hs.wired hstep)

/-- An open connection is registered for what is due on it. -/
theorem Heard.of_open {fd : Int} {c : Nat} (hs : Heard s) (hown : s.fds.owner fd = some c) :
    ∃ m, s.interest fd = some m ∧ Session Replied (s.calls c) m.phase.stage := by
  obtain ⟨m, hm, hlife⟩ := (hs.wired.owned hown).2.life
  exact ⟨m, hm, session_of_life hlife (hs.received c) (hs.buffered.replies c)⟩

theorem Heard.of_gone {c : Nat} (hs : Heard s) (hc : c < s.fds.count)
    (hgone : ∀ fd, s.fds.owner fd ≠ some c) : Session Replied (s.calls c) .closed :=
  session_of_life (hs.wired.closed hc hgone) (hs.received c) (hs.buffered.replies c)

/-- **`reactor` holds a session on each connection.** In every run in which no `recv` fails, the
calls on a connection are an accept, then requests and answers in turn, and a `recv` that delivers
nothing before the `close`. An open connection is registered for what is due on it. Each answer
is a part of the reply to all that was received so far, from its start. -/
theorem reply_sessions (hinit : init listenfd storage = some s₀)
    (h : Run run (fun _ a => RecvsReturn a) s₀ as s) :
    (∀ fd c, s.fds.owner fd = some c →
      ∃ m, s.interest fd = some m ∧ Session Replied (s.calls c) m.phase.stage) ∧
    ∀ c < s.fds.count, (∀ fd, s.fds.owner fd ≠ some c) → Session Replied (s.calls c) .closed := by
  have hs := heard_run hinit h
  exact ⟨fun _ _ hown => hs.of_open hown, fun _ hc hgone => hs.of_gone hc hgone⟩

/-- A client receives the first bytes of the page, and then nothing of a longer reply. -/
theorem reply_sessions_hello :
    ∃ s₀ s, init 3 blankStorage = some s₀ ∧
      exec run (fun _ a => RecvsReturn a) s₀
        (accepting ++ serving 0 (ascii "hello") 4 ++ serving 0 (ascii "hi") 0) = some s ∧
      s.fds.owner 5 = some 0 ∧ s.calls 0 = [.sent [], .received (ascii "hi"),
        .sent (ascii "HTTP"), .received (ascii "hello"), .accepted] ∧
      ∃ m, s.interest 5 = some m ∧ Session Replied (s.calls 0) m.phase.stage := by
  have hdone : ((init 3 blankStorage).bind fun s₀ =>
      exec run (fun _ a => RecvsReturn a) s₀
        (accepting ++ serving 0 (ascii "hello") 4 ++ serving 0 (ascii "hi") 0)).any
        (fun s => decide (s.fds.owner 5 = some 0 ∧ s.calls 0 = [.sent [],
          .received (ascii "hi"), .sent (ascii "HTTP"), .received (ascii "hello"),
          .accepted])) = true := by
    decide +kernel
  obtain ⟨s₀, s, hinit, hexec, hown, hcalls⟩ := exists_exec hdone
  exact ⟨s₀, s, hinit, hexec, hown, hcalls, (reply_sessions hinit (Run.of_exec hexec)).1 5 0 hown⟩

end NetDesign.Reactor
