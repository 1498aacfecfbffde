import NetDesign.History
import NetDesign.Session
import NetDesign.SelectPoll.Echo
import Mathlib.Data.Int.Range

/-!
# The sessions of the readiness loops

A round of `select.cc` or `poll.cc` answers what it receives before it goes on to the next
descriptor. So between two rounds no answer is due on any connection.

* `connections` — the calls of a trace, by connection: `accept` and `close` name descriptors,
  which are followed through the trace.
* `Talks` — the log of every connection is a session, which is idle while the connection is open.
* `readiness_sessions` — it is in every run of either server in which no `recv` fails.
-/

namespace NetDesign.SelectPoll

/-! ## Events -/

namespace Call

/-- What a call does to the descriptors. -/
def fds (table : FdTable) : Call → FdTable
  | .accept res => if 0 ≤ res then table.accept res else table
  | .close fd => table.close fd
  | .recv .. | .send .. => table

/-- What a call is to a connection. -/
def event (table : FdTable) : Call → Option (Nat × Event Byte)
  | .accept res => if 0 ≤ res then some (table.count, .accepted) else none
  | .recv _ k (some bytes) => k.map (·, .received bytes)
  | .recv _ k none => k.map (·, .failed)
  | .send _ k buf len ok => k.map (·, if ok = true then .sent (buf.read 0 len) else .unsent)
  | .close fd => (table.owner fd).map (·, .closed)

end Call

/-- The descriptors after the calls, newest first. -/
def descriptors (calls : List Call) : FdTable :=
  calls.foldr (fun call table => call.fds table) .initial

/-- The calls, by connection. -/
def connections : List Call → Nat → List (Event Byte)
  | [] => fun _ => []
  | call :: calls => record (connections calls) (call.event (descriptors calls))

/-! ## The sessions -/

variable {ω : Type*} {w : Watcher ω} {s t u : State ω} {env : Env} {fd : Int} {c : Nat}

/-- The sessions of the connections so far. -/
structure Talks (fds : FdTable) (logs : Nat → List (Event Byte)) : Prop where
  numbered : fds.Numbered
  fresh : ∀ c, fds.count ≤ c → logs c = []
  idle : ∀ fd c, fds.owner fd = some c → Session Session.FullEcho (logs c) .idle
  closed : ∀ c < fds.count, (∀ fd, fds.owner fd ≠ some c) →
    Session Session.FullEcho (logs c) .closed

namespace Talks

variable {fds : FdTable} {logs : Nat → List (Event Byte)}

theorem initial : Talks .initial fun _ => [] where
  numbered := FdTable.numbered_initial
  fresh _ _ := rfl
  idle _ _ h := by cases h
  closed _ h := absurd h (Nat.not_lt_zero _)

theorem accept (h : Talks fds logs) (hfree : fds.owner fd = none) :
    Talks (fds.accept fd) (record logs (some (fds.count, .accepted))) where
  numbered := h.numbered.accept fd
  fresh c hc := by
    rw [record_of_ne (Nat.ne_of_gt hc)]
    exact h.fresh c (Nat.le_of_succ_le hc)
  idle x c hx := by
    rcases FdTable.accept_cases hx with ⟨-, rfl⟩ | ⟨-, hx⟩
    · rw [record_self, h.fresh _ le_rfl]
      exact .accepted
    · rw [record_of_ne (h.numbered.lt hx).ne]
      exact h.idle x c hx
  closed c hc hgone := by
    have hne : c ≠ fds.count := by
      intro heq
      subst heq
      exact hgone fd FdTable.accept_owner_self
    rw [record_of_ne hne]
    refine h.closed c (Nat.lt_of_le_of_ne (Nat.le_of_lt_succ hc) hne) fun x hx => hgone x ?_
    refine (FdTable.accept_owner_of_ne ?_).trans hx
    intro heq
    rw [heq, hfree] at hx
    cases hx

/-- Two calls on the connection of `fd`, after which it is idle again. -/
theorem answer (h : Talks fds logs) {e e' : Event Byte}
    (hlog : ∀ {log}, Session Session.FullEcho log .idle →
      Session Session.FullEcho (e' :: e :: log) .idle) :
    Talks fds (record (record logs ((fds.owner fd).map (·, e))) ((fds.owner fd).map (·, e'))) := by
  refine ⟨h.numbered, fun c hc => ?_, fun x c hx => ?_, fun c hc hgone => ?_⟩
  · have hne : fds.owner fd ≠ some c := fun hown => absurd (h.numbered.lt hown) (Nat.not_lt.2 hc)
    rw [record_map_of_ne hne, record_map_of_ne hne]
    exact h.fresh c hc
  · by_cases hown : fds.owner fd = some c
    · rw [hown, Option.map_some, Option.map_some, record_self, record_self]
      exact hlog (h.idle x c hx)
    · rw [record_map_of_ne hown, record_map_of_ne hown]
      exact h.idle x c hx
  · rw [record_map_of_ne (hgone fd), record_map_of_ne (hgone fd)]
    exact h.closed c hc hgone

/-- The connection of `fd` ends and is closed. -/
theorem close (h : Talks fds logs) :
    Talks (fds.close fd) (record (record logs ((fds.owner fd).map (·, .received [])))
      ((fds.owner fd).map (·, .closed))) := by
  refine ⟨h.numbered.close fd, fun c hc => ?_, fun x c hx => ?_, fun c hc hgone => ?_⟩
  · have hne : fds.owner fd ≠ some c := fun hown => absurd (h.numbered.lt hown) (Nat.not_lt.2 hc)
    rw [record_map_of_ne hne, record_map_of_ne hne]
    exact h.fresh c hc
  · obtain ⟨hxf, hx⟩ := FdTable.close_cases hx
    have hne : fds.owner fd ≠ some c := fun hown => hxf (h.numbered.inj hx hown)
    rw [record_map_of_ne hne, record_map_of_ne hne]
    exact h.idle x c hx
  · by_cases hown : fds.owner fd = some c
    · rw [hown, Option.map_some, Option.map_some, record_self, record_self]
      exact .closed (.ended (h.idle fd c hown))
    · rw [record_map_of_ne hown, record_map_of_ne hown]
      refine h.closed c hc fun x hx => hgone x ?_
      refine (FdTable.close_owner_of_ne ?_).trans hx
      intro heq
      exact hown (heq ▸ hx)

end Talks

/-! ## A round -/

/-- Unless a `recv` failed, the calls are those of sessions. -/
structure Conversing (s : State ω) : Prop where
  le : s.sockfd ≤ s.mxfd
  fds : descriptors s.trace = s.fds
  talks : (∀ fd k, .recv fd k none ∉ s.trace) → Talks s.fds (connections s.trace)

theorem Conversing.accepts (hs : Conversing s) (h : Accepts w env s u) : Conversing u := by
  cases h with
  | idle => exact ⟨hs.le, hs.fds, hs.talks⟩
  | @joined fd _ _ h0 hfree =>
    refine ⟨le_trans hs.le (Int.le_max_left _ _), ?_, fun hno => ?_⟩
    · show (if 0 ≤ fd then (descriptors s.trace).accept fd else descriptors s.trace) = _
      rw [if_pos h0, hs.fds]
      rfl
    · have hnone : s.fds.owner fd = none := by
        by_contra hown
        exact hfree (.inr (.inl hown))
      have htalks := (hs.talks fun x k hmem => hno x k (List.mem_cons_of_mem _ hmem)).accept hnone
      simpa only [State.joined, connections, Call.event, if_pos h0, hs.fds] using htalks
  | refused =>
    have hneg : ¬ (0 : Int) ≤ -1 := by decide
    refine ⟨le_trans hs.le (Int.le_max_left _ _), ?_, fun hno => ?_⟩
    · show (if (0 : Int) ≤ -1 then (descriptors s.trace).accept (-1) else descriptors s.trace) = _
      rw [if_neg hneg, hs.fds]
      rfl
    · have htalks := hs.talks fun x k hmem => hno x k (List.mem_cons_of_mem _ hmem)
      simpa only [State.refused, connections, Call.event, if_neg hneg, record_none] using htalks

theorem Conversing.serves (hs : Conversing s) (h : Serves w env fd s t) : Conversing t := by
  cases h with
  | idle => exact ⟨hs.le, hs.fds, hs.talks⟩
  | left =>
    refine ⟨hs.le, congrArg (FdTable.close · fd) hs.fds, fun hno => ?_⟩
    have htalks := hs.talks fun x k hmem => hno x k (by simp [State.left, hmem])
    have hfds : descriptors (.recv fd (s.fds.owner fd) (some []) :: s.trace) = s.fds := hs.fds
    simpa only [State.left, connections, Call.event, hfds] using htalks.close
  | @echoed bytes _ _ _ hne hlen =>
    refine ⟨hs.le, hs.fds, fun hno => ?_⟩
    have htalks := hs.talks fun x k hmem => hno x k (by simp [State.answered, hmem])
    refine htalks.answer (e := .received bytes) fun {log} hidle => ?_
    have howing := Session.received hidle hne
    rw [read_echo hlen]
    split_ifs
    · refine .sent howing ?_
      rw [Session.FullEcho, requests_received hne]
      rfl
    · exact .unsent howing
  | failed =>
    refine ⟨hs.le, hs.fds, fun hno => ?_⟩
    exact absurd (List.mem_cons_of_mem _ List.mem_cons_self) (hno fd (s.fds.owner fd))

theorem conversing_step (hs : Conversing s) (h : w.main s env = some t) : Conversing t :=
  main_invariant Conversing.le (fun hs => ⟨hs.le, hs.fds, hs.talks⟩)
    (fun hw haccepts => hw.accepts haccepts) (fun _ hu hserves => hu.serves hserves) hs h

/-! ## Runs -/

/-- The log of the connection `c` is a session, idle while a descriptor is left and closed when
there is none. -/
def Conducted (s : State ω) (c : Nat) : Prop :=
  ((∃ fd, s.fds.owner fd = some c) → Session Session.FullEcho (connections s.trace c) .idle) ∧
    ((∀ fd, s.fds.owner fd ≠ some c) → Session Session.FullEcho (connections s.trace c) .closed)

instance : Decidable (RecvsSucceed w s env) :=
  Int.decidableLTLE (fun fd => w.isReady (w.wait s env.ready) fd = true → env.received fd ≠ none)
    s.sockfd (w.scanEnd s env)

theorem Watcher.no_failed {s₀ : State ω} {envs : List Env} (hle : s₀.sockfd ≤ s₀.mxfd)
    (htrace : s₀.trace = []) (h : Run w.main (RecvsSucceed w) s₀ envs s) :
    ∀ fd k, .recv fd k none ∉ s.trace := by
  have hanswering : Answering s := h.invariant ⟨hle, htrace ▸ .nil⟩ fun hs _ hstep =>
    answering_step hs hstep
  exact hanswering.blocks.exact_iff.1
    ((Watcher.exact_iff hle htrace (h.mono fun _ _ _ => trivial)).2 h)

theorem Watcher.conducted {s₀ : State ω} {envs : List Env} (hle : s₀.sockfd ≤ s₀.mxfd)
    (hfds : s₀.fds = .initial) (htrace : s₀.trace = []) (h : Run w.main (RecvsSucceed w) s₀ envs s)
    (hc : c < s.fds.count) : Conducted s c := by
  have h₀ : Conversing s₀ := by
    refine ⟨hle, ?_, fun _ => ?_⟩
    · rw [htrace, hfds]
      rfl
    · rw [htrace, hfds]
      exact .initial
  have hs : Conversing s := h.invariant h₀ fun hs _ hstep => conversing_step hs hstep
  have htalks := hs.talks (Watcher.no_failed hle htrace h)
  exact ⟨fun ⟨fd, hown⟩ => htalks.idle fd c hown, htalks.closed c hc⟩

variable {sockfd : Int} {others : Int → Bool} {rset : Select.FdSet} {fds : Poll.Fds}
  {s₀ s : State Select.Sets} {p₀ p : State Poll.Fds} {envs envs' : List Env}

/-- **Every round leaves no answer due.** In every run of either server in which no `recv` fails,
the calls on a connection are an accept, then requests and their answers in turn, each answer the
request in full unless its `send` fails, and at the end of a round no answer is due. A
connection is closed after a `recv` that delivers nothing, and nothing happens on it after
that, even if its descriptor is used again. -/
theorem readiness_sessions (hs : Select.init sockfd others rset = some s₀)
    (h : Run Select.main (RecvsSucceed Select.watcher) s₀ envs s)
    (hp : Poll.init sockfd others fds = some p₀)
    (h' : Run Poll.main (RecvsSucceed Poll.watcher) p₀ envs' p) :
    (∀ c < s.fds.count, Conducted s c) ∧ ∀ c < p.fds.count, Conducted p c := by
  obtain ⟨hle, htrace⟩ := Select.init_started hs
  obtain ⟨hle', htrace'⟩ := Poll.init_started hp
  refine ⟨fun c hc => ?_, fun c hc => ?_⟩
  · refine Watcher.conducted hle ?_ htrace h hc
    rw [Select.init] at hs
    split_ifs at hs
    cases hs
    rfl
  · refine Watcher.conducted hle' ?_ htrace' h' hc
    rw [Poll.init] at hp
    split_ifs at hp
    cases hp
    rfl

/-- The descriptor of the first client is used again by the third one. -/
theorem readiness_sessions_reusing :
    ∃ s₀ s p₀ p, Select.init 3 stdio (fun _ => true) = some s₀ ∧
      Poll.init 3 stdio Poll.zeroed = some p₀ ∧
      exec Select.main (RecvsSucceed Select.watcher) s₀ reusing = some s ∧
      exec Poll.main (RecvsSucceed Poll.watcher) p₀ reusing = some p ∧
      (2 < s.fds.count ∧ 2 < p.fds.count) ∧
      (∀ c < s.fds.count, Conducted s c) ∧ ∀ c < p.fds.count, Conducted p c := by
  have hdone : ((Select.init 3 stdio fun _ => true).bind fun s₀ =>
      exec Select.main (RecvsSucceed Select.watcher) s₀ reusing).any
        (fun s => decide (2 < s.fds.count)) = true := by
    decide +kernel
  have hdone' : ((Poll.init 3 stdio Poll.zeroed).bind fun p₀ =>
      exec Poll.main (RecvsSucceed Poll.watcher) p₀ reusing).any
        (fun p => decide (2 < p.fds.count)) = true := by
    decide +kernel
  obtain ⟨s₀, s, hs, hexec, hcount⟩ := exists_exec hdone
  obtain ⟨p₀, p, hp, hexec', hcount'⟩ := exists_exec hdone'
  exact ⟨s₀, s, p₀, p, hs, hp, hexec, hexec', ⟨hcount, hcount'⟩,
    readiness_sessions hs (Run.of_exec hexec) hp (Run.of_exec hexec')⟩

end NetDesign.SelectPoll
