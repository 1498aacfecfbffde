import NetDesign.SelectPoll.Select
import NetDesign.SelectPoll.Poll

/-!
# What the readiness loops echo

Both loops compare `count` with 0 only. A `recv` that fails returns -1, which `send` gets as its
length.

* `Blocks` — the trace of a run is made of accepts and of one answer for each `recv`.
* `exact_iff` — the echo is exact exactly when no `recv` of the run fails.
-/

namespace NetDesign.SelectPoll

/-! ## Streams -/

/-- What a list of calls moves, oldest first. -/
def stream (bytes : Call → List Byte) (calls : List Call) : List Byte :=
  calls.reverse.flatMap bytes

namespace Call

/-- The bytes received on connection `c`. -/
def received (c : Nat) : Call → List Byte
  | .recv _ k res => if k = some c then res.getD [] else []
  | _ => []

/-- The bytes handed to `send` on connection `c`. -/
def handed (c : Nat) : Call → List Byte
  | .send _ k buf len _ => if k = some c then buf.read 0 len else []
  | _ => []

/-- The bytes sent on connection `c`. -/
def sent (c : Nat) : Call → List Byte
  | .send _ k buf len ok => if k = some c ∧ ok = true then buf.read 0 len else []
  | _ => []

end Call

theorem stream_cons {bytes : Call → List Byte} {call : Call} {calls : List Call} :
    stream bytes (call :: calls) = stream bytes calls ++ bytes call := by
  simp [stream]

/-- Each `send` is given the bytes that the `recv` just before it, on the same client, has
stored, and so what is sent to a client is what was received from it, unless a `send` to it
fails. -/
structure Exact (calls : List Call) : Prop where
  send : ∀ {before fd k buf len ok}, .send fd k buf len ok :: before <:+ calls →
    ∃ bytes rest, before = .recv fd k (some bytes) :: rest ∧ buf.read 0 len = bytes ∧
      1 ≤ len ∧ len ≤ bufferLength
  handed : ∀ c, stream (Call.handed c) calls = stream (Call.received c) calls
  sent : ∀ c, (∀ fd buf len, .send fd (some c) buf len false ∉ calls) →
    stream (Call.sent c) calls = stream (Call.received c) calls

/-! ## Blocks -/

inductive Blocks : List Call → Prop
  | nil : Blocks []
  | accept {calls : List Call} {res : Int} : Blocks calls → Blocks (.accept res :: calls)
  | left {calls : List Call} {fd : Int} {k : Option Nat} :
      Blocks calls → Blocks (.close fd :: .recv fd k (some []) :: calls)
  | echoed {calls : List Call} {fd : Int} {k : Option Nat} {bytes : List Byte}
      {buf : Cells Byte} {len : Nat} {ok : Bool} :
      buf.read 0 len = bytes → 1 ≤ len → len ≤ bufferLength → Blocks calls →
      Blocks (.send fd k buf len ok :: .recv fd k (some bytes) :: calls)
  | failed {calls : List Call} {fd : Int} {k : Option Nat} {buf : Cells Byte} {len : Nat}
      {ok : Bool} :
      Blocks calls → Blocks (.send fd k buf len ok :: .recv fd k none :: calls)

namespace Blocks

variable {calls : List Call} {c : Nat}

/-- The call before a `send` is a `recv` on the same client. -/
theorem send_cases {before : List Call} {fd : Int} {k : Option Nat} {buf : Cells Byte}
    {len : Nat} {ok : Bool} (h : Blocks calls)
    (hsuffix : .send fd k buf len ok :: before <:+ calls) :
    (∃ rest, before = .recv fd k none :: rest) ∨
    ∃ bytes rest, before = .recv fd k (some bytes) :: rest ∧ buf.read 0 len = bytes ∧
      1 ≤ len ∧ len ≤ bufferLength := by
  induction h with
  | nil => simp at hsuffix
  | accept _ ih =>
    rcases List.suffix_cons_iff.1 hsuffix with heq | hsuffix
    · cases heq
    · exact ih hsuffix
  | left _ ih =>
    rcases List.suffix_cons_iff.1 hsuffix with heq | hsuffix
    · cases heq
    · rcases List.suffix_cons_iff.1 hsuffix with heq | hsuffix
      · cases heq
      · exact ih hsuffix
  | echoed hread hpos hlen _ ih =>
    rcases List.suffix_cons_iff.1 hsuffix with heq | hsuffix
    · cases heq
      exact .inr ⟨_, _, rfl, hread, hpos, hlen⟩
    · rcases List.suffix_cons_iff.1 hsuffix with heq | hsuffix
      · cases heq
      · exact ih hsuffix
  | failed _ ih =>
    rcases List.suffix_cons_iff.1 hsuffix with heq | hsuffix
    · cases heq
      exact .inl ⟨_, rfl⟩
    · rcases List.suffix_cons_iff.1 hsuffix with heq | hsuffix
      · cases heq
      · exact ih hsuffix

/-- If every `send` follows a `recv` that succeeded, every `recv` has: one that fails is
followed by a `send` too. -/
theorem no_failed {fd : Int} {k : Option Nat} (h : Blocks calls)
    (hsend : ∀ {before fd k buf len ok}, .send fd k buf len ok :: before <:+ calls →
      ∃ bytes rest, before = .recv fd k (some bytes) :: rest) : .recv fd k none ∉ calls := by
  induction h with
  | nil => exact List.not_mem_nil
  | accept _ ih =>
    intro hmem
    exact ih (fun hsuffix => hsend (hsuffix.trans (List.suffix_cons _ _))) (by simpa using hmem)
  | left _ ih =>
    intro hmem
    refine ih (fun hsuffix => ?_) (by simpa using hmem)
    exact hsend (hsuffix.trans (List.suffix_append [_, _] _))
  | echoed _ _ _ _ ih =>
    intro hmem
    refine ih (fun hsuffix => ?_) (by simpa using hmem)
    exact hsend (hsuffix.trans (List.suffix_append [_, _] _))
  | failed =>
    obtain ⟨bytes, rest, heq⟩ := hsend (List.suffix_refl _)
    cases heq

/-- What one block hands on is what it received. -/
theorem stream_eq {bytes : Call → List Byte} (h : Blocks calls)
    (hno : ∀ fd k, .recv fd k none ∉ calls) (haccept : ∀ res, bytes (.accept res) = [])
    (hclose : ∀ fd, bytes (.close fd) = []) (hrecv : ∀ fd k res, bytes (.recv fd k res) = [])
    (hsend : ∀ {fd k buf len ok}, .send fd k buf len ok ∈ calls →
      bytes (.send fd k buf len ok) = if k = some c then buf.read 0 len else []) :
    stream bytes calls = stream (Call.received c) calls := by
  induction h with
  | nil => rfl
  | accept _ ih =>
    rw [stream_cons, stream_cons, haccept, ih (fun fd k hmem => hno fd k (by simp [hmem]))
      fun hmem => hsend (by simp [hmem])]
    rfl
  | left _ ih =>
    simp only [stream_cons, hclose, hrecv, Call.received, Option.getD_some, ite_self]
    rw [ih (fun fd k hmem => hno fd k (by simp [hmem])) fun hmem => hsend (by simp [hmem])]
  | echoed hread _ _ _ ih =>
    simp only [stream_cons, hrecv, hsend List.mem_cons_self, hread, Call.received,
      Option.getD_some, List.append_nil]
    rw [ih (fun fd k hmem => hno fd k (by simp [hmem])) fun hmem => hsend (by simp [hmem])]
  | failed => exact absurd (List.mem_cons_of_mem _ List.mem_cons_self) (hno _ _)

/-- **The trace is exact** unless a `recv` in it failed. -/
theorem exact_iff (h : Blocks calls) : Exact calls ↔ ∀ fd k, .recv fd k none ∉ calls := by
  refine ⟨?_, ?_⟩
  · intro hexact fd k
    refine h.no_failed fun hsuffix => ?_
    obtain ⟨bytes, rest, heq, -⟩ := hexact.send hsuffix
    exact ⟨bytes, rest, heq⟩
  · intro hno
    refine ⟨fun {before fd k buf len ok} hsuffix => ?_, fun c => ?_, fun c hok => ?_⟩
    · rcases h.send_cases hsuffix with ⟨rest, rfl⟩ | hgood
      · exact absurd (hsuffix.subset (by simp)) (hno fd k)
      · exact hgood
    · exact h.stream_eq hno (fun _ => rfl) (fun _ => rfl) (fun _ _ _ => rfl) fun _ => rfl
    · refine h.stream_eq hno (fun _ => rfl) (fun _ => rfl) (fun _ _ _ => rfl) ?_
      intro fd k buf len ok hmem
      rw [Call.sent]
      refine if_congr (and_iff_left_of_imp fun hk => ?_) rfl rfl
      subst hk
      by_contra hfail
      rw [Bool.eq_false_of_not_eq_true hfail] at hmem
      exact hok fd buf len hmem

end Blocks

/-! ## Runs -/

section

variable {ω : Type*} {w : Watcher ω} {s t u : State ω} {env : Env} {fd : Int}

/-- Every `recv` has had its answer. -/
structure Answering (s : State ω) : Prop where
  le : s.sockfd ≤ s.mxfd
  blocks : Blocks s.trace

/-- No `recv` of the round fails. -/
def RecvsSucceed (w : Watcher ω) (s : State ω) (env : Env) : Prop :=
  ∀ fd, s.sockfd < fd → fd ≤ w.scanEnd s env →
    w.isReady (w.wait s env.ready) fd = true → env.received fd ≠ none

theorem Answering.accepts (hs : Answering s) (h : Accepts w env s u) : Answering u := by
  cases h with
  | idle => exact ⟨hs.le, hs.blocks⟩
  | joined => exact ⟨le_trans hs.le (Int.le_max_left _ _), .accept hs.blocks⟩
  | refused => exact ⟨le_trans hs.le (Int.le_max_left _ _), .accept hs.blocks⟩

theorem Answering.serves (hs : Answering s) (h : Serves w env fd s t) : Answering t := by
  cases h with
  | idle => exact ⟨hs.le, hs.blocks⟩
  | left => exact ⟨hs.le, .left hs.blocks⟩
  | @echoed bytes _ _ _ hne hlen =>
    refine ⟨hs.le, .echoed (read_echo hlen) ?_ ?_ hs.blocks⟩
    · rw [sizeT_count hlen]
      exact List.length_pos_iff.2 hne
    · rw [sizeT_count hlen]
      exact hlen
  | failed => exact ⟨hs.le, .failed hs.blocks⟩

theorem answering_step (hs : Answering s) (h : w.main s env = some t) : Answering t :=
  main_invariant Answering.le (fun hs => ⟨hs.le, hs.blocks⟩)
    (fun hw haccepts => hw.accepts haccepts) (fun _ hu hserves => hu.serves hserves) hs h

/-- **A round.** -/
theorem exact_step (hs : Answering s) (h : w.main s env = some t) :
    Exact t.trace ↔ Exact s.trace ∧ RecvsSucceed w s env := by
  obtain ⟨u, new, hround⟩ := main_recvd hs.le h
  have hnew : (∀ fd k, .recv fd k none ∉ new) ↔ RecvsSucceed w s env := by
    refine ⟨?_, ?_⟩
    · intro hno fd hlt hle hready hnone
      obtain ⟨k, r, hrecv⟩ := mem_recvd.1 ((hround.mem fd).2 ⟨hlt, hle, hready⟩)
      obtain ⟨-, hr⟩ := hround.recv hrecv
      rw [hr, hnone] at hrecv
      exact hno fd k hrecv
    · intro hcond fd k hrecv
      obtain ⟨hlt, hle, hready⟩ := (hround.mem fd).1 (mem_recvd.2 ⟨k, none, hrecv⟩)
      exact hcond fd hlt hle hready (hround.recv hrecv).2.symm
  rw [(answering_step hs h).blocks.exact_iff, hs.blocks.exact_iff, ← hnew, hround.trace]
  simp only [List.mem_append, not_or]
  exact ⟨fun hyp => ⟨fun fd k => (hyp fd k).2, fun fd k => (hyp fd k).1⟩,
    fun hyp fd k => ⟨hyp.2 fd k, hyp.1 fd k⟩⟩

theorem Watcher.exact_iff {s₀ : State ω} {envs : List Env} (hle : s₀.sockfd ≤ s₀.mxfd)
    (htrace : s₀.trace = []) (h : Run w.main (fun _ _ => True) s₀ envs s) :
    Exact s.trace ↔ Run w.main (RecvsSucceed w) s₀ envs s := by
  have hblocks : Blocks s₀.trace := by
    rw [htrace]
    exact .nil
  have hexact : Exact s₀.trace := by
    rw [hblocks.exact_iff, htrace]
    exact fun _ _ => List.not_mem_nil
  rw [h.good_iff ⟨hle, hblocks⟩ (fun hs _ hstep => answering_step hs hstep) hexact
    fun hs _ hstep => exact_step hs hstep]
  exact ⟨Run.mono fun _ _ hyp => hyp.2, Run.mono fun _ _ hyp => ⟨trivial, hyp⟩⟩

end

variable {sockfd : Int} {others : Int → Bool} {rset : Select.FdSet} {fds : Poll.Fds}
  {s₀ s : State Select.Sets} {p₀ p : State Poll.Fds} {envs envs' : List Env}

/-- **The exact echo.** In every run of either server the echo is exact if and only if no
`recv` fails. -/
theorem echo_exact_iff (hs : Select.init sockfd others rset = some s₀)
    (h : Run Select.main (fun _ _ => True) s₀ envs s)
    (hp : Poll.init sockfd others fds = some p₀)
    (h' : Run Poll.main (fun _ _ => True) p₀ envs' p) :
    (Exact s.trace ↔ Run Select.main (RecvsSucceed Select.watcher) s₀ envs s) ∧
    (Exact p.trace ↔ Run Poll.main (RecvsSucceed Poll.watcher) p₀ envs' p) := by
  obtain ⟨hle, htrace⟩ := Select.init_started hs
  obtain ⟨hle', htrace'⟩ := Poll.init_started hp
  exact ⟨Watcher.exact_iff hle htrace h, Watcher.exact_iff hle' htrace' h'⟩

theorem echo_exact_reusing :
    ∃ s₀ s p₀ p, Select.init 3 stdio (fun _ => true) = some s₀ ∧ s.fds.owner 4 = some 2 ∧
      Poll.init 3 stdio Poll.zeroed = some p₀ ∧ p.fds.owner 4 = some 2 ∧
      (Exact s.trace ↔ Run Select.main (RecvsSucceed Select.watcher) s₀ reusing.reverse s) ∧
      (Exact p.trace ↔ Run Poll.main (RecvsSucceed Poll.watcher) p₀ reusing.reverse p) := by
  obtain ⟨s₀, s, hs, hrun, hso⟩ := Select.reusing_run
  obtain ⟨p₀, p, hp, hrun', hpo⟩ := Poll.reusing_run
  exact ⟨s₀, s, p₀, p, hs, hso, hp, hpo,
    echo_exact_iff hs (hrun.mono fun _ _ _ => trivial) hp (hrun'.mono fun _ _ _ => trivial)⟩

/-- A client comes, and receiving from it fails. -/
def resetting : List Env := [round [3] (some 4) none, round [4] none none]

/-- The last `send` of a run is given the length -1. -/
def sendsAll (calls : List Call) : Bool :=
  match calls with
  | .send _ _ _ len _ :: .recv _ _ none :: _ => len == sizeT (-1)
  | _ => false

/-- A `send` after a failed `recv` is not exact. -/
theorem not_exact_of_sendsAll {calls : List Call} (h : sendsAll calls = true) : ¬ Exact calls := by
  intro hexact
  unfold sendsAll at h
  split at h
  · obtain ⟨bytes, rest, heq, -⟩ := hexact.send (List.suffix_refl _)
    cases heq
  · cases h

/-- The -1 of a failed `recv` becomes the length of a `send`, in both servers. -/
theorem sends_beyond_received :
    (¬ ∀ sockfd others rset s₀ envs s, Select.init sockfd others rset = some s₀ →
      Run Select.main (fun _ _ => True) s₀ envs s → Exact s.trace) ∧
    ¬ ∀ sockfd others fds s₀ envs s, Poll.init sockfd others fds = some s₀ →
      Run Poll.main (fun _ _ => True) s₀ envs s → Exact s.trace := by
  refine ⟨?_, ?_⟩
  · intro hclaim
    have hdone : ((Select.init 3 stdio fun _ => true).bind fun s₀ =>
        exec Select.main (fun _ _ => True) s₀ resetting).any
          (fun s => decide (sendsAll s.trace = true)) = true := by
      decide +kernel
    obtain ⟨s₀, s, hinit, hexec, hsend⟩ := exists_exec hdone
    exact not_exact_of_sendsAll hsend (hclaim _ _ _ _ _ _ hinit (Run.of_exec hexec))
  · intro hclaim
    have hdone : ((Poll.init 3 stdio Poll.zeroed).bind fun s₀ =>
        exec Poll.main (fun _ _ => True) s₀ resetting).any
          (fun s => decide (sendsAll s.trace = true)) = true := by
      decide +kernel
    obtain ⟨s₀, s, hinit, hexec, hsend⟩ := exists_exec hdone
    exact not_exact_of_sendsAll hsend (hclaim _ _ _ _ _ _ hinit (Run.of_exec hexec))

end NetDesign.SelectPoll
