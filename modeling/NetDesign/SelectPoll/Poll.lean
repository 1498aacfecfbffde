import NetDesign.SelectPoll.Round

/-!
# The server of select_poll/poll.cc

`fds` is an array of `pollfd` indexed by descriptor, which `main` does not initialise. `poll`
looks at the entries 0 to `mxfd` and writes their `revents`; a `poll` that fails leaves them as
they are. The entry of a client that has gone has `fd` -1.
-/

namespace NetDesign.SelectPoll.Poll

abbrev Short := BitVec 16

def pollin : Short := 1

/-- `x & POLLIN`. -/
def hasPollin (x : Short) : Bool := x &&& pollin != 0

@[simp] theorem hasPollin_pollin : hasPollin pollin = true := rfl

@[simp] theorem hasPollin_zero : hasPollin 0#16 = false := rfl

structure PollFd where
  fd : Int
  events : Short
  revents : Short
  deriving DecidableEq, Repr

abbrev Fds := Int → PollFd

/-- An array of zeros. -/
def zeroed : Fds := fun _ => ⟨0, 0, 0⟩

/-- `poll` is asked about entry `i`, whose descriptor is open and ready. Its other bits are
not looked at. -/
def Reports (s : State Fds) (ready : Int → Bool) (i : Int) : Prop :=
  0 ≤ (s.watch i).fd ∧ hasPollin (s.watch i).events = true ∧ s.Open (s.watch i).fd ∧
    ready i = true

instance {s : State Fds} {ready : Int → Bool} {i : Int} : Decidable (Reports s ready i) :=
  inferInstanceAs (Decidable (_ ∧ _ ∧ _ ∧ _))

/-- `poll(fds, mxfd + 1, -1)`. -/
def poll (s : State Fds) (ready : Option (Int → Bool)) : Fds :=
  match ready with
  | some ready => fun i =>
    if 0 ≤ i ∧ i < s.mxfd + 1 then
      { s.watch i with revents := if Reports s ready i then pollin else 0 }
    else s.watch i
  | none => s.watch

def add (fds : Fds) (clientfd : Int) : Fds :=
  Function.update fds clientfd { fds clientfd with fd := clientfd, events := pollin }

def forget (fds : Fds) (fd : Int) : Fds :=
  Function.update fds fd { fds fd with fd := -1, events := 0 }

section

variable {fds : Fds} {fd x : Int}

theorem add_self : add fds fd fd = { fds fd with fd := fd, events := pollin } :=
  Function.update_self _ _ _

theorem add_of_ne (h : x ≠ fd) : add fds fd x = fds x := Function.update_of_ne h _ _

theorem forget_self : forget fds fd fd = { fds fd with fd := -1, events := 0 } :=
  Function.update_self _ _ _

theorem forget_of_ne (h : x ≠ fd) : forget fds fd x = fds x := Function.update_of_ne h _ _

/-- Only `poll` writes `revents`. -/
theorem add_revents : (add fds fd x).revents = (fds x).revents := by
  by_cases h : x = fd
  · rw [h, add_self]
  · rw [add_of_ne h]

theorem forget_revents : (forget fds fd x).revents = (fds x).revents := by
  by_cases h : x = fd
  · rw [h, forget_self]
  · rw [forget_of_ne h]

end

def watcher : Watcher Fds where
  wait := poll
  isReady fds fd := hasPollin (fds fd).revents
  add := add
  forget := forget
  isReady_add := congrArg hasPollin add_revents
  isReady_forget := congrArg hasPollin forget_revents

/-- `main` up to its loop, with the descriptor of `_socket`, the other descriptors of the
process, and the array as it is on the stack. A socket that could not be opened makes `Bind`
exit. -/
def init (sockfd : Int) (others : Int → Bool) (fds : Fds) : Option (State Fds) :=
  if 0 ≤ sockfd then
    some
      { sockfd := sockfd
        watch := add fds sockfd
        mxfd := sockfd
        others := others
        fds := .initial
        touched := [sockfd]
        trace := [] }
  else none

theorem init_started {sockfd : Int} {others : Int → Bool} {fds : Fds} {s₀ : State Fds}
    (h : init sockfd others fds = some s₀) : s₀.sockfd ≤ s₀.mxfd ∧ s₀.trace = [] := by
  rw [init] at h
  split_ifs at h with h0
  cases h
  exact ⟨Int.le_refl _, rfl⟩

/-- The loop of `main`. -/
def main : State Fds → Env → Option (State Fds) := watcher.main

section

variable {s : State Fds} {ready : Int → Bool} {i : Int}

@[simp] theorem poll_fd (r : Option (Int → Bool)) : (poll s r i).fd = (s.watch i).fd := by
  cases r with
  | none => rfl
  | some ready =>
    simp only [poll]
    split_ifs <;> rfl

@[simp] theorem poll_events (r : Option (Int → Bool)) :
    (poll s r i).events = (s.watch i).events := by
  cases r with
  | none => rfl
  | some ready =>
    simp only [poll]
    split_ifs <;> rfl

/-- Within the entries it covers, `poll` reports what is asked for, open and ready. -/
theorem isReady_poll (h0 : 0 ≤ i) (h : i ≤ s.mxfd) :
    watcher.isReady (poll s (some ready)) i = true ↔ Reports s ready i := by
  have hin : 0 ≤ i ∧ i < s.mxfd + 1 := ⟨h0, by omega⟩
  simp only [watcher, poll, if_pos hin]
  split_ifs with hrep
  · exact iff_of_true rfl hrep
  · exact iff_of_false (by simp) hrep

theorem isReady_poll_of_gt (h : s.mxfd < i) :
    watcher.isReady (poll s (some ready)) i = hasPollin (s.watch i).revents := by
  have hout : ¬ (0 ≤ i ∧ i < s.mxfd + 1) := by omega
  simp only [watcher, poll, if_neg hout]

end

theorem reusing_run :
    ∃ s₀ s, init 3 stdio zeroed = some s₀ ∧ Run main (Succeeds watcher) s₀ reusing.reverse s ∧
      s.fds.owner 4 = some 2 := by
  have hdone : ((init 3 stdio zeroed).bind fun s₀ => exec main (Succeeds watcher) s₀ reusing).any
      (fun s => decide (s.fds.owner 4 = some 2)) = true := by
    decide +kernel
  obtain ⟨s₀, s, hinit, hexec, howner⟩ := exists_exec hdone
  exact ⟨s₀, s, hinit, Run.of_exec hexec, howner⟩

end NetDesign.SelectPoll.Poll
