import NetDesign.SelectPoll.Round

/-!
# The server of select_poll/select.cc

`rfds` is the set of watched descriptors. Each round copies it to `rset`, which `select` cuts
down to those that are ready; a `select` that fails leaves the copy as it is.
-/

namespace NetDesign.SelectPoll.Select

abbrev FdSet := Int → Bool

def fdZero : FdSet := fun _ => false

def fdSet (fd : Int) (set : FdSet) : FdSet := Function.update set fd true

def fdClr (fd : Int) (set : FdSet) : FdSet := Function.update set fd false

def fdIsset (fd : Int) (set : FdSet) : Bool := set fd

/-- The sets declared in `main`. -/
structure Sets where
  rset : FdSet
  rfds : FdSet

/-- `rset = rfds`, and `select`. -/
def select (s : State Sets) (ready : Option (Int → Bool)) : Sets :=
  let rset := s.watch.rfds
  match ready with
  | some ready => { s.watch with rset := fun fd => rset fd && ready fd }
  | none => { s.watch with rset := rset }

def watcher : Watcher Sets where
  wait := select
  isReady v fd := fdIsset fd v.rset
  add v clientfd := { v with rfds := fdSet clientfd v.rfds }
  forget v fd := { v with rfds := fdClr fd v.rfds }
  isReady_add := rfl
  isReady_forget := rfl

/-- `main` up to its loop, with the descriptor of `_socket`, the other descriptors of the
process, and `rset` as it is before the first copy. A socket that could not be opened makes
`Bind` exit. -/
def init (sockfd : Int) (others : Int → Bool) (rset : FdSet) : Option (State Sets) :=
  if 0 ≤ sockfd then
    some
      { sockfd := sockfd
        watch := ⟨rset, fdSet sockfd fdZero⟩
        mxfd := sockfd
        others := others
        fds := .initial
        touched := [sockfd]
        trace := [] }
  else none

theorem init_started {sockfd : Int} {others : Int → Bool} {rset : FdSet} {s₀ : State Sets}
    (h : init sockfd others rset = some s₀) : s₀.sockfd ≤ s₀.mxfd ∧ s₀.trace = [] := by
  rw [init] at h
  split_ifs at h with h0
  cases h
  exact ⟨Int.le_refl _, rfl⟩

/-- The loop of `main`. -/
def main : State Sets → Env → Option (State Sets) := watcher.main

section

variable {set : FdSet} {fd x : Int}

@[simp] theorem fdSet_self : fdSet fd set fd = true := Function.update_self _ _ _

theorem fdSet_of_ne (h : x ≠ fd) : fdSet fd set x = set x := Function.update_of_ne h _ _

@[simp] theorem fdClr_self : fdClr fd set fd = false := Function.update_self _ _ _

theorem fdClr_of_ne (h : x ≠ fd) : fdClr fd set x = set x := Function.update_of_ne h _ _

end

theorem reusing_run :
    ∃ s₀ s, init 3 stdio (fun _ => true) = some s₀ ∧
      Run main (Succeeds watcher) s₀ reusing.reverse s ∧ s.fds.owner 4 = some 2 := by
  have hdone : ((init 3 stdio fun _ => true).bind fun s₀ =>
      exec main (Succeeds watcher) s₀ reusing).any
        (fun s => decide (s.fds.owner 4 = some 2)) = true := by
    decide +kernel
  obtain ⟨s₀, s, hinit, hexec, howner⟩ := exists_exec hdone
  exact ⟨s₀, s, hinit, Run.of_exec hexec, howner⟩

end NetDesign.SelectPoll.Select
