import NetDesign.Run
import Mathlib.Logic.Function.Basic
import Mathlib.Data.Fintype.Basic
import Mathlib.Algebra.Order.BigOperators.Group.Finset

/-!
# `reactor::get_Singleton`

Any number of threads call `get_Singleton`, which looks at the pointer before it takes the mutex
and again after. Every access to `singleton` or to `init_mutex` is one step of the thread that
makes it, and the steps of the threads are interleaved in any order. `new reactor()` allocates,
which can throw, and threads that do not take the mutex may see what follows in another order:
the pointer may be stored before the reactor is constructed.

* `one_reactor` — at most one reactor is allocated, and every call that returns, returns it.
* `constructed_iff` — when what is returned was constructed.
* `calls_end` — no schedule keeps a call from ending.
-/

namespace NetDesign.Reactor.Singleton

variable {ι : Type*} [DecidableEq ι]

/-! ## The threads -/

/-- What a thread does next: the first comparison, the constructor of `lock_guard`, the second
comparison, the allocation; then, with the pointer to a reactor that is neither constructed nor
stored, constructed only, or stored only, what is left of the two; the destructor of
`lock_guard`, after the assignment or after an exception; and the load for `return`. -/
inductive Pc
  | outside
  | check
  | lock
  | recheck
  | alloc
  | fresh (p : Nat)
  | built (p : Nat)
  | stored (p : Nat)
  | unlock
  | unwind
  | load
  deriving DecidableEq, Repr

/-- What a call returned to a thread, and whether it was the pointer to a constructed reactor at
that moment. -/
structure Return (ι : Type*) where
  thread : ι
  result : Option Nat
  constructed : Bool

structure State (ι : Type*) where
  pc : ι → Pc
  singleton : Option Nat
  initMutex : Option ι
  allocated : Nat
  constructed : Nat → Bool
  returns : List (Return ι)

def start : State ι where
  pc _ := .outside
  singleton := none
  initMutex := none
  allocated := 0
  constructed _ := false
  returns := []

namespace State

def goto (s : State ι) (i : ι) (pc : Pc) : State ι := { s with pc := Function.update s.pc i pc }

/-- The constructor of a reactor. -/
def construct (s : State ι) (p : Nat) : State ι :=
  { s with constructed := Function.update s.constructed p true }

end State

inductive Act (ι : Type*)
  | call (i : ι)
  | next (i : ι)
  | publish (i : ι)
  | throw (i : ι)
  deriving DecidableEq, Repr

/-- The next step of the thread `i`. -/
def getSingleton (s : State ι) (i : ι) : Option (State ι) :=
  match s.pc i with
  | .outside => none
  | .check => some (s.goto i (if s.singleton = none then .lock else .load))
  | .lock =>
    if s.initMutex = none then some { s.goto i .recheck with initMutex := some i } else none
  | .recheck => some (s.goto i (if s.singleton = none then .alloc else .unlock))
  | .alloc => some { s.goto i (.fresh s.allocated) with allocated := s.allocated + 1 }
  | .fresh p => some ((s.construct p).goto i (.built p))
  | .built p => some { s.goto i .unlock with singleton := some p }
  | .stored p => some ((s.construct p).goto i .unlock)
  | .unlock => some { s.goto i .load with initMutex := none }
  | .unwind => some { s.goto i .outside with initMutex := none }
  | .load => some { s.goto i .outside with
      returns := ⟨i, s.singleton, s.singleton.any s.constructed⟩ :: s.returns }

/-- A thread calls, goes on, stores the pointer before the reactor is constructed, or leaves
`new` by an exception. -/
def step (s : State ι) : Act ι → Option (State ι)
  | .call i => if s.pc i = .outside then some (s.goto i .check) else none
  | .next i => getSingleton s i
  | .publish i =>
    match s.pc i with
    | .fresh p => some { s.goto i (.stored p) with singleton := some p }
    | _ => none
  | .throw i => if s.pc i = .alloc then some (s.goto i .unwind) else none

/-! ## What a step does -/

inductive Moves (s : State ι) (i : ι) : Act ι → State ι → Prop
  | called : s.pc i = .outside → Moves s i (.call i) (s.goto i .check)
  | missed : s.pc i = .check → s.singleton = none → Moves s i (.next i) (s.goto i .lock)
  | found : s.pc i = .check → s.singleton ≠ none → Moves s i (.next i) (s.goto i .load)
  | locked : s.pc i = .lock → s.initMutex = none →
      Moves s i (.next i) { s.goto i .recheck with initMutex := some i }
  | missing : s.pc i = .recheck → s.singleton = none → Moves s i (.next i) (s.goto i .alloc)
  | present : s.pc i = .recheck → s.singleton ≠ none → Moves s i (.next i) (s.goto i .unlock)
  | allocated : s.pc i = .alloc →
      Moves s i (.next i) { s.goto i (.fresh s.allocated) with allocated := s.allocated + 1 }
  | thrown : s.pc i = .alloc → Moves s i (.throw i) (s.goto i .unwind)
  | constructed {p : Nat} : s.pc i = .fresh p →
      Moves s i (.next i) ((s.construct p).goto i (.built p))
  | published {p : Nat} : s.pc i = .fresh p →
      Moves s i (.publish i) { s.goto i (.stored p) with singleton := some p }
  | assigned {p : Nat} : s.pc i = .built p →
      Moves s i (.next i) { s.goto i .unlock with singleton := some p }
  | completed {p : Nat} : s.pc i = .stored p →
      Moves s i (.next i) ((s.construct p).goto i .unlock)
  | unlocked : s.pc i = .unlock → Moves s i (.next i) { s.goto i .load with initMutex := none }
  | unwound : s.pc i = .unwind → Moves s i (.next i) { s.goto i .outside with initMutex := none }
  | returned : s.pc i = .load → Moves s i (.next i) { s.goto i .outside with
      returns := ⟨i, s.singleton, s.singleton.any s.constructed⟩ :: s.returns }

variable {s t s₀ : State ι} {a : Act ι} {as bs : List (Act ι)} {i j : ι} {q : Pc} {p : Nat}

omit [DecidableEq ι] in
theorem State.construct_self (s : State ι) (p : Nat) : (s.construct p).constructed p = true :=
  Function.update_self _ _ _

theorem getSingleton_moves (h : getSingleton s i = some t) : Moves s i (.next i) t := by
  unfold getSingleton at h
  split at h
  case h_1 => cases h
  case h_2 hpc =>
    cases h
    split_ifs with hnone
    · exact .missed hpc hnone
    · exact .found hpc hnone
  case h_3 hpc =>
    split_ifs at h with hfree
    cases h
    exact .locked hpc hfree
  case h_4 hpc =>
    cases h
    split_ifs with hnone
    · exact .missing hpc hnone
    · exact .present hpc hnone
  case h_5 hpc => cases h; exact .allocated hpc
  case h_6 hpc => cases h; exact .constructed hpc
  case h_7 hpc => cases h; exact .assigned hpc
  case h_8 hpc => cases h; exact .completed hpc
  case h_9 hpc => cases h; exact .unlocked hpc
  case h_10 hpc => cases h; exact .unwound hpc
  case h_11 hpc => cases h; exact .returned hpc

theorem step_moves (h : step s a = some t) : ∃ i, Moves s i a t := by
  cases a with
  | call i =>
    simp only [step] at h
    split_ifs at h with hpc
    cases h
    exact ⟨i, .called hpc⟩
  | next i => exact ⟨i, getSingleton_moves h⟩
  | publish i =>
    simp only [step] at h
    split at h
    · cases h
      exact ⟨i, .published ‹_›⟩
    · cases h
  | throw i =>
    simp only [step] at h
    split_ifs at h with hpc
    cases h
    exact ⟨i, .thrown hpc⟩

/-- The most steps that a call at this place has left. -/
def Pc.rank : Pc → Nat
  | .outside => 0
  | .load | .unwind => 1
  | .unlock => 2
  | .built _ | .stored _ => 3
  | .fresh _ => 4
  | .alloc => 5
  | .recheck => 6
  | .lock => 7
  | .check => 8

/-- A step moves one thread, and on if it is not a call. Only a `publish` stores what is not
constructed. -/
theorem Moves.pc (h : Moves s i a t) :
    ∃ q, t.pc = Function.update s.pc i q ∧ (a = .call i ∨ q.rank < (s.pc i).rank) ∧
      ∀ p, q = .stored p → a = .publish i := by
  cases h with
  | called => exact ⟨_, rfl, .inl rfl, fun p hp => by cases hp⟩
  | published hpc => exact ⟨_, rfl, .inr (by simp [hpc, Pc.rank]), fun p hp => rfl⟩
  | missed hpc | found hpc | locked hpc | missing hpc | present hpc | allocated hpc | thrown hpc
  | constructed hpc | assigned hpc | completed hpc | unlocked hpc | unwound hpc | returned hpc =>
    exact ⟨_, rfl, .inr (by simp [hpc, Pc.rank]), fun p hp => by cases hp⟩

/-! ## What a place says -/

/-- Between the constructor of `lock_guard` and the end of its destructor. -/
def Pc.Holds : Pc → Prop
  | .recheck | .alloc | .fresh _ | .built _ | .stored _ | .unlock | .unwind => True
  | .outside | .check | .lock | .load => False

/-- What the shared state is while a thread is there. -/
def Pc.Fits (s : State ι) : Pc → Prop
  | .outside | .check | .lock => True
  | .recheck => s.singleton = none → s.allocated = 0
  | .alloc | .unwind => s.singleton = none ∧ s.allocated = 0
  | .fresh p => p = 0 ∧ s.singleton = none ∧ s.allocated = 1 ∧ s.constructed 0 = false
  | .built p => p = 0 ∧ s.singleton = none ∧ s.allocated = 1 ∧ s.constructed 0 = true
  | .stored p => p = 0 ∧ s.singleton = some 0 ∧ s.constructed 0 = false
  | .unlock | .load => s.singleton = some 0

omit [DecidableEq ι] in
/-- A thread without the mutex relies on nothing but a pointer that was stored. -/
theorem Pc.Fits.unlocked (h : q.Fits s) (hq : ¬ q.Holds)
    (hcell : s.singleton = none ∨ t.singleton = s.singleton) : q.Fits t := by
  cases q with
  | load =>
    have hset : s.singleton = some 0 := h
    rcases hcell with hnone | hsame
    · rw [hset] at hnone
      cases hnone
    · exact hsame.trans hset
  | outside | check | lock => trivial
  | _ => exact absurd trivial hq

/-- There is no reactor; or there is one, which is not stored yet; or it is stored, and
constructed unless the thread that stored it is about to do that. -/
inductive Cell (s : State ι) : Prop
  | empty : s.singleton = none → s.allocated = 0 → s.constructed 0 = false → Cell s
  | pending : s.singleton = none → s.allocated = 1 → s.initMutex ≠ none → Cell s
  | ready : s.singleton = some 0 → s.allocated = 1 →
      (s.constructed 0 = true ∨ ∃ j, s.pc j = .stored 0) → Cell s

structure Once (s : State ι) : Prop where
  exclusive : ∀ i, (s.pc i).Holds ↔ s.initMutex = some i
  fits : ∀ i, (s.pc i).Fits s
  cell : Cell s
  returns : ∀ r ∈ s.returns, r.result = some 0

omit [DecidableEq ι] in
/-- No two threads hold the mutex. -/
theorem Once.eq_of_holds (hs : Once s) (hi : (s.pc i).Holds) (hj : (s.pc j).Holds) : i = j :=
  Option.some.inj (((hs.exclusive i).1 hi).symm.trans ((hs.exclusive j).1 hj))

/-- A step of `i`. It changes nothing that another thread may rely on, or `i` has the mutex. -/
theorem Once.move (hs : Once s) (hpc : t.pc = Function.update s.pc i q)
    (hself : q.Holds ↔ t.initMutex = some i)
    (hothers : ∀ j, j ≠ i → (t.initMutex = some j ↔ s.initMutex = some j))
    (hfits : q.Fits t)
    (hshared : (∀ q', Pc.Fits s q' → q'.Fits t) ∨
      (s.pc i).Holds ∧ (s.singleton = none ∨ t.singleton = s.singleton))
    (hcell : Cell t) (hreturns : ∀ r ∈ t.returns, r.result = some 0) : Once t := by
  refine ⟨fun j => ?_, fun j => ?_, hcell, hreturns⟩
  · by_cases hj : j = i
    · subst hj
      rw [hpc, Function.update_self]
      exact hself
    · rw [hpc, Function.update_of_ne hj, hothers j hj]
      exact hs.exclusive j
  · by_cases hj : j = i
    · subst hj
      rw [hpc, Function.update_self]
      exact hfits
    · rw [hpc, Function.update_of_ne hj]
      rcases hshared with hsame | ⟨hheld, hset⟩
      · exact hsame _ (hs.fits j)
      · exact (hs.fits j).unlocked (fun hj' => hj (hs.eq_of_holds hj' hheld)) hset

/-- The thread that is about to construct the reactor stays where it is when another moves. -/
theorem Cell.frame (hs : Cell s) (hpc : t.pc = Function.update s.pc i q)
    (hne : s.pc i ≠ .stored 0) (hcell : t.singleton = s.singleton)
    (hallocated : t.allocated = s.allocated) (hconstructed : t.constructed = s.constructed)
    (hmutex : t.initMutex = none → s.initMutex = none ∨ s.singleton ≠ none ∨ s.allocated = 0) :
    Cell t := by
  cases hs with
  | empty hnone hzero hraw =>
    exact .empty (hcell.trans hnone) (hallocated.trans hzero) (hconstructed ▸ hraw)
  | pending hnone hone hheld =>
    refine .pending (hcell.trans hnone) (hallocated.trans hone) fun hfree => ?_
    rcases hmutex hfree with h | h | h
    · exact hheld h
    · exact h hnone
    · rw [hone] at h
      cases h
  | ready hset hone hready =>
    refine .ready (hcell.trans hset) (hallocated.trans hone) ?_
    rw [hconstructed]
    refine hready.imp_right ?_
    rintro ⟨j, hj⟩
    have hji : j ≠ i := fun heq => hne (heq ▸ hj)
    exact ⟨j, by rw [hpc, Function.update_of_ne hji, hj]⟩

/-- A step that changes the place of a thread only. -/
theorem Once.goto (hs : Once s) (hne : s.pc i ≠ .stored 0) (hheld : q.Holds ↔ (s.pc i).Holds)
    (hfits : q.Fits s) : Once (s.goto i q) := by
  have hsame : ∀ q', Pc.Fits s q' → q'.Fits (s.goto i q) := by
    intro q' hq'
    cases q' <;> exact hq'
  exact hs.move rfl (hheld.trans (hs.exclusive i)) (fun _ _ => Iff.rfl) (hsame q hfits)
    (.inl hsame) (hs.cell.frame rfl hne rfl rfl rfl .inl) hs.returns

/-- A step under the mutex, or one that gives it back. -/
theorem Once.write (hs : Once s) (hheld : (s.pc i).Holds)
    (hpc : t.pc = Function.update s.pc i q)
    (hmutex : q.Holds ∧ t.initMutex = s.initMutex ∨ ¬ q.Holds ∧ t.initMutex = none)
    (hset : s.singleton = none ∨ t.singleton = s.singleton) (hfits : q.Fits t) (hcell : Cell t)
    (hreturns : t.returns = s.returns) : Once t := by
  have howner : s.initMutex = some i := (hs.exclusive i).1 hheld
  refine hs.move hpc ?_ (fun j hj => ?_) hfits (.inr ⟨hheld, hset⟩) hcell (hreturns ▸ hs.returns)
  · rcases hmutex with ⟨hq, hsame⟩ | ⟨hq, hfree⟩
    · exact iff_of_true hq (hsame.trans howner)
    · exact iff_of_false hq (by simp [hfree])
  · rcases hmutex with ⟨-, hsame⟩ | ⟨-, hfree⟩
    · rw [hsame]
    · simp [hfree, howner, Ne.symm hj]

omit [DecidableEq ι] in
theorem Once.start : Once (start : State ι) where
  exclusive _ := ⟨False.elim, fun h => by cases h⟩
  fits _ := trivial
  cell := .empty rfl rfl rfl
  returns _ h := by cases h

omit [DecidableEq ι] in
theorem Cell.singleton_eq (hs : Cell s) (hset : s.singleton ≠ none) : s.singleton = some 0 := by
  cases hs with
  | empty hnone | pending hnone => exact absurd hnone hset
  | ready hset => exact hset

omit [DecidableEq ι] in
theorem Cell.allocated_eq (hs : Cell s) (hset : s.singleton = some 0) : s.allocated = 1 := by
  cases hs with
  | empty hnone | pending hnone =>
    rw [hset] at hnone
    cases hnone
  | ready _ hone => exact hone

omit [DecidableEq ι] in
theorem Cell.raw (hs : Cell s) (hzero : s.allocated = 0) : s.constructed 0 = false := by
  cases hs with
  | empty _ _ hraw => exact hraw
  | pending _ hone | ready _ hone =>
    rw [hzero] at hone
    cases hone

omit [DecidableEq ι] in
/-- While nobody holds the mutex, no reactor waits to be stored. -/
theorem Cell.allocated_of_free (hs : Cell s) (hfree : s.initMutex = none)
    (hnone : s.singleton = none) : s.allocated = 0 := by
  cases hs with
  | empty _ hzero => exact hzero
  | pending _ _ hheld => exact absurd hfree hheld
  | ready hset =>
    rw [hset] at hnone
    cases hnone

/-- **One step**, by what it does. -/
theorem once_moves (hs : Once s) (h : Moves s i a t) : Once t := by
  have hfits := hs.fits i
  have hcell := hs.cell
  have hheld : (s.pc i).Holds → s.initMutex ≠ none := fun h => by simp [(hs.exclusive i).1 h]
  cases h with
  | called hpc => exact hs.goto (by simp [hpc]) (by simp [hpc, Pc.Holds]) trivial
  | missed hpc => exact hs.goto (by simp [hpc]) (by simp [hpc, Pc.Holds]) trivial
  | found hpc hset =>
    exact hs.goto (by simp [hpc]) (by simp [hpc, Pc.Holds]) (hcell.singleton_eq hset)
  | locked hpc hfree =>
    refine hs.move (q := .recheck) rfl (iff_of_true trivial rfl) (fun j hj => ?_)
      (hcell.allocated_of_free hfree) (.inl ?_) ?_ hs.returns
    · simp [hfree, Ne.symm hj]
    · intro q' hq'
      cases q' <;> exact hq'
    · exact hcell.frame rfl (by simp [hpc]) rfl rfl rfl fun h => by cases h
  | missing hpc hnone =>
    rw [hpc] at hfits
    exact hs.goto (by simp [hpc]) (by simp [hpc, Pc.Holds]) ⟨hnone, hfits hnone⟩
  | present hpc hset =>
    exact hs.goto (by simp [hpc]) (by simp [hpc, Pc.Holds]) (hcell.singleton_eq hset)
  | allocated hpc =>
    rw [hpc] at hfits hheld
    obtain ⟨hnone, hzero⟩ := hfits
    have hone : s.allocated + 1 = 1 := congrArg (· + 1) hzero
    exact hs.write (q := .fresh s.allocated) (by simp [hpc, Pc.Holds]) rfl (.inl ⟨trivial, rfl⟩)
      (.inr rfl) ⟨hzero, hnone, hone, hcell.raw hzero⟩ (.pending hnone hone (hheld trivial)) rfl
  | thrown hpc =>
    rw [hpc] at hfits
    exact hs.goto (by simp [hpc]) (by simp [hpc, Pc.Holds]) hfits
  | @constructed p hpc =>
    rw [hpc] at hfits hheld
    obtain ⟨rfl, hnone, hone, -⟩ := hfits
    exact hs.write (q := .built 0) (by simp [hpc, Pc.Holds]) rfl (.inl ⟨trivial, rfl⟩)
      (.inr rfl) ⟨rfl, hnone, hone, s.construct_self 0⟩
      (.pending hnone hone (hheld trivial)) rfl
  | @published p hpc =>
    rw [hpc] at hfits
    obtain ⟨rfl, hnone, hone, hraw⟩ := hfits
    exact hs.write (q := .stored 0) (by simp [hpc, Pc.Holds]) rfl (.inl ⟨trivial, rfl⟩)
      (.inl hnone) ⟨rfl, rfl, hraw⟩ (.ready rfl hone (.inr ⟨i, Function.update_self _ _ _⟩)) rfl
  | @assigned p hpc =>
    rw [hpc] at hfits
    obtain ⟨rfl, hnone, hone, hready⟩ := hfits
    exact hs.write (q := .unlock) (by simp [hpc, Pc.Holds]) rfl (.inl ⟨trivial, rfl⟩)
      (.inl hnone) rfl (.ready rfl hone (.inl hready)) rfl
  | @completed p hpc =>
    rw [hpc] at hfits
    obtain ⟨rfl, hset, -⟩ := hfits
    exact hs.write (q := .unlock) (by simp [hpc, Pc.Holds]) rfl (.inl ⟨trivial, rfl⟩)
      (.inr rfl) hset
      (.ready hset (hcell.allocated_eq hset) (.inl (s.construct_self 0))) rfl
  | unlocked hpc =>
    rw [hpc] at hfits
    have hset : s.singleton ≠ none := by
      rw [show s.singleton = some 0 from hfits]
      exact Option.some_ne_none 0
    refine hs.write (q := .load) (by simp [hpc, Pc.Holds]) rfl (.inr ⟨id, rfl⟩) (.inr rfl) hfits
      ?_ rfl
    exact hcell.frame rfl (by simp [hpc]) rfl rfl rfl fun _ => .inr (.inl hset)
  | unwound hpc =>
    rw [hpc] at hfits
    exact hs.write (q := .outside) (by simp [hpc, Pc.Holds]) rfl (.inr ⟨id, rfl⟩) (.inr rfl)
      trivial (.empty hfits.1 hfits.2 (hcell.raw hfits.2)) rfl
  | returned hpc =>
    rw [hpc] at hfits
    refine hs.move (q := .outside) rfl ?_ (fun _ _ => Iff.rfl) trivial (.inl ?_) ?_ ?_
    · exact (by simp [hpc, Pc.Holds] : Pc.outside.Holds ↔ (s.pc i).Holds).trans (hs.exclusive i)
    · intro q' hq'
      cases q' <;> exact hq'
    · exact hcell.frame rfl (by simp [hpc]) rfl rfl rfl .inl
    · intro r hr
      rcases List.mem_cons.1 hr with rfl | hr
      · exact hfits
      · exact hs.returns r hr

theorem once_run (h : Run step (fun _ _ => True) start as s) : Once s :=
  h.invariant Once.start fun hs _ hstep => (step_moves hstep).elim fun _ hm => once_moves hs hm

/-! ## One reactor -/

/-- Its next access to `singleton` stores into it, or may do so. -/
def Pc.Writes : Pc → Prop
  | .fresh _ | .built _ => True
  | _ => False

def Pc.Accesses : Pc → Prop
  | .check | .recheck | .fresh _ | .built _ | .load => True
  | _ => False

omit [DecidableEq ι] in
/-- While a thread is about to store, the others are at the first comparison if they are about
to access the pointer at all. -/
theorem Once.races (hs : Once s) (hij : i ≠ j) (hi : (s.pc i).Writes) (hj : (s.pc j).Accesses) :
    s.pc j = .check := by
  have hheld : (s.pc i).Holds := by
    cases hpc : s.pc i <;> simp_all [Pc.Writes, Pc.Holds]
  have hnone : s.singleton = none := by
    have hfits := hs.fits i
    cases hpc : s.pc i with
    | fresh p | built p =>
      rw [hpc] at hfits
      exact hfits.2.1
    | _ =>
      rw [hpc] at hi
      exact hi.elim
  have hfree : ¬ (s.pc j).Holds := fun h => hij (hs.eq_of_holds hheld h)
  have hfits := hs.fits j
  cases hpc : s.pc j with
  | check => rfl
  | load =>
    rw [hpc] at hfits
    cases hnone.symm.trans hfits
  | outside | lock =>
    rw [hpc] at hj
    exact hj.elim
  | _ =>
    rw [hpc] at hfree
    exact absurd trivial hfree

/-- **One reactor.** However the calls of any threads are interleaved, and whichever allocations
fail, one reactor is allocated at most, every call that returns has returned the pointer to it,
and the only access that another thread can be about to make together with the store is a first
comparison. -/
theorem one_reactor (h : Run step (fun _ _ => True) start as s) :
    s.allocated ≤ 1 ∧ (∀ r ∈ s.returns, r.result = some 0) ∧
      ∀ i j, i ≠ j → (s.pc i).Writes → (s.pc j).Accesses → s.pc j = .check := by
  have hs := once_run h
  refine ⟨?_, hs.returns, fun i j => hs.races⟩
  cases hs.cell with
  | empty _ hzero => exact hzero.le.trans (Nat.zero_le 1)
  | pending _ hone | ready _ hone => exact hone.le

/-- Two threads find no reactor. The second waits for the mutex until the first has stored one. -/
def racing : List (Act Bool) :=
  [.call false, .call true, .next false, .next true, .next false, .next false, .next false,
    .next false, .next false, .next false, .next true, .next true, .next true, .next true,
    .next false]

theorem one_reactor_racing :
    ∃ s, exec step (fun _ _ => True) start racing = some s ∧ s.returns.length = 2 ∧
      s.allocated ≤ 1 ∧ (∀ r ∈ s.returns, r.result = some 0) ∧
        ∀ i j, i ≠ j → (s.pc i).Writes → (s.pc j).Accesses → s.pc j = .check := by
  have hdone : ((some start).bind fun s₀ => exec step (fun _ _ => True) s₀ racing).any
      (fun s => decide (s.returns.length = 2)) = true := by
    decide +kernel
  obtain ⟨s₀, s, hinit, hexec, htwo⟩ := exists_exec hdone
  obtain rfl := Option.some.inj hinit
  exact ⟨s, hexec, htwo, one_reactor (Run.of_exec hexec)⟩

/-! ## What is returned is constructed -/

/-- Every call that returned, returned a constructed reactor. -/
def State.Usable (s : State ι) : Prop := ∀ r ∈ s.returns, r.constructed = true

/-- No call returns while a thread is between the store and the construction. -/
def Undisturbed (s : State ι) (a : Act ι) : Prop :=
  ∀ i, a = .next i → s.pc i = .load → ∀ j p, s.pc j ≠ .stored p

/-- The reactor is constructed before its pointer is stored. -/
def InOrder (_ : State ι) (a : Act ι) : Prop := ∀ i, a ≠ .publish i

omit [DecidableEq ι] in
theorem Once.ready_iff (hs : Once s) (hset : s.singleton = some 0) :
    s.constructed 0 = true ↔ ∀ j p, s.pc j ≠ .stored p := by
  constructor
  · intro hready j p hj
    have hfits := hs.fits j
    rw [hj] at hfits
    cases hready.symm.trans hfits.2.2
  · intro hnone
    cases hs.cell with
    | empty h | pending h => cases hset.symm.trans h
    | ready _ _ hready =>
      rcases hready with hready | ⟨j, hj⟩
      · exact hready
      · exact absurd hj (hnone j 0)

/-- Only a step from `load` returns. -/
theorem Moves.returns_or (h : Moves s i a t) :
    t.returns = s.returns ∧ (∀ k, a = .next k → s.pc k ≠ .load) ∨
      a = .next i ∧ s.pc i = .load ∧
        t.returns = ⟨i, s.singleton, s.singleton.any s.constructed⟩ :: s.returns := by
  cases h with
  | returned hpc => exact .inr ⟨rfl, hpc, rfl⟩
  | called hpc | thrown hpc | published hpc =>
    refine .inl ⟨rfl, fun k hk => ?_⟩
    cases hk
  | missed hpc | found hpc | locked hpc | missing hpc | present hpc | allocated hpc
  | constructed hpc | assigned hpc | completed hpc | unlocked hpc | unwound hpc =>
    refine .inl ⟨rfl, fun k hk => ?_⟩
    cases hk
    rw [hpc]
    intro heq
    cases heq

theorem usable_moves (hs : Once s) (h : Moves s i a t) :
    t.Usable ↔ s.Usable ∧ Undisturbed s a := by
  simp only [State.Usable]
  rcases h.returns_or with ⟨hreturns, hload⟩ | ⟨rfl, hpc, hreturns⟩
  · rw [hreturns]
    exact (and_iff_left fun k hk hpc => absurd hpc (hload k hk)).symm
  · have hfits := hs.fits i
    rw [hpc] at hfits
    have hset : s.singleton = some 0 := hfits
    rw [hreturns, List.forall_mem_cons, hset, Option.any_some, hs.ready_iff hset, and_comm]
    refine and_congr_right fun _ => ⟨fun h k hk _ => h, fun h => h i rfl hpc⟩

theorem stored_moves (hok : InOrder s a) (hs : ∀ j p, s.pc j ≠ .stored p) (h : Moves s i a t) :
    ∀ j p, t.pc j ≠ .stored p := by
  obtain ⟨q, hpc, -, hstored⟩ := h.pc
  intro j p hj
  rw [hpc] at hj
  by_cases hji : j = i
  · subst hji
    rw [Function.update_self] at hj
    exact hok j (hstored p hj)
  · rw [Function.update_of_ne hji] at hj
    exact hs j p hj

/-- In the order of the program, nothing is stored that is not constructed. -/
theorem undisturbed_run (h : Run step InOrder start as s) :
    Run step Undisturbed start as s := by
  induction h with
  | nil => exact .nil
  | cons hrun _ hstep ih =>
    have hnever := hrun.invariant (fun _ _ hj => by cases hj) fun hs hok hstep =>
      (step_moves hstep).elim fun _ hm => stored_moves hok hs hm
    exact .cons ih (fun _ _ _ => hnever) hstep

/-- **What is returned is constructed**, unless a call returns in the middle of the assignment.
That cannot be if the reactor is constructed before its pointer is stored. -/
theorem constructed_iff (h : Run step (fun _ _ => True) start as s) :
    (s.Usable ↔ Run step Undisturbed start as s) ∧ (Run step InOrder start as s → s.Usable) := by
  have hiff : s.Usable ↔ Run step Undisturbed start as s := by
    have hgood : s.Usable ↔ Run step (fun s a => True ∧ Undisturbed s a) start as s := by
      refine h.good_iff Once.start ?_ (fun _ hr => by cases hr) ?_
      · exact fun hs _ hstep => (step_moves hstep).elim fun _ hm => once_moves hs hm
      · exact fun hs _ hstep => (step_moves hstep).elim fun _ hm => usable_moves hs hm
    simpa only [true_and] using hgood
  exact ⟨hiff, fun hrun => hiff.2 (undisturbed_run hrun)⟩

theorem constructed_iff_racing :
    ∃ s, exec step (fun _ _ => True) start racing = some s ∧ s.returns.length = 2 ∧
      (s.Usable ↔ Run step Undisturbed start racing.reverse s) ∧
        (Run step InOrder start racing.reverse s → s.Usable) := by
  have hdone : ((some start).bind fun s₀ => exec step (fun _ _ => True) s₀ racing).any
      (fun s => decide (s.returns.length = 2)) = true := by
    decide +kernel
  obtain ⟨s₀, s, hinit, hexec, htwo⟩ := exists_exec hdone
  obtain rfl := Option.some.inj hinit
  exact ⟨s, hexec, htwo, constructed_iff (Run.of_exec hexec)⟩

/-! ## Every call ends -/

/-- A step but a call: a thread goes on, or its allocation fails. -/
def GoesOn (_ : State ι) (a : Act ι) : Prop := ∀ i, a ≠ .call i

instance {s : State ι} {a : Act ι} : Decidable (GoesOn s a) :=
  match a with
  | .call i => isFalse fun h => h i rfl
  | .next _ | .publish _ | .throw _ => isTrue fun _ h => by cases h

/-- A thread goes on unless it waits for the mutex. -/
theorem next_eq_none (h : step s (.next i) = none) :
    s.pc i = .outside ∨ s.pc i = .lock ∧ s.initMutex ≠ none := by
  rw [step, getSingleton] at h
  split at h
  case h_1 hpc => exact .inl hpc
  case h_3 hpc =>
    split_ifs at h with hfree
    exact .inr ⟨hpc, hfree⟩
  all_goals cases h

/-- If none can go on, none is inside: one that waited would wait for a thread that can. -/
theorem Once.outside (hs : Once s) (h : ∀ i, step s (.next i) = none) (i : ι) :
    s.pc i = .outside := by
  rcases next_eq_none (h i) with hpc | ⟨-, hheld⟩
  · exact hpc
  · obtain ⟨j, hj⟩ := Option.ne_none_iff_exists'.1 hheld
    have hholds := (hs.exclusive j).2 hj
    rcases next_eq_none (h j) with hpc | ⟨hpc, -⟩
    · rw [hpc] at hholds
      exact hholds.elim
    · rw [hpc] at hholds
      exact hholds.elim

variable [Fintype ι]

/-- The steps that the calls have left, at most. -/
def State.left (s : State ι) : Nat := ∑ i, (s.pc i).rank

omit [DecidableEq ι] in
theorem State.left_le (s : State ι) :
    s.left ≤ 8 * (Finset.univ.filter fun i => s.pc i ≠ .outside).card := by
  have hinside : s.left = ∑ i with s.pc i ≠ .outside, (s.pc i).rank := by
    refine (Finset.sum_filter_of_ne fun i _ hrank hout => ?_).symm
    rw [hout] at hrank
    exact hrank rfl
  have height : ∀ i ∈ Finset.univ.filter fun i => s.pc i ≠ .outside, (s.pc i).rank ≤ 8 := by
    intro i _
    cases s.pc i <;> simp [Pc.rank]
  rw [hinside, Nat.mul_comm]
  exact Finset.sum_le_card_nsmul _ _ 8 height

theorem left_moves (hok : GoesOn s a) (h : Moves s i a t) : t.left < s.left := by
  obtain ⟨q, hpc, hrank, -⟩ := h.pc
  have hlt : q.rank < (s.pc i).rank := hrank.resolve_left (hok i)
  refine Finset.sum_lt_sum (fun j _ => ?_) ⟨i, Finset.mem_univ i, ?_⟩
  · by_cases hji : j = i
    · subst hji
      rw [hpc, Function.update_self]
      exact hlt.le
    · rw [hpc, Function.update_of_ne hji]
  · rw [hpc, Function.update_self]
    exact hlt

theorem left_run (h : Run step GoesOn s as t) : as.length + t.left ≤ s.left := by
  induction h with
  | nil => exact (Nat.zero_add _).le
  | cons _ hok hstep ih =>
    obtain ⟨i, hm⟩ := step_moves hstep
    have hlt := left_moves hok hm
    rw [List.length_cons]
    omega

/-- **Every call ends.** Whatever state the calls of finitely many threads have led to, and
however the threads go on, they take at most eight steps for each that is inside; and if none of
them can go on, none is inside. -/
theorem calls_end (h : Run step (fun _ _ => True) start as s) (h' : Run step GoesOn s bs t) :
    bs.length ≤ 8 * (Finset.univ.filter fun i => s.pc i ≠ .outside).card ∧
      ((∀ i, step t (.next i) = none) → ∀ i, t.pc i = .outside) := by
  constructor
  · have hleft := left_run h'
    have hinside := s.left_le
    omega
  · have ht : Once t := h'.invariant (once_run h) fun hs _ hstep =>
      (step_moves hstep).elim fun _ hm => once_moves hs hm
    exact ht.outside

theorem calls_end_racing :
    ∃ s t, exec step (fun _ _ => True) start [.call false, .call true] = some s ∧
      exec step GoesOn s (racing.drop 2) = some t ∧
      (racing.drop 2).reverse.length ≤
        8 * (Finset.univ.filter fun i => s.pc i ≠ .outside).card ∧
      ((∀ i, step t (.next i) = none) → ∀ i, t.pc i = .outside) := by
  have hdone : ((exec step (fun _ _ => True) start [.call false, .call true]).bind fun s =>
      exec step GoesOn s (racing.drop 2)).any (fun t => decide (t.returns.length = 2)) = true := by
    decide +kernel
  obtain ⟨s, t, hcalls, hexec, -⟩ := exists_exec hdone
  exact ⟨s, t, hcalls, hexec, calls_end (Run.of_exec hcalls) (Run.of_exec hexec)⟩

end NetDesign.Reactor.Singleton
