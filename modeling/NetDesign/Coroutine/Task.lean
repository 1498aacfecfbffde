import NetDesign.Coroutine.Frame

/-!
# The tasks of coroutine/test.cc

`task` is the return object of a coroutine that yields integers. Its promise suspends the
coroutine before the body begins and after it has ended. The iterator keeps a reference to a
handle, which its constructor binds to a parameter of its own; the model takes the handle of the
task for it, and says nothing about what becomes of the reference when the constructor returns.
`begin` does not resume the coroutine, so the first element a range-for sees is what happens to
be in the promise, and the yielded values come after it.

* `rangeFor_eq` — a range-for over a suspended coroutine visits what the promise holds, now and
  at every suspend point to come.
* `visits_value` — so it visits the value the promise was created with, then what is yielded.
* `printNumber_suspends` — `printNumber(k)` awaits `max(k, 0)` times.
* `iota_suspends` — `iota(n)` yields `n`, `n - 1`, …, 1.
* `iota_ends_iff` — from a negative value it counts down to the least `int`, and beyond.
-/

namespace NetDesign.Task

open Coroutine

variable {σ : Type*} {body : Body σ Int} {s : σ} {it : Frame σ Int} {v : Int}
  {ps : List (Option Int)} {xs ys : List Int}

/-! ## task::iterator -/

/-- `task::begin`. -/
def begin (task : Frame σ Int) : Frame σ Int := task

/-- `operator*`. -/
def deref (it : Frame σ Int) : Int := it.value

/-- `operator++`. -/
def incr (body : Body σ Int) (it : Frame σ Int) : Option (Frame σ Int) :=
  if it.done then some it else it.resume body

/-- `operator!=`, which does not look at its argument. -/
def ne (it : Frame σ Int) : Bool := !it.done

/-- `for (auto x : task)`, for at most `fuel` comparisons: what `x` is, in order. -/
def rangeFor (body : Body σ Int) : Nat → Frame σ Int → Option (List Int)
  | 0, _ => none
  | fuel + 1, it =>
    if ne it then
      let x := deref it
      ((incr body it).bind (rangeFor body fuel)).map (x :: ·)
    else some []

/-- The range-for visits `xs` and stops. -/
def Visits (body : Body σ Int) (task : Frame σ Int) (xs : List Int) : Prop :=
  ∃ fuel, rangeFor body fuel (begin task) = some xs

theorem rangeFor_suspended {fuel : Nat} :
    rangeFor body (fuel + 1) ⟨v, some s⟩ =
      ((Frame.resume body ⟨v, some s⟩).bind (rangeFor body fuel)).map (v :: ·) := rfl

/-- **A range-for**, by induction on the suspend points. -/
theorem rangeFor_eq (h : Suspends body s ps) :
    rangeFor body (ps.length + 2) ⟨v, some s⟩ = some (v :: held v ps) := by
  induction ps generalizing s v with
  | nil =>
    rw [rangeFor_suspended, h.resume_nil]
    rfl
  | cons p ps ih =>
    obtain ⟨t, hresume, hrest⟩ := h.resume_cons (v := v)
    rw [List.length_cons, rangeFor_suspended, hresume]
    exact congrArg (Option.map (v :: ·)) (ih hrest)

/-- More fuel changes nothing. -/
theorem rangeFor_mono {fuel more : Nat} (hle : fuel ≤ more)
    (h : rangeFor body fuel it = some xs) : rangeFor body more it = some xs := by
  induction fuel generalizing more it xs with
  | zero => cases h
  | succ fuel ih =>
    obtain ⟨more, rfl⟩ : ∃ k, more = k + 1 := ⟨more - 1, by omega⟩
    obtain ⟨v, _ | s⟩ := it
    · exact h
    · rw [rangeFor_suspended, Option.map_eq_some_iff] at h ⊢
      obtain ⟨rest, hbind, hxs⟩ := h
      obtain ⟨it, hresume, hrest⟩ := Option.bind_eq_some_iff.1 hbind
      refine ⟨rest, ?_, hxs⟩
      rw [hresume]
      exact ih (Nat.le_of_succ_le_succ hle) hrest

theorem Visits.unique {task : Frame σ Int} (h : Visits body task xs)
    (h' : Visits body task ys) : xs = ys := by
  obtain ⟨fuel, hx⟩ := h
  obtain ⟨fuel', hy⟩ := h'
  have hx' := rangeFor_mono (Nat.le_max_left fuel fuel') hx
  rw [rangeFor_mono (Nat.le_max_right fuel fuel') hy] at hx'
  exact (Option.some.inj hx').symm

/-! ## task::resume -/

/-- The handle of a task, or null. -/
abbrev Handle (σ : Type*) := Option (Live σ Int)

/-- `task::resume`: the handle, and what is returned. -/
def resume (body : Body σ Int) : Handle σ → Option (Handle σ × Bool)
  | none => some (none, false)
  | some hd =>
    if hd.done then some (some hd, false)
    else (hd.resume body).map fun hd => (some hd, !hd.done)

/-- `operator++` on the task's handle. -/
def incrLive (body : Body σ Int) (hd : Live σ Int) : Option (Live σ Int) :=
  if hd.done then some hd else hd.resume body

/-- What it does to the frame is what the range-for does. -/
theorem incrLive_frame (hd : Live σ Int) :
    (incrLive body hd).map Live.frame = incr body hd.frame := by
  rw [incrLive, incr, Live.done]
  split
  · rfl
  · rw [Live.resume, Option.map_map]
    exact Option.map_id'

/-! ## int -/

/-- The least value of an `int`. -/
def intMin : Int := -2147483648

/-- The greatest value of an `int`. -/
def intMax : Int := 2147483647

def IsInt (i : Int) : Prop := intMin ≤ i ∧ i ≤ intMax

/-- `i++`. -/
def increment (i : Int) : Option Int := if i + 1 ≤ intMax then some (i + 1) else none

/-- `value--`. -/
def decr (value : Int) : Option Int := if intMin ≤ value - 1 then some (value - 1) else none

/-! ## printNumber -/

/-- Where `printNumber` can be resumed. -/
inductive PrintPoint
  | start (k : Int)
  | awaiting (i k : Int)

/-- `i < k`. -/
def printTest (k i : Int) : Rest PrintPoint Int :=
  if i < k then .await (.awaiting i k) else .ret

def printNumber : Body PrintPoint Int
  | .start k => some (printTest k 0)
  | .awaiting i k => (increment i).map (printTest k)

theorem increment_eq {i k : Int} (hk : k ≤ intMax) (hlt : i < k) : increment i = some (i + 1) := by
  have hle : i + 1 ≤ intMax := by omega
  exact if_pos hle

/-- From the test on, by induction on the rounds that are left. -/
theorem printTest_suspends {i k : Int} {s : PrintPoint} (hk : k ≤ intMax)
    (hs : printNumber s = some (printTest k i)) :
    Suspends printNumber s (List.replicate (k - i).toNat none) := by
  generalize hn : (k - i).toNat = n
  induction n generalizing i s with
  | zero =>
    have hge : ¬ i < k := by omega
    exact .ret (hs.trans (congrArg some (if_neg hge)))
  | succ n ih =>
    have hlt : i < k := by omega
    have hrest : printNumber (.awaiting i k) = some (printTest k (i + 1)) := by
      rw [printNumber, increment_eq hk hlt]
      rfl
    refine .await (hs.trans (congrArg some (if_pos hlt))) (ih hrest ?_)
    omega

theorem printNumber_suspends {k : Int} (hk : k ≤ intMax) :
    Suspends printNumber (.start k) (List.replicate k.toNat none) := by
  have h := printTest_suspends (i := 0) (s := .start k) hk rfl
  rwa [Int.sub_zero] at h

/-! ## iota -/

/-- Where `iota` can be resumed. -/
inductive IotaPoint
  | start (value : Int)
  | yielded (value : Int)

/-- `while (value)`. -/
def iotaTest (value : Int) : Rest IotaPoint Int :=
  if value ≠ 0 then .yield value (.yielded value) else .ret

def iota : Body IotaPoint Int
  | .start value => some (iotaTest value)
  | .yielded value => (decr value).map iotaTest

/-- `n`, `n - 1`, …, 1. -/
def countdown : Nat → List Int
  | 0 => []
  | n + 1 => (n + 1 : Nat) :: countdown n

theorem iota_yielded (n : Nat) : iota (.yielded (n + 1 : Nat)) = iota (.start n) := by
  have hdecr : decr (n + 1 : Nat) = some (n : Int) := by
    have hge : intMin ≤ ((n + 1 : Nat) : Int) - 1 := by
      have : intMin ≤ 0 := by decide
      omega
    rw [decr, if_pos hge]
    simp
  simp only [iota, hdecr, Option.map_some]

theorem iota_suspends (n : Nat) : Suspends iota (.start n) ((countdown n).map some) := by
  induction n with
  | zero => exact .ret rfl
  | succ n ih =>
    have hne : ((n + 1 : Nat) : Int) ≠ 0 := by omega
    refine .yield ?_ (ih.congr (iota_yielded n))
    exact congrArg some (if_pos hne)

/-! ## Where iota ends -/

/-- It takes finitely many iterations without overflow, and yields `max(value, 0)` times. -/
def EndsExactly (value : Int) : Prop :=
  ∃ ps, Suspends iota (.start value) ps ∧ (ps.length : Int) = max value 0

theorem length_countdown (n : Nat) : (countdown n).length = n := by
  induction n with
  | zero => rfl
  | succ n ih => rw [countdown, List.length_cons, ih]

theorem iota_ends {value : Int} (h : 0 ≤ value) : EndsExactly value := by
  obtain ⟨n, rfl⟩ := Int.eq_ofNat_of_zero_le h
  refine ⟨_, iota_suspends n, ?_⟩
  rw [List.length_map, length_countdown]
  exact (Int.max_eq_left h).symm

theorem iota_step {value : Int} {s : IotaPoint} (hs : iota s = some (iotaTest value))
    (hne : value ≠ 0) :
    Frame.resume iota ⟨v, some s⟩ = some ⟨value, some (.yielded value)⟩ := by
  rw [Frame.resume, Option.bind_some, hs, iotaTest, if_pos hne]
  rfl

/-- **Below zero.** `n` values are left above the least `int`: each of them is yielded, and then
the least `int` itself. -/
theorem iota_counts_down {n : Nat} {value : Int} {s : IotaPoint}
    (hs : iota s = some (iotaTest value)) (hneg : value < 0) (hn : value = intMin + n) :
    Frame.advance iota (n + 1) ⟨v, some s⟩ = some ⟨intMin, some (.yielded intMin)⟩ := by
  induction n generalizing v value s with
  | zero =>
    obtain rfl : value = intMin := hn.trans (Int.add_zero intMin)
    rw [Frame.advance, iota_step hs (by decide)]
    rfl
  | succ n ih =>
    have hge : intMin ≤ value - 1 := by omega
    have hnext : iota (.yielded value) = some (iotaTest (value - 1)) := by
      rw [iota, decr, if_pos hge]
      rfl
    rw [Frame.advance, iota_step hs (by omega)]
    exact ih hnext (by omega) (by omega)

/-- There `value--` overflows. -/
theorem iota_overflows : Frame.resume iota ⟨v, some (.yielded intMin)⟩ = none := rfl

theorem iota_negative {value : Int} (hmin : intMin ≤ value) (hneg : value < 0) :
    ¬ Suspends iota (.start value) ps := by
  intro h
  obtain ⟨n, hn⟩ := Int.le.dest hmin
  have hdown := iota_counts_down (v := 0) (s := .start value) rfl hneg hn.symm
  obtain ⟨f, hf⟩ := h.left_call.resumable hdown rfl
  rw [iota_overflows] at hf
  cases hf

/-- **Where `iota` ends.** `while (value)` stops at zero only, and no negative value comes to it
before `value--` leaves the range of `int`. -/
theorem iota_ends_iff (value : Int) (hint : IsInt value) : EndsExactly value ↔ 0 ≤ value := by
  constructor
  · rintro ⟨ps, hps, -⟩
    by_contra hneg
    exact iota_negative hint.1 (Int.not_le.1 hneg) hps
  · exact iota_ends

theorem iota_ends_three : EndsExactly 3 ↔ 0 ≤ (3 : Int) :=
  iota_ends_iff 3 ⟨by decide, by decide⟩

/-- `iota(-1)` counts down to the least `int`. -/
theorem iota_below_zero :
    ¬ ∀ value : Int, IsInt value → EndsExactly value := by
  intro hclaim
  obtain ⟨ps, hps, -⟩ := hclaim (-1) ⟨by decide, by decide⟩
  exact iota_negative (by decide) (by decide) hps

/-! ## What a range-for visits -/

/-- What the promise holds at first is visited before the yielded values. -/
theorem visits_call {vs : List Int} (h : Suspends body s (vs.map some)) (v : Int) :
    Visits body (.call v s) (v :: vs) := by
  refine ⟨(vs.map some).length + 2, ?_⟩
  rw [begin, Frame.call, rangeFor_eq h, held_map_some]

/-- **The first element.** Whatever a body yields before it returns, and whatever the promise
holds at first, the range-for visits that and then the yielded values, and never just the
yielded values. -/
theorem visits_value {vs : List Int} (h : Suspends body s (vs.map some)) :
    Visits body (.call v s) (v :: vs) ∧ ¬ Visits body (.call v s) vs :=
  ⟨visits_call h v, fun hvs => List.cons_ne_self v vs ((visits_call h v).unique hvs)⟩

theorem visits_value_iota :
    Visits iota (.call 7 (.start 3)) [7, 3, 2, 1] ∧ ¬ Visits iota (.call 7 (.start 3)) [3, 2, 1] :=
  visits_value (iota_suspends 3)

/-- `iota(n)` is visited as the initial value of its promise, `n`, `n - 1`, …, 1. -/
theorem iota_visits (n : Nat) : Visits iota (.call v (.start n)) (v :: countdown n) :=
  visits_call (iota_suspends n) v

/-- `iota(0)` yields nothing, and one element is visited. -/
theorem visits_unyielded :
    ¬ ∀ (σ : Type) (body : Body σ Int) (s : σ) (v : Int) (vs : List Int),
      Suspends body s (vs.map some) → Visits body (.call v s) vs := by
  intro hclaim
  have hnone := hclaim IotaPoint iota (.start 0) 0 [] (iota_suspends 0)
  have hone : Visits iota (.call 0 (.start 0)) [0] := iota_visits 0
  exact List.cons_ne_nil _ _ (hone.unique hnone)

end NetDesign.Task
