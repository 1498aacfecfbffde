import NetDesign.Coroutine.Task

/-!
# Stepping a task

Two calls resume the coroutine of a task, `task::resume` and the iterator's `operator++`. Both
look first whether it has ended, and `task::resume` looks again when it comes back. So neither
resumes it at its final suspend point, in whatever order they are called, and each of them runs
one segment of the body as long as there is one.

* `Op.run_final`, `Op.run_suspended` — what one call does.
* `calls_left` — what any calls do.
* `stepping_exact` — the same of a coroutine that has just been called.
* `visits_stepped` — what a range-for visits after any calls.
-/

namespace NetDesign.Task

open Coroutine

variable {σ : Type*} {body : Body σ Int} {s : σ} {ps : List (Option Int)} {c task : Live σ Int}
  {n : Nat}

/-! ## Calls -/

inductive Op
  | resume
  | incr

/-- What is returned, where `b` is what `task::resume` would return. -/
def Op.reply (b : Bool) : Op → Option Bool
  | .resume => some b
  | .incr => none

def Op.run (body : Body σ Int) (hd : Handle σ) : Op → Option (Handle σ × Option Bool)
  | .resume => (Task.resume body hd).map fun r => (r.1, some r.2)
  | .incr => (hd.bind (incrLive body)).map fun hd => (some hd, none)

/-- The calls one after the other, and what they return. -/
def calls (body : Body σ Int) : List Op → Handle σ → Option (Handle σ × List (Option Bool))
  | [], hd => some (hd, [])
  | op :: ops, hd =>
    (op.run body hd).bind fun r => (calls body ops r.1).map fun q => (q.1, r.2 :: q.2)

/-- At the final suspend point nothing is resumed. -/
theorem Op.run_final (op : Op) (h : Left body c.frame 0) :
    op.run body (some c) = some (some c, op.reply false) := by
  have hdone : c.done = true := h.done_eq
  cases op with
  | resume =>
    rw [Op.run, Task.resume, if_pos hdone]
    rfl
  | incr =>
    rw [Op.run, Option.bind_some, incrLive, if_pos hdone]
    rfl

/-- Before it, one segment is run. -/
theorem Op.run_suspended (op : Op) (h : Left body c.frame (n + 1)) :
    ∃ f, c.frame.resume body = some f ∧ Left body f n ∧
      op.run body (some c) =
        some (some ⟨f, c.resumed ++ [c.frame]⟩, op.reply (decide (0 < n))) := by
  obtain ⟨f, hresume, hleft⟩ := h.resume
  have hdone : ¬ c.done = true := by
    rw [Live.done, h.done_eq]
    simp
  refine ⟨f, hresume, hleft, ?_⟩
  cases op with
  | resume =>
    have hmore : (!f.done) = decide (0 < n) := by
      rw [hleft.done_eq]
      cases n <;> rfl
    rw [Op.run, Task.resume, if_neg hdone, Live.resume_eq hresume, ← hmore]
    rfl
  | incr =>
    rw [Op.run, Option.bind_some, incrLive, if_neg hdone, Live.resume_eq hresume]
    rfl

/-! ## Sequences of calls -/

/-- `ops` have made `task` of `c`, which had `n` segments left. -/
structure Stepped (body : Body σ Int) (c : Live σ Int) (n : Nat) (ops : List Op)
    (task : Live σ Int) (replies : List (Option Bool)) : Prop where
  replies : replies = ops.mapIdx fun i op => op.reply (decide (i + 1 < n))
  frame : c.frame.advance body (min ops.length n) = some task.frame
  resumed : task.resumed.length = c.resumed.length + min ops.length n
  unfinished : ∀ f ∈ task.resumed, f ∈ c.resumed ∨ f.done = false

variable {op : Op} {ops : List Op} {replies : List (Option Bool)}

theorem Stepped.nil : Stepped body c n [] c [] where
  replies := rfl
  frame := by
    rw [List.length_nil, Nat.zero_min]
    rfl
  resumed := by simp
  unfinished := fun _ hf => .inl hf

theorem Stepped.cons_final (h : Stepped body c 0 ops task replies) :
    Stepped body c 0 (op :: ops) task (op.reply false :: replies) where
  replies := by
    rw [h.replies, List.mapIdx_cons]
    simp
  frame := by
    have hframe := h.frame
    rw [Nat.min_zero] at hframe ⊢
    exact hframe
  resumed := by
    have hresumed := h.resumed
    rw [Nat.min_zero] at hresumed ⊢
    exact hresumed
  unfinished := h.unfinished

theorem Stepped.cons {f : Frame σ Int} (hresume : c.frame.resume body = some f)
    (hdone : c.frame.done = false)
    (h : Stepped body ⟨f, c.resumed ++ [c.frame]⟩ n ops task replies) :
    Stepped body c (n + 1) (op :: ops) task (op.reply (decide (0 < n)) :: replies) where
  replies := by
    rw [h.replies, List.mapIdx_cons]
    simp
  frame := by
    rw [List.length_cons, Nat.add_min_add_right, Frame.advance, hresume, Option.bind_some]
    exact h.frame
  resumed := by
    rw [h.resumed, List.length_append, List.length_singleton, List.length_cons,
      Nat.add_min_add_right]
    omega
  unfinished := by
    intro g hg
    rcases h.unfinished g hg with hmem | hg
    · rcases List.mem_append.1 hmem with hmem | hmem
      · exact .inl hmem
      · obtain rfl := List.mem_singleton.1 hmem
        exact .inr hdone
    · exact .inr hg

/-- By induction on the calls: each takes a segment, as long as there is one. -/
theorem calls_left (h : Left body c.frame n) (ops : List Op) :
    ∃ task replies, calls body ops (some c) = some (some task, replies) ∧
      Stepped body c n ops task replies := by
  induction ops generalizing c n with
  | nil => exact ⟨c, [], rfl, .nil⟩
  | cons op ops ih =>
    cases n with
    | zero =>
      obtain ⟨task, replies, hcalls, hstepped⟩ := ih h
      refine ⟨task, _, ?_, hstepped.cons_final⟩
      rw [calls, Op.run_final op h, Option.bind_some, hcalls]
      rfl
    | succ n =>
      obtain ⟨f, hresume, hleft, hrun⟩ := Op.run_suspended op h
      have hdone : c.frame.done = false := h.done_eq
      obtain ⟨task, replies, hcalls, hstepped⟩ := ih (c := ⟨f, c.resumed ++ [c.frame]⟩) hleft
      refine ⟨task, _, ?_, hstepped.cons hresume hdone⟩
      rw [calls, hrun, Option.bind_some, hcalls]
      rfl

/-- **Stepping is exact.** The body suspends `ps.length` times and returns: however a task is
stepped, the `i`-th call returns true if it is a `resume` and `i ≤ ps.length`, as many segments
are run as there are calls until none is left, and the coroutine is resumed only before it has
ended. `printNumber(k)` suspends `max(k, 0)` times. -/
theorem stepping_exact (h : Suspends body s ps) (v : Int) (ops : List Op) :
    (∃ task replies, calls body ops (some (.call v s)) = some (some task, replies) ∧
      (∀ i, ops[i]? = some .resume →
        replies[i]? = some (some (decide (i + 1 ≤ ps.length)))) ∧
      Frame.advance body (min ops.length (ps.length + 1)) (.call v s) = some task.frame ∧
      task.resumed.length = min ops.length (ps.length + 1) ∧
      ∀ f ∈ task.resumed, f.done = false) ∧
    ∀ k, IsInt k → ∃ qs, Suspends printNumber (.start k) qs ∧ (qs.length : Int) = max k 0 := by
  constructor
  · obtain ⟨task, replies, hcalls, hstepped⟩ :=
      calls_left (c := Live.call v s) h.left_call ops
    refine ⟨task, replies, hcalls, ?_, hstepped.frame, ?_, ?_⟩
    · intro i hi
      have hle : decide (i + 1 < ps.length + 1) = decide (i + 1 ≤ ps.length) :=
        decide_eq_decide.2 Nat.lt_succ_iff
      rw [hstepped.replies, List.getElem?_mapIdx, hi, ← hle]
      rfl
    · rw [hstepped.resumed, Live.call, List.length_nil, Nat.zero_add]
    · intro f hf
      rcases hstepped.unfinished f hf with hmem | hdone
      · cases hmem
      · exact hdone
  · intro k hk
    refine ⟨_, printNumber_suspends hk.2, ?_⟩
    rw [List.length_replicate, Int.toNat_eq_max]

/-- `printNumber(2)`, with the iterator's step between. -/
theorem stepping_printNumber :
    (∃ task replies, calls printNumber [.resume, .incr, .resume] (some (.call 0 (.start 2))) =
        some (some task, replies) ∧
      (∀ i, [Op.resume, .incr, .resume][i]? = some .resume →
        replies[i]? = some (some (decide (i + 1 ≤ 2)))) ∧
      Frame.advance printNumber 3 (.call 0 (.start 2)) = some task.frame ∧
      task.resumed.length = 3 ∧ ∀ f ∈ task.resumed, f.done = false) ∧
    ∀ k, IsInt k → ∃ qs, Suspends printNumber (.start k) qs ∧ (qs.length : Int) = max k 0 :=
  stepping_exact (printNumber_suspends (k := 2) (by decide)) 0 [.resume, .incr, .resume]

/-! ## A range-for after calls -/

variable {v : Int} {k : Nat} {f : Frame σ Int}

theorem length_held : (held v ps).length = ps.length := by
  induction ps generalizing v with
  | nil => rfl
  | cons p ps ih => exact congrArg Nat.succ ih

theorem visits_final : Visits body ⟨v, none⟩ [] := ⟨1, rfl⟩

/-- By induction on the segments that were run. -/
theorem visits_advance (h : Suspends body s ps) (hk : k ≤ ps.length + 1)
    (hadvance : Frame.advance body k ⟨v, some s⟩ = some f) :
    Visits body f ((v :: held v ps).drop k) := by
  induction k generalizing s v ps with
  | zero =>
    obtain rfl := Option.some.inj hadvance
    exact ⟨ps.length + 2, rangeFor_eq h⟩
  | succ k ih =>
    rw [Frame.advance] at hadvance
    cases ps with
    | nil =>
      obtain rfl : k = 0 := Nat.eq_zero_of_le_zero (Nat.le_of_succ_le_succ hk)
      rw [h.resume_nil] at hadvance
      obtain rfl := Option.some.inj hadvance
      exact visits_final
    | cons p ps =>
      obtain ⟨t, hresume, hrest⟩ := h.resume_cons (v := v)
      rw [hresume] at hadvance
      exact ih hrest (Nat.le_of_succ_le_succ hk) hadvance

/-- **A range-for after calls.** The body returns after finitely many suspend points, and the
iterator has the handle of the task. After `m` calls of `resume` or `++`, a range-for visits what
the promise holds from the `m`-th suspend point on: nothing once the coroutine has ended, and
exactly the yielded values of a body that yields each time, after one call. -/
theorem visits_stepped (h : Suspends body s ps) (v : Int) (ops : List Op) :
    ∃ task replies, calls body ops (some (.call v s)) = some (some task, replies) ∧
      Visits body task.frame ((v :: held v ps).drop ops.length) ∧
      (ps.length < ops.length → Visits body task.frame []) ∧
      ∀ vs, ps = vs.map some → ops.length = 1 → Visits body task.frame vs := by
  obtain ⟨task, replies, hcalls, hstepped⟩ := calls_left (c := Live.call v s) h.left_call ops
  have hvisits : Visits body task.frame ((v :: held v ps).drop ops.length) := by
    have hlen : (v :: held v ps).length = ps.length + 1 := congrArg Nat.succ length_held
    rw [List.drop_eq_drop_min, hlen]
    exact visits_advance h (Nat.min_le_right _ _) hstepped.frame
  refine ⟨task, replies, hcalls, hvisits, fun hlt => ?_, fun vs hps hone => ?_⟩
  · rwa [List.drop_eq_nil_of_le] at hvisits
    rw [List.length_cons, length_held]
    exact hlt
  · rw [hone, hps, held_map_some] at hvisits
    exact hvisits

/-- After one `resume`, `iota(3)` is visited as 3, 2, 1. -/
theorem visits_stepped_iota :
    ∃ task replies, calls iota [.resume] (some (.call 7 (.start 3))) = some (some task, replies) ∧
      Visits iota task.frame [3, 2, 1] := by
  obtain ⟨task, replies, hcalls, -, -, hone⟩ := visits_stepped (iota_suspends 3) 7 [.resume]
  exact ⟨task, replies, hcalls, hone (countdown 3) rfl rfl⟩

end NetDesign.Task
