import NetDesign.Run
import Mathlib.Logic.Function.Basic

/-!
# Histories of runs

What the steps of a run were to each of several parties. `event s a` says whom the action `a`
concerns in the state `s`, and what it is to them; a history keeps what happened to each, newest
first. It is read off the run, and no step reads it.

* `Run.history_invariant` — what one step preserves of a state and a history, a whole run
  preserves.
-/

namespace NetDesign

variable {σ α ι ε : Type*} [DecidableEq ι]

/-- What happened is put on the log of the one it happened to. -/
def record (logs : ι → List ε) : Option (ι × ε) → ι → List ε
  | some (i, e) => Function.update logs i (e :: logs i)
  | none => logs

section

variable {logs : ι → List ε} {i j : ι} {e : ε}

@[simp] theorem record_none : record logs none = logs := rfl

@[simp] theorem record_self : record logs (some (i, e)) i = e :: logs i :=
  Function.update_self _ _ _

theorem record_of_ne (h : j ≠ i) : record logs (some (i, e)) j = logs j :=
  Function.update_of_ne h _ _

theorem mem_record {o : Option (ι × ε)} : e ∈ record logs o j ↔ o = some (j, e) ∨ e ∈ logs j := by
  rcases o with _ | ⟨i, e'⟩
  · simp
  · by_cases h : j = i
    · subst h
      simp [eq_comm]
    · simp [record_of_ne h, Ne.symm h]

/-- An event that is not of `j` leaves its log alone. -/
theorem record_map_of_ne {o : Option ι} (h : o ≠ some j) :
    record logs (o.map (·, e)) j = logs j := by
  cases o with
  | none => rfl
  | some i => exact record_of_ne fun heq => h (heq ▸ rfl)

end

/-- The state the actions lead to, newest first. -/
def replay (step : σ → α → Option σ) (s₀ : σ) : List α → Option σ
  | [] => some s₀
  | a :: as => (replay step s₀ as).bind (step · a)

/-- What happened to each party in the course of the actions. -/
def history (step : σ → α → Option σ) (event : σ → α → Option (ι × ε)) (s₀ : σ) :
    List α → ι → List ε
  | [] => fun _ => []
  | a :: as => record (history step event s₀ as) ((replay step s₀ as).bind (event · a))

namespace Run

variable {step : σ → α → Option σ} {ok : σ → α → Prop} {event : σ → α → Option (ι × ε)}
  {s₀ s t : σ} {as : List α} {a : α}

omit [DecidableEq ι] in
theorem replay_eq (h : Run step ok s₀ as s) : replay step s₀ as = some s := by
  induction h with
  | nil => rfl
  | cons _ _ hs ih => rw [replay, ih, Option.bind_some, hs]

theorem history_cons (h : Run step ok s₀ as s) :
    history step event s₀ (a :: as) = record (history step event s₀ as) (event s a) := by
  rw [history, h.replay_eq, Option.bind_some]

/-- **The invariant rule with a history.** -/
theorem history_invariant (Inv : σ → (ι → List ε) → Prop) (h₀ : Inv s₀ fun _ => [])
    (hstep : ∀ {s logs a t}, Inv s logs → ok s a → step s a = some t →
      Inv t (record logs (event s a)))
    (h : Run step ok s₀ as s) : Inv s (history step event s₀ as) := by
  induction h with
  | nil => exact h₀
  | cons hrun hok hs ih =>
    rw [hrun.history_cons]
    exact hstep ih hok hs

end Run

end NetDesign
