import Mathlib.Order.Basic
import Mathlib.Data.List.Basic

/-!
# Runs of a step function

A program together with its environment is a step function `σ → α → Option σ`: the action
carries every choice the environment makes, and `none` means the action is not possible in
that state. A run is a sequence of steps that each meet an assumption `ok`.

* `Run.invariant` — what one step preserves, a whole run preserves.
* `Run.good_iff` — a property of the history holds at the end of a run exactly when every
  step of the run met a condition.
* `Run.always_iff` — the same for a property that has to hold in every state of the run.
* `Run.guard_iff` — the same for a property that every step has to have.
* `Run.variant` — a measure that some of the actions decrease, and none increases.
* `Run.simulates` — a relation that the steps of two programs keep, their runs keep.
* `Run.together` — the same where both programs were seen to take the same actions.
* `Run.of_exec` — a run that is computed.
-/

namespace NetDesign

variable {σ α : Type*} {step : σ → α → Option σ} {ok ok' : σ → α → Prop} {s₀ s t : σ}
  {as : List α}

/-- `Run step ok s₀ as s`: the actions `as`, newest first, lead from `s₀` to `s`, and each
of them met `ok` in the state it was taken in. -/
inductive Run (step : σ → α → Option σ) (ok : σ → α → Prop) (s₀ : σ) : List α → σ → Prop
  | nil : Run step ok s₀ [] s₀
  | cons {as : List α} {s t : σ} {a : α} :
      Run step ok s₀ as s → ok s a → step s a = some t → Run step ok s₀ (a :: as) t

namespace Run

theorem cons_iff {a : α} :
    Run step ok s₀ (a :: as) t ↔ ∃ s, Run step ok s₀ as s ∧ ok s a ∧ step s a = some t := by
  refine ⟨?_, ?_⟩
  · intro hyp
    rcases hyp with _ | ⟨hrun, hok, hstep⟩
    exact ⟨_, hrun, hok, hstep⟩
  · intro hyp
    obtain ⟨s, hrun, hok, hstep⟩ := hyp
    exact .cons hrun hok hstep

/-- **The invariant rule.** -/
theorem invariant {Inv : σ → Prop} (h₀ : Inv s₀)
    (hstep : ∀ {s a t}, Inv s → ok s a → step s a = some t → Inv t)
    (h : Run step ok s₀ as s) : Inv s := by
  induction h with
  | nil => exact h₀
  | cons _ hok hs ih => exact hstep ih hok hs

theorem mono (himp : ∀ s a, ok s a → ok' s a) (h : Run step ok s₀ as s) :
    Run step ok' s₀ as s := by
  induction h with
  | nil => exact .nil
  | cons _ hok hs ih => exact .cons ih (himp _ _ hok) hs

/-- The actions determine the state, whatever was assumed of them. -/
theorem unique (h : Run step ok s₀ as s) (h' : Run step ok' s₀ as t) : s = t := by
  induction h generalizing t with
  | nil =>
    cases h'
    rfl
  | cons _ _ hs ih =>
    obtain ⟨u, hrun, -, hu⟩ := cons_iff.1 h'
    cases ih hrun
    rw [hs] at hu
    exact Option.some.inj hu

/-- **History properties.** If each step of the run keeps `Good` exactly when it meets
`cond`, then `Good` holds at the end of a run exactly when all its steps met `cond`. -/
theorem good_iff {Inv Good : σ → Prop} {cond : σ → α → Prop} (hInv₀ : Inv s₀)
    (hInv : ∀ {s a t}, Inv s → ok s a → step s a = some t → Inv t) (h₀ : Good s₀)
    (hgood : ∀ {s a t}, Inv s → ok s a → step s a = some t → (Good t ↔ Good s ∧ cond s a))
    (h : Run step ok s₀ as s) :
    Good s ↔ Run step (fun s a => ok s a ∧ cond s a) s₀ as s := by
  induction h with
  | nil => exact ⟨fun _ => .nil, fun _ => h₀⟩
  | @cons as s t a hrun hok hs ih =>
    rw [hgood (hrun.invariant hInv₀ hInv) hok hs, ih]
    refine ⟨?_, ?_⟩
    · intro hyp
      obtain ⟨hr, hc⟩ := hyp
      exact .cons hr ⟨hok, hc⟩ hs
    · intro hr
      obtain ⟨u, hu, ⟨-, hc⟩, -⟩ := cons_iff.1 hr
      cases hrun.unique hu
      exact ⟨hu, hc⟩

/-- **State properties.** If a step from a state with `P` leads to a state with `P` exactly
when it meets `cond`, then `P` holds in every state of a run exactly when all its steps
met `cond`. -/
theorem always_iff {Inv P : σ → Prop} {cond : σ → α → Prop} (hInv₀ : Inv s₀)
    (hInv : ∀ {s a t}, Inv s → ok s a → step s a = some t → Inv t) (h₀ : P s₀)
    (hP : ∀ {s a t}, Inv s → P s → ok s a → step s a = some t → (P t ↔ cond s a))
    (h : Run step ok s₀ as s) :
    (Run step (fun s a => ok s a ∧ P s) s₀ as s ∧ P s) ↔
      Run step (fun s a => ok s a ∧ cond s a) s₀ as s := by
  induction h with
  | nil => exact ⟨fun _ => .nil, fun _ => ⟨.nil, h₀⟩⟩
  | @cons as s t a hrun hok hs ih =>
    have hinv := hrun.invariant hInv₀ hInv
    refine ⟨?_, ?_⟩
    · intro hyp
      obtain ⟨hr, ht⟩ := hyp
      obtain ⟨u, hu, ⟨-, hs'⟩, -⟩ := cons_iff.1 hr
      cases hrun.unique hu
      exact .cons (ih.1 ⟨hu, hs'⟩) ⟨hok, (hP hinv hs' hok hs).1 ht⟩ hs
    · intro hr
      obtain ⟨u, hu, ⟨-, hc⟩, -⟩ := cons_iff.1 hr
      cases hrun.unique hu
      obtain ⟨hu', hs'⟩ := ih.2 hu
      exact ⟨.cons hu' ⟨hok, hs'⟩ hs, (hP hinv hs' hok hs).2 hc⟩

/-- **Step properties.** If a step has `P` exactly when it meets `cond`, then all steps of a
run have `P` exactly when they all met `cond`. -/
theorem guard_iff {Inv : σ → Prop} {P cond : σ → α → Prop} (hInv₀ : Inv s₀)
    (hInv : ∀ {s a t}, Inv s → ok s a → step s a = some t → Inv t)
    (hP : ∀ {s a t}, Inv s → ok s a → step s a = some t → (P s a ↔ cond s a))
    (h : Run step ok s₀ as s) : Run step P s₀ as s ↔ Run step cond s₀ as s := by
  induction h with
  | nil => exact ⟨fun _ => .nil, fun _ => .nil⟩
  | @cons as s t a hrun hok hs ih =>
    have hiff := hP (hrun.invariant hInv₀ hInv) hok hs
    refine ⟨?_, ?_⟩
    · intro hr
      obtain ⟨u, hu, hp, -⟩ := cons_iff.1 hr
      cases hrun.unique hu
      exact .cons (ih.1 hu) (hiff.1 hp) hs
    · intro hr
      obtain ⟨u, hu, hc, -⟩ := cons_iff.1 hr
      cases hrun.unique hu
      exact .cons (ih.2 hu) (hiff.2 hc) hs

/-- **The variant rule.** If an action with `p` decreases a measure that is not zero, and no
action increases it, a run decreases it as often as it takes actions with `p`. -/
theorem variant (Inv : σ → Prop) (V : σ → Nat) (p : α → Bool) (h₀ : Inv s₀)
    (hInv : ∀ {s a t}, Inv s → ok s a → step s a = some t → Inv t)
    (hV : ∀ {s a t}, Inv s → step s a = some t → V t ≤ V s - if p a then 1 else 0)
    (h : Run step ok s₀ as s) : V s ≤ V s₀ - as.countP p := by
  induction h with
  | nil => exact Nat.le_refl _
  | @cons as s t a hrun _ hs ih =>
    have hstep := hV (hrun.invariant h₀ hInv) hs
    rw [List.countP_cons]
    omega

/-- An action that is always possible can be taken any number of times. -/
theorem exists_replicate {Inv : σ → Prop} {a : α} (h₀ : Inv s₀)
    (hInv : ∀ {s a t}, Inv s → ok s a → step s a = some t → Inv t)
    (hstep : ∀ {s}, Inv s → ok s a ∧ (step s a).isSome = true) (k : Nat) :
    ∃ s, Run step ok s₀ (List.replicate k a) s := by
  induction k with
  | zero => exact ⟨s₀, .nil⟩
  | succ k ih =>
    obtain ⟨s, hrun⟩ := ih
    obtain ⟨hok, hsome⟩ := hstep (hrun.invariant h₀ hInv)
    obtain ⟨t, ht⟩ := Option.isSome_iff_exists.1 hsome
    exact ⟨t, .cons hrun hok ht⟩

/-- **Simulation.** If each step is matched by one that takes the same action in a related state,
each run is. -/
theorem simulates {τ : Type*} {step' : τ → α → Option τ} {ok' : τ → α → Prop} {t₀ : τ}
    {R : σ → τ → Prop} (h₀ : R s₀ t₀)
    (hstep : ∀ {s t u a}, R s t → ok s a → step s a = some u →
      ∃ v, ok' t a ∧ step' t a = some v ∧ R u v)
    (h : Run step ok s₀ as s) : ∃ t, Run step' ok' t₀ as t ∧ R s t := by
  induction h with
  | nil => exact ⟨t₀, .nil, h₀⟩
  | cons _ hok hs ih =>
    obtain ⟨t, hrun, hrel⟩ := ih
    obtain ⟨v, hok', hs', hrel'⟩ := hstep hrel hok hs
    exact ⟨v, .cons hrun hok' hs', hrel'⟩

/-- **Lockstep.** What two programs keep when they take the same action, they keep over runs that
take the same actions. -/
theorem together {τ : Type*} {step' : τ → α → Option τ} {ok' : τ → α → Prop} {t₀ t : τ}
    {R : σ → τ → Prop} (h₀ : R s₀ t₀)
    (hstep : ∀ {s t a s' t'}, R s t → step s a = some s' → step' t a = some t' → R s' t')
    (h : Run step ok s₀ as s) (h' : Run step' ok' t₀ as t) : R s t := by
  induction h generalizing t with
  | nil =>
    cases h'
    exact h₀
  | cons _ _ hs ih =>
    obtain ⟨u, hrun, -, hs'⟩ := cons_iff.1 h'
    exact hstep (ih hrun) hs hs'

end Run

/-- Take the actions in order, oldest first, as long as they are possible and allowed. -/
def exec (step : σ → α → Option σ) (ok : σ → α → Prop) [∀ s a, Decidable (ok s a)] (s : σ) :
    List α → Option σ
  | [] => some s
  | a :: as => if ok s a then (step s a).bind fun t => exec step ok t as else none

theorem Run.append_exec [∀ s a, Decidable (ok s a)] {bs : List α} (h : Run step ok s₀ as s)
    (hexec : exec step ok s bs = some t) : Run step ok s₀ (bs.reverse ++ as) t := by
  induction bs generalizing s as with
  | nil =>
    cases hexec
    exact h
  | cons b bs ih =>
    rw [exec] at hexec
    split_ifs at hexec with hok
    obtain ⟨u, hstep, hrest⟩ := Option.bind_eq_some_iff.1 hexec
    rw [List.reverse_cons, List.append_assoc]
    exact ih (.cons h hok hstep) hrest

theorem Run.of_exec [∀ s a, Decidable (ok s a)] (h : exec step ok s₀ as = some s) :
    Run step ok s₀ as.reverse s := by
  simpa using Run.append_exec .nil h

/-- A run that is computed from an initial state that is computed. -/
theorem exists_exec [∀ s a, Decidable (ok s a)] {init : Option σ} {p : σ → Prop}
    [DecidablePred p] (h : (init.bind fun s₀ => exec step ok s₀ as).any (p ·) = true) :
    ∃ s₀ s, init = some s₀ ∧ exec step ok s₀ as = some s ∧ p s := by
  obtain ⟨s, hs, hp⟩ := (Option.any_eq_true _ _).1 h
  obtain ⟨s₀, hinit, hexec⟩ := Option.bind_eq_some_iff.1 hs
  exact ⟨s₀, s, hinit, hexec, of_decide_eq_true hp⟩

end NetDesign
