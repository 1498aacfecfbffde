import Mathlib.Order.Basic
import Mathlib.Data.Option.Basic

/-!
# Counting loops

`for (int i = lo; i < hi; i++) body`, where the body can stop the program.

* `forInt_invariant` — an invariant that may mention the counter.
* `forInt_exists` — the same for a body that goes on as long as the invariant holds.
* `forInt_rel` — two loops whose bodies keep a relation; `rel_bind` is the rule for a step.
-/

namespace NetDesign

variable {σ τ : Type*} {lo hi : Int} {s t : σ} {u : τ}

/-- `n` rounds of the body, from `i` on. -/
def forFrom (body : Int → σ → Option σ) : Int → Nat → σ → Option σ
  | _, 0, s => some s
  | i, n + 1, s => (body i s).bind (forFrom body (i + 1) n)

/-- `for (int i = lo; i < hi; i++)`. -/
def forInt (lo hi : Int) (body : Int → σ → Option σ) (s : σ) : Option σ :=
  forFrom body lo (hi - lo).toNat s

variable {body : Int → σ → Option σ} {body' : Int → τ → Option τ}

theorem forFrom_invariant {Inv : Int → σ → Prop} {n : Nat} (h₀ : Inv lo s)
    (hbody : ∀ {i s t}, lo ≤ i → i < lo + n → Inv i s → body i s = some t → Inv (i + 1) t)
    (h : forFrom body lo n s = some t) : Inv (lo + n) t := by
  induction n generalizing lo s with
  | zero =>
    cases h
    simpa using h₀
  | succ n ih =>
    obtain ⟨s', hfirst, hrest⟩ := Option.bind_eq_some_iff.1 h
    have hsum : lo + (n + 1 : Nat) = lo + 1 + n := by omega
    rw [hsum]
    refine ih (hbody (Int.le_refl _) (by omega) h₀ hfirst) (fun hlo hhi => ?_) hrest
    exact hbody (by omega) (by omega)

/-- **The invariant rule.** -/
theorem forInt_invariant {Inv : Int → σ → Prop} (hle : lo ≤ hi) (h₀ : Inv lo s)
    (hbody : ∀ {i s t}, lo ≤ i → i < hi → Inv i s → body i s = some t → Inv (i + 1) t)
    (h : forInt lo hi body s = some t) : Inv hi t := by
  have hsum : lo + (hi - lo).toNat = hi := by omega
  have hend := forFrom_invariant h₀ (fun hlo hhi => hbody hlo (by omega)) h
  rwa [hsum] at hend

/-- **The progress rule.** -/
theorem forInt_exists {Inv : Int → σ → Prop} (hle : lo ≤ hi) (h₀ : Inv lo s)
    (hbody : ∀ {i s}, lo ≤ i → i < hi → Inv i s → ∃ t, body i s = some t ∧ Inv (i + 1) t) :
    ∃ t, forInt lo hi body s = some t ∧ Inv hi t := by
  obtain ⟨n, rfl⟩ := Int.le.dest hle
  have hlen : (lo + n - lo).toNat = n := by omega
  rw [forInt, hlen]
  clear hlen hle
  induction n generalizing lo s with
  | zero => exact ⟨s, rfl, by simpa using h₀⟩
  | succ n ih =>
    obtain ⟨s', hfirst, h₁⟩ := hbody (Int.le_refl _) (by omega) h₀
    have hsum : lo + (n + 1 : Nat) = lo + 1 + n := by omega
    rw [hsum, forFrom, hfirst]
    exact ih h₁ fun hlo hhi => hbody (by omega) (by omega)

theorem rel_some {R : σ → τ → Prop} {y : Option τ} (h : Option.Rel R (some s) y) :
    ∃ u, y = some u ∧ R s u := by
  cases h with
  | some hrel => exact ⟨_, rfl, hrel⟩

theorem rel_mono {R R' : σ → τ → Prop} {x : Option σ} {y : Option τ}
    (himp : ∀ {s u}, R s u → R' s u) (h : Option.Rel R x y) : Option.Rel R' x y := by
  cases h with
  | some hrel => exact .some (himp hrel)
  | none => exact .none

theorem rel_swap {R : σ → τ → Prop} {x : Option σ} {y : Option τ} (h : Option.Rel R x y) :
    Option.Rel (fun u s => R s u) y x := by
  cases h with
  | some hrel => exact .some hrel
  | none => exact .none

theorem rel_bind {σ' τ' : Type*} {R : σ → τ → Prop} {R' : σ' → τ' → Prop} {x : Option σ}
    {y : Option τ} {f : σ → Option σ'} {g : τ → Option τ'} (h : Option.Rel R x y)
    (hfg : ∀ {a b}, R a b → Option.Rel R' (f a) (g b)) :
    Option.Rel R' (x.bind f) (y.bind g) := by
  cases h with
  | some hab => exact hfg hab
  | none => exact .none

theorem forFrom_rel {R : Int → σ → τ → Prop} {n : Nat} (h₀ : R lo s u)
    (hbody : ∀ {i s u}, lo ≤ i → i < lo + n → R i s u →
      Option.Rel (R (i + 1)) (body i s) (body' i u)) :
    Option.Rel (R (lo + n)) (forFrom body lo n s) (forFrom body' lo n u) := by
  induction n generalizing lo s u with
  | zero => exact .some (by simpa using h₀)
  | succ n ih =>
    have hsum : lo + (n + 1 : Nat) = lo + 1 + n := by omega
    rw [hsum]
    refine rel_bind (hbody (Int.le_refl _) (by omega) h₀) fun hrel => ?_
    exact ih hrel fun hlo hhi => hbody (by omega) (by omega)

/-- **The relation rule.** -/
theorem forInt_rel {R : Int → σ → τ → Prop} (hle : lo ≤ hi) (h₀ : R lo s u)
    (hbody : ∀ {i s u}, lo ≤ i → i < hi → R i s u →
      Option.Rel (R (i + 1)) (body i s) (body' i u)) :
    Option.Rel (R hi) (forInt lo hi body s) (forInt lo hi body' u) := by
  have hsum : lo + (hi - lo).toNat = hi := by omega
  have hend := forFrom_rel h₀ (n := (hi - lo).toNat) fun hlo hhi => hbody hlo (by omega)
  rwa [hsum] at hend

end NetDesign
