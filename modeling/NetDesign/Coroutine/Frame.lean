import Mathlib.Data.Option.Basic
import Mathlib.Data.List.Basic

/-!
# Coroutines

A body is what runs between two suspend points: from where it is resumed to where it comes to
rest. Its coroutine suspends before the body begins and after it has ended, and the promise keeps
the value that was yielded last. A body that does not come to rest, or has undefined behaviour,
has no result; nor has a `resume` of a coroutine that is at its final suspend point.

* `Suspends` — the suspend points that a body passes until it returns.
* `Suspends.resume_nil`, `Suspends.resume_cons` — what `resume` does on the way.
* `Left` — how many segments a coroutine has left; `Left.resume`, one less after a `resume`.
* `Left.resumable` — a coroutine that ends is stuck nowhere on its way.
-/

namespace NetDesign.Coroutine

/-- Where a body comes to rest, and where it goes on from. -/
inductive Rest (σ β : Type*)
  | yield (v : β) (s : σ)
  | await (s : σ)
  | ret

abbrev Body (σ β : Type*) := σ → Option (Rest σ β)

/-- The value in the promise, and the place the coroutine is suspended at, if it is not its
final suspend point. -/
structure Frame (σ β : Type*) where
  value : β
  point : Option σ

variable {σ β : Type*} {body : Body σ β} {s t : σ} {v : β} {p : Option β} {ps : List (Option β)}

/-- A coroutine that has been called. The promise is not initialised. -/
def Frame.call (v : β) (s : σ) : Frame σ β := ⟨v, some s⟩

def Frame.done (f : Frame σ β) : Bool := f.point.isNone

/-- The coroutine suspends where its body has come to rest. -/
def Frame.suspend (f : Frame σ β) : Rest σ β → Frame σ β
  | .yield v s => ⟨v, some s⟩
  | .await s => { f with point := some s }
  | .ret => { f with point := none }

def Frame.resume (body : Body σ β) (f : Frame σ β) : Option (Frame σ β) :=
  (f.point.bind body).map f.suspend

/-- From `s` on, the body suspends at `ps` and returns: at each point it yields a value, or
awaits without one. -/
inductive Suspends (body : Body σ β) : σ → List (Option β) → Prop
  | ret {s : σ} : body s = some .ret → Suspends body s []
  | yield {s t : σ} {v : β} {ps : List (Option β)} :
      body s = some (.yield v t) → Suspends body t ps → Suspends body s (some v :: ps)
  | await {s t : σ} {ps : List (Option β)} :
      body s = some (.await t) → Suspends body t ps → Suspends body s (none :: ps)

theorem Suspends.congr (h : Suspends body s ps) (heq : body t = body s) :
    Suspends body t ps := by
  cases h with
  | ret hs => exact .ret (heq.trans hs)
  | yield hs hrest => exact .yield (heq.trans hs) hrest
  | await hs hrest => exact .await (heq.trans hs) hrest

theorem Suspends.resume_nil (h : Suspends body s []) :
    Frame.resume body ⟨v, some s⟩ = some ⟨v, none⟩ := by
  cases h with
  | ret hs => simp [Frame.resume, Frame.suspend, hs]

theorem Suspends.resume_cons (h : Suspends body s (p :: ps)) :
    ∃ t, Frame.resume body ⟨v, some s⟩ = some ⟨p.getD v, some t⟩ ∧ Suspends body t ps := by
  cases h with
  | yield hs hrest => exact ⟨_, by simp [Frame.resume, Frame.suspend, hs], hrest⟩
  | await hs hrest => exact ⟨_, by simp [Frame.resume, Frame.suspend, hs], hrest⟩

/-- What the promise holds at each of the points. -/
def held (v : β) : List (Option β) → List β
  | [] => []
  | p :: ps => p.getD v :: held (p.getD v) ps

theorem held_map_some {vs : List β} : held v (vs.map some) = vs := by
  induction vs generalizing v with
  | nil => rfl
  | cons w vs ih => simp only [List.map_cons, held, Option.getD_some, ih]

/-! ## Segments -/

/-- `n` times `resume`. -/
def Frame.advance (body : Body σ β) : Nat → Frame σ β → Option (Frame σ β)
  | 0, f => some f
  | n + 1, f => (f.resume body).bind (advance body n)

/-- `n` segments of the body are left: one to each suspend point to come, and one to the end. -/
inductive Left (body : Body σ β) : Frame σ β → Nat → Prop
  | final {v : β} : Left body ⟨v, none⟩ 0
  | suspended {v : β} {s : σ} {ps : List (Option β)} :
      Suspends body s ps → Left body ⟨v, some s⟩ (ps.length + 1)

variable {f g : Frame σ β} {n k : Nat}

theorem Suspends.left_call (h : Suspends body s ps) : Left body (.call v s) (ps.length + 1) :=
  .suspended h

theorem Left.done_eq (h : Left body f n) : f.done = decide (n = 0) := by
  cases h with
  | final => rfl
  | suspended => simp [Frame.done]

theorem Left.resume_final (h : Left body f 0) : f.resume body = none := by
  cases h with
  | final => rfl

theorem Left.resume (h : Left body f (n + 1)) :
    ∃ f', Frame.resume body f = some f' ∧ Left body f' n := by
  generalize hn : n + 1 = m at h
  cases h with
  | final => cases hn
  | @suspended v s ps hs =>
    obtain rfl : n = ps.length := Nat.succ.inj hn
    cases ps with
    | nil => exact ⟨_, hs.resume_nil, .final⟩
    | cons p ps =>
      obtain ⟨t, hresume, hrest⟩ := hs.resume_cons (v := v)
      exact ⟨_, hresume, .suspended hrest⟩

theorem Left.advance_le (h : Left body f n) (hadvance : f.advance body k = some g) :
    ∃ m, n = k + m ∧ Left body g m := by
  induction k generalizing f n with
  | zero =>
    obtain rfl : f = g := Option.some.inj hadvance
    exact ⟨n, (Nat.zero_add n).symm, h⟩
  | succ k ih =>
    obtain ⟨f', hresume, hrest⟩ := Option.bind_eq_some_iff.1 hadvance
    cases n with
    | zero =>
      rw [h.resume_final] at hresume
      cases hresume
    | succ n =>
      obtain ⟨f'', hresume', hleft⟩ := h.resume
      obtain rfl : f'' = f' := Option.some.inj (hresume'.symm.trans hresume)
      obtain ⟨m, hn, hm⟩ := ih hleft hrest
      exact ⟨m, by omega, hm⟩

/-- A coroutine that ends can be resumed wherever it is suspended before its end. -/
theorem Left.resumable (h : Left body f n) (hadvance : f.advance body k = some g)
    (hdone : g.done = false) : ∃ g', g.resume body = some g' := by
  obtain ⟨m, -, hleft⟩ := h.advance_le hadvance
  cases m with
  | zero =>
    rw [hleft.done_eq] at hdone
    cases hdone
  | succ m =>
    obtain ⟨g', hresume, -⟩ := hleft.resume
    exact ⟨g', hresume⟩

/-! ## Histories -/

/-- A coroutine, with the frames it was resumed in, oldest first. -/
structure Live (σ β : Type*) where
  frame : Frame σ β
  resumed : List (Frame σ β)

namespace Live

def call (v : β) (s : σ) : Live σ β := ⟨.call v s, []⟩

def done (c : Live σ β) : Bool := c.frame.done

def resume (body : Body σ β) (c : Live σ β) : Option (Live σ β) :=
  (c.frame.resume body).map fun f => ⟨f, c.resumed ++ [c.frame]⟩

theorem resume_eq {c : Live σ β} (h : c.frame.resume body = some f) :
    c.resume body = some ⟨f, c.resumed ++ [c.frame]⟩ := by
  rw [resume, h]
  rfl

end Live

end NetDesign.Coroutine
