import Mathlib.Logic.Function.Basic
import Mathlib.Data.Nat.Basic

/-!
# Descriptor tables

Which descriptors are open, and whose they are. Connections are numbered in the order they
are accepted, so that a descriptor that is closed and used again is told from what it was.

* `FdTable.Numbered` — every open descriptor is that of a connection accepted so far, and
  no two are of the same connection.
-/

namespace NetDesign

structure FdTable where
  owner : Int → Option Nat
  count : Nat

namespace FdTable

def initial : FdTable := ⟨fun _ => none, 0⟩

def accept (fds : FdTable) (fd : Int) : FdTable :=
  ⟨Function.update fds.owner fd (some fds.count), fds.count + 1⟩

def close (fds : FdTable) (fd : Int) : FdTable :=
  { fds with owner := Function.update fds.owner fd none }

variable {fds : FdTable} {fd x y : Int} {c k : Nat}

@[simp] theorem accept_owner_self : (fds.accept fd).owner fd = some fds.count :=
  Function.update_self _ _ _

theorem accept_owner_of_ne (h : x ≠ fd) : (fds.accept fd).owner x = fds.owner x :=
  Function.update_of_ne h _ _

@[simp] theorem close_owner_self : (fds.close fd).owner fd = none := Function.update_self _ _ _

theorem close_owner_of_ne (h : x ≠ fd) : (fds.close fd).owner x = fds.owner x :=
  Function.update_of_ne h _ _

theorem accept_cases (h : (fds.accept fd).owner x = some c) :
    (x = fd ∧ c = fds.count) ∨ (x ≠ fd ∧ fds.owner x = some c) := by
  by_cases hx : x = fd
  · subst hx
    rw [accept_owner_self] at h
    exact .inl ⟨rfl, (Option.some.inj h).symm⟩
  · rw [accept_owner_of_ne hx] at h
    exact .inr ⟨hx, h⟩

theorem close_cases (h : (fds.close fd).owner x = some c) : x ≠ fd ∧ fds.owner x = some c := by
  by_cases hx : x = fd
  · subst hx
    rw [close_owner_self] at h
    cases h
  · exact ⟨hx, by rwa [close_owner_of_ne hx] at h⟩

theorem close_owner_ne_none (h : (fds.close fd).owner x ≠ none) : x ≠ fd ∧ fds.owner x ≠ none := by
  obtain ⟨c, hc⟩ := Option.ne_none_iff_exists'.1 h
  obtain ⟨hne, hown⟩ := close_cases hc
  exact ⟨hne, hown ▸ Option.some_ne_none c⟩

/-! ## Numbering -/

structure Numbered (fds : FdTable) : Prop where
  lt : ∀ {x c}, fds.owner x = some c → c < fds.count
  inj : ∀ {x y c}, fds.owner x = some c → fds.owner y = some c → x = y

theorem numbered_initial : initial.Numbered where
  lt h := by cases h
  inj h := by cases h

theorem Numbered.accept (h : fds.Numbered) (fd : Int) : (fds.accept fd).Numbered where
  lt hx := by
    rcases accept_cases hx with ⟨-, rfl⟩ | ⟨-, hx⟩
    · exact Nat.lt_succ_self _
    · exact Nat.lt_succ_of_lt (h.lt hx)
  inj hx hy := by
    rcases accept_cases hx with ⟨rfl, hk⟩ | ⟨-, hx'⟩ <;>
      rcases accept_cases hy with ⟨rfl, hk'⟩ | ⟨-, hy'⟩
    · rfl
    · exact absurd (h.lt hy') (hk ▸ Nat.lt_irrefl _)
    · exact absurd (h.lt hx') (hk' ▸ Nat.lt_irrefl _)
    · exact h.inj hx' hy'

theorem Numbered.close (h : fds.Numbered) (fd : Int) : (fds.close fd).Numbered where
  lt hx := h.lt (close_cases hx).2
  inj hx hy := h.inj (close_cases hx).2 (close_cases hy).2

theorem Numbered.ne_of_fd_ne (h : fds.Numbered) (hx : fds.owner x = some k)
    (hy : fds.owner y = some c) (hne : x ≠ y) : k ≠ c := by
  intro heq
  subst heq
  exact hne (h.inj hx hy)

theorem Numbered.ne_of_count_le (h : fds.Numbered) (hc : fds.owner fd = some c)
    (hk : fds.count ≤ k) : k ≠ c := by
  intro heq
  subst heq
  exact absurd (h.lt hc) (Nat.not_lt.2 hk)

end FdTable

end NetDesign
