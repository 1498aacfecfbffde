import NetDesign.Cells
import Mathlib.Data.Nat.Digits.Lemmas

/-!
# Decimal numerals

* `numeral` — a number as text, without leading zeros.
* `value_eq_some_iff` — it is the only text with this value.
-/

namespace NetDesign.Decimal

def digit (d : Nat) : Byte := UInt8.ofNat (48 + d)

/-- `%u`. -/
def numeral (n : Nat) : List Byte :=
  if n = 0 then [48] else (Nat.digits 10 n).reverse.map digit

/-- Digits, the first of which is 0 only if it is the last. -/
def Canonical (text : List Byte) : Prop :=
  text ≠ [] ∧ (∀ b ∈ text, 48 ≤ b ∧ b ≤ 57) ∧ (text.head? = some 48 → text.length = 1)

instance {text : List Byte} : Decidable (Canonical text) :=
  inferInstanceAs (Decidable (_ ∧ _ ∧ _))

/-- The digits of a text, from the last to the first. -/
def digits (text : List Byte) : List Nat := text.reverse.map fun b => b.toNat - 48

/-- The number a text is the numeral of. -/
def value (text : List Byte) : Option Nat :=
  if Canonical text then some (Nat.ofDigits 10 (digits text)) else none

variable {text : List Byte} {n d : Nat}

theorem toNat_digit (h : d < 10) : (digit d).toNat = 48 + d := by
  rw [digit, UInt8.toNat_ofNat']
  omega

theorem digit_mem (h : d < 10) : 48 ≤ digit d ∧ digit d ≤ 57 := by
  rw [UInt8.le_iff_toNat_le, UInt8.le_iff_toNat_le, toNat_digit h]
  exact ⟨Nat.le_add_right _ _, by show 48 + d ≤ 57; omega⟩

theorem digit_sub {b : Byte} (h : 48 ≤ b) : digit (b.toNat - 48) = b := by
  have hle : 48 ≤ b.toNat := UInt8.le_iff_toNat_le.1 h
  rw [digit, Nat.add_sub_cancel' hle, UInt8.ofNat_toNat]

theorem digits_map_digit {ds : List Nat} (h : ∀ d ∈ ds, d < 10) :
    digits (ds.reverse.map digit) = ds := by
  rw [digits, ← List.map_reverse, List.reverse_reverse, List.map_map]
  refine (List.map_congr_left fun d hd => ?_).trans (List.map_id ds)
  show (digit d).toNat - 48 = d
  rw [toNat_digit (h d hd), Nat.add_sub_cancel_left]

theorem canonical_numeral (n : Nat) : Canonical (numeral n) := by
  by_cases h : n = 0
  · subst h
    refine ⟨List.cons_ne_nil _ _, fun b hb => ?_, fun _ => rfl⟩
    rw [List.mem_singleton.1 hb]
    exact digit_mem (d := 0) (Nat.succ_pos 9)
  · rw [numeral, if_neg h]
    refine ⟨?_, fun b hb => ?_, fun hhead => ?_⟩
    · simpa using Nat.digits_ne_nil_iff_ne_zero.2 h
    · obtain ⟨d, hd, rfl⟩ := List.mem_map.1 hb
      exact digit_mem (Nat.digits_lt_base (by decide) (List.mem_reverse.1 hd))
    · rw [List.head?_map, List.head?_reverse,
        List.getLast?_eq_some_getLast (Nat.digits_ne_nil_iff_ne_zero.2 h), Option.map_some] at hhead
      have hlast := Nat.getLast_digit_ne_zero 10 h
      have hlt : (Nat.digits 10 n).getLast (Nat.digits_ne_nil_iff_ne_zero.2 h) < 10 :=
        Nat.digits_lt_base (by decide) (List.getLast_mem _)
      have hnat := congrArg UInt8.toNat (Option.some.inj hhead)
      rw [toNat_digit hlt] at hnat
      exact absurd (Nat.add_left_cancel hnat) hlast

theorem ofDigits_numeral (n : Nat) : Nat.ofDigits 10 (digits (numeral n)) = n := by
  rw [numeral]
  split_ifs with h
  · rw [h]
    rfl
  · rw [digits_map_digit fun d hd => Nat.digits_lt_base (by decide) hd, Nat.ofDigits_digits]

theorem map_digit_digits (h : Canonical text) : (digits text).reverse.map digit = text := by
  rw [digits, ← List.map_reverse, List.reverse_reverse, List.map_map]
  refine (List.map_congr_left fun b hb => ?_).trans (List.map_id text)
  exact digit_sub (h.2.1 b hb).1

theorem numeral_ofDigits (h : Canonical text) :
    numeral (Nat.ofDigits 10 (digits text)) = text := by
  by_cases hzero : text.head? = some 48
  · obtain ⟨b, rfl⟩ := List.length_eq_one_iff.1 (h.2.2 hzero)
    cases hzero
    rfl
  · have hdigits : Nat.digits 10 (Nat.ofDigits 10 (digits text)) = digits text := by
      refine Nat.digits_ofDigits 10 (by decide) _ (fun d hd => ?_) fun hne hlast => hzero ?_
      · obtain ⟨b, hb, rfl⟩ := List.mem_map.1 hd
        have hle : b.toNat ≤ 57 := UInt8.le_iff_toNat_le.1 (h.2.1 b (List.mem_reverse.1 hb)).2
        show b.toNat - 48 < 10
        omega
      · rw [← map_digit_digits h, List.head?_map, List.head?_reverse,
          List.getLast?_eq_some_getLast hne, hlast]
        rfl
    have hne : Nat.ofDigits 10 (digits text) ≠ 0 := by
      intro hnil
      rw [hnil, Nat.digits_zero] at hdigits
      exact h.1 (by rw [← map_digit_digits h, ← hdigits]; rfl)
    rw [numeral, if_neg hne, hdigits, map_digit_digits h]

/-- **A numeral is the only text with its value.** -/
theorem value_eq_some_iff : value text = some n ↔ text = numeral n := by
  refine ⟨fun h => ?_, fun h => ?_⟩
  · rw [value] at h
    split_ifs at h with hcanonical
    cases h
    exact (numeral_ofDigits hcanonical).symm
  · subst h
    rw [value, if_pos (canonical_numeral n), ofDigits_numeral]

end NetDesign.Decimal
