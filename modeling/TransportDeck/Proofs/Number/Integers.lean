import Mathlib.Tactic
import TransportDeck.Number.Literal
import TransportDeck.Number.Render

/-!
# Integers as text

An integer is written as its digits, with a minus sign before them if it is negative, and it is read
back from there.
-/

namespace TransportDeck

theorem toDigits_ne_nil (n : Nat) : Nat.toDigits 10 n ≠ [] := by
  intro h
  have hlength : 0 < (Nat.toDigits 10 n).length := Nat.length_toDigits_pos
  rw [h] at hlength
  exact Nat.lt_irrefl _ hlength

theorem isDigit_of_mem_toDigits {n : Nat} : ∀ c ∈ Nat.toDigits 10 n, c.isDigit = true :=
  fun _ hc ↦ Nat.isDigit_of_mem_toDigits (by decide) (by decide) hc

theorem toString_int (n : Int) :
    toString n = (if n < 0 then "-" else "") ++ toString n.natAbs := by
  change n.repr = _ ++ n.natAbs.repr
  rw [Int.repr_eq_if]
  split_ifs with h h' h'
  · omega
  · have habs : n.toNat = n.natAbs := by omega
    rw [habs, String.empty_append]
  · have habs : (-n).toNat = n.natAbs := by omega
    rw [habs]
  · omega

theorem toList_toString_int (n : Int) :
    (toString n).toList = (if n < 0 then ['-'] else []) ++ Nat.toDigits 10 n.natAbs := by
  rw [toString_int, String.toList_append, Nat.toString_eq_ofList_toDigits, String.toList_ofList]
  split_ifs <;> rfl

namespace Number

theorem renderInt_plain (n : Int) : renderInt n 0 .negativeOnly = toString n := by
  have hnone : String.ofList [] = "" := rfl
  rw [renderInt, zeroFill, Nat.zero_sub, List.replicate_zero, hnone,
    String.append_empty, toString_int]
  simp [SignStyle.mark]

theorem readSign_toString (n : Int) :
    Decimal.readSign (toString n).toList = (decide (n < 0), Nat.toDigits 10 n.natAbs) := by
  rw [toList_toString_int]
  by_cases h : n < 0
  · rw [if_pos h, decide_eq_true h]
    rfl
  · rw [if_neg h, decide_eq_false h]
    -- A digit is no sign.
    obtain ⟨c, cs, hcs⟩ := List.exists_cons_of_ne_nil (toDigits_ne_nil n.natAbs)
    have hdigit : c.isDigit = true := isDigit_of_mem_toDigits c (hcs ▸ List.mem_cons_self ..)
    rw [hcs, List.nil_append]
    unfold Decimal.readSign
    split
    · next heq => simp only [List.cons.injEq] at heq; rw [heq.1] at hdigit; cases hdigit
    · next heq => simp only [List.cons.injEq] at heq; rw [heq.1] at hdigit; cases hdigit
    · rfl

/-- An integer of 64 bits is read as it is written. -/
theorem readInt?_toString {n : Int} (h : minInt ≤ n ∧ n ≤ maxInt) :
    readInt? (toString n) = some n := by
  have hdigits : (Nat.toDigits 10 n.natAbs).all Char.isDigit = true :=
    List.all_eq_true.mpr isDigit_of_mem_toDigits
  have hvalue : Decimal.natOfDigits (Nat.toDigits 10 n.natAbs) = n.natAbs :=
    Nat.ofDigitChars_toDigits (by decide) (by decide)
  have hsigned : (if n < 0 then -(n.natAbs : Int) else n.natAbs) = n := by
    split_ifs <;> omega
  rw [readInt?, readSign_toString]
  simp only [List.isEmpty_eq_false_iff.mpr (toDigits_ne_nil _), hdigits, hvalue, decide_eq_true_eq,
    hsigned, h, Bool.not_true, Bool.or_self, Bool.false_eq_true, if_false, decide_true,
    Bool.and_self, if_true]

/-- Digits are read as what they say, if that fits. -/
theorem readInt?_digits {ds : List Char} (hne : ds ≠ []) (hdigits : ∀ c ∈ ds, c.isDigit = true) :
    readInt? (String.ofList ds) =
      if (Decimal.natOfDigits ds : Int) ≤ maxInt then some (Decimal.natOfDigits ds : Int)
        else none := by
  have hsign : Decimal.readSign ds = (false, ds) := by
    unfold Decimal.readSign
    split
    · cases hdigits '-' List.mem_cons_self
    · cases hdigits '+' List.mem_cons_self
    · rfl
  have hlow : minInt ≤ (Decimal.natOfDigits ds : Int) := by
    have hneg : minInt ≤ 0 := by decide
    omega
  have hall : ds.all Char.isDigit = true := List.all_eq_true.mpr hdigits
  rw [readInt?, String.toList_ofList, hsign]
  simp [hne, hall, hlow]

end Number

end TransportDeck
