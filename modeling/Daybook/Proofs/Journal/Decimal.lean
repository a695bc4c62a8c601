import Daybook.Decimal
import Daybook.Journal.Value

/-!
# Decimals as text

A decimal is shown with all its places and read back with all of them. Only the sign of a zero is
lost, which is no part of its value. Two decimals have the same value exactly if they are the same
in lowest terms. Quantities are stored as such texts ([SPEC 12.4], [SPEC 13.4]).

* `Decimal.dropZeroSign d`: the decimal, without a sign if it is zero.

Results:
* `readDigits_append`: reading digits adds them to those before, as long as they fit.
* `ofText?_text`: **a decimal is read back with all its places**, and without a sign if it is zero.
* `reduced_eq_iff`: **lowest terms are the same exactly if the values are.**
-/

namespace Daybook.Decimal

open Text

/-- The decimal, without a sign if it is zero. -/
def dropZeroSign (d : Decimal) : Decimal := { d with negative := d.isNegative }

/-! ## Reading what is shown -/

variable {mantissa scale : Nat} {point any : Bool} {ds rest : List Char}

/-- More digits make no smaller number. -/
theorem le_ofDigitChars (ds : List Char) (n : Nat) : n ≤ Nat.ofDigitChars 10 ds n := by
  induction ds generalizing n with
  | nil => exact Nat.le_refl n
  | cons c ds ih =>
    rw [Nat.ofDigitChars_cons]
    exact Nat.le_trans (by omega) (ih _)

/-- **Reading digits adds them to those before**, as long as they fit. -/
theorem readDigits_append (hds : ∀ c ∈ ds, c.isDigit)
    (hbound : Nat.ofDigitChars 10 ds mantissa < mantissaBound)
    (hscale : point → scale + ds.length ≤ 28) :
    readDigits mantissa scale point any (ds ++ rest) =
      readDigits (Nat.ofDigitChars 10 ds mantissa) (if point then scale + ds.length else scale)
        point (any || !ds.isEmpty) rest := by
  induction ds generalizing mantissa scale any with
  | nil => cases point <;> simp
  | cons c ds ih =>
    obtain ⟨hc, hmore⟩ := List.forall_mem_cons.mp hds
    have hnext : mantissa * 10 + digitValue c = 10 * mantissa + (c.toNat - '0'.toNat) := by
      rw [Nat.mul_comm]
      rfl
    rw [Nat.ofDigitChars_cons, ← hnext] at hbound ⊢
    have hfits : mantissa * 10 + digitValue c < mantissaBound :=
      Nat.lt_of_le_of_lt (le_ofDigitChars ds _) hbound
    have hroom : (!point || decide (scale < 28)) = true := by
      cases point with
      | false => rfl
      | true =>
        have hlength := hscale rfl
        rw [List.length_cons] at hlength
        simp only [Bool.not_true, Bool.false_or, decide_eq_true_eq]
        omega
    rw [List.cons_append, readDigits, if_pos hc]
    simp only [hfits, hroom, decide_true, Bool.and_self, if_true]
    rw [ih hmore hbound]
    · cases point <;> simp [Nat.add_assoc, Nat.add_comm 1]
    · rintro rfl
      have hlength := hscale rfl
      rw [List.length_cons] at hlength
      simp only [if_true]
      omega

/-- The sign that is shown is read back. -/
theorem splitSign_signed {c : Char} (hc : c.isDigit) (negative : Bool) (cs : List Char) :
    splitSign ((if negative then ['-'] else []) ++ c :: cs) = (negative, c :: cs) := by
  cases negative with
  | true => rfl
  | false =>
    show splitSign (c :: cs) = _
    unfold splitSign
    split
    · next heq => simp_all
    · next heq => simp_all
    · rfl

/-- The digits in front of the point and those behind it spell the mantissa, and there are as many
behind it as the scale says. -/
theorem readDigits_digits (d : Decimal) {whole : Nat} (hwhole : whole = d.digits.length - d.scale) :
    readDigits 0 0 false false (d.digits.take whole ++
      if d.scale = 0 then [] else '.' :: d.digits.drop whole) = some (d.mantissa, d.scale) := by
  have hlength : d.scale + 1 ≤ d.digits.length := length_padded_le (d.scale + 1) d.mantissa
  have hdigits : ∀ c ∈ d.digits, c.isDigit := fun _ => isDigit_of_mem_padded
  have hvalue : Nat.ofDigitChars 10 d.digits 0 = d.mantissa := by
    rw [← ofDigits_eq_ofDigitChars]
    exact ofDigits_padded (d.scale + 1) d.mantissa
  -- the number in front of the point, and with the places behind it
  rw [← List.take_append_drop whole d.digits, Nat.ofDigitChars_append] at hvalue
  have hfront : Nat.ofDigitChars 10 (d.digits.take whole) 0 < mantissaBound :=
    Nat.lt_of_le_of_lt (hvalue ▸ le_ofDigitChars _ _) d.mantissa_lt
  have hsome : (d.digits.take whole).isEmpty = false := by
    rw [List.isEmpty_eq_false_iff, ← List.length_pos_iff, List.length_take]
    omega
  have hplaces : (d.digits.drop whole).length = d.scale := by
    rw [List.length_drop]
    omega
  rw [readDigits_append (fun c hc => hdigits c (List.mem_of_mem_take hc)) hfront
    (fun hpoint => absurd hpoint Bool.false_ne_true), hsome]
  by_cases hscale : d.scale = 0
  · have hnone : d.digits.drop whole = [] := List.eq_nil_of_length_eq_zero (hplaces.trans hscale)
    rw [hnone, Nat.ofDigitChars_nil] at hvalue
    simp [hscale, readDigits, hvalue]
  · have hpoint : ∀ m, readDigits m 0 false true ('.' :: d.digits.drop whole) =
        readDigits m 0 true true (d.digits.drop whole ++ []) := by
      intro m
      rw [readDigits, List.append_nil]
      rfl
    rw [if_neg hscale]
    simp only [Bool.false_eq_true, if_false, Bool.not_false, Bool.or_true]
    have hfits : true → 0 + (d.digits.drop whole).length ≤ 28 := fun _ => by
      rw [hplaces, Nat.zero_add]
      exact d.scale_le
    rw [hpoint, readDigits_append (fun c hc => hdigits c (List.mem_of_mem_drop hc))
      (hvalue ▸ d.mantissa_lt) hfits, hvalue, hplaces]
    simp [readDigits]

/-- There is a digit in front of the point. -/
theorem exists_whole (d : Decimal) :
    ∃ c cs, d.digits.take (d.digits.length - d.scale) = c :: cs ∧ c.isDigit := by
  have hlength : d.scale + 1 ≤ d.digits.length := length_padded_le (d.scale + 1) d.mantissa
  cases hdigits : d.digits.take (d.digits.length - d.scale) with
  | nil =>
    have hnone := congrArg List.length hdigits
    rw [List.length_take, List.length_nil] at hnone
    omega
  | cons c cs =>
    exact ⟨c, cs, rfl,
      isDigit_of_mem_padded (List.mem_of_mem_take (hdigits ▸ List.mem_cons_self))⟩

/-- **A decimal is read back with all its places**, and without a sign if it is zero. -/
theorem ofText?_text (d : Decimal) : ofText? d.text = some d.dropZeroSign := by
  have hread := d.readDigits_digits rfl
  have hparts : ofParts? d.negative d.mantissa d.scale = some d.dropZeroSign := by
    rw [ofParts?, dif_pos ⟨d.mantissa_lt, d.scale_le⟩]
    rfl
  obtain ⟨c, cs, hwhole, hc⟩ := d.exists_whole
  rw [hwhole, List.cons_append] at hread
  rw [ofText?, text, String.toList_ofList, chars, hwhole, List.append_assoc, List.cons_append,
    ofChars?, splitSign_signed hc]
  simp only [hread, Option.bind_eq_bind, Option.bind_some, hparts]

/-! ## Lowest terms -/

theorem natAbs_units (d : Decimal) : d.units.natAbs = d.mantissa * tenTo (28 - d.scale) := by
  unfold units
  cases d.negative <;> simp only [if_true, Bool.false_eq_true, if_false] <;> omega

theorem units_neg_iff (d : Decimal) : d.units < 0 ↔ d.isNegative := by
  have hpos := tenTo_pos (28 - d.scale)
  have hzero : d.mantissa * tenTo (28 - d.scale) = 0 ↔ d.mantissa = 0 := by
    rw [Nat.mul_eq_zero]
    omega
  rw [isNegative_iff, ne_eq, ← hzero]
  unfold units
  generalize d.mantissa * tenTo (28 - d.scale) = n
  cases d.negative with
  | true => simp [Nat.pos_iff_ne_zero]
  | false => simp

/-- What is left ends in no zero behind the point. -/
theorem dropZeros_last : ∀ mantissa scale : Nat,
    (dropZeros mantissa scale).2 = 0 ∨ (dropZeros mantissa scale).1 % 10 ≠ 0
  | _, 0 => .inl rfl
  | mantissa, scale + 1 => by
    unfold dropZeros
    split
    · exact dropZeros_last (mantissa / 10) scale
    · next h => exact .inr h

/-- The longer of two fractions of one value ends in a zero. -/
theorem eq_of_lowest {m n s t : Nat} (hle : s ≤ t) (ht : t ≤ 28) (hn : t = 0 ∨ n % 10 ≠ 0)
    (h : m * tenTo (28 - s) = n * tenTo (28 - t)) : m = n ∧ s = t := by
  have hsplit : 28 - s = (t - s) + (28 - t) := by omega
  rw [hsplit, tenTo_add, ← Nat.mul_assoc] at h
  have hvalue : m * tenTo (t - s) = n := Nat.eq_of_mul_eq_mul_right (tenTo_pos _) h
  cases hmore : t - s with
  | zero =>
    rw [hmore] at hvalue
    exact ⟨(Nat.mul_one m).symm.trans hvalue, by omega⟩
  | succ k =>
    rw [hmore, tenTo_succ, ← Nat.mul_assoc] at hvalue
    exact absurd hn (by omega)

/-- **Lowest terms are the same exactly if the values are.** -/
theorem reduced_eq_iff {d e : Decimal} : d.reduced = e.reduced ↔ d.sameValue e := by
  rw [sameValue, decide_eq_true_eq]
  constructor
  · intro h
    rw [← units_reduced d, h, units_reduced]
  · intro h
    have hsign : d.isNegative = e.isNegative := by
      rw [Bool.eq_iff_iff, ← units_neg_iff, ← units_neg_iff, h]
    have hsize : d.reduced.mantissa * tenTo (28 - d.reduced.scale) =
        e.reduced.mantissa * tenTo (28 - e.reduced.scale) := by
      rw [← natAbs_units, ← natAbs_units, units_reduced, units_reduced, h]
    have hsame : d.reduced.mantissa = e.reduced.mantissa ∧ d.reduced.scale = e.reduced.scale := by
      rcases Nat.le_total d.reduced.scale e.reduced.scale with hle | hle
      · exact eq_of_lowest hle e.reduced.scale_le (dropZeros_last _ _) hsize
      · obtain ⟨hm, hs⟩ := eq_of_lowest hle d.reduced.scale_le (dropZeros_last _ _) hsize.symm
        exact ⟨hm.symm, hs.symm⟩
    calc d.reduced = ⟨d.isNegative, d.reduced.mantissa, d.reduced.scale, _, _⟩ := rfl
      _ = e.reduced := by
        simp only [hsame.1, hsame.2, hsign]
        rfl

theorem sameValue_dropZeroSign (d : Decimal) : d.dropZeroSign.sameValue d := by
  rw [sameValue, decide_eq_true_eq]
  unfold units dropZeroSign isNegative
  by_cases hzero : d.mantissa = 0 <;> simp [hzero]

end Daybook.Decimal
