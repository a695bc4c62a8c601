import Daybook.Journal.Basic

/-!
# Journals of the same value

Two decimals can have the same value and different scales: `1.10` and `1.1`. So two journals can
say the same and differ. They are compared by bringing all their quantities into lowest terms, which
is the equality of cooked journals.

Results:
* `units_reduced`: lowest terms keep the value.
-/

namespace Daybook

namespace Decimal

open Text

/-- Mantissa and scale without the zeros at the end of the fraction. -/
def dropZeros : Nat → Nat → Nat × Nat
  | mantissa, 0 => (mantissa, 0)
  | mantissa, scale + 1 =>
    if mantissa % 10 = 0 then dropZeros (mantissa / 10) scale else (mantissa, scale + 1)

theorem dropZeros_le : ∀ mantissa scale : Nat,
    (dropZeros mantissa scale).1 ≤ mantissa ∧ (dropZeros mantissa scale).2 ≤ scale
  | mantissa, 0 => ⟨Nat.le_refl _, Nat.le_refl _⟩
  | mantissa, scale + 1 => by
    unfold dropZeros
    split
    · have h := dropZeros_le (mantissa / 10) scale
      exact ⟨Nat.le_trans h.1 (Nat.div_le_self _ _), Nat.le_succ_of_le h.2⟩
    · exact ⟨Nat.le_refl _, Nat.le_refl _⟩

/-- What the mantissa loses the scale gives back. -/
theorem dropZeros_value : ∀ mantissa scale : Nat,
    (dropZeros mantissa scale).1 * tenTo (scale - (dropZeros mantissa scale).2) = mantissa
  | mantissa, 0 => by simp [dropZeros, tenTo]
  | mantissa, scale + 1 => by
    unfold dropZeros
    split
    · next h =>
      have hle := (dropZeros_le (mantissa / 10) scale).2
      have hvalue := dropZeros_value (mantissa / 10) scale
      rw [Nat.succ_sub hle, tenTo_succ, ← Nat.mul_assoc, hvalue]
      omega
    · simp [tenTo]

/-- The decimal in lowest terms: no zeros at the end of the fraction, and no sign on zero. -/
def reduced (d : Decimal) : Decimal where
  negative := d.isNegative
  mantissa := (dropZeros d.mantissa d.scale).1
  scale := (dropZeros d.mantissa d.scale).2
  mantissa_lt := Nat.lt_of_le_of_lt (dropZeros_le d.mantissa d.scale).1 d.mantissa_lt
  scale_le := Nat.le_trans (dropZeros_le d.mantissa d.scale).2 d.scale_le

/-- **Lowest terms keep the value.** -/
theorem units_reduced (d : Decimal) : d.reduced.units = d.units := by
  have hle := (dropZeros_le d.mantissa d.scale).2
  have hvalue := dropZeros_value d.mantissa d.scale
  have hscale := d.scale_le
  have hnat :
      d.reduced.mantissa * tenTo (28 - d.reduced.scale) = d.mantissa * tenTo (28 - d.scale) := by
    change (dropZeros d.mantissa d.scale).1 * tenTo (28 - (dropZeros d.mantissa d.scale).2) = _
    have hsplit : 28 - (dropZeros d.mantissa d.scale).2 =
        (d.scale - (dropZeros d.mantissa d.scale).2) + (28 - d.scale) := by omega
    rw [hsplit, tenTo_add, ← Nat.mul_assoc, hvalue]
  unfold units
  rw [hnat]
  change (if d.isNegative then (-1 : Int) else 1) * _ = _
  by_cases hzero : d.mantissa = 0
  · simp [hzero]
  · simp [isNegative, hzero]

end Decimal

/-- The amount with its quantity in lowest terms. -/
def Amount.reduced (a : Amount) : Amount := { a with quantity := a.quantity.reduced }

/-- The posting with its quantities in lowest terms. -/
def Posting.reduced (p : Posting) : Posting :=
  { p with
    amount := p.amount.map (·.reduced)
    lotPrice := p.lotPrice.map fun l => { l with amount := l.amount.reduced }
    assertion := p.assertion.map fun a => { a with amount := a.amount.reduced } }

/-- The transaction with its quantities in lowest terms. -/
def Transaction.reduced (t : Transaction) : Transaction :=
  { t with postings := t.postings.map (·.reduced) }

namespace Journal

/-- The journal with its quantities in lowest terms. -/
def reduced (j : Journal) : Journal where
  transactions := j.transactions.map (·.reduced)
  accounts := j.accounts
  prices := j.prices.map fun p => { p with amount := p.amount.reduced }
  commodities := j.commodities.map fun c => { c with format := c.format.map (·.reduced) }
  defaultCommodity := j.defaultCommodity.map (·.reduced)

/-- Whether two journals say the same, whatever the scales of their quantities. -/
def sameValue (j k : Journal) : Bool := j.reduced = k.reduced

end Journal

end Daybook
