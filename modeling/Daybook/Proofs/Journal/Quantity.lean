import Daybook.Journal.OfWritten
import Daybook.Proofs.Journal.Decimal
import Daybook.Proofs.Lexeme.Language
import Daybook.Proofs.Written.Stages
import Daybook.Written.OfTree
import Mathlib.Algebra.Order.Field.Rat
import Mathlib.Data.List.TakeWhile
import Mathlib.Tactic.FieldSimp
import Mathlib.Tactic.Linarith
import Mathlib.Tactic.Positivity
import Mathlib.Tactic.Ring

/-!
# The quantity that a number spells

A number has digits in front of its point and places behind it, and what they spell is a rational. A
quantity holds it exactly as long as mantissa and scale suffice. What does not fit behind the point
is rounded, and what does not fit in front of it is refused. This is `cook_quantity`. The
specification has the number refused that is rounded here ([SPEC 13.4]).

* `Decimal.value d`: the value of a decimal.
* `IsNumeral n`: digits, commas, and at most one point.
* `wholeDigits n`, `placeDigits n`: the digits in front of the point and behind it.
* `spelledValue n`: the rational that they spell.
* `fraction cs`: the part of it that digits behind the point spell.
* `IsRounded d x cs`: the decimal is the rational up to half a unit of its last place.

Results:
* `roundAt_spec`: what becomes of the digits that do not fit.
* `readDigits_places`: what becomes of the places.
* `ofWritten_quantity`: **a quantity is the number rounded to its last place, or the number is
  refused**, and when it is which.
* `ofTree_quantity`: **a number that fits is held exactly, with all its places.**
-/

namespace Daybook

open Text Lexeme

/-! ## Values -/

/-- The value of a decimal. -/
def Decimal.value (d : Decimal) : ℚ := (if d.negative then -1 else 1) * (d.mantissa / 10 ^ d.scale)

theorem Decimal.value_negate (d : Decimal) : d.negate.value = -d.value := by
  unfold value negate
  cases d.negative <;> simp

/-- The text of a number: digits, commas, and at most one point. -/
structure IsNumeral (n : List Char) : Prop where
  chars : ∀ c ∈ n, c.isDigit ∨ c = ',' ∨ c = '.'
  point : n.count '.' ≤ 1

instance (n : List Char) : Decidable (IsNumeral n) :=
  decidable_of_iff (n.all (fun c => c.isDigit || c = ',' || c = '.') && n.count '.' ≤ 1) (by
    simp only [Bool.and_eq_true, List.all_eq_true, Bool.or_eq_true, decide_eq_true_eq, or_assoc]
    exact ⟨fun h => ⟨h.1, h.2⟩, fun h => ⟨h.chars, h.point⟩⟩)

/-- The digits in front of the point. -/
def wholeDigits (n : List Char) : List Char := (n.takeWhile (· ≠ '.')).filter Char.isDigit

/-- The digits behind the point. -/
def placeDigits (n : List Char) : List Char := (n.dropWhile (· ≠ '.')).filter Char.isDigit

/-- The rational that a number spells. -/
def spelledValue (n : List Char) : ℚ :=
  ofDigits (n.filter Char.isDigit) / 10 ^ (placeDigits n).length

/-- The part of one that digits behind a point spell. -/
def fraction : List Char → ℚ
  | [] => 0
  | c :: cs => (digitValue c + fraction cs) / 10

variable {n cs ds rest : List Char} {c : Char} {m s : Nat}

theorem digitValue_eq_zero_iff (h : c.isDigit) : digitValue c = 0 ↔ c = '0' := by
  simp only [Char.isDigit, Bool.and_eq_true, decide_eq_true_eq] at h
  have hle : '0'.toNat ≤ c.toNat := h.1
  constructor
  · intro hzero
    have heq : c.toNat = '0'.toNat := by
      unfold digitValue at hzero
      omega
    exact Char.toNat_inj.mp heq
  · rintro rfl
    rfl

theorem fraction_bounds (h : ∀ c ∈ cs, c.isDigit) : 0 ≤ fraction cs ∧ fraction cs < 1 := by
  induction cs with
  | nil => simp [fraction]
  | cons c cs ih =>
    obtain ⟨hc, hcs⟩ := List.forall_mem_cons.mp h
    obtain ⟨hlow, hhigh⟩ := ih hcs
    have hdigit : (digitValue c : ℚ) ≤ 9 := by exact_mod_cast digitValue_le hc
    have hnonneg : (0 : ℚ) ≤ digitValue c := Nat.cast_nonneg _
    rw [fraction]
    constructor <;> linarith

theorem fraction_eq_zero_iff (h : ∀ c ∈ cs, c.isDigit) :
    fraction cs = 0 ↔ ∀ c ∈ cs, c = '0' := by
  induction cs with
  | nil => simp [fraction]
  | cons c cs ih =>
    obtain ⟨hc, hcs⟩ := List.forall_mem_cons.mp h
    have hlow := (fraction_bounds hcs).1
    have hnonneg : (0 : ℚ) ≤ digitValue c := Nat.cast_nonneg _
    rw [List.forall_mem_cons, ← ih hcs, ← digitValue_eq_zero_iff hc, fraction]
    constructor
    · intro hzero
      have hsum : (digitValue c : ℚ) + fraction cs = 0 := by linarith
      have hdigit : (digitValue c : ℚ) = 0 := by linarith
      exact ⟨by exact_mod_cast hdigit, by linarith⟩
    · rintro ⟨hdigit, hmore⟩
      rw [hdigit, hmore]
      norm_num

theorem ofDigitChars_fraction (cs : List Char) (m : Nat) :
    (Nat.ofDigitChars 10 cs m : ℚ) = (m + fraction cs) * 10 ^ cs.length := by
  induction cs generalizing m with
  | nil => simp [fraction]
  | cons c cs ih =>
    have hdigit : c.toNat - '0'.toNat = digitValue c := rfl
    rw [Nat.ofDigitChars_cons, ih, hdigit, fraction, List.length_cons, pow_succ]
    push_cast
    ring

/-- Digits one behind the other. -/
theorem fraction_append (cs ds : List Char) :
    fraction (cs ++ ds) = fraction cs + fraction ds / 10 ^ cs.length := by
  induction cs with
  | nil => simp [fraction]
  | cons c cs ih =>
    rw [List.cons_append, fraction, ih, fraction, List.length_cons, pow_succ]
    field_simp
    ring

theorem filter_isDigit (n : List Char) :
    n.filter Char.isDigit = wholeDigits n ++ placeDigits n := by
  rw [wholeDigits, placeDigits, ← List.filter_append, List.takeWhile_append_dropWhile]

theorem ofDigits_filter (n : List Char) : ofDigits (n.filter Char.isDigit) =
    Nat.ofDigitChars 10 (placeDigits n) (ofDigits (wholeDigits n)) := by
  rw [filter_isDigit, ofDigits_eq_ofDigitChars, ofDigits_eq_ofDigitChars, Nat.ofDigitChars_append]

theorem spelledValue_eq (n : List Char) :
    spelledValue n = ofDigits (wholeDigits n) + fraction (placeDigits n) := by
  have hpow : (10 : ℚ) ^ (placeDigits n).length ≠ 0 := by positivity
  rw [spelledValue, ofDigits_filter, ofDigitChars_fraction, mul_div_cancel_right₀ _ hpow]

/-! ## Digits that do not fit -/

namespace Decimal

/-- Mantissa and scale are the rational up to half a unit of the last place, and the rational itself
exactly if the places behind the last one are zeros. -/
structure IsRounded (m s : Nat) (x : ℚ) (places : List Char) : Prop where
  mantissa_lt : m < mantissaBound
  scale_le : s ≤ 28
  scale_le_length : s ≤ places.length
  near : |m / 10 ^ s - x| ≤ 1 / 2 / 10 ^ s
  exact_iff : m / 10 ^ s = x ↔ ∀ c ∈ places.drop s, c = '0'
  /-- It does not reach the bound, not even rounded. -/
  lt : x < mantissaBound - 1 / 2

/-- What becomes of a number, if `none` says that it is refused. -/
def Outcome (x : ℚ) (places : List Char) : Option (Nat × Nat) → Prop
  | none => mantissaBound - 1 / 2 ≤ x
  | some (m, s) => IsRounded m s x places

section

variable {kept dropped : List Char} (hdropped : ∀ c ∈ dropped, c.isDigit)

include hdropped

/-- Behind the kept places the dropped ones are zeros exactly if they spell nothing. -/
theorem forall_drop_iff :
    (∀ c ∈ (kept ++ dropped).drop kept.length, c = '0') ↔ fraction dropped = 0 := by
  rw [List.drop_left, fraction_eq_zero_iff hdropped]

/-- The dropped places are less than half a unit. -/
theorem isRounded_down (hm : m < mantissaBound) (hs : kept.length ≤ 28)
    (hhalf : fraction dropped < 1 / 2) :
    IsRounded m kept.length ((m + fraction dropped) / 10 ^ kept.length) (kept ++ dropped) := by
  have hlow := (fraction_bounds hdropped).1
  have hpow : (1 : ℚ) ≤ 10 ^ kept.length := one_le_pow₀ (by norm_num)
  have hpos : (0 : ℚ) < 10 ^ kept.length := by linarith
  have hdiff : m / 10 ^ kept.length - (m + fraction dropped) / 10 ^ kept.length =
      -(fraction dropped / 10 ^ kept.length) := by ring
  have hle : (m : ℚ) + 1 ≤ mantissaBound := by exact_mod_cast hm
  constructor
  · exact hm
  · exact hs
  · simp
  · rw [hdiff, abs_neg, abs_of_nonneg (by positivity)]
    exact div_le_div_of_nonneg_right hhalf.le hpos.le
  · rw [forall_drop_iff hdropped, ← sub_eq_zero, hdiff, neg_eq_zero, div_eq_zero_iff]
    exact or_iff_left hpos.ne'
  · calc ((m : ℚ) + fraction dropped) / 10 ^ kept.length
        ≤ m + fraction dropped := div_le_self (by positivity) hpow
      _ < mantissaBound - 1 / 2 := by linarith

/-- The dropped places are half a unit or more, and there is room for one more. -/
theorem isRounded_up (hm : m + 1 < mantissaBound) (hs : kept.length ≤ 28)
    (hhalf : 1 / 2 ≤ fraction dropped) :
    IsRounded (m + 1) kept.length ((m + fraction dropped) / 10 ^ kept.length)
      (kept ++ dropped) := by
  have hhigh := (fraction_bounds hdropped).2
  have hpow : (1 : ℚ) ≤ 10 ^ kept.length := one_le_pow₀ (by norm_num)
  have hpos : (0 : ℚ) < 10 ^ kept.length := by linarith
  have hdiff : (m + 1 : ℕ) / 10 ^ kept.length - (m + fraction dropped) / 10 ^ kept.length =
      (1 - fraction dropped) / 10 ^ kept.length := by
    push_cast
    ring
  have hle : (m : ℚ) + 1 + 1 ≤ mantissaBound := by exact_mod_cast hm
  constructor
  · exact hm
  · exact hs
  · simp
  · rw [hdiff, abs_of_nonneg (div_nonneg (by linarith) hpos.le)]
    exact div_le_div_of_nonneg_right (by linarith) hpos.le
  · rw [forall_drop_iff hdropped, ← sub_eq_zero, hdiff, div_eq_zero_iff]
    constructor
    · rintro (hone | hzero)
      · linarith
      · exact absurd hzero hpos.ne'
    · intro hzero
      linarith
  · calc ((m : ℚ) + fraction dropped) / 10 ^ kept.length
        ≤ m + fraction dropped := div_le_self (by positivity) hpow
      _ < mantissaBound - 1 / 2 := by linarith

/-- The dropped places are half a unit or more, and the mantissa is full: one more place is
dropped. -/
theorem isRounded_full (hm : m + 1 = mantissaBound) (hs : kept.length ≤ 28)
    (hpos : 0 < kept.length) (hhalf : 1 / 2 ≤ fraction dropped) :
    IsRounded ((m + 5) / 10) (kept.length - 1) ((m + fraction dropped) / 10 ^ kept.length)
      (kept ++ dropped) := by
  obtain ⟨k, hk⟩ : ∃ k, kept.length = k + 1 := ⟨_, (Nat.sub_add_cancel hpos).symm⟩
  have hhigh := (fraction_bounds hdropped).2
  have hone : (1 : ℚ) ≤ 10 ^ k := one_le_pow₀ (by norm_num)
  have hpow : (0 : ℚ) < 10 ^ k := by linarith
  have hbound : mantissaBound = 79228162514264337593543950336 := rfl
  -- the full mantissa ends in a five
  have hten : (m + 5) / 10 * 10 = m + 5 := by omega
  have hmantissa : (((m + 5) / 10 : ℕ) : ℚ) = (m + 5) / 10 := by
    rw [eq_div_iff (by norm_num)]
    exact_mod_cast hten
  have hdiff : ((m + 5) / 10 : ℕ) / 10 ^ k - (m + fraction dropped) / 10 ^ (k + 1) =
      (5 - fraction dropped) / 10 / 10 ^ k := by
    rw [hmantissa, pow_succ]
    field_simp
    ring
  have hle : (m : ℚ) + 1 = mantissaBound := by exact_mod_cast hm
  rw [hk, Nat.add_sub_cancel]
  constructor
  · omega
  · omega
  · rw [List.length_append]
    omega
  · rw [hdiff, abs_of_nonneg (div_nonneg (by linarith) hpow.le)]
    exact div_le_div_of_nonneg_right (by linarith) hpow.le
  · have hne : (5 - fraction dropped) / 10 / 10 ^ k ≠ 0 :=
      (div_pos (by linarith) hpow).ne'
    rw [← sub_eq_zero, hdiff]
    refine iff_of_false hne fun hall => ?_
    have hzero : fraction dropped = 0 := (fraction_eq_zero_iff hdropped).mpr fun c hc => hall c ?_
    · linarith
    · rw [List.drop_append_of_le_length (by omega)]
      exact List.mem_append_right _ hc
  · have hten : (10 : ℚ) ≤ 10 ^ (k + 1) := by
      rw [pow_succ]
      linarith
    calc ((m : ℚ) + fraction dropped) / 10 ^ (k + 1)
        ≤ (m + fraction dropped) / 10 :=
          div_le_div_of_nonneg_left (by positivity) (by norm_num) hten
      _ < mantissaBound - 1 / 2 := by
        have hnonneg : (0 : ℚ) ≤ m := Nat.cast_nonneg m
        rw [← hle]
        linarith

end

/-- **What becomes of the digits that do not fit**, where the others have filled the mantissa or the
scale. -/
theorem roundAt_outcome {kept : List Char} (hm : m < mantissaBound) (hs : kept.length ≤ 28)
    (hc : c.isDigit) (hrest : ∀ c ∈ rest, c.isDigit) :
    Outcome ((m + fraction (c :: rest)) / 10 ^ kept.length) (kept ++ c :: rest)
      (roundAt m kept.length (digitValue c) rest) := by
  have hdropped : ∀ d ∈ c :: rest, d.isDigit := List.forall_mem_cons.mpr ⟨hc, hrest⟩
  obtain ⟨hlow, hhigh⟩ := fraction_bounds hrest
  have hall : rest.all isDigitOrGap := List.all_eq_true.mpr fun d hd => by
    simp [isDigitOrGap, hrest d hd]
  rw [roundAt, hall]
  simp only [Bool.not_true, Bool.false_eq_true, if_false]
  by_cases hdown : digitValue c < 5
  · have hdigit : (digitValue c : ℚ) ≤ 4 := by exact_mod_cast Nat.le_of_lt_succ hdown
    rw [if_pos hdown]
    refine isRounded_down hdropped hm hs ?_
    rw [fraction]
    linarith
  · have hdigit : (5 : ℚ) ≤ digitValue c := by exact_mod_cast Nat.not_lt.mp hdown
    have hhalf : 1 / 2 ≤ fraction (c :: rest) := by
      rw [fraction]
      linarith
    rw [if_neg hdown]
    by_cases hroom : m + 1 < mantissaBound
    · rw [if_pos hroom]
      exact isRounded_up hdropped hroom hs hhalf
    · have hfull : m + 1 = mantissaBound := by omega
      rw [if_neg hroom]
      by_cases hscale : kept.length = 0
      · have hle : (m : ℚ) + 1 = mantissaBound := by exact_mod_cast hfull
        rw [if_pos hscale, hscale, pow_zero, div_one, Outcome]
        linarith
      · rw [if_neg hscale]
        exact isRounded_full hdropped hfull hs (Nat.pos_of_ne_zero hscale) hhalf

/-- The places, cut where the next one does not fit. -/
theorem readDigits_cut (hcs : ∀ c ∈ cs, c.isDigit) (hm : m < mantissaBound) (hs : s ≤ 28) :
    ∃ kept dropped, cs = kept ++ dropped ∧
      Nat.ofDigitChars 10 kept m < mantissaBound ∧ s + kept.length ≤ 28 ∧
      readDigits m s true true cs =
        match dropped with
        | [] => some (Nat.ofDigitChars 10 kept m, s + kept.length)
        | d :: more =>
          roundAt (Nat.ofDigitChars 10 kept m) (s + kept.length) (digitValue d) more := by
  induction cs generalizing m s with
  | nil => exact ⟨[], [], rfl, hm, hs, rfl⟩
  | cons c cs ih =>
    obtain ⟨hc, hcs⟩ := List.forall_mem_cons.mp hcs
    by_cases hfits : m * 10 + digitValue c < mantissaBound ∧ s < 28
    · obtain ⟨kept, dropped, rfl, hkept, hscale, hread⟩ := ih hcs hfits.1 hfits.2
      have hnext : Nat.ofDigitChars 10 (c :: kept) m =
          Nat.ofDigitChars 10 kept (m * 10 + digitValue c) := by
        rw [Nat.ofDigitChars_cons, Nat.mul_comm]
        rfl
      have hlength : s + (c :: kept).length = s + 1 + kept.length := by
        rw [List.length_cons]
        omega
      refine ⟨c :: kept, dropped, rfl, hnext ▸ hkept, hlength ▸ hscale, ?_⟩
      rw [readDigits, if_pos hc, hnext, hlength, ← hread]
      simp [hfits.1, hfits.2]
    · refine ⟨[], c :: cs, rfl, hm, hs, ?_⟩
      have hnot : (decide (m * 10 + digitValue c < mantissaBound) &&
          (!true || decide (s < 28))) = false := by
        rw [Bool.eq_false_iff]
        simpa using hfits
      rw [readDigits, if_pos hc]
      simp only [hnot, Bool.false_eq_true, if_false, if_true]
      rfl

/-- **What becomes of the places** behind a whole number. -/
theorem readDigits_places (hcs : ∀ c ∈ cs, c.isDigit) (hm : m < mantissaBound) :
    Outcome (m + fraction cs) cs (readDigits m 0 true true cs) := by
  obtain ⟨kept, dropped, rfl, hkept, hscale, hread⟩ := readDigits_cut hcs hm (Nat.zero_le 28)
  have hpow : (0 : ℚ) < 10 ^ kept.length := by positivity
  have hvalue : m + fraction (kept ++ dropped) =
      (Nat.ofDigitChars 10 kept m + fraction dropped) / 10 ^ kept.length := by
    rw [ofDigitChars_fraction, fraction_append]
    field_simp
    ring
  rw [Nat.zero_add] at hscale hread
  rw [hread, hvalue]
  cases dropped with
  | nil => exact isRounded_down (by simp) hkept hscale (by norm_num [fraction])
  | cons d more =>
    obtain ⟨hd, hmore⟩ := List.forall_mem_cons.mp fun c hc => hcs c (List.mem_append_right kept hc)
    exact roundAt_outcome hkept hscale hd hmore

/-- **What does not fit in front of the point is refused.** -/
theorem readDigits_overflow {any : Bool} (hds : ∀ c ∈ ds, c.isDigit) (hm : m < mantissaBound)
    (hover : mantissaBound ≤ Nat.ofDigitChars 10 ds m) :
    readDigits m s false any (ds ++ rest) = none := by
  induction ds generalizing m any with
  | nil => exact absurd hm (Nat.not_lt.mpr hover)
  | cons c ds ih =>
    obtain ⟨hc, hmore⟩ := List.forall_mem_cons.mp hds
    have hnext : 10 * m + (c.toNat - '0'.toNat) = m * 10 + digitValue c := by
      rw [Nat.mul_comm]
      rfl
    rw [Nat.ofDigitChars_cons, hnext] at hover
    rw [List.cons_append, readDigits, if_pos hc]
    by_cases hfits : m * 10 + digitValue c < mantissaBound
    · simp only [hfits, Bool.not_false, Bool.true_or, decide_true, Bool.and_true, if_true]
      exact ih hmore hfits hover
    · simp [hfits]

end Decimal

/-! ## Numbers -/

theorem isDigit_of_mem_wholeDigits (h : c ∈ wholeDigits n) : c.isDigit :=
  (List.mem_filter.mp h).2

theorem isDigit_of_mem_placeDigits (h : c ∈ placeDigits n) : c.isDigit :=
  (List.mem_filter.mp h).2

/-- A number without its commas. -/
theorem IsNumeral.filter_eq (h : IsNumeral n) :
    n.filter (· ≠ ',') = wholeDigits n ++ if '.' ∈ n then '.' :: placeDigits n else [] := by
  have hsame : ∀ {cs : List Char}, (∀ c ∈ cs, c ∈ n ∧ c ≠ '.') →
      cs.filter (· ≠ ',') = cs.filter Char.isDigit := by
    intro cs hcs
    refine List.filter_congr fun c hc => ?_
    obtain ⟨hmem, hpoint⟩ := hcs c hc
    rcases h.chars c hmem with hdigit | rfl | rfl
    · have hcomma : c ≠ ',' := by
        rintro rfl
        exact absurd hdigit (by decide)
      simp [hdigit, hcomma]
    · rfl
    · exact absurd rfl hpoint
  have hsplit : n.takeWhile (· ≠ '.') ++ n.dropWhile (· ≠ '.') = n :=
    List.takeWhile_append_dropWhile
  have hwhole : (n.takeWhile (· ≠ '.')).filter (· ≠ ',') = wholeDigits n :=
    hsame fun c hc => ⟨(List.takeWhile_prefix _).subset hc,
      by simpa using List.mem_takeWhile_imp hc⟩
  conv_lhs => rw [← hsplit, List.filter_append, hwhole]
  refine congrArg (wholeDigits n ++ ·) ?_
  cases hback : n.dropWhile (· ≠ '.') with
  | nil =>
    have hnone : '.' ∉ n := fun hmem => by
      rw [← hsplit, hback, List.append_nil] at hmem
      exact absurd (List.mem_takeWhile_imp hmem) (by decide)
    rw [if_neg hnone]
    rfl
  | cons p back =>
    obtain rfl : p = '.' := by
      have hhead := List.head?_dropWhile_not (fun c : Char => decide (c ≠ '.')) n
      rw [hback] at hhead
      simpa using hhead
    have hmem : ∀ c ∈ '.' :: back, c ∈ n := fun c hc =>
      (List.dropWhile_suffix _).subset (hback ▸ hc)
    -- there is one point only
    have honce : '.' ∉ back := fun hmore => by
      have hcount := h.point
      rw [← hsplit, hback, List.count_append, List.count_cons_self] at hcount
      have hpos := List.count_pos_iff.mpr hmore
      omega
    have hplaces : placeDigits n = back.filter Char.isDigit := by
      rw [placeDigits, hback, List.filter_cons_of_neg (by decide)]
    rw [if_pos (hmem '.' List.mem_cons_self), hplaces, List.filter_cons_of_pos (by decide),
      hsame fun c hc => ⟨hmem c (List.mem_cons_of_mem _ hc), fun heq => honce (heq ▸ hc)⟩]

/-- The number as a decimal spells it: the digits in front of the point, or a zero if there are
none, and the point with its places. -/
theorem spelledNumber_eq {number : String} (h : IsNumeral number.toList) :
    ∃ lead, spelledNumber number =
        lead ++ (if '.' ∈ number.toList then '.' :: placeDigits number.toList else []) ∧
      (∀ c ∈ lead, c.isDigit) ∧ ofDigits lead = ofDigits (wholeDigits number.toList) ∧
      (lead = [] ↔ wholeDigits number.toList = [] ∧ '.' ∉ number.toList) := by
  have hfilter := h.filter_eq
  unfold spelledNumber
  rw [hfilter]
  generalize number.toList = n
  cases hwhole : wholeDigits n with
  | nil =>
    by_cases hpoint : '.' ∈ n
    · rw [if_pos hpoint]
      exact ⟨['0'], rfl, by simp, rfl, by simp [hpoint]⟩
    · rw [if_neg hpoint]
      exact ⟨[], rfl, by simp, rfl, by simp [hpoint]⟩
  | cons c cs =>
    have hdigits : ∀ d ∈ c :: cs, d.isDigit := fun d hd =>
      isDigit_of_mem_wholeDigits (hwhole ▸ hd)
    refine ⟨c :: cs, ?_, hdigits, rfl, by simp⟩
    have hc : c ≠ '.' := by
      rintro rfl
      exact absurd (hdigits '.' List.mem_cons_self) (by decide)
    rw [List.cons_append]
    split
    · next heq => exact absurd (List.cons.inj heq).1 hc
    · rfl

theorem placeDigits_of_not_mem (h : '.' ∉ n) : placeDigits n = [] := by
  have hnone : n.dropWhile (· ≠ '.') = [] := List.dropWhile_eq_nil_iff.mpr fun c hc =>
    decide_eq_true fun heq => h (heq ▸ hc)
  rw [placeDigits, hnone]
  rfl

/-- Commas alone have no digit and no point. -/
theorem IsNumeral.forall_comma_iff (h : IsNumeral n) :
    (∀ c ∈ n, c = ',') ↔ wholeDigits n = [] ∧ '.' ∉ n := by
  have hnil : n.filter (· ≠ ',') = [] ↔ ∀ c ∈ n, c = ',' := by simp [List.filter_eq_nil_iff]
  rw [← hnil, h.filter_eq, List.append_eq_nil_iff]
  by_cases hpoint : '.' ∈ n <;> simp [hpoint]

/-- **How a number is read**: first the digits in front of the point, if they fit, and then the
places. Commas alone are no number. -/
theorem ofChars?_spelledNumber {number : String} (h : IsNumeral number.toList) :
    ((∀ c ∈ number.toList, c = ',') ∨
        Decimal.mantissaBound ≤ ofDigits (wholeDigits number.toList) →
      Decimal.ofChars? (spelledNumber number) = none) ∧
    ((∃ c ∈ number.toList, c ≠ ',') →
        ofDigits (wholeDigits number.toList) < Decimal.mantissaBound →
      Decimal.ofChars? (spelledNumber number) =
        (Decimal.readDigits (ofDigits (wholeDigits number.toList)) 0 true true
          (placeDigits number.toList)).bind fun (m, s) => Decimal.ofParts? false m s) := by
  obtain ⟨lead, hspelled, hdigits, hvalue, hempty⟩ := spelledNumber_eq h
  have hcommas := h.forall_comma_iff.trans hempty.symm
  have hplaces := placeDigits_of_not_mem (n := number.toList)
  rw [← hvalue, ofDigits_eq_ofDigitChars, hspelled]
  generalize placeDigits number.toList = places at hplaces ⊢
  cases lead with
  | nil =>
    refine ⟨fun _ => ?_, fun ⟨c, hc, hne⟩ _ => absurd (hcommas.mpr rfl c hc) hne⟩
    rw [if_neg (hempty.mp rfl).2]
    rfl
  | cons d lead =>
    have hsign := Decimal.splitSign_signed (hdigits d List.mem_cons_self) false
    simp only [Bool.false_eq_true, if_false, List.nil_append] at hsign
    have hsome : ¬ ∀ c ∈ number.toList, c = ',' := fun hall => by simpa using hcommas.mp hall
    rw [List.cons_append, Decimal.ofChars?, hsign, ← List.cons_append]
    simp only [Option.bind_eq_bind]
    refine ⟨fun hrefused => ?_, fun _ hfits => ?_⟩
    · rw [Decimal.readDigits_overflow hdigits (by decide) (hrefused.resolve_left hsome)]
      rfl
    · rw [Decimal.readDigits_append hdigits hfits fun hpoint =>
        absurd hpoint Bool.false_ne_true]
      by_cases hpoint : '.' ∈ number.toList
      · rw [if_pos hpoint]
        rfl
      · rw [if_neg hpoint, hplaces hpoint]
        rfl

/-- **Which decimal a number is**, or that it is none. -/
theorem ofChars?_outcome {number : String} (h : IsNumeral number.toList) :
    (Decimal.ofChars? (spelledNumber number) = none ∧
      ((∀ c ∈ number.toList, c = ',') ∨
        (Decimal.mantissaBound : ℚ) - 1 / 2 ≤ spelledValue number.toList)) ∨
    ∃ d, Decimal.ofChars? (spelledNumber number) = some d ∧ d.negative = false ∧
      (∃ c ∈ number.toList, c ≠ ',') ∧
      Decimal.IsRounded d.mantissa d.scale (spelledValue number.toList)
        (placeDigits number.toList) := by
  have hdigits : ∀ c ∈ placeDigits number.toList, c.isDigit := fun _ => isDigit_of_mem_placeDigits
  obtain ⟨hrefused, hread⟩ := ofChars?_spelledNumber h
  rw [spelledValue_eq]
  rcases Classical.em (∃ c ∈ number.toList, c ≠ ',') with hsome | hnone
  · rcases Nat.lt_or_ge (ofDigits (wholeDigits number.toList)) Decimal.mantissaBound with
      hfits | hover
    · have houtcome := Decimal.readDigits_places hdigits hfits
      rw [hread hsome hfits]
      cases hparts : Decimal.readDigits (ofDigits (wholeDigits number.toList)) 0 true true
          (placeDigits number.toList) with
      | none =>
        rw [hparts] at houtcome
        exact .inl ⟨rfl, .inr houtcome⟩
      | some parts =>
        obtain ⟨m, s⟩ := parts
        rw [hparts] at houtcome
        have hrounded : Decimal.IsRounded m s _ _ := houtcome
        have hheld : Decimal.ofParts? false m s =
            some ⟨false, m, s, hrounded.mantissa_lt, hrounded.scale_le⟩ :=
          dif_pos ⟨hrounded.mantissa_lt, hrounded.scale_le⟩
        exact .inr ⟨_, hheld, rfl, hsome, hrounded⟩
    · have hle : (Decimal.mantissaBound : ℚ) ≤ ofDigits (wholeDigits number.toList) := by
        exact_mod_cast hover
      have hlow := (fraction_bounds hdigits).1
      exact .inl ⟨hrefused (.inr hover), .inr (by linarith)⟩
  · have hall : ∀ c ∈ number.toList, c = ',' := by simpa using hnone
    exact .inl ⟨hrefused (.inl hall), .inl hall⟩

/-! ## Quantities -/

/-- The rational that an amount spells. -/
def Written.Amount.spelled (a : Written.Amount) : ℚ :=
  (if a.sign = .negative then -1 else 1) * spelledValue a.number.toList

/-- A decimal with the sign of an amount is as near to what the amount spells as the decimal is to
its number. -/
theorem value_sub_spelled (a : Written.Amount) {d : Decimal} (hd : d.negative = false) :
    (if a.sign = .negative then d.negate else d).value - a.spelled =
      (if a.sign = .negative then -1 else 1) *
        (d.mantissa / 10 ^ d.scale - spelledValue a.number.toList) := by
  have hvalue : d.value = d.mantissa / 10 ^ d.scale := by simp [Decimal.value, hd]
  rw [Written.Amount.spelled, ← hvalue]
  split
  · rw [Decimal.value_negate]
    ring
  · ring

/-- **A quantity is the number rounded to its last place.** A number is refused exactly if it has
commas only, or if it rounds to 2 to the power of 96 or more. Otherwise the quantity is what the
amount spells up to half a unit of the last place, and it is exactly that if and only if the places
behind the last one are zeros. -/
theorem ofWritten_quantity (a : Written.Amount) (ha : IsNumeral a.number.toList) :
    let refused :=
      (∀ c ∈ a.number.toList, c = ',') ∨ (2 : ℚ) ^ 96 - 1 / 2 ≤ spelledValue a.number.toList
    (refused → Decimal.ofWritten a = .error (.invalidNumber a.value)) ∧
    (¬ refused → ∃ q, Decimal.ofWritten a = .ok q ∧
      q.scale ≤ (placeDigits a.number.toList).length ∧
      |q.value - a.spelled| ≤ 1 / 2 / 10 ^ q.scale ∧
      (q.value = a.spelled ↔ ∀ c ∈ (placeDigits a.number.toList).drop q.scale, c = '0')) := by
  have hbound : (Decimal.mantissaBound : ℚ) = 2 ^ 96 := by norm_num [Decimal.mantissaBound]
  have houtcome := ofChars?_outcome ha
  rw [hbound] at houtcome
  intro refused
  unfold Decimal.ofWritten
  rcases houtcome with ⟨hnone, hrefused⟩ | ⟨d, hsome, hsign, ⟨c, hc, hcomma⟩, hrounded⟩
  · rw [hnone]
    exact ⟨fun _ => rfl, fun hnot => absurd hrefused hnot⟩
  · have hlt := hrounded.lt
    have hdiff := value_sub_spelled a hsign
    have hscale : (if a.sign = .negative then d.negate else d).scale = d.scale := by
      split <;> rfl
    rw [hbound] at hlt
    rw [hsome]
    refine ⟨fun hrefused => ?_, fun _ => ⟨_, rfl, ?_, ?_, ?_⟩⟩
    · rcases hrefused with hall | hover
      · exact absurd (hall c hc) hcomma
      · exact absurd hlt (not_lt.mpr hover)
    · rw [hscale]
      exact hrounded.scale_le_length
    · rw [hscale, hdiff, abs_mul]
      have hone : |(if a.sign = .negative then -1 else 1 : ℚ)| = 1 := by split <;> simp
      rw [hone, one_mul]
      exact hrounded.near
    · rw [hscale, ← hrounded.exact_iff, ← sub_eq_zero, hdiff, ← sub_eq_zero (a := (_ / _ : ℚ)),
        mul_eq_zero]
      refine or_iff_right ?_
      split <;> norm_num

/-- Half a unit of the last place that a decimal can have is rounded up. -/
theorem ofWritten_quantity_half :
    let a : Written.Amount :=
      ⟨.negative, "0.00000000000000000000000000005", some "EUR",
        "-0.00000000000000000000000000005 EUR"⟩
    ∃ q, Decimal.ofWritten a = .ok q ∧ |q.value - a.spelled| ≤ 1 / 2 / 10 ^ q.scale := by
  intro a
  have hcommas : ¬ ∀ c ∈ a.number.toList, c = ',' := fun hall =>
    absurd (hall '0' (by decide)) (by decide)
  have hover : ¬ (2 : ℚ) ^ 96 - 1 / 2 ≤ spelledValue a.number.toList := by decide +kernel
  obtain ⟨q, hq, -, hnear, -⟩ :=
    (ofWritten_quantity a (by decide)).2 (not_or.mpr ⟨hcommas, hover⟩)
  exact ⟨q, hq, hnear⟩

/-- A number is changed without a fault: its last place does not fit. -/
theorem ofWritten_changes_number :
    let a : Written.Amount :=
      ⟨.positive, "0.00000000000000000000000000005", none, "0.00000000000000000000000000005"⟩
    IsNumeral a.number.toList ∧ ∃ q, Decimal.ofWritten a = .ok q ∧ q.value ≠ a.spelled := by
  refine ⟨by decide, ⟨false, 1, 28, by decide, by decide⟩, ?_, ?_⟩
  · decide +kernel
  · decide +kernel

/-! ## Numbers of a source -/

/-- A number of a source is a numeral, and it has a digit. -/
theorem isNumeral_of_mem_numberText (h : n ∈ numberText) :
    IsNumeral n ∧ (∃ c ∈ n, c.isDigit) ∧ '-' ∉ n := by
  obtain ⟨grouped, point, digits, rfl, hgrouped, -, hpoint, hne, hdigits⟩ :=
    exists_of_mem_numberText h
  have hchars : ∀ c ∈ grouped ++ point ++ digits, c.isDigit ∨ c = ',' ∨ c = '.' := by
    intro c hc
    rw [List.mem_append, List.mem_append] at hc
    rcases hc with (hg | hp) | hd
    · exact (hgrouped c hg).imp_right .inl
    · rcases hpoint with rfl | rfl
      · exact absurd hp List.not_mem_nil
      · exact .inr (.inr (List.mem_singleton.mp hp))
    · exact .inl (hdigits c hd)
  refine ⟨⟨hchars, ?_⟩, ?_, fun hminus => absurd (hchars _ hminus) (by decide)⟩
  · have hwhole : grouped.count '.' = 0 := List.count_eq_zero.mpr fun hmem =>
      absurd (hgrouped _ hmem) (by decide)
    have hplaces : digits.count '.' = 0 := List.count_eq_zero.mpr fun hmem =>
      absurd (hdigits _ hmem) (by decide)
    rw [List.count_append, List.count_append, hwhole, hplaces]
    rcases hpoint with rfl | rfl <;> decide
  · obtain ⟨c, cs, rfl⟩ := List.exists_cons_of_ne_nil hne
    exact ⟨c, by simp, hdigits c List.mem_cons_self⟩

/-- The minus of a number is told from its digits. -/
theorem splitMinus_number {minus : Bool} (h : '-' ∉ n) :
    Written.splitMinus (String.ofList ((if minus then ['-'] else []) ++ n)) =
      (minus, String.ofList n) := by
  unfold Written.splitMinus
  rw [String.toList_ofList]
  cases minus with
  | true => rfl
  | false =>
    simp only [Bool.false_eq_true, if_false, List.nil_append]
    split
    · exact absurd List.mem_cons_self h
    · rfl

/-- Places that fit are kept. -/
theorem readDigits_placeDigits (hlt : ofDigits (n.filter Char.isDigit) < Decimal.mantissaBound)
    (hplaces : (placeDigits n).length ≤ 28) :
    Decimal.readDigits (ofDigits (wholeDigits n)) 0 true true (placeDigits n) =
      some (ofDigits (n.filter Char.isDigit), (placeDigits n).length) := by
  rw [ofDigits_filter] at hlt ⊢
  conv_lhs => rw [← List.append_nil (placeDigits n)]
  rw [Decimal.readDigits_append (fun _ => isDigit_of_mem_placeDigits) hlt fun _ => by omega]
  simp [Decimal.readDigits]

/-- **A number that fits is held exactly, with all its places**, and its sign is turned around by
exactly one of the dash and the minus in front of the digits. If what stands in front of the point
does not fit, the number is refused. -/
theorem ofTree_quantity (a : Tree.Amount) (minus : Bool) (number : List Char)
    (hnumber : number ∈ numberText)
    (himage : a.number.image = String.ofList ((if minus then ['-'] else []) ++ number)) :
    (ofDigits (number.filter Char.isDigit) < 2 ^ 96 → (placeDigits number).length ≤ 28 →
      ∃ q, Amount.ofWritten (.ofTree a) = .ok ⟨q, a.commodity.map (·.text)⟩ ∧
        q.value = (if a.dash.isSome = minus then 1 else -1) * spelledValue number ∧
        q.scale = (placeDigits number).length) ∧
    (2 ^ 96 ≤ ofDigits (wholeDigits number) →
      Amount.ofWritten (.ofTree a) = .error (.invalidNumber
        ((if a.dash.isSome = minus then "" else "-") ++ String.ofList number))) := by
  obtain ⟨hnumeral, ⟨c, hc, hdigit⟩, hminus⟩ := isNumeral_of_mem_numberText hnumber
  have hbound : (2 : Nat) ^ 96 = Decimal.mantissaBound := by decide
  have hdigits : ∀ c ∈ placeDigits number, c.isDigit := fun _ => isDigit_of_mem_placeDigits
  have hcomma : c ≠ ',' := by
    rintro rfl
    exact absurd hdigit (by decide)
  have hwritten : Written.Amount.ofTree a = ⟨Written.signOf a.dash.isSome minus,
      String.ofList number, a.commodity.map (·.text), Written.amountText a⟩ := by
    rw [Written.Amount.ofTree, himage, splitMinus_number hminus]
  have hread := ofChars?_spelledNumber (String.toList_ofList (l := number) ▸ hnumeral)
  rw [String.toList_ofList] at hread
  rw [hwritten, hbound]
  refine ⟨fun hlt hplaces => ?_, fun hover => ?_⟩
  · have hwhole : ofDigits (wholeDigits number) < Decimal.mantissaBound := by
      rw [ofDigits_filter] at hlt
      exact Nat.lt_of_le_of_lt (Decimal.le_ofDigitChars _ _) hlt
    have hheld : Decimal.ofChars? (spelledNumber (String.ofList number)) =
        some ⟨false, ofDigits (number.filter Char.isDigit), (placeDigits number).length, hlt,
          hplaces⟩ := by
      rw [hread.2 ⟨c, hc, hcomma⟩ hwhole, readDigits_placeDigits hlt hplaces]
      exact dif_pos ⟨hlt, hplaces⟩
    refine ⟨_, by simp only [Amount.ofWritten, Decimal.ofWritten, hheld]; rfl, ?_, ?_⟩
    · by_cases hsign : a.dash.isSome = minus
      · simp [Written.signOf, hsign, Decimal.value, spelledValue]
      · simp [Written.signOf, hsign, Decimal.value, Decimal.negate, spelledValue]
    · split <;> rfl
  · have hrefused : Decimal.ofChars? (spelledNumber (String.ofList number)) = none :=
      hread.1 (.inr hover)
    have hsign : (Written.signOf a.dash.isSome minus).text =
        if a.dash.isSome = minus then "" else "-" := by
      unfold Written.signOf
      split <;> rfl
    simp only [Amount.ofWritten, Decimal.ofWritten, hrefused, Written.Amount.value, hsign]
    rfl

/-- A dash in front of the commodity and a minus in front of the number. -/
theorem ofTree_quantity_two_signs :
    let a : Tree.Amount := ⟨some ⟨.dash, "-", ⟨0, 1, 1⟩, none⟩,
      some ⟨.commodity, "$", ⟨1, 1, 2⟩, some (.text "$")⟩, ⟨.number, "-1,234.50", ⟨2, 1, 3⟩, none⟩⟩
    ∃ q, Amount.ofWritten (.ofTree a) = .ok ⟨q, some "$"⟩ ∧ q.value = 123450 / 100 ∧
      q.scale = 2 := by
  intro a
  have hmore : ",234".toList ∈ manyOf fun c => c.isDigit || c = ',' :=
    List.all_eq_true.mp (by decide)
  have hplaces : "50".toList ∈ someOf Char.isDigit :=
    ⟨List.cons_ne_nil _ _, List.all_eq_true.mp (by decide)⟩
  have hnumber : "1,234.50".toList ∈ numberText :=
    ⟨_, ⟨_, .inr ⟨_, ⟨'1', rfl, rfl⟩, _, hmore, rfl⟩, _, .inr rfl, rfl⟩, _, hplaces, rfl⟩
  obtain ⟨q, hq, hvalue, hscale⟩ := (ofTree_quantity a true "1,234.50".toList hnumber rfl).1
    (by decide) (by decide)
  refine ⟨q, hq, ?_, hscale⟩
  rw [hvalue]
  decide +kernel

end Daybook
