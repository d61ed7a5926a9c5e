import Mathlib.Algebra.GroupWithZero.Nat
import Mathlib.Data.List.TakeWhile
import ExprMachine.Number.Numeral
import ExprMachine.Proofs.Number.Rounding

/-!
# Numbers read back

Every number is read back from its text as the same double, the infinities and the zero with a sign
among them.

* `Numeral.value_digitsOf` — digits are read as the number that they are of;
* `Numeral.decimal?_layout` — the layout of a decimal is read as one of the same double;
* `Numeral.binary64?_toText` — the text of a double is read as the double;
* `Binary64.mem_toText` — the characters of such a text.
-/

namespace ExprMachine

namespace Numeral

/-! ### Digits -/

theorem value_digitsOf (n : Nat) : value (Decimal.digitsOf n) = n :=
  Nat.ofDigitChars_toDigits (by decide) (by decide)

theorem isDigit_of_mem_digitsOf {n : Nat} {c : Char} (h : c ∈ Decimal.digitsOf n) :
    c.isDigit = true :=
  Nat.isDigit_of_mem_toDigits (by decide) (by decide) h

theorem digitsOf_ne_nil (n : Nat) : Decimal.digitsOf n ≠ [] := Nat.toDigits_ne_nil

theorem isDigits_digitsOf (n : Nat) : isDigits (Decimal.digitsOf n) = true := by
  rw [isDigits, Bool.and_eq_true, List.all_eq_true, decide_eq_true_eq]
  exact ⟨digitsOf_ne_nil n, fun c hc => isDigit_of_mem_digitsOf hc⟩

/-- Zeros before a number change nothing. -/
theorem value_zeros_append (count : Nat) (s : List Char) :
    value (List.replicate count '0' ++ s) = value s := by
  induction count with
  | zero => rfl
  | succ count ih => exact ih

/-- A zero behind a number is a factor of ten. -/
theorem value_append_zeros (s : List Char) (count : Nat) :
    value (s ++ List.replicate count '0') = value s * 10 ^ count := by
  induction count with
  | zero => simp
  | succ count ih =>
    have hlast : value (s ++ List.replicate count '0' ++ ['0']) =
        10 * value (s ++ List.replicate count '0') := by
      simp [value, List.foldl_append]
    rw [List.replicate_succ', ← List.append_assoc, hlast, ih, Nat.pow_succ, Nat.mul_comm 10,
      Nat.mul_assoc]

/-! ### Decimals -/

section Decimals

variable {whole fraction : List Char} (hwhole : ∀ c ∈ whole, c.isDigit = true) (hne : whole ≠ [])

include hwhole hne

theorem decimal?_of_digits : decimal? whole = some ⟨value whole, 0⟩ := by
  have htake : whole.takeWhile Char.isDigit = whole := List.takeWhile_eq_self_iff.2 hwhole
  have hdrop : whole.dropWhile Char.isDigit = [] := List.dropWhile_eq_nil_iff.2 hwhole
  simp only [decimal?, htake, hdrop, List.append_nil, hne, false_and, if_false]
  rfl

theorem decimal?_of_point (hfraction : ∀ c ∈ fraction, c.isDigit = true) :
    decimal? (whole ++ '.' :: fraction) = some ⟨value (whole ++ fraction), -fraction.length⟩ := by
  have htake : (whole ++ '.' :: fraction).takeWhile Char.isDigit = whole := by
    rw [List.takeWhile_append_of_pos hwhole]
    exact List.append_nil whole
  have hdrop : (whole ++ '.' :: fraction).dropWhile Char.isDigit = '.' :: fraction := by
    rw [List.dropWhile_append_of_pos hwhole]
    rfl
  have htake' : fraction.takeWhile Char.isDigit = fraction :=
    List.takeWhile_eq_self_iff.2 hfraction
  have hdrop' : fraction.dropWhile Char.isDigit = [] := List.dropWhile_eq_nil_iff.2 hfraction
  have hsome : ¬ (whole = [] ∧ fraction = []) := fun h => hne h.1
  simp only [decimal?, htake, hdrop, htake', hdrop', if_neg hsome, exponent?, Option.map_some,
    Int.zero_sub]

end Decimals

/-- The parts of digits with a point. -/
theorem pointed_eq (n places : Nat) (hplaces : 0 < places) :
    ∃ whole fraction : List Char, Decimal.pointed n places = whole ++ '.' :: fraction ∧
      whole ≠ [] ∧ fraction.length = places ∧ value (whole ++ fraction) = n ∧
      (∀ c ∈ whole, c.isDigit = true) ∧ ∀ c ∈ fraction, c.isDigit = true := by
  let padded := List.replicate (places + 1 - (Decimal.digitsOf n).length) '0' ++ Decimal.digitsOf n
  have hlength : places + 1 ≤ padded.length := by
    rw [List.length_append, List.length_replicate]
    omega
  have hdigits (c : Char) (hc : c ∈ padded) : c.isDigit = true := by
    rcases List.mem_append.1 hc with hzero | hdigit
    · rw [List.eq_of_mem_replicate hzero]
      rfl
    · exact isDigit_of_mem_digitsOf hdigit
  have hfraction : (padded.drop (padded.length - places)).length = places := by
    rw [List.length_drop]
    omega
  have hwhole : (padded.take (padded.length - places)).length ≠ 0 := by
    rw [List.length_take]
    omega
  have hsome : padded.drop (padded.length - places) ≠ [] := by
    intro hnil
    rw [hnil] at hfraction
    exact absurd hfraction (Nat.ne_of_lt hplaces)
  refine ⟨padded.take (padded.length - places), padded.drop (padded.length - places), ?_, ?_,
    hfraction, ?_, ?_, ?_⟩
  · exact if_neg hsome
  · exact fun hnil => hwhole (congrArg List.length hnil)
  · rw [List.take_append_drop, value_zeros_append, value_digitsOf]
  · exact fun c hc => hdigits c (List.mem_of_mem_take hc)
  · exact fun c hc => hdigits c (List.mem_of_mem_drop hc)

/-- The characters of a layout, which begins with a digit. -/
theorem layout_digits (d : Decimal) :
    (∃ c rest, d.layout = c :: rest ∧ c.isDigit = true) ∧
      ∀ c ∈ d.layout, c.isDigit = true ∨ c = '.' := by
  unfold Decimal.layout
  split
  · split
    · refine ⟨⟨'0', [], rfl, rfl⟩, ?_⟩
      intro c hc
      obtain rfl := List.mem_singleton.1 hc
      exact .inl rfl
    · obtain ⟨c, rest, hcons⟩ := List.exists_cons_of_ne_nil (digitsOf_ne_nil d.digits)
      have hfirst : c.isDigit = true := by
        refine isDigit_of_mem_digitsOf (n := d.digits) ?_
        rw [hcons]
        exact List.mem_cons_self
      refine ⟨⟨c, rest ++ List.replicate d.exponent.toNat '0', by rw [hcons]; rfl, hfirst⟩, ?_⟩
      intro c hc
      rcases List.mem_append.1 hc with hdigit | hzero
      · exact .inl (isDigit_of_mem_digitsOf hdigit)
      · rw [List.eq_of_mem_replicate hzero]
        exact .inl rfl
  · obtain ⟨whole, fraction, hpointed, hne, -, -, hwhole, hfraction⟩ :=
      pointed_eq d.digits (-d.exponent).toNat (by omega)
    rw [hpointed]
    obtain ⟨c, rest, rfl⟩ := List.exists_cons_of_ne_nil hne
    refine ⟨⟨c, rest ++ '.' :: fraction, rfl, hwhole c List.mem_cons_self⟩, ?_⟩
    intro c hc
    rcases List.mem_append.1 hc with hdigit | hrest
    · exact .inl (hwhole c hdigit)
    · rcases List.mem_cons.1 hrest with rfl | hdigit
      · exact .inr rfl
      · exact .inl (hfraction c hdigit)

theorem toBinary64_zero (e : Int) : Decimal.toBinary64 ⟨0, e⟩ = .zero := by
  show Binary64.ofRatio (0 * _) _ = .zero
  rw [Nat.zero_mul]
  rfl

/-- The exponent of a whole number can be written as zeros. -/
theorem toBinary64_zeros {d : Decimal} (hlow : 0 ≤ d.exponent) (hhigh : d.exponent ≤ 400) :
    Decimal.toBinary64 ⟨d.digits * 10 ^ d.exponent.toNat, 0⟩ = d.toBinary64 := by
  have hclamp : Decimal.clampExponent d.digits d.exponent = d.exponent :=
    Decimal.clampExponent_eq _ (by omega) hhigh
  have hzero : Decimal.clampExponent (d.digits * 10 ^ d.exponent.toNat) 0 = 0 :=
    Decimal.clampExponent_eq _ (by decide) (by decide)
  have hdown : (-d.exponent).toNat = 0 := by omega
  show Binary64.ofRatio (_ * Nat.pow 10 (Decimal.clampExponent _ 0).toNat)
    (Nat.pow 10 (-Decimal.clampExponent _ 0).toNat) = Binary64.ofRatio
      (d.digits * Nat.pow 10 (Decimal.clampExponent d.digits d.exponent).toNat)
      (Nat.pow 10 (-Decimal.clampExponent d.digits d.exponent).toNat)
  rw [hclamp, hzero, hdown]
  exact congrArg (Binary64.ofRatio · 1) (Nat.mul_one _)

/-- **A layout is read as the same number.** Behind the digits of a whole number its exponent has
become zeros. -/
theorem decimal?_layout {d : Decimal} (h : d.exponent ≤ 400) :
    ∃ read, decimal? d.layout = some read ∧ read.toBinary64 = d.toBinary64 := by
  unfold Decimal.layout
  by_cases he : 0 ≤ d.exponent
  · rw [if_pos he]
    by_cases hdigits : d.digits = 0
    · rw [if_pos hdigits]
      have hzero : d.toBinary64 = .zero := by
        obtain ⟨digits, e⟩ := d
        obtain rfl : digits = 0 := hdigits
        exact toBinary64_zero e
      exact ⟨⟨0, 0⟩, decimal?_of_digits (List.all_eq_true.1 rfl) (by decide), hzero.symm⟩
    · rw [if_neg hdigits]
      have hdigit : ∀ c ∈ Decimal.digitsOf d.digits ++ List.replicate d.exponent.toNat '0',
          c.isDigit = true := by
        intro c hc
        rcases List.mem_append.1 hc with hdigit | hzero
        · exact isDigit_of_mem_digitsOf hdigit
        · rw [List.eq_of_mem_replicate hzero]
          rfl
      refine ⟨_,
        decimal?_of_digits hdigit (List.append_ne_nil_of_left_ne_nil (digitsOf_ne_nil _) _),
        ?_⟩
      rw [value_append_zeros, value_digitsOf]
      exact toBinary64_zeros he h
  · rw [if_neg he]
    obtain ⟨whole, fraction, hpointed, hne, hlength, hvalue, hwhole, hfraction⟩ :=
      pointed_eq d.digits (-d.exponent).toNat (by omega)
    rw [hpointed, decimal?_of_point hwhole hne hfraction, hvalue, hlength]
    have hexponent : -((-d.exponent).toNat : Int) = d.exponent := by omega
    rw [hexponent]
    exact ⟨d, rfl, rfl⟩

/-! ### Doubles -/

/-- A text that begins with no sign is read as what has none. -/
theorem binary64?_cons {c : Char} (rest : List Char) (hminus : c ≠ '-') (hplus : c ≠ '+') :
    binary64? (c :: rest) = unsigned? (c :: rest) := by
  unfold binary64?
  split
  · rename_i heq
    cases heq
    exact absurd rfl hminus
  · rename_i heq
    cases heq
    exact absurd rfl hplus
  · rfl

end Numeral

namespace Binary64

/-- The text of a double without its sign. -/
def unsignedText (x : Binary64) : List Char :=
  if x.isFinite then (if x.magnitude = 0 then ['0'] else (Decimal.shortest x).layout)
  else "inf".toList

variable {x : Binary64} (h : x.isNaN = false)

include h

theorem toText_eq : x.toText = (if x.isNegative then ['-'] else []) ++ x.unsignedText := by
  simp only [toText, h, Bool.false_eq_true, if_false, unsignedText]

theorem unsigned?_unsignedText :
    Numeral.unsigned? x.unsignedText = some (ofFields false x.magnitude) := by
  unfold unsignedText
  cases hfinite : x.isFinite with
  | true =>
    by_cases hzero : x.magnitude = 0
    · rw [if_pos rfl, if_pos hzero, hzero]
      decide
    · rw [if_pos rfl, if_neg hzero]
      obtain ⟨read, hread, heq⟩ := Numeral.decimal?_layout (Decimal.shortest_exponent_le hfinite)
      rw [Numeral.unsigned?, hread]
      have hreads := (Decimal.shortest_readsBack hfinite hzero).toBinary64_eq
      exact congrArg some (heq.trans hreads)
  | false =>
    have hinfinite : x.magnitude = infiniteMagnitude :=
      Nat.le_antisymm (Nat.le_of_not_lt (of_decide_eq_false h))
        (Nat.le_of_not_lt (of_decide_eq_false hfinite))
    rw [hinfinite]
    show Numeral.unsigned? "inf".toList = some (ofFields false infiniteMagnitude)
    decide

omit h in
/-- The text without a sign begins with a digit or with a letter, and has at most a point among its
digits. -/
theorem unsignedText_chars (x : Binary64) :
    (∃ c rest, x.unsignedText = c :: rest ∧ (c.isDigit = true ∨ c = 'i')) ∧
      ∀ c ∈ x.unsignedText, c.isDigit = true ∨ c ∈ ['.', 'i', 'n', 'f'] := by
  unfold unsignedText
  split
  · split
    · refine ⟨⟨'0', [], rfl, .inl rfl⟩, ?_⟩
      intro c hc
      obtain rfl := List.mem_singleton.1 hc
      exact .inl rfl
    · obtain ⟨⟨c, rest, hcons, hdigit⟩, hall⟩ := Numeral.layout_digits (Decimal.shortest x)
      refine ⟨⟨c, rest, hcons, .inl hdigit⟩, ?_⟩
      intro c hc
      rcases hall c hc with hdigit | rfl
      · exact .inl hdigit
      · exact .inr List.mem_cons_self
  · refine ⟨⟨'i', ['n', 'f'], rfl, .inr rfl⟩, ?_⟩
    intro c hc
    exact .inr (List.mem_cons_of_mem _ hc)

/-- The text without the sign is read as the double without its sign. -/
theorem binary64?_unsignedText :
    Numeral.binary64? x.unsignedText = some (ofFields false x.magnitude) := by
  obtain ⟨⟨c, rest, hcons, hfirst⟩, -⟩ := x.unsignedText_chars
  have hminus : c ≠ '-' := by rintro rfl; simp at hfirst
  have hplus : c ≠ '+' := by rintro rfl; simp at hfirst
  rw [hcons, Numeral.binary64?_cons rest hminus hplus, ← hcons]
  exact unsigned?_unsignedText h

/-- **A double is read back from its text.** -/
theorem binary64?_toText : Numeral.binary64? x.toText = some x := by
  have hfields := x.ofFields_magnitude
  rw [toText_eq h]
  cases hsign : x.isNegative with
  | true =>
    show (Numeral.unsigned? x.unsignedText).map neg = some x
    rw [unsigned?_unsignedText h, Option.map_some, neg_ofFields false x.magnitude_lt]
    rw [hsign] at hfields
    exact congrArg some hfields
  | false =>
    show Numeral.binary64? x.unsignedText = some x
    rw [hsign] at hfields
    rw [binary64?_unsignedText h, hfields]

/-- The characters of the text of a double. -/
theorem mem_toText {c : Char} (hc : c ∈ x.toText) :
    c.isDigit = true ∨ c ∈ ['-', '.', 'i', 'n', 'f'] := by
  rw [toText_eq h] at hc
  rcases List.mem_append.1 hc with hsign | hrest
  · split at hsign
    · exact .inr (List.mem_cons.2 (.inl (List.mem_singleton.1 hsign)))
    · cases hsign
  · rcases x.unsignedText_chars.2 c hrest with hdigit | hother
    · exact .inl hdigit
    · exact .inr (List.mem_cons_of_mem _ hother)

end Binary64

end ExprMachine
