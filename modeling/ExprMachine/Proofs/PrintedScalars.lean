import ExprMachine.Proofs.Number.ReadBack
import ExprMachine.Proofs.ReturnedValue

/-!
# Printed scalars

What a program prints is a program again, if it is no string: the word of nil or of a truth value,
or the digits of a finite number, with a sign that is an operator there. It returns the value that
was printed.

* `Decimal.matches_layout` — the layout of a decimal is a number token;
* `Value.IsScalar` — nil, the truth values and the finite numbers;
* `Value.ReadAs` — the trees of their texts, and `writes_display`, which says so;
* `Machine.printed_scalars_read_back` — what is printed is printed again, and returned.
-/

namespace ExprMachine

/-! ### Numbers as tokens -/

/-- The layout of a decimal is a number token: it has a digit on either side of a point. -/
theorem Decimal.matches_layout (d : Decimal) : Matches .number d.layout := by
  unfold layout
  split
  · refine .number ?_
    split
    · exact ⟨List.cons_ne_nil _ _, List.forall_mem_singleton.2 rfl⟩
    · refine ⟨List.append_ne_nil_of_left_ne_nil (Numeral.digitsOf_ne_nil _) _, ?_⟩
      intro c hc
      rcases List.mem_append.1 hc with hdigit | hzero
      · exact Numeral.isDigit_of_mem_digitsOf hdigit
      · rw [List.eq_of_mem_replicate hzero]
        rfl
  · have hplaces : 0 < (-d.exponent).toNat := by omega
    obtain ⟨whole, fraction, hpointed, hwhole, hlength, -, hdigits, hdigits'⟩ :=
      Numeral.pointed_eq d.digits _ hplaces
    rw [hpointed]
    refine .decimal ⟨hwhole, hdigits⟩ ⟨?_, hdigits'⟩
    rw [← hlength] at hplaces
    exact List.length_pos_iff.1 hplaces

/-- So is the text of a finite number without its sign. -/
theorem Binary64.matches_unsignedText {x : Binary64} (h : x.isFinite = true) :
    Matches .number x.unsignedText := by
  rw [unsignedText, if_pos h]
  split
  · exact .number ⟨List.cons_ne_nil _ _, List.forall_mem_singleton.2 rfl⟩
  · exact Decimal.matches_layout _

theorem Binary64.neg_neg (x : Binary64) : x.neg.neg = x := by
  have hneg := neg_ofFields (!x.isNegative) x.magnitude_lt
  rw [Bool.not_not, ofFields_magnitude] at hneg
  exact hneg

/-! ### Scalars -/

/-- The values that are written as they are printed: nil, truth values and finite numbers. -/
def Value.IsScalar : Value → Prop
  | nil | bool _ => True
  | number x => x.isFinite = true
  | object _ => False

theorem Value.IsScalar.kind_ne {v : Value} (h : v.IsScalar) : v.kind ≠ .object := by
  cases v with
  | object handle => exact h.elim
  | nil | bool b | number x => nofun

/-- The text of a scalar is the same in every heap. -/
theorem Value.IsScalar.display_eq {v : Value} (h : v.IsScalar) (heap heap' : Heap) :
    heap.display v = heap'.display v := by
  cases v with
  | object handle => exact h.elim
  | nil | bool b | number x => rfl

/-- The trees that scalars are read as. The sign of a number, the zero's included, is an operator
before the number without it. -/
inductive Value.ReadAs : Value → Expr → Prop
  | nil : ReadAs .nil (.literal .nil 1)
  | bool (b : Bool) : ReadAs (.bool b) (.literal (.bool b) 1)
  | number {x : Binary64} : x.isNegative = false → ReadAs (.number x) (.literal (.number x) 1)
  | negative {x : Binary64} : x.isNegative = true →
      ReadAs (.number x) (.unary .negate (.literal (.number x.neg) 1))

section ReadAs

variable {v : Value} {e : Expr} (h : v.ReadAs e)

include h

theorem Value.ReadAs.need_eq : e.need = 1 := by cases h <;> rfl

theorem Value.ReadAs.within : e.Within .standard := by
  have hnest : e.nest ≤ nestingLimit := by
    cases h <;> exact Nat.le_of_ble_eq_true rfl
  have hpooled : e.pooled.length ≤ constantLimit := by
    cases h <;> exact Nat.le_of_ble_eq_true rfl
  exact ⟨hnest, hpooled⟩

/-- The tree evaluates to the value. -/
theorem Value.ReadAs.eval_eq : ∃ x, e.eval = .ok x ∧ ∀ heap : Heap, heap.literal? v = some x := by
  cases h with
  | nil => exact ⟨_, rfl, fun _ => rfl⟩
  | bool b => exact ⟨_, rfl, fun _ => rfl⟩
  | number _ => exact ⟨_, rfl, fun _ => rfl⟩
  | @negative x _ =>
    refine ⟨.number x, ?_, fun _ => rfl⟩
    show Except.ok (Literal.number x.neg.neg) = _
    rw [x.neg_neg]

end ReadAs

/-! ### Texts that are read as scalars -/

/-- What may stand behind a text: nothing, or the end of its line. -/
def lineEnds : List (List Char) := [[], ['\n']]

section Spelling

open Cursor

variable {kind : TokenKind} {text after : List Char} {x : Literal}

/-- One token and the end of its line. -/
theorem scans_matches {line : Nat} (h : Matches kind text) (hline : '\n' ∉ text)
    (hafter : after ∈ lineEnds) :
    Scans ⟨text ++ after, line⟩ [⟨kind, text, line⟩] (.endOfText (line + after.count '\n')) := by
  generalize hcursor : (⟨text ++ after, line⟩ : Cursor) = cursor
  have hrest : cursor.rest = [] ++ (text ++ after) := by
    rw [← hcursor]
    rfl
  have hspace : ∀ c ∈ after.head?, IsSpace c := by
    rcases List.mem_pair.1 hafter with rfl | rfl
    · exact nofun
    · intro c hc
      cases hc
      exact .inr (.inr (.inr rfl))
  obtain ⟨hitem, hnext⟩ := next_of_spaced .nil h hspace hrest
  have hsame : cursor.next.2.line = line := by
    have hbefore : cursor.line = line := by rw [← hcursor]
    have hcount := line_add_count_next cursor
    rw [hnext, hrest, List.nil_append, List.count_append, List.count_eq_zero.2 hline, hbefore]
      at hcount
    omega
  have hplace : cursor.next.2 = ⟨after, line⟩ := by rw [← hnext, ← hsame]
  rw [hsame] at hitem
  refine .token hitem ?_
  rw [hplace]
  rcases List.mem_pair.1 hafter with rfl | rfl <;> exact .endOfText rfl

/-- A text of one token that is a literal. -/
theorem writes_literal (h : Matches kind text) (hline : '\n' ∉ text) (hafter : after ∈ lineEnds)
    (hliteral : Token.literal? ⟨kind, text, 1⟩ = some x) :
    Writes (String.ofList (text ++ after)) (.literal x 1) (1 + after.count '\n') := by
  have hderives : Derives 6 [⟨kind, text, 1⟩] (.literal x 1) := .literal hliteral
  refine ⟨_, ?_, hderives.weaken (Nat.zero_le 6) (Nat.le_refl 6)⟩
  rw [String.toList_ofList]
  exact tokens_eq_iff.2 (scans_matches h hline hafter)

/-- A keyword that is a literal. -/
theorem writes_keyword (k : Keyword) (hafter : after ∈ lineEnds)
    (hliteral : Token.literal? ⟨.keyword k, k.text.toList, 1⟩ = some x) :
    Writes (String.ofList (k.text.toList ++ after)) (.literal x 1) (1 + after.count '\n') := by
  have hline : '\n' ∉ k.text.toList := by cases k <;> decide
  exact writes_literal (.keyword k) hline hafter hliteral

/-- A number with a minus sign in front of it. -/
theorem writes_negated (h : Matches .number text) (hline : '\n' ∉ text) (hafter : after ∈ lineEnds)
    (hliteral : Token.literal? ⟨.number, text, 1⟩ = some x) :
    Writes (String.ofList ('-' :: (text ++ after))) (.unary .negate (.literal x 1))
      (1 + after.count '\n') := by
  have hscans : Scans (start ('-' :: (text ++ after)))
      [⟨.minus, ['-'], 1⟩, ⟨.number, text, 1⟩] (.endOfText (1 + after.count '\n')) :=
    .token rfl (scans_matches h hline hafter)
  have hoperand : Derives 6 [⟨.number, text, 1⟩] (.literal x 1) := .literal hliteral
  have hderives : Derives 5 [⟨.minus, ['-'], 1⟩, ⟨.number, text, 1⟩]
      (.unary .negate (.literal x 1)) :=
    .unary .negate (hoperand.weaken (by decide) (Nat.le_refl 6))
  refine ⟨_, ?_, hderives.weaken (Nat.zero_le 5) (by decide)⟩
  rw [String.toList_ofList]
  exact tokens_eq_iff.2 hscans

/-- **The text of a scalar is read as the scalar.** -/
theorem writes_display {v : Value} (h : v.IsScalar) (heap : Heap) (hafter : after ∈ lineEnds) :
    ∃ e, v.ReadAs e ∧
      Writes (String.ofList ((heap.display v).toList ++ after)) e (1 + after.count '\n') := by
  cases v with
  | object handle => exact h.elim
  | nil => exact ⟨_, .nil, writes_keyword .nilWord hafter rfl⟩
  | bool b =>
    cases b with
    | false => exact ⟨_, .bool false, writes_keyword .falseWord hafter rfl⟩
    | true => exact ⟨_, .bool true, writes_keyword .trueWord hafter rfl⟩
  | number x =>
    have hnan : x.isNaN = false :=
      decide_eq_false (Nat.not_lt.2 (Nat.le_of_lt (of_decide_eq_true h)))
    have hmatches := Binary64.matches_unsignedText h
    have hline : '\n' ∉ x.unsignedText := by
      intro hmem
      rcases x.unsignedText_chars.2 '\n' hmem with hdigit | hother
      · exact absurd hdigit (by decide)
      · exact absurd hother (by decide)
    have hliteral : Token.literal? ⟨.number, x.unsignedText, 1⟩ =
        some (.number (.ofFields false x.magnitude)) := by
      show some (Literal.number ((Numeral.binary64? x.unsignedText).getD .nan)) = _
      rw [Binary64.binary64?_unsignedText hnan, Option.getD_some]
    have htext : (heap.display (.number x)).toList = x.toText := String.toList_ofList
    rw [htext, Binary64.toText_eq hnan]
    cases hsign : x.isNegative with
    | false =>
      have hfields := x.ofFields_magnitude
      rw [hsign] at hfields
      rw [hfields] at hliteral
      exact ⟨_, .number hsign, writes_literal hmatches hline hafter hliteral⟩
    | true =>
      have hfields : x.neg = .ofFields false x.magnitude := by
        rw [Binary64.neg, hsign, Bool.not_true]
      rw [← hfields] at hliteral
      exact ⟨_, .negative hsign, writes_negated hmatches hline hafter hliteral⟩

end Spelling

/-! ### Printing again -/

namespace Machine

variable {m : Machine}

/-- **Printed scalars read back.** The text of nil, of a truth value or of a finite number, with or
without the end of its line, is read as a literal, or as one with its sign in front of it; it
returns the same value and prints the same text again. So whatever text returns such a value, on
whatever machine: the line that it prints gives the same line again, and the same value. -/
theorem printed_scalars_read_back (hlimit : 1 ≤ m.options.stackLimit)
    (hroom : m.output.room = none) :
    (∀ v : Value, v.IsScalar → ∀ lineEnd ∈ ["", "\n"],
      (∃ e line, v.ReadAs e ∧ Writes (m.heap.display v ++ lineEnd) e line) ∧
        m.Answers (m.heap.display v ++ lineEnd) (m.heap.display v) v) ∧
    ∀ (first : Machine) (source : String) (v : Value), first.output.room = none →
      first.ReturnsFrom source v → v.IsScalar → ∃ text, first.Answers source text v ∧
        ∀ lineEnd ∈ ["", "\n"], m.Answers (text ++ lineEnd) text v := by
  have hagain (v : Value) (hscalar : v.IsScalar) (lineEnd : String) (hend : lineEnd ∈ ["", "\n"]) :
      (∃ e line, v.ReadAs e ∧ Writes (m.heap.display v ++ lineEnd) e line) ∧
        m.Answers (m.heap.display v ++ lineEnd) (m.heap.display v) v := by
    have hafter : lineEnd.toList ∈ lineEnds := by
      rcases List.mem_pair.1 hend with rfl | rfl <;> decide
    obtain ⟨e, hreadAs, hwrites⟩ := writes_display hscalar m.heap hafter
    rw [← String.toList_append, String.ofList_toList] at hwrites
    obtain ⟨x, heval, hvalue⟩ := hreadAs.eval_eq
    have hreturns : m.ReturnsFrom (m.heap.display v ++ lineEnd) v :=
      returnsFrom_of_eval hwrites hreadAs.within (by rwa [hreadAs.need_eq]) heval hscalar.kind_ne
        (hvalue m.heap)
    exact ⟨⟨e, _, hreadAs, hwrites⟩, answers_of_returnsFrom hroom hscalar.kind_ne hreturns⟩
  refine ⟨hagain, ?_⟩
  intro first source v hfirst hreturns hscalar
  have hanswers := answers_of_returnsFrom hfirst hscalar.kind_ne hreturns
  rw [hscalar.display_eq first.heap m.heap] at hanswers
  exact ⟨_, hanswers, fun lineEnd hend => (hagain v hscalar lineEnd hend).2⟩

/-- The zero with a sign, which a product is, is printed with it, and read back on a machine whose
stack has one place. -/
theorem printed_scalars_read_back_negative_zero :
    let m := Machine.new ⟨0⟩ { stackLimit := 1 }
    let first := Machine.new ⟨7⟩ {}
    let v := Value.number ⟨0x8000000000000000⟩
    1 ≤ m.options.stackLimit ∧ m.output.room = none ∧ v.IsScalar ∧ first.output.room = none ∧
      first.ReturnsFrom "0 * -1" v ∧ m.Answers "-0\n" "-0" v ∧
      ∃ text, first.Answers "0 * -1" text v ∧ m.Answers text text v := by
  intro m first v
  have hscalar : v.IsScalar := by
    show Binary64.isFinite _ = true
    decide
  let e : Expr := .binary .multiply (.literal (.number .zero) 1)
    (.unary .negate (.literal (.number ⟨0x3FF0000000000000⟩) 1))
  have hparse : parse "0 * -1".toList = .ok (e, 1) := by decide +kernel
  obtain ⟨hwrites, hwithin⟩ := parse_eq_ok_iff.1 hparse
  have heval : e.eval = .ok (.number ⟨0x8000000000000000⟩) := by decide +kernel
  have hreturns : first.ReturnsFrom "0 * -1" v :=
    returnsFrom_of_eval hwrites hwithin (by decide) heval hscalar.kind_ne rfl
  have hdisplay : m.heap.display v = "-0" := by decide +kernel
  obtain ⟨hprinted, hfed⟩ := printed_scalars_read_back (m := m) (Nat.le_refl 1) rfl
  have hanswers := (hprinted v hscalar "\n" (by decide)).2
  rw [hdisplay] at hanswers
  obtain ⟨text, hfirst, hagain⟩ := hfed first "0 * -1" v rfl hreturns hscalar
  have htext := hagain "" (by decide)
  rw [String.append_empty] at htext
  exact ⟨Nat.le_refl 1, rfl, hscalar, rfl, hreturns, hanswers, text, hfirst, htext⟩

end Machine

end ExprMachine
