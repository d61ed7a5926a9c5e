import ExprMachine.Proofs.Number.ReadBack
import ExprMachine.Proofs.Parser.Run

/-!
# Tokens of a text

Every token of a text is what the lexer reads at some place; so a number token is digits with at
most one point between them, and it can be read as a number.

* `Token.IsLexeme` — a token that the lexer reads;
* `isLexeme_of_mem_tokens` — the tokens of a text are of that kind;
* `Numeral.binary64?_isSome` — digits with a fraction can be read;
* `isReadable_of_mem_tokens` — the literals of a text can be read.
-/

namespace ExprMachine

/-- The lexer reads the token somewhere. -/
def Token.IsLexeme (t : Token) : Prop :=
  ∃ c s, (Lexeme.read c s).shape = .ok t.kind ∧ t.text = (Lexeme.read c s).text

theorem Cursor.isLexeme_of_next {cursor after : Cursor} {t : Token}
    (h : cursor.next = (.token t, after)) : t.IsLexeme := by
  unfold Cursor.next at h
  split at h
  · cases h
  · rename_i c s line _
    simp only at h
    split at h
    · rename_i kind hshape
      cases h
      exact ⟨c, s, hshape, rfl⟩
    · cases h

theorem Cursor.isLexeme_of_mem_tokensAfter (read : List Token) (cursor : Cursor)
    (hread : ∀ t ∈ read, t.IsLexeme) : ∀ t ∈ (cursor.tokensAfter read).1, t.IsLexeme := by
  induction read, cursor using Cursor.tokensAfter.induct with
  | case1 read cursor line after hnext =>
    rw [Cursor.tokensAfter, hnext]
    simpa using hread
  | case2 read cursor e line after hnext =>
    rw [Cursor.tokensAfter, hnext]
    simpa using hread
  | case3 read cursor t after hnext ih =>
    rw [Cursor.tokensAfter, hnext]
    refine ih fun u hu => ?_
    rcases List.mem_cons.1 hu with rfl | hu
    · exact Cursor.isLexeme_of_next hnext
    · exact hread u hu

/-- The tokens of a text are what the lexer reads. -/
theorem isLexeme_of_mem_tokens {cursor : Cursor} {t : Token} (h : t ∈ cursor.tokens.1) :
    t.IsLexeme :=
  Cursor.isLexeme_of_mem_tokensAfter [] cursor (fun _ hu => absurd hu (by simp)) t h

/-! ### Numbers -/

/-- A text is digits, or a point and digits. -/
def IsFraction (s : List Char) : Prop :=
  s = [] ∨ ∃ digits, s = '.' :: digits ∧ ∀ d ∈ digits, d.isDigit = true

theorem Lexeme.isFraction_fraction (s : List Char) : IsFraction (fraction s).1 := by
  unfold fraction
  split
  · rename_i rest
    split
    · exact Or.inl rfl
    · refine Or.inr ⟨_, rfl, fun d hd => ?_⟩
      exact List.all_eq_true.1 List.all_takeWhile d hd
  · exact Or.inl rfl

namespace Numeral

theorem decimal?_isSome {digits point : List Char} (hdigits : ∀ d ∈ digits, d.isDigit = true)
    (hne : digits ≠ []) (hpoint : IsFraction point) : (decimal? (digits ++ point)).isSome := by
  rcases hpoint with rfl | ⟨fraction, rfl, hfraction⟩
  · rw [List.append_nil, decimal?_of_digits hdigits hne, Option.isSome_some]
  · rw [decimal?_of_point hdigits hne hfraction, Option.isSome_some]

/-- Digits with a fraction can be read. -/
theorem binary64?_isSome {c : Char} {digits point : List Char} (hc : c.isDigit = true)
    (hdigits : ∀ d ∈ digits, d.isDigit = true) (hpoint : IsFraction point) :
    (binary64? (c :: digits ++ point)).isSome := by
  have hall : ∀ d ∈ c :: digits, d.isDigit = true := by
    rintro d (_ | ⟨_, hd⟩)
    · exact hc
    · exact hdigits d hd
  have hminus : c ≠ '-' := by
    rintro rfl
    cases hc
  have hplus : c ≠ '+' := by
    rintro rfl
    cases hc
  obtain ⟨d, hd⟩ := Option.isSome_iff_exists.1
    (decimal?_isSome hall (List.cons_ne_nil c digits) hpoint)
  rw [List.cons_append] at hd ⊢
  rw [binary64?_cons _ hminus hplus, unsigned?, hd, Option.isSome_some]

end Numeral

/-- Only the reader of numbers makes number tokens. -/
theorem Lexeme.eq_number_of_shape {c : Char} {s : List Char}
    (h : (read c s).shape = .ok .number) : c.isDigit = true ∧ read c s = number c s := by
  have hsingle : single? c ≠ some .number := by
    unfold single?
    split <;> simp
  have hpaired : ∀ alone joined, paired? c = some (alone, joined) →
      alone ≠ .number ∧ joined ≠ .number := by
    unfold paired?
    split <;> simp_all
  unfold read at h ⊢
  split at h
  · simp only [word] at h
    split at h <;> cases h
  split at h
  · rename_i hname hdigit
    rw [if_neg hname, if_pos hdigit]
    exact ⟨hdigit, rfl⟩
  split at h
  · simp only [string] at h
    split at h <;> cases h
  split at h
  · rename_i kind _ hkind
    cases h
    exact absurd hkind hsingle
  · rename_i alone joined _ hkinds
    obtain ⟨halone, hjoined⟩ := hpaired alone joined hkinds
    unfold withEqual at h
    split at h <;> simp_all
  · cases h

theorem Token.IsLexeme.isReadable {t : Token} (h : t.IsLexeme) : t.IsReadable := by
  obtain ⟨c, s, hshape, htext⟩ := h
  unfold Token.IsReadable literalOf? Token.literal?
  cases hkind : t.kind with
  | number =>
    rw [hkind] at hshape
    obtain ⟨hc, hnumber⟩ := Lexeme.eq_number_of_shape hshape
    have hdigits : ∀ d ∈ s.takeWhile Char.isDigit, d.isDigit = true :=
      fun d hd => List.all_eq_true.1 List.all_takeWhile d hd
    obtain ⟨x, hx⟩ := Option.isSome_iff_exists.1
      (Numeral.binary64?_isSome hc hdigits (Lexeme.isFraction_fraction (s.dropWhile Char.isDigit)))
    rw [hnumber] at htext
    have hread : Numeral.binary64? t.text = some x := htext ▸ hx
    simp [hread]
  | keyword word => cases word <;> rfl
  | _ => rfl

/-- The literals of a text can be read. -/
theorem isReadable_of_mem_tokens {cursor : Cursor} {t : Token} (h : t ∈ cursor.tokens.1) :
    t.IsReadable := (isLexeme_of_mem_tokens h).isReadable

end ExprMachine
