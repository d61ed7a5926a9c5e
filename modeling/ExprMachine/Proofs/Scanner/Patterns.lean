import ExprMachine.Lexer
import ExprMachine.Proofs.Scanner.Utf8

/-!
# The lexical grammar

Which texts are tokens, and of which kind, without a lexer.

* `Matches` — the patterns of the tokens; `Matches.kind_unique` says that no text has two kinds;
* `LongestMatch` — a text begins with a token and with no longer one;
* `Matches.of_nameStart` and its companions — what matches, by the first character;
* `not_matches_of_unterminated` — a quote with no second one begins no token.
-/

namespace ExprMachine

/-! ### Patterns -/

/-- Digits, at least one. -/
def Digits (s : List Char) : Prop := s ≠ [] ∧ ∀ d ∈ s, d.isDigit = true

/-- A letter or an underscore, and then letters, digits and underscores. -/
inductive IsWord : List Char → Prop
  | intro {c : Char} {s : List Char} :
      c.isAlpha = true ∨ c = '_' → (∀ d ∈ s, d.isAlpha = true ∨ d.isDigit = true ∨ d = '_') →
      IsWord (c :: s)

/-- The characters that are tokens alone. -/
def signs : List (Char × TokenKind) := [
  ('(', .leftParen), (')', .rightParen), ('{', .leftBrace), ('}', .rightBrace), (';', .semicolon),
  (',', .comma), ('.', .dot), ('-', .minus), ('+', .plus), ('/', .slash), ('*', .star),
  ('!', .bang), ('=', .equal), ('<', .less), ('>', .greater)]

/-- The characters that are tokens with an equals sign after them. -/
def equalSigns : List (Char × TokenKind) := [
  ('!', .bangEqual), ('=', .equalEqual), ('<', .lessEqual), ('>', .greaterEqual)]

/-- The texts of tokens, by kind. -/
inductive Matches : TokenKind → List Char → Prop
  | number {digits : List Char} : Digits digits → Matches .number digits
  | decimal {whole fraction : List Char} :
      Digits whole → Digits fraction → Matches .number (whole ++ '.' :: fraction)
  | identifier {word : List Char} :
      IsWord word → (∀ k : Keyword, k.text.toList ≠ word) → Matches .identifier word
  | keyword (k : Keyword) : Matches (.keyword k) k.text.toList
  | string {body : List Char} : '"' ∉ body → Matches .string ('"' :: (body ++ ['"']))
  | sign {c : Char} {kind : TokenKind} : (c, kind) ∈ signs → Matches kind [c]
  | equalSign {c : Char} {kind : TokenKind} : (c, kind) ∈ equalSigns → Matches kind [c, '=']

/-- A text begins with a token, and with no longer one. -/
structure LongestMatch (kind : TokenKind) (text ahead : List Char) : Prop where
  begins : text <+: ahead
  fits : Matches kind text
  longest : ∀ kind' text', text' <+: ahead → Matches kind' text' → text'.length ≤ text.length

/-! ### Signs -/

theorem startsSign_of_mem : ∀ entry ∈ signs, Lexeme.isNameStart entry.1 = false ∧
    entry.1.isDigit = false ∧ entry.1 ≠ '"' ∧
    (Lexeme.single? entry.1 = some entry.2 ∨
      (Lexeme.paired? entry.1).map Prod.fst = some entry.2) := by
  decide

theorem startsEqualSign_of_mem : ∀ entry ∈ equalSigns, Lexeme.isNameStart entry.1 = false ∧
    entry.1.isDigit = false ∧ entry.1 ≠ '"' ∧ Lexeme.single? entry.1 = none ∧
    (Lexeme.paired? entry.1).map Prod.snd = some entry.2 := by
  decide

theorem mem_signs_of_single? {c : Char} {kind : TokenKind} (h : Lexeme.single? c = some kind) :
    (c, kind) ∈ signs := by
  unfold Lexeme.single? at h
  split at h <;> cases h <;> decide

theorem mem_signs_of_paired? {c : Char} {alone both : TokenKind}
    (h : Lexeme.paired? c = some (alone, both)) : (c, alone) ∈ signs ∧ (c, both) ∈ equalSigns := by
  unfold Lexeme.paired? at h
  split at h <;> cases h <;> decide

/-! ### Words -/

theorem isWord_iff {c : Char} {s : List Char} :
    IsWord (c :: s) ↔
      Lexeme.isNameStart c = true ∧ ∀ d ∈ s, Lexeme.isNamePart d = true := by
  have hstart : Lexeme.isNameStart c = true ↔ c.isAlpha = true ∨ c = '_' := by
    simp [Lexeme.isNameStart]
  have hpart (d : Char) :
      Lexeme.isNamePart d = true ↔ d.isAlpha = true ∨ d.isDigit = true ∨ d = '_' := by
    simp only [Lexeme.isNamePart, Lexeme.isNameStart, Bool.or_eq_true, beq_iff_eq, or_assoc]
    rw [or_comm (a := d = '_')]
  constructor
  · rintro ⟨hc, hs⟩
    exact ⟨hstart.2 hc, fun d hd => (hpart d).2 (hs d hd)⟩
  · rintro ⟨hc, hs⟩
    exact ⟨hstart.1 hc, fun d hd => (hpart d).1 (hs d hd)⟩

theorem isDigit_of_isNameStart {c : Char} (h : Lexeme.isNameStart c = true) :
    c.isDigit = false := by
  rw [← Bool.not_eq_true, Char.isDigit_iff_toNat]
  rintro ⟨-, hdigit⟩
  rcases Bool.or_eq_true_iff.1 h with hletter | hunderscore
  · rcases Text.Utf8.isAlpha_cases hletter with ⟨hlow, -⟩ | ⟨hlow, -⟩
    · exact absurd (Nat.le_trans (UInt32.le_iff_toNat_le.1 hlow) hdigit) (by decide)
    · exact absurd (Nat.le_trans (UInt32.le_iff_toNat_le.1 hlow) hdigit) (by decide)
  · rw [eq_of_beq hunderscore] at hdigit
    exact absurd hdigit (by decide)

/-- Keywords are words. -/
theorem Keyword.isWord (k : Keyword) : IsWord k.text.toList := by
  cases k <;> exact isWord_iff.2 ⟨rfl, List.all_eq_true.1 rfl⟩

theorem Keyword.ofText?_text (k : Keyword) : Keyword.ofText? k.text.toList = some k := by
  cases k <;> decide

theorem Keyword.text_of_ofText? {word : List Char} {k : Keyword}
    (h : Keyword.ofText? word = some k) : k.text.toList = word := by
  have hfound := List.find?_some h
  exact beq_iff_eq.1 hfound

theorem Keyword.ofText?_eq_none {word : List Char} :
    Keyword.ofText? word = none ↔ ∀ k : Keyword, k.text.toList ≠ word := by
  constructor
  · rintro h k rfl
    rw [ofText?_text] at h
    cases h
  · intro h
    cases hfound : ofText? word with
    | none => rfl
    | some k => exact absurd (text_of_ofText? hfound) (h k)

/-- The kind of a word. -/
def wordKind (word : List Char) : TokenKind :=
  match Keyword.ofText? word with
  | some k => .keyword k
  | none => .identifier

theorem matches_wordKind {word : List Char} (h : IsWord word) : Matches (wordKind word) word := by
  unfold wordKind
  split
  · rename_i k hk
    rw [← Keyword.text_of_ofText? hk]
    exact .keyword k
  · rename_i hnone
    exact .identifier h (Keyword.ofText?_eq_none.1 hnone)

/-! ### What matches, by its first character -/

section FirstCharacter

variable {kind : TokenKind} {c : Char} {t : List Char} (h : Matches kind (c :: t))

include h

/-- Every pattern but those of words, numbers and strings is a sign. -/
theorem Matches.cons_cases :
    (IsWord (c :: t) ∧ kind = wordKind (c :: t)) ∨
      (c.isDigit = true ∧ kind = .number ∧ ((∀ d ∈ t, d.isDigit = true) ∨
        ∃ whole fraction, t = whole ++ '.' :: fraction ∧ (∀ d ∈ whole, d.isDigit = true) ∧
          Digits fraction)) ∨
      (c = '"' ∧ kind = .string ∧ ∃ body, t = body ++ ['"'] ∧ '"' ∉ body) ∨
      (t = [] ∧ (c, kind) ∈ signs) ∨ (t = ['='] ∧ (c, kind) ∈ equalSigns) := by
  generalize htext : c :: t = text at h ⊢
  cases h with
  | number hdigits =>
    subst htext
    obtain ⟨hc, ht⟩ := List.forall_mem_cons.1 hdigits.2
    exact .inr (.inl ⟨hc, rfl, .inl ht⟩)
  | @decimal whole fraction hwhole hfraction =>
    obtain ⟨hne, hdigits⟩ := hwhole
    cases whole with
    | nil => exact absurd rfl hne
    | cons d whole =>
      cases htext
      obtain ⟨hc, hrest⟩ := List.forall_mem_cons.1 hdigits
      exact .inr (.inl ⟨hc, rfl, .inr ⟨whole, fraction, rfl, hrest, hfraction⟩⟩)
  | identifier hword hnone =>
    refine .inl ⟨hword, ?_⟩
    rw [wordKind, Keyword.ofText?_eq_none.2 hnone]
  | keyword k =>
    refine .inl ⟨k.isWord, ?_⟩
    rw [wordKind, k.ofText?_text]
  | @string body hbody =>
    cases htext
    exact .inr (.inr (.inl ⟨rfl, rfl, body, rfl, hbody⟩))
  | sign hmem =>
    cases htext
    exact .inr (.inr (.inr (.inl ⟨rfl, hmem⟩)))
  | equalSign hmem =>
    cases htext
    exact .inr (.inr (.inr (.inr ⟨rfl, hmem⟩)))

/-- Only words begin with a letter or an underscore. -/
theorem Matches.of_nameStart (hc : Lexeme.isNameStart c = true) :
    (∀ d ∈ t, Lexeme.isNamePart d = true) ∧ kind = wordKind (c :: t) := by
  rcases h.cons_cases with ⟨hword, hkind⟩ | ⟨hdigit, -⟩ | ⟨rfl, -⟩ | ⟨-, hmem⟩ | ⟨-, hmem⟩
  · exact ⟨(isWord_iff.1 hword).2, hkind⟩
  · rw [isDigit_of_isNameStart hc] at hdigit
    cases hdigit
  · cases hc
  · exact absurd hc (Bool.eq_false_iff.1 (startsSign_of_mem _ hmem).1)
  · exact absurd hc (Bool.eq_false_iff.1 (startsEqualSign_of_mem _ hmem).1)

/-- Only numbers begin with a digit. -/
theorem Matches.of_digit (hc : c.isDigit = true) :
    kind = .number ∧ ((∀ d ∈ t, d.isDigit = true) ∨
      ∃ whole fraction, t = whole ++ '.' :: fraction ∧ (∀ d ∈ whole, d.isDigit = true) ∧
        Digits fraction) := by
  rcases h.cons_cases with ⟨hword, -⟩ | ⟨-, hnumber⟩ | ⟨rfl, -⟩ | ⟨-, hmem⟩ | ⟨-, hmem⟩
  · rw [isDigit_of_isNameStart (isWord_iff.1 hword).1] at hc
    cases hc
  · exact hnumber
  · cases hc
  · exact absurd hc (Bool.eq_false_iff.1 (startsSign_of_mem _ hmem).2.1)
  · exact absurd hc (Bool.eq_false_iff.1 (startsEqualSign_of_mem _ hmem).2.1)

/-- Only strings begin with a quote. -/
theorem Matches.of_quote (hc : c = '"') :
    kind = .string ∧ ∃ body, t = body ++ ['"'] ∧ '"' ∉ body := by
  subst hc
  rcases h.cons_cases with ⟨hword, -⟩ | ⟨hdigit, -⟩ | ⟨-, hstring⟩ | ⟨-, hmem⟩ | ⟨-, hmem⟩
  · exact absurd (isWord_iff.1 hword).1 (by decide)
  · cases hdigit
  · exact hstring
  · exact absurd rfl (startsSign_of_mem _ hmem).2.2.1
  · exact absurd rfl (startsEqualSign_of_mem _ hmem).2.2.1

/-- Everything else is a sign, or a sign and an equals sign. -/
theorem Matches.of_sign (hname : ¬ Lexeme.isNameStart c = true) (hdigit : ¬ c.isDigit = true)
    (hquote : c ≠ '"') :
    (t = [] ∧ (c, kind) ∈ signs) ∨ (t = ['='] ∧ (c, kind) ∈ equalSigns) := by
  rcases h.cons_cases with ⟨hword, -⟩ | ⟨hc, -⟩ | ⟨hc, -⟩ | hsigns
  · exact absurd (isWord_iff.1 hword).1 hname
  · exact absurd hc hdigit
  · exact absurd hc hquote
  · exact hsigns

end FirstCharacter

theorem Matches.ne_nil {kind : TokenKind} {text : List Char} (h : Matches kind text) :
    text ≠ [] := by
  cases h with
  | number hdigits => exact hdigits.1
  | decimal _ _ => exact List.append_ne_nil_of_right_ne_nil _ (List.cons_ne_nil _ _)
  | identifier hword _ =>
    cases hword
    exact List.cons_ne_nil _ _
  | keyword k => cases k <;> decide
  | string _ => exact List.cons_ne_nil _ _
  | sign _ => exact List.cons_ne_nil _ _
  | equalSign _ => exact List.cons_ne_nil _ _

theorem kind_of_mem_signs :
    ∀ entry ∈ signs, ∀ entry' ∈ signs, entry.1 = entry'.1 → entry.2 = entry'.2 := by
  decide

theorem kind_of_mem_equalSigns :
    ∀ entry ∈ equalSigns, ∀ entry' ∈ equalSigns, entry.1 = entry'.1 → entry.2 = entry'.2 := by
  decide

/-- **A text is a token of one kind.** -/
theorem Matches.kind_unique {kind kind' : TokenKind} {text : List Char} (h : Matches kind text)
    (h' : Matches kind' text) : kind = kind' := by
  cases text with
  | nil => exact absurd rfl h.ne_nil
  | cons c t =>
    by_cases hname : Lexeme.isNameStart c = true
    · rw [(h.of_nameStart hname).2, (h'.of_nameStart hname).2]
    by_cases hdigit : c.isDigit = true
    · rw [(h.of_digit hdigit).1, (h'.of_digit hdigit).1]
    by_cases hquote : c = '"'
    · rw [(h.of_quote hquote).1, (h'.of_quote hquote).1]
    rcases h.of_sign hname hdigit hquote with ⟨rfl, hmem⟩ | ⟨rfl, hmem⟩
    · rcases h'.of_sign hname hdigit hquote with ⟨-, hmem'⟩ | ⟨ht, -⟩
      · exact kind_of_mem_signs _ hmem _ hmem' rfl
      · cases ht
    · rcases h'.of_sign hname hdigit hquote with ⟨ht, -⟩ | ⟨-, hmem'⟩
      · cases ht
      · exact kind_of_mem_equalSigns _ hmem _ hmem' rfl

/-- Where a string has no second quote, nothing matches. -/
theorem not_matches_of_unterminated {kind : TokenKind} {body text : List Char} (hbody : '"' ∉ body)
    (hpre : text <+: '"' :: body) : ¬ Matches kind text := by
  intro h
  cases text with
  | nil => exact h.ne_nil rfl
  | cons c t =>
    obtain ⟨rfl, htail⟩ := List.cons_prefix_cons.1 hpre
    obtain ⟨-, inner, rfl, -⟩ := h.of_quote rfl
    exact hbody (htail.subset (List.mem_append_right _ List.mem_cons_self))

/-- A text begins with at most one longest match. -/
theorem LongestMatch.unique {kind kind' : TokenKind} {text text' ahead : List Char}
    (h : LongestMatch kind text ahead) (h' : LongestMatch kind' text' ahead) :
    kind = kind' ∧ text = text' := by
  have hle := h'.longest kind text h.begins h.fits
  have hge := h.longest kind' text' h'.begins h'.fits
  obtain rfl : text = text' :=
    (List.prefix_of_prefix_length_le h.begins h'.begins hle).eq_of_length (Nat.le_antisymm hle hge)
  exact ⟨h.fits.kind_unique h'.fits, rfl⟩

end ExprMachine
