import ExprMachine.Proofs.Scanner.Patterns
import ExprMachine.Proofs.Scanner.Tiling

/-!
# The longest match

The lexer takes the longest text of a token that stands ahead; where there is none, it says why.

* `Lexeme.read_fits` — the lexer reads the longest match, one case for each reader;
* `Cursor.decides` — the answer of a call, by what stands ahead;
* `Gap`, `Spaced` — tokens with blanks and comments between them;
* `LongestMatch.append_space` — a blank ends every match;
* `scan_longest` — every call on every text, and the tokens of a spaced text.
-/

namespace ExprMachine

/-! ### What is read -/

/-- What a lexeme says of the text that it is read from. -/
def Lexeme.Fits (ahead : List Char) (lexeme : Lexeme) : Prop :=
  match lexeme.shape with
  | .ok kind => LongestMatch kind lexeme.text ahead
  | .error .unterminatedString => ∃ body, ahead = '"' :: body ∧ '"' ∉ body
  | .error .unexpectedCharacter =>
    ahead.head? ≠ some '"' ∧ ∀ kind text, text <+: ahead → ¬ Matches kind text

/-- The longest match of a text that is not empty is found among the matches with its first
character. -/
theorem longestMatch_cons {kind : TokenKind} {c : Char} {t s : List Char}
    (hbegins : t <+: s) (hfits : Matches kind (c :: t))
    (hlongest : ∀ kind' t', t' <+: s → Matches kind' (c :: t') → t'.length ≤ t.length) :
    LongestMatch kind (c :: t) (c :: s) where
  begins := List.cons_prefix_cons.2 ⟨rfl, hbegins⟩
  fits := hfits
  longest := by
    intro kind' text' hpre hmatch
    cases text' with
    | nil => exact Nat.zero_le _
    | cons d t' =>
      obtain ⟨rfl, htail⟩ := List.cons_prefix_cons.1 hpre
      exact Nat.succ_le_succ (hlongest kind' t' htail hmatch)

theorem length_le_takeWhile {p : Char → Bool} {t s : List Char} (h : t <+: s)
    (ht : ∀ d ∈ t, p d = true) : t.length ≤ (s.takeWhile p).length := by
  obtain ⟨more, rfl⟩ := h
  rw [List.takeWhile_append_of_pos ht, List.length_append]
  exact Nat.le_add_right _ _

namespace Lexeme

variable {c : Char}

theorem word_fits (hc : isNameStart c = true) (s : List Char) : (word c s).Fits (c :: s) := by
  have hword : IsWord (c :: s.takeWhile isNamePart) :=
    isWord_iff.2 ⟨hc, fun d hd => List.all_eq_true.1 List.all_takeWhile d hd⟩
  have hlongest : LongestMatch (wordKind (c :: s.takeWhile isNamePart))
      (c :: s.takeWhile isNamePart) (c :: s) := by
    refine longestMatch_cons (List.takeWhile_prefix _) (matches_wordKind hword) ?_
    intro kind' t' hpre hmatch
    exact length_le_takeWhile hpre (hmatch.of_nameStart hc).1
  exact hlongest

/-- The fraction of a number is as long as any. -/
theorem fraction_point {digits rest : List Char} (h : Digits digits) :
    (fraction ('.' :: (digits ++ rest))).1 = '.' :: (digits ++ rest.takeWhile Char.isDigit) := by
  obtain ⟨hne, hdigits⟩ := h
  obtain ⟨d, ds, rfl⟩ := List.exists_cons_of_ne_nil hne
  have hd : d.isDigit = true := hdigits d List.mem_cons_self
  have htake : (d :: ds ++ rest).takeWhile Char.isDigit =
      d :: ds ++ rest.takeWhile Char.isDigit := List.takeWhile_append_of_pos hdigits
  rw [ByteScanner.fraction_eq, if_pos ⟨rfl, hd⟩, List.tail_cons, htake]

/-- A fraction is a point and digits where it is not nothing. -/
theorem matches_number (hc : c.isDigit = true) (s : List Char) :
    Matches .number (number c s).text := by
  have hwhole : Digits (c :: s.takeWhile Char.isDigit) := by
    refine ⟨List.cons_ne_nil _ _, List.forall_mem_cons.2 ⟨hc, fun d hd => ?_⟩⟩
    exact List.all_eq_true.1 List.all_takeWhile d hd
  show Matches .number (c :: s.takeWhile Char.isDigit ++ (fraction (s.dropWhile Char.isDigit)).1)
  rw [ByteScanner.fraction_eq]
  split
  · rename_i hpoint
    refine .decimal hwhole ⟨?_, fun d hd => List.all_eq_true.1 List.all_takeWhile d hd⟩
    have hdigit := hpoint.2
    cases htail : (s.dropWhile Char.isDigit).tail with
    | nil =>
      rw [htail] at hdigit
      cases hdigit
    | cons d rest =>
      rw [htail] at hdigit
      have hd : d.isDigit = true := hdigit
      rw [List.takeWhile_cons_of_pos hd]
      exact List.cons_ne_nil _ _
  · rw [List.append_nil]
    exact .number hwhole

theorem number_fits (hc : c.isDigit = true) (s : List Char) : (number c s).Fits (c :: s) := by
  have hlongest : LongestMatch .number
      (c :: (s.takeWhile Char.isDigit ++ (fraction (s.dropWhile Char.isDigit)).1)) (c :: s) := by
    refine longestMatch_cons ?_ (matches_number hc s) ?_
    · refine ⟨(fraction (s.dropWhile Char.isDigit)).2, ?_⟩
      rw [List.append_assoc, fraction_append, List.takeWhile_append_dropWhile]
    · intro kind' t' hpre hmatch
      rw [List.length_append]
      rcases (hmatch.of_digit hc).2 with hdigits | ⟨whole, digits, rfl, hwhole, hdigits⟩
      · exact Nat.le_trans (length_le_takeWhile hpre hdigits) (Nat.le_add_right _ _)
      · -- the point ends the digits before it, and the fraction begins there
        obtain ⟨more, rfl⟩ := hpre
        rw [List.append_assoc, List.takeWhile_append_of_pos hwhole,
          List.dropWhile_append_of_pos hwhole]
        show (whole ++ '.' :: digits).length ≤ (whole ++ []).length +
          (fraction ('.' :: (digits ++ more))).1.length
        rw [fraction_point hdigits, List.append_nil, List.length_append, List.length_cons,
          List.length_cons, List.length_append]
        omega
  exact hlongest

theorem string_fits (s : List Char) : (string '"' s).Fits ('"' :: s) := by
  have happend := List.takeWhile_append_dropWhile (p := fun a => decide (a ≠ '"')) (l := s)
  have hbody : '"' ∉ s.takeWhile (· ≠ '"') := by
    intro hmem
    simpa using List.all_eq_true.1 List.all_takeWhile _ hmem
  unfold string
  split
  · rename_i hrest
    rw [hrest, List.append_nil] at happend
    exact ⟨s, rfl, happend ▸ hbody⟩
  · rename_i quote rest hrest
    have hquote : quote = '"' := by
      have hnot := List.head?_dropWhile_not (fun a => decide (a ≠ '"')) s
      rw [hrest] at hnot
      simpa using hnot
    subst hquote
    have hlongest : LongestMatch .string ('"' :: (s.takeWhile (· ≠ '"') ++ ['"'])) ('"' :: s) := by
      refine longestMatch_cons ?_ (.string hbody) ?_
      · rw [hrest] at happend
        exact ⟨rest, by rw [List.append_assoc, List.singleton_append, happend]⟩
      · intro kind' t' hpre hmatch
        obtain ⟨-, body, rfl, hnot⟩ := hmatch.of_quote rfl
        obtain ⟨more, rfl⟩ := hpre
        have hin : ∀ d ∈ body, decide (d ≠ '"') = true := fun d hd =>
          decide_eq_true fun heq => hnot (heq ▸ hd)
        rw [List.append_assoc, List.takeWhile_append_of_pos hin, List.length_append,
          List.length_append, List.length_append]
        omega
    exact hlongest

/-- A sign that no equals sign can follow. -/
theorem single_fits {kind : TokenKind} (h : single? c = some kind) (s : List Char) :
    LongestMatch kind [c] (c :: s) := by
  have hmem := mem_signs_of_single? h
  obtain ⟨hname, hdigit, hquote, -⟩ := startsSign_of_mem _ hmem
  refine longestMatch_cons (List.nil_prefix) (.sign hmem) ?_
  intro kind' t' _ hmatch
  rcases hmatch.of_sign (by simp [hname]) (by simp [hdigit]) hquote with ⟨rfl, -⟩ | ⟨-, hmem'⟩
  · exact Nat.le_refl _
  · obtain ⟨-, -, -, hnone, -⟩ := startsEqualSign_of_mem _ hmem'
    rw [show single? c = none from hnone] at h
    cases h

/-- A sign that an equals sign can follow. -/
theorem withEqual_fits {alone both : TokenKind} (h : paired? c = some (alone, both))
    (s : List Char) : (withEqual alone both c s).Fits (c :: s) := by
  obtain ⟨hmem, hmem'⟩ := mem_signs_of_paired? h
  obtain ⟨hname, hdigit, hquote, -⟩ := startsSign_of_mem _ hmem
  have hsign {kind' : TokenKind} {t' : List Char} (hmatch : Matches kind' (c :: t')) :
      t' = [] ∨ t' = ['='] := by
    rcases hmatch.of_sign (by simp [hname]) (by simp [hdigit]) hquote with ⟨rfl, -⟩ | ⟨rfl, -⟩
    · exact .inl rfl
    · exact .inr rfl
  unfold withEqual
  split
  · rename_i rest
    have hlongest : LongestMatch both [c, '='] (c :: '=' :: rest) := by
      refine longestMatch_cons ⟨rest, rfl⟩ (.equalSign hmem') ?_
      intro kind' t' _ hmatch
      rcases hsign hmatch with rfl | rfl
      · exact Nat.zero_le _
      · exact Nat.le_refl _
    exact hlongest
  · rename_i hnot
    have hlongest : LongestMatch alone [c] (c :: s) := by
      refine longestMatch_cons List.nil_prefix (.sign hmem) ?_
      intro kind' t' hpre hmatch
      rcases hsign hmatch with rfl | rfl
      · exact Nat.le_refl _
      · obtain ⟨rest, rfl⟩ := hpre
        exact absurd rfl (hnot rest)
    exact hlongest

/-- **What is read is the longest match**, or there is none, or a string does not end. -/
theorem read_fits (c : Char) (s : List Char) : (read c s).Fits (c :: s) := by
  unfold read
  split
  · rename_i hname
    exact word_fits hname s
  split
  · rename_i hdigit
    exact number_fits hdigit s
  split
  · rename_i hquote
    subst hquote
    exact string_fits s
  rename_i hname hdigit hquote
  cases hsingle : single? c with
  | some kind => exact single_fits hsingle s
  | none =>
    cases hpaired : paired? c with
    | some kinds => exact withEqual_fits hpaired s
    | none =>
      refine ⟨by simpa using hquote, ?_⟩
      intro kind text hpre hmatch
      cases text with
      | nil => exact hmatch.ne_nil rfl
      | cons d t =>
        obtain ⟨rfl, -⟩ := List.cons_prefix_cons.1 hpre
        rcases hmatch.of_sign hname hdigit hquote with ⟨-, hmem⟩ | ⟨-, hmem⟩
        · obtain ⟨-, -, -, hsign⟩ := startsSign_of_mem _ hmem
          simp [hsingle, hpaired] at hsign
        · obtain ⟨-, -, -, -, hsign⟩ := startsEqualSign_of_mem _ hmem
          simp [hpaired] at hsign

end Lexeme

/-! ### Calls -/

namespace Cursor

/-- What a call answers, by what stands ahead. -/
inductive Decides (cursor : Cursor) : Prop
  | token {kind : TokenKind} {text : List Char} :
      LongestMatch kind text cursor.ahead →
      cursor.next.1 = .token ⟨kind, text, cursor.next.2.line⟩ →
      cursor.ahead = text ++ cursor.next.2.rest → Decides cursor
  | unterminated {body : List Char} :
      cursor.ahead = '"' :: body → '"' ∉ body →
      cursor.next.1 = .error .unterminatedString cursor.next.2.line → Decides cursor
  | unexpected {c : Char} {s : List Char} :
      cursor.ahead = c :: s → c ≠ '"' →
      (∀ kind text, text <+: cursor.ahead → ¬ Matches kind text) →
      cursor.next.1 = .error .unexpectedCharacter cursor.next.2.line → Decides cursor
  | atEnd : cursor.ahead = [] → cursor.next.1 = .endOfText cursor.next.2.line → Decides cursor

theorem decides (cursor : Cursor) : cursor.Decides := by
  have hwhole := cursor.ahead_eq
  cases hahead : cursor.ahead with
  | nil => exact .atEnd hahead (by rw [next_of_ahead_nil hahead])
  | cons c s =>
    have hfits := Lexeme.read_fits c s
    have hown : cursor.own = (Lexeme.read c s).text := by rw [own, hahead]
    have hnext := next_of_ahead_cons hahead
    unfold Lexeme.Fits at hfits
    unfold Lexeme.item at hnext
    split at hfits
    · rename_i kind hshape
      simp only [hshape] at hnext
      refine .token (hahead ▸ hfits) (by rw [hnext]) ?_
      rwa [← hown]
    · rename_i hshape
      obtain ⟨body, heq, hbody⟩ := hfits
      simp only [hshape] at hnext
      exact .unterminated (hahead.trans heq) hbody (by rw [hnext])
    · rename_i hshape
      obtain ⟨hquote, hnone⟩ := hfits
      simp only [hshape] at hnext
      refine .unexpected hahead ?_ (by rwa [hahead]) (by rw [hnext])
      rintro rfl
      exact hquote rfl

section Exactly

variable (cursor : Cursor)

/-- A token is answered where it is the longest match. -/
theorem longestMatch_iff {kind : TokenKind} {text : List Char} :
    LongestMatch kind text cursor.ahead ↔
      cursor.next.1 = .token ⟨kind, text, cursor.next.2.line⟩ ∧
        cursor.ahead = text ++ cursor.next.2.rest := by
  constructor
  · intro h
    cases cursor.decides with
    | token hlongest hitem hrest =>
      obtain ⟨rfl, rfl⟩ := h.unique hlongest
      exact ⟨hitem, hrest⟩
    | unterminated hahead hbody _ =>
      have hbegins := h.begins
      rw [hahead] at hbegins
      exact absurd h.fits (not_matches_of_unterminated hbody hbegins)
    | unexpected _ _ hnone _ => exact absurd h.fits (hnone kind text h.begins)
    | atEnd hahead _ =>
      have hbegins := h.begins
      rw [hahead] at hbegins
      exact absurd (List.prefix_nil.1 hbegins) h.fits.ne_nil
  · intro h
    obtain ⟨hanswer, -⟩ := h
    cases cursor.decides with
    | token hlongest hitem _ =>
      rw [hanswer] at hitem
      cases hitem
      exact hlongest
    | unterminated _ _ hitem | unexpected _ _ _ hitem | atEnd _ hitem =>
      rw [hanswer] at hitem
      cases hitem

/-- A string is refused where it has no second quote. -/
theorem unterminated_iff :
    cursor.next.1 = .error .unterminatedString cursor.next.2.line ↔
      ∃ body, cursor.ahead = '"' :: body ∧ '"' ∉ body := by
  constructor
  · intro hanswer
    cases cursor.decides with
    | unterminated hahead hbody _ => exact ⟨_, hahead, hbody⟩
    | token _ hitem _ | unexpected _ _ _ hitem | atEnd _ hitem =>
      rw [hanswer] at hitem
      cases hitem
  · rintro ⟨body, hahead, hbody⟩
    cases cursor.decides with
    | token hlongest _ _ =>
      have hbegins := hlongest.begins
      rw [hahead] at hbegins
      exact absurd hlongest.fits (not_matches_of_unterminated hbody hbegins)
    | unterminated _ _ hitem => exact hitem
    | unexpected hahead' hquote _ _ =>
      rw [hahead] at hahead'
      cases hahead'
      exact absurd rfl hquote
    | atEnd hahead' _ =>
      rw [hahead] at hahead'
      cases hahead'

/-- A character is refused where nothing matches and no string begins. -/
theorem unexpected_iff :
    cursor.next.1 = .error .unexpectedCharacter cursor.next.2.line ↔
      cursor.ahead ≠ [] ∧ cursor.ahead.head? ≠ some '"' ∧
        ∀ kind text, text <+: cursor.ahead → ¬ Matches kind text := by
  constructor
  · intro hanswer
    cases cursor.decides with
    | unexpected hahead hquote hnone _ =>
      refine ⟨by simp [hahead], ?_, hnone⟩
      rw [hahead]
      exact fun heq => hquote (Option.some.inj heq)
    | token _ hitem _ | unterminated _ _ hitem | atEnd _ hitem =>
      rw [hanswer] at hitem
      cases hitem
  · rintro ⟨hne, hquote, hnone⟩
    cases cursor.decides with
    | token hlongest _ _ => exact absurd hlongest.fits (hnone _ _ hlongest.begins)
    | unterminated hahead _ _ =>
      rw [hahead] at hquote
      exact absurd rfl hquote
    | unexpected _ _ _ hitem => exact hitem
    | atEnd hahead _ => exact absurd hahead hne

/-- The end is answered where nothing stands ahead. -/
theorem endOfText_iff :
    cursor.next.1 = .endOfText cursor.next.2.line ↔ cursor.ahead = [] := by
  constructor
  · intro hanswer
    cases cursor.decides with
    | atEnd hahead _ => exact hahead
    | token _ hitem _ | unterminated _ _ hitem | unexpected _ _ _ hitem =>
      rw [hanswer] at hitem
      cases hitem
  · intro hahead
    rw [next_of_ahead_nil hahead]

end Exactly

end Cursor

/-! ### Spaced tokens -/

/-- Blanks and comments between tokens; every comment ends with its line. -/
inductive Gap : List Char → Prop
  | nil : Gap []
  | space {c : Char} {s : List Char} : IsSpace c → Gap s → Gap (c :: s)
  | comment {body s : List Char} : '\n' ∉ body → Gap s → Gap ('/' :: '/' :: (body ++ '\n' :: s))

/-- Texts of tokens, with a blank and what may follow it between any two of them. -/
inductive Spaced : List (TokenKind × List Char) → List Char → Prop
  | nil : Spaced [] []
  | last {kind : TokenKind} {text : List Char} : Matches kind text → Spaced [(kind, text)] text
  | cons {kind : TokenKind} {text gap source : List Char} {c : Char}
      {lexemes : List (TokenKind × List Char)} :
      Matches kind text → IsSpace c → Gap gap → Spaced lexemes source →
      Spaced ((kind, text) :: lexemes) (text ++ c :: (gap ++ source))

theorem Gap.skippable {gap : List Char} (h : Gap gap) (after : List Char) :
    Skippable after gap := by
  induction h with
  | nil => exact .nil
  | space hc _ ih => exact .space hc ih
  | comment hbody _ ih =>
    refine .comment hbody ?_ (.space (.inr (.inr (.inr rfl))) ih)
    intro c hc
    cases hc
    rfl

theorem not_isSpace_of_mem_signs : ∀ entry ∈ signs, ¬ IsSpace entry.1 := by
  unfold IsSpace
  decide

theorem not_isSpace_of_mem_equalSigns : ∀ entry ∈ equalSigns, ¬ IsSpace entry.1 := by
  unfold IsSpace
  decide

theorem not_isSpace_of_isNamePart {c : Char} (h : Lexeme.isNamePart c = true) : ¬ IsSpace c := by
  rintro (rfl | rfl | rfl | rfl) <;> cases h

theorem not_isSpace_of_isDigit {c : Char} (h : c.isDigit = true) : ¬ IsSpace c := by
  rintro (rfl | rfl | rfl | rfl) <;> cases h

/-- Blanks stand in strings only. -/
theorem Matches.head_eq_quote {kind : TokenKind} {text : List Char} (h : Matches kind text)
    {c : Char} (hc : c ∈ text) (hspace : IsSpace c) : text.head? = some '"' := by
  have hword {word : List Char} (hword : IsWord word) (hc : c ∈ word) : False := by
    cases hword with
    | @intro d s hd hs =>
      obtain ⟨hstart, hparts⟩ := isWord_iff.1 (.intro hd hs)
      rcases List.mem_cons.1 hc with rfl | hmem
      · exact not_isSpace_of_isNamePart (Bool.or_eq_true_iff.2 (.inl hstart)) hspace
      · exact not_isSpace_of_isNamePart (hparts c hmem) hspace
  cases h with
  | string _ => rfl
  | number hdigits => exact absurd hspace (not_isSpace_of_isDigit (hdigits.2 c hc))
  | decimal hwhole hfraction =>
    rcases List.mem_append.1 hc with hmem | hmem
    · exact absurd hspace (not_isSpace_of_isDigit (hwhole.2 c hmem))
    rcases List.mem_cons.1 hmem with rfl | hmem
    · exact absurd hspace (by unfold IsSpace; decide)
    · exact absurd hspace (not_isSpace_of_isDigit (hfraction.2 c hmem))
  | identifier hidentifier _ => exact (hword hidentifier hc).elim
  | keyword k => exact (hword k.isWord hc).elim
  | sign hmem =>
    rw [List.mem_singleton.1 hc] at hspace
    exact absurd hspace (not_isSpace_of_mem_signs _ hmem)
  | equalSign hmem =>
    rcases List.mem_cons.1 hc with rfl | hc
    · exact absurd hspace (not_isSpace_of_mem_equalSigns _ hmem)
    · rw [List.mem_singleton.1 hc] at hspace
      exact absurd hspace (by unfold IsSpace; decide)

/-- **A blank ends every match.** A longer one would be a string with the blank in it, and what was
the longest before a string that ends before it. -/
theorem LongestMatch.append_space {kind : TokenKind} {text ahead rest : List Char} {c : Char}
    (h : LongestMatch kind text ahead) (hc : IsSpace c) :
    LongestMatch kind text (ahead ++ c :: rest) where
  begins := h.begins.trans (List.prefix_append ahead (c :: rest))
  fits := h.fits
  longest := by
    intro kind' text' hpre h'
    have hahead : ahead <+: ahead ++ c :: rest := List.prefix_append ahead (c :: rest)
    by_cases hle : text'.length ≤ ahead.length
    · exact h.longest kind' text' (List.prefix_of_prefix_length_le hpre hahead hle) h'
    exfalso
    obtain ⟨more, rfl⟩ :=
      List.prefix_of_prefix_length_le hahead hpre (Nat.le_of_lt (Nat.not_le.1 hle))
    obtain ⟨d, more, rfl⟩ : ∃ d rest, more = d :: rest :=
      List.exists_cons_of_ne_nil fun hnil => by simp [hnil] at hle
    obtain ⟨rfl, -⟩ := List.cons_prefix_cons.1 ((List.prefix_append_right_inj ahead).1 hpre)
    have hquote := h'.head_eq_quote (List.mem_append_right _ List.mem_cons_self) hc
    obtain ⟨suffix, rfl⟩ := h.begins
    obtain ⟨q, t, rfl⟩ := List.exists_cons_of_ne_nil h.fits.ne_nil
    have hq : q = '"' := Option.some.inj hquote
    obtain ⟨-, body, rfl, -⟩ := h.fits.of_quote hq
    obtain ⟨-, body', heq, hnot⟩ := Matches.of_quote h' hq
    -- the closing quote of the token stands inside the longer string
    have hmem : '"' ∈ body' := by
      have hlast : (body ++ ['"'] ++ suffix ++ d :: more).dropLast = (body' ++ ['"']).dropLast :=
        congrArg List.dropLast heq
      rw [List.dropLast_concat, List.append_assoc, List.append_assoc, List.singleton_append,
        List.dropLast_append_of_ne_nil (List.cons_ne_nil _ _),
        List.dropLast_cons_of_ne_nil (List.append_ne_nil_of_right_ne_nil _ (List.cons_ne_nil _ _))]
        at hlast
      rw [← hlast]
      exact List.mem_append_right _ List.mem_cons_self
    exact hnot hmem

/-- A token that a blank follows is the longest match. -/
theorem Matches.longest_of_space {kind : TokenKind} {text after : List Char}
    (h : Matches kind text) (hafter : ∀ c ∈ after.head?, IsSpace c) :
    LongestMatch kind text (text ++ after) := by
  have hself : LongestMatch kind text text :=
    ⟨List.prefix_rfl, h, fun _ _ hpre _ => hpre.length_le⟩
  cases after with
  | nil => rwa [List.append_nil]
  | cons c rest => exact hself.append_space (hafter c rfl)

/-- A token is not taken for blanks or for a comment. -/
theorem Matches.settled {kind : TokenKind} {text after : List Char} (h : Matches kind text)
    (hafter : ∀ c ∈ after.head?, IsSpace c) : Settled (text ++ after) := by
  obtain ⟨d, t, rfl⟩ := List.exists_cons_of_ne_nil h.ne_nil
  refine settled_cons ?_ ?_
  · intro hspace
    obtain rfl : d = '"' := Option.some.inj (h.head_eq_quote List.mem_cons_self hspace)
    exact absurd hspace (by unfold IsSpace; decide)
  · rintro ⟨rfl, hslash⟩
    rcases h.of_sign (by decide) (by decide) (by decide) with ⟨rfl, -⟩ | ⟨rfl, -⟩
    · exact absurd (hafter '/' hslash) (by unfold IsSpace; decide)
    · cases hslash

namespace Cursor

variable {cursor : Cursor}

theorem ahead_of_gap {gap after : List Char} (hgap : Gap gap) (hafter : Settled after)
    (hrest : cursor.rest = gap ++ after) : cursor.ahead = after := by
  rw [ahead, hrest, skipBlank_eq (hgap.skippable after) hafter]

/-- A call on a spaced token answers with it and leaves what follows it. -/
theorem next_of_spaced {kind : TokenKind} {gap text after : List Char} (hgap : Gap gap)
    (htext : Matches kind text) (hafter : ∀ c ∈ after.head?, IsSpace c)
    (hrest : cursor.rest = gap ++ (text ++ after)) :
    cursor.next.1 = .token ⟨kind, text, cursor.next.2.line⟩ ∧ cursor.next.2.rest = after := by
  have hahead := ahead_of_gap hgap (htext.settled hafter) hrest
  have hlongest : LongestMatch kind text cursor.ahead := by
    rw [hahead]
    exact htext.longest_of_space hafter
  obtain ⟨hitem, hwhole⟩ := cursor.longestMatch_iff.1 hlongest
  rw [hahead] at hwhole
  exact ⟨hitem, (List.append_cancel_left hwhole).symm⟩

/-- The line feeds ahead and the line make up the last line. -/
theorem line_add_count_next (cursor : Cursor) :
    cursor.next.2.line + cursor.next.2.rest.count '\n' = cursor.line + cursor.rest.count '\n' := by
  have hcount := congrArg (List.count '\n') cursor.rest_eq
  rw [List.count_append] at hcount
  rw [line_next, hcount, Nat.add_assoc]

/-- Where only blanks and comments are left, every call answers with the end. -/
theorem item_of_gap (hgap : Gap cursor.rest) (k : Nat) :
    cursor.item k = .endOfText (cursor.line + cursor.rest.count '\n') := by
  induction k generalizing cursor with
  | zero =>
    have hahead : cursor.ahead = [] :=
      ahead_of_gap hgap settled_nil (List.append_nil cursor.rest).symm
    have hwhole := cursor.cut.whole
    rw [hahead, List.append_nil] at hwhole
    rw [item, after, next_of_ahead_nil hahead, itemLine, ← hwhole]
  | succ k ih =>
    have hahead : cursor.ahead = [] :=
      ahead_of_gap hgap settled_nil (List.append_nil cursor.rest).symm
    have hrest : cursor.next.2.rest = [] := by rw [next_of_ahead_nil hahead]
    rw [item_succ, ih (hrest ▸ .nil), line_add_count_next]

/-- **A spaced text scans back** to its tokens, and then comes the end. -/
theorem item_of_spaced {lead source : List Char} {lexemes : List (TokenKind × List Char)}
    (h : Spaced lexemes source) (hlead : Gap lead) (hrest : cursor.rest = lead ++ source) :
    ∃ tokens : List Token, (tokens.map fun t => (t.kind, t.text)) = lexemes ∧
      ∀ k, cursor.item k = match tokens[k]? with
        | some t => .token t
        | none => .endOfText (cursor.line + cursor.rest.count '\n') := by
  induction h generalizing cursor lead with
  | nil =>
    rw [List.append_nil] at hrest
    refine ⟨[], rfl, fun k => ?_⟩
    rw [item_of_gap (hrest ▸ hlead) k]
    rfl
  | @last kind text hmatch =>
    rw [← List.append_nil text] at hrest
    obtain ⟨hitem, hafter⟩ := next_of_spaced hlead hmatch (fun c hc => by cases hc) hrest
    refine ⟨[⟨kind, text, cursor.next.2.line⟩], rfl, fun k => ?_⟩
    cases k with
    | zero => exact hitem
    | succ k =>
      rw [item_succ, item_of_gap (hafter ▸ .nil) k, line_add_count_next]
      rfl
  | @cons kind text gap source c lexemes hmatch hc hgap _ ih =>
    obtain ⟨hitem, hafter⟩ :=
      next_of_spaced hlead hmatch (fun d hd => by cases hd; exact hc) hrest
    have hlead' : Gap (c :: gap) := .space hc hgap
    obtain ⟨tokens, htokens, hitems⟩ := ih hlead' hafter
    refine ⟨⟨kind, text, cursor.next.2.line⟩ :: tokens, by rw [List.map_cons, htokens], ?_⟩
    intro k
    cases k with
    | zero => exact hitem
    | succ k =>
      rw [item_succ, hitems k, line_add_count_next]
      rfl

end Cursor

/-- **The lexer takes the longest match.** Wherever it stands, a call passes over blanks and
comments and answers with the longest text of a token that stands ahead, and with the kind of its
pattern. A string is refused exactly where it has no second quote, a character exactly where nothing
matches and no string begins, and the end is answered where nothing is left. The scanner over bytes
gives the same answers. So tokens with a blank and any blanks and comments after each scan back to
themselves, and then comes the end. -/
theorem scan_longest :
    (∀ cursor : Cursor,
      cursor.rest = cursor.skipped ++ cursor.ahead ∧ Skippable cursor.ahead cursor.skipped ∧
      Settled cursor.ahead ∧
      (∀ kind text, LongestMatch kind text cursor.ahead ↔
        cursor.next.1 = .token ⟨kind, text, cursor.next.2.line⟩ ∧
          cursor.ahead = text ++ cursor.next.2.rest) ∧
      (cursor.next.1 = .error .unterminatedString cursor.next.2.line ↔
        ∃ body, cursor.ahead = '"' :: body ∧ '"' ∉ body) ∧
      (cursor.next.1 = .error .unexpectedCharacter cursor.next.2.line ↔
        cursor.ahead ≠ [] ∧ cursor.ahead.head? ≠ some '"' ∧
          ∀ kind text, text <+: cursor.ahead → ¬ Matches kind text) ∧
      (cursor.next.1 = .endOfText cursor.next.2.line ↔ cursor.ahead = [])) ∧
    (∀ (source : String) k, (ByteScanner.new source).answer k =
      ((Cursor.start source.toList).item k).answer) ∧
    ∀ lead lexemes source, Gap lead → Spaced lexemes source →
      ∃ tokens : List Token, (tokens.map fun t => (t.kind, t.text)) = lexemes ∧
        ∀ k, (Cursor.start (lead ++ source)).item k = match tokens[k]? with
          | some t => .token t
          | none => .endOfText (1 + (lead ++ source).count '\n') := by
  refine ⟨fun cursor => ?_, fun source k => ?_, fun lead lexemes source hlead hspaced => ?_⟩
  · obtain ⟨hwhole, hskippable, hsettled, -⟩ := cursor.cut
    exact ⟨hwhole, hskippable, hsettled, fun _ _ => cursor.longestMatch_iff,
      cursor.unterminated_iff, cursor.unexpected_iff, cursor.endOfText_iff⟩
  · exact (ByteScanner.next_of_follows (ByteScanner.follows_after source k)).1
  · exact Cursor.item_of_spaced hspaced hlead rfl

/-- A point that no digit follows is not part of a number; a comment and a string over two lines
stand between a name that begins as a keyword and an operator of two signs. -/
theorem scan_longest_neighbours :
    let lexemes : List (TokenKind × List Char) := [(.identifier, ['n', 'i', 'l', 's']),
      (.string, ['"', '\n', '"']), (.bangEqual, ['!', '='])]
    let source := "nils\t//!\n\"\n\" !=".toList
    LongestMatch .number ['1', '2'] (Cursor.start "12.".toList).ahead ∧ Gap ['\r'] ∧
      Spaced lexemes source ∧
      ∃ tokens : List Token, (tokens.map fun t => (t.kind, t.text)) = lexemes ∧
        ∀ k, (Cursor.start ('\r' :: source)).item k = match tokens[k]? with
          | some t => .token t
          | none => .endOfText (1 + ('\r' :: source).count '\n') := by
  intro lexemes source
  obtain ⟨hcalls, -, hspaces⟩ := scan_longest
  obtain ⟨-, -, -, hlongest, -⟩ := hcalls (Cursor.start "12.".toList)
  have hlead : Gap ['\r'] := .space (.inr (.inr (.inl rfl))) .nil
  have hcomment : Gap ('/' :: '/' :: (['!'] ++ '\n' :: [])) := .comment (by decide) .nil
  have hname : IsWord ['n', 'i', 'l', 's'] := isWord_iff.2 ⟨rfl, List.all_eq_true.1 rfl⟩
  have hstring : Matches .string ('"' :: (['\n'] ++ ['"'])) := .string (by decide)
  have hspaced : Spaced lexemes (['n', 'i', 'l', 's'] ++ '\t' :: ('/' :: '/' :: (['!'] ++ '\n' :: [])
      ++ ('"' :: (['\n'] ++ ['"']) ++ ' ' :: ([] ++ ['!', '='])))) := by
    refine .cons (.identifier hname ?_) (.inr (.inl rfl)) hcomment ?_
    · intro k
      cases k <;> decide
    · exact .cons hstring (.inl rfl) .nil (.last (.equalSign (by decide)))
  exact ⟨(hlongest _ _).2 (by decide), hlead, hspaced, hspaces _ lexemes source hlead hspaced⟩

end ExprMachine
