import ExprMachine.Assembly.Quoted
import ExprMachine.Proofs.Text

/-!
# Comments and quoted strings

Two readers decide where a string ends: the one that looks for comments keeps track of quotes and
escapes, and the one that reads a string has been given its two quotes. On strings that are written
with escapes they agree.

* `Mode.after`, `Uncommented` — the first reader behind a text, and that it found no comment there;
* `Closed` — a text without a comment, behind which a semicolon begins one;
* `quoted` — a string with its quotes and escapes;
* `closed_quoted`, `readQuoted_quoted` — what the two readers make of it.
-/

namespace ExprMachine.Assembly

/-! ### Comments -/

/-- Where the character behind a text stands. -/
def Mode.after (mode : Mode) (s : List Char) : Mode := s.foldl Mode.next mode

/-- No comment begins in a text. -/
def Uncommented : Mode → List Char → Prop
  | _, [] => True
  | mode, c :: rest => ¬ (mode = .code ∧ c = ';') ∧ Uncommented (mode.next c) rest

theorem Mode.after_append (mode : Mode) (s t : List Char) :
    mode.after (s ++ t) = (mode.after s).after t := List.foldl_append

theorem uncommented_append {mode : Mode} {s t : List Char} (hs : Uncommented mode s)
    (ht : Uncommented (mode.after s) t) : Uncommented mode (s ++ t) := by
  induction s generalizing mode with
  | nil => exact ht
  | cons c s ih => exact ⟨hs.1, ih hs.2 ht⟩

theorem codeLength_append {mode : Mode} {s : List Char} (h : Uncommented mode s) (t : List Char) :
    codeLength mode 0 (s ++ t) = s.length + codeLength (mode.after s) 0 t := by
  induction s generalizing mode with
  | nil => exact (Nat.zero_add _).symm
  | cons c s ih =>
    have hrest : codeLength (mode.next c) 0 (s ++ t) =
        s.length + codeLength ((mode.next c).after s) 0 t := ih h.2
    show (if mode = .code ∧ c = ';' then 0 else codeLength (mode.next c) (0 + 1) (s ++ t)) =
      (s.length + 1) + codeLength ((mode.next c).after s) 0 t
    rw [if_neg h.1, codeLength_add, hrest]
    omega

/-- A text without a comment that ends outside quotes. -/
structure Closed (s : List Char) : Prop where
  uncommented : Uncommented .code s
  after_eq : Mode.code.after s = .code

theorem closed_nil : Closed [] := ⟨trivial, rfl⟩

theorem Closed.append {s t : List Char} (hs : Closed s) (ht : Closed t) : Closed (s ++ t) where
  uncommented := by
    refine uncommented_append hs.uncommented ?_
    rw [hs.after_eq]
    exact ht.uncommented
  after_eq := by rw [Mode.after_append, hs.after_eq, ht.after_eq]

theorem closed_of_plain {s : List Char} (h : ∀ c ∈ s, c ≠ ';' ∧ c ≠ '"') : Closed s := by
  induction s with
  | nil => exact closed_nil
  | cons c s ih =>
    obtain ⟨hsemicolon, hquote⟩ := h c List.mem_cons_self
    have hrest := ih fun c hc => h c (List.mem_cons_of_mem _ hc)
    have hnext : Mode.code.next c = .code := if_neg hquote
    refine ⟨⟨fun hcomment => hsemicolon hcomment.2, ?_⟩, ?_⟩
    · rw [hnext]
      exact hrest.uncommented
    · show (Mode.code.next c).after s = .code
      rw [hnext]
      exact hrest.after_eq

theorem dropComment_of_uncommented {s : List Char} (h : Uncommented .code s) :
    dropComment s = s := by
  have hlength : codeLength .code 0 s = s.length := by
    rw [← List.append_nil s, codeLength_append h]
    simp [codeLength]
  rw [dropComment, hlength, List.take_length]

theorem dropComment_of_closed {s : List Char} (h : Closed s) : dropComment s = s :=
  dropComment_of_uncommented h.uncommented

/-- **A semicolon behind a closed text** begins a comment. -/
theorem dropComment_comment {s : List Char} (h : Closed s) (comment : List Char) :
    dropComment (s ++ ';' :: comment) = s := by
  have hlength : codeLength .code 0 (s ++ ';' :: comment) = s.length := by
    rw [codeLength_append h.uncommented, h.after_eq]
    rfl
  rw [dropComment, hlength, List.take_left]

theorem uncommented_or (mode : Mode) (s : List Char) :
    Uncommented mode s ∨ ∃ text comment, s = text ++ ';' :: comment ∧ Uncommented mode text ∧
      mode.after text = .code := by
  induction s generalizing mode with
  | nil => exact .inl trivial
  | cons c s ih =>
    by_cases hhere : mode = .code ∧ c = ';'
    · obtain ⟨rfl, rfl⟩ := hhere
      exact .inr ⟨[], s, rfl, trivial, rfl⟩
    · rcases ih (mode.next c) with hs | ⟨text, comment, rfl, htext, hafter⟩
      · exact .inl ⟨hhere, hs⟩
      · exact .inr ⟨c :: text, comment, rfl, ⟨hhere, htext⟩, hafter⟩

/-- A line has no comment, or it is a closed text with a comment behind it. -/
theorem uncommented_or_closed (s : List Char) :
    Uncommented .code s ∨ ∃ text comment, s = text ++ ';' :: comment ∧ Closed text := by
  rcases uncommented_or .code s with h | ⟨text, comment, hs, htext, hafter⟩
  · exact .inl h
  · exact .inr ⟨text, comment, hs, htext, hafter⟩

/-! ### Quoted strings -/

/-- A character as it stands in a quoted string. -/
def escape (c : Char) : List Char :=
  if c = '"' then ['\\', '"']
  else if c = '\\' then ['\\', '\\']
  else if c = '\n' then ['\\', 'n']
  else [c]

/-- A string in quotes, with every quote, backslash and line feed escaped. -/
def quoted (cs : List Char) : List Char := '"' :: (cs.flatMap escape ++ ['"'])

/-- How a character is escaped. -/
theorem escape_cases (c : Char) :
    (∃ d, escape c = ['\\', d] ∧ unescaped d = c ∧ d ≠ '\n') ∨
      escape c = [c] ∧ c ≠ '"' ∧ c ≠ '\\' ∧ c ≠ '\n' := by
  unfold escape
  by_cases hquote : c = '"'
  · subst hquote
    exact .inl ⟨'"', rfl, rfl, by decide⟩
  by_cases hbackslash : c = '\\'
  · subst hbackslash
    exact .inl ⟨'\\', rfl, rfl, by decide⟩
  by_cases hfeed : c = '\n'
  · subst hfeed
    exact .inl ⟨'n', rfl, rfl, by decide⟩
  · rw [if_neg hquote, if_neg hbackslash, if_neg hfeed]
    exact .inr ⟨rfl, hquote, hbackslash, hfeed⟩

/-- The reader for comments stays inside the string. -/
theorem escape_quoted (c : Char) :
    Uncommented .quoted (escape c) ∧ Mode.quoted.after (escape c) = .quoted := by
  rcases escape_cases c with ⟨d, hescape, -, -⟩ | ⟨hescape, hquote, hbackslash, -⟩
  · rw [hescape]
    exact ⟨⟨nofun, nofun, trivial⟩, rfl⟩
  · rw [hescape]
    refine ⟨⟨nofun, trivial⟩, ?_⟩
    show (if c = '\\' then Mode.escaped else if c = '"' then .code else .quoted) = .quoted
    rw [if_neg hbackslash, if_neg hquote]

theorem flatMap_escape_quoted (cs : List Char) :
    Uncommented .quoted (cs.flatMap escape) ∧
      Mode.quoted.after (cs.flatMap escape) = .quoted := by
  induction cs with
  | nil => exact ⟨trivial, rfl⟩
  | cons c cs ih =>
    obtain ⟨hfirst, hafter⟩ := escape_quoted c
    rw [List.flatMap_cons]
    refine ⟨uncommented_append hfirst (hafter.symm ▸ ih.1), ?_⟩
    rw [Mode.after_append, hafter, ih.2]

/-- **No comment begins in a quoted string**, and behind it one may. -/
theorem closed_quoted (cs : List Char) : Closed (quoted cs) := by
  obtain ⟨hbody, hafter⟩ := flatMap_escape_quoted cs
  have hlast : Uncommented .quoted ['"'] := ⟨nofun, trivial⟩
  refine ⟨⟨by decide, uncommented_append hbody (hafter.symm ▸ hlast)⟩, ?_⟩
  show Mode.quoted.after (cs.flatMap escape ++ ['"']) = .code
  rw [Mode.after_append, hafter]
  rfl

theorem readBody_escape (read : List Char) (c : Char) (rest : List Char) :
    readBody read (escape c ++ rest) = readBody (c :: read) rest := by
  rcases escape_cases c with ⟨d, hescape, hunescaped, -⟩ | ⟨hescape, -, hbackslash, -⟩
  · rw [hescape]
    show readBody (unescaped d :: read) rest = _
    rw [hunescaped]
  · rw [hescape]
    show readBody read (c :: rest) = _
    rw [readBody]
    · rintro rfl
      exact absurd rfl hbackslash
    · rintro d tail rfl
      exact absurd rfl hbackslash

theorem readBody_flatMap_escape (read cs : List Char) :
    readBody read (cs.flatMap escape) = .ok (read.reverse ++ cs) := by
  induction cs generalizing read with
  | nil => rw [List.flatMap_nil, readBody, List.append_nil]
  | cons c cs ih =>
    rw [List.flatMap_cons, readBody_escape, ih, List.reverse_cons, List.append_assoc]
    rfl

/-- **A quoted string is read back.** -/
theorem readQuoted_quoted (cs : List Char) : readQuoted (quoted cs) = .ok cs := by
  have hlast : (quoted cs).getLast? = some '"' := by
    rw [quoted, ← List.cons_append, List.getLast?_concat]
  have hbody : ((quoted cs).drop 1).dropLast = cs.flatMap escape := by
    rw [quoted, List.drop_one, List.tail_cons, List.dropLast_concat]
  have hlong : ¬ (quoted cs).length < 2 := by
    simp [quoted]
  have hclosed : ¬ ((quoted cs).length < 2 ∨ (quoted cs).head? ≠ some '"' ∨
      (quoted cs).getLast? ≠ some '"') := by
    rintro (h | h | h)
    · exact hlong h
    · exact h rfl
    · exact h hlast
  rw [readQuoted, if_neg hclosed, hbody, readBody_flatMap_escape]
  rfl

theorem solid_quoted (cs : List Char) : Text.Solid (quoted cs) where
  begins := ⟨'"', _, rfl, by decide⟩
  ends := ⟨'"' :: cs.flatMap escape, '"', rfl, by decide⟩

theorem feed_not_mem_quoted (cs : List Char) : '\n' ∉ quoted cs := by
  intro h
  have hbody : '\n' ∈ cs.flatMap escape := by
    rcases List.mem_cons.1 h with hquote | hrest
    · cases hquote
    · rcases List.mem_append.1 hrest with hbody | hquote
      · exact hbody
      · cases List.mem_singleton.1 hquote
  obtain ⟨c, -, hc⟩ := List.mem_flatMap.1 hbody
  rcases escape_cases c with ⟨d, hescape, -, hd⟩ | ⟨hescape, -, -, hfeed⟩
  · rw [hescape] at hc
    simp at hc
    exact hd hc.symm
  · rw [hescape] at hc
    exact hfeed (List.mem_singleton.1 hc).symm

end ExprMachine.Assembly
