import Mathlib.Data.List.Infix
import ExprMachine.Text.Blank
import ExprMachine.Text.Lines

/-!
# Texts taken apart

What the cuts of a text give when the parts that they separate are known.

* `Solid`, `trim_eq` — a text between blanks is what trimming leaves;
* `splitOnce_append` — a text cut at its first separator;
* `lines_append_feed` — the first line of a text, and the others;
* `unlines`, `lines_unlines` — every list of lines is that of a text.
-/

namespace ExprMachine.Text

/-! ### Blanks -/

/-- The visible characters of ASCII are not blank. -/
theorem isBlank_of_toNat {c : Char} (hlow : 33 ≤ c.toNat) (hhigh : c.toNat ≤ 126) :
    isBlank c = false := by
  simp only [isBlank, Bool.or_eq_false_iff, Bool.and_eq_false_iff, decide_eq_false_iff_not,
    beq_eq_false_iff_ne]
  omega

theorem isBlank_of_isDigit {c : Char} (h : c.isDigit = true) : isBlank c = false := by
  rw [Char.isDigit_iff_toNat] at h
  simp only [Char.reduceToNat] at h
  exact isBlank_of_toNat (by omega) (by omega)

/-- A text that neither begins nor ends with a blank, and is not empty. -/
structure Solid (s : List Char) : Prop where
  begins : ∃ c rest, s = c :: rest ∧ isBlank c = false
  ends : ∃ rest c, s = rest ++ [c] ∧ isBlank c = false

theorem Solid.ne_nil {s : List Char} (h : Solid s) : s ≠ [] := by
  obtain ⟨c, rest, rfl, -⟩ := h.begins
  exact List.cons_ne_nil c rest

theorem solid_of_all {s : List Char} (hne : s ≠ []) (h : ∀ c ∈ s, isBlank c = false) : Solid s where
  begins := by
    obtain ⟨c, rest, rfl⟩ := List.exists_cons_of_ne_nil hne
    exact ⟨c, rest, rfl, h c List.mem_cons_self⟩
  ends := by
    have hlast := List.dropLast_concat_getLast hne
    exact ⟨s.dropLast, s.getLast hne, hlast.symm, h _ (List.getLast_mem hne)⟩

/-- Whatever stands between two solid texts. -/
theorem Solid.append {s t : List Char} (hs : Solid s) (ht : Solid t) (middle : List Char) :
    Solid (s ++ (middle ++ t)) where
  begins := by
    obtain ⟨c, rest, rfl, hc⟩ := hs.begins
    exact ⟨c, rest ++ (middle ++ t), rfl, hc⟩
  ends := by
    obtain ⟨rest, c, rfl, hc⟩ := ht.ends
    exact ⟨s ++ (middle ++ rest), c, by simp only [List.append_assoc], hc⟩

theorem trim_of_blank {s : List Char} (h : ∀ c ∈ s, isBlank c = true) : trim s = [] := by
  have hstart : trimStart s = [] := by
    rw [trimStart, ← List.append_nil s, List.dropWhile_append_of_pos h]
    rfl
  rw [trim, hstart]
  rfl

/-- **Trimming takes the blanks on both sides** and nothing else. -/
theorem trim_eq {front s back : List Char} (hfront : ∀ c ∈ front, isBlank c = true) (hs : Solid s)
    (hback : ∀ c ∈ back, isBlank c = true) : trim (front ++ (s ++ back)) = s := by
  have hstart : trimStart (front ++ (s ++ back)) = s ++ back := by
    obtain ⟨c, rest, rfl, hc⟩ := hs.begins
    rw [trimStart, List.dropWhile_append_of_pos hfront, List.cons_append,
      List.dropWhile_cons_of_neg (by rw [hc]; exact Bool.false_ne_true)]
  have hend : trimEnd (s ++ back) = s := by
    obtain ⟨rest, c, rfl, hc⟩ := hs.ends
    have hback' : ∀ c ∈ back.reverse, isBlank c = true :=
      fun c hc => hback c (List.mem_reverse.1 hc)
    rw [trimEnd, List.reverse_append, List.dropWhile_append_of_pos hback', List.reverse_append,
      List.reverse_singleton, List.singleton_append,
      List.dropWhile_cons_of_neg (by rw [hc]; exact Bool.false_ne_true), List.reverse_cons,
      List.reverse_reverse]
  rw [trim, hstart, hend]

theorem trim_blank_append {front s : List Char} (hfront : ∀ c ∈ front, isBlank c = true)
    (hs : Solid s) : trim (front ++ s) = s := by
  have hnone : ∀ c ∈ ([] : List Char), isBlank c = true := nofun
  have htrim := trim_eq hfront hs hnone
  rwa [List.append_nil] at htrim

theorem trim_append_blank {s back : List Char} (hs : Solid s)
    (hback : ∀ c ∈ back, isBlank c = true) : trim (s ++ back) = s := by
  have hnone : ∀ c ∈ ([] : List Char), isBlank c = true := nofun
  exact trim_eq hnone hs hback

/-- What is trimmed keeps a first character that is not blank. -/
theorem mem_trim_cons {c : Char} (hc : isBlank c = false) (s : List Char) : c ∈ trim (c :: s) := by
  have hstart : trimStart (c :: s) = c :: s :=
    List.dropWhile_cons_of_neg (by rw [hc]; exact Bool.false_ne_true)
  have hkept : [c].dropWhile isBlank = [c] :=
    List.dropWhile_cons_of_neg (by rw [hc]; exact Bool.false_ne_true)
  rw [trim, hstart, trimEnd, List.mem_reverse, List.reverse_cons, List.dropWhile_append, hkept]
  split
  · exact List.mem_singleton.2 rfl
  · exact List.mem_append_right _ (List.mem_singleton.2 rfl)

/-- The first word of a text that goes on behind it. -/
theorem firstWord_append {front word rest : List Char} {c : Char}
    (hfront : ∀ c ∈ front, isBlank c = true) (hword : ∀ c ∈ word, isBlank c = false)
    (hne : word ≠ []) (hc : isBlank c = true) :
    firstWord (front ++ (word ++ c :: rest)) = (word, c :: rest) := by
  have hinside : ∀ c ∈ word, (!isBlank c) = true := fun c hmem => by rw [hword c hmem]; rfl
  have hstop : ¬ (!isBlank c) = true := by rw [hc]; exact Bool.false_ne_true
  have hstart : trimStart (front ++ (word ++ c :: rest)) = word ++ c :: rest := by
    obtain ⟨d, tail, rfl⟩ := List.exists_cons_of_ne_nil hne
    rw [trimStart, List.dropWhile_append_of_pos hfront, List.cons_append,
      List.dropWhile_cons_of_neg (by rw [hword d List.mem_cons_self]; exact Bool.false_ne_true)]
  have htake : (c :: rest).takeWhile (fun c => !isBlank c) = [] :=
    List.takeWhile_cons_of_neg hstop
  have hdrop : (c :: rest).dropWhile (fun c => !isBlank c) = c :: rest :=
    List.dropWhile_cons_of_neg hstop
  simp only [firstWord, hstart]
  rw [List.takeWhile_append_of_pos hinside, List.dropWhile_append_of_pos hinside, htake, hdrop,
    List.append_nil]

/-! ### Separators -/

section Separators

variable {p : Char → Bool} {s : List Char} (h : ∀ c ∈ s, p c = false)

include h

theorem splitOnce_append {c : Char} (hc : p c = true) (t : List Char) :
    splitOnce p (s ++ c :: t) = some (s, t) := by
  have hnot : ∀ c ∈ s, (!p c) = true := fun c hmem => by rw [h c hmem]; rfl
  have hstop : ¬ (!p c) = true := by rw [hc]; exact Bool.false_ne_true
  have hdrop : (c :: t).dropWhile (fun c => !p c) = c :: t := List.dropWhile_cons_of_neg hstop
  have htake : (c :: t).takeWhile (fun c => !p c) = [] := List.takeWhile_cons_of_neg hstop
  rw [splitOnce, List.dropWhile_append_of_pos hnot, hdrop, List.takeWhile_append_of_pos hnot, htake,
    List.append_nil]

theorem splitOnce_eq_none : splitOnce p s = none := by
  have hnot : ∀ c ∈ s, (!p c) = true := fun c hmem => by rw [h c hmem]; rfl
  have hdrop : (s.dropWhile fun c => !p c) = [] := by
    rw [← List.append_nil s, List.dropWhile_append_of_pos hnot]
    rfl
  rw [splitOnce, hdrop]

end Separators

/-! ### Lines -/

section Lines

variable {α : Type} [DecidableEq α] {feed : α}

theorem pieces_cons {a : α} {s piece : List α} {others : List (List α)} (ha : a ≠ feed)
    (h : pieces feed s = piece :: others) : pieces feed (a :: s) = (a :: piece) :: others := by
  unfold pieces at h ⊢
  rw [List.foldr_cons, if_neg ha, h]

theorem pieces_of_not_mem {s : List α} (h : feed ∉ s) : pieces feed s = [s] := by
  induction s with
  | nil => rfl
  | cons a s ih =>
    have ha : a ≠ feed := fun heq => h (heq ▸ List.mem_cons_self)
    exact pieces_cons ha (ih fun hs => h (List.mem_cons_of_mem a hs))

theorem pieces_append_feed {s : List α} (h : feed ∉ s) (rest : List α) :
    pieces feed (s ++ feed :: rest) = s :: pieces feed rest := by
  induction s with
  | nil => exact pieces_feed feed rest
  | cons a s ih =>
    have ha : a ≠ feed := fun heq => h (heq ▸ List.mem_cons_self)
    exact pieces_cons ha (ih fun hs => h (List.mem_cons_of_mem a hs))

theorem dropReturn_concat (ret : α) (s : List α) : dropReturn ret (s ++ [ret]) = s := by
  rw [dropReturn, if_pos List.getLast?_concat, List.dropLast_concat]

theorem dropReturn_append {t : List α} (ht : t ≠ []) (ret : α) (s : List α) :
    dropReturn ret (s ++ t) = s ++ dropReturn ret t := by
  have hlast : (s ++ t).getLast? = t.getLast? := List.getLast?_append_of_ne_nil s ht
  rw [dropReturn, dropReturn, hlast, List.dropLast_append_of_ne_nil ht]
  split <;> rfl

theorem mem_of_mem_dropReturn {ret a : α} {s : List α} (h : a ∈ dropReturn ret s) : a ∈ s := by
  unfold dropReturn at h
  split at h
  · exact List.mem_of_mem_dropLast h
  · exact h

theorem not_mem_of_mem_pieces {s piece : List α} (h : piece ∈ pieces feed s) : feed ∉ piece := by
  induction s generalizing piece with
  | nil =>
    rw [pieces_nil, List.mem_singleton] at h
    rw [h]
    exact List.not_mem_nil
  | cons a s ih =>
    by_cases ha : a = feed
    · subst ha
      rw [pieces_feed] at h
      rcases List.mem_cons.1 h with rfl | hmem
      · exact List.not_mem_nil
      · exact ih hmem
    · obtain ⟨first, others, hpieces⟩ := List.exists_cons_of_ne_nil (pieces_ne_nil feed s)
      rw [pieces_cons ha hpieces] at h
      rw [hpieces] at ih
      rcases List.mem_cons.1 h with rfl | hmem
      · intro hfeed
        rcases List.mem_cons.1 hfeed with heq | hfirst
        · exact ha heq.symm
        · exact ih List.mem_cons_self hfirst
      · exact ih (List.mem_cons_of_mem _ hmem)

/-- No line has a line feed in it. -/
theorem not_mem_of_mem_lines {ret : α} {s line : List α} (h : line ∈ lines feed ret s) :
    feed ∉ line := by
  have hlast : (pieces feed s).getLastD [] ∈ pieces feed s := by
    rw [List.getLastD_eq_getLast?, List.getLast?_eq_some_getLast (pieces_ne_nil feed s)]
    exact List.getLast_mem _
  rcases List.mem_append.1 h with hbefore | hend
  · obtain ⟨piece, hpiece, rfl⟩ := List.mem_map.1 hbefore
    intro hfeed
    exact not_mem_of_mem_pieces (List.mem_of_mem_dropLast hpiece) (mem_of_mem_dropReturn hfeed)
  · split at hend
    · cases hend
    · rw [List.mem_singleton.1 hend]
      exact not_mem_of_mem_pieces hlast

/-- A last line that no line feed ends. -/
theorem lines_of_not_mem (ret : α) {s : List α} (h : feed ∉ s) :
    lines feed ret s = if s = [] then [] else [s] := by
  rw [lines, pieces_of_not_mem h]
  rfl

/-- **The line before a line feed**, and the lines behind it. -/
theorem lines_append_feed (ret : α) {s : List α} (h : feed ∉ s) (rest : List α) :
    lines feed ret (s ++ feed :: rest) = dropReturn ret s :: lines feed ret rest := by
  obtain ⟨piece, others, hpieces⟩ := List.exists_cons_of_ne_nil (pieces_ne_nil feed rest)
  rw [lines, lines, pieces_append_feed h, hpieces]
  rfl

/-- Lines as a text, each with a line end of its own. -/
def unlines (feed ret : α) (texts : List (List α)) : List α := texts.flatMap (· ++ [ret, feed])

theorem lines_unlines {ret : α} {texts : List (List α)} (hne : feed ≠ ret)
    (h : ∀ line ∈ texts, feed ∉ line) : lines feed ret (unlines feed ret texts) = texts := by
  induction texts with
  | nil => exact lines_nil feed ret
  | cons line texts ih =>
    have hline : feed ∉ line ++ [ret] := by
      intro hfeed
      rcases List.mem_append.1 hfeed with hfeed | hret
      · exact h line List.mem_cons_self hfeed
      · exact hne (List.mem_singleton.1 hret)
    have hsplit : unlines feed ret (line :: texts) =
        (line ++ [ret]) ++ feed :: unlines feed ret texts := by
      simp [unlines]
    rw [hsplit, lines_append_feed ret hline, dropReturn_concat,
      ih fun line hmem => h line (List.mem_cons_of_mem _ hmem)]

end Lines

end ExprMachine.Text
