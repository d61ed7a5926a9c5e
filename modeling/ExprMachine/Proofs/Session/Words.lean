import Mathlib.Data.List.DropRight
import ExprMachine.Text.Blank

/-!
# Words of a text

The words of a text are what stands between its blanks. Reading the first word leaves the others, and
trimming takes none away.

* `words` — the words of a text;
* `words_append` — a blank separates words;
* `words_trim` — trimming keeps them;
* `words_eq_firstWord` — the first word of a text and those in what follows it;
* `firstWord_of_trim` — a trimmed text begins with its first word.
-/

namespace ExprMachine.Text

/-- The words of a text. -/
def words (s : List Char) : List (List Char) := (s.splitOnP isBlank).filter (· ≠ [])

@[simp]
theorem words_nil : words [] = [] := rfl

/-- A blank separates words. -/
theorem words_append {c : Char} (hc : isBlank c = true) (s t : List Char) :
    words (s ++ c :: t) = words s ++ words t := by
  rw [words, List.splitOnP_append_cons s t hc, List.filter_append, words, words]

theorem words_blank_append {front : List Char} (h : ∀ c ∈ front, isBlank c = true)
    (s : List Char) : words (front ++ s) = words s := by
  induction front with
  | nil => rfl
  | cons c front ih =>
    simp only [List.mem_cons, forall_eq_or_imp] at h
    have hcons := words_append h.1 [] (front ++ s)
    rw [List.nil_append, words_nil, List.nil_append] at hcons
    rw [List.cons_append, hcons, ih h.2]

theorem words_append_blank {back : List Char} (h : ∀ c ∈ back, isBlank c = true)
    (s : List Char) : words (s ++ back) = words s := by
  cases back with
  | nil => rw [List.append_nil]
  | cons c back =>
    simp only [List.mem_cons, forall_eq_or_imp] at h
    have hback := words_blank_append h.2 []
    rw [List.append_nil, words_nil] at hback
    rw [words_append h.1, hback, List.append_nil]

theorem words_of_solid {word : List Char} (hne : word ≠ []) (h : ∀ c ∈ word, isBlank c = false) :
    words word = [word] := by
  rw [words, List.splitOnP_eq_singleton h]
  simp [hne]

/-! ### Trimming -/

theorem words_trimStart (s : List Char) : words (trimStart s) = words s := by
  have hsplit := List.takeWhile_append_dropWhile (p := isBlank) (l := s)
  have hblank : ∀ c ∈ s.takeWhile isBlank, isBlank c = true :=
    fun c hc => List.all_eq_true.1 List.all_takeWhile c hc
  conv => rhs; rw [← hsplit, words_blank_append hblank]
  rfl

theorem words_trimEnd (s : List Char) : words (trimEnd s) = words s := by
  have hsplit := congrArg List.reverse
    (List.takeWhile_append_dropWhile (p := isBlank) (l := s.reverse))
  rw [List.reverse_append, List.reverse_reverse] at hsplit
  have hblank : ∀ c ∈ (s.reverse.takeWhile isBlank).reverse, isBlank c = true :=
    fun c hc => List.all_eq_true.1 List.all_takeWhile c (List.mem_reverse.1 hc)
  conv => rhs; rw [← hsplit, words_append_blank hblank]
  rfl

/-- **Trimming takes no word away.** -/
theorem words_trim (s : List Char) : words (trim s) = words s := by
  rw [trim, words_trimEnd, words_trimStart]

/-! ### The first word -/

/-- A text without a first word is blank. -/
theorem trimStart_of_firstWord_nil {s : List Char} (h : (firstWord s).1 = []) :
    trimStart s = [] := by
  cases hstart : trimStart s with
  | nil => rfl
  | cons c t =>
    have hhead := List.head?_dropWhile_not isBlank s
    have hdrop : s.dropWhile isBlank = c :: t := hstart
    rw [hdrop] at hhead
    have hword : (firstWord s).1 = (c :: t).takeWhile fun c => !isBlank c := by
      rw [firstWord, hstart]
    rw [hword, List.takeWhile_cons_of_pos (by simpa using hhead)] at h
    cases h

/-- What follows the first word begins with a blank. -/
theorem words_append_rest {word rest : List Char} (hne : word ≠ [])
    (hword : ∀ c ∈ word, isBlank c = false) (hrest : ∀ c ∈ rest.head?, isBlank c = true) :
    words (word ++ rest) = word :: words rest := by
  cases rest with
  | nil => rw [List.append_nil, words_of_solid hne hword, words_nil]
  | cons c rest =>
    have hc : isBlank c = true := hrest c rfl
    have htail : words (c :: rest) = words rest := words_append hc [] rest
    rw [words_append hc, words_of_solid hne hword, htail, List.singleton_append]

/-- **Reading the first word leaves the others.** -/
theorem words_eq_firstWord (s : List Char) :
    words s = if (firstWord s).1 = [] then [] else (firstWord s).1 :: words (firstWord s).2 := by
  have hsplit : (firstWord s).1 ++ (firstWord s).2 = trimStart s :=
    List.takeWhile_append_dropWhile
  have hword : ∀ c ∈ (firstWord s).1, isBlank c = false := fun c hc => by
    simpa using List.all_eq_true.1 List.all_takeWhile c hc
  have hrest : ∀ c ∈ (firstWord s).2.head?, isBlank c = true := fun c hc => by
    have hnot := List.head?_dropWhile_not (fun c => !isBlank c) (trimStart s)
    have hhead : ((trimStart s).dropWhile fun c => !isBlank c).head? = some c := hc
    rw [hhead] at hnot
    simpa using hnot
  rw [← words_trimStart]
  by_cases hne : (firstWord s).1 = []
  · rw [if_pos hne, trimStart_of_firstWord_nil hne, words_nil]
  · rw [if_neg hne, ← hsplit, words_append_rest hne hword hrest]

/-- A trimmed text does not begin with a blank. -/
theorem isBlank_of_trim {s rest : List Char} {c : Char} (h : trim s = c :: rest) :
    isBlank c = false := by
  have hstart : (s.dropWhile isBlank).head? = some c := by
    obtain ⟨back, hback⟩ : trim s <+: s.dropWhile isBlank := List.rdropWhile_prefix isBlank _
    rw [← hback, h]
    rfl
  have hnot := List.head?_dropWhile_not isBlank s
  rw [hstart] at hnot
  simpa using hnot

/-- **A trimmed text begins with its first word.** -/
theorem firstWord_of_trim {s rest : List Char} {c : Char} (h : trim s = c :: rest) :
    ∃ word others, firstWord (c :: rest) = (c :: word, others) ∧
      words s = (c :: word) :: words others := by
  have hc := isBlank_of_trim h
  have hstart : trimStart (c :: rest) = c :: rest := List.dropWhile_cons_of_neg (by simp [hc])
  have hfirst : firstWord (c :: rest) =
      (c :: rest.takeWhile fun c => !isBlank c, rest.dropWhile fun c => !isBlank c) := by
    simp [firstWord, hstart, hc]
  refine ⟨_, _, hfirst, ?_⟩
  rw [← words_trim, h, words_eq_firstWord, hfirst, if_neg (List.cons_ne_nil _ _)]

end ExprMachine.Text
