import ExprMachine.Proofs.Assembly.Quoting

/-!
# Strings as the two readers see them

The reader for strings looks at the first and the last quote of a text and at its backslashes, the
reader for comments at every quote. They agree on the texts in which all quotes but those two have a
backslash before them.

* `Body`, `Quotes` — the texts of strings, for what may stand in them by itself;
* `readQuoted_iff` — the texts that are read as strings;
* `EndsOnce` — the reader for comments is outside the string only behind the text;
* `quotes_strict_iff` — which of the texts that are read as strings are of that kind.
-/

namespace ExprMachine.Assembly

/-! ### Quoted strings as they are read -/

/-- The text between two quotes and the characters that it stands for: after a backslash any
character, and the characters in `bare` by themselves. -/
inductive Body (bare : Char → Prop) : List Char → List Char → Prop
  | nil : Body bare [] []
  | bare {c : Char} {s cs : List Char} : bare c → Body bare s cs → Body bare (c :: s) (c :: cs)
  | escape {s cs : List Char} (c : Char) : Body bare s cs →
      Body bare ('\\' :: c :: s) (unescaped c :: cs)

/-- A quote, a body and a quote. -/
def Quotes (bare : Char → Prop) (s cs : List Char) : Prop :=
  ∃ body, s = '"' :: (body ++ ['"']) ∧ Body bare body cs

/-- What may stand by itself as strings are read. -/
def Loose (c : Char) : Prop := c ≠ '\\'

/-- What may stand by itself if every quote has a backslash. -/
def Strict (c : Char) : Prop := c ≠ '\\' ∧ c ≠ '"'

theorem readBody_iff {read s t : List Char} :
    readBody read s = .ok t ↔ ∃ cs, t = read.reverse ++ cs ∧ Body Loose s cs := by
  fun_induction readBody read s with
  | case1 read =>
    constructor
    · intro h
      cases h
      exact ⟨[], (List.append_nil _).symm, .nil⟩
    · rintro ⟨cs, rfl, hbody⟩
      cases hbody
      rw [List.append_nil]
  | case2 read =>
    refine ⟨nofun, ?_⟩
    rintro ⟨cs, -, hbody⟩
    cases hbody with
    | bare hc _ => exact absurd rfl hc
  | case3 read c rest ih =>
    rw [ih]
    constructor
    · rintro ⟨cs, rfl, hbody⟩
      exact ⟨unescaped c :: cs, by simp, .escape c hbody⟩
    · rintro ⟨cs, rfl, hbody⟩
      cases hbody with
      | bare hc _ => exact absurd rfl hc
      | escape _ hrest => exact ⟨_, by simp, hrest⟩
  | case4 read c rest hlast hescape ih =>
    have hc : c ≠ '\\' := by
      rintro rfl
      cases rest with
      | nil => exact hlast rfl rfl
      | cons d rest => exact hescape d rest rfl rfl
    rw [ih]
    constructor
    · rintro ⟨cs, rfl, hbody⟩
      exact ⟨c :: cs, by simp, .bare hc hbody⟩
    · rintro ⟨cs, rfl, hbody⟩
      cases hbody with
      | bare _ hrest => exact ⟨_, by simp, hrest⟩
      | escape _ _ => exact absurd rfl hc

theorem readQuoted_iff {s cs : List Char} : readQuoted s = .ok cs ↔ Quotes Loose s cs := by
  constructor
  · intro h
    unfold readQuoted at h
    split at h
    · cases h
    · rename_i hclosed
      obtain ⟨hlong, hhead, hlast⟩ : 2 ≤ s.length ∧ s.head? = some '"' ∧ s.getLast? = some '"' := by
        simpa only [not_or, Nat.not_lt, ne_eq, not_not] using hclosed
      obtain ⟨rest, rfl⟩ := List.head?_eq_some_iff.1 hhead
      have hne : rest ≠ [] := by
        rintro rfl
        exact absurd hlong (by decide)
      rw [List.getLast?_cons_of_ne_nil hne] at hlast
      obtain ⟨body, rfl⟩ := List.getLast?_eq_some_iff.1 hlast
      rw [List.drop_one, List.tail_cons, List.dropLast_concat] at h
      obtain ⟨cs', hcs, hbody⟩ := readBody_iff.1 h
      exact ⟨body, rfl, hcs ▸ hbody⟩
  · rintro ⟨body, rfl, hbody⟩
    have hlast : ('"' :: (body ++ ['"'])).getLast? = some '"' := by
      rw [← List.cons_append, List.getLast?_concat]
    have hclosed : ¬ (('"' :: (body ++ ['"'])).length < 2 ∨
        ('"' :: (body ++ ['"'])).head? ≠ some '"' ∨
        ('"' :: (body ++ ['"'])).getLast? ≠ some '"') := by
      rintro (h | h | h)
      · rw [List.length_cons, List.length_append, List.length_singleton] at h
        omega
      · exact h rfl
      · exact h hlast
    rw [readQuoted, if_neg hclosed, List.drop_one, List.tail_cons, List.dropLast_concat]
    exact readBody_iff.2 ⟨cs, rfl, hbody⟩

/-- A text that ends otherwise is no string. -/
theorem not_quotes_concat {bare : Char → Prop} {s cs : List Char} {c : Char} (hc : c ≠ '"') :
    ¬ Quotes bare (s ++ [c]) cs := by
  rintro ⟨body, hs, -⟩
  rw [← List.cons_append] at hs
  exact hc (List.singleton_inj.1 (List.append_inj' hs rfl).2)

/-! ### Quotes as the reader for comments sees them -/

/-- The reader for comments leaves the string only at its end. -/
def EndsOnce (s : List Char) : Prop :=
  ∀ start, start <+: s → start ≠ [] → Mode.code.after start = .code → start = s

theorem quoted_next {c : Char} (h : Strict c) : Mode.quoted.next c = .quoted := by
  show (if c = '\\' then Mode.escaped else if c = '"' then .code else .quoted) = .quoted
  rw [if_neg h.1, if_neg h.2]

/-- With a backslash before every quote the string ends at the last one. -/
theorem Body.ends {s cs start : List Char} (h : Body Strict s cs) (hstart : start <+: s ++ ['"'])
    (hmode : Mode.quoted.after start = .code) : start = s ++ ['"'] := by
  induction h generalizing start with
  | nil =>
    rcases List.prefix_cons_iff.1 hstart with rfl | ⟨rest, rfl, hrest⟩
    · cases hmode
    · rw [List.prefix_nil.1 hrest]
      rfl
  | bare hc _ ih =>
    rw [List.cons_append] at hstart ⊢
    rcases List.prefix_cons_iff.1 hstart with rfl | ⟨rest, rfl, hrest⟩
    · cases hmode
    · have hmode' : (Mode.quoted.next _).after rest = .code := hmode
      rw [quoted_next hc] at hmode'
      rw [ih hrest hmode']
  | escape c _ ih =>
    rw [List.cons_append, List.cons_append] at hstart ⊢
    rcases List.prefix_cons_iff.1 hstart with rfl | ⟨rest, rfl, hrest⟩
    · cases hmode
    · rcases List.prefix_cons_iff.1 hrest with rfl | ⟨tail, rfl, htail⟩
      · cases hmode
      · have hmode' : Mode.quoted.after tail = .code := hmode
        rw [ih htail hmode']

/-- If the string ends only at the last quote, every other has a backslash before it. -/
theorem Body.strict {s cs : List Char} (h : Body Loose s cs)
    (hends : ∀ start, start <+: s ++ ['"'] → Mode.quoted.after start = .code →
      start = s ++ ['"']) : Body Strict s cs := by
  induction h with
  | nil => exact .nil
  | @bare c s cs hc _ ih =>
    have hquote : c ≠ '"' := by
      rintro rfl
      have hearly := hends ['"'] (List.prefix_append ['"'] (s ++ ['"'])) rfl
      simp at hearly
    refine .bare ⟨hc, hquote⟩ (ih fun start hstart hmode => ?_)
    have hmode' : Mode.quoted.after (c :: start) = .code := by
      show (Mode.quoted.next c).after start = .code
      rw [quoted_next ⟨hc, hquote⟩, hmode]
    exact List.cons.inj (hends (c :: start) (List.prefix_cons_inj c |>.2 hstart) hmode') |>.2
  | @escape s cs c _ ih =>
    refine .escape c (ih fun start hstart hmode => ?_)
    have hprefix : '\\' :: c :: start <+: '\\' :: c :: (s ++ ['"']) :=
      (List.prefix_cons_inj _).2 ((List.prefix_cons_inj _).2 hstart)
    have hwhole := hends ('\\' :: c :: start) hprefix hmode
    exact List.cons.inj (List.cons.inj hwhole).2 |>.2

theorem Body.loose {s cs : List Char} (h : Body Strict s cs) : Body Loose s cs := by
  induction h with
  | nil => exact .nil
  | bare hc _ ih => exact .bare hc.1 ih
  | escape c _ ih => exact .escape c ih

/-- **The two readers agree on the strings whose quotes all have a backslash** but the first and the
last. -/
theorem quotes_strict_iff {s cs : List Char} :
    Quotes Strict s cs ↔ Quotes Loose s cs ∧ EndsOnce s := by
  constructor
  · rintro ⟨body, rfl, hbody⟩
    refine ⟨⟨body, rfl, hbody.loose⟩, ?_⟩
    intro start hstart hne hmode
    rcases List.prefix_cons_iff.1 hstart with rfl | ⟨rest, rfl, hrest⟩
    · exact absurd rfl hne
    · rw [hbody.ends hrest hmode]
  · rintro ⟨⟨body, rfl, hbody⟩, hends⟩
    refine ⟨body, rfl, hbody.strict fun start hstart hmode => ?_⟩
    have hwhole := hends ('"' :: start) ((List.prefix_cons_inj _).2 hstart)
      (List.cons_ne_nil _ _) hmode
    exact (List.cons.inj hwhole).2

theorem Body.after_eq {s cs : List Char} (h : Body Strict s cs) :
    Mode.quoted.after (s ++ ['"']) = .code := by
  induction h with
  | nil => rfl
  | @bare c s cs hc _ ih =>
    show (Mode.quoted.next c).after (s ++ ['"']) = .code
    rw [quoted_next hc, ih]
  | escape c _ ih => exact ih

theorem Quotes.after_strict {s cs : List Char} (h : Quotes Strict s cs) :
    Mode.code.after s = .code := by
  obtain ⟨body, rfl, hbody⟩ := h
  exact hbody.after_eq

/-- Behind a string the reader for comments is outside, or inside another one. -/
theorem Quotes.after_eq {bare : Char → Prop} {s cs : List Char} (h : Quotes bare s cs) :
    Mode.code.after s = .code ∨ Mode.code.after s = .quoted := by
  obtain ⟨body, rfl, -⟩ := h
  rw [← List.cons_append, Mode.after_append]
  cases Mode.code.after ('"' :: body) with
  | code => exact .inr rfl
  | quoted => exact .inl rfl
  | escaped => exact .inr rfl

end ExprMachine.Assembly
