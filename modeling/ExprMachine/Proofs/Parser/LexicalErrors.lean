import ExprMachine.Proofs.Parser.Diagnosis

/-!
# Lexical errors among the others

The parser has one token in hand before it judges the token before it. Where an operand must begin
it judges a token only once the next one has been read, and between operands before that: so a
lexical error comes ahead of what is wrong with the last token before it in the one case and not in
the other.

* `Faultless` — no token does anything wrong where it stands, `faultless_iff_feed`;
* `parseFrom_eq_lexical_error_iff` — when a parse ends with a lexical error;
* `begins_concat_iff` — an expression goes on with the token exactly if an operand begins with it;
* `compile_eq_lexical_error_iff` — the texts whose diagnostic is about a lexical error.
-/

namespace ExprMachine

open ParserState

variable {limits : Limits} {state : ParserState} {ts : List Token} {t : Token} {c : Complaint}

/-! ### Tokens that do nothing wrong -/

/-- No token does anything wrong behind those before it. -/
def Faultless (limits : Limits) (ts : List Token) : Prop :=
  ∀ before t rest c, ts = before ++ t :: rest → ¬ Offends limits before (some t) c

/-- The first token that is refused, with the state that refuses it. -/
theorem feed_eq_error (h : state.feed limits ts = .error c) :
    ∃ before t rest last, ts = before ++ t :: rest ∧ state.feed limits before = .ok last ∧
      last.step limits t = .error c := by
  induction ts generalizing state with
  | nil => cases h
  | cons t ts ih =>
    cases hstep : state.step limits t with
    | error c' =>
      simp only [feed, hstep] at h
      cases h
      exact ⟨[], t, ts, state, rfl, rfl, hstep⟩
    | ok next =>
      rw [feed_cons hstep] at h
      obtain ⟨before, t', rest, last, rfl, hfeed, hrefused⟩ := ih h
      exact ⟨t :: before, t', rest, last, rfl, by rw [feed_cons hstep, hfeed], hrefused⟩

/-- Tokens are accepted exactly if none of them does anything wrong. -/
theorem faultless_iff_feed (hread : ∀ t ∈ ts, t.IsReadable) :
    Faultless limits ts ↔ ∃ last, start.feed limits ts = .ok last := by
  constructor
  · intro hfaultless
    cases hfeed : start.feed limits ts with
    | ok last => exact ⟨last, rfl⟩
    | error c =>
      obtain ⟨before, t, rest, last, rfl, hbefore, hrefused⟩ := feed_eq_error hfeed
      obtain ⟨hreadbefore, hreadrest⟩ := List.forall_mem_append.1 hread
      have ht : t.IsReadable := hreadrest t List.mem_cons_self
      have hoffends := (step_eq_error_iff_offends hreadbefore hbefore ht).1 hrefused
      exact absurd hoffends (hfaultless before t rest c rfl)
  · rintro ⟨last, hfeed⟩ before t rest c rfl hoffends
    obtain ⟨middle, hbefore, hrest⟩ := feed_append_eq_ok hfeed
    obtain ⟨next, hstep, -⟩ := feed_cons_eq_ok hrest
    obtain ⟨hreadbefore, hreadrest⟩ := List.forall_mem_append.1 hread
    have ht : t.IsReadable := hreadrest t List.mem_cons_self
    have hrefused := (step_eq_error_iff_offends hreadbefore hbefore ht).2 hoffends
    rw [hstep] at hrefused
    cases hrefused

/-! ### Parses that end with a lexical error -/

theorem parseFrom_append_of_feed {next : ParserState} {ending : Cursor.Ending}
    (h : state.feed limits ts = .ok next) (us : List Token) :
    parseFrom limits state (ts ++ us) ending = parseFrom limits next us ending := by
  induction ts generalizing state with
  | nil =>
    cases h
    rfl
  | cons t ts ih =>
    obtain ⟨middle, hstep, hrest⟩ := feed_cons_eq_ok h
    rw [List.cons_append, parseFrom_cons_of_ok hstep, ih hrest]

/-- What is reported where a token is refused. -/
theorem parseFrom_cons_eq_error {ending : Cursor.Ending} {d : Diagnostic}
    (hrefused : state.step limits t = .error c) (us : List Token) :
    parseFrom limits state (t :: us) ending = .error d ↔
      d = match state with
        | .needsOperand _ _ => refusal c t us ending
        | .hasOperand _ _ _ => c.atToken t := by
  cases state with
  | needsOperand pending constants =>
    simp only [step] at hrefused
    simp only [parseFrom, hrefused, Except.error.injEq, eq_comm]
  | hasOperand pending constants operand =>
    simp only [step] at hrefused
    simp only [parseFrom, hrefused, Except.error.injEq, eq_comm]

/-- No complaint of the parser is about a lexical error; the end of the text does not change that.
-/
theorem location_of_finish {line : Nat} {d : Diagnostic}
    (h : state.finish limits line = .error d) : d.location ≠ .lexical := by
  cases state with
  | needsOperand pending constants =>
    obtain ⟨c, rfl, -⟩ := finish_needsOperand_eq_error_iff.1 h
    exact nofun
  | hasOperand pending constants operand =>
    obtain ⟨c, rfl, -⟩ := finish_hasOperand_eq_error_iff.1 h
    exact nofun

/-- **Parses that end with a lexical error.** Either all tokens before it are accepted, or all but
the last, which is refused where an operand must begin. -/
theorem parseFrom_eq_lexical_error_iff {ending : Cursor.Ending} {d : Diagnostic} :
    parseFrom limits state ts ending = .error d ∧ d.location = .lexical ↔
      ∃ err line, ending = .error err line ∧ d = err.diagnostic line ∧
        ((∃ last, state.feed limits ts = .ok last) ∨
          ∃ before t pending constants c, ts = before ++ [t] ∧
            state.feed limits before = .ok (.needsOperand pending constants) ∧
            step limits (.needsOperand pending constants) t = .error c) := by
  constructor
  · rintro ⟨hparse, hlexical⟩
    cases hfeed : state.feed limits ts with
    | ok last =>
      rw [← List.append_nil ts, parseFrom_append_of_feed hfeed] at hparse
      cases ending with
      | error err line =>
        cases hparse
        exact ⟨err, line, rfl, rfl, .inl ⟨last, rfl⟩⟩
      | endOfText line =>
        simp only [parseFrom] at hparse
        cases hfinish : last.finish limits line with
        | ok e =>
          rw [hfinish] at hparse
          cases hparse
        | error d' =>
          rw [hfinish] at hparse
          cases hparse
          exact absurd hlexical (location_of_finish hfinish)
    | error c =>
      obtain ⟨before, t, rest, last, rfl, hbefore, hrefused⟩ := feed_eq_error hfeed
      rw [parseFrom_append_of_feed hbefore, parseFrom_cons_eq_error hrefused] at hparse
      cases last with
      | hasOperand pending constants operand =>
        subst hparse
        cases hlexical
      | needsOperand pending constants =>
        simp only [refusal] at hparse
        split at hparse
        · rename_i err line
          exact ⟨err, line, rfl, hparse, .inr ⟨before, t, pending, constants, c, rfl, hbefore,
            hrefused⟩⟩
        · subst hparse
          cases hlexical
  · rintro ⟨err, line, rfl, rfl, ⟨last, hfeed⟩ | ⟨before, t, pending, constants, c, rfl, hbefore,
      hrefused⟩⟩
    · refine ⟨?_, rfl⟩
      rw [← List.append_nil ts, parseFrom_append_of_feed hfeed]
      rfl
    · refine ⟨?_, rfl⟩
      rw [parseFrom_append_of_feed hbefore, parseFrom_cons_eq_error hrefused]
      rfl

/-! ### Whether an expression goes on with the refused token -/

/-- Where an operand must begin, an expression goes on with a token exactly if an operand begins
with it. -/
theorem begins_concat_iff {before : List Token} {level : Nat} (hplace : AtOperand before level)
    (hread : ∀ u ∈ before, u.IsReadable) (ht : t.IsReadable) :
    Begins (before ++ [t]) ↔ t.BeginsOperand := by
  obtain ⟨pending, hopens, -⟩ := hplace
  constructor
  · rintro ⟨more, e, hmore, hderives⟩
    by_contra hnot
    -- without bounds in the way, the parser reads the whole expression, and so accepts the token
    have hwithin : e.Within ⟨e.nest, e.pooled.length⟩ := ⟨Nat.le_refl _, Nat.le_refl _⟩
    have hall : ∀ u ∈ before ++ [t] ++ more, u.IsReadable := by
      simp only [List.forall_mem_append, List.forall_mem_singleton]
      exact ⟨⟨hread, ht⟩, hmore⟩
    obtain ⟨last, hfeed, -⟩ := (feed_finish_iff hall 0).2 ⟨hderives, hwithin⟩
    rw [List.append_assoc] at hfeed
    obtain ⟨middle, hbefore, hrest⟩ := feed_append_eq_ok hfeed
    obtain rfl := needsOperand_of_opens hopens hread hbefore
    obtain ⟨next, hstep, -⟩ := feed_cons_eq_ok hrest
    rw [step_of_not_beginsOperand ht (lt_nesting_of_step hstep) hnot] at hstep
    cases hstep
  · rintro (hkind | ⟨op, hop⟩ | ⟨value, hvalue⟩)
    · have hreads : Reads (before ++ [t]) (.needsOperand (.group :: pending) 0) :=
        Opens.group hopens hkind
      exact hreads.begins
    · have hreads : Reads (before ++ [t]) (.needsOperand (.unary op :: pending) 0) :=
        Opens.unary hopens (UnaryOp.writtenBy_iff.1 hop)
      exact hreads.begins
    · have hreads : Reads (before ++ [t]) (.hasOperand pending 0 (.literal value t.line)) :=
        ⟨before, [t], rfl, hopens, .lift (by omega) (.literal hvalue)⟩
      exact hreads.begins

/-! ### Texts -/

/-- **The texts whose diagnostic is about a lexical error.** The tokens before the error do nothing
wrong, and an expression begins with them; or that holds of all but the last one, which stands where
an operand must begin and is itself what is wrong: it is passed over in silence, and an expression
begins with all of the tokens only if an operand begins with it. -/
theorem compile_eq_lexical_error_iff (id : HeapId) (source : String) (d : Diagnostic) :
    compile id source = .error d ∧ d.location = .lexical ↔
      ∃ ts err line, (Cursor.start source.toList).tokens = (ts, .error err line) ∧
        d = err.diagnostic line ∧
        ((Faultless .standard ts ∧ Begins ts) ∨
          ∃ before t level c, ts = before ++ [t] ∧ Faultless .standard before ∧ Begins before ∧
            AtOperand before level ∧ Offends .standard before (some t) c ∧
            (Begins ts ↔ t.BeginsOperand)) := by
  rw [compile_eq_error_iff, parse]
  generalize htokens : (Cursor.start source.toList).tokens = scanned
  obtain ⟨ts, ending⟩ := scanned
  have hread := isReadable_of_tokens_eq htokens
  rw [parseFrom_eq_lexical_error_iff]
  constructor
  · rintro ⟨err, line, rfl, rfl, ⟨last, hfeed⟩ | ⟨before, t, pending, constants, c, rfl, hfeed,
      hrefused⟩⟩
    · exact ⟨ts, err, line, rfl, rfl, .inl ⟨(faultless_iff_feed hread).2 ⟨last, hfeed⟩,
        (reads_of_feed hread hfeed).begins⟩⟩
    · obtain ⟨hbefore, hreadrest⟩ := List.forall_mem_append.1 hread
      have ht : t.IsReadable := hreadrest t List.mem_cons_self
      have hreads := reads_of_feed hbefore hfeed
      have hplace : AtOperand before (pending.length + 1) := ⟨pending, hreads, rfl⟩
      refine ⟨_, err, line, rfl, rfl, .inr ⟨before, t, pending.length + 1, c, rfl, ?_⟩⟩
      exact ⟨(faultless_iff_feed hbefore).2 ⟨_, hfeed⟩, hreads.begins, hplace,
        (step_eq_error_iff_offends hbefore hfeed ht).1 hrefused,
        begins_concat_iff hplace hbefore ht⟩
  · rintro ⟨ts', err, line, heq, rfl, hcases⟩
    obtain ⟨rfl, rfl⟩ := Prod.mk.inj heq
    refine ⟨err, line, rfl, rfl, ?_⟩
    rcases hcases with ⟨hfaultless, -⟩ |
      ⟨before, t, level, c, rfl, hfaultless, -, hplace, hoffends, -⟩
    · exact .inl ((faultless_iff_feed hread).1 hfaultless)
    · obtain ⟨hbefore, hreadrest⟩ := List.forall_mem_append.1 hread
      have ht : t.IsReadable := hreadrest t List.mem_cons_self
      obtain ⟨state, hfeed⟩ := (faultless_iff_feed hbefore).1 hfaultless
      obtain ⟨pending, rfl, -⟩ := atOperand_state hplace hbefore hfeed
      exact .inr ⟨before, t, pending, _, c, rfl, hfeed,
        (step_eq_error_iff_offends hbefore hfeed ht).2 hoffends⟩

/-- A closing parenthesis that nothing opened, then a character that is no token: what is reported
is the character, though no expression begins with the parenthesis before it. -/
theorem lexical_error_passes_over_token :
    let closing : Token := ⟨.rightParen, [')'], 1⟩
    compile ⟨1⟩ ") @" = .error ⟨1, .lexical, "Unexpected character."⟩ ∧
      (Cursor.start ") @".toList).tokens = ([closing], .error .unexpectedCharacter 1) ∧
      ¬ Begins [closing] := by
  intro closing
  have hparse : parse ") @".toList = .error ⟨1, .lexical, "Unexpected character."⟩ := by
    decide +kernel
  refine ⟨compile_eq_error_iff.2 hparse, by decide +kernel, ?_⟩
  have hplace : AtOperand [] 1 := ⟨[], .nil, rfl⟩
  have hread : closing.IsReadable := rfl
  rw [← List.nil_append [closing], begins_concat_iff hplace nofun hread]
  rintro (hkind | ⟨op, hop⟩ | ⟨value, hvalue⟩)
  · cases hkind
  · cases op <;> cases hop
  · cases hvalue

end ExprMachine
