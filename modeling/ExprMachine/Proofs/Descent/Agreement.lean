import ExprMachine.Proofs.Descent.Operands

/-!
# The descent compiles

The descent comes to its end with the chunk or the diagnostic that compiling the text gives: token
by token it stays where the parser is, and at the end of the text it has emitted the whole tree.

* `outcome` — what compiling comes to, by what parsing does;
* `ends_of_needsOperand`, `ends_of_operator`, `ends_of_no_operator` — a token;
* `ends_of_needsOperand_nil`, `ends_of_hasOperand_nil` — the end of the text;
* `compiles_of_matches` — all tokens that are left;
* `descent_ends` — whole texts.
-/

namespace ExprMachine

namespace Descent

/-! ### The tokens that are left -/

/-- What compiling comes to, by what parsing does. -/
def outcome (id : HeapId) (parsed : Except Diagnostic (Expr × Nat)) : Except Diagnostic Chunk :=
  parsed.map fun (e, line) => (e.emit (.empty id)).writeOp .halt line

/-- Wherever the descent mirrors the parser, with some tokens left, it ends with what the parser makes
of them. -/
def Compiles (id : HeapId) (ts : List Token) (ending : Cursor.Ending) : Prop :=
  ∀ state s, Mirrors id state s → Ahead s.current s.cursor ts ending →
    Ends s (outcome id (parseFrom .standard state ts ending))

section Tokens

variable {s : Descent} {r : Except Diagnostic Chunk} {id : HeapId} {pending : List Pending}
  {constants : Nat} {e : Expr} {t : Token} {ts : List Token} {ending : Cursor.Ending}
  {state : ParserState}

/-- Where no token can be read, that is what is reported. -/
theorem outcome_of_lexical {err : LexicalError} {line : Nat} (hlast : ts = [])
    (hending : ending = .error err line) :
    outcome id (parseFrom .standard state ts ending) = .error (err.diagnostic line) := by
  rw [hlast, hending]
  rfl

/-- A lexical error behind a token is what is reported, even if the token begins no operand. -/
theorem parseFrom_error_behind (err : LexicalError) (line : Nat) :
    parseFrom .standard (.needsOperand pending constants) [t] (.error err line) =
      .error (err.diagnostic line) := by
  cases hstep : ParserState.step .standard (.needsOperand pending constants) t with
  | ok next =>
    rw [parseFrom_cons_of_ok hstep]
    rfl
  | error c =>
    simp only [ParserState.step] at hstep
    simp only [parseFrom, hstep, refusal]

/-- Where an operand must begin, and there is a token. -/
theorem ends_of_needsOperand (h : Mirrors id (.needsOperand pending constants) s)
    (hahead : Ahead s.current s.cursor (t :: ts) ending) (hmatches : Matches t.kind t.text)
    (ih : Compiles id ts ending) :
    Ends s (outcome id
      (parseFrom .standard (.needsOperand pending constants) (t :: ts) ending)) := by
  have hcount := h.depth_eq
  cases h with
  | @needsOperand _ _ floor _ hwaiting hpoint hdepth hle hconstants =>
    have hcurrent := hahead.current_eq
    refine .of_step ?_
    simp only [step, hpoint]
    refine ends_of_advance hahead hcount ?_ ?_
    · -- The next token is looked at before this one is judged, so its error comes first.
      intro err line hlast hending
      obtain rfl : ts = [] := hlast
      rw [hending, parseFrom_error_behind]
      rfl
    · intro cursor current hbehind
      have hrefused : RefusedEnds pending constants t (outcome id
          (parseFrom .standard (.needsOperand pending constants) (t :: ts) ending)) := by
        intro c hstep
        have hrefusal : refusal c t ts ending = c.atToken t := by cases hbehind <;> rfl
        simp only [ParserState.step] at hstep
        simp only [parseFrom, hstep, hrefusal]
        rfl
      split
      · rename_i hdeep
        rw [hrefused .nestsTooDeeply (if_pos (hdepth ▸ hdeep.ge)), complain, hcurrent]
        exact ends_of_failed rfl hcount
      · rename_i hroom
        have hopened : Opened id pending constants t floor s.calls
            { s with
              cursor, current
              previous := s.current
              depth := s.depth + 1
              calls := .operand floor :: s.calls
              point := .opening } :=
          ⟨hwaiting, rfl, rfl, hcurrent, congrArg (· + 1) hdepth, Nat.lt_of_le_of_ne hle hroom,
            hconstants⟩
        refine ends_of_opened hopened ?_ hrefused hmatches
        intro next s' hstep hmirrors hsame hcursor
        rw [parseFrom_cons_of_ok hstep]
        refine ih next s' hmirrors ?_
        rwa [hsame, hcursor]

/-- Where an operand must begin, and the text ends. -/
theorem ends_of_needsOperand_nil (h : Mirrors id (.needsOperand pending constants) s)
    (hahead : Ahead s.current s.cursor [] ending) :
    Ends s (outcome id (parseFrom .standard (.needsOperand pending constants) [] ending)) := by
  have hcount := h.depth_eq
  cases h with
  | needsOperand hwaiting hpoint hdepth hle hconstants =>
    obtain ⟨line, hcurrent, -, rfl⟩ := hahead.of_nil
    refine .of_step ?_
    simp only [step, hpoint]
    refine ends_of_advance hahead hcount (fun _ _ _ hending => by cases hending) ?_
    intro cursor current _
    split
    · rename_i hdeep
      have hfinish : ParserState.finish .standard line (.needsOperand pending constants) =
          .error (Complaint.nestsTooDeeply.atEnd line) := if_pos (hdepth ▸ hdeep.ge)
      simp only [parseFrom, hfinish]
      rw [complain, hcurrent]
      exact ends_of_failed rfl hcount
    · rename_i hroom
      have hfinish : ParserState.finish .standard line (.needsOperand pending constants) =
          .error (Complaint.expectExpression.atEnd line) := by
        refine if_neg fun hdeep => ?_
        exact hroom (Nat.le_antisymm hle (hdepth ▸ hdeep))
      refine .of_step ?_
      simp only [parseFrom, hfinish, step, opening, hcurrent]
      refine ends_of_failed rfl ?_
      show s.depth + 1 = (Call.operand _ :: s.calls).countP Call.isOperand
      rw [List.countP_cons_of_pos rfl, hcount]

/-- Behind an operand in a group, the group wants to be closed. -/
theorem ends_of_unclosed {outer : List Pending}
    (h : Mirrors id (.hasOperand (.group :: outer) constants e) s)
    (hbinds : (Precedence.ofOperator s.current.kind?).strength = 0)
    (hkind : s.current.kind? ≠ some .rightParen) :
    Ends s (.error (s.current.diagnostic .expectClosingParen)) := by
  cases h with
  | hasOperand hwaiting hcalls _ _ hpoint hdepth _ _ =>
    have hcount := hwaiting.countP_eq
    cases hwaiting with
    | group hwaiting =>
      refine ends_of_leave hpoint hcalls (by omega) (hbinds ▸ Nat.not_succ_le_zero 0) ?_
      rw [resume, if_neg hkind]
      refine ends_of_failed rfl (Eq.trans ?_ hcount.symm)
      show s.depth - 1 = _
      rw [hdepth, Nat.add_sub_cancel]

/-- The group is closed. -/
theorem ends_of_closed {outer : List Pending}
    (h : Mirrors id (.hasOperand (.group :: outer) constants e) s)
    (hahead : Ahead s.current s.cursor (t :: ts) ending) (hclosing : t.kind = .rightParen)
    (hlexical : ∀ err line, ts = [] → ending = .error err line → r = .error (err.diagnostic line))
    (hrest : ∀ s', Mirrors id (.hasOperand outer constants (.group e t.line)) s' →
      Ahead s'.current s'.cursor ts ending → Ends s' r) : Ends s r := by
  have hkind : s.current.kind? = some .rightParen := by
    rw [hahead.current_eq, ← hclosing]
    rfl
  have hline : s.current.line = t.line := congrArg Mark.line hahead.current_eq
  cases h with
  | hasOperand hwaiting hcalls hchunk _ hpoint hdepth hle hconstants =>
    have hcount := hwaiting.countP_eq
    cases hwaiting with
    | group hwaiting =>
      refine ends_of_leave hpoint hcalls (by omega) ?_ ?_
      · rw [hkind]
        decide
      · rw [resume, if_pos hkind]
        refine ends_of_advance hahead (Eq.trans ?_ hcount.symm) hlexical ?_
        · show s.depth - 1 = _
          rw [hdepth, Nat.add_sub_cancel]
        · intro cursor current hbehind
          refine hrest _ ?_ hbehind
          refine .hasOperand hwaiting rfl hchunk hline rfl ?_ ?_ hconstants
          · show s.depth - 1 = outer.length + 1
            rw [hdepth]
            rfl
          · exact Nat.le_trans (Nat.sub_le _ _) hle

/-- Behind the whole expression, the text wants to end. -/
theorem ends_of_more (h : Mirrors id (.hasOperand [] constants e) s)
    (hbinds : (Precedence.ofOperator s.current.kind?).strength = 0)
    (hkind : s.current.kind? ≠ none) :
    Ends s (.error (s.current.diagnostic .expectEnd)) := by
  cases h with
  | hasOperand hwaiting hcalls _ _ hpoint hdepth _ _ =>
    cases hwaiting with
    | nil =>
      refine ends_of_leave hpoint hcalls (by omega) (hbinds ▸ Nat.not_succ_le_zero 0) ?_
      rw [resume, if_neg hkind]
      refine ends_of_failed rfl ?_
      show s.depth - 1 = 0
      rw [hdepth]
      rfl

/-- The text ends. -/
theorem ends_of_whole {line : Nat} (h : Mirrors id (.hasOperand [] constants e) s)
    (hahead : Ahead s.current s.cursor [] (.endOfText line)) :
    Ends s (.ok ((e.emit (.empty id)).writeOp .halt line)) := by
  obtain ⟨_, hcurrent, -, hending⟩ := hahead.of_nil
  cases hending
  have hkind : s.current.kind? = none := congrArg Mark.kind? hcurrent
  cases h with
  | hasOperand hwaiting hcalls hchunk _ hpoint hdepth _ _ =>
    cases hwaiting with
    | nil =>
      refine ends_of_leave hpoint hcalls (by omega) ?_ ?_
      · rw [hkind]
        decide
      · rw [resume, if_pos hkind]
        refine ends_of_advance hahead ?_ (fun _ _ _ hending => by cases hending) ?_
        · show s.depth - 1 = 0
          rw [hdepth]
          rfl
        · intro cursor current _
          refine ⟨0, ?_⟩
          show some (Except.ok (s.chunk.writeOp .halt s.current.line)) = _
          rw [hchunk, hcurrent]
          rfl

/-- Behind an operand, and the text ends. -/
theorem ends_of_hasOperand_nil (h : Mirrors id (.hasOperand pending constants e) s)
    (hahead : Ahead s.current s.cursor [] ending) :
    Ends s (outcome id (parseFrom .standard (.hasOperand pending constants e) [] ending)) := by
  obtain ⟨line, hcurrent, -, rfl⟩ := hahead.of_nil
  have hbinds : (Precedence.ofOperator s.current.kind?).strength = 0 := by
    rw [hcurrent]
    rfl
  refine ends_of_unwind 0 h (by omega) ?_
  intro s' h' hcurrent' hcursor'
  rw [← hcurrent'] at hbinds hahead hcurrent
  rw [← hcursor'] at hahead
  rcases unwind_zero_cases pending e with ⟨-, outer, inner, hunwind⟩ | ⟨-, whole, hunwind⟩
  · have hfinish : parseFrom .standard (.hasOperand pending constants e) [] (.endOfText line) =
        .error (Complaint.expectClosingParen.atEnd line) := by
      simp only [parseFrom, ParserState.finish, hunwind]
      rfl
    rw [hunwind] at h'
    have hopen : s'.current.kind? ≠ some .rightParen := by
      intro heq
      rw [hcurrent] at heq
      cases heq
    have hends := ends_of_unclosed h' hbinds hopen
    rw [hcurrent] at hends
    rwa [hfinish]
  · have hfinish : parseFrom .standard (.hasOperand pending constants e) [] (.endOfText line) =
        .ok (whole, line) := by
      simp only [parseFrom, ParserState.finish, hunwind]
      rfl
    rw [hunwind] at h'
    rw [hfinish]
    exact ends_of_whole h' hahead

/-- Behind an operand, and there is an operator. -/
theorem ends_of_operator {op : BinaryOp}
    (h : Mirrors id (.hasOperand pending constants e) s)
    (hahead : Ahead s.current s.cursor (t :: ts) ending) (hop : BinaryOp.ofToken? t.kind = some op)
    (ih : Compiles id ts ending) :
    Ends s (outcome id
      (parseFrom .standard (.hasOperand pending constants e) (t :: ts) ending)) := by
  have hbinds : (Precedence.ofOperator s.current.kind?).strength = op.rank + 1 := by
    rw [hahead.current_eq]
    exact strength_of_ofToken? hop
  refine ends_of_unwind op.rank h (by omega) ?_
  intro s' h' hcurrent hcursor
  rw [← hcurrent, ← hcursor] at hahead
  rw [← hcurrent] at hbinds
  have hcount := h'.depth_eq
  rcases hunwind : unwind op.rank pending e with ⟨outer, left⟩
  rw [parseFrom_cons_of_ok (step_operator hop hunwind)]
  cases h' with
  | hasOperand hwaiting hcalls hchunk _ hpoint hdepth hle hconstants =>
    have hfloor := hwaiting.floor_le_of_unwind
    refine .of_step ?_
    rw [step_returned hpoint hcalls, resume, if_pos (by omega)]
    refine ends_of_advance hahead hcount ?_ ?_
    · exact fun err line hlast hending => outcome_of_lexical hlast hending
    · intro cursor current hbehind
      refine .of_step (ih _ _ ?_ hbehind)
      rw [hunwind] at hwaiting hchunk hdepth
      have hkind : s'.current.kind? = some t.kind := congrArg Mark.kind? hahead.current_eq
      refine .needsOperand ?_ (congrArg (fun kind? => Point.operand (.next (.ofOperator kind?))) hkind)
        hdepth hle hconstants
      show Waiting id _ _ (.binary s'.current.kind? :: s'.calls) s'.chunk
      rw [hkind, hcalls, hchunk]
      exact .binary hop hwaiting

/-- Behind an operand, and there is a token that is no operator. -/
theorem ends_of_no_operator (h : Mirrors id (.hasOperand pending constants e) s)
    (hahead : Ahead s.current s.cursor (t :: ts) ending) (hop : BinaryOp.ofToken? t.kind = none)
    (ih : Compiles id ts ending) :
    Ends s (outcome id
      (parseFrom .standard (.hasOperand pending constants e) (t :: ts) ending)) := by
  have hcurrent := hahead.current_eq
  have hbinds : (Precedence.ofOperator s.current.kind?).strength = 0 := by
    rw [hcurrent]
    exact congrArg Precedence.strength (ofOperator_of_ofToken?_none hop)
  refine ends_of_unwind 0 h (by omega) ?_
  intro s' h' hcurrent' hcursor'
  rw [← hcurrent'] at hbinds hahead hcurrent
  rw [← hcursor'] at hahead
  have hkind : s'.current.kind? = some t.kind := congrArg Mark.kind? hcurrent
  rcases unwind_zero_cases pending e with ⟨-, outer, inner, hunwind⟩ | ⟨-, whole, hunwind⟩
  · rw [hunwind] at h'
    by_cases hclosing : t.kind = .rightParen
    · rw [parseFrom_cons_of_ok (step_closing hclosing hunwind)]
      exact ends_of_closed h' hahead hclosing
        (fun err line hlast hending => outcome_of_lexical hlast hending) (ih _)
    · have hrefused : outcome id
          (parseFrom .standard (.hasOperand pending constants e) (t :: ts) ending) =
            .error (Complaint.expectClosingParen.atToken t) := by
        simp only [parseFrom, takeOperator, hop, hunwind, if_neg hclosing]
        rfl
      have hopen : s'.current.kind? ≠ some .rightParen := by
        rw [hkind]
        exact fun heq => hclosing (Option.some.inj heq)
      have hends := ends_of_unclosed h' hbinds hopen
      rw [hcurrent] at hends
      rwa [hrefused]
  · have hrefused : outcome id
        (parseFrom .standard (.hasOperand pending constants e) (t :: ts) ending) =
          .error (Complaint.expectEnd.atToken t) := by
      simp only [parseFrom, takeOperator, hop, hunwind]
      rfl
    rw [hunwind] at h'
    have hends := ends_of_more h' hbinds (hkind ▸ Option.some_ne_none t.kind)
    rw [hcurrent] at hends
    rwa [hrefused]

/-- **Any tokens that are left.** -/
theorem compiles_of_matches (hmatches : ∀ t ∈ ts, Matches t.kind t.text) :
    Compiles id ts ending := by
  -- Each token that is accepted leads to a state that the descent mirrors again.
  induction ts with
  | nil =>
    intro state s h hahead
    cases state with
    | needsOperand pending constants => exact ends_of_needsOperand_nil h hahead
    | hasOperand pending constants e => exact ends_of_hasOperand_nil h hahead
  | cons t ts ih =>
    obtain ⟨hmatches, hbehind⟩ := List.forall_mem_cons.1 hmatches
    have hrest : Compiles id ts ending := ih hbehind
    intro state s h hahead
    cases state with
    | needsOperand pending constants => exact ends_of_needsOperand h hahead hmatches hrest
    | hasOperand pending constants e =>
      cases hop : BinaryOp.ofToken? t.kind with
      | some op => exact ends_of_operator h hahead hop hrest
      | none => exact ends_of_no_operator h hahead hop hrest

end Tokens

/-- **The descent compiles**: it comes to its end with what compiling the text gives. -/
theorem descent_ends (id : HeapId) (source : String) :
    Ends (start id source) (compile id source) := by
  rcases htokens : (Cursor.start source.toList).tokens with ⟨ts, ending⟩
  have hscans := Cursor.tokens_eq_iff.1 htokens
  have hcompile : compile id source = outcome id (parseFrom .standard .start ts ending) := by
    rw [compile, parse, htokens]
    rfl
  have hbegin {cursor : Cursor} {current : Mark} (hahead : Ahead current cursor ts ending) :
      Ends ({ start id source with cursor, current, previous := .endOfText 1 }.call .text
        .assignment) (outcome id (parseFrom .standard .start ts ending)) :=
    compiles_of_matches hscans.matches _ _ (.needsOperand .nil rfl rfl (Nat.zero_le _) rfl) hahead
  rw [hcompile]
  refine .of_step ?_
  show Ends ((start id source).advance fun s => s.call .text .assignment) _
  rw [advance]
  rcases hitem : (start id source).cursor.next with ⟨item, after⟩
  change (Cursor.start source.toList).next = _ at hitem
  cases hscans with
  | endOfText hend =>
    have hnext := Cursor.next_of_endOfText hend
    rw [hitem] at hnext
    cases hnext
    exact hbegin .endOfText
  | error herror =>
    rw [hitem] at herror
    cases herror
    exact ends_of_failed rfl rfl
  | token htoken hrest =>
    rw [hitem] at htoken hrest
    cases htoken
    exact hbegin (.token hrest)

end Descent

end ExprMachine
