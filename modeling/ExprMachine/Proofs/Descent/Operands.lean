import ExprMachine.Proofs.Descent.Mirror

/-!
# Operands in the descent

From a token that begins an operand, and from an operand that operators wait for, the descent comes
to where the parser is after the same token, or fails with the complaint of the parser.

* `Descent.Ends` — the descent comes to its end with an outcome;
* `ends_of_failed`, `ends_of_advance` — a failure, and looking at the next token;
* `ends_of_unwind` — operators that get their operand;
* `Opened`, `ends_of_opened` — a token that begins an operand, or is refused.
-/

namespace ExprMachine

namespace Descent

/-! ### Coming to an end -/

/-- The descent comes to its end with the outcome. -/
def Ends (s : Descent) (r : Except Diagnostic Chunk) : Prop := ∃ n, (step^[n] s).result? = some r

variable {s : Descent} {r : Except Diagnostic Chunk} {outer : List Call}

theorem Ends.of_step (h : Ends s.step r) : Ends s r := by
  obtain ⟨n, hn⟩ := h
  exact ⟨n + 1, hn⟩

theorem step_returned {call : Call} (hpoint : s.point = .returned)
    (hcalls : s.calls = call :: outer) : s.step = s.resume outer call := by
  simp only [step, hpoint, hcalls]

theorem step_failed {d : Diagnostic} {call : Call} (hpoint : s.point = .failed d)
    (hcalls : s.calls = call :: outer) : s.step = s.giveUp outer call := by
  simp only [step, hpoint, hcalls]

theorem leave_eq (hdepth : s.depth ≠ 0) :
    s.leave outer = { s with depth := s.depth - 1, calls := outer } := if_neg hdepth

/-- A failure goes through all calls that wait. -/
theorem ends_of_failed {d : Diagnostic} (hpoint : s.point = .failed d)
    (hdepth : s.depth = s.calls.countP Call.isOperand) : Ends s (.error d) := by
  generalize hcalls : s.calls = calls at hdepth
  induction calls generalizing s with
  | nil => exact ⟨0, by simp only [Function.iterate_zero_apply, result?, hcalls, hpoint]⟩
  | cons call outer ih =>
    refine .of_step ?_
    rw [step_failed hpoint hcalls]
    cases call with
    | operand floor =>
      rw [List.countP_cons_of_pos rfl] at hdepth
      rw [giveUp, leave_eq (by omega)]
      refine ih hpoint rfl ?_
      show s.depth - 1 = _
      omega
    | text | group | unary kind? | binary kind? =>
      rw [List.countP_cons_of_neg Bool.false_ne_true] at hdepth
      exact ih hpoint rfl hdepth

/-- Looking at the next token: the descent fails if none can be read, or goes on. -/
theorem ends_of_advance {proceed : Descent → Descent} {ts : List Token} {ending : Cursor.Ending}
    (hahead : Ahead s.current s.cursor ts ending)
    (hdepth : s.depth = s.calls.countP Call.isOperand)
    (hlexical : ∀ e line, ts.tail = [] → ending = .error e line → r = .error (e.diagnostic line))
    (hproceed : ∀ cursor current, Ahead current cursor ts.tail ending →
      Ends (proceed { s with cursor, current, previous := s.current }) r) :
    Ends (s.advance proceed) r := by
  rw [advance]
  generalize hcurrent : s.current = current at hahead hproceed ⊢
  generalize hcursor : s.cursor = cursor at hahead hproceed ⊢
  cases hahead with
  | endOfText => exact hproceed _ _ .endOfText
  | token hscans =>
    rcases hitem : cursor.next with ⟨item, after⟩
    cases hscans with
    | endOfText hend =>
      have hnext := Cursor.next_of_endOfText hend
      rw [hitem] at hnext
      cases hnext
      exact hproceed _ _ .endOfText
    | error herror =>
      rw [hitem] at herror
      cases herror
      rw [hlexical _ _ rfl rfl]
      exact ends_of_failed rfl hdepth
    | token htoken hscans =>
      rw [hitem] at htoken hscans
      cases htoken
      exact hproceed _ _ (.token hscans)

/-! ### Operators that get their operand -/

theorem chunk_foldl_emit (codes : List OpCode) (s : Descent) :
    (codes.foldl emit s).chunk =
      codes.foldl (fun chunk code => chunk.writeOp code s.previous.line) s.chunk := by
  induction codes generalizing s with
  | nil => rfl
  | cons code codes ih => exact ih (s.emit code)

theorem constants_foldl_writeOp (codes : List OpCode) (chunk : Chunk) (line : Nat) :
    (codes.foldl (fun chunk code => chunk.writeOp code line) chunk).constants =
      chunk.constants := by
  induction codes generalizing chunk with
  | nil => rfl
  | cons code codes ih => exact ih (chunk.writeOp code line)

section Unwinding

variable {id : HeapId} {outer : List Pending} {constants : Nat} {e : Expr}

/-- If nothing more binds tightly enough, the call of an operand returns to its caller. -/
theorem ends_of_leave {floor : Precedence} {caller : Call} {calls : List Call}
    (hpoint : s.point = .returned) (hcalls : s.calls = .operand floor :: caller :: calls)
    (hdepth : s.depth ≠ 0)
    (hfloor : ¬ floor.strength ≤ (Precedence.ofOperator s.current.kind?).strength)
    (h : Ends ({ s with depth := s.depth - 1, calls := caller :: calls }.resume calls caller) r) :
    Ends s r := by
  have hleft : s.step = { s with depth := s.depth - 1, calls := caller :: calls } := by
    rw [step_returned hpoint hcalls, resume, if_neg hfloor, leave_eq hdepth]
  have hresumed : s.step.step =
      { s with depth := s.depth - 1, calls := caller :: calls }.resume calls caller := by
    rw [hleft]
    exact step_returned hpoint rfl
  refine .of_step (.of_step ?_)
  rwa [hresumed]

/-- An operator before an operand gets it. -/
theorem ends_of_unary {op : UnaryOp}
    (h : Mirrors id (.hasOperand (.unary op :: outer) constants e) s)
    (hrest : ∀ s', Mirrors id (.hasOperand outer constants (.unary op e)) s' →
      s'.current = s.current → s'.cursor = s.cursor → Ends s' r) : Ends s r := by
  cases h with
  | hasOperand hwaiting hcalls hchunk hline hpoint hdepth hle hconstants =>
    cases hwaiting with
    | @unary _ floor calls chunk kind _ hop hwaiting =>
      have hfloor : ¬ Precedence.unary.strength ≤
          (Precedence.ofOperator s.current.kind?).strength := by
        have hweaker := strength_ofOperator_le s.current.kind?
        show ¬ 6 ≤ _
        omega
      refine ends_of_leave hpoint hcalls (by omega) hfloor ?_
      rw [resume, UnaryOp.code_of_ofToken? hop]
      refine hrest _ ?_ rfl rfl
      refine .hasOperand hwaiting rfl ?_ hline hpoint ?_ ?_ hconstants
      · show s.chunk.writeOp op.code s.previous.line = _
        rw [hchunk, hline]
        rfl
      · show s.depth - 1 = outer.length + 1
        rw [hdepth]
        rfl
      · exact Nat.le_trans (Nat.sub_le _ _) hle

/-- An operator between operands that binds at least as tightly as what follows gets its right one.
-/
theorem ends_of_binary {op : BinaryOp} {left : Expr}
    (h : Mirrors id (.hasOperand (.binary op left :: outer) constants e) s)
    (hrank : (Precedence.ofOperator s.current.kind?).strength ≤ op.rank + 1)
    (hrest : ∀ s', Mirrors id (.hasOperand outer constants (.binary op left e)) s' →
      s'.current = s.current → s'.cursor = s.cursor → Ends s' r) : Ends s r := by
  cases h with
  | hasOperand hwaiting hcalls hchunk hline hpoint hdepth hle hconstants =>
    cases hwaiting with
    | @binary _ floor calls chunk kind _ _ hop hwaiting =>
      have hfloor : ¬ (Precedence.ofOperator (some kind)).next.strength ≤
          (Precedence.ofOperator s.current.kind?).strength := by
        rw [strength_next_of_ofToken? hop]
        omega
      refine ends_of_leave hpoint hcalls (by omega) hfloor ?_
      simp only [resume, operatorCode?_of_ofToken? hop]
      rw [foldl_emit, chunk_foldl_emit]
      refine hrest _ ?_ rfl rfl
      refine .hasOperand hwaiting rfl ?_ hline hpoint ?_ ?_ ?_
      · show op.code.foldl (fun chunk code => chunk.writeOp code s.previous.line) s.chunk = _
        rw [hchunk, hline]
        rfl
      · show s.depth - 1 = outer.length + 1
        rw [hdepth]
        rfl
      · exact Nat.le_trans (Nat.sub_le _ _) hle
      · exact (congrArg Array.size (constants_foldl_writeOp _ _ _)).trans hconstants

/-- **Unwinding** what waits is returning from the calls that wait. -/
theorem ends_of_unwind {pending : List Pending} (rank : Nat)
    (h : Mirrors id (.hasOperand pending constants e) s)
    (hrank : (Precedence.ofOperator s.current.kind?).strength - 1 = rank)
    (hrest : ∀ s', Mirrors id
        (.hasOperand (unwind rank pending e).1 constants (unwind rank pending e).2) s' →
      s'.current = s.current → s'.cursor = s.cursor → Ends s' r) : Ends s r := by
  -- The innermost of what waits is what the innermost of the calls is for.
  induction pending generalizing s e with
  | nil => exact hrest s h rfl rfl
  | cons p outer ih =>
    cases p with
    | group => exact hrest s h rfl rfl
    | unary op =>
      refine ends_of_unary h fun s₁ h₁ hcurrent₁ hcursor₁ => ?_
      refine ih h₁ (by rwa [hcurrent₁]) fun s' h' hcurrent hcursor => ?_
      exact hrest s' h' (hcurrent.trans hcurrent₁) (hcursor.trans hcursor₁)
    | binary op left =>
      rw [unwind] at hrest
      split at hrest
      · refine ends_of_binary h (by omega) fun s₁ h₁ hcurrent₁ hcursor₁ => ?_
        refine ih h₁ (by rwa [hcurrent₁]) fun s' h' hcurrent hcursor => ?_
        exact hrest s' h' (hcurrent.trans hcurrent₁) (hcursor.trans hcursor₁)
      · exact hrest s h rfl rfl

end Unwinding

/-! ### What begins an operand -/

/-- The descent has read a token that begins an operand, past the check of the depth. -/
structure Opened (id : HeapId) (pending : List Pending) (constants : Nat) (t : Token)
    (floor : Precedence) (calls : List Call) (s : Descent) : Prop where
  waiting : Waiting id pending floor calls s.chunk
  calls_eq : s.calls = .operand floor :: calls
  point_eq : s.point = .opening
  previous_eq : s.previous = .ofToken t
  depth_eq : s.depth = pending.length + 1
  depth_le : s.depth ≤ nestingLimit
  constants_eq : s.chunk.constants.size = constants

section Opening

variable {id : HeapId} {pending : List Pending} {constants : Nat} {t : Token} {floor : Precedence}
  {calls : List Call}

theorem Opened.room (h : Opened id pending constants t floor calls s) :
    pending.length < Limits.standard.nesting := by
  have hle := h.depth_le
  rw [h.depth_eq] at hle
  exact hle

theorem Opened.countP_eq (h : Opened id pending constants t floor calls s) :
    s.depth = s.calls.countP Call.isOperand := by
  rw [h.calls_eq, List.countP_cons_of_pos rfl, h.waiting.countP_eq, h.depth_eq]

theorem Opened.line_eq (h : Opened id pending constants t floor calls s) :
    s.previous.line = t.line := congrArg Mark.line h.previous_eq

theorem Opened.text_eq (h : Opened id pending constants t floor calls s) :
    s.previous.text = t.text := congrArg Mark.text h.previous_eq

/-- The end is that of what the parser makes of the token, if it accepts it. -/
def AcceptedEnds (id : HeapId) (pending : List Pending) (constants : Nat) (t : Token) (s : Descent)
    (r : Except Diagnostic Chunk) : Prop :=
  ∀ next s', ParserState.step .standard (.needsOperand pending constants) t = .ok next →
    Mirrors id next s' → s'.current = s.current → s'.cursor = s.cursor → Ends s' r

/-- The end is the complaint of the parser about the token, if it refuses it. -/
def RefusedEnds (pending : List Pending) (constants : Nat) (t : Token)
    (r : Except Diagnostic Chunk) : Prop :=
  ∀ c, ParserState.step .standard (.needsOperand pending constants) t = .error c →
    r = .error (c.atToken t)

variable (h : Opened id pending constants t floor calls s)
  (hnext : AcceptedEnds id pending constants t s r)

include h hnext

theorem ends_of_opening_group (hkind : t.kind = .leftParen) :
    Ends (s.call .group .assignment) r := by
  refine hnext _ _ (step_group h.room hkind) ?_ rfl rfl
  refine .needsOperand ?_ rfl h.depth_eq h.depth_le h.constants_eq
  show Waiting id _ _ (.group :: s.calls) s.chunk
  rw [h.calls_eq]
  exact .group h.waiting

theorem ends_of_opening_unary (op : UnaryOp) (hop : UnaryOp.ofToken? t.kind = some op) :
    Ends (s.call (.unary s.previous.kind?) .unary) r := by
  refine hnext _ _ (step_unary h.room hop) ?_ rfl rfl
  refine .needsOperand ?_ rfl h.depth_eq h.depth_le h.constants_eq
  show Waiting id _ _ (.unary s.previous.kind? :: s.calls) s.chunk
  rw [h.previous_eq, h.calls_eq]
  exact .unary hop h.waiting

/-- A literal that has an instruction of its own. -/
theorem ends_of_word (value : Literal) {code : OpCode} (hread : t.IsReadable)
    (hvalue : t.literal? = some value) (hpooled : value.isPooled = false)
    (hemit : s.chunk.writeOp code t.line = value.emit s.chunk t.line) :
    Ends { s.emit code with point := .returned } r := by
  have htaken : ParserState.step .standard (.needsOperand pending constants) t =
      .ok (.hasOperand pending constants (.literal value t.line)) := by
    rw [step_literal h.room hread hvalue, if_neg (by simp [hpooled])]
    simp [Expr.pooled, hpooled]
  refine hnext _ _ htaken ?_ rfl rfl
  refine .hasOperand h.waiting h.calls_eq ?_ h.line_eq rfl h.depth_eq h.depth_le h.constants_eq
  show s.chunk.writeOp code s.previous.line = value.emit s.chunk t.line
  rw [h.line_eq, hemit]

variable (hrefused : RefusedEnds pending constants t r)

include hrefused

/-- A literal that is a constant, if there is room for it. -/
theorem ends_of_constant {value : Literal} {v : Value} {chunk : Chunk} (point : Point)
    (hread : t.IsReadable) (hvalue : t.literal? = some value) (hpooled : value.isPooled = true)
    (hsize : chunk.constants.size = constants)
    (hemit : chunk.writeConstant v t.line = value.emit s.chunk t.line) :
    Ends ({ s with chunk, point }.emitConstant v) r := by
  have htaken : ParserState.step .standard (.needsOperand pending constants) t = _ :=
    step_literal h.room hread hvalue
  rw [hpooled] at htaken
  simp only [emitConstant, hsize]
  split
  · rename_i hfull
    rw [hrefused _ (htaken.trans (if_pos ⟨rfl, hfull⟩)), complain, h.previous_eq]
    exact ends_of_failed rfl h.countP_eq
  · rename_i hroom
    rw [if_neg fun hfull => hroom hfull.2] at htaken
    refine hnext _ _ htaken ?_ rfl rfl
    refine .hasOperand h.waiting h.calls_eq ?_ h.line_eq rfl h.depth_eq h.depth_le ?_
    · show chunk.writeConstant v s.previous.line = value.emit s.chunk t.line
      rw [h.line_eq, hemit]
    · show (chunk.constants.push v).size = _
      rw [Array.size_push, hsize]
      simp [Expr.pooled, hpooled]

theorem ends_of_number (hkind : t.kind = .number) (hmatches : Matches t.kind t.text) :
    Ends { s with point := .number } r := by
  have hread := hmatches.isReadable
  rw [hkind] at hmatches
  obtain ⟨x, hx⟩ := Option.isSome_iff_exists.1 hmatches.isSome_binary64?
  have hvalue : t.literal? = some (.number x) := by
    simp only [Token.literal?, hkind, hx, Option.getD_some]
  have hstep : step { s with point := .number } =
      { s with point := .number }.emitConstant (.number x) := by
    simp only [step, number, h.text_eq, hx]
  refine .of_step ?_
  rw [hstep]
  exact ends_of_constant h hnext hrefused .number hread hvalue rfl h.constants_eq rfl

theorem ends_of_string (hkind : t.kind = .string) (hmatches : Matches t.kind t.text) :
    Ends { s with point := .string } r := by
  have hread := hmatches.isReadable
  rw [hkind] at hmatches
  obtain ⟨body, hbody, -⟩ := hmatches.string_eq
  have hlength : ¬ (Text.Utf8.encode ('"' :: (body ++ ['"']))).length < 2 := by
    rw [encode_quoted, List.length_cons, List.length_append, List.length_singleton]
    omega
  have hvalue : t.literal? = some (.string (stringContent t.text)) := by
    simp only [Token.literal?, hkind]
  have hstep : step { s with point := .string } =
      { s with
        chunk := (s.chunk.addString (stringContent t.text)).2
        point := .string }.emitConstant (.object (s.chunk.addString (stringContent t.text)).1) := by
    simp only [step, string, h.text_eq, if_neg hlength, hbody, bytes_between_quotes]
  refine .of_step ?_
  rw [hstep]
  exact ends_of_constant h hnext hrefused .string hread hvalue rfl h.constants_eq rfl

/-- **A token that begins an operand**, or is refused. -/
theorem ends_of_opened (hmatches : Matches t.kind t.text) : Ends s r := by
  have hread := hmatches.isReadable
  have hmark : s.previous.kind? = some t.kind := congrArg Mark.kind? h.previous_eq
  have hkind {kind : TokenKind} (hfound : s.previous.kind? = some kind) : t.kind = kind :=
    Option.some.inj (hmark.symm.trans hfound)
  have hstep : s.step = s.opening := by simp only [step, h.point_eq]
  refine .of_step ?_
  rw [hstep, opening]
  split <;> rename_i hfound
  · exact ends_of_opening_group h hnext (hkind hfound)
  · exact ends_of_opening_unary h hnext .negate (by rw [hkind hfound]; rfl)
  · exact ends_of_opening_unary h hnext .not (by rw [hkind hfound]; rfl)
  · exact ends_of_number h hnext hrefused (hkind hfound) hmatches
  · exact ends_of_string h hnext hrefused (hkind hfound) hmatches
  · refine ends_of_word h hnext (.bool true) hread ?_ rfl rfl
    simp only [Token.literal?, hkind hfound]
  · refine ends_of_word h hnext (.bool false) hread ?_ rfl rfl
    simp only [Token.literal?, hkind hfound]
  · refine ends_of_word h hnext .nil hread ?_ rfl rfl
    simp only [Token.literal?, hkind hfound]
  · rename_i hparen hminus hbang hnumber hstring htrue hfalse
    have hbegins : ¬ t.BeginsOperand := by
      intro hbegins
      rcases hbegins with hopens | ⟨op, hop⟩ | ⟨value, hvalue⟩
      · exact hparen (hopens ▸ hmark)
      · generalize hwritten : t.kind = kind at hop
        cases hop with
        | not => exact hbang (hwritten ▸ hmark)
        | negate => exact hminus (hwritten ▸ hmark)
      · unfold Token.literal? at hvalue
        split at hvalue <;> rename_i hwritten
        · exact hnumber (hwritten ▸ hmark)
        · exact hstring (hwritten ▸ hmark)
        · exact htrue (hwritten ▸ hmark)
        · exact hfalse (hwritten ▸ hmark)
        · exact hfound (hwritten ▸ hmark)
        · cases hvalue
    rw [hrefused _ (step_of_not_beginsOperand hread h.room hbegins), complain, h.previous_eq]
    exact ends_of_failed rfl h.countP_eq

end Opening

end Descent

end ExprMachine
