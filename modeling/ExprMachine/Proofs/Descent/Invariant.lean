import ExprMachine.Proofs.Descent.Calls
import ExprMachine.Proofs.Scanner.LongestMatch
import ExprMachine.Proofs.Tokens

/-!
# What every step of the descent keeps

The functions of the descent rely on each other: that a token of a kind has a text of that kind,
that only operators between operands are handed to the function for those, and that the calls are
counted. Each of these holds before the first step, and every step keeps all of them.

* `Mark.Reads` — the text fits the kind;
* `encode_quoted`, `Matches.isSome_binary64?` — the bytes of a string; a number can be read;
* `Descent.Steady` — what does not depend on the point; `Steady.advance`;
* `Descent.PointFits`, `Descent.Sound` — what the point relies on, and both together;
* `sound_step`, `sound_after` — every step keeps it, so every state has it.
-/

namespace ExprMachine

/-! ### Operators -/

/-- What binds as an operator between operands has instructions. -/
theorem isSome_operatorCode? {kind? : Option TokenKind}
    (h : 0 < (Precedence.ofOperator kind?).strength) : (operatorCode? kind?).isSome = true := by
  unfold Precedence.ofOperator at h
  split at h <;> first | rfl | exact absurd h (by decide)

theorem Precedence.strength_next_pos (p : Precedence) : 0 < p.next.strength := by
  cases p <;> decide

/-! ### Marks -/

/-- The text of a token is one of its kind. -/
def Mark.Reads (mark : Mark) : Prop := ∀ kind, mark.kind? = some kind → Matches kind mark.text

theorem Mark.reads_endOfText (line : Nat) : (Mark.endOfText line).Reads := nofun

theorem Cursor.matches_of_next {cursor : Cursor} {t : Token} (h : cursor.next.1 = .token t) :
    Matches t.kind t.text := by
  cases cursor.decides with
  | token hlongest hitem _ =>
    rw [h] at hitem
    cases hitem
    exact hlongest.fits
  | unterminated _ _ hitem | unexpected _ _ _ hitem | atEnd _ hitem =>
    rw [h] at hitem
    cases hitem

theorem Mark.reads_ofToken {t : Token} (h : Matches t.kind t.text) : (Mark.ofToken t).Reads := by
  intro kind hkind
  cases hkind
  exact h

/-- The byte of a quote. -/
def quoteByte : UInt8 := 34

/-- The bytes of a quoted text are a quote, bytes that are none, and a quote. -/
theorem encode_quoted (body : List Char) : Text.Utf8.encode ('"' :: (body ++ ['"'])) =
    quoteByte :: (Text.Utf8.encode body ++ [quoteByte]) := by
  rw [Text.Utf8.encode_ascii (by decide), Text.Utf8.encode_append,
    Text.Utf8.encode_ascii (by decide)]
  rfl

theorem quoteByte_notMem_encode {body : List Char} (h : '"' ∉ body) :
    quoteByte ∉ Text.Utf8.encode body := by
  have hcount := Text.Utf8.count_encode (d := '"') (by decide) body
  rw [List.count_eq_zero.2 h, List.countP_eq_zero] at hcount
  intro hmem
  exact hcount quoteByte hmem (by decide)

theorem Matches.string_eq {text : List Char} (h : Matches .string text) :
    ∃ body, text = '"' :: (body ++ ['"']) ∧ '"' ∉ body := by
  cases h with
  | @string body hbody => exact ⟨body, rfl, hbody⟩
  | sign hmem => simp [signs] at hmem
  | equalSign hmem => simp [equalSigns] at hmem

/-- A number can be read. -/
theorem Matches.isSome_binary64? {text : List Char} (h : Matches .number text) :
    (Numeral.binary64? text).isSome = true := by
  have hread {whole point : List Char} (hwhole : Digits whole) (hpoint : IsFraction point) :
      (Numeral.binary64? (whole ++ point)).isSome = true := by
    obtain ⟨hne, hdigits⟩ := hwhole
    obtain ⟨c, rest, rfl⟩ := List.exists_cons_of_ne_nil hne
    exact Numeral.binary64?_isSome (hdigits c List.mem_cons_self)
      (fun d hd => hdigits d (List.mem_cons_of_mem c hd)) hpoint
  cases h with
  | number hdigits =>
    have hsome := hread hdigits (.inl rfl)
    rwa [List.append_nil] at hsome
  | decimal hwhole hfraction => exact hread hwhole (.inr ⟨_, rfl, hfraction.2⟩)
  | sign hmem => simp [signs] at hmem
  | equalSign hmem => simp [equalSigns] at hmem

namespace Descent

/-! ### What does not depend on the point -/

/-- What the calls that have not returned rely on: an expression is never called for with no
precedence at all, and what waits as an operator has instructions. -/
def CallFits : Call → Prop
  | .operand floor => 0 < floor.strength
  | .binary kind? => (operatorCode? kind?).isSome = true
  | _ => True

/-- What holds at every point: the marks have texts of their kinds, the calls fit, the calls that
are counted are as many as the counter says and not too many, and no line feed is lost. -/
structure Steady (feeds : Nat) (s : Descent) : Prop where
  current : s.current.Reads
  previous : s.previous.Reads
  calls : ∀ call ∈ s.calls, CallFits call
  depth_eq : s.depth = s.calls.countP Call.isOperand
  depth_le : s.depth ≤ nestingLimit
  feeds_eq : s.cursor.line + s.cursor.rest.count '\n' = feeds

/-- What the next step relies on at a point. -/
def PointFits (previous : Mark) : Point → Prop
  | .operand floor => 0 < floor.strength
  | .number => previous.kind? = some .number
  | .string => previous.kind? = some .string
  | .binary => 0 < (Precedence.ofOperator previous.kind?).strength
  | .failed d => d.message ≠ Complaint.invalidNumber.message
  | .broken _ => False
  | .begin | .opening | .returned => True

/-- A state in which every function can rely on what it relies on. -/
structure Sound (feeds : Nat) (s : Descent) : Prop where
  steady : s.Steady feeds
  fits : PointFits s.previous s.point

variable {feeds : Nat} {s : Descent}

namespace Steady

/-- Another point. -/
theorem at_point (h : s.Steady feeds) (point : Point) (hfits : PointFits s.previous point) :
    Sound feeds { s with point } :=
  ⟨⟨h.current, h.previous, h.calls, h.depth_eq, h.depth_le, h.feeds_eq⟩, hfits⟩

/-- Other code. -/
theorem with_chunk (h : s.Steady feeds) (chunk : Chunk) : Steady feeds { s with chunk } :=
  ⟨h.current, h.previous, h.calls, h.depth_eq, h.depth_le, h.feeds_eq⟩

/-- One call more that is not counted. -/
theorem call (h : s.Steady feeds) {caller : Call} {floor : Precedence} (hcaller : CallFits caller)
    (hcounted : caller.isOperand = false) (hfloor : 0 < floor.strength) :
    Sound feeds (s.call caller floor) := by
  refine ⟨⟨h.current, h.previous, ?_, ?_, h.depth_le, h.feeds_eq⟩, hfloor⟩
  · exact List.forall_mem_cons.2 ⟨hcaller, h.calls⟩
  · show s.depth = (caller :: s.calls).countP Call.isOperand
    rw [List.countP_cons_of_neg (by simp [hcounted])]
    exact h.depth_eq

/-- One call less that is not counted. -/
theorem uncounted (h : s.Steady feeds) {caller : Call} {outer : List Call}
    (hcalls : s.calls = caller :: outer) (hcounted : caller.isOperand = false) {chunk : Chunk}
    {point : Point} (hfits : PointFits s.previous point) :
    Sound feeds { s with chunk, calls := outer, point } := by
  have hdepth := h.depth_eq
  rw [hcalls, List.countP_cons_of_neg (by simp [hcounted])] at hdepth
  refine ⟨⟨h.current, h.previous, ?_, hdepth, h.depth_le, h.feeds_eq⟩, hfits⟩
  intro call hcall
  refine h.calls call ?_
  rw [hcalls]
  exact List.mem_cons_of_mem _ hcall

/-- A call that is counted can be left. -/
theorem leave (h : s.Steady feeds) {floor : Precedence} {outer : List Call}
    (hcalls : s.calls = .operand floor :: outer) (hfits : PointFits s.previous s.point) :
    Sound feeds (s.leave outer) := by
  have hdepth := h.depth_eq
  rw [hcalls, List.countP_cons_of_pos rfl] at hdepth
  rw [Descent.leave, if_neg (by omega)]
  refine ⟨⟨h.current, h.previous, ?_, ?_, ?_, h.feeds_eq⟩, hfits⟩
  · intro call hcall
    refine h.calls call ?_
    rw [hcalls]
    exact List.mem_cons_of_mem _ hcall
  · show s.depth - 1 = outer.countP Call.isOperand
    omega
  · exact Nat.le_trans (Nat.sub_le _ _) h.depth_le

/-- A complaint that is not about a number. -/
theorem complain (h : s.Steady feeds) (mark : Mark) {c : Complaint} (hc : c ≠ .invalidNumber) :
    Sound feeds (s.complain mark c) := by
  refine h.at_point (.failed (mark.diagnostic c)) ?_
  have hmessage : (mark.diagnostic c).message = c.message := by
    unfold Mark.diagnostic
    split <;> rfl
  show (mark.diagnostic c).message ≠ Complaint.invalidNumber.message
  rw [hmessage]
  cases c <;> first | decide | exact absurd rfl hc

/-- Looking at the next token, or failing because there is none. -/
theorem advance (h : s.Steady feeds) {proceed : Descent → Descent}
    (hproceed : ∀ s' : Descent, s'.Steady feeds → s'.calls = s.calls → s'.depth = s.depth →
      s'.previous = s.current → Sound feeds (proceed s')) : Sound feeds (s.advance proceed) := by
  have hfeeds := Cursor.line_add_count_next s.cursor
  rw [h.feeds_eq] at hfeeds
  have hnext (current : Mark) (hcurrent : current.Reads) :
      Steady feeds { s with cursor := s.cursor.next.2, current, previous := s.current } :=
    ⟨hcurrent, h.current, h.calls, h.depth_eq, h.depth_le, hfeeds⟩
  rw [Descent.advance]
  rcases hitem : s.cursor.next with ⟨item, cursor⟩
  rw [hitem] at hnext
  cases item with
  | token t =>
    have hmatches : Matches t.kind t.text := Cursor.matches_of_next (congrArg Prod.fst hitem)
    exact hproceed _ (hnext _ (Mark.reads_ofToken hmatches)) rfl rfl rfl
  | endOfText line => exact hproceed _ (hnext _ (Mark.reads_endOfText line)) rfl rfl rfl
  | error e line =>
    refine (hnext _ h.current).at_point (.failed (e.diagnostic line)) ?_
    show e.message ≠ Complaint.invalidNumber.message
    cases e <;> decide

/-- A constant. -/
theorem emitConstant (h : s.Steady feeds) (v : Value) : Sound feeds (s.emitConstant v) := by
  rw [Descent.emitConstant]
  split
  · exact (h.with_chunk _).complain _ (by decide)
  · exact (h.with_chunk (s.chunk.writeConstant v s.previous.line)).at_point .returned trivial

end Steady

/-! ### Steps -/

theorem foldl_emit (codes : List OpCode) (s : Descent) :
    codes.foldl emit s = { s with chunk := (codes.foldl emit s).chunk } := by
  induction codes generalizing s with
  | nil => rfl
  | cons code codes ih => exact ih (s.emit code)

theorem sound_opening (h : s.Steady feeds) : Sound feeds s.opening := by
  unfold opening
  split
  · exact h.call trivial rfl (by decide)
  · exact h.call trivial rfl (by decide)
  · exact h.call trivial rfl (by decide)
  · rename_i hkind
    exact h.at_point .number hkind
  · rename_i hkind
    exact h.at_point .string hkind
  · exact (h.with_chunk _).at_point .returned trivial
  · exact (h.with_chunk _).at_point .returned trivial
  · exact (h.with_chunk _).at_point .returned trivial
  · exact h.complain _ (by decide)

theorem sound_number (h : s.Steady feeds) (hkind : s.previous.kind? = some .number) :
    Sound feeds s.number := by
  obtain ⟨x, hx⟩ := Option.isSome_iff_exists.1 (h.previous _ hkind).isSome_binary64?
  rw [number, hx]
  exact h.emitConstant _

theorem sound_string (h : s.Steady feeds) (hkind : s.previous.kind? = some .string) :
    Sound feeds s.string := by
  obtain ⟨body, htext, -⟩ := (h.previous _ hkind).string_eq
  have hlength : ¬ (Text.Utf8.encode s.previous.text).length < 2 := by
    rw [htext, encode_quoted, List.length_cons, List.length_append, List.length_singleton]
    omega
  rw [string, if_neg hlength]
  exact (h.with_chunk _).emitConstant _

theorem sound_resume (h : s.Steady feeds) (hpoint : s.point = .returned) {call : Call}
    {outer : List Call} (hcalls : s.calls = call :: outer) : Sound feeds (s.resume outer call) := by
  have hfits : PointFits s.previous s.point := by
    rw [hpoint]
    trivial
  cases call with
  | text =>
    rw [resume]
    split
    · refine h.advance fun s' h' hcalls' _ _ => ?_
      exact h'.uncounted (hcalls'.trans hcalls) rfl trivial
    · exact h.complain _ (by decide)
  | operand floor =>
    have hfloor : CallFits (.operand floor) := by
      refine h.calls _ ?_
      rw [hcalls]
      exact List.mem_cons_self
    rw [resume]
    split
    · rename_i hbinds
      refine h.advance fun s' h' _ _ hprevious => ?_
      refine h'.at_point .binary ?_
      rw [hprevious]
      exact Nat.lt_of_lt_of_le hfloor hbinds
    · exact h.leave hcalls hfits
  | group =>
    rw [resume]
    split
    · refine h.advance fun s' h' hcalls' _ _ => ?_
      exact h'.uncounted (hcalls'.trans hcalls) rfl trivial
    · exact h.complain _ (by decide)
  | unary kind? =>
    rw [resume]
    exact h.uncounted hcalls rfl hfits
  | binary kind? =>
    have hcode : CallFits (.binary kind?) := by
      refine h.calls _ ?_
      rw [hcalls]
      exact List.mem_cons_self
    obtain ⟨codes, hcodes⟩ := Option.isSome_iff_exists.1 hcode
    simp only [resume, hcodes]
    rw [foldl_emit]
    exact h.uncounted hcalls rfl hfits

theorem sound_giveUp (h : Sound feeds s) {call : Call} {outer : List Call}
    (hcalls : s.calls = call :: outer) : Sound feeds (s.giveUp outer call) := by
  cases call with
  | operand floor => exact h.steady.leave hcalls h.fits
  | text | group | unary kind? | binary kind? => exact h.steady.uncounted hcalls rfl h.fits

/-- **Every step keeps what the functions rely on.** -/
theorem sound_step (h : Sound feeds s) : Sound feeds s.step := by
  obtain ⟨hsteady, hfits⟩ := h
  unfold step
  cases hpoint : s.point with
  | begin => exact hsteady.advance fun s' h' _ _ _ => h'.call trivial rfl (by decide)
  | operand floor =>
    rw [hpoint] at hfits
    refine hsteady.advance fun s' h' _ _ _ => ?_
    split
    · exact h'.complain _ (by decide)
    · rename_i hdepth
      refine ⟨⟨h'.current, h'.previous, ?_, ?_, ?_, h'.feeds_eq⟩, trivial⟩
      · exact List.forall_mem_cons.2 ⟨hfits, h'.calls⟩
      · show s'.depth + 1 = (Call.operand floor :: s'.calls).countP Call.isOperand
        rw [List.countP_cons_of_pos rfl, h'.depth_eq]
      · exact Nat.lt_of_le_of_ne h'.depth_le hdepth
  | opening => exact sound_opening hsteady
  | number =>
    rw [hpoint] at hfits
    exact sound_number hsteady hfits
  | string =>
    rw [hpoint] at hfits
    exact sound_string hsteady hfits
  | binary =>
    rw [hpoint] at hfits
    exact hsteady.call (isSome_operatorCode? hfits) rfl (Precedence.strength_next_pos _)
  | returned =>
    cases hcalls : s.calls with
    | nil => exact ⟨hsteady, hfits⟩
    | cons call outer => exact sound_resume hsteady hpoint hcalls
  | failed d =>
    cases hcalls : s.calls with
    | nil => exact ⟨hsteady, hfits⟩
    | cons call outer => exact sound_giveUp ⟨hsteady, hfits⟩ hcalls
  | broken b =>
    rw [hpoint] at hfits
    exact hfits.elim

/-- Every state on a text is sound. -/
theorem sound_after (id : HeapId) (source : String) (n : Nat) :
    Sound (1 + source.toList.count '\n') (after id source n) := by
  induction n with
  | zero =>
    refine ⟨⟨Mark.reads_endOfText 1, Mark.reads_endOfText 1, nofun, rfl, Nat.zero_le _, rfl⟩, ?_⟩
    trivial
  | succ n ih =>
    rw [after, Function.iterate_succ_apply']
    exact sound_step ih

end Descent

end ExprMachine
