import ExprMachine.Proofs.LineRuns
import ExprMachine.Proofs.PostOrder
import ExprMachine.Proofs.Scanner.Tiling
import ExprMachine.Proofs.Turns

/-!
# The lines of compiled code

Every byte of compiled code has the line of a token of the text: a literal of its own, an operator
of the last one of its right or only operand. The final instruction has the last line of the text.

* `Token.Stands` — a token at its place in a text, with the line on which it ends there;
  `Cursor.stands_of_getElem?` finds the places of the tokens of a text;
* `Stamped` — the code of tokens, each byte with the token whose line it gets;
  `Stamped.derives` says that it is the code of their tree;
* `Stamped.sorted` — the tokens of the bytes never go back in the text;
* `canonical_emit` — the line table of a program is canonical;
* `runAt_error_line` — a run fails at a byte of its code;
* `compile_lines` — the lines of a compiled text, and of the errors of its runs.
-/

namespace ExprMachine

/-! ### Tokens in their text -/

/-- A token stands in a text after some of it, and has the line on which it ends there. -/
structure Token.Stands (t : Token) (source before : List Char) : Prop where
  text : before ++ t.text <+: source
  line : t.line = 1 + (before ++ t.text).count '\n'

theorem Token.Stands.one_le_line {t : Token} {source before : List Char}
    (h : t.Stands source before) : 1 ≤ t.line := by
  rw [h.line]
  exact Nat.le_add_right 1 _

theorem Token.Stands.line_le {t : Token} {source before : List Char}
    (h : t.Stands source before) : t.line ≤ 1 + source.count '\n' := by
  rw [h.line]
  exact Nat.add_le_add_left (h.text.sublist.count_le '\n') 1

namespace Cursor

/-- The tokens are the first answers, and what ends them is the next one. -/
theorem item_of_tokensAfter (read : List Token) (cursor : Cursor) :
    ∃ new, (cursor.tokensAfter read).1 = read.reverse ++ new ∧
      (∀ k t, new[k]? = some t → cursor.item k = .token t) ∧
      ∀ line, (cursor.tokensAfter read).2 = .endOfText line →
        cursor.item new.length = .endOfText line := by
  induction read, cursor using Cursor.tokensAfter.induct with
  | case1 read cursor line after hnext =>
    rw [tokensAfter, hnext]
    refine ⟨[], by simp, fun k t ht => ?_, fun line' hline => ?_⟩
    · cases ht
    · cases hline
      exact congrArg Prod.fst hnext
  | case2 read cursor e line after hnext =>
    rw [tokensAfter, hnext]
    refine ⟨[], by simp, fun k t ht => ?_, fun line' hline => ?_⟩
    · cases ht
    · cases hline
  | case3 read cursor t after hnext ih =>
    obtain ⟨new, hnew, htokens, hend⟩ := ih
    have hitem (k : Nat) : cursor.item (k + 1) = after.item k := by
      rw [item_succ, hnext]
    rw [tokensAfter, hnext]
    refine ⟨t :: new, by simpa using hnew, fun k u hu => ?_, fun line hline => ?_⟩
    · cases k with
      | zero =>
        cases hu
        exact congrArg Prod.fst hnext
      | succ k =>
        rw [hitem]
        exact htokens k u hu
    · rw [List.length_cons, hitem]
      exact hend line hline

/-- The text of a token is that of its call, and its line is the one after the call. -/
theorem own_of_token {cursor : Cursor} {t : Token} (h : cursor.next.1 = .token t) :
    cursor.own = t.text ∧ cursor.next.2.line = t.line := by
  cases cursor.answers with
  | atEnd _ _ hitem =>
    rw [h] at hitem
    cases hitem
  | lexeme shape _ hitem =>
    rw [h] at hitem
    cases shape with
    | ok kind =>
      cases hitem
      exact ⟨rfl, rfl⟩
    | error e => cases hitem

/-- After the end nothing is left. -/
theorem rest_of_endOfText {cursor : Cursor} {line : Nat} (h : cursor.next.1 = .endOfText line) :
    cursor.next.2.rest = [] ∧ cursor.next.2.line = line := by
  cases cursor.answers with
  | atEnd _ hrest hitem =>
    rw [h] at hitem
    cases hitem
    exact ⟨hrest, rfl⟩
  | lexeme shape _ hitem =>
    rw [h] at hitem
    cases shape <;> cases hitem

/-- Lines never decrease from call to call. -/
theorem line_le_after (cursor : Cursor) {j k : Nat} (h : j ≤ k) :
    (cursor.after j).line ≤ (cursor.after k).line := by
  induction h with
  | refl => exact Nat.le_refl _
  | step _ ih =>
    rw [after, line_next]
    exact Nat.le_trans ih (Nat.le_add_right _ _)

end Cursor

section Places

variable {source : List Char} {tokens : List Token} {ending : Cursor.Ending}
  (h : (Cursor.start source).tokens = (tokens, ending))

include h

theorem Cursor.item_of_getElem? {k : Nat} {t : Token} (ht : tokens[k]? = some t) :
    (Cursor.start source).item k = .token t := by
  obtain ⟨new, hnew, htokens, -⟩ := item_of_tokensAfter [] (Cursor.start source)
  rw [show (Cursor.start source).tokensAfter [] = (tokens, ending) from h] at hnew
  rw [List.reverse_nil, List.nil_append] at hnew
  exact htokens k t (by rwa [← hnew])

/-- **Every token stands in its text**, where the call that answers with it has skipped blanks and
comments. -/
theorem Cursor.stands_of_getElem? {k : Nat} {t : Token} (ht : tokens[k]? = some t) :
    t.Stands source
      ((Cursor.start source).passed k ++ ((Cursor.start source).after k).skipped) := by
  obtain ⟨hown, hline⟩ := own_of_token (Cursor.item_of_getElem? h ht)
  have hpassed : (Cursor.start source).passed (k + 1) =
      (Cursor.start source).passed k ++ ((Cursor.start source).after k).skipped ++ t.text := by
    rw [passed_succ, hown]
  constructor
  · rw [← hpassed]
    exact ⟨_, ((Cursor.start source).rest_after (k + 1)).symm⟩
  · rw [← hpassed, ← hline]
    exact (Cursor.start source).line_after (k + 1)

/-- The tokens of a text never go back to an earlier line. -/
theorem Cursor.tokens_sorted : (tokens.map Token.line).Pairwise (· ≤ ·) := by
  rw [List.pairwise_map, List.pairwise_iff_getElem]
  intro j k hj hk hlt
  have hline {k : Nat} (hk : k < tokens.length) :
      ((Cursor.start source).after (k + 1)).line = tokens[k].line :=
    (own_of_token (Cursor.item_of_getElem? h (List.getElem?_eq_getElem hk))).2
  rw [← hline hj, ← hline hk]
  exact line_le_after _ (Nat.succ_le_succ (Nat.le_of_lt hlt))

end Places

/-- The scanner over bytes has the line of a token after its call. -/
theorem ByteScanner.line_of_getElem? {source : String} {tokens : List Token}
    {ending : Cursor.Ending} (h : (Cursor.start source.toList).tokens = (tokens, ending)) {k : Nat}
    {t : Token} (ht : tokens[k]? = some t) (hfeeds : source.toList.count '\n' < 2 ^ 32 - 1) :
    ((new source).after (k + 1)).line.toNat = t.line := by
  have hstands := Cursor.stands_of_getElem? h ht
  have hcount := hstands.text.sublist.count_le '\n'
  obtain ⟨-, hline⟩ := Cursor.own_of_token (Cursor.item_of_getElem? h ht)
  rw [(follows_after source (k + 1)).line, Cursor.after, hline, hstands.line]
  exact toNat_line (Nat.lt_of_le_of_lt hcount hfeeds)

/-- A text that ends ends on its last line. -/
theorem Cursor.line_of_endOfText {source : List Char} {tokens : List Token} {line : Nat}
    (h : (Cursor.start source).tokens = (tokens, .endOfText line)) :
    line = 1 + source.count '\n' := by
  obtain ⟨new, -, -, hend⟩ := item_of_tokensAfter [] (Cursor.start source)
  have hitem := hend line (congrArg Prod.snd h)
  obtain ⟨hrest, hline⟩ := rest_of_endOfText hitem
  have hwhole := (Cursor.start source).rest_after (new.length + 1)
  rw [show ((Cursor.start source).after (new.length + 1)).rest = [] from hrest,
    List.append_nil] at hwhole
  have hcount := (Cursor.start source).line_after (new.length + 1)
  rw [← hwhole] at hcount
  exact hline.symm.trans hcount

/-! ### Bytes and their tokens -/

/-- The code of the tokens of a level, each byte with the token whose line it gets. Constants are
numbered from `index` on. -/
inductive Stamped : (level index : Nat) → List Token → List (UInt8 × Token) → Prop
  | literal {index : Nat} {t : Token} {value : Literal} :
      t.literal? = some value → Stamped 6 index [t] ((value.code index).map (·, t))
  | group {index : Nat} {opening closing : Token} {ts : List Token}
      {code : List (UInt8 × Token)} :
      opening.kind = .leftParen → Stamped 0 index ts code → closing.kind = .rightParen →
      Stamped 6 index (opening :: ts ++ [closing]) code
  | unary {index : Nat} {t last : Token} {op : UnaryOp} {ts : List Token}
      {code : List (UInt8 × Token)} :
      op.WrittenBy t.kind → Stamped 5 index ts code → ts.getLast? = some last →
      Stamped 5 index (t :: ts) (code ++ [(op.lowering.toByte, last)])
  | binary {level index : Nat} {t last : Token} {op : BinaryOp} {before after : List Token}
      {left right : List (UInt8 × Token)} :
      op.StandsAt t.kind level → Stamped level index before left →
      Stamped (level + 1) (index + before.countP Token.isPooled) after right →
      after.getLast? = some last →
      Stamped level index (before ++ t :: after)
        (left ++ right ++ op.lowering.map fun code => (code.toByte, last))
  | lift {level index : Nat} {ts : List Token} {code : List (UInt8 × Token)} :
      level < 6 → Stamped (level + 1) index ts code → Stamped level index ts code

/-- A byte with the line of its token. -/
def lineStamp (stamp : UInt8 × Token) : UInt8 × Nat := (stamp.1, stamp.2.line)

/-- Tokens that derive a tree have code. -/
theorem Derives.stamped {level : Nat} {ts : List Token} {e : Expr} (h : Derives level ts e)
    (index : Nat) : ∃ code, Stamped level index ts code := by
  induction h generalizing index with
  | literal hvalue => exact ⟨_, .literal hvalue⟩
  | group hopen _ hclose ih =>
    obtain ⟨code, hcode⟩ := ih index
    exact ⟨code, .group hopen hcode hclose⟩
  | unary hop hoperand ih =>
    obtain ⟨code, hcode⟩ := ih index
    obtain ⟨last, hlast, -⟩ := hoperand.lastLine_eq
    exact ⟨_, .unary hop hcode hlast⟩
  | @binary t op level before after left right hop _ hright ihl ihr =>
    obtain ⟨code, hcode⟩ := ihl index
    obtain ⟨code', hcode'⟩ := ihr (index + before.countP Token.isPooled)
    obtain ⟨last, hlast, -⟩ := hright.lastLine_eq
    exact ⟨_, .binary hop hcode hcode' hlast⟩
  | lift hlevel _ ih =>
    obtain ⟨code, hcode⟩ := ih index
    exact ⟨code, .lift hlevel hcode⟩

theorem Derives.line_of_getLast? {level : Nat} {ts : List Token} {e : Expr} {last : Token}
    (h : Derives level ts e) (hlast : ts.getLast? = some last) : last.line = e.lastLine := by
  obtain ⟨t, ht, hline⟩ := h.lastLine_eq
  rw [hlast] at ht
  cases ht
  exact hline

/-- **The bytes with the lines of their tokens are the post-order** of the tree. -/
theorem Stamped.derives {level index : Nat} {ts : List Token} {code : List (UInt8 × Token)}
    (h : Stamped level index ts code) :
    ∃ e, Derives level ts e ∧ e.postOrder index = code.map lineStamp := by
  induction h with
  | @literal index t value hvalue =>
    exact ⟨_, .literal hvalue, by simp [Expr.postOrder, lineStamp, Function.comp_def]⟩
  | group hopen _ hclose ih =>
    obtain ⟨e, hderives, hcode⟩ := ih
    exact ⟨_, .group hopen hderives hclose, hcode⟩
  | unary hop _ hlast ih =>
    obtain ⟨e, hderives, hcode⟩ := ih
    refine ⟨_, .unary hop hderives, ?_⟩
    rw [Expr.postOrder, hcode, ← hderives.line_of_getLast? hlast, List.map_append]
    rfl
  | binary hop _ _ hlast ihl ihr =>
    obtain ⟨left, hleft, hcode⟩ := ihl
    obtain ⟨right, hright, hcode'⟩ := ihr
    refine ⟨_, .binary hop hleft hright, ?_⟩
    rw [Expr.postOrder, hleft.length_pooled, hcode, hcode', ← hright.line_of_getLast? hlast]
    simp [lineStamp, Function.comp_def]
  | lift hlevel _ ih =>
    obtain ⟨e, hderives, hcode⟩ := ih
    exact ⟨e, .lift hlevel hderives, hcode⟩

/-- A byte has the line of a token of its own part of the text. -/
theorem Stamped.mem {level index : Nat} {ts : List Token} {code : List (UInt8 × Token)}
    (h : Stamped level index ts code) {byte : UInt8} {t : Token} (ht : (byte, t) ∈ code) :
    t ∈ ts := by
  induction h with
  | literal hvalue =>
    obtain ⟨byte', -, heq⟩ := List.mem_map.1 ht
    cases heq
    exact List.mem_cons_self
  | group _ _ _ ih => exact List.mem_append_left _ (List.mem_cons_of_mem _ (ih ht))
  | unary _ _ hlast ih =>
    rcases List.mem_append.1 ht with hoperand | hop
    · exact List.mem_cons_of_mem _ (ih hoperand)
    · cases List.mem_singleton.1 hop
      exact List.mem_cons_of_mem _ (List.mem_of_getLast? hlast)
  | binary _ _ _ hlast ihl ihr =>
    rcases List.mem_append.1 ht with hoperands | hop
    · rcases List.mem_append.1 hoperands with hleft | hright
      · exact List.mem_append_left _ (ihl hleft)
      · exact List.mem_append_right _ (List.mem_cons_of_mem _ (ihr hright))
    · obtain ⟨code, -, heq⟩ := List.mem_map.1 hop
      cases heq
      exact List.mem_append_right _ (List.mem_cons_of_mem _ (List.mem_of_getLast? hlast))
  | lift _ _ ih => exact ih ht

/-- The last of sorted tokens has the greatest line. -/
theorem line_le_of_getLast? {ts : List Token} {t last : Token}
    (hsorted : (ts.map Token.line).Pairwise (· ≤ ·)) (hlast : ts.getLast? = some last)
    (ht : t ∈ ts) : t.line ≤ last.line := by
  obtain ⟨before, rfl⟩ := List.getLast?_eq_some_iff.1 hlast
  rw [List.map_append, List.pairwise_append] at hsorted
  rcases List.mem_append.1 ht with hmem | hmem
  · exact hsorted.2.2 _ (List.mem_map_of_mem hmem) _ List.mem_cons_self
  · rw [List.mem_singleton.1 hmem]

/-- **Code never goes back in the text**: if the lines of the tokens do not decrease, neither do
those of the bytes. -/
theorem Stamped.sorted {level index : Nat} {ts : List Token} {code : List (UInt8 × Token)}
    (h : Stamped level index ts code) (hsorted : (ts.map Token.line).Pairwise (· ≤ ·)) :
    (code.map fun stamp => stamp.2.line).Pairwise (· ≤ ·) := by
  induction h with
  | @literal index t value _ =>
    rw [List.map_map, List.pairwise_map]
    exact List.pairwise_of_forall fun _ _ => Nat.le_refl t.line
  | group _ _ _ ih =>
    rw [List.map_append] at hsorted
    exact ih (List.pairwise_append.1 hsorted).1.tail
  | unary _ hoperand hlast ih =>
    have htail := List.Pairwise.tail hsorted
    rw [List.map_append, List.pairwise_append]
    refine ⟨ih htail, List.pairwise_singleton _ _, ?_⟩
    intro line hline line' hline'
    obtain ⟨⟨byte, t⟩, hmem, rfl⟩ := List.mem_map.1 hline
    rw [List.mem_singleton.1 hline']
    exact line_le_of_getLast? htail hlast (hoperand.mem hmem)
  | @binary level index t last op before after left right _ hleft hright hlast ihl ihr =>
    rw [List.map_append, List.pairwise_append, List.map_cons] at hsorted
    obtain ⟨hbefore, hrest, hcross⟩ := hsorted
    have hafter := hrest.tail
    -- whatever stands before the operator comes before whatever stands after it
    have hle {t u : Token} (ht : t ∈ before) (hu : u ∈ after) : t.line ≤ u.line :=
      hcross _ (List.mem_map_of_mem ht) _ (List.mem_cons_of_mem _ (List.mem_map_of_mem hu))
    have hops : ((op.lowering.map fun code => (code.toByte, last)).map
        fun stamp => stamp.2.line).Pairwise (· ≤ ·) := by
      rw [List.map_map, List.pairwise_map]
      exact List.pairwise_of_forall fun _ _ => Nat.le_refl last.line
    rw [List.map_append, List.map_append, List.pairwise_append, List.pairwise_append]
    refine ⟨⟨ihl hbefore, ihr hafter, ?_⟩, hops, ?_⟩
    · intro line hline line' hline'
      obtain ⟨⟨byte, t⟩, hmem, rfl⟩ := List.mem_map.1 hline
      obtain ⟨⟨byte', u⟩, hmem', rfl⟩ := List.mem_map.1 hline'
      exact hle (hleft.mem hmem) (hright.mem hmem')
    · intro line hline line' hline'
      obtain ⟨code, -, rfl⟩ := List.mem_map.1 (List.map_map ▸ hline')
      rw [← List.map_append] at hline
      obtain ⟨⟨byte, t⟩, hmem, rfl⟩ := List.mem_map.1 hline
      rcases List.mem_append.1 hmem with hmem | hmem
      · exact hle (hleft.mem hmem) (List.mem_of_getLast? hlast)
      · exact line_le_of_getLast? hafter hlast (hright.mem hmem)
  | lift _ _ ih => exact ih hsorted

/-- The tokens of a group end with the parenthesis that closes it. -/
theorem Derives.getLast?_group {level : Nat} {ts : List Token} {inner : Expr} {line : Nat}
    (h : Derives level ts (.group inner line)) :
    ∃ closing, ts.getLast? = some closing ∧ closing.kind = .rightParen ∧ closing.line = line := by
  generalize he : Expr.group inner line = e at h
  induction h with
  | literal _ => cases he
  | @group opening closing ts inner' _ _ hclose _ =>
    cases he
    exact ⟨closing, List.getLast?_concat, hclose, rfl⟩
  | unary _ _ _ => cases he
  | binary _ _ _ _ _ => cases he
  | lift _ _ ih => exact ih he

/-! ### The table of a program -/

theorem Literal.canonical_emit {chunk : Chunk} (h : Canonical chunk.lines.runs) (line : Nat)
    (value : Literal) : Canonical (value.emit chunk line).lines.runs := by
  have hwrite {table : LineTable} (h : Canonical table.runs) :
      Canonical (table.push line).runs := LineTable.canonical_runs_push h line
  cases value with
  | nil => exact hwrite h
  | bool b => exact hwrite h
  | number x => exact hwrite (hwrite h)
  | string bytes => exact hwrite (hwrite h)

theorem canonical_codes {chunk : Chunk} (h : Canonical chunk.lines.runs) (line : Nat)
    (codes : List OpCode) :
    Canonical (codes.foldl (fun chunk code => chunk.writeOp code line) chunk).lines.runs := by
  induction codes generalizing chunk with
  | nil => exact h
  | cons code codes ih => exact ih (LineTable.canonical_runs_push h line)

/-- Emitting a tree keeps the line table canonical. -/
theorem Expr.canonical_emit (e : Expr) {chunk : Chunk} (h : Canonical chunk.lines.runs) :
    Canonical (e.emit chunk).lines.runs := by
  induction e generalizing chunk with
  | literal value line => exact value.canonical_emit h line
  | group inner line ih => exact ih h
  | unary op operand ih => exact LineTable.canonical_runs_push (ih h) operand.lastLine
  | binary op left right ihl ihr => exact canonical_codes (ihr (ihl h)) right.lastLine op.code

theorem canonical_program (e : Expr) (id : HeapId) (line : Nat) :
    Canonical (e.program id line).lines.runs := by
  have hempty : Canonical (Chunk.empty id).lines.runs := canonical_nil
  exact LineTable.canonical_runs_push (e.canonical_emit hempty) line

/-! ### Where runs fail -/

namespace Machine

/-- A point of the loop is inside the code or right behind it, and where the run has failed, it has
failed at a byte of the code. -/
def FailsInside (chunk : Chunk) : Progress → Prop
  | .running offset _ => offset ≤ chunk.size
  | .ended outcome => ∀ e, outcome.2 = .error e →
      ∃ offset, offset < chunk.size ∧ e.line = chunk.lines.lineAt? offset

variable {chunk : Chunk} {offset : Nat}

theorem failsInside_fail (m : Machine) (fault : Fault) (h : offset < chunk.size) :
    FailsInside chunk (.ended (m.fail chunk offset fault)) := by
  intro e he
  cases he
  exact ⟨offset, h, rfl⟩

theorem failsInside_progress {width : Nat} (outcome : Outcome) (h : offset < chunk.size)
    (hwidth : offset + width ≤ chunk.size) :
    FailsInside chunk (outcome.progress chunk offset width) := by
  obtain ⟨m, fault?⟩ := outcome
  cases fault? with
  | none => exact hwidth
  | some fault => exact failsInside_fail m fault h

theorem failsInside_conclude (outcome : Outcome) (h : offset < chunk.size) :
    FailsInside chunk (.ended (conclude chunk offset outcome)) := by
  obtain ⟨m, fault?⟩ := outcome
  cases fault? with
  | none => exact nofun
  | some fault => exact failsInside_fail m fault h

/-- Each turn fails inside the code or stays there. -/
theorem failsInside_dispatch (hsize : 0 < chunk.size) (m : Machine) (h : offset ≤ chunk.size) :
    FailsInside chunk (dispatch chunk (.running offset m)) := by
  rw [dispatch_running]
  by_cases hlt : offset < chunk.size
  · have hwidth := chunk.add_width_le hlt
    cases hfetch : chunk.fetch offset with
    | nothing =>
      have hle := Chunk.fetch_eq_nothing_iff.1 hfetch
      omega
    | unknown byte => exact failsInside_fail _ _ hlt
    | bare => exact failsInside_fail _ _ hlt
    | constant index =>
      rw [hfetch] at hwidth
      exact failsInside_progress _ hlt hwidth
    | instruction op =>
      by_cases hhalt : op = .halt
      · subst hhalt
        exact failsInside_conclude _ hlt
      · rw [obey_instruction _ _ _ hhalt]
        exact failsInside_progress _ hlt hlt
  · -- the code has ended, and its last byte is to blame
    rw [Chunk.fetch_eq_nothing_iff.2 (Nat.le_of_not_lt hlt)]
    exact failsInside_fail _ _ (by omega)

/-- **A run fails at a byte of its code**, and the error has the line of that byte. -/
theorem runAt_error_line (hsize : 0 < chunk.size) (m : Machine) {e : RuntimeError}
    (h : (runAt chunk 0 m).2 = .error e) :
    ∃ offset, offset < chunk.size ∧ e.line = chunk.lines.lineAt? offset := by
  have hstart : FailsInside chunk (.running 0 m) := Nat.zero_le chunk.size
  have hturns := dispatches_induction (fun _ m' hinside => failsInside_dispatch hsize m' hinside)
    hstart (chunk.size + 1)
  rw [dispatches_eq_runAt chunk (chunk.size + 1) 0 m (by omega)] at hturns
  exact hturns e h

/-- The line of an error is one of the lines of the code. -/
theorem runChunk_error_line (hsize : 0 < chunk.size) (hstep : chunk.InStep) (m : Machine)
    {e : RuntimeError} (h : (m.runChunk chunk).2 = .error e) :
    ∃ line ∈ chunk.lines.toList, e.line = some line := by
  rw [runChunk_snd] at h
  obtain ⟨offset, hlt, hline⟩ := runAt_error_line hsize _ h
  have hlength : offset < chunk.lines.toList.length := by rwa [hstep.length_toList]
  rw [LineTable.lineAt?_eq_getElem? hstep.counted, List.getElem?_eq_getElem hlength] at hline
  exact ⟨_, List.getElem_mem hlength, hline⟩

end Machine

/-! ### Compiled texts -/

/-- A lookup in a chunk is one in its list of lines. -/
theorem Chunk.InStep.lineAt_eq_ok_iff {chunk : Chunk} (h : chunk.InStep) {offset line : Nat} :
    chunk.lineAt offset = .ok line ↔ chunk.lines.toList[offset]? = some line := by
  rw [Chunk.lineAt, LineTable.lineAt, LineTable.lineAt?_eq_getElem? h.counted]
  cases chunk.lines.toList[offset]? <;> simp

/-- Where the lines of a chunk never decrease, lookups do not either. -/
theorem Chunk.InStep.line_le_of_sorted {chunk : Chunk} (h : chunk.InStep)
    (hsorted : chunk.lines.toList.Pairwise (· ≤ ·)) {i j line line' : Nat} (hle : i ≤ j)
    (hi : chunk.lineAt i = .ok line) (hj : chunk.lineAt j = .ok line') : line ≤ line' := by
  rw [h.lineAt_eq_ok_iff] at hi hj
  rcases Nat.eq_or_lt_of_le hle with rfl | hlt
  · rw [hi] at hj
    cases hj
    exact Nat.le_refl line
  · obtain ⟨hilt, rfl⟩ := List.getElem?_eq_some_iff.1 hi
    obtain ⟨hjlt, rfl⟩ := List.getElem?_eq_some_iff.1 hj
    exact List.pairwise_iff_getElem.1 hsorted i j hilt hjlt hlt

section Program

variable {source : List Char} {tokens : List Token} {e : Expr} {line : Nat}
  {code : List (UInt8 × Token)} (id : HeapId)
  (htokens : (Cursor.start source).tokens = (tokens, .endOfText line))
  (hderives : Derives 0 tokens e) (hstamped : Stamped 0 0 tokens code)

include htokens hderives hstamped

/-- The code of a text is that of its tokens and the final instruction. -/
theorem programCode_eq :
    e.programCode line =
      code.map lineStamp ++ [(OpCode.halt.toByte, line)] := by
  obtain ⟨e', hderives', hcode⟩ := hstamped.derives
  obtain rfl := hderives.unique hderives' (isReadable_of_tokens_eq htokens)
  rw [Expr.programCode, hcode]

theorem program_bytes :
    (e.program id line).code.toList = code.map Prod.fst ++ [OpCode.halt.toByte] := by
  rw [program_code, programCode_eq htokens hderives hstamped]
  simp [lineStamp, Function.comp_def]

theorem program_size_pos : 0 < (e.program id line).size := by
  have hlength := congrArg List.length (program_bytes id htokens hderives hstamped)
  rw [List.length_append, List.length_singleton, Array.length_toList] at hlength
  show 0 < (e.program id line).code.size
  omega

theorem program_stamps :
    (e.program id line).lines.toList = (code.map fun stamp => stamp.2.line) ++ [line] := by
  rw [program_lines, programCode_eq htokens hderives hstamped]
  simp [lineStamp, Function.comp_def]

/-- A lookup gives the line of the token that the byte comes from. -/
theorem program_lineAt {i : Nat} {byte : UInt8} {t : Token} (hi : code[i]? = some (byte, t)) :
    (e.program id line).lineAt i = .ok t.line := by
  obtain ⟨hlt, -⟩ := List.getElem?_eq_some_iff.1 hi
  rw [(program_inStep e id line).lineAt_eq_ok_iff, program_stamps id htokens hderives hstamped,
    List.getElem?_append_left (by rwa [List.length_map]), List.getElem?_map, hi]
  rfl

/-- The final instruction comes right after that code. -/
theorem program_lineAt_halt : (e.program id line).lineAt code.length = .ok line := by
  rw [(program_inStep e id line).lineAt_eq_ok_iff, program_stamps id htokens hderives hstamped]
  simp

/-- The lines of a program are lines of the text. -/
theorem program_line_bounds {n : Nat} (h : n ∈ (e.program id line).lines.toList) :
    1 ≤ n ∧ n ≤ line := by
  have hlast := Cursor.line_of_endOfText htokens
  rw [program_stamps id htokens hderives hstamped] at h
  rcases List.mem_append.1 h with hcode | hend
  · obtain ⟨⟨byte, t⟩, hmem, rfl⟩ := List.mem_map.1 hcode
    obtain ⟨k, ht⟩ := List.mem_iff_getElem?.1 (hstamped.mem hmem)
    have hstands := Cursor.stands_of_getElem? htokens ht
    exact ⟨hstands.one_le_line, hlast ▸ hstands.line_le⟩
  · rw [List.mem_singleton.1 hend, hlast]
    exact ⟨Nat.le_add_right 1 _, Nat.le_refl _⟩

/-- The lines of a program never decrease. -/
theorem program_lines_sorted : (e.program id line).lines.toList.Pairwise (· ≤ ·) := by
  have hbounds {n : Nat} := program_line_bounds (n := n) id htokens hderives hstamped
  rw [program_stamps id htokens hderives hstamped] at hbounds ⊢
  refine List.pairwise_append.2 ⟨?_, List.pairwise_singleton _ _, ?_⟩
  · exact hstamped.sorted (Cursor.tokens_sorted htokens)
  · intro n hn n' hn'
    rw [List.mem_singleton.1 hn']
    exact (hbounds (List.mem_append_left _ hn)).2

end Program

/-- Where a text compiles and its run fails, there is a machine on which its chunk fails so. -/
theorem Machine.exists_runChunk_of_interpret {m : Machine} {source : String} {chunk : Chunk}
    {e : RuntimeError} (hcompile : compile m.heap.id.next source = .ok chunk)
    (h : (m.interpret source).2 = .error (.runtime e)) :
    ∃ m' : Machine, (m'.runChunk chunk).2 = .error e := by
  obtain ⟨m', -, -, hinterpret⟩ := interpret_of_compile hcompile
  refine ⟨m', ?_⟩
  rw [hinterpret] at h
  cases hrun : (m'.runChunk chunk).2 with
  | ok _ =>
    rw [hrun] at h
    cases h
  | error e' =>
    rw [hrun] at h
    cases h
    rfl

/-- **The lines of a compiled text.** Its tokens stand in the text and have the lines on which they
end there, also as the scanner over bytes counts them in 32 bits. The bytes of a literal have the
line of its token, those of an operator the line of the last token of its right or only operand,
which is the closing parenthesis if that is a group, and the final instruction has the last line of
the text. So lines never decrease along the code, and each run of the table has a greater line than
those before it. Where the text or the chunk is run on any machine and fails, the error has a line
of the text. -/
theorem compile_lines (id : HeapId) (source : String) (chunk : Chunk)
    (hcompile : compile id source = .ok chunk) :
    let cursor := Cursor.start source.toList
    let last := 1 + source.toList.count '\n'
    ∃ tokens, cursor.tokens = (tokens, .endOfText last) ∧
      (∀ k t, tokens[k]? = some t →
        t.Stands source.toList (cursor.passed k ++ (cursor.after k).skipped) ∧
        (source.toList.count '\n' < 2 ^ 32 - 1 →
          ((ByteScanner.new source).after (k + 1)).line.toNat = t.line)) ∧
      (∃ code, Stamped 0 0 tokens code) ∧
      (∀ code, Stamped 0 0 tokens code →
        chunk.code.toList = code.map Prod.fst ++ [OpCode.halt.toByte] ∧
        (∀ i byte t, code[i]? = some (byte, t) → chunk.lineAt i = .ok t.line) ∧
        chunk.lineAt code.length = .ok last) ∧
      (∀ level operand inner line, Derives level operand (.group inner line) →
        ∃ closing, operand.getLast? = some closing ∧ closing.kind = .rightParen ∧
          closing.line = line) ∧
      (∀ i j line line', i ≤ j → chunk.lineAt i = .ok line → chunk.lineAt j = .ok line' →
        line ≤ line') ∧
      chunk.lines.runs.Pairwise (fun run next => run.line < next.line) ∧
      ∀ (m : Machine) e,
        (m.interpret source).2 = .error (.runtime e) ∨ (m.runChunk chunk).2 = .error e →
        ∃ line, e.line = some line ∧ 1 ≤ line ∧ line ≤ last := by
  intro cursor last
  obtain ⟨e, line, ⟨tokens, htokens, hderives⟩, hwithin, rfl⟩ := compile_eq_ok_iff.1 hcompile
  obtain ⟨code, hstamped⟩ := hderives.stamped 0
  obtain rfl : line = last := Cursor.line_of_endOfText htokens
  have hsorted := program_lines_sorted id htokens hderives hstamped
  refine ⟨tokens, htokens, ?_, ⟨code, hstamped⟩, ?_, ?_, ?_, ?_, ?_⟩
  · intro k t ht
    exact ⟨Cursor.stands_of_getElem? htokens ht, ByteScanner.line_of_getElem? htokens ht⟩
  · intro code hstamped
    exact ⟨program_bytes id htokens hderives hstamped,
      fun i byte t hi => program_lineAt id htokens hderives hstamped hi,
      program_lineAt_halt id htokens hderives hstamped⟩
  · intro level operand inner line hgroup
    exact hgroup.getLast?_group
  · intro i j line line' hle hi hj
    exact (program_inStep e id last).line_le_of_sorted hsorted hle hi hj
  · exact (canonical_program e id last).pairwise_line_lt hsorted
  · intro m e' he'
    -- the chunk that the machine makes of the text has another identity, and the same lines
    obtain ⟨m', id', herror⟩ : ∃ (m' : Machine) (id' : HeapId),
        (m'.runChunk (e.program id' last)).2 = .error e' := by
      rcases he' with he' | he'
      · have hcompile' : compile m.heap.id.next source = .ok (e.program m.heap.id.next last) :=
          compile_eq_ok_iff.2 ⟨e, last, ⟨tokens, htokens, hderives⟩, hwithin, rfl⟩
        obtain ⟨m', herror⟩ := Machine.exists_runChunk_of_interpret hcompile' he'
        exact ⟨m', m.heap.id.next, herror⟩
      · exact ⟨m, id, he'⟩
    obtain ⟨line, hmem, hline⟩ := Machine.runChunk_error_line
      (program_size_pos id' htokens hderives hstamped) (program_inStep e id' last) m' herror
    exact ⟨line, hline, program_line_bounds id' htokens hderives hstamped hmem⟩

/-- A sum whose right operand is a group that ends lines after the operator, and is a string. -/
theorem compile_lines_group :
    let source := "1 + // one\n(\"a\n\"\n)\n"
    let e := Expr.binary .add (.literal (.number ⟨0x3FF0000000000000⟩) 1)
      (.group (.literal (.string [97, 10]) 3) 4)
    compile ⟨1⟩ source = .ok (e.program ⟨1⟩ 5) ∧
      (e.program ⟨1⟩ 5).lines.runs = [⟨1, 2⟩, ⟨3, 2⟩, ⟨4, 1⟩, ⟨5, 1⟩] ∧
      ∀ (m : Machine) e', (m.interpret source).2 = .error (.runtime e') →
        ∃ line, e'.line = some line ∧ 1 ≤ line ∧ line ≤ 5 := by
  intro source e
  have hcompile : compile ⟨1⟩ source = .ok (e.program ⟨1⟩ 5) :=
    (compile_of_parse ⟨1⟩ (by decide +kernel)).2
  obtain ⟨tokens, -, -, -, -, -, -, -, herrors⟩ := compile_lines ⟨1⟩ source _ hcompile
  have hlast : 1 + source.toList.count '\n' = 5 := by decide
  rw [hlast] at herrors
  exact ⟨hcompile, by decide +kernel, fun m e' he' => herrors m e' (.inl he')⟩

end ExprMachine
