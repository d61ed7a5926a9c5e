import ExprMachine.Proofs.Preservation
import ExprMachine.Proofs.Scanner.Continuation
import ExprMachine.Proofs.StackNeed

/-!
# Comparisons of texts

There are instructions for `>` and `<` and none for `>=` and `<=`, which are compiled to the
negation of the other one. Between numbers that comes to the same, but nothing is greater than a
NaN, less than it or equal to it, and so both negations hold of it.

* `Binary64.less_eq_false_iff` — what is not less is greater or equal, or there is a NaN;
* `Expr.moved` — a tree of a text that begins further down;
* `joined`, `writes_joined`, `eval_joined` — two texts in parentheses with an operator between them;
* `Machine.PrintsLine`, `Machine.printsLine_bool` — what a text prints that is true or false;
* `Machine.lowered_comparisons` — what `>=` and `<=` print.
-/

namespace ExprMachine

/-- A number that is not less than another is greater or equal, or one of them is a NaN. -/
theorem Binary64.less_eq_false_iff (x y : Binary64) :
    x.less y = false ↔
      y.less x = true ∨ x.equal y = true ∨
        (x.isNaN = true ∨ y.isNaN = true) ∧ x.equal y = false := by
  cases hx : x.isNaN with
  | true => simp [less, equal, hx]
  | false =>
    cases hy : y.isNaN with
    | true => simp [less, equal, hy]
    | false =>
      simp only [less, equal, hx, hy, Bool.not_false, Bool.and_self, Bool.true_and,
        decide_eq_false_iff_not, decide_eq_true_eq, beq_iff_eq, Bool.false_eq_true, or_self,
        false_and, or_false]
      omega

/-! ### Trees further down -/

namespace Expr

/-- The tree some lines further down. -/
def moved (k : Nat) : Expr → Expr
  | literal value line => literal value (line + k)
  | group inner line => group (inner.moved k) (line + k)
  | unary op operand => unary op (operand.moved k)
  | binary op left right => binary op (left.moved k) (right.moved k)

variable (k : Nat) (e : Expr)

theorem lastLine_moved : (e.moved k).lastLine = e.lastLine + k := by
  induction e with
  | literal value line => rfl
  | group inner line _ => rfl
  | unary op operand ih => exact ih
  | binary op left right _ ihr => exact ihr

/-- The value does not depend on the lines; a fault is as much further down. -/
theorem eval_moved : (e.moved k).eval =
    e.eval.mapError fun found => (found.1, found.2 + k) := by
  induction e with
  | literal value line => rfl
  | group inner line ih => exact ih
  | unary op operand ih =>
    simp only [moved, eval, ih, lastLine_moved]
    cases operand.eval with
    | error found => rfl
    | ok x =>
      show (op.apply x).mapError _ = ((op.apply x).mapError _).mapError _
      cases op.apply x <;> rfl
  | binary op left right ihl ihr =>
    simp only [moved, eval, ihl, ihr, lastLine_moved]
    cases left.eval with
    | error found => rfl
    | ok x =>
      cases right.eval with
      | error found => rfl
      | ok y =>
        show (op.apply x y).mapError _ = ((op.apply x y).mapError _).mapError _
        cases op.apply x y <;> rfl

@[simp]
theorem nest_moved : (e.moved k).nest = e.nest := by
  induction e with
  | literal value line => rfl
  | group inner line ih => exact congrArg (· + 1) ih
  | unary op operand ih => exact congrArg (· + 1) ih
  | binary op left right ihl ihr => simp only [moved, nest, ihl, ihr]

@[simp]
theorem need_moved : (e.moved k).need = e.need := by
  induction e with
  | literal value line => rfl
  | group inner line ih => exact ih
  | unary op operand ih => exact ih
  | binary op left right ihl ihr => simp only [moved, need, ihl, ihr]

@[simp]
theorem pooled_moved : (e.moved k).pooled = e.pooled := by
  induction e with
  | literal value line => rfl
  | group inner line ih => exact ih
  | unary op operand ih => exact ih
  | binary op left right ihl ihr => simp only [moved, pooled, ihl, ihr]

end Expr

theorem Derives.moved {level : Nat} {ts : List Token} {e : Expr} (h : Derives level ts e)
    (k : Nat) : Derives level (ts.map (Token.moved k)) (e.moved k) := by
  induction h with
  | @literal t value hvalue =>
    have hmoved : (t.moved k).literal? = some value := hvalue
    exact .literal hmoved
  | @group opening closing ts inner hopen _ hclose ih =>
    have hgroup : Derives 6 (opening.moved k :: ts.map (Token.moved k) ++ [closing.moved k]) _ :=
      .group hopen ih hclose
    rwa [List.map_append, List.map_cons]
  | unary hop _ ih => exact .unary hop ih
  | @binary t op level before after left right hop _ _ ihl ihr =>
    have hkind : op.StandsAt (t.moved k).kind level := hop
    rw [List.map_append, List.map_cons]
    exact .binary hkind ihl ihr
  | lift hlevel _ ih => exact .lift hlevel ih

/-! ### Texts with an operator between them -/

namespace BinaryOp

/-- How an operator is written. -/
def text : BinaryOp → String
  | notEqual => "!="
  | equal => "=="
  | greater => ">"
  | greaterEqual => ">="
  | less => "<"
  | lessEqual => "<="
  | add => "+"
  | subtract => "-"
  | multiply => "*"
  | divide => "/"

/-- The kind of an operator's token. -/
def kind : BinaryOp → TokenKind
  | notEqual => .bangEqual
  | equal => .equalEqual
  | greater => .greater
  | greaterEqual => .greaterEqual
  | less => .less
  | lessEqual => .lessEqual
  | add => .plus
  | subtract => .minus
  | multiply => .star
  | divide => .slash

/-- The operators that compare numbers, but for the one that is the negation of another. -/
def comparisons : List BinaryOp := [greater, greaterEqual, less, lessEqual, equal]

theorem standsAt_kind (op : BinaryOp) : op.StandsAt op.kind op.rank := by cases op <;> constructor

theorem matches_text (op : BinaryOp) : Matches op.kind op.text.toList := by
  have hsign {c : Char} {kind : TokenKind} (h : (c, kind) ∈ signs) : Matches kind [c] := .sign h
  have hequal {c : Char} {kind : TokenKind} (h : (c, kind) ∈ equalSigns) : Matches kind [c, '='] :=
    .equalSign h
  cases op with
  | notEqual | equal | greaterEqual | lessEqual => exact hequal (by decide)
  | _ => exact hsign (by decide)

end BinaryOp

/-- Two texts in parentheses, each with a line break behind it, and an operator between them. -/
def joined (op : BinaryOp) (a b : String) : String :=
  "(" ++ a ++ "\n) " ++ op.text ++ " (" ++ b ++ "\n)"

section Joined

open Cursor

variable {A B : String} {a b : Expr} {la lb : Nat} (op : BinaryOp)

/-- The tokens of an operator and of the parenthesis behind it. -/
theorem scans_operator {line : Nat} {s : List Char} {ts : List Token} {ending : Ending}
    (h : Scans ⟨s, line⟩ ts ending) :
    Scans ⟨' ' :: (op.text.toList ++ ' ' :: '(' :: s), line⟩
      (⟨op.kind, op.text.toList, line⟩ :: ⟨.leftParen, ['('], line⟩ :: ts) ending := by
  generalize hcursor : (⟨' ' :: (op.text.toList ++ ' ' :: '(' :: s), line⟩ : Cursor) = cursor
  have hrest : cursor.rest = [' '] ++ (op.text.toList ++ ' ' :: '(' :: s) := by
    rw [← hcursor]
    rfl
  have hgap : Gap [' '] := .space (.inl rfl) .nil
  have hafter : ∀ c ∈ (' ' :: '(' :: s).head?, IsSpace c := by
    intro c hc
    cases hc
    exact .inl rfl
  obtain ⟨hitem, hnext⟩ := next_of_spaced hgap op.matches_text hafter hrest
  -- no operator is written over two lines
  have hline : cursor.next.2.line = line := by
    have hfeeds : op.text.toList.count '\n' = 0 := by cases op <;> decide
    have hbefore : cursor.line = line := by rw [← hcursor]
    have hcount := line_add_count_next cursor
    rw [hnext, hrest, List.count_append, List.count_append, hfeeds, hbefore] at hcount
    simpa using hcount
  rw [hline] at hitem
  refine .token hitem ?_
  have hplace : cursor.next.2 = ⟨' ' :: '(' :: s, line⟩ := by rw [← hnext, ← hline]
  rw [hplace]
  exact .token rfl h

/-- The tokens of two texts with an operator between them. -/
theorem scans_joined {ts us : List Token} (hA : Scans (start A.toList) ts (.endOfText la))
    (hB : Scans (start B.toList) us (.endOfText lb)) :
    Scans (start (joined op A B).toList)
      (⟨.leftParen, ['('], 1⟩ :: (ts ++ ⟨.rightParen, [')'], la + 1⟩ ::
        ⟨op.kind, op.text.toList, la + 1⟩ :: ⟨.leftParen, ['('], la + 1⟩ ::
          (us.map (Token.moved la) ++ [⟨.rightParen, [')'], lb + la + 1⟩])))
      (.endOfText (lb + la + 1)) := by
  have htext : (joined op A B).toList = '(' :: (A.toList ++ '\n' :: ')' :: ' ' ::
      (op.text.toList ++ ' ' :: '(' :: (B.toList ++ '\n' :: [')']))) := by
    simp [joined]
  have hend : Scans ⟨[')'], lb + la + 1⟩ [⟨.rightParen, [')'], lb + la + 1⟩]
      (.endOfText (lb + la + 1)) := .token rfl (.endOfText rfl)
  have hright : Scans ⟨B.toList ++ '\n' :: [')'], la + 1⟩
      (us.map (Token.moved la) ++ [⟨.rightParen, [')'], lb + la + 1⟩])
      (.endOfText (lb + la + 1)) := by
    have hmoved := (hB.moved la).above hend
    rwa [Cursor.above, Cursor.moved, start, Nat.add_comm 1 la] at hmoved
  have hoperator : Scans
      ⟨')' :: ' ' :: (op.text.toList ++ ' ' :: '(' :: (B.toList ++ '\n' :: [')'])), la + 1⟩
      (⟨.rightParen, [')'], la + 1⟩ :: ⟨op.kind, op.text.toList, la + 1⟩ ::
        ⟨.leftParen, ['('], la + 1⟩ ::
          (us.map (Token.moved la) ++ [⟨.rightParen, [')'], lb + la + 1⟩]))
      (.endOfText (lb + la + 1)) := .token rfl (scans_operator op hright)
  rw [htext]
  exact .token rfl (hA.above hoperator)

/-- Two texts with an operator between them write the operator between two groups. -/
theorem writes_joined (hA : Writes A a la) (hB : Writes B b lb) :
    Writes (joined op A B) (.binary op (.group a (la + 1)) (.group (b.moved la) (lb + la + 1)))
      (lb + la + 1) := by
  obtain ⟨ts, htokens, hderives⟩ := hA
  obtain ⟨us, htokens', hderives'⟩ := hB
  refine ⟨_, tokens_eq_iff.2 (scans_joined op (tokens_eq_iff.1 htokens)
    (tokens_eq_iff.1 htokens')), ?_⟩
  have hrank := op.rank_le
  have hleft : Derives 6 (⟨.leftParen, ['('], 1⟩ :: ts ++ [⟨.rightParen, [')'], la + 1⟩])
      (.group a (la + 1)) := .group rfl hderives rfl
  have hright : Derives 6 (⟨.leftParen, ['('], la + 1⟩ :: us.map (Token.moved la) ++
      [⟨.rightParen, [')'], lb + la + 1⟩]) (.group (b.moved la) (lb + la + 1)) :=
    .group rfl (hderives'.moved la) rfl
  have hboth := Derives.binary (t := ⟨op.kind, op.text.toList, la + 1⟩) op.standsAt_kind
    (hleft.weaken (by omega) (Nat.le_refl 6)) (hright.weaken (by omega) (Nat.le_refl 6))
  have hwhole := hboth.weaken (Nat.zero_le _) (by omega)
  simpa only [List.cons_append, List.append_assoc, List.nil_append] using hwhole

/-- Whether the whole compiles does not depend on the operator. -/
theorem compile_joined_iff (hA : Writes A a la) (hB : Writes B b lb) (id : HeapId) :
    (∃ chunk, compile id (joined op A B) = .ok chunk) ↔
      a.nest + 1 ≤ nestingLimit ∧ b.nest + 2 ≤ nestingLimit ∧
        a.pooled.length + b.pooled.length ≤ constantLimit := by
  have hwrites := writes_joined op hA hB
  have hwithin : (Expr.binary op (.group a (la + 1))
      (.group (b.moved la) (lb + la + 1))).Within .standard ↔
        a.nest + 1 ≤ nestingLimit ∧ b.nest + 2 ≤ nestingLimit ∧
          a.pooled.length + b.pooled.length ≤ constantLimit := by
    constructor
    · intro h
      have hnest := h.nest_le
      have hpool := h.length_pooled_le
      simp only [Expr.nest, Expr.nest_moved, Limits.standard, Nat.max_le] at hnest
      simp only [Expr.pooled, Expr.pooled_moved, List.length_append] at hpool
      exact ⟨hnest.1, hnest.2, hpool⟩
    · intro h
      constructor
      · simp only [Expr.nest, Expr.nest_moved, Limits.standard, Nat.max_le]
        exact ⟨h.1, h.2.1⟩
      · simp only [Expr.pooled, Expr.pooled_moved, List.length_append]
        exact h.2.2
  rw [← hwithin]
  constructor
  · intro h
    obtain ⟨chunk, hcompile⟩ := h
    obtain ⟨e, line, hwrites', hwithin', -⟩ := compile_eq_ok_iff.1 hcompile
    obtain rfl := hwrites'.unique hwrites
    exact hwithin'
  · intro h
    exact ⟨_, compile_eq_ok_iff.2 ⟨_, _, hwrites, h, rfl⟩⟩

/-- The stack that the whole needs, whichever the operator is. -/
def joinedNeed (a b : Expr) : Nat := max a.need (b.need + 1)

/-- If the whole compiles, it evaluates to the operator's result on the two values. -/
theorem eval_joined {op : BinaryOp} {x y z : Literal} {id : HeapId} {chunk : Chunk}
    (hA : Writes A a la) (hB : Writes B b lb) (hevalA : a.eval = .ok x) (hevalB : b.eval = .ok y)
    (hcompile : compile id (joined op A B) = .ok chunk) (happly : op.apply x y = .ok z) :
    ∃ e line, Writes (joined op A B) e line ∧ e.Within .standard ∧ e.need = joinedNeed a b ∧
      e.eval = .ok z := by
  obtain ⟨e, line, hwrites, hwithin, -⟩ := compile_eq_ok_iff.1 hcompile
  obtain rfl := hwrites.unique (writes_joined op hA hB)
  refine ⟨_, line, hwrites, hwithin, ?_, ?_⟩
  · simp only [Expr.need, Expr.need_moved, joinedNeed]
  · have hmoved : (b.moved la).eval = .ok y := by
      rw [Expr.eval_moved, hevalB]
      rfl
    rw [Expr.eval, Expr.eval, Expr.eval, hevalA, hmoved]
    show (op.apply x y).mapError _ = .ok z
    rw [happly]
    rfl

end Joined

/-! ### The values of texts -/

/-- The text compiles, and evaluates to the literal. -/
def HasValue (source : String) (x : Literal) : Prop :=
  ∃ e line, Writes source e line ∧ e.Within .standard ∧ e.eval = .ok x

namespace Machine

/-- Run on the machine, the text prints the other text on a line of its own. -/
def PrintsLine (m : Machine) (source text : String) : Prop :=
  (m.interpret source).2 = .ok () ∧ (m.interpret source).1.output.written =
    m.output.written ++ (Text.Utf8.encode text.toList ++ [lineFeed])

theorem PrintsLine.unique {m : Machine} {source text text' : String} (h : m.PrintsLine source text)
    (h' : m.PrintsLine source text') :
    Text.Utf8.encode text.toList = Text.Utf8.encode text'.toList := by
  have hwritten := congrArg Array.toList (h.2.symm.trans h'.2)
  rw [Array.toList_appendList, Array.toList_appendList] at hwritten
  exact List.append_cancel_right (List.append_cancel_left hwritten)

section Printing

variable {m : Machine} (hroom : m.output.room = none) {source : String} {e : Expr} {line : Nat}
  (hwrites : Writes source e line) (hwithin : e.Within .standard)

include hroom hwrites hwithin

/-- A text prints its value, if the stack has room for what the tree needs. -/
theorem printsLine_of_need_le {text : String} {x : Literal} (heval : e.eval = .ok x)
    (hneed : e.need ≤ m.options.stackLimit)
    (htext : x.written = Text.Utf8.encode text.toList) : m.PrintsLine source text := by
  have hcompile : compile m.heap.id.next source = .ok (e.program m.heap.id.next line) :=
    compile_eq_ok_iff.2 ⟨e, line, hwrites, hwithin, rfl⟩
  obtain ⟨m₁, hfollows₁, hheap, hinterpret⟩ := interpret_of_compile hcompile
  have hbegin := hfollows₁.trans (m₁.follows_begin (e.program m.heap.id.next line))
  have hperforms := program_performs (m := m₁.begin (e.program m.heap.id.next line)) line
    (by rw [heap_begin, hheap]; exact m.heap.id.next_ne) hwithin.length_pooled_le rfl
    (by rwa [hbegin.options_eq])
  rw [heval] at hperforms
  cases hperforms with
  | value hfollows hstack hv hrun =>
    have hlast := hbegin.trans hfollows
    obtain ⟨m₃, hend, -, houtput, -⟩ := runFrom_last (e.program m.heap.id.next line)
      (e.postOrder 0).length [] hstack (by rw [hlast.output_eq, hroom])
    rw [hend] at hrun
    rw [PrintsLine, hinterpret, runChunk_of_ok hrun]
    rw [hlast.output_eq, Heap.written_of_literal? hv, htext] at houtput
    exact ⟨rfl, congrArg Sink.written houtput⟩

/-- A text whose tree needs more prints nothing. -/
theorem need_le_of_printsLine {text : String} (h : m.PrintsLine source text) :
    e.need ≤ m.options.stackLimit := by
  by_contra hexceeds
  obtain ⟨m₁, hfollows, hheap, hinterpret⟩ := interpret_of_compile
    (compile_eq_ok_iff.2 ⟨e, line, hwrites, hwithin, rfl⟩)
  have hcomes := program_comesTrue (e := e) line (hheap ▸ m.heap.id.next_ne)
    (hfollows.output_eq ▸ hroom)
  have hstop := program_stop e m.heap.id.next line hwithin.length_pooled_le m.heap
    m.options.stackLimit
  rw [hheap, hfollows.options_eq] at hcomes
  rw [if_neg hexceeds] at hstop
  have hoverflows := overflows_of_comesTrue hstop hcomes
  have hok : (m.interpret source).2 = .ok () := h.1
  rw [← hinterpret] at hoverflows
  generalize m.interpret source = outcome at hoverflows hok
  cases hoverflows <;> cases hok

/-- A truth value is printed as one of two words. -/
theorem printsLine_bool {t : Bool} (heval : e.eval = .ok (.bool t)) :
    (m.PrintsLine source "true" ↔ e.need ≤ m.options.stackLimit ∧ t = true) ∧
      (m.PrintsLine source "false" ↔ e.need ≤ m.options.stackLimit ∧ t = false) := by
  have hwords : Text.Utf8.encode "false".toList ≠ Text.Utf8.encode "true".toList := by decide
  have hneed {text : String} (h : m.PrintsLine source text) : e.need ≤ m.options.stackLimit :=
    need_le_of_printsLine hroom hwrites hwithin h
  cases t with
  | true =>
    have hprints (h : e.need ≤ m.options.stackLimit) : m.PrintsLine source "true" :=
      printsLine_of_need_le hroom hwrites hwithin heval h rfl
    exact ⟨⟨fun h => ⟨hneed h, rfl⟩, fun h => hprints h.1⟩,
      fun h => absurd (h.unique (hprints (hneed h))) hwords, nofun⟩
  | false =>
    have hprints (h : e.need ≤ m.options.stackLimit) : m.PrintsLine source "false" :=
      printsLine_of_need_le hroom hwrites hwithin heval h rfl
    exact ⟨⟨fun h => absurd ((hprints (hneed h)).unique h) hwords, nofun⟩,
      fun h => ⟨hneed h, rfl⟩, fun h => hprints h.1⟩

end Printing

/-- **What `>=` and `<=` print.** Between two texts that evaluate to numbers, `>=` prints `true` if
`>` or `==` does, or if one of the numbers is a NaN and `==` prints `false`; so it is with `<=` and
`<`. On a machine with the default stack or a larger one each comparison prints one of two words. -/
theorem lowered_comparisons {m : Machine} (hroom : m.output.room = none) {A B : String}
    {x y : Binary64} (hA : HasValue A (.number x)) (hB : HasValue B (.number y))
    (hcompile : ∀ op ∈ BinaryOp.comparisons,
      ∃ chunk, compile m.heap.id.next (joined op A B) = .ok chunk) :
    (({} : MachineOptions).stackLimit ≤ m.options.stackLimit → ∀ op ∈ BinaryOp.comparisons,
      m.PrintsLine (joined op A B) "true" ∨ m.PrintsLine (joined op A B) "false") ∧
    (m.PrintsLine (joined .greaterEqual A B) "true" ↔
      m.PrintsLine (joined .greater A B) "true" ∨ m.PrintsLine (joined .equal A B) "true" ∨
        (x.isNaN = true ∨ y.isNaN = true) ∧ m.PrintsLine (joined .equal A B) "false") ∧
    (m.PrintsLine (joined .lessEqual A B) "true" ↔
      m.PrintsLine (joined .less A B) "true" ∨ m.PrintsLine (joined .equal A B) "true" ∨
        (x.isNaN = true ∨ y.isNaN = true) ∧ m.PrintsLine (joined .equal A B) "false") := by
  obtain ⟨a, la, hwritesA, -, hevalA⟩ := hA
  obtain ⟨b, lb, hwritesB, -, hevalB⟩ := hB
  -- the stack is the same for all of them, so either all are run to the end or none is
  have hprints (op : BinaryOp) (t : Bool) (hop : op ∈ BinaryOp.comparisons)
      (happly : op.apply (.number x) (.number y) = .ok (.bool t)) :
      (m.PrintsLine (joined op A B) "true" ↔ joinedNeed a b ≤ m.options.stackLimit ∧ t = true) ∧
        (m.PrintsLine (joined op A B) "false" ↔
          joinedNeed a b ≤ m.options.stackLimit ∧ t = false) := by
    obtain ⟨chunk, hchunk⟩ := hcompile op hop
    obtain ⟨e, line, hwrites, hwithin, hneed, heval⟩ :=
      eval_joined hwritesA hwritesB hevalA hevalB hchunk happly
    rw [← hneed]
    exact printsLine_bool hroom hwrites hwithin heval
  have hgreater := hprints .greater (y.less x) (by decide) rfl
  have hgreaterEqual := hprints .greaterEqual (!x.less y) (by decide) rfl
  have hless := hprints .less (x.less y) (by decide) rfl
  have hlessEqual := hprints .lessEqual (!y.less x) (by decide) rfl
  have hequal := hprints .equal (x.equal y) (by decide) rfl
  refine ⟨?_, ?_, ?_⟩
  · intro hlimit
    have hneed : joinedNeed a b ≤ m.options.stackLimit := by
      obtain ⟨hnestA, hnestB, -⟩ :=
        (compile_joined_iff .equal hwritesA hwritesB _).1 (hcompile .equal (by decide))
      have hneedA := a.need_le_nest
      have hneedB := b.need_le_nest
      have hlimits : nestingLimit = ({} : MachineOptions).stackLimit := rfl
      rw [joinedNeed, Nat.max_le]
      omega
    have hword {P Q N : Prop} {t : Bool} (h : (P ↔ N ∧ t = true) ∧ (Q ↔ N ∧ t = false)) (hN : N) :
        P ∨ Q :=
      (Bool.eq_false_or_eq_true t).imp (fun ht => h.1.2 ⟨hN, ht⟩) fun ht => h.2.2 ⟨hN, ht⟩
    simp only [BinaryOp.comparisons, List.forall_mem_cons, List.not_mem_nil, false_implies,
      implies_true, and_true]
    exact ⟨hword hgreater hneed, hword hgreaterEqual hneed, hword hless hneed,
      hword hlessEqual hneed, hword hequal hneed⟩
  · rw [hgreaterEqual.1, hgreater.1, hequal.1, hequal.2, Bool.not_eq_true',
      Binary64.less_eq_false_iff, and_or_left, and_or_left, and_left_comm]
  · rw [hlessEqual.1, hless.1, hequal.1, hequal.2, Bool.not_eq_true',
      Binary64.less_eq_false_iff, Binary64.equal_comm, or_comm (a := y.isNaN = true), and_or_left,
      and_or_left, and_left_comm]

/-- Two infinities, of which one has a comment behind it. -/
theorem lowered_comparisons_infinities :
    let m := Machine.new ⟨0⟩ {}
    let A := "1 / 0 // above every number"
    m.output.room = none ∧ HasValue A (.number .infinity) ∧ HasValue "2/0" (.number .infinity) ∧
      (∀ op ∈ BinaryOp.comparisons,
        ∃ chunk, compile m.heap.id.next (joined op A "2/0") = .ok chunk) ∧
      ∀ op ∈ BinaryOp.comparisons,
        m.PrintsLine (joined op A "2/0") "true" ∨ m.PrintsLine (joined op A "2/0") "false" := by
  intro m A
  let quotient (bits : UInt64) : Expr :=
    .binary .divide (.literal (.number ⟨bits⟩) 1) (.literal (.number .zero) 1)
  have hvalue (bits : UInt64) (h : Binary64.div ⟨bits⟩ .zero = .infinity) :
      (quotient bits).eval = .ok (.number .infinity) := by
    rw [← h]
    rfl
  have hparseA : parse A.toList = .ok (quotient 0x3FF0000000000000, 1) := by decide +kernel
  have hparseB : parse "2/0".toList = .ok (quotient 0x4000000000000000, 1) := by decide +kernel
  obtain ⟨hwritesA, hwithinA⟩ := parse_eq_ok_iff.1 hparseA
  obtain ⟨hwritesB, hwithinB⟩ := parse_eq_ok_iff.1 hparseB
  have hA : HasValue A (.number .infinity) :=
    ⟨_, 1, hwritesA, hwithinA, hvalue _ (by decide +kernel)⟩
  have hB : HasValue "2/0" (.number .infinity) :=
    ⟨_, 1, hwritesB, hwithinB, hvalue _ (by decide +kernel)⟩
  have hcompile : ∀ op ∈ BinaryOp.comparisons,
      ∃ chunk, compile m.heap.id.next (joined op A "2/0") = .ok chunk :=
    fun op _ => (compile_joined_iff op hwritesA hwritesB _).2 (by decide)
  exact ⟨rfl, hA, hB, hcompile,
    (lowered_comparisons (m := m) rfl hA hB hcompile).1 (Nat.le_refl 256)⟩

/-- A NaN is neither greater than itself nor equal to itself, and `>=` holds of it. -/
theorem nan_at_least_itself :
    let m := Machine.new ⟨0⟩ {}
    let x := Binary64.div .zero .zero
    HasValue "0/0" (.number x) ∧ x.isNaN = true ∧
      m.PrintsLine (joined .greaterEqual "0/0" "0/0") "true" ∧
      ¬ m.PrintsLine (joined .greater "0/0" "0/0") "true" ∧
      ¬ m.PrintsLine (joined .equal "0/0" "0/0") "true" := by
  intro m x
  let e : Expr := .binary .divide (.literal (.number .zero) 1) (.literal (.number .zero) 1)
  have hparse : parse "0/0".toList = .ok (e, 1) := by decide +kernel
  obtain ⟨hwrites, hwithin⟩ := parse_eq_ok_iff.1 hparse
  have heval : e.eval = .ok (.number x) := rfl
  have hprints (op : BinaryOp) (t : Bool)
      (happly : op.apply (.number x) (.number x) = .ok (.bool t)) :
      m.PrintsLine (joined op "0/0" "0/0") "true" ↔ joinedNeed e e ≤ 256 ∧ t = true := by
    obtain ⟨chunk, hcompile⟩ := (compile_joined_iff op hwrites hwrites ⟨1⟩).2 (by decide)
    obtain ⟨e', line, hwrites', hwithin', hneed, heval'⟩ :=
      eval_joined hwrites hwrites heval heval hcompile happly
    rw [← hneed]
    exact (printsLine_bool rfl hwrites' hwithin' heval').1
  have hless : x.less x = false := by decide +kernel
  have hequal : x.equal x = false := by decide +kernel
  refine ⟨⟨e, 1, hwrites, hwithin, heval⟩, by decide +kernel, ?_, ?_, ?_⟩
  · rw [hprints .greaterEqual (!x.less x) rfl, hless]
    decide
  · rw [hprints .greater (x.less x) rfl, hless]
    exact fun h => Bool.false_ne_true h.2
  · rw [hprints .equal (x.equal x) rfl, hequal]
    exact fun h => Bool.false_ne_true h.2

end Machine

end ExprMachine
