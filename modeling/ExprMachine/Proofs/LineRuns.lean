import Mathlib.Algebra.GroupWithZero.Nat
import Mathlib.Data.List.Chain
import ExprMachine.Proofs.LineTable

/-!
# Line tables as a code

A line table is a code for a list of lines, one for each byte. Nothing is lost in it, and there is
only one table for each list: no run is empty, and neighbours have different lines.

* `Canonical` — the form that runs have; `Canonical.unique` says that it leaves no choice;
* `LineTable.Encodes` — a table is the code of a list of lines; `encodes_push` adds one line;
* `WordTable` — the table in words of 32 bits, first run first, which a lookup walks through from
  the front adding up lengths; `WordTable.Denotes.push`, `WordTable.Denotes.lineAt_eq`;
* `Chunk.Call`, `Chunk.afterAll` — writes to a chunk and lookups between them;
* `lines_afterAll` — what the table of a chunk is after any of them.
-/

namespace ExprMachine

/-! ### Runs -/

/-- The lines that runs stand for, one for each byte. -/
def spread (runs : List LineRun) : List Nat :=
  runs.flatMap fun run => List.replicate run.length run.line

theorem spread_cons (run : LineRun) (later : List LineRun) :
    spread (run :: later) = List.replicate run.length run.line ++ spread later := rfl

theorem length_spread (runs : List LineRun) :
    (spread runs).length = (runs.map LineRun.length).sum := by
  simp [spread, List.length_flatMap]

/-- Runs of which none is empty and none has the line of its neighbour. -/
structure Canonical (runs : List LineRun) : Prop where
  length_pos : ∀ run ∈ runs, 0 < run.length
  ne_next : runs.IsChain fun run next => run.line ≠ next.line

theorem canonical_nil : Canonical [] := ⟨nofun, .nil⟩

theorem Canonical.tail {run : LineRun} {later : List LineRun} (h : Canonical (run :: later)) :
    Canonical later :=
  ⟨fun next hnext => h.length_pos next (List.mem_cons_of_mem _ hnext), h.ne_next.tail⟩

theorem Canonical.reverse {runs : List LineRun} (h : Canonical runs) : Canonical runs.reverse where
  length_pos := fun run hrun => h.length_pos run (List.mem_reverse.1 hrun)
  ne_next := List.isChain_reverse.2 (h.ne_next.imp fun _ _ hne => Ne.symm hne)

/-- The first line is that of the first run, which is not empty. -/
theorem Canonical.head?_spread {run : LineRun} {later : List LineRun}
    (h : Canonical (run :: later)) : (spread (run :: later)).head? = some run.line := by
  obtain ⟨n, hn⟩ := Nat.exists_eq_add_of_lt (h.length_pos run List.mem_cons_self)
  rw [spread_cons, hn, Nat.zero_add, List.replicate_succ]
  rfl

/-- The bytes of the first run are all that have its line before another line comes. -/
theorem Canonical.takeWhile_spread {run : LineRun} {later : List LineRun}
    (h : Canonical (run :: later)) :
    (spread (run :: later)).takeWhile (· = run.line) = List.replicate run.length run.line := by
  have hstop : (spread later).takeWhile (· = run.line) = [] := by
    cases later with
    | nil => rfl
    | cons next later =>
      obtain ⟨lines, hlines⟩ := List.head?_eq_some_iff.1 h.tail.head?_spread
      have hne : next.line ≠ run.line := Ne.symm (List.isChain_cons_cons.1 h.ne_next).1
      simp [hlines, hne]
  have hall : ∀ line ∈ List.replicate run.length run.line, decide (line = run.line) = true :=
    fun line hline => decide_eq_true (List.eq_of_mem_replicate hline)
  rw [spread_cons, List.takeWhile_append_of_pos hall, hstop, List.append_nil]

/-- **Lines have one code**: canonical runs that stand for the same lines are the same runs. -/
theorem Canonical.unique {runs runs' : List LineRun} (h : Canonical runs) (h' : Canonical runs')
    (hspread : spread runs = spread runs') : runs = runs' := by
  have hempty {run : LineRun} {later : List LineRun} (h : Canonical (run :: later)) :
      spread (run :: later) ≠ [] := by
    intro hnil
    have hhead := h.head?_spread
    rw [hnil] at hhead
    cases hhead
  induction runs generalizing runs' with
  | nil =>
    cases runs' with
    | nil => rfl
    | cons run later => exact absurd hspread.symm (hempty h')
  | cons run later ih =>
    cases runs' with
    | nil => exact absurd hspread (hempty h)
    | cons run' later' =>
      have hline : run.line = run'.line := by
        have hhead := h.head?_spread
        rw [hspread, h'.head?_spread] at hhead
        exact (Option.some.inj hhead).symm
      have hlength : run.length = run'.length := by
        have hfirst := h.takeWhile_spread
        rw [hspread, hline, h'.takeWhile_spread] at hfirst
        have heq := congrArg List.length hfirst
        rw [List.length_replicate, List.length_replicate] at heq
        exact heq.symm
      have hrun : run = run' := by
        cases run
        cases run'
        cases hline
        cases hlength
        rfl
      rw [spread_cons, spread_cons, hrun] at hspread
      rw [hrun, ih h.tail h'.tail (List.append_cancel_left hspread)]

/-- Where the lines never decrease, each run has a greater line than those before it. -/
theorem Canonical.pairwise_line_lt {runs : List LineRun} (h : Canonical runs)
    (hsorted : (spread runs).Pairwise (· ≤ ·)) :
    runs.Pairwise fun run next => run.line < next.line := by
  induction runs with
  | nil => exact .nil
  | cons run later ih =>
    rw [spread_cons, List.pairwise_append] at hsorted
    obtain ⟨-, hlater, hcross⟩ := hsorted
    refine List.pairwise_cons.2 ⟨fun next hnext => ?_, ih h.tail hlater⟩
    cases later with
    | nil => cases hnext
    | cons first rest =>
      have hle : run.line ≤ first.line := by
        refine hcross _ ?_ _ ?_
        · exact List.mem_replicate.2 ⟨Nat.ne_of_gt (h.length_pos run List.mem_cons_self), rfl⟩
        · exact List.mem_of_head? h.tail.head?_spread
      have hlt : run.line < first.line :=
        Nat.lt_of_le_of_ne hle (List.isChain_cons_cons.1 h.ne_next).1
      rcases List.mem_cons.1 hnext with rfl | hrest
      · exact hlt
      · exact Nat.lt_trans hlt ((List.pairwise_cons.1 (ih h.tail hlater)).1 next hrest)

/-! ### Tables -/

namespace LineTable

/-- A table is the code of a list of lines. -/
structure Encodes (table : LineTable) (lines : List Nat) : Prop where
  size_eq : table.size = lines.length
  toList_eq : table.toList = lines
  canonical : Canonical table.runs

theorem encodes_empty : Encodes {} [] := ⟨rfl, rfl, canonical_nil⟩

theorem canonical_push {latest : List LineRun} {size : Nat} (h : Canonical latest) (line : Nat) :
    Canonical (push ⟨latest, size⟩ line).latest := by
  cases latest with
  | nil => exact ⟨by simp [push], List.isChain_singleton _⟩
  | cons run older =>
    by_cases hline : run.line = line
    · simp only [push, if_pos hline]
      refine ⟨?_, ?_⟩
      · rintro r (_ | ⟨_, hr⟩)
        · exact Nat.succ_pos _
        · exact h.length_pos r (List.mem_cons_of_mem _ hr)
      · -- the longer run has the line of the one that it replaces
        cases older with
        | nil => exact List.isChain_singleton _
        | cons next older => exact List.isChain_cons_cons.2 (List.isChain_cons_cons.1 h.ne_next)
    · simp only [push, if_neg hline]
      refine ⟨?_, List.isChain_cons_cons.2 ⟨Ne.symm hline, h.ne_next⟩⟩
      rintro r (_ | ⟨_, hr⟩)
      · exact Nat.one_pos
      · exact h.length_pos r hr

theorem canonical_runs_push {table : LineTable} (h : Canonical table.runs) (line : Nat) :
    Canonical (table.push line).runs := by
  have hlatest : Canonical table.latest := by
    have hreverse := h.reverse
    rwa [runs, List.reverse_reverse] at hreverse
  have hpushed : Canonical (table.push line).latest := canonical_push hlatest line
  exact hpushed.reverse

/-- One more byte adds its line at the end of the list. -/
theorem encodes_push {table : LineTable} {lines : List Nat} (h : table.Encodes lines)
    (line : Nat) : (table.push line).Encodes (lines ++ [line]) where
  size_eq := by rw [size_push, h.size_eq, List.length_append, List.length_singleton]
  toList_eq := by rw [toList_push, h.toList_eq]
  canonical := canonical_runs_push h.canonical line

section Encodes

variable {table : LineTable} {lines : List Nat} (h : table.Encodes lines)

include h

theorem Encodes.counted : table.Counted := by rw [Counted, h.size_eq, h.toList_eq]

/-- A lookup gives the line that came with the byte, and knows how many bytes there are. -/
theorem Encodes.lineAt_eq (offset : Nat) :
    table.lineAt offset =
      match lines[offset]? with
      | some line => .ok line
      | none => .error (.offset offset lines.length) := by
  have hlook : table.lineAt? offset = lines[offset]? := by
    rw [lineAt?_eq_getElem? h.counted, h.toList_eq]
  rw [← hlook, ← h.size_eq]
  rfl

theorem Encodes.sum_length : (table.runs.map LineRun.length).sum = table.size := by
  rw [← length_spread, h.counted]
  rfl

/-- Tables have the same runs if they are codes of the same lines, and not otherwise. -/
theorem Encodes.runs_eq_iff {table' : LineTable} {lines' : List Nat} (h' : table'.Encodes lines') :
    table.runs = table'.runs ↔ lines = lines' := by
  rw [← h.toList_eq, ← h'.toList_eq]
  constructor
  · intro hruns
    rw [toList, toList, hruns]
  · exact h.canonical.unique h'.canonical

end Encodes

end LineTable

/-! ### Tables in words -/

/-- A run in two words of 32 bits. -/
structure WordRun where
  line : UInt32
  length : UInt32
  deriving DecidableEq, Repr

/-- The run that two words are. -/
def WordRun.run (words : WordRun) : LineRun := ⟨words.line.toNat, words.length.toNat⟩

/-- A table in words, the first run first. -/
structure WordTable where
  runs : List WordRun := []
  total : Nat := 0
  deriving DecidableEq, Repr

namespace WordTable

/-- Record one more byte: the last run gets longer if it has the line, and another one begins
otherwise. -/
def push (words : WordTable) (line : UInt32) : WordTable :=
  { runs := match words.runs.getLast? with
      | none => [⟨line, 1⟩]
      | some last =>
        if last.line = line then words.runs.dropLast ++ [{ last with length := last.length + 1 }]
        else words.runs ++ [⟨line, 1⟩]
    total := words.total + 1 }

/-- The line at an offset, by the runs that come after `passed` bytes: that of the first run that
ends behind the offset. -/
def find? (offset passed : Nat) : List WordRun → Option UInt32
  | [] => none
  | run :: later =>
    if offset < passed + run.length.toNat then some run.line
    else find? offset (passed + run.length.toNat) later

/-- The line of the byte at an offset. -/
def lineAt (words : WordTable) (offset : Nat) : Except RangeError UInt32 :=
  match find? offset 0 words.runs with
  | some line => .ok line
  | none => .error (.offset offset words.total)

/-- The words are those of a table. -/
structure Denotes (words : WordTable) (table : LineTable) : Prop where
  runs_eq : words.runs.map WordRun.run = table.runs
  total_eq : words.total = table.size

theorem denotes_empty : Denotes {} {} := ⟨rfl, rfl⟩

/-- Words record a byte as a table does, as long as the bytes can be counted in 32 bits. -/
theorem Denotes.push {words : WordTable} {table : LineTable} (h : words.Denotes table)
    (hcounted : table.Counted) (hsize : table.size + 1 < 2 ^ 32) (line : UInt32) :
    (words.push line).Denotes (table.push line.toNat) where
  total_eq := by rw [WordTable.push, LineTable.size_push, h.total_eq]
  runs_eq := by
    obtain ⟨latest, size⟩ := table
    have hruns : words.runs.map WordRun.run = latest.reverse := h.runs_eq
    cases latest with
    | nil =>
      rw [List.reverse_nil, List.map_eq_nil_iff] at hruns
      simp only [WordTable.push, LineTable.push, hruns]
      rfl
    | cons run older =>
      obtain ⟨before, last, hsplit, hbefore, hlast⟩ : ∃ before last,
          words.runs = before ++ [last] ∧ before.map WordRun.run = older.reverse ∧
            last.run = run := by
        rw [List.reverse_cons] at hruns
        obtain ⟨before, tail, hsplit, hbefore, htail⟩ := List.map_eq_append_iff.1 hruns
        obtain ⟨last, rfl, hlast⟩ := List.map_eq_singleton_iff.1 htail
        exact ⟨before, last, hsplit, hbefore, hlast⟩
      subst hlast
      have hlength : last.length.toNat ≤ size := by
        have hcount : size = (LineTable.linesOf (last.run :: older)).length := hcounted
        rw [hcount, LineTable.linesOf_cons, List.length_append, List.length_replicate]
        exact Nat.le_add_left _ _
      have hline : last.run.line = line.toNat ↔ last.line = line := UInt32.toNat_inj
      simp only [WordTable.push, LineTable.push, LineTable.runs, hsplit, List.getLast?_concat,
        List.dropLast_concat, hline]
      split
      · -- one more byte does not overflow the length
        have hword : (last.length + 1).toNat = last.length.toNat + 1 := by
          rw [UInt32.toNat_add]
          exact Nat.mod_eq_of_lt (Nat.lt_of_le_of_lt (Nat.succ_le_succ hlength) hsize)
        simp [hbefore, WordRun.run, hword]
      · simp [hbefore, WordRun.run]

/-- The walk from the front finds the line that stands in the list at that place. -/
theorem find?_eq (offset passed : Nat) (runs : List WordRun) (h : passed ≤ offset) :
    (find? offset passed runs).map UInt32.toNat =
      (spread (runs.map WordRun.run))[offset - passed]? := by
  induction runs generalizing passed with
  | nil => rfl
  | cons run later ih =>
    have hlines : spread ((run :: later).map WordRun.run) =
        List.replicate run.length.toNat run.line.toNat ++ spread (later.map WordRun.run) := rfl
    rw [find?, hlines]
    split
    · rename_i hin
      rw [List.getElem?_append_left (by rw [List.length_replicate]; omega),
        List.getElem?_replicate, if_pos (by omega)]
      rfl
    · rename_i hpast
      rw [ih _ (Nat.le_of_not_lt hpast),
        List.getElem?_append_right (by rw [List.length_replicate]; omega), List.length_replicate,
        Nat.sub_sub]

/-- **A lookup in words** answers as one in the table does. -/
theorem Denotes.lineAt_eq {words : WordTable} {table : LineTable} (h : words.Denotes table)
    (hcounted : table.Counted) (offset : Nat) :
    (words.lineAt offset).map UInt32.toNat = table.lineAt offset := by
  have hfind := find?_eq offset 0 words.runs (Nat.zero_le offset)
  have hlines : spread table.runs = table.toList := rfl
  rw [h.runs_eq, hlines, Nat.sub_zero, ← LineTable.lineAt?_eq_getElem? hcounted] at hfind
  rw [lineAt, LineTable.lineAt, ← hfind, h.total_eq]
  cases find? offset 0 words.runs <;> rfl

end WordTable

/-! ### Chunks -/

namespace Chunk

/-- A call on a chunk: a byte or an instruction is written with its line, which is a word of 32
bits, or a line is looked up. -/
inductive Call where
  | write (byte : UInt8) (line : UInt32)
  | writeOp (op : OpCode) (line : UInt32)
  | lookup (offset : Nat)
  deriving DecidableEq, Repr

/-- The line that a call writes. -/
def Call.line? : Call → Option UInt32
  | write _ line => some line
  | writeOp _ line => some line
  | lookup _ => none

/-- The lines that calls write, in order. -/
def Call.lines (calls : List Call) : List UInt32 := calls.filterMap Call.line?

/-- The chunk after a call. -/
def after (chunk : Chunk) : Call → Chunk
  | .write byte line => chunk.write byte line.toNat
  | .writeOp op line => chunk.writeOp op line.toNat
  | .lookup _ => chunk

/-- The chunk after calls one after the other. -/
def afterAll (chunk : Chunk) (calls : List Call) : Chunk := calls.foldl after chunk

/-- The lines of a chunk are written with its bytes: the table is their code, and so are the words
that record them. -/
structure Lined (chunk : Chunk) (words : WordTable) (lines : List UInt32) : Prop where
  size_eq : chunk.size = lines.length
  encodes : chunk.lines.Encodes (lines.map UInt32.toNat)
  denotes : lines.length < 2 ^ 32 → words.Denotes chunk.lines

theorem Lined.write {chunk : Chunk} {words : WordTable} {lines : List UInt32}
    (h : chunk.Lined words lines) (byte : UInt8) (line : UInt32) :
    (chunk.write byte line.toNat).Lined (words.push line) (lines ++ [line]) where
  size_eq := by rw [size_write, h.size_eq, List.length_append, List.length_singleton]
  encodes := by
    rw [List.map_append]
    exact LineTable.encodes_push h.encodes line.toNat
  denotes := by
    intro hsize
    rw [List.length_append, List.length_singleton] at hsize
    have hlength := h.encodes.size_eq
    rw [List.length_map] at hlength
    exact (h.denotes (by omega)).push h.encodes.counted (by omega) line

theorem Lined.afterAll {chunk : Chunk} {words : WordTable} {lines : List UInt32}
    (h : chunk.Lined words lines) (calls : List Call) :
    (chunk.afterAll calls).Lined ((Call.lines calls).foldl WordTable.push words)
      (lines ++ Call.lines calls) := by
  induction calls generalizing chunk words lines with
  | nil => rwa [Call.lines, List.filterMap_nil, List.append_nil]
  | cons call calls ih =>
    cases call with
    | write byte line =>
      have hrest := ih (h.write byte line)
      rwa [List.append_assoc] at hrest
    | writeOp op line =>
      have hrest := ih (h.write op.toByte line)
      rwa [List.append_assoc] at hrest
    | lookup offset => exact ih h

/-- Exactly the lines that were written are found again. -/
theorem Lined.lineAt_eq_ok_iff {chunk : Chunk} {words : WordTable} {lines : List UInt32}
    (h : chunk.Lined words lines) {i line : Nat} :
    chunk.lineAt i = .ok line ↔ ∃ word, lines[i]? = some word ∧ word.toNat = line := by
  rw [Chunk.lineAt, h.encodes.lineAt_eq, List.getElem?_map]
  cases lines[i]? <;> simp

/-- A lookup behind the bytes says how many there are. -/
theorem Lined.lineAt_of_le {chunk : Chunk} {words : WordTable} {lines : List UInt32}
    (h : chunk.Lined words lines) {i : Nat} (hi : lines.length ≤ i) :
    chunk.lineAt i = .error (.offset i chunk.code.size) := by
  have hsize : chunk.code.size = lines.length := h.size_eq
  rw [Chunk.lineAt, h.encodes.lineAt_eq, List.getElem?_map, List.getElem?_eq_none hi,
    List.length_map, hsize]
  rfl

theorem lined_afterAll (id : HeapId) (calls : List Call) :
    ((empty id).afterAll calls).Lined ((Call.lines calls).foldl WordTable.push {})
      (Call.lines calls) := by
  have hempty : (empty id).Lined {} [] :=
    ⟨rfl, LineTable.encodes_empty, fun _ => WordTable.denotes_empty⟩
  exact hempty.afterAll calls

/-- **The line table is a faithful and canonical code.** After any writes, with lookups between
them, a chunk has as many lines as bytes; a lookup gives the line that came with the byte, or says
that the offset is outside the bytes written so far, and writes do not change what it gave. No run
is empty, neighbours have different lines, the lengths add up, and there are the same runs after
other calls exactly if those wrote the same lines. All this holds of the table in words of 32 bits
too if there are fewer than 2 ^ 32 bytes. -/
theorem lines_afterAll (id : HeapId) (calls : List Call)
    (hsize : (Call.lines calls).length < 2 ^ 32) :
    let chunk := (empty id).afterAll calls
    let lines := Call.lines calls
    let words := lines.foldl WordTable.push {}
    chunk.lines.size = chunk.code.size ∧ chunk.code.size = lines.length ∧
      (∀ i line, lines[i]? = some line → chunk.lineAt i = .ok line.toNat) ∧
      (∀ i, lines.length ≤ i → chunk.lineAt i = .error (.offset i chunk.code.size)) ∧
      (∀ more i line, chunk.lineAt i = .ok line → (chunk.afterAll more).lineAt i = .ok line) ∧
      (∀ run ∈ chunk.lines.runs, 0 < run.length) ∧
      chunk.lines.runs.IsChain (fun run next => run.line ≠ next.line) ∧
      (chunk.lines.runs.map LineRun.length).sum = chunk.lines.size ∧
      (∀ id' calls', ((empty id').afterAll calls').lines.runs = chunk.lines.runs ↔
        Call.lines calls' = lines) ∧
      words.runs.map WordRun.run = chunk.lines.runs ∧ words.total = chunk.lines.size ∧
      ∀ i, (words.lineAt i).map UInt32.toNat = chunk.lineAt i := by
  intro chunk lines words
  have hlined : chunk.Lined words lines := lined_afterAll id calls
  have hdenotes := hlined.denotes hsize
  refine ⟨?_, hlined.size_eq, ?_, fun i hi => hlined.lineAt_of_le hi, ?_,
    hlined.encodes.canonical.length_pos, hlined.encodes.canonical.ne_next,
    hlined.encodes.sum_length, ?_, hdenotes.runs_eq, hdenotes.total_eq,
    hdenotes.lineAt_eq hlined.encodes.counted⟩
  · rw [hlined.encodes.size_eq, List.length_map]
    exact hlined.size_eq.symm
  · intro i line hline
    exact hlined.lineAt_eq_ok_iff.2 ⟨line, hline, rfl⟩
  · intro more i line hline
    obtain ⟨word, hword, rfl⟩ := hlined.lineAt_eq_ok_iff.1 hline
    obtain ⟨hlt, -⟩ := List.getElem?_eq_some_iff.1 hword
    refine (hlined.afterAll more).lineAt_eq_ok_iff.2 ⟨word, ?_, rfl⟩
    rw [List.getElem?_append_left hlt, hword]
  · intro id' calls'
    have hother := (lined_afterAll id' calls').encodes
    rw [hother.runs_eq_iff hlined.encodes]
    exact List.map_inj_right fun _ _ => UInt32.toNat_inj.1

/-- Lines that go back and come again, with lookups between the writes. -/
theorem lines_afterAll_interleaved :
    let calls : List Call := [.writeOp .constant 3, .write 0 3, .lookup 1, .writeOp .pushNil 10,
      .writeOp .equal 3, .lookup 7, .writeOp .not 42, .writeOp .halt 42]
    let chunk := (empty ⟨0⟩).afterAll calls
    (Call.lines calls).length < 2 ^ 32 ∧
      chunk.lines.runs = [⟨3, 2⟩, ⟨10, 1⟩, ⟨3, 1⟩, ⟨42, 2⟩] ∧
      chunk.lineAt 3 = .ok 3 ∧ chunk.lineAt 6 = .error (.offset 6 6) := by
  intro calls chunk
  have hsize : (Call.lines calls).length < 2 ^ 32 := by decide
  obtain ⟨-, -, hinside, houtside, -⟩ := lines_afterAll ⟨0⟩ calls hsize
  exact ⟨hsize, by decide, hinside 3 3 rfl, houtside 6 (by decide)⟩

end Chunk

end ExprMachine
