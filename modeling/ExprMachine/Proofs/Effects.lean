import ExprMachine.Machine.Source
import ExprMachine.Proofs.Independence

/-!
# What a machine does to the outside

A machine prints and reports only when it stops: the last instruction is the only one that prints,
and a report is the last thing before a run is given up. So each call has one of three effects.

* `Machine.Silent` — a point of a run: nothing has been printed or reported before its end;
  `dispatch_silent` says that every turn keeps it so;
* `Machine.Ran` — what a run does to a machine when it fails, and when it does not;
* `Machine.Interpreted` — the same for a text, which may not even compile;
* `interpret_effects` — texts and chunks on any machine, and the exit status of texts.
-/

namespace ExprMachine

/-- The line of an error as it is reported. -/
def placeText : Option Nat → String
  | some line => toString line
  | none => "?"

/-- An error as it is reported, the end of the line included. -/
theorem RuntimeError.render_line (e : RuntimeError) :
    e.render ++ "\n" = e.message ++ "\n[line " ++ placeText e.line ++ "] in script\n" := by
  have hend : "] in script" ++ "\n" = "] in script\n" := rfl
  have hrender : e.render = e.message ++ ("\n[line " ++ placeText e.line ++ "] in script") := by
    unfold render placeText
    cases e.line <;> rfl
  rw [hrender]
  simp only [String.append_assoc, hend]

namespace Machine

/-! ### Instructions -/

variable {m : Machine} {chunk : Chunk} {offset : Nat}

theorem Replaces.follows {count : Nat} {kind? : Option Fault} {outcome : Outcome}
    (h : m.Replaces count kind? outcome) : m.Follows outcome.1 := by
  cases h with
  | underflow hfollows _ => exact hfollows
  | refused hfollows _ _ => exact hfollows
  | overflow hfollows _ _ => exact hfollows
  | done hfollows _ _ _ => exact hfollows

theorem follows_pushConstant (m : Machine) (chunk : Chunk) (index : UInt8) :
    m.Follows (m.pushConstant chunk index).1 := by
  cases hfault : constantFault? chunk m.heap index with
  | none => exact (pushConstant_replaces hfault).follows
  | some fault =>
    rw [pushConstant_of_fault hfault]
    exact .refl m

theorem follows_execute (m : Machine) {op : OpCode} (hhalt : op ≠ .halt) :
    m.Follows (m.execute op).1 := by
  by_cases hconstant : op = .constant
  · subst hconstant
    exact .refl m
  · exact (m.execute_replaces hconstant hhalt).follows

/-! ### Points of a run -/

/-- The run of a chunk comes to its last instruction with a value for a literal on top. -/
def Returns (start : Machine) (chunk : Chunk) (x : Literal) : Prop :=
  ∃ offset before v stack, (offset, before) ∈ start.turnsOf chunk ∧
    chunk.fetch offset = .instruction .halt ∧ before.stack = v :: stack ∧
    before.heap.literal? v = some x

/-- A point of the run of a machine: before its end, and if it fails, nothing has been printed or
reported; else a literal has been printed. -/
inductive Silent (start : Machine) (chunk : Chunk) : Progress → Prop
  | running {offset : Nat} {m : Machine} :
      start.Follows m → m.OwnsStack → (offset, m) ∈ start.turnsOf chunk →
      Silent start chunk (.running offset m)
  | failed {m : Machine} {e : RuntimeError} :
      start.Follows m → Silent start chunk (.ended (m, .error e))
  | printed {m : Machine} {x : Literal} :
      start.Returns chunk x → start.heap.Extends m.heap →
      m.output = { start.output with
        written := start.output.written ++ (x.written ++ [lineFeed]) } →
      m.journal.reports = start.journal.reports → Silent start chunk (.ended (m, .ok ()))

variable {start : Machine}

theorem silent_fail (h : start.Follows m) (fault : Fault) :
    Silent start chunk (.ended (m.fail chunk offset fault)) :=
  .failed (h.trans (follows_fail chunk offset m fault))

/-- An instruction that prints nothing. -/
theorem silent_progress {outcome : Outcome} {width : Nat} (h : start.Follows outcome.1)
    (hnext : ∀ next m', outcome.progress chunk offset width = .running next m' →
      m'.OwnsStack ∧ (next, m') ∈ start.turnsOf chunk) :
    Silent start chunk (outcome.progress chunk offset width) := by
  obtain ⟨m', fault?⟩ := outcome
  cases fault? with
  | none =>
    obtain ⟨howns, hmem⟩ := hnext _ _ rfl
    exact .running h howns hmem
  | some fault => exact silent_fail h fault

/-- The last instruction prints the value on top, if there is one. -/
theorem silent_conclude (hroom : start.output.room = none) (hfollows : start.Follows m)
    (howns : m.OwnsStack)
    (hturn : ∀ v stack x, m.stack = v :: stack → m.heap.literal? v = some x →
      start.Returns chunk x) :
    Silent start chunk (.ended (conclude chunk offset (m.execute .halt))) := by
  rw [← hfollows.output_eq] at hroom
  cases hstack : m.stack with
  | nil =>
    have hunderflow : m.execute .halt = (m, some .stackUnderflow) := by
      simp only [execute, printTop, hstack]
    rw [hunderflow]
    exact silent_fail hfollows _
  | cons v stack =>
    have hholds : m.heap.Holds v := howns v (hstack ▸ List.mem_cons_self)
    obtain ⟨x, hx⟩ := hholds.exists_literal?
    rw [execute_halt hstack hroom, Heap.written_of_literal? hx]
    exact .printed (hturn v stack x hstack hx) hfollows.heap_extends (by rw [hfollows.output_eq])
      hfollows.reports_eq

/-- **Every turn is silent**, but one that ends the run. -/
theorem dispatch_silent (hroom : start.output.room = none) (hfollows : start.Follows m)
    (howns : m.OwnsStack) (hmem : (offset, m) ∈ start.turnsOf chunk) :
    Silent start chunk (dispatch chunk (.running offset m)) := by
  have hgrows := dispatch_grows chunk offset m
  have hnext (next : Nat) (m' : Machine)
      (hrunning : dispatch chunk (.running offset m) = .running next m') :
      m'.OwnsStack ∧ (next, m') ∈ start.turnsOf chunk := by
    rw [hrunning] at hgrows
    exact ⟨hgrows.ownsStack howns, mem_turnsOf_dispatch hmem hrunning⟩
  have htraced := hfollows.trans (m.follows_trace chunk offset)
  rw [dispatch_running] at hnext ⊢
  cases hfetch : chunk.fetch offset with
  | nothing => exact silent_fail htraced _
  | unknown byte => exact silent_fail htraced _
  | bare => exact silent_fail htraced _
  | constant index =>
    rw [hfetch] at hnext
    exact silent_progress (htraced.trans (follows_pushConstant _ chunk index)) hnext
  | instruction op =>
    rw [hfetch] at hnext
    by_cases hhalt : op = .halt
    · subst hhalt
      refine silent_conclude hroom htraced ?_ ?_
      · intro v hv
        rw [stack_trace] at hv
        rw [heap_trace]
        exact howns v hv
      · intro v stack x hstack hx
        rw [stack_trace] at hstack
        rw [heap_trace] at hx
        exact ⟨offset, m, v, stack, hmem, hfetch, hstack, hx⟩
    · rw [obey_instruction _ _ _ hhalt] at hnext ⊢
      exact silent_progress (htraced.trans (follows_execute _ hhalt)) hnext

/-- A whole run is silent up to its end. -/
theorem runAt_silent (start : Machine) (chunk : Chunk) (hroom : start.output.room = none) :
    Silent start chunk (.ended (runAt chunk 0 (start.begin chunk))) := by
  have hstart : Silent start chunk (start.start chunk) := by
    refine .running (start.follows_begin chunk) (fun v hv => absurd hv List.not_mem_nil) ?_
    exact mem_turnsOf_iff.2 ⟨0, rfl⟩
  rw [← dispatches_start start chunk (Nat.lt_succ_self chunk.size)]
  refine dispatches_induction (fun offset m h => ?_) hstart _
  cases h with
  | running hfollows howns hmem => exact dispatch_silent hroom hfollows howns hmem

/-! ### Calls -/

/-- Strings that a heap has keep their handles and their bytes. -/
def Keeps (heap grown : Heap) : Prop :=
  ∀ h bytes, heap.get? h = some bytes → grown.get? h = some bytes

/-- What a run of a chunk by `start` does to a machine `m`: nothing is printed, the stack is empty
and the error is reported; or the value that the run returns with is printed on a line of its own,
and nothing is reported. -/
inductive Ran (m start : Machine) (chunk : Chunk) : Machine × Except RuntimeError Unit → Prop
  | failed {after : Machine} {e : RuntimeError} :
      after.output = m.output → after.stack = [] → Keeps m.heap after.heap →
      after.journal.reports = m.journal.reports ++
        (e.message ++ "\n[line " ++ placeText e.line ++ "] in script\n") →
      Ran m start chunk (after, .error e)
  | printed {after : Machine} {x : Literal} :
      start.Returns chunk x →
      after.output = { m.output with
        written := m.output.written ++ (x.written ++ [lineFeed]) } →
      after.journal.reports = m.journal.reports → Keeps m.heap after.heap →
      Ran m start chunk (after, .ok ())

/-- What interpreting a text does to a machine: the text does not compile, the diagnostic is
reported and all else is as it was; or its chunk is run, by the machine with more in its journal. -/
inductive Interpreted (m : Machine) (source : String) : Machine × Except Failure Unit → Prop
  | refused {after : Machine} {d : Diagnostic} :
      compile m.heap.id.next source = .error d → after.stack = m.stack → after.heap = m.heap →
      after.output = m.output →
      after.journal.reports = m.journal.reports ++ (d.render ++ "\n") →
      Interpreted m source (after, .error (.compile d))
  | ran {start : Machine} {chunk : Chunk} {outcome : Machine × Except RuntimeError Unit} :
      compile m.heap.id.next source = .ok chunk → m.Follows start → start.heap = m.heap →
      Ran m start chunk outcome →
      Interpreted m source (outcome.1, outcome.2.mapError Failure.runtime)

/-- **A run has one of two effects.** -/
theorem runChunk_ran (hfollows : m.Follows start) (hroom : m.output.room = none) (chunk : Chunk) :
    Ran m start chunk (start.runChunk chunk) := by
  have hsilent := start.runAt_silent chunk (hfollows.output_eq ▸ hroom)
  cases hrun : runAt chunk 0 (start.begin chunk) with
  | mk last result =>
    rw [hrun] at hsilent
    cases hsilent with
    | @failed _ e hlast =>
      have hall := hfollows.trans hlast
      rw [runChunk_of_error hrun]
      refine .failed hall.output_eq rfl (fun h bytes hbytes => hall.heap_extends.get? hbytes) ?_
      rw [← RuntimeError.render_line, ← hall.reports_eq, ← reports_note_event last]
      exact reports_report _ _
    | @printed _ x hreturns hextends houtput hreports =>
      rw [runChunk_of_ok hrun]
      refine .printed hreturns ?_ ?_ ?_
      · rw [← hfollows.output_eq]
        exact houtput
      · rw [reports_note_event, hreports, hfollows.reports_eq]
      · exact fun h bytes hbytes => (hfollows.heap_extends.trans hextends).get? hbytes

theorem interpret_interpreted (m : Machine) (hroom : m.output.room = none) (source : String) :
    Interpreted m source (m.interpret source) := by
  cases hcompile : compile m.heap.id.next source with
  | error d =>
    obtain ⟨noted, hfollows, hheap, hstack, hinterpret⟩ := interpret_of_error hcompile
    rw [hinterpret]
    refine .refused hcompile hstack hheap hfollows.output_eq ?_
    rw [reports_report, hfollows.reports_eq]
  | ok chunk =>
    obtain ⟨start, hfollows, hheap, hinterpret⟩ := interpret_of_compile hcompile
    rw [hinterpret]
    exact .ran hcompile hfollows hheap (runChunk_ran hfollows hroom chunk)

/-- The exit status for how interpreting a text has come out. -/
def exitStatus : Except Failure Unit → Nat
  | .ok () => 0
  | .error (.compile _) => 65
  | .error (.runtime _) => 70

/-- Running a text without measuring the time is interpreting it. -/
theorem runSource_eq_interpret (m : Machine) (source : String) :
    m.runSource source false = ((m.interpret source).1, exitStatus (m.interpret source).2) := by
  unfold runSource interpret
  rcases m.compileNoting source with ⟨noted, d | chunk⟩
  · rfl
  · dsimp only
    rcases noted.runChunk chunk with ⟨ran, result⟩
    cases result <;> rfl

/-- **Each call has one of three effects** on a machine whose sink takes everything. A text that
does not compile is reported and changes nothing else. A run that fails prints nothing, is reported
with its line, and leaves the stack empty; one that succeeds prints one value on a line of its own
and reports nothing; the strings of the heap stay what they are. Running a text without measuring
the time is interpreting it, with the status 65, 70 or 0. -/
theorem interpret_effects (m : Machine) (hroom : m.output.room = none) :
    (∀ source, Interpreted m source (m.interpret source)) ∧
      (∀ chunk, Ran m m chunk (m.runChunk chunk)) ∧
      ∀ source, m.runSource source false =
        ((m.interpret source).1, exitStatus (m.interpret source).2) :=
  ⟨fun source => m.interpret_interpreted hroom source,
    fun chunk => runChunk_ran (.refl m) hroom chunk, fun source => m.runSource_eq_interpret source⟩

/-- A machine with a string in its heap and a value left on its stack: a chunk without code, and a
text that is none. -/
theorem interpret_effects_leftovers :
    let used : Machine := { (new ⟨0⟩ {}) with stack := [.nil], heap := ⟨⟨0⟩, #[[97]], 17⟩ }
    used.output.room = none ∧ Ran used used (.empty ⟨1⟩) (used.runChunk (.empty ⟨1⟩)) ∧
      Interpreted used ")" (used.interpret ")") ∧ used.runSource ")" false =
        ((used.interpret ")").1, 65) ∧
      (used.runChunk (.empty ⟨1⟩)).1.journal.reports =
        "Unexpected end of bytecode.\n[line ?] in script\n" := by
  intro used
  obtain ⟨htexts, hchunks, hstatus⟩ := interpret_effects used rfl
  have hstatus' := hstatus ")"
  have hexit : exitStatus (used.interpret ")").2 = 65 := by decide +kernel
  rw [hexit] at hstatus'
  exact ⟨rfl, hchunks _, htexts ")", hstatus', by decide +kernel⟩

end Machine

end ExprMachine
