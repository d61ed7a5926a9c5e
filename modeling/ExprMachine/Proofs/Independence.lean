import ExprMachine.Proofs.Assembly.Contribution
import ExprMachine.Proofs.Denotation
import ExprMachine.Proofs.StackNeed

/-!
# Runs do not depend on the past

Two machines run the same program in lockstep, whatever each has in its heap and on its stack from
before: at each turn their stacks stand for the same literals, so they do the same and fail in the
same way.

* `Chunk.SameProgram` — chunks that differ in the identity and the places of their strings alone;
* `Lockstep` — two runs at the same point; `dispatch_lockstep` keeps it, turn by turn;
* `Alike` — what two machines show of themselves is the same;
* `runChunk_alike`, `interpret_alike` — chunks and texts on two machines;
* `run_independent` — what follows for a machine with a past and a fresh one.
-/

namespace ExprMachine

/-! ### Programs -/

/-- A chunk owns the strings among its constants. -/
def Chunk.OwnsConstants (chunk : Chunk) : Prop :=
  ∀ k, .object k ∈ chunk.constants → chunk.objects.owns k = true

/-- Chunks with the same code, the same lines and constants that stand for the same literals. -/
structure Chunk.SameProgram (a b : Chunk) : Prop where
  code_eq : a.code = b.code
  lineAt?_eq : ∀ offset, a.lines.lineAt? offset = b.lines.lineAt? offset
  pool : ∃ constants, a.Pool constants ∧ b.Pool constants

theorem Chunk.OwnsConstants.sameProgram {chunk : Chunk} (h : chunk.OwnsConstants) :
    chunk.SameProgram chunk := by
  obtain ⟨constants, hpool⟩ := Chunk.exists_pool h
  exact ⟨rfl, fun _ => rfl, constants, hpool, hpool⟩

theorem Chunk.SameProgram.fetch_eq {a b : Chunk} (h : a.SameProgram b) (offset : Nat) :
    a.fetch offset = b.fetch offset := by
  unfold fetch
  rw [h.code_eq]

/-- The programs of a tree under two identities are the same. -/
theorem program_sameProgram (e : Expr) (id id' : HeapId) (line : Nat) :
    (e.program id line).SameProgram (e.program id' line) where
  code_eq := by
    have hcode := (program_code e id line).trans (program_code e id' line).symm
    exact Array.toList_inj.1 hcode
  lineAt?_eq := by
    intro offset
    have hlines := (program_lines e id line).trans (program_lines e id' line).symm
    rw [LineTable.lineAt?_eq_getElem? (program_inStep e id line).counted,
      LineTable.lineAt?_eq_getElem? (program_inStep e id' line).counted, hlines]
  pool := ⟨e.pooled, program_constants e id line, program_constants e id' line⟩

namespace Machine

/-! ### Two runs at the same point -/

/-- Two runs, of machines that began as `m₀` and `n₀`, are at the same point: on their way with
stacks for the same literals, failed with the same error, or at their end with the same output. -/
inductive Lockstep (m₀ n₀ : Machine) : Progress → Progress → Prop
  | running {offset : Nat} {m n : Machine} {xs : List Literal} :
      m₀.Follows m → n₀.Follows n → m.heap.Contents m.stack xs → n.heap.Contents n.stack xs →
      Lockstep m₀ n₀ (.running offset m) (.running offset n)
  | failed {m n : Machine} {e : RuntimeError} :
      m₀.Follows m → n₀.Follows n → Lockstep m₀ n₀ (.ended (m, .error e)) (.ended (n, .error e))
  | printed {m n : Machine} (bytes : List UInt8) :
      m.output.written = m₀.output.written ++ bytes →
      n.output.written = n₀.output.written ++ bytes →
      m.journal.reports = m₀.journal.reports → n.journal.reports = n₀.journal.reports →
      m.stack.length = n.stack.length → Lockstep m₀ n₀ (.ended (m, .ok ())) (.ended (n, .ok ()))

section Lockstep

variable {a b : Chunk} (hsame : a.SameProgram b) {m₀ n₀ m n : Machine}

include hsame

theorem fail_lockstep (hm : m₀.Follows m) (hn : n₀.Follows n) (offset : Nat) (fault : Fault) :
    Lockstep m₀ n₀ (.ended (m.fail a offset fault)) (.ended (n.fail b offset fault)) := by
  have hresult : (n.fail b offset fault).2 = (m.fail a offset fault).2 := by
    show Except.error (RuntimeError.mk fault.message (b.lines.lineAt? offset)) =
      .error ⟨fault.message, a.lines.lineAt? offset⟩
    rw [hsame.lineAt?_eq]
  have hlast : n.fail b offset fault =
      ((n.fail b offset fault).1, .error ⟨fault.message, a.lines.lineAt? offset⟩) :=
    Prod.ext rfl hresult
  rw [hlast]
  exact .failed (hm.trans (follows_fail a offset m fault))
    (hn.trans (follows_fail b offset n fault))

/-- An instruction that does the same on the literals of both stacks. -/
theorem progress_lockstep (hm : m₀.Follows m) (hn : n₀.Follows n)
    {result : Except Fault (List Literal)} {outcome outcome' : Outcome}
    (h : m.Leaves result outcome) (h' : n.Leaves result outcome') (offset width : Nat) :
    Lockstep m₀ n₀ (outcome.progress a offset width) (outcome'.progress b offset width) := by
  cases h with
  | done hfollows hstack =>
    cases h' with
    | done hfollows' hstack' =>
      exact .running (hm.trans hfollows) (hn.trans hfollows') hstack hstack'
  | @failed _ fault hfollows =>
    cases h' with
    | failed hfollows' =>
      exact fail_lockstep hsame (hm.trans hfollows) (hn.trans hfollows') offset fault

/-- The last instruction prints the same. -/
theorem conclude_lockstep (hm : m₀.Follows m) (hn : n₀.Follows n)
    (hroom : m₀.output.room = none) (hroom' : n₀.output.room = none) {xs : List Literal}
    (hstack : m.heap.Contents m.stack xs) (hstack' : n.heap.Contents n.stack xs) (offset : Nat) :
    Lockstep m₀ n₀ (.ended (conclude a offset (m.execute .halt)))
      (.ended (conclude b offset (n.execute .halt))) := by
  rw [← hm.output_eq] at hroom
  rw [← hn.output_eq] at hroom'
  cases hs : m.stack with
  | nil =>
    rw [hs] at hstack
    cases hstack
    have hs' : n.stack = [] := List.forall₂_nil_right_iff.1 hstack'
    have hunderflow : m.execute .halt = (m, some .stackUnderflow) := by
      simp only [execute, printTop, hs]
    have hunderflow' : n.execute .halt = (n, some .stackUnderflow) := by
      simp only [execute, printTop, hs']
    rw [hunderflow, hunderflow']
    exact fail_lockstep hsame hm hn offset _
  | cons v stack =>
    rw [hs] at hstack
    obtain _ | ⟨hv, hrest⟩ := hstack
    obtain ⟨v', stack', hv', hrest', hs'⟩ := List.forall₂_cons_right_iff.1 hstack'
    have hlength : stack.length = stack'.length := hrest.length_eq.trans hrest'.length_eq.symm
    rw [execute_halt hs hroom, execute_halt hs' hroom', Heap.written_of_literal? hv,
      Heap.written_of_literal? hv']
    exact .printed _ (by rw [hm.output_eq]) (by rw [hn.output_eq])
      hm.reports_eq hn.reports_eq hlength

variable (hlimit : m₀.options.stackLimit = n₀.options.stackLimit)
  (hroom : m₀.output.room = none) (hroom' : n₀.output.room = none)
  (hid : a.objects.id ≠ m₀.heap.id) (hid' : b.objects.id ≠ n₀.heap.id)

include hlimit hroom hroom' hid hid'

/-- **Two machines in lockstep stay so**, whatever is fetched. -/
theorem obey_lockstep (hm : m₀.Follows m) (hn : n₀.Follows n) {xs : List Literal}
    (hstack : m.heap.Contents m.stack xs) (hstack' : n.heap.Contents n.stack xs) (offset : Nat)
    (fetched : Fetched) :
    Lockstep m₀ n₀ (obey a offset m fetched) (obey b offset n fetched) := by
  have hlimits : n.options.stackLimit = m.options.stackLimit := by
    rw [hm.options_eq, hn.options_eq, hlimit]
  cases fetched with
  | nothing | unknown byte | bare => exact fail_lockstep hsame hm hn _ _
  | constant index =>
    obtain ⟨constants, hpool, hpool'⟩ := hsame.pool
    have hleaves := pushConstant_leaves hstack hpool (hm.heap_extends.id_eq ▸ hid) index
    have hleaves' := pushConstant_leaves hstack' hpool' (hn.heap_extends.id_eq ▸ hid') index
    rw [hlimits] at hleaves'
    exact progress_lockstep hsame hm hn hleaves hleaves' offset 2
  | instruction op =>
    by_cases hhalt : op = .halt
    · subst hhalt
      exact conclude_lockstep hsame hm hn hroom hroom' hstack hstack' offset
    · have hleaves := execute_leaves hstack hhalt
      have hleaves' := execute_leaves hstack' hhalt
      rw [hlimits] at hleaves'
      rw [obey_instruction a offset m hhalt, obey_instruction b offset n hhalt]
      exact progress_lockstep hsame hm hn hleaves hleaves' offset 1

theorem dispatch_lockstep {p q : Progress} (h : Lockstep m₀ n₀ p q) :
    Lockstep m₀ n₀ (dispatch a p) (dispatch b q) := by
  cases h with
  | @running offset m n xs hm hn hstack hstack' =>
    rw [dispatch_running, dispatch_running, ← hsame.fetch_eq]
    have htraced : (m.trace a offset).heap.Contents (m.trace a offset).stack xs := by
      rwa [stack_trace, heap_trace]
    have htraced' : (n.trace b offset).heap.Contents (n.trace b offset).stack xs := by
      rwa [stack_trace, heap_trace]
    exact obey_lockstep hsame hlimit hroom hroom' hid hid' (hm.trans (m.follows_trace a offset))
      (hn.trans (n.follows_trace b offset)) htraced htraced' offset (a.fetch offset)
  | failed hm hn => exact .failed hm hn
  | printed bytes hm hn hreports hreports' hheight =>
    exact .printed bytes hm hn hreports hreports' hheight

theorem dispatches_lockstep {p q : Progress} (h : Lockstep m₀ n₀ p q) (k : Nat) :
    Lockstep m₀ n₀ (dispatches a k p) (dispatches b k q) := by
  induction k generalizing p q with
  | zero => exact h
  | succ k ih => exact ih (dispatch_lockstep hsame hlimit hroom hroom' hid hid' h)

/-- Machines in lockstep make the same strings. -/
theorem made_lockstep {p q : Progress} (h : Lockstep m₀ n₀ p q) (k : Nat) :
    ((turns a k p).filterMap fun turn => made? a turn.2 (a.fetch turn.1)) =
      (turns b k q).filterMap fun turn => made? b turn.2 (b.fetch turn.1) := by
  induction k generalizing p q with
  | zero => rfl
  | succ k ih =>
    have hnext := ih (dispatch_lockstep hsame hlimit hroom hroom' hid hid' h)
    cases h with
    | failed | printed => rfl
    | @running offset m n xs hm hn hstack hstack' =>
      obtain ⟨constants, hpool, hpool'⟩ := hsame.pool
      have hmade : made? a m (a.fetch offset) = made? b n (b.fetch offset) := by
        rw [made?_eq_madeOn hstack hpool (hm.heap_extends.id_eq ▸ hid),
          made?_eq_madeOn hstack' hpool' (hn.heap_extends.id_eq ▸ hid'), hsame.fetch_eq]
      simp only [turns, List.filterMap_cons, hmade, hnext]

end Lockstep

/-- Two runs of a program begin in lockstep. -/
theorem start_lockstep (a b : Chunk) (m n : Machine) :
    Lockstep m n (m.start a) (n.start b) := by
  have hempty : m.heap.Contents [] [] := .nil
  exact .running (m.follows_begin a) (n.follows_begin b) hempty .nil

/-- A program makes the same strings on two machines. -/
theorem madeBy_eq {a b : Chunk} (hsame : a.SameProgram b) {m n : Machine}
    (hlimit : m.options.stackLimit = n.options.stackLimit) (hroom : m.output.room = none)
    (hroom' : n.output.room = none) (hid : a.objects.id ≠ m.heap.id)
    (hid' : b.objects.id ≠ n.heap.id) : m.madeBy a = n.madeBy b := by
  have hsize : b.size = a.size := by rw [Chunk.size, Chunk.size, hsame.code_eq]
  rw [madeBy, madeBy, turnsOf, turnsOf, hsize]
  exact made_lockstep hsame hlimit hroom hroom' hid hid' (start_lockstep a b m n) (a.size + 1)

/-! ### What is seen of a machine -/

/-- What two machines show of two calls is the same: their results, what is printed and reported,
and how much their heaps have grown. -/
structure Alike {ε : Type} (m n : Machine) (x y : Machine × Except ε Unit) : Prop where
  result_eq : x.2 = y.2
  printed : ∃ bytes : List UInt8, x.1.output.written = m.output.written ++ bytes ∧
    y.1.output.written = n.output.written ++ bytes
  reported : ∃ text, x.1.journal.reports = m.journal.reports ++ text ∧
    y.1.journal.reports = n.journal.reports ++ text
  objects : ∃ count, x.1.heap.size = m.heap.size + count ∧ y.1.heap.size = n.heap.size + count
  bytes : ∃ count, x.1.heap.allocated = m.heap.allocated + count ∧
    y.1.heap.allocated = n.heap.allocated + count

/-- **A program on two machines.** -/
theorem runChunk_alike {a b : Chunk} (hsame : a.SameProgram b) {m n : Machine}
    (hlimit : m.options.stackLimit = n.options.stackLimit) (hroom : m.output.room = none)
    (hroom' : n.output.room = none) (hid : a.objects.id ≠ m.heap.id)
    (hid' : b.objects.id ≠ n.heap.id) :
    Alike m n (m.runChunk a) (n.runChunk b) ∧
      (m.runChunk a).1.stack.length = (n.runChunk b).1.stack.length := by
  have hsize : b.size = a.size := by rw [Chunk.size, Chunk.size, hsame.code_eq]
  have hstart := start_lockstep a b m n
  have hmade := madeBy_eq hsame hlimit hroom hroom' hid hid'
  have hheap : (m.runChunk a).1.heap = m.heap.allocAll (m.madeBy a) := m.heap_runChunk a
  have hheap' : (n.runChunk b).1.heap = n.heap.allocAll (m.madeBy a) := by
    rw [hmade]
    exact n.heap_runChunk b
  have hobjects : ∃ count, (m.runChunk a).1.heap.size = m.heap.size + count ∧
      (n.runChunk b).1.heap.size = n.heap.size + count :=
    ⟨_, by rw [hheap, Heap.size_allocAll], by rw [hheap', Heap.size_allocAll]⟩
  have hbytes : ∃ count, (m.runChunk a).1.heap.allocated = m.heap.allocated + count ∧
      (n.runChunk b).1.heap.allocated = n.heap.allocated + count :=
    ⟨_, by rw [hheap, Heap.allocated_allocAll], by rw [hheap', Heap.allocated_allocAll]⟩
  have hend := dispatches_lockstep hsame hlimit hroom hroom' hid hid' hstart (a.size + 1)
  rw [dispatches_start m a (Nat.lt_succ_self _), dispatches_start n b (by omega)] at hend
  generalize hrun : runAt a 0 (m.begin a) = last at hend
  generalize hrun' : runAt b 0 (n.begin b) = last' at hend
  cases hend with
  | @failed m' n' e hm hn =>
    rw [runChunk_of_error hrun, runChunk_of_error hrun'] at hobjects hbytes ⊢
    refine ⟨⟨rfl, ⟨[], ?_, ?_⟩, ⟨e.render ++ "\n", ?_, ?_⟩, hobjects, hbytes⟩, rfl⟩
    · simp [report, note, hm.output_eq]
    · simp [report, note, hn.output_eq]
    · rw [reports_report, reports_note_event, hm.reports_eq]
    · rw [reports_report, reports_note_event, hn.reports_eq]
  | printed bytes hm hn hreports hreports' hheight =>
    rw [runChunk_of_ok hrun, runChunk_of_ok hrun'] at hobjects hbytes ⊢
    refine ⟨⟨rfl, ⟨bytes, hm, hn⟩, ⟨"", ?_, ?_⟩, hobjects, hbytes⟩, hheight⟩
    · rw [reports_note_event, hreports, String.append_empty]
    · rw [reports_note_event, hreports', String.append_empty]

/-! ### Texts -/

/-- A text that does not compile is reported and nothing else. -/
theorem interpret_of_error {m : Machine} {source : String} {d : Diagnostic}
    (h : compile m.heap.id.next source = .error d) :
    ∃ m' : Machine, m.Follows m' ∧ m'.heap = m.heap ∧ m'.stack = m.stack ∧
      m.interpret source = (m'.report d.render, .error (.compile d)) := by
  have hentered := m.follows_note (.compileEntered source.utf8ByteSize) nofun
  have hfailed := hentered.trans ((m.note _).follows_event (.compilationFailed d.render))
  have hleft := hfailed.trans (((m.note _).note _).follows_note .compileLeft nofun)
  refine ⟨_, hleft, rfl, rfl, ?_⟩
  have hnoting : m.compileNoting source =
      (((m.note (.compileEntered source.utf8ByteSize)).note
        (.event (.compilationFailed d.render))).note .compileLeft, .error d) := by
    have hcompile : compile (m.note (.compileEntered source.utf8ByteSize)).heap.id.next source =
        .error d := h
    simp only [compileNoting, hcompile]
  rw [interpret, hnoting]

/-- Whether a text compiles does not depend on the identity that its strings get, and what it
compiles to is the same program. -/
theorem compile_sameProgram (id id' : HeapId) (source : String) :
    (∃ a b, compile id source = .ok a ∧ compile id' source = .ok b ∧ a.SameProgram b) ∨
      ∃ d, compile id source = .error d ∧ compile id' source = .error d := by
  unfold compile
  cases hparse : parse source.toList with
  | ok found =>
    obtain ⟨e, line⟩ := found
    exact .inl ⟨_, _, rfl, rfl, program_sameProgram e id id' line⟩
  | error d => exact .inr ⟨d, rfl, rfl⟩

/-- **A text on two machines.** If it compiles, the stacks are as high as each other afterwards, and
otherwise they are left alone. -/
theorem interpret_alike {m n : Machine} (hlimit : m.options.stackLimit = n.options.stackLimit)
    (hroom : m.output.room = none) (hroom' : n.output.room = none) (source : String) :
    Alike m n (m.interpret source) (n.interpret source) ∧
      ((∃ chunk, compile m.heap.id.next source = .ok chunk) →
        (m.interpret source).1.stack.length = (n.interpret source).1.stack.length) ∧
      ((∃ d, compile m.heap.id.next source = .error d) →
        (m.interpret source).1.stack = m.stack ∧ (n.interpret source).1.stack = n.stack) := by
  rcases compile_sameProgram m.heap.id.next n.heap.id.next source with
    ⟨a, b, ha, hb, hsame⟩ | ⟨d, ha, hb⟩
  · obtain ⟨m', hm, hheap, hrun⟩ := interpret_of_compile ha
    obtain ⟨n', hn, hheap', hrun'⟩ := interpret_of_compile hb
    have hlimits : m'.options.stackLimit = n'.options.stackLimit := by
      rw [hm.options_eq, hn.options_eq, hlimit]
    have hid : a.objects.id ≠ m'.heap.id := by
      obtain ⟨e, line, -, -, rfl⟩ := compile_eq_ok_iff.1 ha
      rw [program_id, hheap]
      exact m.heap.id.next_ne
    have hid' : b.objects.id ≠ n'.heap.id := by
      obtain ⟨e, line, -, -, rfl⟩ := compile_eq_ok_iff.1 hb
      rw [program_id, hheap']
      exact n.heap.id.next_ne
    obtain ⟨halike, hheight⟩ := runChunk_alike hsame hlimits (by rw [hm.output_eq, hroom])
      (by rw [hn.output_eq, hroom']) hid hid'
    obtain ⟨hresult, hprinted, hreported, hobjects, hbytes⟩ := halike
    rw [hm.output_eq, hn.output_eq] at hprinted
    rw [hm.reports_eq, hn.reports_eq] at hreported
    rw [hheap, hheap'] at hobjects hbytes
    rw [hrun, hrun']
    refine ⟨⟨by rw [hresult], hprinted, hreported, hobjects, hbytes⟩, fun _ => hheight, ?_⟩
    intro herror
    obtain ⟨d, hd⟩ := herror
    rw [ha] at hd
    cases hd
  · obtain ⟨m', hm, hheap, hstack, hrun⟩ := interpret_of_error ha
    obtain ⟨n', hn, hheap', hstack', hrun'⟩ := interpret_of_error hb
    rw [hrun, hrun']
    refine ⟨⟨rfl, ⟨[], ?_, ?_⟩, ⟨d.render ++ "\n", ?_, ?_⟩, ⟨0, ?_, ?_⟩, ⟨0, ?_, ?_⟩⟩, ?_,
      fun _ => ⟨hstack, hstack'⟩⟩
    · simp [report, note, hm.output_eq]
    · simp [report, note, hn.output_eq]
    · rw [reports_report, hm.reports_eq]
    · rw [reports_report, hn.reports_eq]
    · exact congrArg Heap.size hheap
    · exact congrArg Heap.size hheap'
    · exact congrArg Heap.allocated hheap
    · exact congrArg Heap.allocated hheap'
    · intro hok
      obtain ⟨chunk, hchunk⟩ := hok
      rw [ha] at hchunk
      cases hchunk

/-! ### Machines with a past -/

/-- What a machine can be asked to do. -/
inductive Call where
  | text (source : String)
  | chunk (chunk : Chunk)

/-- A machine after a call, whether it succeeded or not. -/
def after (m : Machine) : Call → Machine
  | .text source => (m.interpret source).1
  | .chunk chunk => (m.runChunk chunk).1

theorem runChunk_keeps (m : Machine) (chunk : Chunk) :
    (m.runChunk chunk).1.options = m.options ∧
      (m.output.room = none → (m.runChunk chunk).1.output.room = none) := by
  obtain ⟨journal, stack, heq, -⟩ := m.runChunk_fst chunk
  obtain ⟨-, hroom, hoptions⟩ := m.dispatches_keep chunk (chunk.size + 1)
  rw [dispatches_start m chunk (Nat.lt_succ_self _)] at hroom hoptions
  rw [heq]
  exact ⟨hoptions, hroom⟩

theorem interpret_keeps (m : Machine) (source : String) :
    (m.interpret source).1.options = m.options ∧
      (m.output.room = none → (m.interpret source).1.output.room = none) := by
  cases hcompile : compile m.heap.id.next source with
  | ok chunk =>
    obtain ⟨m', hm, -, hrun⟩ := interpret_of_compile hcompile
    obtain ⟨hoptions, hroom⟩ := m'.runChunk_keeps chunk
    rw [hrun]
    exact ⟨hoptions.trans hm.options_eq, fun h => hroom (by rw [hm.output_eq, h])⟩
  | error d =>
    obtain ⟨m', hm, -, -, hrun⟩ := interpret_of_error hcompile
    rw [hrun]
    exact ⟨hm.options_eq, fun h => by rw [← h, ← hm.output_eq]; rfl⟩

/-- No call changes the options, or lets a sink that takes everything refuse anything. -/
theorem foldl_after_keeps (calls : List Call) (m : Machine) :
    (calls.foldl after m).options = m.options ∧
      (m.output.room = none → (calls.foldl after m).output.room = none) := by
  induction calls generalizing m with
  | nil => exact ⟨rfl, id⟩
  | cons call calls ih =>
    obtain ⟨hoptions, hroom⟩ := ih (m.after call)
    have hcall : (m.after call).options = m.options ∧
        (m.output.room = none → (m.after call).output.room = none) := by
      cases call with
      | text source => exact m.interpret_keeps source
      | chunk chunk => exact m.runChunk_keeps chunk
    exact ⟨hoptions.trans hcall.1, fun h => hroom (hcall.2 h)⟩

/-- A text never leaves anything on an empty stack. -/
theorem stack_interpret {m : Machine} (hroom : m.output.room = none) (hstack : m.stack = [])
    (source : String) : (m.interpret source).1.stack = [] := by
  cases hcompile : compile m.heap.id.next source with
  | error d =>
    obtain ⟨m', -, -, hsame, hrun⟩ := interpret_of_error hcompile
    rw [hrun]
    exact hsame.trans hstack
  | ok chunk =>
    obtain ⟨e, line, -, hwithin, rfl⟩ := compile_eq_ok_iff.1 hcompile
    obtain ⟨m', hm, hheap, hrun⟩ := interpret_of_compile hcompile
    have hforeign : m.heap.id.next ≠ m'.heap.id := hheap ▸ m.heap.id.next_ne
    have hcomes := program_comesTrue (e := e) line hforeign (hm.output_eq ▸ hroom)
    rw [hrun]
    generalize m'.runChunk _ = last at hcomes ⊢
    cases hcomes with
    | failing _ _ _ hempty => exact hempty
    | ending hstop hheight =>
      rw [program_stop e m.heap.id.next line hwithin.length_pooled_le] at hstop
      split at hstop
      · cases hstop
        exact List.length_eq_zero_iff.1 hheight
      · cases hstop

theorem stack_foldl_texts {m : Machine} (hroom : m.output.room = none) (hstack : m.stack = [])
    (texts : List String) : ((texts.map Call.text).foldl after m).stack = [] := by
  induction texts generalizing m with
  | nil => exact hstack
  | cons source texts ih =>
    exact ih ((m.interpret_keeps source).2 hroom) (stack_interpret hroom hstack source)

/-! ### Compiled and assembled chunks -/

/-- Constants that were added to a chunk without any are the chunk's own. -/
theorem ownsConstants_of_gains {id : HeapId} {chunk : Chunk} {code : List (UInt8 × Nat)}
    {pool : List Literal} (h : Gains (.empty id) chunk code pool) : chunk.OwnsConstants :=
  fun _ hk => Chunk.Pool.owns h.constants_of_empty hk

theorem ownsConstants_of_compile {id : HeapId} {source : String} {chunk : Chunk}
    (h : compile id source = .ok chunk) : chunk.OwnsConstants := by
  obtain ⟨e, line, -, -, rfl⟩ := compile_eq_ok_iff.1 h
  exact ownsConstants_of_gains (program_gains e id line)

theorem ownsConstants_of_assemble {id : HeapId} {source : String} {chunk : Chunk}
    (h : Assembly.assemble id source = .ok chunk) : chunk.OwnsConstants := by
  obtain ⟨code, pool, hgains⟩ := Assembly.assemble_gains h
  exact ownsConstants_of_gains hgains

/-- **Runs do not depend on the past.** A chunk that owns the strings among its constants, as every
compiled or assembled one does, does the same on two machines with the same limit whose sinks take
everything, whatever their heaps and stacks hold. A machine with any past treats the next text as a
new one does; its stack is as high as that of the new one then, unless values were left on it and
the text does not compile, as then it is not touched. Texts leave no values. -/
theorem run_independent (m n : Machine) (hlimit : m.options.stackLimit = n.options.stackLimit)
    (hroom : m.output.room = none) (hroom' : n.output.room = none) :
    (∀ chunk : Chunk, chunk.OwnsConstants → chunk.objects.id ≠ m.heap.id →
      chunk.objects.id ≠ n.heap.id →
      Alike m n (m.runChunk chunk) (n.runChunk chunk) ∧
        (m.runChunk chunk).1.stack.length = (n.runChunk chunk).1.stack.length) ∧
      (∀ id source chunk, compile id source = .ok chunk → chunk.OwnsConstants) ∧
      (∀ id source chunk, Assembly.assemble id source = .ok chunk → chunk.OwnsConstants) ∧
      (∀ (calls : List Call) (id : HeapId) (source : String),
        let past := calls.foldl after m
        let fresh := new id m.options
        Alike past fresh (past.interpret source) (fresh.interpret source) ∧
          ((∃ chunk, compile id.next source = .ok chunk) ∨ past.stack = [] →
            (past.interpret source).1.stack.length = (fresh.interpret source).1.stack.length) ∧
          ((∃ d, compile id.next source = .error d) →
            (past.interpret source).1.stack = past.stack)) ∧
      ∀ texts : List String, m.stack = [] → ((texts.map Call.text).foldl after m).stack = [] := by
  have hchunk (chunk : Chunk) (howns : chunk.OwnsConstants) (hid : chunk.objects.id ≠ m.heap.id)
      (hid' : chunk.objects.id ≠ n.heap.id) :=
    runChunk_alike howns.sameProgram hlimit hroom hroom' hid hid'
  refine ⟨hchunk, fun _ _ _ => ownsConstants_of_compile, fun _ _ _ => ownsConstants_of_assemble, ?_,
    fun texts hstack => stack_foldl_texts hroom hstack texts⟩
  intro calls id source past fresh
  obtain ⟨hoptions, hkeeps⟩ := foldl_after_keeps calls m
  have hlimits : past.options.stackLimit = fresh.options.stackLimit := by rw [hoptions]; rfl
  obtain ⟨halike, hheight, huntouched⟩ := interpret_alike hlimits (hkeeps hroom) rfl source
  refine ⟨halike, ?_, ?_⟩
  · rintro (⟨chunk, hchunk⟩ | hempty)
    · rcases compile_sameProgram past.heap.id.next id.next source with
        ⟨a, -, ha, -, -⟩ | ⟨d, -, hd⟩
      · exact hheight ⟨a, ha⟩
      · rw [hchunk] at hd
        cases hd
    · rw [stack_interpret (hkeeps hroom) hempty, stack_interpret rfl rfl]
  · rintro ⟨d, hd⟩
    rcases compile_sameProgram past.heap.id.next id.next source with
      ⟨-, b, -, hb, -⟩ | ⟨d', hd', -⟩
    · have hb' : compile id.next source = .ok b := hb
      rw [hd] at hb'
      cases hb'
    · exact (huntouched ⟨d', hd'⟩).1

/-- A text that does not compile leaves a value on the stack that an earlier chunk left there; a new
machine has none. -/
theorem leftovers_outlive_diagnostic :
    let m := new ⟨0⟩ {}
    let chunk := (((Chunk.empty ⟨1⟩).writeOp .pushNil 1).writeOp .pushNil 2).writeOp .halt 3
    let past := [Call.chunk chunk].foldl after m
    let fresh := new ⟨0⟩ m.options
    (m.runChunk chunk).2 = .ok () ∧
      ¬ (past.interpret ")").1.stack.length = (fresh.interpret ")").1.stack.length := by
  decide +kernel

/-- A machine with two strings in its heap and a value left on its stack, and one with neither, run
the addition of a string to itself. -/
theorem run_independent_leftovers :
    let used : Machine := { (new ⟨0⟩ {}) with stack := [.nil], heap := ⟨⟨0⟩, #[[97], [98]], 34⟩ }
    let unused := new ⟨5⟩ {}
    let named := (Chunk.empty ⟨1⟩).addString [99]
    let chunk := ((((named.2.addConstant (.object named.1)).writeOp .constant 1).write 0 1).writeOp
      .constant 1).write 0 1 |>.writeOp .add 1 |>.writeOp .halt 2
    chunk.OwnsConstants ∧ chunk.objects.id ≠ used.heap.id ∧ chunk.objects.id ≠ unused.heap.id ∧
      used.options.stackLimit = unused.options.stackLimit ∧ used.output.room = none ∧
      unused.output.room = none ∧ Alike used unused (used.runChunk chunk) (unused.runChunk chunk) ∧
      (used.runChunk chunk).1.output.written = #[99, 99, 10] := by
  intro used unused named chunk
  have howns : chunk.OwnsConstants := fun _ hk => Heap.owns_of_only_constant rfl hk
  have halike := (run_independent used unused rfl rfl rfl).1 chunk howns (by decide) (by decide)
  exact ⟨howns, by decide, by decide, rfl, rfl, rfl, halike.1, by decide +kernel⟩

end Machine

end ExprMachine
