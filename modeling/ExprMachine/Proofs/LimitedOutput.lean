import ExprMachine.Proofs.Effects
import ExprMachine.Proofs.Sweep

/-!
# Output that is cut off

A sink may have room for only so many bytes. No instruction but the last looks at the sink, so a
machine with such a sink does what it would do with another one until it prints; what it prints is
then cut off where the room ends, the call fails, and nothing else is different.

* `Sink.upTo` — a sink of `n` bytes that has been given some text, and `Sink.write_upTo`;
* `Chunk.returnLine?` — the line of the instruction that ends a run;
* `execute_withOutput` — instructions do not look at the sink;
* `Cut`, `dispatch_cut`, `dispatches_cut` — two runs that differ in their sinks alone;
* `CutCall`, `perform_cut` — the same for calls;
* `Abreast`, `Abreast.perform`, `Abreast.foldl` — two machines after the same calls;
* `limited_output` — what follows for sequences of calls.
-/

namespace ExprMachine

/-! ### Sinks -/

namespace Sink

/-- A sink with room for `n` bytes in all that has been given the bytes `all`. -/
def upTo (n : Nat) (all : Array UInt8) : Sink where
  written := (all.toList.take n).toArray
  room := some (n - all.size)

/-- Of a write it takes what still fits; nothing is refused while all is within the `n` bytes. -/
theorem write_upTo (n : Nat) (all : Array UInt8) {bytes : List UInt8} (h : bytes ≠ []) :
    (upTo n all).write bytes = (upTo n (all ++ bytes), decide ((all ++ bytes).size ≤ n)) := by
  have hsize : (all ++ bytes).size = all.size + bytes.length := by
    simp only [← Array.length_toList, Array.toList_appendList, List.length_append]
  have htaken : (all.toList.take n).toArray ++ bytes.take (n - all.size) =
      ((all ++ bytes).toList.take n).toArray := by
    rw [Array.toList_appendList, List.take_append, Array.length_toList]
    simp
  have hroom : n - all.size - bytes.length = n - (all ++ bytes).size := by omega
  have hpos : 0 < bytes.length := List.length_pos_iff.2 h
  have hfits : bytes.length ≤ n - all.size ↔ (all ++ bytes).size ≤ n := by omega
  simp only [write, upTo, htaken, hroom, hfits]

end Sink

/-! ### The end of a run -/

namespace Chunk

variable (chunk : Chunk)

/-- The instruction that ends a run of the code from an offset on: there are no jumps, so it is the
first of its kind in the walk. -/
def returnFrom? (offset : Nat) : Option Nat :=
  (chunk.sweep offset).find? fun place => chunk.fetch place = .instruction .halt

/-- The line of the instruction that ends a run. -/
def returnLine? : Option Nat := (chunk.returnFrom? 0).bind chunk.lines.lineAt?

variable {chunk} {offset : Nat}

theorem lt_size_of_fetch {fetched : Fetched} (h : chunk.fetch offset = fetched)
    (hsome : fetched ≠ .nothing) : offset < chunk.size := by
  refine Nat.lt_of_not_le fun hpast => hsome ?_
  rw [← h, fetch_eq_nothing_iff.2 hpast]

theorem returnFrom?_of_halt (h : chunk.fetch offset = .instruction .halt) :
    chunk.returnFrom? offset = some offset := by
  rw [returnFrom?, sweep_of_lt (lt_size_of_fetch h nofun), List.find?_cons_of_pos (by simp [h])]

theorem returnFrom?_of_ne {fetched : Fetched} (h : chunk.fetch offset = fetched)
    (hsome : fetched ≠ .nothing) (hhalt : fetched ≠ .instruction .halt) :
    chunk.returnFrom? (offset + fetched.width) = chunk.returnFrom? offset := by
  have hlt := lt_size_of_fetch h hsome
  rw [returnFrom?, returnFrom?, sweep_of_lt hlt, List.find?_cons_of_neg (by simp [h, hhalt]),
    ← fetch_width hlt, h]

end Chunk

namespace Machine

/-! ### Instructions and the sink -/

/-- A machine with another sink. -/
def withOutput (m : Machine) (sink : Sink) : Machine := { m with output := sink }

/-- What a machine has come to, with another sink. -/
def rerouted {α : Type} (sink : Sink) (x : Machine × α) : Machine × α := (x.1.withOutput sink, x.2)

variable (m : Machine) (sink : Sink) (chunk : Chunk) (offset : Nat)

theorem push_withOutput (v : Value) : (m.withOutput sink).push v = rerouted sink (m.push v) := by
  by_cases hfull : m.options.stackLimit ≤ m.stack.length <;>
    simp only [push, withOutput, rerouted, hfull, if_true, if_false]

theorem binary_withOutput (f : Heap → Value → Value → Except Fault (Value × Heap)) :
    (m.withOutput sink).binary f = rerouted sink (m.binary f) := by
  obtain ⟨stack, heap, output, journal, options⟩ := m
  rcases stack with _ | ⟨right, _ | ⟨left, stack⟩⟩
  · rfl
  · rfl
  · simp only [binary, withOutput]
    cases f heap left right with
    | ok made => exact push_withOutput ⟨stack, made.2, output, journal, options⟩ sink made.1
    | error fault => rfl

theorem unary_withOutput (f : Value → Except Fault Value) :
    (m.withOutput sink).unary f = rerouted sink (m.unary f) := by
  obtain ⟨stack, heap, output, journal, options⟩ := m
  rcases stack with _ | ⟨operand, stack⟩
  · rfl
  · simp only [unary, withOutput]
    cases f operand with
    | ok v => exact push_withOutput ⟨stack, heap, output, journal, options⟩ sink v
    | error fault => rfl

theorem pushConstant_withOutput (index : UInt8) :
    (m.withOutput sink).pushConstant chunk index = rerouted sink (m.pushConstant chunk index) := by
  simp only [pushConstant, withOutput]
  cases chunk.constants[index.toNat]? with
  | none => rfl
  | some v =>
    simp only
    cases importValue chunk index m.heap v with
    | ok made => exact push_withOutput { m with heap := made.2 } sink made.1
    | error fault => rfl

/-- Only the last instruction looks at the sink. -/
theorem execute_withOutput {op : OpCode} (h : op ≠ .halt) :
    (m.withOutput sink).execute op = rerouted sink (m.execute op) := by
  cases op with
  | constant => rfl
  | pushNil | pushTrue | pushFalse => exact m.push_withOutput sink _
  | equal => exact m.binary_withOutput sink equalValues
  | add => exact m.binary_withOutput sink addValues
  | greater | less | subtract | multiply | divide => exact m.binary_withOutput sink (numeric _)
  | not => exact m.unary_withOutput sink notValue
  | negate => exact m.unary_withOutput sink negateValue
  | halt => exact absurd rfl h

theorem trace_withOutput :
    (m.withOutput sink).trace chunk offset = (m.trace chunk offset).withOutput sink := by
  cases htracing : m.options.tracing <;> simp only [trace, withOutput, htracing] <;> rfl

theorem fail_withOutput (fault : Fault) :
    (m.withOutput sink).fail chunk offset fault = rerouted sink (m.fail chunk offset fault) := by
  unfold fail
  cases fault.isDefect <;> rfl

theorem compileNoting_withOutput (source : String) :
    (m.withOutput sink).compileNoting source = rerouted sink (m.compileNoting source) := rfl

/-! ### Points of two runs -/

/-- All that a machine has printed since it was `before` is `bytes`, which are some. -/
structure Prints (before : Machine) (bytes : List UInt8) (m : Machine) : Prop where
  output_eq : m.output = { before.output with written := before.output.written ++ bytes }
  ne_nil : bytes ≠ []

/-- Two runs at the same point that differ in their sinks alone, that of the first taking
everything. They go the same way; at the end the second may not be able to print what the first has
printed. -/
inductive Cut (before : Machine) (sink : Sink) (chunk : Chunk) : Progress → Progress → Prop
  | running {offset : Nat} {m : Machine} :
      m.output = before.output → chunk.returnFrom? offset = chunk.returnFrom? 0 →
      Cut before sink chunk (.running offset m) (.running offset (m.withOutput sink))
  | failed {m : Machine} {e : RuntimeError} :
      m.output = before.output →
      Cut before sink chunk (.ended (m, .error e)) (.ended (m.withOutput sink, .error e))
  | printed {m : Machine} {bytes : List UInt8} :
      before.Prints bytes m → (sink.write bytes).2 = true →
      Cut before sink chunk (.ended (m, .ok ()))
        (.ended (m.withOutput (sink.write bytes).1, .ok ()))
  | refused {m : Machine} {bytes : List UInt8} {offset : Nat} :
      before.Prints bytes m → (sink.write bytes).2 = false → chunk.returnFrom? 0 = some offset →
      Cut before sink chunk (.ended (m, .ok ()))
        (.ended ((m.withOutput (sink.write bytes).1).fail chunk offset .outputRefused))

section Cut

variable {m} {sink} {chunk} {offset} {before : Machine}

theorem cut_fail (houtput : m.output = before.output) (fault : Fault) :
    Cut before sink chunk (.ended (m.fail chunk offset fault))
      (.ended ((m.withOutput sink).fail chunk offset fault)) := by
  rw [fail_withOutput]
  exact .failed ((follows_fail chunk offset m fault).output_eq.trans houtput)

/-- An instruction that does not print. -/
theorem cut_progress {outcome : Outcome} {fetched : Fetched}
    (houtput : outcome.1.output = before.output) (hfetch : chunk.fetch offset = fetched)
    (hsome : fetched ≠ .nothing) (hhalt : fetched ≠ .instruction .halt)
    (hreturn : chunk.returnFrom? offset = chunk.returnFrom? 0) :
    Cut before sink chunk (outcome.progress chunk offset fetched.width)
      (Outcome.progress chunk offset fetched.width (rerouted sink outcome)) := by
  obtain ⟨m', fault?⟩ := outcome
  cases fault? with
  | none =>
    refine .running houtput ?_
    rw [Chunk.returnFrom?_of_ne hfetch hsome hhalt, hreturn]
  | some fault => exact cut_fail houtput fault

/-- The last instruction prints what the sinks take. -/
theorem cut_conclude (hroom : before.output.room = none) (houtput : m.output = before.output)
    (hreturn : chunk.returnFrom? 0 = some offset) :
    Cut before sink chunk (.ended (conclude chunk offset (m.execute .halt)))
      (.ended (conclude chunk offset ((m.withOutput sink).execute .halt))) := by
  cases hstack : m.stack with
  | nil =>
    have hunderflow : m.execute .halt = (m, some .stackUnderflow) := by
      simp only [execute, printTop, hstack]
    have hunderflow' : (m.withOutput sink).execute .halt =
        (m.withOutput sink, some .stackUnderflow) := by
      simp only [execute, printTop, withOutput, hstack]
    rw [hunderflow, hunderflow']
    exact cut_fail houtput _
  | cons v stack =>
    have hfree : m.output.room = none := by rw [houtput, hroom]
    have hprints : before.Prints (m.heap.written v ++ [lineFeed])
        { m with stack, output := { m.output with
            written := m.output.written ++ (m.heap.written v ++ [lineFeed]) } } :=
      ⟨by rw [houtput], List.append_ne_nil_of_right_ne_nil _ (List.cons_ne_nil _ _)⟩
    rw [execute_halt hstack hfree]
    cases htaken : (sink.write (m.heap.written v ++ [lineFeed])).2 with
    | true =>
      have hlimited : (m.withOutput sink).execute .halt =
          ({ m with stack, output := (sink.write (m.heap.written v ++ [lineFeed])).1 }, none) := by
        simp only [execute, printTop, withOutput, hstack, htaken, if_true]
      rw [hlimited]
      exact .printed hprints htaken
    | false =>
      have hlimited : (m.withOutput sink).execute .halt =
          ({ m with stack, output := (sink.write (m.heap.written v ++ [lineFeed])).1 },
            some .outputRefused) := by
        simp [execute, printTop, withOutput, hstack, htaken]
      rw [hlimited]
      exact .refused hprints htaken hreturn

/-- **A turn keeps the runs together.** -/
theorem dispatch_cut (hroom : before.output.room = none) {p q : Progress}
    (h : Cut before sink chunk p q) :
    Cut before sink chunk (dispatch chunk p) (dispatch chunk q) := by
  cases h with
  | @running offset m houtput hreturn =>
    have htraced : (m.trace chunk offset).output = before.output := by rw [output_trace, houtput]
    rw [dispatch_running, dispatch_running, trace_withOutput]
    generalize hfetch : chunk.fetch offset = fetched
    cases fetched with
    | nothing | unknown byte | bare => exact cut_fail htraced _
    | constant index =>
      simp only [obey, pushConstant_withOutput]
      exact cut_progress ((follows_pushConstant _ chunk index).output_eq.trans htraced) hfetch
        nofun nofun hreturn
    | instruction op =>
      by_cases hhalt : op = .halt
      · subst hhalt
        exact cut_conclude hroom htraced (hreturn ▸ Chunk.returnFrom?_of_halt hfetch)
      · rw [obey_instruction _ _ _ hhalt, obey_instruction _ _ _ hhalt,
          execute_withOutput _ _ hhalt]
        exact cut_progress ((follows_execute _ hhalt).output_eq.trans htraced) hfetch nofun
          (fun heq => hhalt (Fetched.instruction.inj heq)) hreturn
  | failed houtput => exact .failed houtput
  | printed hprints htaken => exact .printed hprints htaken
  | refused hprints htaken hreturn => exact .refused hprints htaken hreturn

theorem dispatches_cut (hroom : before.output.room = none) {p q : Progress}
    (h : Cut before sink chunk p q) (k : Nat) :
    Cut before sink chunk (dispatches chunk k p) (dispatches chunk k q) := by
  induction k generalizing p q with
  | zero => exact h
  | succ k ih => exact ih (dispatch_cut hroom h)

end Cut

/-! ### Calls -/

/-- The program that a call runs, where the strings of a text's program have the identity `id`. -/
inductive Call.Runs (id : HeapId) : Call → Chunk → Prop
  | text {source : String} {chunk : Chunk} :
      compile id source = .ok chunk → Runs id (.text source) chunk
  | chunk (chunk : Chunk) : Runs id (.chunk chunk) chunk

/-- A call, with its result. -/
def perform (m : Machine) : Call → Machine × Except Failure Unit
  | .text source => m.interpret source
  | .chunk chunk => ((m.runChunk chunk).1, (m.runChunk chunk).2.mapError Failure.runtime)

theorem perform_fst (m : Machine) (call : Call) : (m.perform call).1 = m.after call := by
  cases call <;> rfl

/-- How a call comes out for a machine whose sink takes everything, and for the same machine with
another sink. -/
inductive CutCall (before : Machine) (sink : Sink) (call : Call) :
    Machine × Except Failure Unit → Machine × Except Failure Unit → Prop
  | failed {m : Machine} {f : Failure} :
      m.output = before.output →
      CutCall before sink call (m, .error f) (m.withOutput sink, .error f)
  | printed {m : Machine} {bytes : List UInt8} :
      before.Prints bytes m → (sink.write bytes).2 = true →
      CutCall before sink call (m, .ok ()) (m.withOutput (sink.write bytes).1, .ok ())
  | refused {m m' : Machine} {bytes : List UInt8} {chunk : Chunk} :
      before.Prints bytes m → (sink.write bytes).2 = false →
      call.Runs before.heap.id.next chunk → m'.output = (sink.write bytes).1 → m'.stack = [] →
      m'.heap = m.heap → m'.options = m.options →
      CutCall before sink call (m, .ok ())
        (m', .error (.runtime ⟨Fault.outputRefused.message, chunk.returnLine?⟩))

variable {m} {sink} {chunk} {call : Call}

/-- The run of the program of a call, by a machine whose sink is still that from before the call. -/
theorem runChunk_cut (hroom : m.output.room = none) {before : Machine}
    (houtput : m.output = before.output) (hruns : call.Runs before.heap.id.next chunk) :
    CutCall before sink call
      ((m.runChunk chunk).1, (m.runChunk chunk).2.mapError Failure.runtime)
      (((m.withOutput sink).runChunk chunk).1,
        ((m.withOutput sink).runChunk chunk).2.mapError Failure.runtime) := by
  have hstart : Cut before sink chunk (m.start chunk) ((m.withOutput sink).start chunk) :=
    .running houtput rfl
  have hend := dispatches_cut (houtput ▸ hroom) hstart (chunk.size + 1)
  rw [dispatches_start _ _ (Nat.lt_succ_self _), dispatches_start _ _ (Nat.lt_succ_self _)] at hend
  generalize hrun : runAt chunk 0 (m.begin chunk) = last at hend
  generalize hrun' : runAt chunk 0 ((m.withOutput sink).begin chunk) = last' at hend
  cases hend with
  | failed hlast =>
    rw [runChunk_of_error hrun, runChunk_of_error hrun']
    exact .failed hlast
  | @printed _ bytes hprints htaken =>
    rw [runChunk_of_ok hrun, runChunk_of_ok hrun']
    exact .printed ⟨hprints.output_eq, hprints.ne_nil⟩ htaken
  | @refused last bytes offset hprints htaken hreturn =>
    have hfollows := follows_fail chunk offset (last.withOutput (sink.write bytes).1) .outputRefused
    have hline : chunk.returnLine? = chunk.lines.lineAt? offset := by
      rw [Chunk.returnLine?, hreturn, Option.bind_some]
    rw [runChunk_of_ok hrun, runChunk_of_error hrun', ← hline]
    refine .refused ⟨hprints.output_eq, hprints.ne_nil⟩ htaken hruns ?_ rfl ?_ ?_
    · exact hfollows.output_eq
    · rfl
    · exact hfollows.options_eq

/-- A text whose program has been noted is run as that program. -/
theorem interpret_of_noting {source : String} {noted : Machine} {chunk : Chunk}
    (h : m.compileNoting source = (noted, .ok chunk)) :
    m.interpret source =
      ((noted.runChunk chunk).1, (noted.runChunk chunk).2.mapError Failure.runtime) := by
  rw [interpret, h]
  simp only
  split <;> rename_i hrun <;> rw [hrun] <;> rfl

/-- **A call with another sink.** -/
theorem perform_cut (hroom : m.output.room = none) (sink : Sink) (call : Call) :
    CutCall m sink call (m.perform call) ((m.withOutput sink).perform call) := by
  cases call with
  | chunk chunk => exact runChunk_cut hroom rfl (.chunk chunk)
  | text source =>
    have hcompiled : (m.compileNoting source).2 = compile m.heap.id.next source := rfl
    have hnoted : (m.compileNoting source).1.output = m.output := rfl
    have hnoting' := m.compileNoting_withOutput sink source
    rcases hnoting : m.compileNoting source with ⟨noted, d | chunk⟩
    · rw [hnoting] at hnoted hnoting'
      simp only [perform, interpret, hnoting, hnoting']
      exact .failed hnoted
    · rw [hnoting] at hcompiled hnoted hnoting'
      simp only [perform, interpret_of_noting hnoting, interpret_of_noting hnoting']
      exact runChunk_cut (hnoted ▸ hroom) hnoted (.text hcompiled.symm)

/-! ### Two machines -/

/-- The strings of a compiled text have the identity that was asked for. -/
theorem id_of_compile {id : HeapId} {source : String} {chunk : Chunk}
    (h : compile id source = .ok chunk) : chunk.objects.id = id := by
  obtain ⟨e, line, -, -, rfl⟩ := compile_eq_ok_iff.1 h
  exact program_id e id line

/-- A chunk on two machines with the same strings leaves them with the same strings. -/
theorem objects_runChunk {a b : Chunk} (hsame : a.SameProgram b) {m n : Machine}
    (hlimit : m.options.stackLimit = n.options.stackLimit) (hroom : m.output.room = none)
    (hroom' : n.output.room = none) (hid : a.objects.id ≠ m.heap.id)
    (hid' : b.objects.id ≠ n.heap.id) (hobjects : m.heap.objects = n.heap.objects) :
    (m.runChunk a).1.heap.objects = (n.runChunk b).1.heap.objects := by
  rw [heap_runChunk, heap_runChunk, madeBy_eq hsame hlimit hroom hroom' hid hid']
  apply Array.toList_inj.1
  rw [Heap.objects_allocAll, Heap.objects_allocAll, hobjects]

/-- So does a call. -/
theorem objects_perform {m n : Machine} (hlimit : m.options.stackLimit = n.options.stackLimit)
    (hroom : m.output.room = none) (hroom' : n.output.room = none) {call : Call}
    (hcall : ∀ chunk, call = .chunk chunk →
      chunk.OwnsConstants ∧ chunk.objects.id ≠ m.heap.id ∧ chunk.objects.id ≠ n.heap.id)
    (hobjects : m.heap.objects = n.heap.objects) :
    (m.perform call).1.heap.objects = (n.perform call).1.heap.objects := by
  cases call with
  | chunk chunk =>
    obtain ⟨howns, hid, hid'⟩ := hcall chunk rfl
    exact objects_runChunk howns.sameProgram hlimit hroom hroom' hid hid' hobjects
  | text source =>
    rcases compile_sameProgram m.heap.id.next n.heap.id.next source with
      ⟨a, b, ha, hb, hsame⟩ | ⟨d, ha, hb⟩
    · obtain ⟨m', hm, hheap, hrun⟩ := interpret_of_compile ha
      obtain ⟨n', hn, hheap', hrun'⟩ := interpret_of_compile hb
      have hid : a.objects.id ≠ m'.heap.id := by
        rw [id_of_compile ha, hheap]
        exact m.heap.id.next_ne
      have hid' : b.objects.id ≠ n'.heap.id := by
        rw [id_of_compile hb, hheap']
        exact n.heap.id.next_ne
      simp only [perform, hrun, hrun']
      exact objects_runChunk hsame (by rw [hm.options_eq, hn.options_eq, hlimit])
        (by rw [hm.output_eq, hroom]) (by rw [hn.output_eq, hroom']) hid hid'
        (by rw [hheap, hheap', hobjects])
    · obtain ⟨m', -, hheap, -, hrun⟩ := interpret_of_error ha
      obtain ⟨n', -, hheap', -, hrun'⟩ := interpret_of_error hb
      have hsame : m'.heap.objects = n'.heap.objects := by rw [hheap, hheap', hobjects]
      simp only [perform, hrun, hrun']
      exact hsame

/-- No call changes a heap's identity or the options, or limits a sink that takes everything. -/
theorem after_keeps (m : Machine) (call : Call) :
    (m.after call).heap.id = m.heap.id ∧ (m.after call).options = m.options ∧
      (m.output.room = none → (m.after call).output.room = none) := by
  have hchunk (m : Machine) (chunk : Chunk) : (m.runChunk chunk).1.heap.id = m.heap.id := by
    rw [heap_runChunk, Heap.id_allocAll]
  cases call with
  | chunk chunk => exact ⟨hchunk m chunk, m.runChunk_keeps chunk⟩
  | text source =>
    refine ⟨?_, m.interpret_keeps source⟩
    cases hcompile : compile m.heap.id.next source with
    | ok chunk =>
      obtain ⟨m', -, hheap, hrun⟩ := interpret_of_compile hcompile
      rw [after, hrun, hchunk, hheap]
    | error d =>
      obtain ⟨m', -, hheap, -, hrun⟩ := interpret_of_error hcompile
      rw [after, hrun]
      exact congrArg Heap.id hheap

theorem perform_alike {m n : Machine} (hlimit : m.options.stackLimit = n.options.stackLimit)
    (hroom : m.output.room = none) (hroom' : n.output.room = none) {call : Call}
    (hcall : ∀ chunk, call = .chunk chunk →
      chunk.OwnsConstants ∧ chunk.objects.id ≠ m.heap.id ∧ chunk.objects.id ≠ n.heap.id) :
    Alike m n (m.perform call) (n.perform call) := by
  cases call with
  | text source => exact (interpret_alike hlimit hroom hroom' source).1
  | chunk chunk =>
    obtain ⟨howns, hid, hid'⟩ := hcall chunk rfl
    obtain ⟨hresult, hprinted, hreported, hobjects, hbytes⟩ :=
      (runChunk_alike howns.sameProgram hlimit hroom hroom' hid hid').1
    exact ⟨congrArg (Except.mapError Failure.runtime) hresult, hprinted, hreported, hobjects,
      hbytes⟩

/-! ### Sequences of calls -/

/-- How a call comes out where the sink takes `n` bytes in all, compared with where it takes
everything. -/
inductive Compared (n : Nat) (limited free : Machine) (call : Call)
    (x y : Machine × Except Failure Unit) : Prop
  | failed {f : Failure} {text : String} :
      y.2 = .error f → x.2 = .error f →
      x.1.journal.reports = limited.journal.reports ++ text →
      y.1.journal.reports = free.journal.reports ++ text → Compared n limited free call x y
  | fits :
      y.2 = .ok () → y.1.output.written.size ≤ n → x.2 = .ok () → Compared n limited free call x y
  | refused {chunk : Chunk} :
      y.2 = .ok () → n < y.1.output.written.size → call.Runs limited.heap.id.next chunk →
      x.2 = .error (.runtime ⟨Fault.outputRefused.message, chunk.returnLine?⟩) →
      x.1.stack = [] → Compared n limited free call x y

/-- Two machines after the same calls, the sink of the first limited to `n` bytes. -/
structure Abreast (n : Nat) (limited free : Machine) : Prop where
  options_eq : limited.options = free.options
  objects_eq : limited.heap.objects = free.heap.objects
  room_eq : free.output.room = none
  output_eq : limited.output = .upTo n free.output.written

theorem abreast_new (id id' : HeapId) (options : MachineOptions) (n : Nat) :
    Abreast n (new id options (some n)) (new id' options) where
  options_eq := rfl
  objects_eq := rfl
  room_eq := rfl
  output_eq := by simp [new, Sink.upTo]

/-- **A call keeps two machines abreast.** -/
theorem Abreast.perform {n : Nat} {limited free : Machine} (h : Abreast n limited free)
    {call : Call} (hcall : ∀ chunk, call = .chunk chunk →
      chunk.OwnsConstants ∧ chunk.objects.id ≠ limited.heap.id ∧
        chunk.objects.id ≠ free.heap.id) :
    Compared n limited free call (limited.perform call) (free.perform call) ∧
      Abreast n (limited.perform call).1 (free.perform call).1 := by
  -- Between the two stands the limited machine with the sink of the other.
  have hlimit : (limited.withOutput free.output).options.stackLimit = free.options.stackLimit :=
    congrArg MachineOptions.stackLimit h.options_eq
  have halike := perform_alike hlimit h.room_eq h.room_eq hcall
  have hobjects := objects_perform hlimit h.room_eq h.room_eq hcall h.objects_eq
  have hcut := perform_cut (m := limited.withOutput free.output) h.room_eq
    (.upTo n free.output.written) call
  have hsame : (limited.withOutput free.output).withOutput (.upTo n free.output.written) =
      limited := by
    rw [← h.output_eq]
    rfl
  have hoptions : (limited.perform call).1.options = (free.perform call).1.options := by
    rw [perform_fst, perform_fst, (limited.after_keeps call).2.1, (free.after_keeps call).2.1,
      h.options_eq]
  have hroom : (free.perform call).1.output.room = none := by
    rw [perform_fst]
    exact (free.after_keeps call).2.2 h.room_eq
  obtain ⟨hresult, ⟨printed, hwritten, hwritten'⟩, ⟨text, hreports, hreports'⟩, -, -⟩ := halike
  have htotal : (free.perform call).1.output.written =
      ((limited.withOutput free.output).perform call).1.output.written := by
    rw [hwritten, hwritten']
    rfl
  rw [hsame] at hcut
  generalize (limited.withOutput free.output).perform call = middle at *
  generalize limited.perform call = x at *
  generalize free.perform call = y at *
  cases hcut with
  | failed houtput =>
    have hnone : y.1.output.written = free.output.written := by
      rw [htotal]
      exact congrArg Sink.written houtput
    exact ⟨.failed hresult.symm rfl hreports hreports', hoptions, hobjects, hroom,
      by rw [hnone]; rfl⟩
  | @printed m bytes hprints htaken =>
    have hall : y.1.output.written = free.output.written ++ bytes := by
      rw [htotal]
      exact congrArg Sink.written hprints.output_eq
    rw [Sink.write_upTo _ _ hprints.ne_nil] at htaken ⊢
    refine ⟨.fits hresult.symm ?_ rfl, hoptions, hobjects, hroom, by rw [hall]; rfl⟩
    rw [hall]
    exact of_decide_eq_true htaken
  | @refused m m' bytes chunk hprints htaken hruns houtput hstack hheap _ =>
    have hall : y.1.output.written = free.output.written ++ bytes := by
      rw [htotal]
      exact congrArg Sink.written hprints.output_eq
    rw [Sink.write_upTo _ _ hprints.ne_nil] at htaken houtput
    refine ⟨.refused hresult.symm ?_ hruns rfl hstack, hoptions, ?_, hroom,
      by rw [hall]; exact houtput⟩
    · rw [hall]
      exact Nat.lt_of_not_le (of_decide_eq_false htaken)
    · exact (congrArg Heap.objects hheap).trans hobjects

/-- Machines that begin abreast are so after any calls. -/
theorem Abreast.foldl {n : Nat} {limited free : Machine} (h : Abreast n limited free)
    {calls : List Call} (hcalls : ∀ chunk, .chunk chunk ∈ calls →
      chunk.OwnsConstants ∧ chunk.objects.id ≠ limited.heap.id ∧
        chunk.objects.id ≠ free.heap.id) :
    Abreast n (calls.foldl after limited) (calls.foldl after free) := by
  induction calls generalizing limited free with
  | nil => exact h
  | cons call calls ih =>
    have hnext := (h.perform fun chunk heq => hcalls chunk (heq ▸ List.mem_cons_self)).2
    rw [perform_fst, perform_fst] at hnext
    refine ih hnext ?_
    rw [(limited.after_keeps call).1, (free.after_keeps call).1]
    exact fun chunk hmem => hcalls chunk (List.mem_cons_of_mem _ hmem)

theorem id_foldl_after (m : Machine) (calls : List Call) :
    (calls.foldl after m).heap.id = m.heap.id := by
  induction calls generalizing m with
  | nil => rfl
  | cons call calls ih => exact (ih (m.after call)).trans (m.after_keeps call).1

theorem size_written_perform (hroom : m.output.room = none) (call : Call) :
    m.output.written.size ≤ (m.perform call).1.output.written.size := by
  have hprinted {m' : Machine} {bytes : List UInt8} (h : m.Prints bytes m') :
      m.output.written.size ≤ m'.output.written.size := by
    rw [h.output_eq, ← Array.length_toList, ← Array.length_toList, Array.toList_appendList,
      List.length_append]
    exact Nat.le_add_right _ _
  have hcut := perform_cut hroom m.output call
  generalize m.perform call = x at hcut ⊢
  generalize (m.withOutput m.output).perform call = y at hcut
  cases hcut with
  | failed houtput => rw [houtput]
  | printed hprints _ => exact hprinted hprints
  | refused hprints => exact hprinted hprints

/-- What is printed stays printed. -/
theorem size_written_foldl {m : Machine} (hroom : m.output.room = none) (calls : List Call) :
    m.output.written.size ≤ (calls.foldl after m).output.written.size := by
  induction calls generalizing m with
  | nil => exact Nat.le_refl _
  | cons call calls ih =>
    have hcall := size_written_perform hroom call
    rw [perform_fst] at hcall
    exact hcall.trans (ih ((m.after_keeps call).2.2 hroom))

/-- **A sink that fills up only cuts the output off.** Two machines perform the same calls, the
first with room for `n` bytes of output and the second with room for all. At any moment the first
has printed the first `n` bytes of what the second has, and their heaps hold the same strings in the
same order. A call that fails for the second fails for the first with the same error and the same
report. One that succeeds for the second does so for the first as long as all that has been printed
fits; from then on it fails with the refusal of the sink, at the line of the instruction that
prints, and leaves an empty stack. -/
theorem limited_output (options : MachineOptions) (id id' : HeapId) (n : Nat) (calls : List Call)
    (hcalls : ∀ chunk, .chunk chunk ∈ calls →
      chunk.OwnsConstants ∧ chunk.objects.id ≠ id ∧ chunk.objects.id ≠ id') :
    let limited := fun calls => List.foldl after (new id options (some n)) calls
    let free := fun calls => List.foldl after (new id' options) calls
    (∀ before, before <+: calls →
      (limited before).output.written.toList = (free before).output.written.toList.take n ∧
        (limited before).heap.objects = (free before).heap.objects ∧
        (free before).output.written.size ≤ (free calls).output.written.size) ∧
      ∀ before call, before ++ [call] <+: calls →
        Compared n (limited before) (free before) call ((limited before).perform call)
          ((free before).perform call) := by
  intro limited free
  have habreast (before : List Call) (hbefore : before <+: calls) :
      Abreast n (limited before) (free before) :=
    (abreast_new id id' options n).foldl fun chunk hmem => hcalls chunk (hbefore.subset hmem)
  refine ⟨?_, ?_⟩
  · intro before hbefore
    have h := habreast before hbefore
    obtain ⟨later, rfl⟩ := hbefore
    refine ⟨?_, h.objects_eq, ?_⟩
    · rw [h.output_eq]
      rfl
    · show _ ≤ ((before ++ later).foldl after (new id' options)).output.written.size
      rw [List.foldl_append]
      exact size_written_foldl (habreast before (List.prefix_append _ _)).room_eq later
  · intro before call hcall
    have hbefore := (List.prefix_append before [call]).trans hcall
    refine ((habreast before hbefore).perform ?_).1
    rintro chunk rfl
    rw [id_foldl_after, id_foldl_after]
    exact hcalls chunk (hcall.subset (List.mem_append_right _ List.mem_cons_self))

/-- Three bytes are enough for a first line and one byte of a string that a chunk prints after it; a
text that fails anyway and one that prints an empty line follow. -/
theorem limited_output_mid_value :
    let named := (Chunk.empty ⟨1⟩).addString [97, 98]
    let chunk := (((named.2.addConstant (.object named.1)).writeOp .pushNil 1).writeOp .constant
      2).write 0 2 |>.writeOp .halt 3
    let calls := [Call.text "1", .chunk chunk, .text "-nil", .text "\"\""]
    let limited := fun calls => List.foldl after (new ⟨0⟩ {} (some 3)) calls
    let free := fun calls => List.foldl after (new ⟨5⟩ {}) calls
    (∀ chunk, .chunk chunk ∈ calls →
      chunk.OwnsConstants ∧ chunk.objects.id ≠ ⟨0⟩ ∧ chunk.objects.id ≠ ⟨5⟩) ∧
      (limited calls).output.written.toList = (free calls).output.written.toList.take 3 ∧
      (free calls).output.written = #[49, 10, 97, 98, 10, 10] ∧
      Compared 3 (limited (calls.take 1)) (free (calls.take 1)) (.chunk chunk)
        ((limited (calls.take 1)).perform (.chunk chunk))
        ((free (calls.take 1)).perform (.chunk chunk)) ∧
      ((limited (calls.take 1)).perform (.chunk chunk)).2 =
        .error (.runtime ⟨Fault.outputRefused.message, some 3⟩) := by
  intro named chunk calls limited free
  have howns : chunk.OwnsConstants := fun _ hk => Heap.owns_of_only_constant rfl hk
  have hcalls : ∀ c, .chunk c ∈ calls →
      c.OwnsConstants ∧ c.objects.id ≠ ⟨0⟩ ∧ c.objects.id ≠ ⟨5⟩ := by
    intro c hc
    obtain rfl : c = chunk := by simpa [calls] using hc
    exact ⟨howns, by decide, by decide⟩
  obtain ⟨hmoments, hcompared⟩ := limited_output {} ⟨0⟩ ⟨5⟩ 3 calls hcalls
  exact ⟨hcalls, (hmoments calls List.prefix_rfl).1, by decide +kernel,
    hcompared (calls.take 1) (.chunk chunk) ⟨_, rfl⟩, by decide +kernel⟩

end Machine
end ExprMachine
