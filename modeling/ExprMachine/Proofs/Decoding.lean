import ExprMachine.Proofs.Allocation
import ExprMachine.Proofs.Sweep

/-!
# Listing, trace and loop decode alike

Three parts of the program take code apart: the listing, the trace of a run and the loop itself.
They come to the same offsets, and where an entry says that a constant is missing or foreign, the
machine stops for that reason.

* `Journal.traced` — the instructions that a journal has noted;
* `Machine.Quiet` — instructions note nothing, and none complains of the end of the code;
* `turns_sweep` — the turns of a run come to the first offsets of a walk over the code, and to its
  end if the run fails there;
* `traced_runChunk` — they are noted if the machine traces;
* `Machine.Heeds`, `dispatch_heeds` — what becomes of a constant is what its entry says;
* `runChunk_decodes` — all of it for whole runs.
-/

namespace ExprMachine

/-! ### Noted instructions -/

/-- The instruction that an event is about, as it is written in a trace. -/
def Event.traced? : Event → Option String
  | instruction text _ => some text
  | _ => none

/-- The instructions that were about to run, in order. -/
def Journal.traced (journal : Journal) : List String := journal.events.filterMap Event.traced?

theorem Journal.traced_push_event (journal : Journal) (e : Event) :
    Journal.traced (journal.push (.event e)) = journal.traced ++ e.traced?.toList := by
  rw [traced, events_push_event, List.filterMap_append]
  cases he : e.traced? with
  | none => simp [traced, he]
  | some text => simp [traced, he]

theorem Journal.traced_push_report (journal : Journal) (text : String) :
    Journal.traced (journal.push (.report text)) = journal.traced := by
  simp [traced, events]

/-- A text with more behind it begins as it does. -/
theorem getElem?_toList_append {s : String} {i : Nat} (h : i < s.toList.length) (t : String) :
    (s ++ t).toList[i]? = s.toList[i]? := by
  rw [String.toList_append, List.getElem?_append_left h]

/-- No other fault is worded like that of code without an end. -/
theorem Fault.message_ne_endOfCode {fault : Fault} (h : fault ≠ .endOfCode) :
    fault.message ≠ Fault.endOfCode.message := by
  suffices hfourth : fault.message.toList[3]? ≠ some 'x' by
    intro heq
    rw [heq] at hfourth
    exact hfourth (by decide)
  have hworded {s t : String} (hs : 3 < s.toList.length) (hx : s.toList[3]? ≠ some 'x')
      (hmessage : fault.message = s ++ t) : fault.message.toList[3]? ≠ some 'x' := by
    rwa [hmessage, getElem?_toList_append hs]
  cases fault with
  | endOfCode => exact absurd rfl h
  | unknownOpcode byte =>
    exact hworded (s := "Unknown opcode ") (by decide) (by decide) String.append_assoc
  | invalidConstant index =>
    exact hworded (s := "Invalid constant index ") (by decide) (by decide) String.append_assoc
  | foreignConstant index =>
    exact hworded (s := "Constant ") (by decide) (by decide) String.append_assoc
  | _ => decide

namespace Machine

/-! ### Instructions note nothing -/

/-- An instruction has left the journal alone, and did not complain of the end of the code. -/
structure Quiet (m : Machine) (outcome : Outcome) : Prop where
  journal_eq : outcome.1.journal = m.journal
  inside : outcome.2 ≠ some .endOfCode

variable {m m' : Machine}

theorem push_quiet (m : Machine) (stack : List Value) (heap : Heap) (v : Value) :
    m.Quiet (push { m with stack, heap } v) := by
  unfold push
  split
  · exact ⟨rfl, nofun⟩
  · exact ⟨rfl, nofun⟩

theorem binary_quiet (m : Machine) {f : Heap → Value → Value → Except Fault (Value × Heap)}
    (hf : ∀ left right, f m.heap left right ≠ .error .endOfCode) : m.Quiet (m.binary f) := by
  unfold binary
  split
  · rename_i right left stack _
    have hinside := hf left right
    split
    · exact m.push_quiet _ _ _
    · rename_i fault hfault
      refine ⟨rfl, ?_⟩
      intro heq
      cases heq
      exact hinside hfault
  · exact ⟨rfl, nofun⟩

theorem unary_quiet (m : Machine) {f : Value → Except Fault Value}
    (hf : ∀ operand, f operand ≠ .error .endOfCode) : m.Quiet (m.unary f) := by
  unfold unary
  split
  · rename_i operand stack _
    have hinside := hf operand
    split
    · exact m.push_quiet _ _ _
    · rename_i fault hfault
      refine ⟨rfl, ?_⟩
      intro heq
      cases heq
      exact hinside hfault
  · exact ⟨rfl, nofun⟩

theorem printTop_quiet (m : Machine) : m.Quiet m.printTop := by
  unfold printTop
  split
  · exact ⟨rfl, nofun⟩
  · refine ⟨rfl, ?_⟩
    show (if _ then none else some Fault.outputRefused) ≠ _
    split <;> exact nofun

theorem execute_quiet (m : Machine) (op : OpCode) : m.Quiet (m.execute op) := by
  have hnumeric (g : Binary64 → Binary64 → Value) : m.Quiet (m.binary (numeric g)) := by
    apply m.binary_quiet
    intro left right h
    cases fault_of_numeric h
  cases op with
  | constant => exact ⟨rfl, nofun⟩
  | pushNil | pushTrue | pushFalse => exact m.push_quiet _ _ _
  | equal =>
    refine m.binary_quiet (f := equalValues) ?_
    intro left right h
    cases h
  | add =>
    apply m.binary_quiet
    intro left right h
    cases fault_of_addValues h
  | greater | less | subtract | multiply | divide => exact hnumeric _
  | not =>
    refine m.unary_quiet (f := notValue) ?_
    intro operand h
    cases h
  | negate =>
    apply m.unary_quiet
    intro operand h
    cases fault_of_negateValue h
  | halt => exact m.printTop_quiet

theorem pushConstant_quiet (m : Machine) (chunk : Chunk) (index : UInt8) :
    m.Quiet (m.pushConstant chunk index) := by
  have himported (v : Value) : importValue chunk index m.heap v ≠ .error .endOfCode := by
    cases v with
    | nil | bool b | number x => exact nofun
    | object h =>
      unfold importValue
      repeat' split
      all_goals exact nofun
  unfold pushConstant
  cases chunk.constants[index.toNat]? with
  | none => exact ⟨rfl, nofun⟩
  | some v =>
    have hinside := himported v
    simp only
    cases himport : importValue chunk index m.heap v with
    | ok imported => exact m.push_quiet _ _ _
    | error fault =>
      rw [himport] at hinside
      refine ⟨rfl, ?_⟩
      intro heq
      cases heq
      exact hinside rfl

/-! ### The end of the code -/

/-- A run has failed because it came to the end of the code. -/
def RanOff (result : Except RuntimeError Unit) : Prop :=
  ∃ line, result = .error ⟨Fault.endOfCode.message, line⟩

variable {chunk : Chunk}

theorem ranOff_fail_iff (chunk : Chunk) (m : Machine) (offset : Nat) (fault : Fault) :
    RanOff (m.fail chunk offset fault).2 ↔ fault = .endOfCode := by
  constructor
  · intro h
    obtain ⟨line, hline⟩ := h
    have hmessage : fault.message = Fault.endOfCode.message := by
      injection hline with heq
      exact congrArg RuntimeError.message heq
    exact Classical.byContradiction fun hne => Fault.message_ne_endOfCode hne hmessage
  · intro h
    rw [h]
    exact ⟨_, rfl⟩

/-- A turn inside the code moves on by the width of what stands there, or ends the run for another
reason than the end of the code. -/
theorem dispatch_inside {offset : Nat} (m : Machine) (h : offset < chunk.size) :
    (∃ m', dispatch chunk (.running offset m) = .running (offset + chunk.widthAt offset) m') ∨
      ∃ outcome, dispatch chunk (.running offset m) = .ended outcome ∧ ¬ RanOff outcome.2 := by
  have hprogress {outcome : Outcome} (hquiet : (m.trace chunk offset).Quiet outcome) (width : Nat)
      (hwidth : width = chunk.widthAt offset) :
      (∃ m', outcome.progress chunk offset width = .running (offset + chunk.widthAt offset) m') ∨
        ∃ last, outcome.progress chunk offset width = .ended last ∧ ¬ RanOff last.2 := by
    obtain ⟨m', fault?⟩ := outcome
    cases fault? with
    | none => exact .inl ⟨m', by rw [← hwidth]; rfl⟩
    | some fault =>
      refine .inr ⟨_, rfl, ?_⟩
      intro hoff
      exact hquiet.inside (congrArg some ((ranOff_fail_iff chunk m' offset fault).1 hoff))
  have hwidth := Chunk.fetch_width h
  rw [dispatch_running]
  cases hfetch : chunk.fetch offset with
  | nothing => exact absurd (Chunk.fetch_eq_nothing_iff.1 hfetch) (Nat.not_le.2 h)
  | unknown byte =>
    refine .inr ⟨_, rfl, ?_⟩
    intro hoff
    cases (ranOff_fail_iff _ _ _ _).1 hoff
  | bare =>
    refine .inr ⟨_, rfl, ?_⟩
    intro hoff
    cases (ranOff_fail_iff _ _ _ _).1 hoff
  | constant index =>
    rw [hfetch] at hwidth
    exact hprogress (pushConstant_quiet _ chunk index) 2 hwidth
  | instruction op =>
    rw [hfetch] at hwidth
    have hquiet := (m.trace chunk offset).execute_quiet op
    by_cases hhalt : op = .halt
    · subst hhalt
      refine .inr ⟨conclude chunk offset ((m.trace chunk offset).execute .halt), rfl, ?_⟩
      generalize (m.trace chunk offset).execute .halt = outcome at hquiet ⊢
      obtain ⟨m', fault?⟩ := outcome
      cases fault? with
      | none => exact nofun
      | some fault =>
        intro hoff
        exact hquiet.inside (congrArg some ((ranOff_fail_iff chunk m' offset fault).1 hoff))
    · rw [obey_instruction chunk offset _ hhalt]
      exact hprogress hquiet 1 hwidth

/-- **The turns of a run** come to the first offsets of a walk over the code; they come to its end
exactly if the run fails there. -/
theorem turns_sweep {n offset : Nat} {m : Machine} {outcome : Machine × Except RuntimeError Unit}
    (hle : offset ≤ chunk.size) (hend : dispatches chunk n (.running offset m) = .ended outcome) :
    ∃ visited past, (turns chunk n (.running offset m)).map Prod.fst = visited ++ past ∧
      visited <+: chunk.sweep offset ∧
      (past = [] ∧ ¬ RanOff outcome.2 ∨
        past = [chunk.size] ∧ visited = chunk.sweep offset ∧ RanOff outcome.2) := by
  induction n generalizing offset m with
  | zero => cases hend
  | succ n ih =>
    rw [dispatches] at hend
    have hnone (last : Machine × Except RuntimeError Unit) : turns chunk n (.ended last) = [] := by
      cases n <;> rfl
    by_cases hlt : offset < chunk.size
    · rw [turns, Chunk.sweep_of_lt hlt]
      rcases dispatch_inside m hlt with ⟨m', hnext⟩ | ⟨last, hlast, hoff⟩
      · rw [hnext] at hend ⊢
        obtain ⟨visited, past, hturns, hprefix, hpast⟩ := ih (Chunk.add_widthAt_le hlt) hend
        refine ⟨offset :: visited, past, ?_, List.cons_prefix_cons.2 ⟨rfl, hprefix⟩, ?_⟩
        · rw [List.map_cons, hturns, List.cons_append]
        · rcases hpast with hinside | ⟨hpast, hall, hoff⟩
          · exact .inl hinside
          · exact .inr ⟨hpast, by rw [hall], hoff⟩
      · rw [hlast, dispatches_ended] at hend
        cases hend
        rw [hlast, hnone]
        exact ⟨[offset], [], rfl, List.cons_prefix_cons.2 ⟨rfl, List.nil_prefix⟩, .inl ⟨rfl, hoff⟩⟩
    · have heq : offset = chunk.size := by omega
      subst heq
      have hnothing : chunk.fetch chunk.size = .nothing :=
        Chunk.fetch_eq_nothing_iff.2 (Nat.le_refl _)
      have hlast : dispatch chunk (.running chunk.size m) =
          .ended ((m.trace chunk chunk.size).fail chunk (chunk.size - 1) .endOfCode) := by
        rw [dispatch_running, hnothing]
        rfl
      rw [hlast, dispatches_ended] at hend
      cases hend
      rw [turns, hlast, hnone, Chunk.sweep_of_le (Nat.le_refl _)]
      exact ⟨[], [chunk.size], rfl, List.prefix_rfl,
        .inr ⟨rfl, rfl, (ranOff_fail_iff _ _ _ _).2 rfl⟩⟩

/-! ### The trace -/

theorem traced_fail (m : Machine) (chunk : Chunk) (offset : Nat) (fault : Fault) :
    (m.fail chunk offset fault).1.journal.traced = m.journal.traced := by
  unfold fail
  split
  · exact (Journal.traced_push_event _ _).trans (List.append_nil _)
  · rfl

/-- The turn notes the instruction before it obeys; obeying notes none. -/
theorem traced_obey (chunk : Chunk) (offset : Nat) (m : Machine) (fetched : Fetched) :
    (obey chunk offset m fetched).machine.journal.traced = m.journal.traced := by
  have hprogress {outcome : Outcome} (hquiet : m.Quiet outcome) (width : Nat) :
      (outcome.progress chunk offset width).machine.journal.traced = m.journal.traced := by
    obtain ⟨m', fault?⟩ := outcome
    rw [← hquiet.journal_eq]
    cases fault? with
    | none => rfl
    | some fault => exact traced_fail m' chunk offset fault
  cases fetched with
  | nothing | unknown byte | bare => exact traced_fail m chunk _ _
  | constant index => exact hprogress (m.pushConstant_quiet chunk index) 2
  | instruction op =>
    have hquiet := m.execute_quiet op
    by_cases hhalt : op = .halt
    · subst hhalt
      show (conclude chunk offset (m.execute .halt)).1.journal.traced = _
      generalize m.execute .halt = outcome at hquiet ⊢
      obtain ⟨m', fault?⟩ := outcome
      rw [← hquiet.journal_eq]
      cases fault? with
      | none => rfl
      | some fault => exact traced_fail m' chunk offset fault
    · rw [obey_instruction chunk offset m hhalt]
      exact hprogress hquiet 1

/-- The entry that a turn notes. -/
def noted (chunk : Chunk) (offset : Nat) (m : Machine) : List String :=
  if m.options.tracing then [Listing.entry chunk m.heap offset] else []

theorem traced_dispatch (chunk : Chunk) (offset : Nat) (m : Machine) :
    (dispatch chunk (.running offset m)).machine.journal.traced =
      m.journal.traced ++ noted chunk offset m := by
  rw [dispatch_running, traced_obey]
  unfold trace noted
  split
  · exact Journal.traced_push_event _ _
  · exact (List.append_nil _).symm

/-- The heap at a turn has grown out of that before the run. -/
theorem extends_of_turn {offset : Nat} (h : (offset, m') ∈ m.turnsOf chunk) :
    m.heap.Extends m'.heap ∧ m'.options = m.options := by
  obtain ⟨k, hk⟩ := mem_turnsOf_iff.1 h
  have hkeep := m.dispatches_keep chunk k
  have hextends : m.heap.Extends (dispatches chunk k (m.start chunk)).machine.heap := by
    refine dispatches_induction (P := fun p => m.heap.Extends p.machine.heap) ?_ ?_ k
    · intro offset m'' hextends
      rw [(dispatch_grows chunk offset m'').heap_eq]
      exact hextends.trans (Heap.extends_allocAll _ _)
    · exact .refl m.heap
  rw [hk] at hkeep hextends
  exact ⟨hextends, hkeep.2.2⟩

/-- **A machine that traces notes the entries of its turns**, as they stand in a listing. -/
theorem traced_runChunk (m : Machine) (chunk : Chunk) (htracing : m.options.tracing = true)
    (hissued : ∀ k, .object k ∈ chunk.constants → k.heap = m.heap.id → m.heap.owns k = true) :
    (m.runChunk chunk).1.journal.traced =
      m.journal.traced ++ ((m.turnsOf chunk).map Prod.fst).map (Listing.entry chunk m.heap) := by
  have hrun : (runAt chunk 0 (m.begin chunk)).1.journal.traced =
      (m.begin chunk).journal.traced ++
        (m.turnsOf chunk).flatMap fun turn => noted chunk turn.1 turn.2 :=
    view_runAt (fun m => m.journal.traced) (· ++ ·) (noted chunk) List.append_nil
      List.append_assoc (traced_dispatch chunk) m
  have hbegin : (m.begin chunk).journal.traced = m.journal.traced :=
    (Journal.traced_push_event _ _).trans (List.append_nil _)
  have hentries : ((m.turnsOf chunk).flatMap fun turn => noted chunk turn.1 turn.2) =
      ((m.turnsOf chunk).map Prod.fst).map (Listing.entry chunk m.heap) := by
    rw [List.map_map, List.map_eq_flatMap]
    refine List.flatMap_congr ?_
    intro turn hturn
    obtain ⟨hextends, hoptions⟩ := extends_of_turn hturn
    have hentry : Listing.entry chunk turn.2.heap turn.1 = Listing.entry chunk m.heap turn.1 :=
      congrArg Prod.fst (Listing.instruction_of_extends hextends hissued turn.1)
    rw [noted, hoptions, if_pos htracing, hentry]
    rfl
  have hrest : (m.runChunk chunk).1.journal.traced =
      (runAt chunk 0 (m.begin chunk)).1.journal.traced := by
    cases hlast : runAt chunk 0 (m.begin chunk) with
    | mk m' result =>
      cases result with
      | ok _ =>
        rw [runChunk_of_ok hlast]
        exact (Journal.traced_push_event _ _).trans (List.append_nil _)
      | error e =>
        rw [runChunk_of_error hlast]
        have hfailed : (m'.note (.event (.runFailed e.message e.line))).journal.traced =
            m'.journal.traced := (Journal.traced_push_event _ _).trans (List.append_nil _)
        exact (Journal.traced_push_report _ _).trans hfailed
  rw [hrest, hrun, hbegin, hentries]

/-! ### Constants -/

/-- What becomes of a constant instruction, by the reading of its entry: the fault that the entry
tells of, or the value that it shows on the stack if there is room. -/
inductive Heeds (m : Machine) : Listing.Reading → Outcome → Prop
  | missing : Heeds m .missing (m, some .missingOperand)
  | invalid (index : UInt8) : Heeds m (.invalid index) (m, some (.invalidConstant index))
  | foreign (index : UInt8) (h : Handle) :
      Heeds m (.foreign index h) (m, some (.foreignConstant index))
  | pushed {m' : Machine} {v : Value} {x : Literal} (index : UInt8) :
      m'.stack = v :: m.stack → m'.heap.literal? v = some x →
      Listing.shown m'.heap v = Listing.cutOff x.display → Heeds m (.found index x) (m', none)
  | full {m' : Machine} {x : Literal} (index : UInt8) :
      m.options.stackLimit ≤ m.stack.length → m'.stack = m.stack →
      Heeds m (.found index x) (m', some .stackOverflow)

/-- The machine finds wrong with a constant what the entry does. -/
theorem Heeds.fault_iff {reading : Listing.Reading} {outcome : Outcome}
    (h : m.Heeds reading outcome) {fault : Fault} (hroom : fault ≠ .stackOverflow) :
    outcome.2 = some fault ↔ reading.fault? = some fault := by
  cases h with
  | missing | invalid | foreign => exact Iff.rfl
  | pushed => exact ⟨nofun, nofun⟩
  | full =>
    constructor
    · intro heq
      cases heq
      exact absurd rfl hroom
    · exact nofun

theorem push_heeds (index : UInt8) {heap : Heap} {v : Value} {x : Literal}
    (hv : heap.literal? v = some x) : m.Heeds (.found index x) (push { m with heap } v) := by
  have hshown : Listing.shown heap v = Listing.cutOff x.display :=
    congrArg Listing.cutOff (Heap.display_of_literal? hv)
  unfold push
  split
  · rename_i hfull
    exact .full index hfull rfl
  · exact .pushed index rfl hv hshown

theorem pushConstant_heeds {offset : Nat} {index : UInt8} (hid : chunk.objects.id ≠ m.heap.id)
    (hindex : chunk.code[offset + 1]? = some index) :
    m.Heeds (Listing.reading chunk m.heap offset) (m.pushConstant chunk index) := by
  unfold Listing.reading pushConstant
  rw [hindex]
  cases hv : chunk.constants[index.toNat]? with
  | none =>
    simp only [hv]
    exact .invalid index
  | some v =>
    cases v with
    | nil | bool b | number x =>
      simp only [hv]
      exact push_heeds index rfl
    | object h =>
      simp only [hv, Listing.ownerOf, importValue]
      -- The listing asks the chunk first and the machine its own heap, but not both own the handle.
      cases howns : chunk.objects.owns h with
      | true =>
        obtain ⟨bytes, hbytes⟩ := Heap.owns_iff_exists_get?.1 howns
        have hstranger : m.heap.owns h = false := by
          simp [Heap.owns, Heap.id_of_get? hbytes, hid]
        simp only [if_true, hbytes, hstranger, Bool.false_eq_true, if_false]
        exact push_heeds index (m.heap.literal?_alloc bytes)
      | false =>
        rw [Heap.owns_eq_isSome_get?, Option.isSome_eq_false_iff, Option.isNone_iff_eq_none]
          at howns
        simp only [Bool.false_eq_true, if_false, howns]
        cases hget : m.heap.get? h with
        | none =>
          have hstranger : m.heap.owns h = false := by
            rw [Heap.owns_eq_isSome_get?, hget]
            rfl
          simp only [hstranger, Bool.false_eq_true, if_false]
          exact .foreign index h
        | some bytes =>
          have howned : m.heap.owns h = true := by
            rw [Heap.owns_eq_isSome_get?, hget]
            rfl
          have hliteral : m.heap.literal? (.object h) = some (.string bytes) := by
            rw [Heap.literal?, hget, Option.map_some]
          simp only [howned, if_true]
          exact push_heeds index hliteral

/-- **A turn at a constant** does what the entry of the constant says. -/
theorem dispatch_heeds {offset : Nat} (hid : chunk.objects.id ≠ m.heap.id)
    (hconstant : chunk.code[offset]? = some OpCode.constant.toByte) :
    ∃ outcome : Outcome, dispatch chunk (.running offset m) =
        outcome.progress chunk offset (Listing.reading chunk m.heap offset).width ∧
      (m.trace chunk offset).Heeds (Listing.reading chunk m.heap offset) outcome := by
  have hid' : chunk.objects.id ≠ (m.trace chunk offset).heap.id := by rwa [heap_trace]
  rw [dispatch_running, Chunk.fetch, hconstant]
  simp only [OpCode.ofByte?_toByte]
  cases hindex : chunk.code[offset + 1]? with
  | none =>
    have hreading : Listing.reading chunk m.heap offset = .missing := by
      rw [Listing.reading, hindex]
    rw [hreading]
    exact ⟨_, rfl, .missing⟩
  | some index =>
    have hheeds := pushConstant_heeds hid' hindex
    rw [heap_trace] at hheeds
    rw [Listing.reading_width hindex]
    exact ⟨_, rfl, hheeds⟩

/-! ### Whole runs -/

/-- **Listing, trace and loop decode every chunk alike.** The entries of a listing are those of the
offsets of a walk by the table of instructions, and tile the code. A run of a machine with a heap of
its own goes through the first of these offsets, and through the end of the code exactly if it fails
there; tracing, it notes the entries of the listing for them. At each constant the machine finds
wrong what the entry tells of, or pushes the value that it shows. -/
theorem runChunk_decodes (chunk : Chunk) :
    (chunk.sweep 0).Pairwise (· < ·) ∧
      (chunk.sweep 0).flatMap chunk.slice = chunk.code.toList ∧
      (∀ heap, Listing.Tiles chunk heap 0 (chunk.sweep 0) ∧
        Listing.entries chunk heap 0 = (chunk.sweep 0).map (Listing.entry chunk heap) ∧
        (∀ offset ∈ chunk.sweep 0,
          (Listing.instruction chunk heap offset).2 = offset + chunk.widthAt offset) ∧
        (Listing.instructionText chunk heap chunk.size).1 = "<end of chunk>") ∧
      ∀ m : Machine, chunk.objects.id ≠ m.heap.id →
        (∀ k, .object k ∈ chunk.constants → k.heap = m.heap.id → m.heap.owns k = true) →
        ∃ visited past, (m.turnsOf chunk).map Prod.fst = visited ++ past ∧
          visited <+: chunk.sweep 0 ∧
          (past = [] ∧ ¬ RanOff (m.runChunk chunk).2 ∨
            past = [chunk.size] ∧ visited = chunk.sweep 0 ∧ RanOff (m.runChunk chunk).2) ∧
          (m.options.tracing = true → (m.runChunk chunk).1.journal.traced = m.journal.traced ++
            (visited.map (Listing.entry chunk m.heap) ++
              past.map (Listing.entry chunk m.heap))) ∧
          ∀ offset point, (offset, point) ∈ m.turnsOf chunk →
            chunk.code[offset]? = some OpCode.constant.toByte →
            let reading := Listing.reading chunk m.heap offset
            Listing.instructionText chunk m.heap offset = (reading.text, reading.width) ∧
              ∃ outcome : Outcome, dispatch chunk (.running offset point) =
                  outcome.progress chunk offset reading.width ∧
                (point.trace chunk offset).Heeds reading outcome ∧
                ∀ fault, fault ≠ .stackOverflow →
                  (outcome.2 = some fault ↔ reading.fault? = some fault) := by
  refine ⟨Chunk.sweep_pairwise (Nat.zero_le _), Chunk.sweep_flatMap (Nat.zero_le _), ?_, ?_⟩
  · intro heap
    refine ⟨Listing.sweep_tiles heap (Nat.zero_le _), Listing.entries_eq_sweep heap (Nat.zero_le _),
      ?_, ?_⟩
    · intro offset hoffset
      exact Chunk.instruction_next heap (Chunk.mem_sweep (Nat.zero_le _) offset hoffset).2
    · have hend : chunk.code[chunk.size]? = none := Array.getElem?_eq_none (Nat.le_refl _)
      simp only [Listing.instructionText, hend]
  · intro m hid hissued
    have hend := dispatches_start m chunk (Nat.lt_succ_self chunk.size)
    obtain ⟨visited, past, hturns, hprefix, hpast⟩ := turns_sweep (Nat.zero_le _) hend
    rw [← runChunk_snd] at hpast
    refine ⟨visited, past, hturns, hprefix, hpast, ?_, ?_⟩
    · intro htracing
      have hoffsets : (m.turnsOf chunk).map Prod.fst = visited ++ past := hturns
      rw [traced_runChunk m chunk htracing hissued, hoffsets, List.map_append]
    · intro offset point hturn hconstant reading
      obtain ⟨hextends, -⟩ := extends_of_turn hturn
      have hid' : chunk.objects.id ≠ point.heap.id := by rwa [hextends.id_eq]
      have hreading : Listing.reading chunk point.heap offset = reading :=
        Listing.reading_of_extends hextends hissued offset
      obtain ⟨outcome, hdispatch, hheeds⟩ := dispatch_heeds hid' hconstant
      rw [hreading] at hdispatch hheeds
      refine ⟨?_, outcome, hdispatch, hheeds, fun fault hroom => hheeds.fault_iff hroom⟩
      rw [← Listing.constantText_eq]
      simp only [Listing.instructionText, hconstant, OpCode.ofByte?_toByte]

/-- A string that the machine has issued is pushed, and behind it is a constant without its index: a
machine that traces notes both, and comes to no end of the code. -/
theorem runChunk_decodes_bare :
    let issued := (new ⟨0⟩ {}).heap.alloc [104, 105]
    let m := { new ⟨0⟩ { tracing := true } with heap := issued.2 }
    let chunk := ((Chunk.empty ⟨1⟩).writeConstant (.object issued.1) 1).writeOp .constant 2
    .object issued.1 ∈ chunk.constants ∧ issued.1.heap = m.heap.id ∧
      chunk.objects.id ≠ m.heap.id ∧
      (∀ k, .object k ∈ chunk.constants → k.heap = m.heap.id → m.heap.owns k = true) ∧
      (∃ visited past, (m.turnsOf chunk).map Prod.fst = visited ++ past ∧
        visited <+: chunk.sweep 0 ∧
        (m.runChunk chunk).1.journal.traced = m.journal.traced ++
          (visited.map (Listing.entry chunk m.heap) ++ past.map (Listing.entry chunk m.heap))) ∧
      (m.runChunk chunk).1.journal.traced =
        ["0000    1 OP_CONSTANT         0 'hi'", "0002    2 OP_CONSTANT      <missing operand>"] := by
  intro issued m chunk
  have hmem : .object issued.1 ∈ chunk.constants := Array.mem_push_self
  have hid : chunk.objects.id ≠ m.heap.id := by decide
  have hissued (k : Handle) (h : .object k ∈ chunk.constants) :
      k.heap = m.heap.id → m.heap.owns k = true := by
    intro _
    exact Heap.owns_of_only_constant rfl h
  obtain ⟨visited, past, hturns, hprefix, -, htraced, -⟩ :=
    (runChunk_decodes chunk).2.2.2 m hid hissued
  exact ⟨hmem, rfl, hid, hissued, ⟨visited, past, hturns, hprefix, htraced rfl⟩,
    by decide +kernel⟩

end Machine

end ExprMachine
