import ExprMachine.Proofs.Dispatch
import ExprMachine.Proofs.LineTable

/-!
# What can be foreseen of a run

How high the stack will be at an instruction does not depend on any value, so where a run stops can
be told from the code, the constants and the room on the stack; only a fault of kind can stop it
earlier.

* `foresee` — the walk over the code that counts heights, up to the first place where it cannot go
  on;
* `Forecast` — that place, and the instructions passed before it;
* `Forecast.Raises` — the faults that it allows, with the places they are attributed to;
* `Forecast.Agrees`, `Forecast.ComesTrue` — a run of code, and a whole run, has ended as foreseen;
* `runFrom_agrees` — every run does, by one step for each way in which an instruction can end;
* `runChunk_foreseen` — the same of whole runs, with the number of turns, the line and the reset.
-/

namespace ExprMachine

namespace Machine

/-! ### The walk -/

/-- Why the walk stops: a defect, or the last instruction with values left below the printed one. -/
inductive Stop where
  | defect (fault : Fault)
  | ending (rest : Nat)
  deriving DecidableEq, Repr

/-- The instructions that are passed, each with its offset, and where and why the walk stops. -/
structure Forecast where
  passed : List (Nat × OpCode)
  offset : Nat
  stop : Stop
  deriving DecidableEq, Repr

namespace Forecast

/-- The walk stops here. -/
def here (offset : Nat) (stop : Stop) : Forecast := ⟨[], offset, stop⟩

/-- One more instruction is passed before. -/
def pass (offset : Nat) (op : OpCode) (f : Forecast) : Forecast :=
  { f with passed := (offset, op) :: f.passed }

/-- The offset whose line is reported: that of the instruction at which the walk stops, or where
code is missing that of the last byte. -/
def blamed (f : Forecast) : Nat :=
  match f.stop with
  | .defect .endOfCode => f.offset - 1
  | _ => f.offset

end Forecast

/-- Walk over the code that is left with the height that the stack has there. Only bytes, constants,
the owners of handles and the limit count. -/
def foresee (chunk : Chunk) (heap : Heap) (limit : Nat) (offset height : Nat) :
    List UInt8 → Forecast
  | [] => .here offset (.defect .endOfCode)
  | byte :: rest =>
    match OpCode.ofByte? byte with
    | none => .here offset (.defect (.unknownOpcode byte))
    | some op =>
      match op, rest with
      | .constant, [] => .here offset (.defect .missingOperand)
      | .constant, index :: rest =>
        match constantFault? chunk heap index with
        | some fault => .here offset (.defect fault)
        | none =>
          if limit ≤ height then .here offset (.defect .stackOverflow)
          else (foresee chunk heap limit (offset + 2) (height + 1) rest).pass offset .constant
      | op, rest =>
        if height < op.pops then .here offset (.defect .stackUnderflow)
        else if op = .halt then .here offset (.ending (height - 1))
        else if limit ≤ height - op.pops then .here offset (.defect .stackOverflow)
        else (foresee chunk heap limit (offset + 1) (height - op.pops + 1) rest).pass offset op

/-! ### The places of a forecast -/

/-- Where the walk stops for a fault at an instruction, the line of that instruction is reported. -/
theorem Forecast.blamed_eq {f : Forecast} {fault : Fault} (hstop : f.stop = .defect fault)
    (h : fault ≠ .endOfCode) : f.blamed = f.offset := by
  unfold blamed
  split
  · rename_i hend
    rw [hstop] at hend
    cases hend
    exact absurd rfl h
  · rfl

theorem Forecast.blamed_le (f : Forecast) : f.blamed ≤ f.offset := by
  unfold blamed
  split <;> omega

theorem le_foresee_offset (chunk : Chunk) (heap : Heap) (limit offset height : Nat)
    (code : List UInt8) : offset ≤ (foresee chunk heap limit offset height code).offset := by
  fun_induction foresee chunk heap limit offset height code with
  | case6 offset height byte index rest hfault hfull hop ih => exact Nat.le_of_add_right_le ih
  | case10 offset height byte op rest hnil hcons hlow hhalt hfull hop ih =>
    exact Nat.le_of_add_right_le ih
  | _ => exact Nat.le_refl _

/-- The offset whose line is reported is one of the code, if there is any code. -/
theorem foresee_blamed_lt (chunk : Chunk) (heap : Heap) (limit offset height : Nat)
    (code : List UInt8) (h : 0 < offset + code.length) :
    (foresee chunk heap limit offset height code).blamed < offset + code.length := by
  fun_induction foresee chunk heap limit offset height code with
  | case1 offset height => exact Nat.sub_lt h Nat.one_pos
  | case6 offset height byte index rest hfault hfull hop ih =>
    have hlt := ih (by omega)
    rw [List.length_cons, List.length_cons]
    exact Nat.lt_of_lt_of_eq hlt (by omega)
  | case10 offset height byte op rest hnil hcons hlow hhalt hfull hop ih =>
    have hlt := ih (by omega)
    rw [List.length_cons]
    exact Nat.lt_of_lt_of_eq hlt (by omega)
  | _ =>
    exact Nat.lt_of_le_of_lt (Forecast.blamed_le _) (Nat.lt_add_of_pos_right (Nat.succ_pos _))

/-- The walk goes forward in the code: what is passed stands there, before the stop. -/
theorem foresee_passed {chunk : Chunk} {heap : Heap} {limit offset height : Nat} {code : List UInt8}
    {place : Nat} {op : OpCode}
    (h : (place, op) ∈ (foresee chunk heap limit offset height code).passed) :
    offset ≤ place ∧ place < (foresee chunk heap limit offset height code).offset ∧
      code[place - offset]?.bind OpCode.ofByte? = some op := by
  have hlater (offset width : Nat) (height : Nat) (code : List UInt8) (hwidth : 0 < width) :
      offset < (foresee chunk heap limit (offset + width) height code).offset :=
    Nat.lt_of_lt_of_le (Nat.lt_add_of_pos_right hwidth)
      (le_foresee_offset chunk heap limit (offset + width) height code)
  fun_induction foresee chunk heap limit offset height code with
  | case6 offset height byte index rest hfault hfull hop ih =>
    cases h with
    | head => exact ⟨Nat.le_refl _, hlater _ 2 _ _ Nat.two_pos, by simp [hop]⟩
    | tail _ hmem =>
      obtain ⟨hle, hlt, hcode⟩ := ih hmem
      have hplace : place - offset = place - (offset + 2) + 2 := by omega
      exact ⟨by omega, hlt, by rw [hplace]; exact hcode⟩
  | case10 offset height byte op rest hnil hcons hlow hhalt hfull hop ih =>
    cases h with
    | head => exact ⟨Nat.le_refl _, hlater _ 1 _ _ Nat.one_pos, by simp [hop]⟩
    | tail _ hmem =>
      obtain ⟨hle, hlt, hcode⟩ := ih hmem
      have hplace : place - offset = place - (offset + 1) + 1 := by omega
      exact ⟨by omega, hlt, by rw [hplace]; exact hcode⟩
  | _ => exact absurd h List.not_mem_nil

/-! ### Agreement -/

/-- The faults that a forecast allows, each with the offset whose line is reported: the defect at
the stop, and before it the faults of kind. -/
inductive Forecast.Raises (f : Forecast) : Nat → Fault → Prop
  | defect {fault : Fault} : f.stop = .defect fault → f.Raises f.blamed fault
  | kind {offset : Nat} {op : OpCode} {fault : Fault} :
      (offset, op) ∈ f.passed → op.kindFault? = some fault → f.Raises offset fault

theorem Forecast.Raises.pass {f : Forecast} {place : Nat} {fault : Fault} (h : f.Raises place fault)
    (offset : Nat) (op : OpCode) : (f.pass offset op).Raises place fault := by
  cases h with
  | defect hstop => exact .defect (f := f.pass offset op) hstop
  | kind hmem hkind => exact .kind (List.mem_cons_of_mem _ hmem) hkind

/-- A run from `m` has ended as foreseen. Only the last instruction prints. -/
inductive Forecast.Agrees (f : Forecast) (chunk : Chunk) (m : Machine) :
    Machine × Except RuntimeError Unit → Prop
  | ending {m' : Machine} {rest : Nat} {v : Value} :
      f.stop = .ending rest → m'.stack.length = rest →
      m'.output = { m.output with
        written := m.output.written ++ (m'.heap.written v ++ [lineFeed]) } →
      m'.journal.reports = m.journal.reports → Agrees f chunk m (m', .ok ())
  | failing {m' : Machine} {offset : Nat} {fault : Fault} :
      f.Raises offset fault → m.Follows m' →
      Agrees f chunk m (m', .error ⟨fault.message, chunk.lines.lineAt? offset⟩)

theorem Forecast.Agrees.pass {f : Forecast} {chunk : Chunk} {m m' : Machine} {offset : Nat}
    {op : OpCode} {outcome : Machine × Except RuntimeError Unit}
    (h : f.Agrees chunk m' outcome) (hfollows : m.Follows m') :
    (f.pass offset op).Agrees chunk m outcome := by
  cases h with
  | ending hstop hheight hprinted hreports =>
    exact .ending hstop hheight (hfollows.output_eq ▸ hprinted) (hreports.trans hfollows.reports_eq)
  | failing hraises hlast => exact .failing (hraises.pass offset op) (hfollows.trans hlast)

theorem agrees_fail {f : Forecast} {chunk : Chunk} {m m' : Machine} {fault : Fault}
    (hstop : f.stop = .defect fault) (hfollows : m.Follows m') :
    f.Agrees chunk m (m'.fail chunk f.blamed fault) :=
  .failing (.defect hstop) (hfollows.trans (follows_fail chunk f.blamed m' fault))

/-! ### Steps -/

theorem pops_pos_of_kindFault? {op : OpCode} {fault : Fault} (h : op.kindFault? = some fault) :
    0 < op.pops := by
  cases op <;> simp_all [OpCode.kindFault?, OpCode.pops]

/-- A machine that is where the walk is: as high, under the same limit, with a heap that has only
grown and a sink that takes everything. -/
structure Tracks (heap : Heap) (limit height : Nat) (m : Machine) : Prop where
  heap_extends : heap.Extends m.heap
  room_eq : m.output.room = none
  limit_eq : m.options.stackLimit = limit
  height_eq : m.stack.length = height
  height_le : height ≤ limit

theorem Tracks.follows {heap : Heap} {limit height height' : Nat} {m m' : Machine}
    (h : m.Tracks heap limit height) (hfollows : m.Follows m') (hheight : m'.stack.length = height')
    (hle : height' ≤ limit) : m'.Tracks heap limit height' where
  heap_extends := h.heap_extends.trans hfollows.heap_extends
  room_eq := by rw [hfollows.output_eq, h.room_eq]
  limit_eq := by rw [hfollows.options_eq, h.limit_eq]
  height_eq := hheight
  height_le := hle

/-- An instruction that replaces values by one goes on as the walk does. -/
theorem proceed_agrees (chunk : Chunk) (offset width : Nat) (rest : List UInt8) (op : OpCode)
    {heap : Heap} {limit height : Nat} {m m' : Machine} {outcome : Outcome}
    (htracks : m'.Tracks heap limit height) (hfollows : m.Follows m')
    (h : m'.Replaces op.pops op.kindFault? outcome)
    (hrest : op.pops ≤ height → height - op.pops < limit → ∀ next : Machine,
      next.Tracks heap limit (height - op.pops + 1) →
      (foresee chunk heap limit (offset + width) (height - op.pops + 1) rest).Agrees chunk next
        (runFrom chunk (offset + width) rest next)) :
    (if height < op.pops then Forecast.here offset (.defect .stackUnderflow)
      else if limit ≤ height - op.pops then .here offset (.defect .stackOverflow)
      else (foresee chunk heap limit (offset + width) (height - op.pops + 1) rest).pass offset
        op).Agrees chunk m (proceed chunk offset width rest outcome) := by
  obtain rfl := htracks.limit_eq
  obtain rfl := htracks.height_eq
  have hle := htracks.height_le
  cases h with
  | underflow hlast hlow =>
    rw [if_pos hlow]
    exact agrees_fail rfl (hfollows.trans hlast)
  | @refused last fault hlast hcount hkind =>
    have hpops := pops_pos_of_kindFault? hkind
    rw [if_neg (by omega), if_neg (by omega)]
    exact .failing (.kind List.mem_cons_self hkind)
      ((hfollows.trans hlast).trans (follows_fail chunk offset last fault))
  | overflow hlast hcount hfull =>
    rw [if_neg (by omega), if_pos hfull]
    exact agrees_fail rfl (hfollows.trans hlast)
  | done hlast hcount hroom hlength =>
    rw [if_neg (by omega), if_neg (by omega)]
    exact (hrest hcount hroom _ (htracks.follows hlast hlength (by omega))).pass
      (hfollows.trans hlast)

/-- The last instruction ends the run as the walk does. -/
theorem conclude_agrees (chunk : Chunk) (offset : Nat) {heap : Heap} {limit height : Nat}
    {m m' : Machine} (htracks : m'.Tracks heap limit height) (hfollows : m.Follows m') :
    (if height < OpCode.halt.pops then Forecast.here offset (.defect .stackUnderflow)
      else .here offset (.ending (height - 1))).Agrees chunk m
        (conclude chunk offset (m'.execute .halt)) := by
  obtain rfl := htracks.height_eq
  cases hstack : m'.stack with
  | nil =>
    have hunderflow : m'.execute .halt = (m', some .stackUnderflow) := by
      simp only [execute, printTop, hstack]
    rw [hunderflow]
    exact agrees_fail rfl hfollows
  | cons v stack =>
    rw [execute_halt hstack htracks.room_eq]
    exact .ending (v := v) rfl rfl (by rw [hfollows.output_eq]) hfollows.reports_eq

/-- What is wrong with a constant does not change while the heap grows, if the heap issued its
handles among the constants. -/
theorem constantFault?_of_extends {chunk : Chunk} {heap grown : Heap} (h : heap.Extends grown)
    (hissued : ∀ k, .object k ∈ chunk.constants → k.heap = heap.id → heap.owns k = true)
    (index : UInt8) : constantFault? chunk grown index = constantFault? chunk heap index := by
  unfold constantFault?
  cases hconstant : chunk.constants[index.toNat]? with
  | none => rfl
  | some v =>
    cases v with
    | nil | bool b | number x => rfl
    | object k =>
      have howns : grown.owns k = heap.owns k := by
        by_cases hid : k.heap = heap.id
        · have hk := hissued k (Array.mem_of_getElem? hconstant) hid
          rw [hk, h.owns hk]
        · have hid' : k.heap ≠ grown.id := h.id_eq ▸ hid
          simp [Heap.owns, hid, hid']
      simp only [howns]

theorem ne_endOfCode_of_constantFault? {chunk : Chunk} {heap : Heap} {index : UInt8} {fault : Fault}
    (h : constantFault? chunk heap index = some fault) : fault ≠ .endOfCode := by
  intro hfault
  rw [hfault] at h
  unfold constantFault? at h
  split at h
  · cases h
  · split at h <;> cases h
  · cases h

/-! ### Runs -/

/-- **A run ends as foreseen.** -/
theorem runFrom_agrees {chunk : Chunk} {heap : Heap} {limit : Nat}
    (hissued : ∀ k, .object k ∈ chunk.constants → k.heap = heap.id → heap.owns k = true)
    (offset height : Nat) (code : List UInt8) (m : Machine) (htracks : m.Tracks heap limit height) :
    (foresee chunk heap limit offset height code).Agrees chunk m (runFrom chunk offset code m) := by
  have hfollows (offset : Nat) (m : Machine) := m.follows_trace chunk offset
  have htraced (offset : Nat) {height : Nat} {m : Machine} (h : m.Tracks heap limit height) :
      (m.trace chunk offset).Tracks heap limit height :=
    h.follows (hfollows offset m) (by rw [stack_trace, h.height_eq]) h.height_le
  -- no instruction before can have changed what is wrong with a constant
  have hfault? (offset : Nat) {height : Nat} {m : Machine} (h : m.Tracks heap limit height)
      (index : UInt8) : constantFault? chunk (m.trace chunk offset).heap index =
        constantFault? chunk heap index :=
    constantFault?_of_extends (htraced offset h).heap_extends hissued index
  -- the walk looks at constants and their operands first; in its other cases there is none
  have hne {op : OpCode} {rest : List UInt8} (hnil : op = .constant → rest = [] → False)
      (hcons : ∀ index rest', op = .constant → rest = index :: rest' → False) : op ≠ .constant := by
    intro hop
    cases rest with
    | nil => exact hnil hop rfl
    | cons index rest' => exact hcons index rest' hop rfl
  fun_induction foresee chunk heap limit offset height code generalizing m with
  | case1 offset height =>
    rw [runFrom_nil]
    exact agrees_fail rfl (hfollows offset m)
  | case2 offset height byte rest hop =>
    rw [runFrom_unknown _ _ _ _ hop]
    exact agrees_fail rfl (hfollows offset m)
  | case3 offset height byte hop =>
    rw [runFrom_missing _ _ _ hop]
    exact agrees_fail rfl (hfollows offset m)
  | case4 offset height byte index rest fault hfault hop =>
    have hagrees : (Forecast.here offset (.defect fault)).Agrees chunk m
        ((m.trace chunk offset).fail chunk _ fault) := agrees_fail rfl (hfollows offset m)
    rw [Forecast.blamed_eq rfl (ne_endOfCode_of_constantFault? hfault)] at hagrees
    rw [← hfault? offset htracks] at hfault
    rwa [runFrom_constant _ _ _ _ hop, pushConstant_of_fault hfault]
  | case5 offset height byte index rest hfault hfull hop =>
    rw [← hfault? offset htracks] at hfault
    have hagrees := proceed_agrees chunk offset 2 rest .constant (htraced offset htracks)
      (hfollows offset m) (pushConstant_replaces hfault)
      fun _ hroom => absurd hfull (Nat.not_le.2 hroom)
    rw [runFrom_constant _ _ _ _ hop]
    simpa only [OpCode.pops, Nat.not_lt_zero, Nat.sub_zero, hfull, if_false, if_true] using hagrees
  | case6 offset height byte index rest hfault hfull hop ih =>
    rw [← hfault? offset htracks] at hfault
    have hagrees := proceed_agrees chunk offset 2 rest .constant (htraced offset htracks)
      (hfollows offset m) (pushConstant_replaces hfault) fun _ _ next hnext => ih next hnext
    rw [runFrom_constant _ _ _ _ hop]
    simpa only [OpCode.pops, Nat.not_lt_zero, Nat.sub_zero, hfull, if_false] using hagrees
  | case7 offset height byte op rest hnil hcons hlow hop =>
    by_cases hhalt : op = .halt
    · subst hhalt
      have hagrees := conclude_agrees chunk offset (htraced offset htracks) (hfollows offset m)
      rw [runFrom_halt _ _ _ _ hop]
      rwa [if_pos hlow] at hagrees
    · have hconstant := hne hnil hcons
      have hreplaces := (m.trace chunk offset).execute_replaces hconstant hhalt
      have hagrees := proceed_agrees chunk offset 1 rest op (htraced offset htracks)
        (hfollows offset m) hreplaces fun hcount => absurd hlow (Nat.not_lt.2 hcount)
      rw [runFrom_instruction _ _ _ _ hop hconstant hhalt]
      rwa [if_pos hlow] at hagrees
  | case8 offset height byte rest hnil hcons hlow hop =>
    have hagrees := conclude_agrees chunk offset (htraced offset htracks) (hfollows offset m)
    rw [runFrom_halt _ _ _ _ hop]
    rwa [if_neg hlow] at hagrees
  | case9 offset height byte op rest hnil hcons hlow hhalt hfull hop =>
    have hconstant := hne hnil hcons
    have hreplaces := (m.trace chunk offset).execute_replaces hconstant hhalt
    have hagrees := proceed_agrees chunk offset 1 rest op (htraced offset htracks)
      (hfollows offset m) hreplaces fun _ hroom => absurd hfull (Nat.not_le.2 hroom)
    rw [runFrom_instruction _ _ _ _ hop hconstant hhalt]
    rwa [if_neg hlow, if_pos hfull] at hagrees
  | case10 offset height byte op rest hnil hcons hlow hhalt hfull hop ih =>
    have hconstant := hne hnil hcons
    have hreplaces := (m.trace chunk offset).execute_replaces hconstant hhalt
    have hagrees := proceed_agrees chunk offset 1 rest op (htraced offset htracks)
      (hfollows offset m) hreplaces fun _ _ next hnext => ih next hnext
    rw [runFrom_instruction _ _ _ _ hop hconstant hhalt]
    rwa [if_neg hlow, if_neg hfull] at hagrees

/-! ### Whole runs -/

/-- What is seen of a whole run that went as foreseen. -/
inductive Forecast.ComesTrue (f : Forecast) (chunk : Chunk) (m : Machine) :
    Machine × Except RuntimeError Unit → Prop
  | ending {after : Machine} {rest : Nat} {v : Value} :
      f.stop = .ending rest → after.stack.length = rest →
      after.output = { m.output with
        written := m.output.written ++ (after.heap.written v ++ [lineFeed]) } →
      after.journal.reports = m.journal.reports → ComesTrue f chunk m (after, .ok ())
  | failing {after : Machine} {offset : Nat} {fault : Fault} {e : RuntimeError} :
      f.Raises offset fault → e = ⟨fault.message, chunk.lines.lineAt? offset⟩ →
      (0 < chunk.size → e.line.isSome) → after.stack = [] → after.output = m.output →
      after.journal.reports = m.journal.reports ++ (e.render ++ "\n") →
      ComesTrue f chunk m (after, .error e)

theorem raises_lt {chunk : Chunk} {heap : Heap} {limit place : Nat} {fault : Fault}
    (h : (foresee chunk heap limit 0 0 chunk.code.toList).Raises place fault)
    (hsize : 0 < chunk.size) : place < chunk.size := by
  cases h with
  | defect hstop =>
    have hlt := foresee_blamed_lt chunk heap limit 0 0 chunk.code.toList
    rw [Nat.zero_add, Array.length_toList] at hlt
    exact hlt hsize
  | kind hmem hkind =>
    obtain ⟨-, -, hcode⟩ := foresee_passed hmem
    rw [Nat.sub_zero, Array.getElem?_toList] at hcode
    by_cases hlt : place < chunk.size
    · exact hlt
    · rw [Array.getElem?_eq_none (Nat.le_of_not_lt hlt)] at hcode
      cases hcode

theorem runChunk_comesTrue {m : Machine} {chunk : Chunk} (hstep : chunk.InStep)
    (hroom : m.output.room = none)
    (hissued : ∀ k, .object k ∈ chunk.constants → k.heap = m.heap.id → m.heap.owns k = true) :
    (foresee chunk m.heap m.options.stackLimit 0 0 chunk.code.toList).ComesTrue chunk m
      (m.runChunk chunk) := by
  have hbegin := m.follows_begin chunk
  have htracks : (m.begin chunk).Tracks m.heap m.options.stackLimit 0 :=
    ⟨.refl m.heap, hroom, rfl, rfl, Nat.zero_le _⟩
  have hagrees := runFrom_agrees hissued 0 0 chunk.code.toList (m.begin chunk) htracks
  cases hrun : runAt chunk 0 (m.begin chunk) with
  | mk m' result =>
    rw [show runFrom chunk 0 chunk.code.toList (m.begin chunk) = (m', result) from hrun] at hagrees
    cases hagrees with
    | ending hstop hheight hprinted hreports =>
      rw [runChunk_of_ok hrun]
      exact .ending hstop hheight (by rw [← hbegin.output_eq]; exact hprinted)
        (by rw [reports_note_event, hreports, hbegin.reports_eq])
    | failing hraises hlast =>
      have hreports := (hbegin.trans hlast).reports_eq
      rw [runChunk_of_error hrun]
      exact .failing hraises rfl (fun hsize => hstep.lineAt?_isSome (raises_lt hraises hsize)) rfl
        (hbegin.trans hlast).output_eq (by rw [reports_report, reports_note_event, hreports])

/-- **Any code ends as a walk over it foresees**, in no more turns than it has bytes, and one: a
machine whose sink takes everything, and whose heap issued the handles among the constants that
carry its identity, stops where the walk does and for its reason, or at an instruction before with a
fault of kind. -/
theorem runChunk_foreseen (m : Machine) (chunk : Chunk) (hstep : chunk.InStep)
    (hroom : m.output.room = none)
    (hissued : ∀ k, .object k ∈ chunk.constants → k.heap = m.heap.id → m.heap.owns k = true) :
    let f := foresee chunk m.heap m.options.stackLimit 0 0 chunk.code.toList
    (∃ outcome : Machine × Except RuntimeError Unit,
        dispatches chunk (chunk.size + 1) (.running 0 (m.begin chunk)) = .ended outcome ∧
          outcome.2 = (m.runChunk chunk).2) ∧
      f.ComesTrue chunk m (m.runChunk chunk) ∧
      ∀ offset op, (offset, op) ∈ f.passed →
        offset < f.offset ∧ chunk.code[offset]?.bind OpCode.ofByte? = some op := by
  intro f
  have hturns := dispatches_eq_runAt chunk (chunk.size + 1) 0 (m.begin chunk) (by omega)
  refine ⟨⟨_, hturns, (m.runChunk_snd chunk).symm⟩, runChunk_comesTrue hstep hroom hissued, ?_⟩
  intro offset op h
  obtain ⟨-, hlt, hcode⟩ := foresee_passed h
  rw [Nat.sub_zero, Array.getElem?_toList] at hcode
  exact ⟨hlt, hcode⟩

/-- Code that adds with one value on the stack, a string that the machine has issued: walk and run
stop at the addition. -/
theorem runChunk_foreseen_underflow :
    let issued := (Machine.new ⟨0⟩ {}).heap.alloc [104, 105]
    let m := { Machine.new ⟨0⟩ {} with heap := issued.2 }
    let chunk := ((Chunk.empty ⟨1⟩).writeConstant (.object issued.1) 1).writeOp .add 3
    .object issued.1 ∈ chunk.constants ∧ issued.1.heap = m.heap.id ∧
      chunk.InStep ∧ m.output.room = none ∧
      (∀ k, .object k ∈ chunk.constants → k.heap = m.heap.id → m.heap.owns k = true) ∧
      Forecast.ComesTrue ⟨[(0, .constant)], 2, .defect .stackUnderflow⟩ chunk m
        (m.runChunk chunk) := by
  intro issued m chunk
  have hmem : .object issued.1 ∈ chunk.constants := Array.mem_push_self
  have hstep : chunk.InStep :=
    ((((Chunk.inStep_empty ⟨1⟩).addConstant _).write _ 1).write _ 1).write _ 3
  have hissued (k : Handle) (h : .object k ∈ chunk.constants) :
      k.heap = m.heap.id → m.heap.owns k = true := by
    intro _
    exact Heap.owns_of_only_constant rfl h
  exact ⟨hmem, rfl, hstep, rfl, hissued, (runChunk_foreseen m chunk hstep rfl hissued).2.1⟩

end Machine

end ExprMachine
