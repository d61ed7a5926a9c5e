import ExprMachine.Proofs.Assembly.Rendering

/-!
# Listings of any text

Every line of a listing is read by itself. What it adds does not depend on the other lines, and
neither does what is wrong with it, but that the index of a new constant must fit a byte.

* `item?`, `items` — what lines denote, whatever stands on them;
* `refusal?`, `refusalAt?` — what is wrong with a line after some number of constants;
* `Outcome`, `addLines_outcome` — lines add what they denote, or the first refused one is reported;
* `assemble_lines` — the same of whole listings, and what their first lines make.
-/

namespace ExprMachine

/-! ### Beginnings of chunks -/

/-- What `first` holds is what `chunk` begins with. -/
structure Chunk.BeginsWith (chunk first : Chunk) : Prop where
  code_prefix : first.code.toList <+: chunk.code.toList
  lines_prefix : first.lines.toList <+: chunk.lines.toList
  constants_prefix : first.constants.toList <+: chunk.constants.toList
  objects_prefix : first.objects.objects.toList <+: chunk.objects.objects.toList

theorem Gains.beginsWith {id : HeapId} {first chunk : Chunk} {code more : List (UInt8 × Nat)}
    {pool extra : List Literal} (h : Gains (.empty id) first code pool)
    (h' : Gains (.empty id) chunk (code ++ more) (pool ++ extra)) : chunk.BeginsWith first where
  code_prefix := by
    rw [h.code_eq, h'.code_eq, List.map_append]
    exact (List.prefix_append_right_inj _).2 (List.prefix_append _ _)
  lines_prefix := by
    rw [h.lines_eq, h'.lines_eq, List.map_append]
    exact (List.prefix_append_right_inj _).2 (List.prefix_append _ _)
  constants_prefix := by
    rw [h.constants_eq, h'.constants_eq, pooledValues_append]
    exact (List.prefix_append_right_inj _).2 (List.prefix_append _ _)
  objects_prefix := by
    rw [h.objects_eq, h'.objects_eq, List.filterMap_append]
    exact (List.prefix_append_right_inj _).2 (List.prefix_append _ _)

namespace Assembly

/-! ### Lines by themselves -/

/-- The lines of a listing. -/
def sourceLines (source : String) : List (List Char) := Text.lines '\n' '\r' source.toList

/-- What the line `number` denotes, if it can be read and is not empty. -/
def item? (number : Nat) (line : List Char) : Option (Statement × Nat) :=
  match readLine number line with
  | .ok found => found
  | .error _ => none

/-- What lines denote, the first of which has the number `number`. -/
def items (number : Nat) : List (List Char) → List (Statement × Nat)
  | [] => []
  | line :: rest => (item? number line).toList ++ items (number + 1) rest

/-- What is wrong with the line `number` when `count` constants have been added before it. -/
def refusal? (number count : Nat) (line : List Char) : Option Fault :=
  match readLine number line with
  | .error fault => some fault
  | .ok (some (.pushLiteral _, _)) =>
    if count < constantLimit then none else some .tooManyConstants
  | .ok _ => none

theorem refusal?_eq_some_iff {number count : Nat} {line : List Char} {fault : Fault} :
    refusal? number count line = some fault ↔
      readLine number line = .error fault ∨
        fault = .tooManyConstants ∧ constantLimit ≤ count ∧
          ∃ x source, readLine number line = .ok (some (.pushLiteral x, source)) := by
  unfold refusal?
  split
  · rename_i other hread
    simp [hread]
  · rename_i x source hread
    by_cases hroom : count < constantLimit
    · simp [hread, hroom]
    · simp [hread, hroom, Nat.le_of_not_lt hroom, eq_comm]
  · rename_i found hother hread
    constructor
    · exact nofun
    · rintro (h | ⟨-, -, x, source, h⟩)
      · rw [hread] at h
        cases h
      · rw [hread] at h
        cases h
        exact absurd rfl (hother x source)

theorem addLine_of_refusal {chunk : Chunk} {number : Nat} {line : List Char} {fault : Fault}
    (h : refusal? number chunk.constants.size line = some fault) :
    addLine chunk number line = .error fault := by
  unfold addLine
  rcases refusal?_eq_some_iff.1 h with hread | ⟨rfl, hfull, x, source, hread⟩
  · rw [hread]
  · rw [hread]
    simp only [Statement.apply, constants_load]
    exact if_neg (Nat.not_lt.2 hfull)

/-- A line that is not refused adds what it denotes. -/
theorem addLine_of_none {chunk : Chunk} {number : Nat} {line : List Char}
    (h : refusal? number chunk.constants.size line = none) :
    ∃ larger, addLine chunk number line = .ok larger ∧
      Gains chunk larger (codeOf chunk.constants.size (item? number line).toList)
        (pooledOf (item? number line).toList) := by
  unfold refusal? at h
  unfold item?
  cases hread : readLine number line with
  | error fault =>
    rw [hread] at h
    cases h
  | ok found =>
    cases found with
    | none =>
      refine ⟨chunk, ?_, gains_nothing chunk⟩
      rw [addLine, hread]
    | some placed =>
      refine addLine_of_readLine hread ?_
      rintro x hx
      rw [hread, show placed = (.pushLiteral x, placed.2) from Prod.ext hx rfl] at h
      by_contra hfull
      simp [hfull] at h

/-- The number of a line decides only which source line its statement is of. -/
theorem readLine_statement {number number' : Nat} (h : number ≤ maxLine) (h' : number' ≤ maxLine)
    (line : List Char) :
    (readLine number line).map (Option.map Prod.fst) =
      (readLine number' line).map (Option.map Prod.fst) := by
  by_cases hne : Text.trim (dropComment line) = []
  · unfold readLine
    simp only [hne, if_true]
  · have hnumber : (readLineNumber number (Text.trim (dropComment line))).map Prod.snd =
        (readLineNumber number' (Text.trim (dropComment line))).map Prod.snd := by
      unfold readLineNumber
      repeat' split
      all_goals rfl
    have hbody (found : Except Fault (Nat × List Char)) :
        (found.bind fun found => (readStatement found.2).map fun statement =>
          some (statement, found.1)).map (Option.map Prod.fst) =
        (found.map Prod.snd).bind fun body => (readStatement body).map some := by
      cases found with
      | error fault => rfl
      | ok found =>
        show ((readStatement found.2).map _).map _ = (readStatement found.2).map some
        cases readStatement found.2 <;> rfl
    rw [readLine_of_ne_nil h rfl hne, readLine_of_ne_nil h' rfl hne, hbody, hbody, hnumber]

/-! ### Lines in order -/

theorem items_append (number : Nat) (first second : List (List Char)) :
    items number (first ++ second) =
      items number first ++ items (number + first.length) second := by
  induction first generalizing number with
  | nil => rfl
  | cons line first ih =>
    show (item? number line).toList ++ items (number + 1) (first ++ second) = _
    rw [ih, ← List.append_assoc, List.length_cons, Nat.add_assoc, Nat.add_comm 1]
    rfl

theorem addLines_append (chunk : Chunk) (number : Nat) (first second : List (List Char)) :
    addLines chunk number (first ++ second) =
      (addLines chunk number first).bind fun next =>
        addLines next (number + first.length) second := by
  induction first generalizing chunk number with
  | nil => rfl
  | cons line first ih =>
    rw [List.cons_append, addLines, addLines]
    cases addLine chunk number line with
    | error fault => rfl
    | ok next =>
      show addLines next (number + 1) (first ++ second) = _
      rw [ih, List.length_cons, Nat.add_assoc, Nat.add_comm 1]

/-- Lines that are read alike can stand for each other. -/
theorem addLines_replace {line line' : List Char}
    (h : ∀ number, readLine number line' = readLine number line) (chunk : Chunk) (number : Nat)
    (before after : List (List Char)) :
    addLines chunk number (before ++ line' :: after) =
      addLines chunk number (before ++ line :: after) := by
  have hhead (chunk : Chunk) (number : Nat) :
      addLines chunk number (line' :: after) = addLines chunk number (line :: after) := by
    rw [addLines, addLines, addLine, addLine, h]
  rw [addLines_append, addLines_append]
  cases addLines chunk number before with
  | error e => rfl
  | ok next => exact hhead next _

/-- What is wrong with the line at place `k` of lines the first of which has the number `number`,
when `count` constants have been added before them. -/
def refusalAt? (number count : Nat) (lines : List (List Char)) (k : Nat) : Option Fault :=
  lines[k]?.bind
    (refusal? (number + k) (count + (pooledOf (items number (lines.take k))).length))

theorem refusalAt?_succ (number count : Nat) (line : List Char) (rest : List (List Char))
    (k : Nat) :
    refusalAt? number count (line :: rest) (k + 1) =
      refusalAt? (number + 1) (count + (pooledOf (item? number line).toList).length) rest k := by
  have hitems : items number ((line :: rest).take (k + 1)) =
      (item? number line).toList ++ items (number + 1) (rest.take k) := rfl
  rw [refusalAt?, refusalAt?, hitems, pooledOf_append, List.length_append, List.getElem?_cons_succ,
    Nat.add_assoc count, Nat.add_right_comm number 1 k, Nat.add_assoc number k 1]

/-- Lines behind a place do not matter there. -/
theorem refusalAt?_take {number count : Nat} {lines : List (List Char)} {k m : Nat} (h : k < m) :
    refusalAt? number count (lines.take m) k = refusalAt? number count lines k := by
  rw [refusalAt?, refusalAt?, List.getElem?_take_of_lt h, List.take_take,
    Nat.min_eq_left (Nat.le_of_lt h)]

/-- How lines come out: all are accepted and add what they denote, or one is the first to be
refused. -/
inductive Outcome (chunk : Chunk) (number : Nat) (lines : List (List Char)) :
    Except Error Chunk → Prop
  | accepted {larger : Chunk} :
      (∀ k, refusalAt? number chunk.constants.size lines k = none) →
      Gains chunk larger (codeOf chunk.constants.size (items number lines))
        (pooledOf (items number lines)) → Outcome chunk number lines (.ok larger)
  | refused {k : Nat} {fault : Fault} :
      refusalAt? number chunk.constants.size lines k = some fault →
      (∀ j, j < k → refusalAt? number chunk.constants.size lines j = none) →
      Outcome chunk number lines (.error ⟨number + k, fault.message⟩)

/-- **Lines come out in one of the two ways.** The chunk that a line leaves differs for the others
only in the number of its constants. -/
theorem addLines_outcome (chunk : Chunk) (number : Nat) (lines : List (List Char)) :
    Outcome chunk number lines (addLines chunk number lines) := by
  induction lines generalizing chunk number with
  | nil => exact .accepted (fun _ => rfl) (gains_nothing chunk)
  | cons line rest ih =>
    have hhere : refusalAt? number chunk.constants.size (line :: rest) 0 =
        refusal? number chunk.constants.size line := rfl
    rw [addLines]
    cases hrefusal : refusal? number chunk.constants.size line with
    | some fault =>
      rw [addLine_of_refusal hrefusal]
      exact .refused (hhere.trans hrefusal) fun j hj => absurd hj (Nat.not_lt_zero j)
    | none =>
      obtain ⟨next, hnext, hfirst⟩ := addLine_of_none hrefusal
      have hlater (k : Nat) : refusalAt? number chunk.constants.size (line :: rest) (k + 1) =
          refusalAt? (number + 1) next.constants.size rest k := by
        rw [refusalAt?_succ, hfirst.size_constants]
      rw [hnext]
      simp only
      have hrest := ih next (number + 1)
      generalize addLines next (number + 1) rest = result at hrest
      cases hrest with
      | accepted hnone hgains =>
        refine .accepted ?_ ?_
        · rintro (_ | k)
          · exact hhere.trans hrefusal
          · exact (hlater k).trans (hnone k)
        · have hboth := hfirst.trans hgains
          rw [hfirst.size_constants, ← codeOf_append, ← pooledOf_append] at hboth
          exact hboth
      | @refused k fault hsome hbefore =>
        have hplace : number + 1 + k = number + (k + 1) := by omega
        rw [hplace]
        refine .refused ((hlater k).trans hsome) ?_
        rintro (_ | j) hj
        · exact hhere.trans hrefusal
        · exact (hlater j).trans (hbefore j (Nat.lt_of_succ_lt_succ hj))

section Outcome

variable {chunk : Chunk} {number : Nat} {lines : List (List Char)} {result : Except Error Chunk}
  (h : Outcome chunk number lines result)

include h

theorem Outcome.eq_error_iff {e : Error} :
    result = .error e ↔
      ∃ k fault, refusalAt? number chunk.constants.size lines k = some fault ∧
        (∀ j, j < k → refusalAt? number chunk.constants.size lines j = none) ∧
        e = ⟨number + k, fault.message⟩ := by
  cases h with
  | accepted hnone _ =>
    refine ⟨nofun, ?_⟩
    rintro ⟨k, fault, hsome, -⟩
    rw [hnone k] at hsome
    cases hsome
  | @refused k fault hsome hbefore =>
    constructor
    · intro heq
      cases heq
      exact ⟨k, fault, hsome, hbefore, rfl⟩
    · rintro ⟨k', fault', hsome', hbefore', rfl⟩
      -- There is only one first refusal.
      have hplace : k = k' := by
        rcases Nat.lt_trichotomy k k' with hlt | heq | hlt
        · rw [hbefore' k hlt] at hsome
          cases hsome
        · exact heq
        · rw [hbefore k' hlt] at hsome'
          cases hsome'
      subst hplace
      rw [hsome] at hsome'
      cases hsome'
      rfl

theorem Outcome.exists_error_iff :
    (∃ e, result = .error e) ↔
      ∃ k fault, refusalAt? number chunk.constants.size lines k = some fault := by
  cases h with
  | accepted hnone _ =>
    refine ⟨nofun, ?_⟩
    rintro ⟨k, fault, hsome⟩
    rw [hnone k] at hsome
    cases hsome
  | @refused k fault hsome _ => exact ⟨fun _ => ⟨k, fault, hsome⟩, fun _ => ⟨_, rfl⟩⟩

theorem Outcome.gains {larger : Chunk} (hok : result = .ok larger) :
    Gains chunk larger (codeOf chunk.constants.size (items number lines))
      (pooledOf (items number lines)) := by
  cases h with
  | accepted _ hgains =>
    cases hok
    exact hgains
  | refused => cases hok

end Outcome

/-! ### Listings -/

theorem assemble_outcome (id : HeapId) (source : String) :
    Outcome (.empty id) 1 (sourceLines source) (assemble id source) :=
  addLines_outcome (.empty id) 1 (sourceLines source)

/-- The error of a listing is that of its lines up to the one that it names. -/
theorem assemble_error_take {id id' : HeapId} {source source' : String} {e : Error}
    (h : assemble id source = .error e)
    (hsame : (sourceLines source').take e.line = (sourceLines source).take e.line) :
    assemble id' source' = .error e := by
  obtain ⟨k, fault, hsome, hbefore, rfl⟩ := (assemble_outcome id source).eq_error_iff.1 h
  have hrefusal {j : Nat} (hj : j < 1 + k) :
      refusalAt? 1 0 (sourceLines source') j = refusalAt? 1 0 (sourceLines source) j := by
    rw [← refusalAt?_take hj, hsame, refusalAt?_take hj]
  refine (assemble_outcome id' source').eq_error_iff.2 ⟨k, fault, ?_, ?_, rfl⟩
  · exact (hrefusal (by omega)).trans hsome
  · intro j hj
    exact (hrefusal (by omega)).trans (hbefore j hj)

/-- The first lines of a listing that is accepted are accepted, and make what its chunk begins
with. -/
theorem assemble_take {id : HeapId} {source source' : String} {chunk : Chunk} {k : Nat}
    (h : assemble id source = .ok chunk)
    (hlines : sourceLines source' = (sourceLines source).take k) :
    ∃ first, assemble id source' = .ok first ∧ chunk.BeginsWith first := by
  have houtcome := assemble_outcome id source
  have houtcome' := assemble_outcome id source'
  cases hfirst : assemble id source' with
  | error e =>
    -- A line that is refused here is one of the listing, and refused there.
    obtain ⟨j, fault, hsome⟩ := houtcome'.exists_error_iff.1 ⟨e, hfirst⟩
    rw [hlines] at hsome
    have hj : j < k := by
      by_contra hpast
      rw [refusalAt?, List.getElem?_take_eq_none (Nat.le_of_not_lt hpast)] at hsome
      cases hsome
    rw [refusalAt?_take hj] at hsome
    obtain ⟨e', he'⟩ := houtcome.exists_error_iff.2 ⟨j, fault, hsome⟩
    rw [h] at he'
    cases he'
  | ok first =>
    have hgains := houtcome'.gains hfirst
    have hgains' := houtcome.gains h
    rw [hlines] at hgains
    rw [← List.take_append_drop k (sourceLines source), items_append, codeOf_append,
      pooledOf_append] at hgains'
    exact ⟨first, rfl, hgains.beginsWith hgains'⟩

/-- The first lines of a listing are a listing. -/
theorem exists_sourceLines_take (source : String) (k : Nat) :
    ∃ source', sourceLines source' = (sourceLines source).take k := by
  refine ⟨String.ofList (Text.unlines '\n' '\r' ((sourceLines source).take k)), ?_⟩
  rw [sourceLines, String.toList_ofList]
  exact Text.lines_unlines (by decide) fun line hline =>
    Text.not_mem_of_mem_lines (List.mem_of_mem_take hline)

/-- **Lines do not depend on each other, and the first bad one is reported.** The number of a line
decides only which source line its statement is of. A line is refused for what stands on it, and for
the constants before it only when it pushes one more than a byte can number. The error of a listing
is that of its first refused line and no later line changes it; a listing without one has the code,
the lines, the constants and the strings of what its lines denote, one after the other, so that its
first lines make what it begins with. -/
theorem assemble_lines (id : HeapId) (source : String) :
    let lines := sourceLines source
    (∀ number number' line, number ≤ maxLine → number' ≤ maxLine →
      (readLine number line).map (Option.map Prod.fst) =
        (readLine number' line).map (Option.map Prod.fst)) ∧
      (∀ number count line fault, refusal? number count line = some fault ↔
        readLine number line = .error fault ∨
          fault = .tooManyConstants ∧ constantLimit ≤ count ∧
            ∃ x origin, readLine number line = .ok (some (.pushLiteral x, origin))) ∧
      (∀ e, assemble id source = .error e ↔
        ∃ k fault, refusalAt? 1 0 lines k = some fault ∧
          (∀ j, j < k → refusalAt? 1 0 lines j = none) ∧ e = ⟨1 + k, fault.message⟩) ∧
      ((∃ e, assemble id source = .error e) ↔ ∃ k fault, refusalAt? 1 0 lines k = some fault) ∧
      (∀ e, assemble id source = .error e → ∀ id' source',
        (sourceLines source').take e.line = lines.take e.line →
        assemble id' source' = .error e) ∧
      ∀ chunk, assemble id source = .ok chunk →
        chunk.code.toList = (codeOf 0 (items 1 lines)).map Prod.fst ∧
          chunk.lines.toList = (codeOf 0 (items 1 lines)).map Prod.snd ∧
          chunk.constants.toList.map chunk.objects.literal? =
            (pooledOf (items 1 lines)).map some ∧
          chunk.objects.objects.toList = (pooledOf (items 1 lines)).filterMap Literal.bytes? ∧
          ∀ k, (∃ source', sourceLines source' = lines.take k) ∧
            ∀ source', sourceLines source' = lines.take k →
              ∃ first, assemble id source' = .ok first ∧ chunk.BeginsWith first := by
  intro lines
  have houtcome := assemble_outcome id source
  refine ⟨fun _ _ line h h' => readLine_statement h h' line, fun _ _ _ _ => refusal?_eq_some_iff,
    fun _ => houtcome.eq_error_iff, houtcome.exists_error_iff,
    fun _ he _ _ hsame => assemble_error_take he hsame, ?_⟩
  intro chunk hchunk
  have hgains := houtcome.gains hchunk
  exact ⟨hgains.code_eq, hgains.lines_eq, hgains.constants_of_empty, hgains.objects_eq,
    fun k => ⟨exists_sourceLines_take source k, fun _ hlines => assemble_take hchunk hlines⟩⟩

end Assembly

end ExprMachine
