import Mathlib.Data.Nat.Find
import ExprMachine.Proofs.Descent.Agreement

/-!
# The functions of the descent stay in their domains

Whatever the text is, no function of the descent is given what it does not expect, and each call
that is made comes back, with the counter of the depth at what it was before.

* `Descent.InDomain`, `inDomain_of_sound` — what holds in every state;
* `Descent.Moves`, `moves_step` — a step keeps the calls, makes one, or comes back from one;
* `Descent.ReturnsAfter`, `exists_returnsAfter` — a call that is made comes back;
* `descent_in_domain` — both, for every text, with the outcome.
-/

namespace ExprMachine

/-- The call before has come back, having returned or failed. -/
def Point.IsBack : Point → Prop
  | .returned | .failed _ => True
  | _ => False

namespace Descent

variable {id : HeapId} {source : String} {s : Descent}

/-! ### Every state -/

/-- In a state on a text, nothing is out of a domain. -/
structure InDomain (source : String) (s : Descent) : Prop where
  /-- No operation has been out of its domain. -/
  not_broken : ∀ b, s.point ≠ .broken b
  /-- What is handed to the function of operators between operands has instructions. -/
  operator : s.point = .binary → (operatorCode? s.previous.kind?).isSome = true
  /-- So has what a call of it waits with. -/
  operators : ∀ kind?, Call.binary kind? ∈ s.calls → (operatorCode? kind?).isSome = true
  /-- What is handed to the function of strings has a quote first, a quote last and none between. -/
  string : s.point = .string → ∃ body,
    Text.Utf8.encode s.previous.text = quoteByte :: (body ++ [quoteByte]) ∧ quoteByte ∉ body
  /-- What is handed to the function of numbers can be read. -/
  number : s.point = .number → (Numeral.binary64? s.previous.text).isSome = true
  /-- No failure is about a number that cannot be read. -/
  failed : ∀ d, s.point = .failed d → d.message ≠ Complaint.invalidNumber.message
  /-- The counter is the number of the calls that are counted. -/
  depth_eq : s.depth = s.calls.countP Call.isOperand
  depth_le : s.depth ≤ 256
  /-- The number of the line fits wherever that of the last line does. -/
  line_le : s.cursor.line ≤ 1 + source.toList.count '\n'

theorem fits_of_point {feeds : Nat} {point : Point} (h : Sound feeds s) (hpoint : s.point = point) :
    PointFits s.previous point := by
  have hfits := h.fits
  rwa [hpoint] at hfits

theorem inDomain_of_sound (h : Sound (1 + source.toList.count '\n') s) : InDomain source s where
  not_broken _ hpoint := fits_of_point h hpoint
  operator hpoint := isSome_operatorCode? (fits_of_point h hpoint)
  operators _ hmem := h.steady.calls _ hmem
  string hpoint := by
    obtain ⟨body, htext, hbody⟩ := (h.steady.previous _ (fits_of_point h hpoint)).string_eq
    refine ⟨Text.Utf8.encode body, ?_, quoteByte_notMem_encode hbody⟩
    rw [htext, encode_quoted]
  number hpoint := (h.steady.previous _ (fits_of_point h hpoint)).isSome_binary64?
  failed _ hpoint := fits_of_point h hpoint
  depth_eq := h.steady.depth_eq
  depth_le := h.steady.depth_le
  line_le := h.steady.feeds_eq ▸ Nat.le_add_right _ _

/-- The number of steps adds up. -/
theorem after_add (n k : Nat) : after id source (n + k) = step^[k] (after id source n) := by
  rw [Nat.add_comm]
  exact Function.iterate_add_apply step k n _

/-- Whatever the calls are, the counter is the same for the same calls. -/
theorem depth_eq_of_calls_eq {m n : Nat}
    (h : (after id source m).calls = (after id source n).calls) :
    (after id source m).depth = (after id source n).depth := by
  rw [(sound_after id source m).steady.depth_eq, (sound_after id source n).steady.depth_eq, h]

/-! ### What a step does to the calls -/

/-- What a step can make of the calls: they stay, there is one more, or the innermost one has come
back. -/
inductive Moves (calls : List Call) (s : Descent) : Prop
  | stays : s.calls = calls → Moves calls s
  | calls (call : Call) : s.calls = call :: calls → Moves calls s
  | comesBack (call : Call) : calls = call :: s.calls → s.point.IsBack → Moves calls s

/-- Looking at the next token makes no call, and what cannot be read is a failure. -/
theorem advance_induction {motive : Descent → Prop} {proceed : Descent → Descent}
    (hproceed : ∀ s' : Descent, s'.calls = s.calls → motive (proceed s'))
    (hfailed : ∀ s' : Descent, s'.calls = s.calls → s'.point.IsBack → motive s') :
    motive (s.advance proceed) := by
  rw [advance]
  rcases s.cursor.next with ⟨item, cursor⟩
  cases item with
  | token t => exact hproceed _ rfl
  | endOfText line => exact hproceed _ rfl
  | error e line => exact hfailed _ rfl trivial

theorem moves_advance {proceed : Descent → Descent}
    (h : ∀ s' : Descent, s'.calls = s.calls → Moves s.calls (proceed s')) :
    Moves s.calls (s.advance proceed) :=
  advance_induction h fun _ hcalls _ => .stays hcalls

theorem calls_emitConstant (s : Descent) (v : Value) : (s.emitConstant v).calls = s.calls := by
  rw [emitConstant]
  split <;> rfl

theorem moves_opening (s : Descent) : Moves s.calls s.opening := by
  unfold opening
  split
  · exact .calls .group rfl
  · exact .calls (.unary s.previous.kind?) rfl
  · exact .calls (.unary s.previous.kind?) rfl
  all_goals exact .stays rfl

theorem calls_number (s : Descent) : s.number.calls = s.calls := by
  rw [number]
  split
  · exact calls_emitConstant s _
  · rfl

theorem calls_string (s : Descent) : s.string.calls = s.calls := by
  rw [string]
  split
  · rfl
  · exact calls_emitConstant _ _

theorem moves_leave {call : Call} {outer : List Call} (hcalls : s.calls = call :: outer)
    (hback : s.point.IsBack) : Moves s.calls (s.leave outer) := by
  rw [leave]
  split
  · exact .stays rfl
  · exact .comesBack call hcalls hback

theorem moves_resume {call : Call} {outer : List Call} (hcalls : s.calls = call :: outer)
    (hpoint : s.point = .returned) : Moves s.calls (s.resume outer call) := by
  have hback : s.point.IsBack := by
    rw [hpoint]
    trivial
  cases call with
  | text =>
    rw [resume]
    split
    · exact moves_advance fun _ _ => .comesBack .text hcalls trivial
    · exact .stays rfl
  | operand floor =>
    rw [resume]
    split
    · exact moves_advance fun _ hcalls' => .stays hcalls'
    · exact moves_leave hcalls hback
  | group =>
    rw [resume]
    split
    · exact moves_advance fun _ _ => .comesBack .group hcalls trivial
    · exact .stays rfl
  | unary kind? => exact .comesBack (.unary kind?) hcalls hback
  | binary kind? =>
    rw [resume]
    split
    · rename_i codes _
      rw [foldl_emit]
      exact .comesBack (.binary kind?) hcalls hback
    · exact .stays rfl

theorem moves_giveUp {call : Call} {outer : List Call} (hcalls : s.calls = call :: outer)
    (hback : s.point.IsBack) : Moves s.calls (s.giveUp outer call) := by
  cases call with
  | operand floor => exact moves_leave hcalls hback
  | text | group | unary kind? | binary kind? => exact .comesBack _ hcalls hback

/-- **A step** makes a call or comes back from one, or neither. -/
theorem moves_step (s : Descent) : Moves s.calls s.step := by
  cases hpoint : s.point with
  | begin =>
    simp only [step, hpoint]
    refine moves_advance fun s' hcalls => ?_
    exact .calls .text (congrArg (Call.text :: ·) hcalls)
  | operand floor =>
    simp only [step, hpoint]
    refine moves_advance fun s' hcalls => ?_
    split
    · exact .stays hcalls
    · exact .calls (.operand floor) (congrArg (Call.operand floor :: ·) hcalls)
  | opening =>
    simp only [step, hpoint]
    exact moves_opening s
  | number =>
    simp only [step, hpoint]
    exact .stays (calls_number s)
  | string =>
    simp only [step, hpoint]
    exact .stays (calls_string s)
  | binary =>
    simp only [step, hpoint]
    exact .calls (.binary s.previous.kind?) rfl
  | returned =>
    cases hcalls : s.calls with
    | nil =>
      simp only [step, hpoint, hcalls]
      exact .stays hcalls
    | cons call outer =>
      rw [step_returned hpoint hcalls, ← hcalls]
      exact moves_resume hcalls hpoint
  | failed d =>
    have hback : s.point.IsBack := by
      rw [hpoint]
      trivial
    cases hcalls : s.calls with
    | nil =>
      simp only [step, hpoint, hcalls]
      exact .stays hcalls
    | cons call outer =>
      rw [step_failed hpoint hcalls, ← hcalls]
      exact moves_giveUp hcalls hback
  | broken b =>
    simp only [step, hpoint]
    exact .stays rfl

/-- The call of an operand is made, or fails before it is counted. -/
theorem step_operand {floor : Precedence} (hpoint : s.point = .operand floor) :
    s.step.calls = .operand floor :: s.calls ∨ (s.step.calls = s.calls ∧ s.step.point.IsBack) := by
  simp only [step, hpoint]
  refine advance_induction
    (motive := fun s' => s'.calls = .operand floor :: s.calls ∨
      (s'.calls = s.calls ∧ s'.point.IsBack))
    (fun s' hcalls => ?_) fun s' hcalls hback => .inr ⟨hcalls, hback⟩
  split
  · exact .inr ⟨hcalls, trivial⟩
  · exact .inl (congrArg (Call.operand floor :: ·) hcalls)

/-! ### Calls come back -/

/-- More waits than some calls. -/
def Above (outer : List Call) (s : Descent) : Prop := ∃ inner, inner ≠ [] ∧ s.calls = inner ++ outer

/-- A call that is made at a state has come back after `k` steps: what waited before waits again and
nothing else does, and the counter is what it was. Until then there has been more that waits. -/
structure ReturnsAfter (s : Descent) (k : Nat) : Prop where
  pos : 0 < k
  during : ∀ j, 0 < j → j < k → Above s.calls (step^[j] s)
  calls_eq : (step^[k] s).calls = s.calls
  back : (step^[k] s).point.IsBack
  depth_eq : (step^[k] s).depth = s.depth

theorem above_of_cons {call : Call} {outer : List Call} (h : s.calls = call :: outer) :
    Above outer s := ⟨[call], List.cons_ne_nil call [], h⟩

/-- While more waits than some calls, a step leaves it so, or comes back to them. -/
theorem above_step {outer : List Call} (h : Above outer s) :
    Above outer s.step ∨ (s.step.calls = outer ∧ s.step.point.IsBack) := by
  obtain ⟨inner, hinner, hcalls⟩ := h
  cases moves_step s with
  | stays hstays => exact .inl ⟨inner, hinner, hstays.trans hcalls⟩
  | calls call hmade =>
    rw [hcalls] at hmade
    exact .inl ⟨call :: inner, List.cons_ne_nil call inner, hmade⟩
  | comesBack call hleft hback =>
    obtain ⟨innermost, rest, rfl⟩ := List.exists_cons_of_ne_nil hinner
    rw [hcalls, List.cons_append] at hleft
    obtain ⟨-, hrest⟩ := List.cons.inj hleft
    cases rest with
    | nil => exact .inr ⟨hrest.symm, hback⟩
    | cons next rest => exact .inl ⟨next :: rest, List.cons_ne_nil next rest, hrest.symm⟩

/-- What waits above some calls comes back to them, if at some time nothing waits. -/
theorem exists_back {outer : List Call} {last : Nat} (h : Above outer s.step)
    (hlast : (step^[last] s.step).calls = []) :
    ∃ k, 0 < k ∧ (∀ j, 0 < j → j < k → Above outer (step^[j] s)) ∧
      (step^[k] s).calls = outer ∧ (step^[k] s).point.IsBack := by
  classical
  have hleaves : ∃ k, ¬ Above outer (step^[k] s.step) := by
    refine ⟨last, fun habove => ?_⟩
    obtain ⟨inner, hinner, hcalls⟩ := habove
    rw [hlast] at hcalls
    exact hinner (List.append_eq_nil_iff.1 hcalls.symm).1
  -- The first step after which nothing more waits is the one that comes back.
  obtain ⟨k, hk⟩ : ∃ k, Nat.find hleaves = k + 1 := by
    refine Nat.exists_eq_succ_of_ne_zero fun hzero => ?_
    exact (Nat.find_eq_zero hleaves).1 hzero h
  have hbefore : Above outer (step^[k] s.step) :=
    not_not.1 (Nat.find_min hleaves (hk ▸ Nat.lt_succ_self k))
  have hgone : ¬ Above outer (step^[k + 1] s.step) := hk ▸ Nat.find_spec hleaves
  rw [Function.iterate_succ_apply'] at hgone
  refine ⟨k + 2, Nat.succ_pos _, ?_, ?_⟩
  · intro j hpos hj
    obtain ⟨i, rfl⟩ := Nat.exists_eq_succ_of_ne_zero hpos.ne'
    exact not_not.1 (Nat.find_min hleaves (hk ▸ Nat.lt_of_succ_lt_succ hj))
  · show (step^[k + 1] s.step).calls = outer ∧ (step^[k + 1] s.step).point.IsBack
    rw [Function.iterate_succ_apply']
    exact (above_step hbefore).resolve_left hgone

/-- After the end nothing happens. -/
theorem step_of_result? {r : Except Diagnostic Chunk} (h : s.result? = some r) : s.step = s := by
  unfold result? at h
  split at h
  · rename_i hcalls hpoint
    simp only [step, hpoint, hcalls]
  · rename_i d hcalls hpoint
    simp only [step, hpoint, hcalls]
  · cases h

theorem calls_of_result? {r : Except Diagnostic Chunk} (h : s.result? = some r) : s.calls = [] := by
  unfold result? at h
  split at h
  · assumption
  · assumption
  · cases h

theorem point_of_result?_error {d : Diagnostic} (h : s.result? = some (.error d)) :
    s.point = .failed d := by
  unfold result? at h
  split at h
  · cases h
  · rename_i hpoint
    cases h
    exact hpoint
  · cases h

/-- From every state some steps lead to one in which nothing waits. -/
theorem exists_calls_eq_nil (id : HeapId) (source : String) (n : Nat) :
    ∃ last, (step^[last] (after id source n)).calls = [] := by
  obtain ⟨last, hlast⟩ := descent_ends id source
  have hsame : step^[n] (after id source last) = after id source last :=
    Function.iterate_fixed (step_of_result? hlast) n
  refine ⟨last, ?_⟩
  rw [← after_add, Nat.add_comm, after_add, hsame]
  exact calls_of_result? hlast

/-- **A call that is made comes back**, with the depth at which it was made. -/
theorem exists_returnsAfter {n : Nat} {call : Call}
    (hmade : (after id source n).step.calls = call :: (after id source n).calls) :
    ∃ k, ReturnsAfter (after id source n) k := by
  obtain ⟨last, hlast⟩ := exists_calls_eq_nil id source (n + 1)
  rw [after_add n 1] at hlast
  obtain ⟨k, hpos, hduring, hcalls, hback⟩ := exists_back (above_of_cons hmade) hlast
  refine ⟨k, hpos, hduring, hcalls, hback, ?_⟩
  rw [← after_add] at hcalls ⊢
  exact depth_eq_of_calls_eq hcalls

/-- So does one that is not even counted because the nesting is too deep or there is no token. -/
theorem exists_returnsAfter_operand {n : Nat} {floor : Precedence}
    (hpoint : (after id source n).point = .operand floor) :
    ∃ k, ReturnsAfter (after id source n) k := by
  rcases step_operand hpoint with hmade | ⟨hcalls, hback⟩
  · exact exists_returnsAfter hmade
  · refine ⟨1, Nat.one_pos, fun j hpos hlt => absurd hpos (by omega), hcalls, hback, ?_⟩
    rw [← after_add]
    refine depth_eq_of_calls_eq ?_
    rw [after_add]
    exact hcalls

/-! ### Whole texts -/

/-- **The functions of the descent stay in their domains**, whatever the text is. In every state
nothing is out of its domain, and the counter is the number of the calls that are counted. Each call
of an operand comes back, and so does every other call, with the depth at which it was made. What
comes out is what compiling the text gives; every number in it can be read, and no diagnostic is
about one that cannot. -/
theorem descent_in_domain (id : HeapId) (source : String) :
    (∀ n, InDomain source (after id source n)) ∧
    (∀ n floor, (after id source n).point = .operand floor →
      ∃ k, ReturnsAfter (after id source n) k) ∧
    (∀ n call, (after id source (n + 1)).calls = call :: (after id source n).calls →
      ∃ k, ReturnsAfter (after id source n) k) ∧
    (∃ n, (after id source n).result? = some (compile id source)) ∧
    (∀ t ∈ (Cursor.start source.toList).tokens.1, t.kind = .number →
      (Numeral.binary64? t.text).isSome = true) ∧
    ∀ d, compile id source = .error d → d.message ≠ Complaint.invalidNumber.message := by
  refine ⟨fun n => inDomain_of_sound (sound_after id source n), ?_, ?_, descent_ends id source,
    ?_, ?_⟩
  · intro n floor hpoint
    exact exists_returnsAfter_operand hpoint
  · intro n call hmade
    rw [after_add n 1] at hmade
    exact exists_returnsAfter hmade
  · intro t ht hkind
    have hmatches := (Cursor.tokens_eq_iff.1 rfl).matches t ht
    rw [hkind] at hmatches
    exact hmatches.isSome_binary64?
  · intro d hd
    obtain ⟨n, hn⟩ := descent_ends id source
    rw [hd] at hn
    exact (inDomain_of_sound (sound_after id source n)).failed d (point_of_result?_error hn)

end Descent

end ExprMachine
