import Mathlib.Algebra.GroupWithZero.Nat
import ExprMachine.Heap

/-!
# Histories of heaps

Heaps are created and copied, and each of them is given strings. A handle carries the identity of
the heap that issued it and a slot. Copies keep the identity, so which string a handle names in a
heap depends on where that heap branched off.

* `HeapWorld` — all heaps so far, with what each of them was given, and all handles issued;
* `HeapWorld.step`, `HeapWorld.run` — one step, and a history of them;
* `HeapWorld.Sound` — what every history keeps up: identities tell the created heaps apart, and the
  slots of a heap hold what it was given, in that order;
* `resolve_issued` — what a handle names in a heap: the string that it was issued for, if the heap
  was given that string or is a copy made after that; nothing, if the heap goes back to another
  one; and else the string that the heap itself was given in that slot, if any;
* `copies_share_slots` — the last case does occur, with a string that the handle was not issued for.
-/

namespace ExprMachine

/-- A heap, the number of the created heap that it goes back to, and the numbers of the strings
that it was given, itself or before it was copied. -/
structure Branch where
  heap : Heap
  root : Nat
  past : List Nat := []
  deriving DecidableEq, Repr

/-- A handle, the created heap that its issuer goes back to, and the string that it was issued for.
-/
structure Issue where
  handle : Handle
  root : Nat
  bytes : List UInt8
  deriving DecidableEq, Repr

/-- All heaps, the number of those that were created and not copied, and all handles issued, each
under the number of its string. -/
structure HeapWorld where
  branches : List Branch := []
  created : Nat := 0
  issued : List Issue := []
  deriving DecidableEq, Repr

/-- What is done with heaps: a new one, a copy of one, or a string for one. -/
inductive HeapStep where
  | create
  | copy (i : Nat)
  | give (i : Nat) (bytes : List UInt8)
  deriving DecidableEq, Repr

/-- A branch with one more string, which has a number. -/
def Branch.give (b : Branch) (number : Nat) (bytes : List UInt8) : Branch :=
  { b with heap := (b.heap.alloc bytes).2, past := b.past ++ [number] }

namespace HeapWorld

/-- The identity of a created heap. They are counted from one in 32 bits. -/
def identity (root : Nat) : HeapId := ⟨(1 + root) % 2 ^ 32⟩

/-- One step. Nothing is done with a heap that does not exist. -/
def step (w : HeapWorld) : HeapStep → HeapWorld
  | .create =>
    { w with
      branches := w.branches ++ [{ heap := { id := identity w.created }, root := w.created }]
      created := w.created + 1 }
  | .copy i =>
    match w.branches[i]? with
    | some b => { w with branches := w.branches ++ [b] }
    | none => w
  | .give i bytes =>
    match w.branches[i]? with
    | some b =>
      { w with
        branches := w.branches.set i (b.give w.issued.length bytes)
        issued := w.issued ++ [⟨(b.heap.alloc bytes).1, b.root, bytes⟩] }
    | none => w

/-- A history. -/
def run (steps : List HeapStep) : HeapWorld := steps.foldl step {}

/-! ### What a history keeps up -/

/-- The string with a number is the one in a slot of a branch, and the handle issued for it names
that slot. -/
structure Placed (w : HeapWorld) (b : Branch) (slot number : Nat) (issue : Issue) : Prop where
  issued : w.issued[number]? = some issue
  handle : issue.handle = ⟨b.heap.id, slot⟩
  root : issue.root = b.root
  object : b.heap.objects[slot]? = some issue.bytes

/-- The branch goes back to a created heap, and it holds what it was given. -/
structure SoundBranch (w : HeapWorld) (b : Branch) : Prop where
  root : b.root < w.created
  id : b.heap.id = identity b.root
  size : b.past.length = b.heap.objects.size
  placed : ∀ slot number, b.past[slot]? = some number → ∃ issue, w.Placed b slot number issue

/-- The invariant of histories. -/
structure Sound (w : HeapWorld) : Prop where
  branches : ∀ b ∈ w.branches, w.SoundBranch b
  roots : ∀ issue ∈ w.issued, issue.root < w.created ∧ issue.handle.heap = identity issue.root

theorem sound_empty : Sound {} := ⟨nofun, nofun⟩

/-- More heaps and more handles do not disturb a branch. -/
theorem SoundBranch.mono {w v : HeapWorld} {b : Branch} (h : w.SoundBranch b)
    (hcreated : w.created ≤ v.created)
    (hissued : ∀ (number : Nat) (issue : Issue), w.issued[number]? = some issue →
      v.issued[number]? = some issue) : v.SoundBranch b where
  root := Nat.lt_of_lt_of_le h.root hcreated
  id := h.id
  size := h.size
  placed := fun slot number hslot => by
    obtain ⟨issue, hplaced⟩ := h.placed slot number hslot
    exact ⟨issue, { hplaced with issued := hissued number issue hplaced.issued }⟩

theorem Sound.create {w : HeapWorld} (h : w.Sound) : (w.step .create).Sound where
  branches := by
    intro b hb
    rcases List.mem_append.1 hb with hb | hb
    · exact (h.branches b hb).mono (Nat.le_succ _) fun _ _ h => h
    · obtain rfl := List.mem_singleton.1 hb
      exact ⟨Nat.lt_succ_self _, rfl, rfl, nofun⟩
  roots := fun issue hissue =>
    ⟨Nat.lt_succ_of_lt (h.roots issue hissue).1, (h.roots issue hissue).2⟩

theorem Sound.copy {w : HeapWorld} (h : w.Sound) (i : Nat) : (w.step (.copy i)).Sound := by
  simp only [HeapWorld.step]
  split
  · rename_i b hb
    refine ⟨fun other hother => ?_, h.roots⟩
    have hold : other ∈ w.branches := by
      rcases List.mem_append.1 hother with hother | hother
      · exact hother
      · rw [List.mem_singleton.1 hother]
        exact List.mem_of_getElem? hb
    exact (h.branches other hold).mono (Nat.le_refl _) fun _ _ h => h
  · exact h

/-- A branch that is given a string holds it in its next slot. -/
theorem SoundBranch.give {w v : HeapWorld} {b : Branch} {bytes : List UInt8}
    (h : w.SoundBranch b) (hcreated : v.created = w.created)
    (hissued : v.issued = w.issued ++ [⟨(b.heap.alloc bytes).1, b.root, bytes⟩]) :
    v.SoundBranch (b.give w.issued.length bytes) := by
  have hold := h.mono (v := v) (Nat.le_of_eq hcreated.symm) fun number issue hnumber => by
    rw [hissued, List.getElem?_append_left (List.getElem?_eq_some_iff.1 hnumber).1]
    exact hnumber
  refine ⟨hold.root, hold.id, ?_, fun slot number hslot => ?_⟩
  · rw [Branch.give, List.length_append, h.size]
    exact (Array.size_push _).symm
  rcases Nat.lt_trichotomy slot b.past.length with hlt | heq | hgt
  · rw [Branch.give, List.getElem?_append_left hlt] at hslot
    obtain ⟨issue, hplaced⟩ := hold.placed slot number hslot
    have hlt' : slot < b.heap.objects.size := Nat.lt_of_lt_of_eq hlt h.size
    refine ⟨issue, { hplaced with object := ?_ }⟩
    rw [← hplaced.object, Array.getElem?_eq_getElem hlt']
    exact Array.getElem?_push_lt hlt'
  · subst heq
    rw [Branch.give, List.getElem?_concat_length] at hslot
    obtain rfl := Option.some.inj hslot
    refine ⟨⟨(b.heap.alloc bytes).1, b.root, bytes⟩, ?_, ?_, rfl, ?_⟩
    · rw [hissued, List.getElem?_concat_length]
    · rw [h.size]
      rfl
    · rw [h.size]
      exact Array.getElem?_push_size
  · have hnone : (b.give w.issued.length bytes).past[slot]? = none :=
      List.getElem?_eq_none (by rw [Branch.give, List.length_append]; exact hgt)
    rw [hnone] at hslot
    cases hslot

theorem Sound.give {w : HeapWorld} (h : w.Sound) (i : Nat) (bytes : List UInt8) :
    (w.step (.give i bytes)).Sound := by
  simp only [HeapWorld.step]
  split
  · rename_i b hb
    have hmem := List.mem_of_getElem? hb
    have hbranch := h.branches b hmem
    refine ⟨fun other hother => ?_, fun issue hissue => ?_⟩
    · rcases List.mem_or_eq_of_mem_set hother with hother | rfl
      · refine (h.branches other hother).mono (Nat.le_refl _) fun number issue hnumber => ?_
        rw [List.getElem?_append_left (List.getElem?_eq_some_iff.1 hnumber).1]
        exact hnumber
      · exact hbranch.give rfl rfl
    · rcases List.mem_append.1 hissue with hissue | hissue
      · exact h.roots issue hissue
      · obtain rfl := List.mem_singleton.1 hissue
        exact ⟨hbranch.root, hbranch.id⟩
  · exact h

/-- **Every step keeps the invariant.** -/
theorem Sound.step {w : HeapWorld} (h : w.Sound) : ∀ s, (w.step s).Sound
  | .create => h.create
  | .copy i => h.copy i
  | .give i bytes => h.give i bytes

/-- **Every history keeps the invariant.** -/
theorem sound_run (steps : List HeapStep) : (run steps).Sound := by
  have hfold : ∀ (steps : List HeapStep) (w : HeapWorld), w.Sound →
      (steps.foldl HeapWorld.step w).Sound := by
    intro steps
    induction steps with
    | nil => exact fun w h => h
    | cons s steps ih => exact fun w h => ih _ (h.step s)
  exact hfold steps {} sound_empty

theorem created_step (w : HeapWorld) (s : HeapStep) :
    (w.step s).created = w.created + [s].count .create := by
  cases s with
  | create => rfl
  | copy i =>
    simp only [HeapWorld.step]
    split <;> rfl
  | give i bytes =>
    simp only [HeapWorld.step]
    split <;> rfl

theorem created_run (steps : List HeapStep) : (run steps).created = steps.count .create := by
  have hfold : ∀ (steps : List HeapStep) (w : HeapWorld),
      (steps.foldl HeapWorld.step w).created = w.created + steps.count .create := by
    intro steps
    induction steps with
    | nil => exact fun w => rfl
    | cons s steps ih =>
      intro w
      have hcons : (s :: steps).count .create = [s].count .create + steps.count .create := by
        rw [← List.count_append, List.singleton_append]
      rw [List.foldl_cons, ih, created_step, hcons, Nat.add_assoc]
  rw [run, hfold, Nat.zero_add]

theorem identity_inj {i j : Nat} (hi : i < 2 ^ 32) (hj : j < 2 ^ 32)
    (h : identity i = identity j) : i = j := by
  have hnumber := congrArg HeapId.number h
  simp only [identity] at hnumber
  omega

/-! ### What a handle names -/

/-- What the handle of a string names in a branch. -/
structure Resolves (w : HeapWorld) (b : Branch) (number : Nat) (issue : Issue) : Prop where
  /-- A heap that was given the string, or is a copy of one that had been. -/
  own : number ∈ b.past → b.heap.owns issue.handle = true ∧
    b.heap.get? issue.handle = some issue.bytes
  /-- A heap that goes back to another created heap. -/
  foreign : b.root ≠ issue.root → b.heap.owns issue.handle = false ∧
    b.heap.get? issue.handle = none
  /-- A heap of the same family: the handle names whatever that heap was given in the slot. -/
  kin : b.root = issue.root →
    b.heap.get? issue.handle = b.past[issue.handle.slot]?.bind fun other =>
      w.issued[other]?.map Issue.bytes

/-- **What a handle names** in a heap, after any history. -/
theorem resolve_issued (steps : List HeapStep) (hcount : steps.count .create < 2 ^ 32)
    (b : Branch) (hb : b ∈ (run steps).branches) (number : Nat) (issue : Issue)
    (hissue : (run steps).issued[number]? = some issue) :
    (run steps).Resolves b number issue := by
  have hsound := sound_run steps
  have hbranch := hsound.branches b hb
  obtain ⟨hroot, hheap⟩ := hsound.roots issue (List.mem_of_getElem? hissue)
  have hcreated : (run steps).created < 2 ^ 32 := (created_run steps).symm ▸ hcount
  constructor
  case own =>
    intro hmem
    obtain ⟨slot, hslot⟩ := List.getElem?_of_mem hmem
    obtain ⟨placed, hplaced⟩ := hbranch.placed slot number hslot
    obtain rfl := Option.some.inj (hplaced.issued.symm.trans hissue)
    have hget : b.heap.get? placed.handle = some placed.bytes := by
      rw [Heap.get?, hplaced.handle, if_pos rfl, hplaced.object]
    exact ⟨by rw [Heap.owns_eq_isSome_get?, hget]; rfl, hget⟩
  case foreign =>
    intro hne
    have hid : issue.handle.heap ≠ b.heap.id := by
      rw [hheap, hbranch.id]
      exact fun heq => hne (identity_inj (Nat.lt_trans hbranch.root hcreated)
        (Nat.lt_trans hroot hcreated) heq.symm)
    have hget : b.heap.get? issue.handle = none := by rw [Heap.get?, if_neg hid]
    exact ⟨by rw [Heap.owns_eq_isSome_get?, hget]; rfl, hget⟩
  case kin =>
    intro heq
    have hid : issue.handle.heap = b.heap.id := by rw [hheap, hbranch.id, heq]
    rw [Heap.get?, if_pos hid]
    cases hslot : b.past[issue.handle.slot]? with
    | none =>
      have hlt := List.getElem?_eq_none_iff.1 hslot
      exact Array.getElem?_eq_none (hbranch.size ▸ hlt)
    | some other =>
      obtain ⟨placed, hplaced⟩ := hbranch.placed _ other hslot
      rw [hplaced.object, Option.bind_some, hplaced.issued]
      rfl

/-- A heap, a copy of it, and a string for each of the two. -/
def siblings : List HeapStep := [.create, .copy 0, .give 0 [120], .give 1 [121]]

theorem resolve_issued_siblings : siblings.count .create < 2 ^ 32 ∧
    (run siblings).Resolves ⟨⟨⟨1⟩, #[[121]], 17⟩, 0, [1]⟩ 0 ⟨⟨⟨1⟩, 0⟩, 0, [120]⟩ :=
  ⟨by decide, resolve_issued siblings (by decide) _ (by decide) 0 _ (by decide)⟩

/-- **Copies share slots**: the handle of the first string names the second one in the copy, which
was never given the first. -/
theorem copies_share_slots : ∃ b ∈ (run siblings).branches, ∃ issue,
    (run siblings).issued[0]? = some issue ∧ issue.bytes = [120] ∧ 0 ∉ b.past ∧
      b.heap.owns issue.handle = true ∧ b.heap.get? issue.handle = some [121] := by
  decide

end HeapWorld

end ExprMachine
