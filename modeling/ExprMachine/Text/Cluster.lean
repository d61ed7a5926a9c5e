import ExprMachine.Text.BreakClass

/-!
# Clusters

A user-perceived character may be written as several characters: a letter and its accents, two
letters for a region's flag, pictures with joiners between them, the parts of a syllable. Such a
sequence is a cluster.

* `Context` — what the characters so far say about the next break;
* `Context.joins` — whether a character continues the cluster before it;
* `clusters` — a text as a list of clusters.

Nothing is lost, and no cluster is empty (`flatten_clusters`, `ne_nil_of_mem_clusters`).
-/

namespace ExprMachine.Text

/-! ### Joins between two characters -/

namespace BreakClass

/-- Whether there is a break on both sides of a character. -/
def standsAlone : BreakClass → Bool
  | ret | feed | control => true
  | _ => false

/-- Whether a character continues whatever is before it. -/
def continues : BreakClass → Bool
  | mark | linker | nonJoiner | joiner | spacingMark => true
  | _ => false

/-- What may come next in a syllable. -/
def syllableNext : BreakClass → List BreakClass
  | initial => [initial, medial, openSyllable, closedSyllable]
  | openSyllable | medial => [medial, final]
  | closedSyllable | final => [final]
  | _ => []

end BreakClass

/-! ### Joins over a longer stretch -/

/-- How far a sequence has come in which two characters are joined by a third one. -/
inductive Link where
  /-- There is no first character. -/
  | none
  /-- There is a first character. -/
  | begun
  /-- There is a character that joins it to another. -/
  | linked
  deriving DecidableEq, Repr

namespace Link

/-- A sequence of consonants. Marks do not end it. -/
def nextConsonant (l : Link) : BreakClass → Link
  | .consonant => begun
  | .linker => if l = none then none else linked
  | .mark | .joiner => l
  | _ => none

/-- A sequence of pictures. Marks do not end it, but nothing comes between the joiner and the second
picture. -/
def nextPicture (l : Link) : BreakClass → Link
  | .picture => begun
  | .joiner => if l = begun then linked else none
  | .mark | .linker | .nonJoiner => if l = begun then begun else none
  | _ => none

end Link

/-- What the characters so far say about the next break: the class of the last one, how far
consonants and pictures are joined, and whether a regional letter is without its partner. At the
start of a text there is a break as after a control. -/
structure Context where
  last : BreakClass := .control
  consonants : Link := .none
  pictures : Link := .none
  unpaired : Bool := false
  deriving DecidableEq, Repr

namespace Context

/-- The context after one more character. -/
def next (context : Context) (c : BreakClass) : Context where
  last := c
  consonants := context.consonants.nextConsonant c
  pictures := context.pictures.nextPicture c
  unpaired := c = .regional && !context.unpaired

/-- Whether a character continues the cluster before it. -/
def joins (context : Context) (c : BreakClass) : Bool :=
  if context.last.standsAlone || c.standsAlone then context.last = .ret && c = .feed
  else c.continues || context.last = .leading || context.last.syllableNext.contains c ||
    match c with
    | .consonant => context.consonants = .linked
    | .picture => context.pictures = .linked
    | .regional => context.unpaired
    | _ => false

end Context

/-! ### Clusters of a text -/

/-- The clusters so far, latest first and with their latest characters first, and the context. -/
structure ClusterReader where
  read : List (List Char) := []
  context : Context := {}

/-- Read a character. -/
def ClusterReader.feed (r : ClusterReader) (c : Char) : ClusterReader where
  read := match r.read with
    | [] => [[c]]
    | cluster :: before =>
      if r.context.joins (.of c) then (c :: cluster) :: before else [c] :: cluster :: before
  context := r.context.next (.of c)

/-- A text as a list of clusters. -/
def clusters (s : List Char) : List (List Char) :=
  ((s.foldl ClusterReader.feed {}).read.map List.reverse).reverse

theorem ClusterReader.flatten_feed (r : ClusterReader) (c : Char) :
    (r.feed c).read.flatten = c :: r.read.flatten := by
  unfold feed
  dsimp only
  split
  · next h => simp [h]
  · next h => split <;> simp [h]

theorem ClusterReader.flatten_foldl_feed (r : ClusterReader) (s : List Char) :
    (s.foldl feed r).read.flatten = s.reverse ++ r.read.flatten := by
  induction s generalizing r with
  | nil => rfl
  | cons c s ih => simp [ih, flatten_feed]

/-- Nothing of a text is lost in its clusters. -/
theorem flatten_clusters (s : List Char) : (clusters s).flatten = s := by
  have h := ClusterReader.flatten_foldl_feed {} s
  rw [clusters, ← List.reverse_flatten, h]
  simp

theorem ClusterReader.ne_nil_of_mem_feed (r : ClusterReader) (c : Char)
    (h : ∀ cluster ∈ r.read, cluster ≠ []) : ∀ cluster ∈ (r.feed c).read, cluster ≠ [] := by
  unfold feed
  dsimp only
  split
  · simp
  · next hr =>
    simp only [hr, List.mem_cons, forall_eq_or_imp] at h
    split <;> simp only [List.mem_cons, forall_eq_or_imp] <;> simp_all

theorem ClusterReader.ne_nil_of_mem_foldl_feed (r : ClusterReader) (s : List Char)
    (h : ∀ cluster ∈ r.read, cluster ≠ []) : ∀ cluster ∈ (s.foldl feed r).read, cluster ≠ [] := by
  induction s generalizing r with
  | nil => exact h
  | cons c s ih => exact ih _ (r.ne_nil_of_mem_feed c h)

/-- No cluster is empty. -/
theorem ne_nil_of_mem_clusters (s : List Char) (cluster : List Char) (h : cluster ∈ clusters s) :
    cluster ≠ [] := by
  have all := ClusterReader.ne_nil_of_mem_foldl_feed {} s (by simp)
  simp only [clusters, List.mem_reverse, List.mem_map] at h
  obtain ⟨cluster, hmem, rfl⟩ := h
  simpa using all cluster hmem

end ExprMachine.Text
