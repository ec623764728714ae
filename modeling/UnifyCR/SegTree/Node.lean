import Mathlib.Data.List.Sort
import Mathlib.Data.BitVec

/-!
# Segments and the order `compare_func` puts on them

`seg_tree.c` keeps the extents of one file as `struct seg_tree_node`s, each an inclusive
interval `[start, end]` of logical offsets whose first byte lives at physical offset `ptr`.
All three fields are `unsigned long`, so they are 64-bit words here and every comparison is
unsigned. `compare_func` treats two overlapping intervals as equal; the tree is only a search
tree because the code keeps its segments pairwise disjoint (`Valid`).

The offset map of a list of segments (`lookup`) sends `x` to `ptr + (x - start)` of the first
segment covering `x`; on a valid list that segment is the only one.
-/

namespace UnifyCR

/-- `unsigned long`: offsets, pointers, the segment count and the maximum are 64-bit words. -/
abbrev Word := BitVec 64

/-- `struct seg_tree_node` without its red-black links. -/
structure SegTreeNode where
  start : Word
  «end» : Word
  ptr : Word
deriving DecidableEq, Repr

/-- `compare_func`: `1` when `node1` lies wholly after `node2`, `-1` when wholly before, `0`
when they overlap. -/
def compareFunc (node1 node2 : SegTreeNode) : Ordering :=
  if node1.start > node2.«end» then .gt
  else if node1.«end» < node2.start then .lt
  else .eq

/-- `#define MIN(a, b) (a < b ? a : b)`. -/
def MIN (a b : Word) : Word := if a < b then a else b

/-- `#define MAX(a, b) (a > b ? a : b)`. -/
def MAX (a b : Word) : Word := if a > b then a else b

theorem MIN_eq_left {a b : Word} (h : a ≤ b) : MIN a b = a := by
  unfold MIN; split <;> bv_omega

theorem MIN_eq_right {a b : Word} (h : b ≤ a) : MIN a b = b := by
  unfold MIN; split <;> bv_omega

theorem MAX_eq_left {a b : Word} (h : b ≤ a) : MAX a b = a := by
  unfold MAX; split <;> bv_omega

theorem MAX_eq_right {a b : Word} (h : a ≤ b) : MAX a b = b := by
  unfold MAX; split <;> bv_omega

theorem le_MAX_left (a b : Word) : a ≤ MAX a b := by
  unfold MAX; split <;> bv_omega

theorem le_MAX_right (a b : Word) : b ≤ MAX a b := by
  unfold MAX; split <;> bv_omega

/-- `a` ends before `b` starts. -/
def Before (a b : SegTreeNode) : Prop := a.«end» < b.start

instance : DecidableRel Before := fun a b => inferInstanceAs (Decidable (a.«end» < b.start))

/-- The two segments share an offset. -/
def Overlaps (a b : SegTreeNode) : Prop := a.start ≤ b.«end» ∧ b.start ≤ a.«end»

instance : DecidableRel Overlaps := fun a b =>
  inferInstanceAs (Decidable (a.start ≤ b.«end» ∧ b.start ≤ a.«end»))

/-- The segment covers offset `x`. -/
def Covers (a : SegTreeNode) (x : Word) : Prop := a.start ≤ x ∧ x ≤ a.«end»

instance (a : SegTreeNode) (x : Word) : Decidable (Covers a x) :=
  inferInstanceAs (Decidable (a.start ≤ x ∧ x ≤ a.«end»))

/-- The segment-tree invariant on an in-order sequence: every segment is an interval with
`start ≤ end`, and each segment ends before every later one starts. -/
structure Valid (l : List SegTreeNode) : Prop where
  wf : ∀ a ∈ l, a.start ≤ a.«end»
  sorted : l.Pairwise Before

/-- The offset map: `x` goes to `ptr + (x - start)` of the first segment covering it. -/
def lookup : List SegTreeNode → Word → Option Word
  | [], _ => none
  | a :: l, x => if Covers a x then some (a.ptr + (x - a.start)) else lookup l x

/-! ## `compare_func` -/

theorem compareFunc_eq_iff {a b : SegTreeNode} : compareFunc a b = .eq ↔ Overlaps a b := by
  unfold compareFunc Overlaps
  split
  · simp only [reduceCtorEq, false_iff, not_and]
    intro h; bv_omega
  · split
    · simp only [reduceCtorEq, false_iff, not_and]
      intro _; bv_omega
    · simp only [true_iff]; bv_omega

theorem compareFunc_lt_iff {a b : SegTreeNode} (ha : a.start ≤ a.«end»)
    (hb : b.start ≤ b.«end») : compareFunc a b = .lt ↔ Before a b := by
  unfold compareFunc Before
  split
  · simp only [reduceCtorEq, false_iff]; bv_omega
  · split <;> simp_all

theorem compareFunc_gt_iff {a b : SegTreeNode} : compareFunc a b = .gt ↔ Before b a := by
  unfold compareFunc Before
  split
  · simp_all
  · split <;> simp_all

theorem overlaps_comm {a b : SegTreeNode} : Overlaps a b ↔ Overlaps b a := And.comm

theorem not_overlaps_of_before {a b : SegTreeNode} (h : Before a b) : ¬ Overlaps a b := by
  unfold Before at h; unfold Overlaps; bv_omega

theorem before_trans {a b c : SegTreeNode} (hb : b.start ≤ b.«end») (hab : Before a b)
    (hbc : Before b c) : Before a c := by
  unfold Before at *; bv_omega

theorem not_before_of_before {a b : SegTreeNode} (ha : a.start ≤ a.«end»)
    (hb : b.start ≤ b.«end») (h : Before a b) : ¬ Before b a := by
  unfold Before at *; bv_omega

theorem not_before_self {a : SegTreeNode} (ha : a.start ≤ a.«end») : ¬ Before a a := by
  unfold Before; bv_omega

/-- Two well-formed segments either overlap or one lies before the other. -/
theorem before_or_overlaps_or_after (a b : SegTreeNode) :
    Before a b ∨ Overlaps a b ∨ Before b a := by
  unfold Before Overlaps; bv_omega

/-! ## Valid sequences -/

namespace Valid

theorem nil : Valid [] := ⟨by simp, .nil⟩

theorem append_iff {l₁ l₂ : List SegTreeNode} :
    Valid (l₁ ++ l₂) ↔ Valid l₁ ∧ Valid l₂ ∧ ∀ a ∈ l₁, ∀ b ∈ l₂, Before a b := by
  constructor
  · rintro ⟨hw, hs⟩
    rw [List.pairwise_append] at hs
    exact ⟨⟨fun a ha => hw a (by simp [ha]), hs.1⟩,
      ⟨fun a ha => hw a (by simp [ha]), hs.2.1⟩, hs.2.2⟩
  · rintro ⟨⟨hw₁, hs₁⟩, ⟨hw₂, hs₂⟩, h⟩
    refine ⟨fun a ha => ?_, List.pairwise_append.2 ⟨hs₁, hs₂, h⟩⟩
    rcases List.mem_append.1 ha with ha | ha
    exacts [hw₁ a ha, hw₂ a ha]

theorem cons_iff {a : SegTreeNode} {l : List SegTreeNode} :
    Valid (a :: l) ↔ a.start ≤ a.«end» ∧ (∀ b ∈ l, Before a b) ∧ Valid l := by
  constructor
  · rintro ⟨hw, hs⟩
    rw [List.pairwise_cons] at hs
    exact ⟨hw a (by simp), hs.1, fun b hb => hw b (by simp [hb]), hs.2⟩
  · rintro ⟨ha, hb, hw, hs⟩
    refine ⟨fun c hc => ?_, List.pairwise_cons.2 ⟨hb, hs⟩⟩
    rcases List.mem_cons.1 hc with rfl | hc
    exacts [ha, hw c hc]

theorem sublist {l₁ l₂ : List SegTreeNode} (h : l₁.Sublist l₂) (hv : Valid l₂) : Valid l₁ :=
  ⟨fun a ha => hv.wf a (h.subset ha), hv.sorted.sublist h⟩

/-- A segment that fits between `l₁` and `l₂` keeps the sequence valid. -/
theorem middle {l₁ l₂ : List SegTreeNode} {p : SegTreeNode} (hv : Valid (l₁ ++ l₂))
    (hp : p.start ≤ p.«end») (h₁ : ∀ a ∈ l₁, Before a p) (h₂ : ∀ b ∈ l₂, Before p b) :
    Valid (l₁ ++ p :: l₂) := by
  obtain ⟨hv₁, hv₂, -⟩ := append_iff.1 hv
  refine append_iff.2 ⟨hv₁, cons_iff.2 ⟨hp, h₂, hv₂⟩, fun a ha b hb => ?_⟩
  rcases List.mem_cons.1 hb with rfl | hb
  exacts [h₁ a ha, before_trans hp (h₁ a ha) (h₂ b hb)]

/-- A valid sequence is a sequence of intervals ordered by start and pairwise disjoint. -/
theorem iff_sorted_disjoint {l : List SegTreeNode} :
    Valid l ↔ (∀ a ∈ l, a.start ≤ a.«end») ∧ (l.Pairwise fun a b => a.start < b.start) ∧
      l.Pairwise fun a b => ¬ Overlaps a b := by
  constructor
  · intro hv
    refine ⟨hv.wf, hv.sorted.imp_of_mem fun ha _ h => ?_, hv.sorted.imp not_overlaps_of_before⟩
    have := hv.wf _ ha; unfold Before at h; bv_omega
  · rintro ⟨hw, hs, hd⟩
    refine ⟨hw, (hs.and hd).imp_of_mem fun _ hb h => ?_⟩
    have := hw _ hb; unfold Before; unfold Overlaps at h; bv_omega

/-- In a valid sequence, a segment overlapping a member is that member. -/
theorem eq_of_overlaps {l : List SegTreeNode} (hv : Valid l) {a b : SegTreeNode} (ha : a ∈ l)
    (hb : b ∈ l) (h : Overlaps a b) : a = b := by
  by_contra hne
  have hsymm : Symmetric fun a b => Before a b ∨ Before b a := fun _ _ => Or.symm
  rcases (hv.sorted.imp Or.inl).forall hsymm ha hb hne with hab | hba
  · exact not_overlaps_of_before hab h
  · exact not_overlaps_of_before hba (overlaps_comm.1 h)

end Valid

/-! ## The offset map -/

@[simp] theorem lookup_nil (x : Word) : lookup [] x = none := rfl

theorem lookup_cons (a : SegTreeNode) (l : List SegTreeNode) (x : Word) :
    lookup (a :: l) x = if Covers a x then some (a.ptr + (x - a.start)) else lookup l x := rfl

theorem lookup_append (l₁ l₂ : List SegTreeNode) (x : Word) :
    lookup (l₁ ++ l₂) x = (lookup l₁ x).or (lookup l₂ x) := by
  induction l₁ with
  | nil => rfl
  | cons a l ih => by_cases h : Covers a x <;> simp [lookup_cons, h, ih]

/-- A list none of whose segments covers `x` maps nothing there. -/
theorem lookup_eq_none {l : List SegTreeNode} {x : Word} (h : ∀ a ∈ l, ¬ Covers a x) :
    lookup l x = none := by
  induction l with
  | nil => rfl
  | cons a l ih =>
    rw [lookup_cons, if_neg (h a (by simp))]
    exact ih fun b hb => h b (by simp [hb])

/-- A mapped offset is covered by a member of the list, which maps it. -/
theorem exists_of_lookup_eq_some {l : List SegTreeNode} {x v : Word} (h : lookup l x = some v) :
    ∃ a ∈ l, Covers a x ∧ v = a.ptr + (x - a.start) := by
  induction l with
  | nil => simp at h
  | cons a l ih =>
    rw [lookup_cons] at h
    split at h
    · exact ⟨a, by simp, ‹_›, (Option.some.inj h).symm⟩
    · obtain ⟨b, hb, hbx, rfl⟩ := ih h
      exact ⟨b, by simp [hb], hbx, rfl⟩

/-- On a valid list, a member covering `x` is the one `lookup` reads. -/
theorem lookup_of_mem {l : List SegTreeNode} (hv : Valid l) {a : SegTreeNode} (ha : a ∈ l)
    {x : Word} (hx : Covers a x) : lookup l x = some (a.ptr + (x - a.start)) := by
  induction l with
  | nil => simp at ha
  | cons b l ih =>
    obtain ⟨-, hb, hl⟩ := Valid.cons_iff.1 hv
    rw [lookup_cons]
    rcases List.mem_cons.1 ha with rfl | ha
    · rw [if_pos hx]
    · have : ¬ Covers b x := by
        have := hb a ha; unfold Before at this; unfold Covers at *; bv_omega
      rw [if_neg this, ih hl ha]

end UnifyCR
