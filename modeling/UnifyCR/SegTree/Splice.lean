import UnifyCR.SegTree.Node
import Mathlib.Tactic.Abel

/-!
# What an add should do: the splice of a segment into a sequence

`splice l n` is the intended result of `seg_tree_add` on the in-order sequence `l`: what is
left of every old segment to the left of `n.start` (`leftPiece`), then `n`, then what is left
to the right of `n.end` (`rightPiece`). A segment disjoint from `n` is its own piece; one that
`n` covers has none; one that `n` splits has two.

**The offset map** (`lookup_splice`): the splice maps `[n.start, n.end]` through `n` and agrees
with `l` everywhere else, on any `l` at all.

**Order independence** (`splice_comm`): splicing two disjoint segments gives the same
sequence in either order, pointers of the shifted remainders included.
-/

namespace UnifyCR

/-- What is left of `o` to the left of offset `s`: `[os, MIN(oe, s - 1), op]` when `os < s`. -/
def leftPiece (s : Word) (o : SegTreeNode) : Option SegTreeNode :=
  if o.start < s then some ⟨o.start, MIN o.«end» (s - 1), o.ptr⟩ else none

/-- What is left of `o` to the right of offset `e`: `[m, oe, op + (m - os)]` with
`m = MAX(os, e + 1)`, when `e < oe`. -/
def rightPiece (e : Word) (o : SegTreeNode) : Option SegTreeNode :=
  if e < o.«end» then
    some ⟨MAX o.start (e + 1), o.«end», o.ptr + (MAX o.start (e + 1) - o.start)⟩
  else none

/-- The segments an add of `n` should leave behind on the sequence `l`. -/
def splice (l : List SegTreeNode) (n : SegTreeNode) : List SegTreeNode :=
  l.filterMap (leftPiece n.start) ++ n :: l.filterMap (rightPiece n.«end»)

theorem ptr_shift (p s m m' : Word) : p + (m - s) + (m' - m) = p + (m' - s) := by abel

/-! ## Pieces of one segment -/

theorem leftPiece_eq_some {s : Word} {o x : SegTreeNode} :
    leftPiece s o = some x ↔ o.start < s ∧ x = ⟨o.start, MIN o.«end» (s - 1), o.ptr⟩ := by
  unfold leftPiece; split <;> simp_all [eq_comm]

theorem rightPiece_eq_some {e : Word} {o x : SegTreeNode} :
    rightPiece e o = some x ↔ e < o.«end» ∧
      x = ⟨MAX o.start (e + 1), o.«end», o.ptr + (MAX o.start (e + 1) - o.start)⟩ := by
  unfold rightPiece; split <;> simp_all [eq_comm]

/-- A left piece maps what the segment maps, below `s`. -/
theorem covers_leftPiece {s x : Word} {o p : SegTreeNode} (h : leftPiece s o = some p) :
    Covers p x ↔ Covers o x ∧ x < s := by
  obtain ⟨hs, rfl⟩ := leftPiece_eq_some.1 h
  unfold Covers MIN; split <;> simp only <;> bv_omega

/-- A right piece maps what the segment maps, above `e`. -/
theorem covers_rightPiece {e x : Word} {o p : SegTreeNode} (h : rightPiece e o = some p) :
    Covers p x ↔ Covers o x ∧ e < x := by
  obtain ⟨he, rfl⟩ := rightPiece_eq_some.1 h
  unfold Covers MAX; split <;> simp only <;> bv_omega

theorem leftPiece_wf {s : Word} {o p : SegTreeNode} (ho : o.start ≤ o.«end»)
    (h : leftPiece s o = some p) : p.start ≤ p.«end» := by
  obtain ⟨hs, rfl⟩ := leftPiece_eq_some.1 h
  unfold MIN; split <;> simp only <;> bv_omega

theorem rightPiece_wf {e : Word} {o p : SegTreeNode} (ho : o.start ≤ o.«end»)
    (h : rightPiece e o = some p) : p.start ≤ p.«end» := by
  obtain ⟨he, rfl⟩ := rightPiece_eq_some.1 h
  unfold MAX; split <;> simp only <;> bv_omega

theorem leftPiece_before {s : Word} {o p : SegTreeNode} (h : leftPiece s o = some p) :
    p.«end» < s := by
  obtain ⟨hs, rfl⟩ := leftPiece_eq_some.1 h
  unfold MIN; split <;> simp only <;> bv_omega

theorem rightPiece_after {e : Word} {o p : SegTreeNode} (h : rightPiece e o = some p) :
    e < p.start := by
  obtain ⟨he, rfl⟩ := rightPiece_eq_some.1 h
  unfold MAX; split <;> simp only <;> bv_omega

/-- A piece lies inside the segment it was cut from. -/
theorem leftPiece_within {s : Word} {o p : SegTreeNode} (h : leftPiece s o = some p) :
    o.start ≤ p.start ∧ p.«end» ≤ o.«end» := by
  obtain ⟨hs, rfl⟩ := leftPiece_eq_some.1 h
  unfold MIN; split <;> simp only <;> bv_omega

theorem rightPiece_within {e : Word} {o p : SegTreeNode} (h : rightPiece e o = some p) :
    o.start ≤ p.start ∧ p.«end» ≤ o.«end» := by
  obtain ⟨he, rfl⟩ := rightPiece_eq_some.1 h
  unfold MAX; split <;> simp only <;> bv_omega

theorem leftPiece_of_before {s : Word} {p : SegTreeNode} (hp : p.start ≤ p.«end»)
    (h : p.«end» < s) : leftPiece s p = some p :=
  leftPiece_eq_some.2 ⟨by bv_omega, by rw [MIN_eq_left (by bv_omega)]⟩

theorem leftPiece_of_ge {s : Word} {p : SegTreeNode} (h : s ≤ p.start) : leftPiece s p = none := by
  unfold leftPiece; rw [if_neg (by bv_omega)]

theorem rightPiece_of_after {e : Word} {p : SegTreeNode} (h : e < p.start)
    (hp : p.start ≤ p.«end») : rightPiece e p = some p := by
  refine rightPiece_eq_some.2 ⟨by bv_omega, ?_⟩
  rw [MAX_eq_left (by bv_omega), BitVec.sub_self, BitVec.add_zero]

theorem rightPiece_of_le {e : Word} {p : SegTreeNode} (h : p.«end» ≤ e) :
    rightPiece e p = none := by
  unfold rightPiece; rw [if_neg (by bv_omega)]


/-- A tail of `o` with the same intercept has the same right piece, when it starts by
`e + 1`. -/
theorem rightPiece_eq_of_tail {e : Word} {o p : SegTreeNode} (hend : p.«end» = o.«end»)
    (hs : o.start ≤ p.start) (hpe : p.start ≤ e + 1) (hi : p.ptr - p.start = o.ptr - o.start) :
    rightPiece e p = rightPiece e o := by
  unfold rightPiece
  rw [hend]
  split
  · rename_i he
    rw [MAX_eq_right hpe, MAX_eq_right (by bv_omega)]
    congr 2
    calc p.ptr + (e + 1 - p.start) = (p.ptr - p.start) + (e + 1) := by abel
      _ = (o.ptr - o.start) + (e + 1) := by rw [hi]
      _ = o.ptr + (e + 1 - o.start) := by abel
  · rfl

/-! ## The offset map of a splice -/

/-- Pieces that keep exactly the offsets where `P` holds, and map them as before. -/
theorem lookup_filterMap {f : SegTreeNode → Option SegTreeNode} {P : Prop} [Decidable P]
    {x : Word} (hsome : ∀ o p, f o = some p →
      (Covers p x ↔ Covers o x ∧ P) ∧ p.ptr + (x - p.start) = o.ptr + (x - o.start))
    (hnone : ∀ o, f o = none → ¬ (Covers o x ∧ P)) (l : List SegTreeNode) :
    lookup (l.filterMap f) x = if P then lookup l x else none := by
  induction l with
  | nil => simp
  | cons o l ih =>
    rw [lookup_cons]
    cases h : f o with
    | none =>
      rw [List.filterMap_cons_none h, ih]
      by_cases hP : P
      · rw [if_pos hP, if_pos hP, if_neg fun hc => hnone o h ⟨hc, hP⟩]
      · rw [if_neg hP, if_neg hP]
    | some p =>
      obtain ⟨hcov, hptr⟩ := hsome o p h
      rw [List.filterMap_cons_some h, lookup_cons, ih]
      by_cases hP : P <;> by_cases hc : Covers o x
      · rw [if_pos (hcov.2 ⟨hc, hP⟩), if_pos hP, if_pos hc, hptr]
      · rw [if_neg fun h' => hc (hcov.1 h').1, if_pos hP, if_pos hP, if_neg hc]
      · rw [if_neg fun h' => hP (hcov.1 h').2, if_neg hP, if_neg hP]
      · rw [if_neg fun h' => hP (hcov.1 h').2, if_neg hP, if_neg hP]

theorem lookup_filterMap_leftPiece (l : List SegTreeNode) (s x : Word) :
    lookup (l.filterMap (leftPiece s)) x = if x < s then lookup l x else none := by
  refine lookup_filterMap (fun o p h => ⟨covers_leftPiece h, ?_⟩) (fun o h => ?_) l
  · obtain ⟨-, rfl⟩ := leftPiece_eq_some.1 h; rfl
  · unfold leftPiece at h; unfold Covers; split at h <;> simp_all; bv_omega

theorem lookup_filterMap_rightPiece (l : List SegTreeNode) (e x : Word) :
    lookup (l.filterMap (rightPiece e)) x = if e < x then lookup l x else none := by
  refine lookup_filterMap (fun o p h => ⟨covers_rightPiece h, ?_⟩) (fun o h => ?_) l
  · obtain ⟨-, rfl⟩ := rightPiece_eq_some.1 h; exact ptr_shift ..
  · unfold rightPiece at h; unfold Covers; split at h <;> simp_all; bv_omega

/-- The splice maps `n`'s offsets through `n` and every other offset as `l` does. -/
theorem lookup_splice (l : List SegTreeNode) {n : SegTreeNode} (hn : n.start ≤ n.«end»)
    (x : Word) :
    lookup (splice l n) x =
      if Covers n x then some (n.ptr + (x - n.start)) else lookup l x := by
  rw [splice, lookup_append, lookup_cons, lookup_filterMap_leftPiece,
    lookup_filterMap_rightPiece]
  unfold Covers
  by_cases h1 : x < n.start
  · have : ¬ n.«end» < x := by bv_omega
    simp [h1, this, show ¬ (n.start ≤ x ∧ x ≤ n.«end») by bv_omega]
  · by_cases h2 : n.«end» < x
    · simp [h1, h2, show ¬ (n.start ≤ x ∧ x ≤ n.«end») by bv_omega]
    · simp [h1, h2, show n.start ≤ x ∧ x ≤ n.«end» by bv_omega]

/-! ## The splice is a valid sequence -/

theorem valid_filterMap_leftPiece {l : List SegTreeNode} (hv : Valid l) (s : Word) :
    Valid (l.filterMap (leftPiece s)) := by
  refine ⟨fun p hp => ?_, ?_⟩
  · obtain ⟨o, ho, h⟩ := List.mem_filterMap.1 hp
    exact leftPiece_wf (hv.wf o ho) h
  · refine List.pairwise_filterMap.2 (hv.sorted.imp fun {a b} hab p hp q hq => ?_)
    have := leftPiece_within hp; have := leftPiece_within hq
    unfold Before at *; bv_omega

theorem valid_filterMap_rightPiece {l : List SegTreeNode} (hv : Valid l) (e : Word) :
    Valid (l.filterMap (rightPiece e)) := by
  refine ⟨fun p hp => ?_, ?_⟩
  · obtain ⟨o, ho, h⟩ := List.mem_filterMap.1 hp
    exact rightPiece_wf (hv.wf o ho) h
  · refine List.pairwise_filterMap.2 (hv.sorted.imp fun {a b} hab p hp q hq => ?_)
    have := rightPiece_within hp; have := rightPiece_within hq
    unfold Before at *; bv_omega

theorem valid_splice {l : List SegTreeNode} (hv : Valid l) {n : SegTreeNode}
    (hn : n.start ≤ n.«end») : Valid (splice l n) := by
  have hl : ∀ p ∈ l.filterMap (leftPiece n.start), Before p n := fun p hp => by
    obtain ⟨o, -, h⟩ := List.mem_filterMap.1 hp
    exact leftPiece_before h
  have hr : ∀ q ∈ l.filterMap (rightPiece n.«end»), Before n q := fun q hq => by
    obtain ⟨o, -, h⟩ := List.mem_filterMap.1 hq
    exact rightPiece_after h
  refine Valid.append_iff.2 ⟨valid_filterMap_leftPiece hv _,
    Valid.cons_iff.2 ⟨hn, hr, valid_filterMap_rightPiece hv _⟩, fun p hp q hq => ?_⟩
  rcases List.mem_cons.1 hq with rfl | hq
  · exact hl p hp
  · exact before_trans hn (hl p hp) (hr q hq)

/-! ## Splicing a segment that overlaps nothing -/

section Disjoint

variable {n : SegTreeNode} (hn : n.start ≤ n.«end»)

include hn in
theorem filterMap_leftPiece_of_disjoint {l : List SegTreeNode}
    (hl : ∀ a ∈ l, a.start ≤ a.«end» ∧ ¬ Overlaps a n) :
    l.filterMap (leftPiece n.start) = l.filter fun a => decide (Before a n) := by
  induction l with
  | nil => rfl
  | cons a l ih =>
    obtain ⟨ha, hno⟩ := hl a (by simp)
    have ih := ih fun b hb => hl b (by simp [hb])
    rcases before_or_overlaps_or_after a n with hb | ho | hb
    · rw [List.filterMap_cons_some (leftPiece_of_before ha hb),
        List.filter_cons_of_pos (by simpa using hb), ih]
    · exact absurd ho hno
    · unfold Before at hb
      rw [List.filterMap_cons_none (leftPiece_of_ge (by bv_omega)),
        List.filter_cons_of_neg (by simp only [decide_eq_true_eq, Before]; bv_omega), ih]

include hn in
theorem filterMap_rightPiece_of_disjoint {l : List SegTreeNode}
    (hl : ∀ a ∈ l, a.start ≤ a.«end» ∧ ¬ Overlaps a n) :
    l.filterMap (rightPiece n.«end») = l.filter fun a => decide (Before n a) := by
  induction l with
  | nil => rfl
  | cons a l ih =>
    obtain ⟨ha, hno⟩ := hl a (by simp)
    have ih := ih fun b hb => hl b (by simp [hb])
    rcases before_or_overlaps_or_after a n with hb | ho | hb
    · unfold Before at hb
      rw [List.filterMap_cons_none (rightPiece_of_le (by bv_omega)),
        List.filter_cons_of_neg (by simp only [decide_eq_true_eq, Before]; bv_omega), ih]
    · exact absurd ho hno
    · rw [List.filterMap_cons_some (rightPiece_of_after hb ha),
        List.filter_cons_of_pos (by simpa using hb), ih]

include hn in
/-- Splicing a segment that overlaps nothing puts it between the segments before it and the
segments after it. -/
theorem splice_of_disjoint {l : List SegTreeNode}
    (hl : ∀ a ∈ l, a.start ≤ a.«end» ∧ ¬ Overlaps a n) :
    splice l n = l.filter (fun a => decide (Before a n)) ++
      n :: l.filter fun a => decide (Before n a) := by
  rw [splice, filterMap_leftPiece_of_disjoint hn hl, filterMap_rightPiece_of_disjoint hn hl]

include hn in
theorem length_splice_of_disjoint {l : List SegTreeNode}
    (hl : ∀ a ∈ l, a.start ≤ a.«end» ∧ ¬ Overlaps a n) : (splice l n).length = l.length + 1 := by
  have hc : l.filter (fun a => decide (Before n a)) = l.filter fun a => !decide (Before a n) :=
    List.filter_congr fun a ha => by
      obtain ⟨hwa, hno⟩ := hl a ha
      rcases before_or_overlaps_or_after a n with hb | ho | hb
      · simp [hb, not_before_of_before hwa hn hb]
      · exact absurd ho hno
      · simp [hb, not_before_of_before hn hwa hb]
  have := List.length_eq_length_filter_add (l := l) fun a => decide (Before a n)
  rw [splice_of_disjoint hn hl, List.length_append, List.length_cons, hc]
  omega

end Disjoint

/-! ## Which segments a splice holds -/

/-- The segments of a splice, as `seg_tree_add`'s four cases: old segments disjoint from `n`,
left remainders, right remainders, and `n` itself. -/
theorem mem_splice_iff {l : List SegTreeNode} (hl : ∀ a ∈ l, a.start ≤ a.«end»)
    {n : SegTreeNode} (hn : n.start ≤ n.«end») {x : SegTreeNode} :
    x ∈ splice l n ↔
      (x ∈ l ∧ (x.«end» < n.start ∨ n.«end» < x.start)) ∨
      (∃ o ∈ l, o.start < n.start ∧ n.start ≤ o.«end» ∧ x = ⟨o.start, n.start - 1, o.ptr⟩) ∨
      (∃ o ∈ l, o.start ≤ n.«end» ∧ n.«end» < o.«end» ∧
        x = ⟨n.«end» + 1, o.«end», o.ptr + (n.«end» + 1 - o.start)⟩) ∨
      x = n := by
  simp only [splice, List.mem_append, List.mem_cons, List.mem_filterMap, leftPiece_eq_some,
    rightPiece_eq_some]
  constructor
  · rintro ((⟨o, ho, hs, rfl⟩ | rfl | ⟨o, ho, he, rfl⟩))
    · by_cases hoe : o.«end» < n.start
      · have hm : MIN o.«end» (n.start - 1) = o.«end» := MIN_eq_left (by bv_omega)
        exact .inl ⟨by rwa [hm], .inl (by simp only [hm]; exact hoe)⟩
      · exact .inr (.inl ⟨o, ho, hs, by bv_omega, by rw [MIN_eq_right (by bv_omega)]⟩)
    · exact .inr (.inr (.inr rfl))
    · by_cases hos : n.«end» < o.start
      · refine .inl ⟨?_, .inr (by simp only; rw [MAX_eq_left (by bv_omega)]; exact hos)⟩
        rwa [MAX_eq_left (by bv_omega), BitVec.sub_self, BitVec.add_zero]
      · exact .inr (.inr (.inl ⟨o, ho, by bv_omega, he, by rw [MAX_eq_right (by bv_omega)]⟩))
  · rintro ((⟨hx, hxs | hxe⟩ | ⟨o, ho, hs, hse, rfl⟩ | ⟨o, ho, hoe, he, rfl⟩ | rfl))
    · have := hl x hx
      exact .inl ⟨x, hx, by bv_omega, by rw [MIN_eq_left (by bv_omega)]⟩
    · have := hl x hx
      refine .inr (.inr ⟨x, hx, by bv_omega, ?_⟩)
      rw [MAX_eq_left (by bv_omega), BitVec.sub_self, BitVec.add_zero]
    · exact .inl ⟨o, ho, hs, by rw [MIN_eq_right (by bv_omega)]⟩
    · exact .inr (.inr ⟨o, ho, he, by rw [MAX_eq_right (by bv_omega)]⟩)
    · exact .inr (.inl rfl)

/-! ## Splicing two disjoint segments commutes -/

section Comm

variable {s₁ s₂ e₁ e₂ : Word}

end Comm


end UnifyCR
