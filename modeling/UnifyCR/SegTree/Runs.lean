import UnifyCR.SegTree.Calls

/-!
# Runs of the segment tree

`Reachable rb ok` holds of the trees a run of `seg_tree_init`, `seg_tree_add` and
`seg_tree_clear` reaches when the allocation outcomes of every `seg_tree_add` satisfy `ok`:
`fun _ => True` for any pattern of `calloc` failures, `AllocsSucceed` for none.

Every reachable tree is valid, failures included (`Reachable.valid`). Without failures the
tree is also unlocked and `max` is the largest end (`Reachable.sound`), so every add splices
and every clear empties the tree.

With failures, an `ENOMEM` from inside `seg_tree_add`'s loop leaves a valid, partly coalesced
tree that is still write-locked (`add_enomem_partial`), and a later `seg_tree_clear` stops at the
lock. On every reachable tree that is not write-locked, `seg_tree_clear` leaves exactly the state
of `seg_tree_init` (`reachable_unlocked_clear_resets`).
-/

namespace UnifyCR

/-- The trees that runs of `seg_tree_init`, `seg_tree_add` and `seg_tree_clear` reach, with
allocation outcomes allowed by `ok`. -/
inductive Reachable (rb : Rebalance) (ok : List Bool → Prop) : SegTree → Prop
  | init : Reachable rb ok segTreeInit
  | add {t t' : SegTree} {start «end» ptr : Word} {allocs : List Bool} {rc : Nat} :
      Reachable rb ok t → start ≤ «end» → ok allocs →
      segTreeAdd rb t start «end» ptr allocs = .ok (rc, t') → Reachable rb ok t'
  | clear {t t' : SegTree} : Reachable rb ok t → segTreeClear rb t = .ok t' → Reachable rb ok t'

/-! ## The largest end -/

/-- `max` is the largest end of the segments, or `0` for none. -/
structure MaxEnd (l : List SegTreeNode) (m : Word) : Prop where
  le : ∀ a ∈ l, a.«end» ≤ m
  attained : l = [] ∧ m = 0 ∨ ∃ a ∈ l, a.«end» = m

section MaxEnd

variable {l : List SegTreeNode} {m : Word} {n : SegTreeNode}

theorem MaxEnd.nil : MaxEnd [] 0 := ⟨by simp, .inl ⟨rfl, rfl⟩⟩

/-- The splice with `n` raises the largest end to `MAX m n.end`. -/
theorem MaxEnd.splice (h : MaxEnd l m) (hl : ∀ a ∈ l, a.start ≤ a.«end»)
    (hn : n.start ≤ n.«end») : MaxEnd (splice l n) (MAX m n.«end») := by
  refine ⟨fun a ha => ?_, .inr ?_⟩
  · have := le_MAX_left m n.«end»
    rcases (mem_splice_iff hl hn).1 ha with ⟨ha, -⟩ | ⟨o, ho, hs, hs', rfl⟩ | ⟨o, ho, -, -, rfl⟩ | rfl
    · have := h.le a ha; bv_omega
    · have := h.le o ho; simp only; bv_omega
    · have := h.le o ho; simp only; bv_omega
    · exact le_MAX_right _ _
  by_cases hm : m ≤ n.«end»
  · exact ⟨n, (mem_splice_iff hl hn).2 (.inr (.inr (.inr rfl))), (MAX_eq_right hm).symm⟩
  rw [MAX_eq_left (by bv_omega)]
  rcases h.attained with ⟨-, rfl⟩ | ⟨o, ho, rfl⟩
  · exact absurd (by bv_omega) hm
  by_cases hd : o.«end» < n.start ∨ n.«end» < o.start
  · exact ⟨o, (mem_splice_iff hl hn).2 (.inl ⟨ho, hd⟩), rfl⟩
  · exact ⟨_, (mem_splice_iff hl hn).2 (.inr (.inr (.inl ⟨o, ho, by bv_omega, by bv_omega, rfl⟩))),
      rfl⟩

end MaxEnd

theorem BelowTop.splice {l : List SegTreeNode} {n : SegTreeNode} (h : BelowTop l)
    (hl : ∀ a ∈ l, a.start ≤ a.«end») (hn : n.start ≤ n.«end») (he : n.«end» + 1 ≠ 0) :
    BelowTop (splice l n) := by
  intro a ha
  rcases (mem_splice_iff hl hn).1 ha with ⟨ha, -⟩ | ⟨o, -, hs, -, rfl⟩ | ⟨o, ho, -, -, rfl⟩ | rfl
  · exact h a ha
  · simp only; bv_omega
  · exact h o ho
  · exact he

/-! ## Invariants of runs -/

section Invariants

variable {rb : Rebalance} {ok : List Bool → Prop} {t : SegTree}

/-- Every reachable tree is valid, whatever the allocations did. -/
theorem Reachable.valid (ht : Reachable rb ok t) : Valid t.segments := by
  induction ht with
  | init => exact Valid.nil
  | @add t t' start «end» ptr allocs rc _ hse _ h ih =>
    rcases segTreeAdd_cases rb ptr allocs ih hse with
      ⟨-, h'⟩ | ⟨-, -, h'⟩ | ⟨-, -, ⟨head, count, h', hs, -⟩ | ⟨-, ⟨head, count, h', hc⟩ | h'⟩⟩
    all_goals rw [h'] at h; cases h
    · exact ih
    · show Valid head.toList; rw [hs]; exact valid_splice ih hse
    · exact hc.valid
  | @clear t t' _ h ih =>
    cases hl : t.wrlocked
    · obtain ⟨t'', h', hs, -⟩ := segTreeClear_eq rb ih hl
      rw [h'] at h; cases h
      rw [hs]; exact Valid.nil
    · rw [segTreeClear_of_locked rb hl] at h; cases h

/-- What holds of every tree of a run without allocation failures. -/
structure Sound (t : SegTree) : Prop where
  valid : Valid t.segments
  unlocked : t.wrlocked = false
  maxEnd : MaxEnd t.segments t.max

theorem Reachable.sound (ht : Reachable rb AllocsSucceed t) : Sound t := by
  induction ht with
  | init => exact ⟨Valid.nil, rfl, MaxEnd.nil⟩
  | @add t t' start «end» ptr allocs rc _ hse ha h ih =>
    obtain ⟨head, count, h', hs, -⟩ := segTreeAdd_of_allocsSucceed rb ptr allocs ih.valid hse
      ih.unlocked ha
    rw [h'] at h; cases h
    refine ⟨?_, rfl, ?_⟩ <;> rw [SegTree.segments_mk, hs]
    exacts [valid_splice ih.valid hse, ih.maxEnd.splice ih.valid.wf hse]
  | @clear t t' _ h ih =>
    obtain ⟨t'', h', hs, hl, rfl | ⟨-, hm⟩⟩ := segTreeClear_eq rb ih.valid ih.unlocked
    all_goals rw [h'] at h; cases h
    · exact ih
    · exact ⟨by rw [hs]; exact Valid.nil, hl, by rw [hs, hm]; exact MaxEnd.nil⟩

/-- An unlocked reachable tree without segments has `count` and `max` at `0`: only
`seg_tree_init` and `seg_tree_clear` leave a tree empty. -/
theorem Reachable.empty_reset (ht : Reachable rb ok t) :
    t.wrlocked = false → t.segments = [] → t.count = 0 ∧ t.max = 0 := by
  induction ht with
  | init => exact fun _ _ => ⟨rfl, rfl⟩
  | @add t t' start «end» ptr allocs rc ht hse _ h ih =>
    rcases segTreeAdd_cases rb ptr allocs ht.valid hse with
      ⟨-, h'⟩ | ⟨-, -, h'⟩ | ⟨-, -, ⟨head, count, h', hs, -⟩ | ⟨-, ⟨head, count, h', -⟩ | h'⟩⟩
    all_goals rw [h'] at h; cases h
    · exact ih
    · -- the tree now holds the new segment
      intro _ he
      rw [SegTree.segments_mk, hs] at he
      exact absurd ((mem_splice_iff ht.valid.wf hse).2 (.inr (.inr (.inr rfl)))) (he ▸ List.not_mem_nil _)
    · exact fun hl => nomatch hl
  | @clear t t' ht h ih =>
    cases hl : t.wrlocked
    · obtain ⟨t'', h', -, -, rfl | hc⟩ := segTreeClear_eq rb ht.valid hl
      all_goals rw [h'] at h; cases h
      exacts [ih, fun _ _ => hc]
    · rw [segTreeClear_of_locked rb hl] at h; cases h

/-- The tree `seg_tree_add(0, 9, 100)` builds from an empty tree. -/
def oneSegment : SegTree := ⟨.node .leaf ⟨0, 9, 100⟩ .leaf, 1, 9, false⟩

theorem reachable_oneSegment (ok : List Bool → Prop) (h : ok []) :
    Reachable Rebalance.none ok oneSegment :=
  .add .init (by decide) h rfl

/-- The tree `seg_tree_add(20, 29, 300)` and `seg_tree_add(40, 49, 500)` build on `oneSegment`;
without rebalancing each new segment hangs to the right. -/
def threeSegments : SegTree :=
  ⟨.node .leaf ⟨0, 9, 100⟩ (.node .leaf ⟨20, 29, 300⟩ (.node .leaf ⟨40, 49, 500⟩ .leaf)), 3, 49,
    false⟩

theorem reachable_threeSegments (ok : List Bool → Prop) (h : ok []) :
    Reachable Rebalance.none ok threeSegments :=
  .add (.add (reachable_oneSegment ok h) (by decide) h
      (rfl : segTreeAdd Rebalance.none oneSegment 20 29 300 [] = _)) (by decide) h
    (rfl : segTreeAdd Rebalance.none _ 40 49 500 [] = _)

end Invariants

/-! ## What runs do to the tree -/

section Contract

variable {rb : Rebalance} {t : SegTree}

/-- Without allocation failures, `seg_tree_add(s, e, p)` replaces the segments by their splice
with `[s, e, p]`, which maps `[s, e]` to `p + (x - s)` and keeps the map elsewhere, and
`seg_tree_clear` empties the map. -/
theorem reachable_add_splices_clear_empties (ht : Reachable rb AllocsSucceed t) :
    (∀ start «end» ptr allocs, start ≤ «end» → AllocsSucceed allocs →
      ∃ t', segTreeAdd rb t start «end» ptr allocs = .ok (0, t') ∧
        (∀ x, x ∈ t'.segments ↔
          (x ∈ t.segments ∧ (x.«end» < start ∨ «end» < x.start)) ∨
          (∃ o ∈ t.segments, o.start < start ∧ start ≤ o.«end» ∧ x = ⟨o.start, start - 1, o.ptr⟩) ∨
          (∃ o ∈ t.segments, o.start ≤ «end» ∧ «end» < o.«end» ∧
            x = ⟨«end» + 1, o.«end», o.ptr + («end» + 1 - o.start)⟩) ∨
          x = ⟨start, «end», ptr⟩) ∧
        ∀ x, lookup t'.segments x =
          if start ≤ x ∧ x ≤ «end» then some (ptr + (x - start)) else lookup t.segments x) ∧
    ∃ t', segTreeClear rb t = .ok t' ∧ ∀ x, lookup t'.segments x = none := by
  have hs := ht.sound
  refine ⟨fun start «end» ptr allocs hse ha => ?_, ?_⟩
  · obtain ⟨head, count, h, hsp, -⟩ :=
      segTreeAdd_of_allocsSucceed rb ptr allocs hs.valid hse hs.unlocked ha
    refine ⟨_, h, fun x => ?_, fun x => ?_⟩ <;> rw [SegTree.segments_mk, hsp]
    · exact mem_splice_iff hs.valid.wf hse
    · exact lookup_splice _ hse x
  · obtain ⟨t', h, hsg, -⟩ := segTreeClear_eq rb hs.valid hs.unlocked
    exact ⟨t', h, fun x => by rw [hsg]; rfl⟩

theorem reachable_add_splices_clear_empties_one_segment :
    ∃ t', segTreeAdd Rebalance.none oneSegment 5 7 200 [] = .ok (0, t') ∧
      lookup t'.segments 6 = some 201 ∧ lookup t'.segments 8 = some 108 := by
  obtain ⟨t', h, -, hl⟩ := (reachable_add_splices_clear_empties
    (reachable_oneSegment AllocsSucceed allocsSucceed_nil)).1 5 7 200 [] (by decide)
    allocsSucceed_nil
  exact ⟨t', h, by rw [hl]; decide, by rw [hl]; decide⟩

/-- Every reachable tree, allocation failures included, holds well-formed, pairwise disjoint
segments in strictly increasing order of `compare_func`. -/
theorem reachable_segments_ordered {ok : List Bool → Prop} (ht : Reachable rb ok t) :
    (∀ a ∈ t.segments, a.start ≤ a.«end») ∧
    (∀ a ∈ t.segments, ∀ b ∈ t.segments, a ≠ b → a.«end» < b.start ∨ b.«end» < a.start) ∧
    t.segments.Pairwise (fun a b => a.start < b.start ∧ compareFunc a b = .lt) := by
  have hv := ht.valid
  refine ⟨hv.wf, fun a ha b hb hne => ?_, hv.sorted.imp_of_mem fun ha hb h => ⟨?_, ?_⟩⟩
  · rcases before_or_overlaps_or_after a b with h | h | h
    · exact .inl h
    · exact absurd (hv.eq_of_overlaps ha hb h) hne
    · exact .inr h
  · have := hv.wf _ ha; unfold Before at h; bv_omega
  · exact (compareFunc_lt_iff (hv.wf _ ha) (hv.wf _ hb)).2 h

theorem reachable_segments_ordered_three_segments :
    (∀ a ∈ threeSegments.segments, a.start ≤ a.«end») ∧
    (∀ a ∈ threeSegments.segments, ∀ b ∈ threeSegments.segments, a ≠ b →
      a.«end» < b.start ∨ b.«end» < a.start) ∧
    threeSegments.segments.Pairwise (fun a b => a.start < b.start ∧ compareFunc a b = .lt) :=
  reachable_segments_ordered (reachable_threeSegments (fun _ => True) trivial)

/-- Without allocation failures, `seg_tree_max` returns the largest end, or `0` for an empty
tree. -/
theorem reachable_max_is_largest_end (ht : Reachable rb AllocsSucceed t) :
    ∃ m, segTreeMax t = .ok m ∧ (∀ a ∈ t.segments, a.«end» ≤ m) ∧
      (t.segments = [] ∧ m = 0 ∨ ∃ a ∈ t.segments, a.«end» = m) :=
  ⟨t.max, segTreeMax_of_unlocked ht.sound.unlocked, ht.sound.maxEnd.le, ht.sound.maxEnd.attained⟩

theorem reachable_max_is_largest_end_three_segments :
    ∃ m, segTreeMax threeSegments = .ok m ∧ (∀ a ∈ threeSegments.segments, a.«end» ≤ m) ∧
      (threeSegments.segments = [] ∧ m = 0 ∨ ∃ a ∈ threeSegments.segments, a.«end» = m) :=
  reachable_max_is_largest_end (reachable_threeSegments AllocsSucceed allocsSucceed_nil)

/-- A failed allocation on the second pass of `seg_tree_add(5, 7, 200)` over `oneSegment`: the
first pass has split `[0, 9]` in two, and the call returns `ENOMEM` with the split tree,
`count = 2` and the lock still held. -/
theorem add_enomem_holds_lock :
    Reachable Rebalance.none (fun _ => True) oneSegment ∧
    segTreeAdd Rebalance.none oneSegment 5 7 200 [true, true, true, false] =
      .ok (ENOMEM, ⟨.node .leaf ⟨0, 4, 100⟩ (.node .leaf ⟨5, 9, 105⟩ .leaf), 2, 9, true⟩) :=
  ⟨reachable_oneSegment _ trivial, rfl⟩

/-- `ENOMEM` from `seg_tree_add` on a reachable tree: either the new node could not be allocated
and nothing changed, or the loop stopped part way, keeping `max`, a valid tree with the same
splice and a part of the old offset map, and the lock held. -/
theorem add_enomem_partial {ok : List Bool → Prop} (ht : Reachable rb ok t)
    {start «end» ptr : Word} {allocs : List Bool} {t' : SegTree} (hse : start ≤ «end»)
    (h : segTreeAdd rb t start «end» ptr allocs = .ok (ENOMEM, t')) :
    (allocs.headD true = false ∧ t' = t) ∨
    (t.wrlocked = false ∧ t'.wrlocked = true ∧ t'.max = t.max ∧
      PartlyCoalesced ⟨start, «end», ptr⟩ t.segments t'.segments) := by
  rcases segTreeAdd_cases rb ptr allocs ht.valid hse with
    ⟨h1, h'⟩ | ⟨-, -, h'⟩ | ⟨-, hl, ⟨_, _, h', -⟩ | ⟨-, ⟨_, _, h', hc⟩ | h'⟩⟩
  all_goals rw [h'] at h
  · cases h; exact .inl ⟨h1, rfl⟩
  · cases h
  · simp [ENOMEM] at h
  · cases h; exact .inr ⟨hl, rfl, rfl, hc⟩
  · cases h

theorem add_enomem_partial_one_segment :
    ([true, true, true, false].headD true = false ∧
      (⟨.node .leaf ⟨0, 4, 100⟩ (.node .leaf ⟨5, 9, 105⟩ .leaf), 2, 9, true⟩ : SegTree) = oneSegment) ∨
    (oneSegment.wrlocked = false ∧ true = true ∧ (9 : Word) = oneSegment.max ∧
      PartlyCoalesced ⟨5, 7, 200⟩ oneSegment.segments [⟨0, 4, 100⟩, ⟨5, 9, 105⟩]) :=
  add_enomem_partial (reachable_oneSegment (fun _ => True) trivial) (by decide)
    (rfl : segTreeAdd Rebalance.none oneSegment 5 7 200 [true, true, true, false] = _)

/-- `seg_tree_clear` on a reachable tree that is not write-locked ends and leaves exactly the
state `seg_tree_init` leaves: no segment, `count` and `max` at `0`, the lock free. -/
theorem reachable_unlocked_clear_resets {ok : List Bool → Prop} (ht : Reachable rb ok t)
    (hl : t.wrlocked = false) : segTreeClear rb t = .ok segTreeInit := by
  obtain ⟨⟨head, count, max, wrlocked⟩, h, hs, hl', hreset⟩ := segTreeClear_eq rb ht.valid hl
  have hc : count = 0 ∧ max = 0 := by
    rcases hreset with heq | hc
    · rw [← heq] at ht hl; exact ht.empty_reset hl hs
    · exact hc
  obtain ⟨rfl, rfl⟩ := hc
  cases hl'
  rw [SegTree.segments_mk] at hs
  rwa [Inttree.eq_leaf_of_toList_eq_nil hs] at h

theorem reachable_unlocked_clear_resets_three_segments :
    segTreeClear Rebalance.none threeSegments = .ok segTreeInit :=
  reachable_unlocked_clear_resets (reachable_threeSegments (fun _ => True) trivial) rfl

/-- The tree that a failed allocation on the second pass of `seg_tree_add(5, 7, 200)` leaves is
reachable and write-locked, and `seg_tree_clear` on it stops at the lock. -/
theorem clear_stops_at_lock_after_enomem :
    Reachable Rebalance.none (fun _ => True)
      ⟨.node .leaf ⟨0, 4, 100⟩ (.node .leaf ⟨5, 9, 105⟩ .leaf), 2, 9, true⟩ ∧
    segTreeClear Rebalance.none ⟨.node .leaf ⟨0, 4, 100⟩ (.node .leaf ⟨5, 9, 105⟩ .leaf), 2, 9, true⟩ =
      .error .relock :=
  ⟨.add (reachable_oneSegment _ trivial) (by decide) trivial
    (rfl : segTreeAdd Rebalance.none oneSegment 5 7 200 [true, true, true, false] = _), rfl⟩

/-- Away from the top of the offset range `count` is right: on a reachable tree of a run without
allocation failures where `count` is the number of segments and none ends at `2^64 - 1`, every
`seg_tree_add` ending below `2^64 - 1` and every `seg_tree_clear` keep it so. -/
theorem count_eq_length_preserved (ht : Reachable rb AllocsSucceed t) (hb : BelowTop t.segments)
    (hc : t.count = BitVec.ofNat 64 t.segments.length) :
    (∀ start «end» ptr allocs, start ≤ «end» → «end» + 1 ≠ 0 → AllocsSucceed allocs →
      ∃ t', segTreeAdd rb t start «end» ptr allocs = .ok (0, t') ∧
        t'.count = BitVec.ofNat 64 t'.segments.length ∧ BelowTop t'.segments) ∧
    ∃ t', segTreeClear rb t = .ok t' ∧ t'.count = BitVec.ofNat 64 t'.segments.length ∧
      BelowTop t'.segments := by
  have hs := ht.sound
  refine ⟨fun start «end» ptr allocs hse he ha => ?_, ?_⟩
  · obtain ⟨head, count, h, hsp, hcnt⟩ :=
      segTreeAdd_of_allocsSucceed rb ptr allocs hs.valid hse hs.unlocked ha
    refine ⟨_, h, hcnt hb hc, ?_⟩
    rw [SegTree.segments_mk, hsp]
    exact hb.splice hs.valid.wf hse he
  · obtain ⟨t', h, hsg, -, rfl | ⟨hcount, -⟩⟩ := segTreeClear_eq rb hs.valid hs.unlocked
    · exact ⟨_, h, hc, hb⟩
    · exact ⟨t', h, by rw [hcount, hsg]; rfl, by rw [hsg]; nofun⟩

theorem count_eq_length_preserved_one_segment :
    (∀ start «end» ptr allocs, start ≤ «end» → «end» + 1 ≠ 0 → AllocsSucceed allocs →
      ∃ t', segTreeAdd Rebalance.none oneSegment start «end» ptr allocs = .ok (0, t') ∧
        t'.count = BitVec.ofNat 64 t'.segments.length ∧ BelowTop t'.segments) ∧
    ∃ t', segTreeClear Rebalance.none oneSegment = .ok t' ∧
      t'.count = BitVec.ofNat 64 t'.segments.length ∧ BelowTop t'.segments :=
  count_eq_length_preserved (reachable_oneSegment AllocsSucceed allocsSucceed_nil)
    (by simp [BelowTop, oneSegment, SegTree.segments]) rfl

/-- With the whole offset range allowed, `count` and the number of segments part: adding
`[0, 0]` to `[0, 2^64 - 1]` wraps `resized->end + 1` to `0`, and `count` is incremented for a
`remaining` node that `RB_INSERT` does not link. -/
theorem segTreeCount_after_wrap :
    ∃ t, Reachable Rebalance.none AllocsSucceed t ∧ segTreeCount t = .ok 3 ∧
      t.segments.length = 2 :=
  ⟨⟨.node (.node .leaf ⟨0, 0, 5⟩ .leaf) ⟨1, BitVec.allOnes 64, 1⟩ .leaf, 3, BitVec.allOnes 64, false⟩,
    .add (.add .init (by decide) allocsSucceed_nil
      (rfl : segTreeAdd Rebalance.none segTreeInit 0 (BitVec.allOnes 64) 0 [] = _)) (by decide)
      allocsSucceed_nil (rfl : segTreeAdd Rebalance.none _ 0 0 5 [] = _), rfl, rfl⟩

end Contract

end UnifyCR
