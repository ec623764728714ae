import UnifyCR.SegTree.Runs

/-!
# The coalescing loop of `seg_tree_add` on reachable trees

* **Termination and its bound.** Every pass that goes round again lowers the measure
  `overlapWeight` (`2` for the segment meeting `[start, end]` that starts before `start`, `1` for
  every other segment meeting it). In a valid tree at most one segment starts before `start` and
  meets the range, so the measure is at most `k + 1` for the `k` segments meeting it, and with
  every allocation granted the loop links the new segment within `k + 2` passes: `k + 1` runs
  of its body and the final `RB_INSERT` (`add_loop_passes_bounded`).
* **A failed allocation of `remaining`.** The split branch tests `resized` where it means
  `remaining`, so a failed allocation of `remaining` goes on to `RB_INSERT(NULL)`
  (`add_remaining_alloc_fails_inserts_null`).
* **The ends of the offset range.** The test for a remaining part holds exactly when
  `overlap->start < start`, or when `overlap` is `[0, 2^64 - 1]` and `resized->end + 1` wraps to
  `0` (`split_test_iff_or_wraps`); then `RB_INSERT` of `remaining` finds `resized` and links
  nothing. A start of `2^63` makes `start2 - 1` leave the range of `long`
  (`split_arithmetic_at_range_ends`).
-/

namespace UnifyCR

variable {rb : Rebalance} {ok : List Bool → Prop} {t : SegTree}

/-! ## The measure and the number of passes -/

/-- Every pass of `seg_tree_add`'s loop that goes round again lowers the measure; on a reachable
tree the measure starts at most at `k + 1`, `k` being the number of segments meeting
`[start, end]`, and with every allocation granted the loop links the new segment within `k + 2`
passes, so its body runs at most `k + 1` times. -/
theorem add_loop_passes_bounded (ht : Reachable rb ok t) {start «end» ptr : Word}
    (hse : start ≤ «end») {allocs : List Bool} (ha : AllocsSucceed allocs) :
    (∀ s s', Valid s.head.toList → addPass rb ⟨start, «end», ptr⟩ s = .again s' →
      overlapWeight ⟨start, «end», ptr⟩ s'.head.toList <
        overlapWeight ⟨start, «end», ptr⟩ s.head.toList) ∧
    overlapWeight ⟨start, «end», ptr⟩ t.segments ≤
      (t.segments.countP fun a => Overlaps a ⟨start, «end», ptr⟩) + 1 ∧
    ∃ s', addLoop rb ⟨start, «end», ptr⟩
        ((t.segments.countP fun a => Overlaps a ⟨start, «end», ptr⟩) + 2)
        ⟨t.head, t.count, 0, 0, allocs.tail⟩ = .inserted s' ∧
      s'.head.toList = splice t.segments ⟨start, «end», ptr⟩ := by
  have hv := ht.valid
  have hk := overlapWeight_le_countP (n := ⟨start, «end», ptr⟩) hv
  refine ⟨fun s s' hs h => (addPass_again rb hs hse h).2, hk, ?_⟩
  rcases addLoop_cases rb (n := ⟨start, «end», ptr⟩) _ ⟨t.head, t.count, 0, 0, allocs.tail⟩ hv hse
      (Nat.lt_succ_of_le hk) with ⟨s', h, hs', -⟩ | ⟨hna, -⟩
  · exact ⟨s', h, hs'⟩
  · exact absurd ha.tail hna

theorem add_loop_passes_bounded_one_segment :
    (∀ s s', Valid s.head.toList → addPass Rebalance.none ⟨5, 7, 200⟩ s = .again s' →
      overlapWeight ⟨5, 7, 200⟩ s'.head.toList < overlapWeight ⟨5, 7, 200⟩ s.head.toList) ∧
    overlapWeight ⟨5, 7, 200⟩ oneSegment.segments ≤
      (oneSegment.segments.countP fun a => Overlaps a ⟨5, 7, 200⟩) + 1 ∧
    ∃ s', addLoop Rebalance.none ⟨5, 7, 200⟩
        ((oneSegment.segments.countP fun a => Overlaps a ⟨5, 7, 200⟩) + 2)
        ⟨oneSegment.head, oneSegment.count, 0, 0, ([] : List Bool).tail⟩ = .inserted s' ∧
      s'.head.toList = splice oneSegment.segments ⟨5, 7, 200⟩ :=
  add_loop_passes_bounded (reachable_oneSegment (fun _ => True) trivial) (by decide)
    allocsSucceed_nil

/-! ## A failed allocation of `remaining` -/

/-- On a valid, unlocked tree whose only segment meeting `[start, end]` starts before `start`,
a `seg_tree_add` whose node and `resized` allocations succeed and whose `remaining` allocation
fails reaches `RB_INSERT(NULL)` and never returns. -/
theorem add_remaining_alloc_fails_inserts_null (rb : Rebalance) (hv : Valid t.segments)
    (hl : t.wrlocked = false) {start «end» ptr : Word} (hse : start ≤ «end») {o : SegTreeNode}
    (ho : o ∈ t.segments) (hos : o.start < start) (hoe : start ≤ o.«end»)
    (hone : ∀ a ∈ t.segments, Overlaps a ⟨start, «end», ptr⟩ → a = o) (rest : List Bool) :
    segTreeAdd rb t start «end» ptr (true :: true :: false :: rest) = .error .nullInsert := by
  obtain ⟨x, hx, hov, hi⟩ := rbInsert_of_overlaps rb ⟨start, «end», ptr⟩ hv hse
    ⟨o, ho, by unfold Overlaps; simp only; bv_omega⟩
  obtain rfl := hone x hx (overlaps_comm.1 hov)
  rw [segTreeAdd, segTreeNodeAlloc_eq]
  simp only [List.headD_cons, if_true, List.tail_cons]
  rw [segTreeWrlock_of_unlocked hl]
  dsimp only [bind, Except.bind]
  rw [addLoop_succ_exit (addPass_split_remaining_fails rb
    (s := ⟨t.head, t.count, 0, 0, true :: false :: rest⟩) hi hos hoe rfl rfl)]

theorem add_remaining_alloc_fails_inserts_null_one_segment :
    segTreeAdd Rebalance.none oneSegment 5 7 200 [true, true, false] = .error .nullInsert :=
  add_remaining_alloc_fails_inserts_null Rebalance.none
    (reachable_oneSegment (fun _ => True) trivial).valid rfl (by decide) (o := ⟨0, 9, 100⟩)
    (by decide) (by decide) (by decide) (by decide) []

/-! ## The ends of the offset range -/

/-- For a segment `o` meeting `n` and not covered by it, the test for a remaining part after the
split holds exactly when `o` starts before `n`, or when `o` is `[0, 2^64 - 1]`, whose
`resized->end + 1` wraps to `0`. -/
theorem split_test_iff_or_wraps {o n : SegTreeNode} (hov : Overlaps n o)
    (hcov : ¬ (n.start ≤ o.start ∧ o.«end» ≤ n.«end»)) (newStart newEnd : Word) :
    ((getNonOverlappingRange o.start o.«end» n.start n.«end» newStart newEnd).2.2 + 1 ≥ o.start ∧
      (getNonOverlappingRange o.start o.«end» n.start n.«end» newStart newEnd).2.2 + 1 ≤
        o.«end») ↔
    o.start < n.start ∨ (o.start = 0 ∧ o.«end» + 1 = 0) := by
  unfold Overlaps at hov
  by_cases hs : o.start < n.start
  · rw [getNonOverlappingRange_left hs hov.1]
    simp only [sub_add_cancel, hs, true_or, iff_true]
    exact ⟨by bv_omega, hov.1⟩
  · rw [getNonOverlappingRange_right (by bv_omega) hov.2 (by bv_omega)]
    simp only [hs, false_or]
    bv_omega

theorem split_test_iff_or_wraps_whole_range :
    Overlaps ⟨0, 0, 5⟩ ⟨0, BitVec.allOnes 64, 0⟩ ∧
    ¬ ((0 : Word) ≤ 0 ∧ BitVec.allOnes 64 ≤ 0) ∧
    (((getNonOverlappingRange 0 (BitVec.allOnes 64) 0 0 0 0).2.2 + 1 ≥ 0 ∧
        (getNonOverlappingRange 0 (BitVec.allOnes 64) 0 0 0 0).2.2 + 1 ≤ BitVec.allOnes 64) ↔
      (0 : Word) < 0 ∨ ((0 : Word) = 0 ∧ BitVec.allOnes 64 + 1 = 0)) :=
  ⟨by decide, by decide,
    split_test_iff_or_wraps (o := ⟨0, BitVec.allOnes 64, 0⟩) (n := ⟨0, 0, 5⟩) (by decide)
      (by decide) 0 0⟩

/-- Two splits at the ends of the offset range. After `seg_tree_add(0, 2^64 - 1, 0)`, the add of
`[0, 0, 5]` cuts `resized = [1, 2^64 - 1]`; its `end + 1` wraps to `0`, the test for a remaining
part holds though `overlap->start < start` does not, and the `RB_INSERT` of
`remaining = [0, 2^64 - 1]` returns `resized` instead of linking it. After
`seg_tree_add(0, 2^63, 0)`, the add of `[2^63, 2^63, 0]` takes the branch `start1 < start2`,
whose `start2 - 1` is `LONG_MIN - 1`. -/
theorem split_arithmetic_at_range_ends :
    Reachable Rebalance.none AllocsSucceed
      ⟨.node .leaf ⟨0, BitVec.allOnes 64, 0⟩ .leaf, 1, BitVec.allOnes 64, false⟩ ∧
    getNonOverlappingRange 0 (BitVec.allOnes 64) 0 0 0 0 = (0, 1, BitVec.allOnes 64) ∧
    (BitVec.allOnes 64 + 1 ≥ (0 : Word) ∧ BitVec.allOnes 64 + 1 ≤ BitVec.allOnes 64) ∧
    ¬ (0 : Word) < 0 ∧
    (rbInsert Rebalance.none
        (rbInsert Rebalance.none
          (rbRemove Rebalance.none (.node .leaf ⟨0, BitVec.allOnes 64, 0⟩ .leaf)
            ⟨0, BitVec.allOnes 64, 0⟩) ⟨1, BitVec.allOnes 64, 0 + (1 - 0)⟩).1
        ⟨BitVec.allOnes 64 + 1, BitVec.allOnes 64, 0 + (BitVec.allOnes 64 + 1 - 0)⟩).2 =
      some ⟨1, BitVec.allOnes 64, 1⟩ ∧
    Reachable Rebalance.none AllocsSucceed
      ⟨.node .leaf ⟨0, 0x8000000000000000, 0⟩ .leaf, 1, 0x8000000000000000, false⟩ ∧
    (0 : Word) < 0x8000000000000000 ∧
    getNonOverlappingRange 0 0x8000000000000000 0x8000000000000000 0x8000000000000000 0 0 =
      (0, 0, 0x7fffffffffffffff) ∧
    toLong 0x8000000000000000 - 1 < -2 ^ 63 :=
  ⟨.add .init (by decide) allocsSucceed_nil
      (rfl : segTreeAdd Rebalance.none segTreeInit 0 (BitVec.allOnes 64) 0 [] = _),
    by decide, by decide, by decide, by decide,
    .add .init (by decide) allocsSucceed_nil
      (rfl : segTreeAdd Rebalance.none segTreeInit 0 0x8000000000000000 0 [] = _),
    by decide, by decide, by decide⟩

end UnifyCR
