import UnifyCR.SegTree.Runs

/-!
# Reading a reachable tree: `seg_tree_find_nolock` and the `seg_tree_iter` loop

Both read the in-order sequence of a reachable tree, which is valid whatever the allocations of
the run did (`Reachable.valid`):

* `seg_tree_find_nolock(start, end)` returns, of the segments meeting `[start, end]`, the one
  with the lowest start, and `NULL` exactly when none meets it
  (`reachable_find_lowest_start`). `RB_NFIND` of the one-byte probe `[start, start]` finds the
  first segment ending at or after `start`; the sequence being ordered, no segment before it
  meets the range, and if it starts past `end` no later one does.
* The loop `node = NULL; while ((node = seg_tree_iter(seg_tree, node)))` visits the segments in
  order, each once, and gets `NULL` at its `n + 1`-th call (`reachable_iter_visits_each_once`).
-/

namespace UnifyCR

variable {rb : Rebalance} {ok : List Bool → Prop} {t : SegTree}

/-! ## `seg_tree_find_nolock` -/

/-- The first segment of a valid sequence that ends at or after `start` starts no later than
any segment that ends at or after `start`. -/
theorem find?_end_ge_least {l : List SegTreeNode} (hv : Valid l) {start : Word}
    {x : SegTreeNode} (hx : (l.find? fun a => start ≤ a.«end») = some x) (b : SegTreeNode)
    (hb : b ∈ l) (hbe : start ≤ b.«end») :
    x.start ≤ b.start := by
  obtain ⟨-, A, B, rfl, hA⟩ := List.find?_eq_some.1 hx
  have hwx := hv.wf x (by simp)
  simp only [List.mem_append, List.mem_cons] at hb
  rcases hb with hb | rfl | hb
  · exact absurd hbe (by simpa using hA b hb)
  · exact BitVec.le_refl _
  · have := (Valid.cons_iff.1 (Valid.append_iff.1 hv).2.1).2.1 b hb
    unfold Before at this; bv_omega

/-- On a reachable tree, with the probe node allocated, `seg_tree_find_nolock(start, end)`
returns a segment meeting `[start, end]` whose start is the lowest of all segments meeting it,
and `NULL` exactly when no segment meets it; `start ≤ end` is not needed. -/
theorem reachable_find_lowest_start (ht : Reachable rb ok t) {start «end» : Word}
    {allocs : List Bool} (h1 : allocs.headD true = true) :
    (∀ a, segTreeFindNolock t start «end» allocs = some a →
      a ∈ t.segments ∧ a.start ≤ «end» ∧ start ≤ a.«end» ∧
        ∀ b ∈ t.segments, b.start ≤ «end» → start ≤ b.«end» → a.start ≤ b.start) ∧
    (segTreeFindNolock t start «end» allocs = none ↔
      ∀ b ∈ t.segments, ¬ (b.start ≤ «end» ∧ start ≤ b.«end»)) := by
  have hv := ht.valid
  rw [segTreeFindNolock_eq hv h1]
  cases hx : t.segments.find? fun a => start ≤ a.«end» with
  | none =>
    have hno := List.find?_eq_none.1 hx
    refine ⟨fun _ h => (by cases h), iff_of_true rfl fun b hb h => ?_⟩
    exact hno b hb (by simpa using h.2)
  | some x =>
    have hxl := List.mem_of_find?_eq_some hx
    have hxe : start ≤ x.«end» := by simpa using List.find?_some hx
    rw [Option.filter_some]
    by_cases hxs : x.start ≤ «end»
    · rw [if_pos (decide_eq_true hxs)]
      refine ⟨fun a ha => ?_, iff_of_false (by simp) fun h => h x hxl ⟨hxs, hxe⟩⟩
      cases ha
      exact ⟨hxl, hxs, hxe, fun b hb _ hbe => find?_end_ge_least hv hx b hb hbe⟩
    · rw [if_neg (by simpa using hxs)]
      refine ⟨fun _ h => (by cases h), iff_of_true rfl fun b hb hbe => hxs ?_⟩
      have := find?_end_ge_least hv hx b hb hbe.2
      bv_omega

/-- `[5, 20]` meets `[0, 9]` and `[20, 29]`: the answer starts at `0`. -/
theorem reachable_find_lowest_start_three_segments :
    (∀ a, segTreeFindNolock threeSegments 5 20 [] = some a →
      a ∈ threeSegments.segments ∧ a.start ≤ 20 ∧ 5 ≤ a.«end» ∧
        ∀ b ∈ threeSegments.segments, b.start ≤ 20 → 5 ≤ b.«end» → a.start ≤ b.start) ∧
    (segTreeFindNolock threeSegments 5 20 [] = none ↔
      ∀ b ∈ threeSegments.segments, ¬ (b.start ≤ 20 ∧ 5 ≤ b.«end»)) :=
  reachable_find_lowest_start (reachable_threeSegments (fun _ => True) trivial) rfl

/-! ## The `seg_tree_iter` loop -/

/-- On a reachable tree of `n` segments, the loop over `seg_tree_iter` from `NULL` visits every
segment once, in order, each starting after the one before it ends; it gets `NULL` at call
`n + 1`, so `n` calls are not enough and `n + 1` are. -/
theorem reachable_iter_visits_each_once (ht : Reachable rb ok t) :
    (∀ fuel, segTreeIterLoop t.head fuel none =
      if t.segments.length < fuel then some t.segments else none) ∧
    t.segments.Nodup ∧ t.segments.Chain' fun a b => a.«end» < b.start := by
  have hv := ht.valid
  refine ⟨segTreeIterLoop_none hv, ?_, hv.sorted.chain'⟩
  exact hv.sorted.imp_of_mem fun {a _} ha _ hab heq => by
    subst heq; exact not_before_self (hv.wf a ha) hab

theorem reachable_iter_visits_each_once_three_segments :
    (∀ fuel, segTreeIterLoop threeSegments.head fuel none =
      if threeSegments.segments.length < fuel then some threeSegments.segments else none) ∧
    threeSegments.segments.Nodup ∧ threeSegments.segments.Chain' fun a b => a.«end» < b.start :=
  reachable_iter_visits_each_once (reachable_threeSegments (fun _ => True) trivial)

end UnifyCR
