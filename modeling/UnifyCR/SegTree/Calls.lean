import UnifyCR.SegTree.AddLoop

/-!
# `seg_tree_add` and `seg_tree_clear` as calls

What one call does to a `struct seg_tree` whose sequence is valid. `seg_tree_add` returns
`ENOMEM` untouched when the new node cannot be allocated, never returns on a lock the thread
holds, and otherwise runs its loop: with every allocation granted it links the splice of the
tree with the new segment and releases the lock (`segTreeAdd_cases`); on a failed allocation
inside the loop it returns `ENOMEM` with the lock still held and the tree part way through the
coalescing, or reaches `RB_INSERT(NULL)`. `seg_tree_clear` on an unlocked tree removes every
node (`segTreeClear_eq`). `seg_tree_find_nolock` returns the first segment that ends at or after
`start`, when it starts at or before `end` (`segTreeFindNolock_eq`).
-/

namespace UnifyCR

/-! ## `seg_tree_add` -/

section Add

variable (rb : Rebalance) {t : SegTree} {start «end» : Word} (ptr : Word) (allocs : List Bool)

theorem segTreeWrlock_of_unlocked (h : t.wrlocked = false) :
    segTreeWrlock t = .ok { t with wrlocked := true } := by
  simp [segTreeWrlock, h]

/-- Every way a call of `seg_tree_add` on a valid tree can end. -/
theorem segTreeAdd_cases (hv : Valid t.segments) (hse : start ≤ «end») :
    (allocs.headD true = false ∧ segTreeAdd rb t start «end» ptr allocs = .ok (ENOMEM, t)) ∨
    (allocs.headD true = true ∧ t.wrlocked = true ∧
      segTreeAdd rb t start «end» ptr allocs = .error .relock) ∨
    (allocs.headD true = true ∧ t.wrlocked = false ∧
      ((∃ head count, segTreeAdd rb t start «end» ptr allocs =
            .ok (0, ⟨head, count, MAX t.max «end», false⟩) ∧
          head.toList = splice t.segments ⟨start, «end», ptr⟩ ∧
          (BelowTop t.segments → t.count = BitVec.ofNat 64 t.segments.length →
            count = BitVec.ofNat 64 head.toList.length)) ∨
        ¬ AllocsSucceed allocs.tail ∧
          ((∃ head count, segTreeAdd rb t start «end» ptr allocs =
                .ok (ENOMEM, ⟨head, count, t.max, true⟩) ∧
              PartlyCoalesced ⟨start, «end», ptr⟩ t.segments head.toList) ∨
            segTreeAdd rb t start «end» ptr allocs = .error .nullInsert))) := by
  rw [segTreeAdd, segTreeNodeAlloc_eq]
  cases h1 : allocs.headD true
  · exact .inl ⟨rfl, rfl⟩
  rw [if_pos rfl]
  cases hl : t.wrlocked
  · refine .inr (.inr ⟨rfl, rfl, ?_⟩)
    rw [segTreeWrlock_of_unlocked hl]
    dsimp only [bind, Except.bind, SegTree.segments] at hv ⊢
    rcases addLoop_cases rb (n := ⟨start, «end», ptr⟩) (2 * t.head.toList.length + 1)
      ⟨t.head, t.count, 0, 0, allocs.tail⟩ hv hse (Nat.lt_succ_of_le (overlapWeight_le _ _)) with
      ⟨s', h, hs', hc'⟩ | ⟨ha, ⟨s', h, hc⟩ | h⟩
    · exact .inl ⟨_, _, by rw [h]; rfl, hs', hc'⟩
    · exact .inr ⟨ha, .inl ⟨_, _, by rw [h], hc⟩⟩
    · exact .inr ⟨ha, .inr (by rw [h])⟩
  · exact .inr (.inl ⟨rfl, rfl, by simp [segTreeWrlock, hl, bind, Except.bind]⟩)

/-- With every allocation granted, `seg_tree_add` on an unlocked valid tree splices. -/
theorem segTreeAdd_of_allocsSucceed (hv : Valid t.segments) (hse : start ≤ «end»)
    (hl : t.wrlocked = false) (ha : AllocsSucceed allocs) :
    ∃ head count, segTreeAdd rb t start «end» ptr allocs =
        .ok (0, ⟨head, count, MAX t.max «end», false⟩) ∧
      head.toList = splice t.segments ⟨start, «end», ptr⟩ ∧
      (BelowTop t.segments → t.count = BitVec.ofNat 64 t.segments.length →
        count = BitVec.ofNat 64 head.toList.length) := by
  rcases segTreeAdd_cases rb ptr allocs hv hse with
    ⟨h1, -⟩ | ⟨-, h2, -⟩ | ⟨-, -, h | ⟨ha', -⟩⟩
  · rw [ha.headD] at h1; cases h1
  · rw [hl] at h2; cases h2
  · exact h
  · exact absurd ha.tail ha'

/-- On a valid tree the while loop of `seg_tree_add` ends within its `2 * n + 1` passes: the
call never stops for the loop bound. -/
theorem segTreeAdd_ne_outOfFuel (hv : Valid t.segments) (hse : start ≤ «end») :
    segTreeAdd rb t start «end» ptr allocs ≠ .error .outOfFuel := by
  rcases segTreeAdd_cases rb ptr allocs hv hse with
    ⟨-, h⟩ | ⟨-, -, h⟩ | ⟨-, -, ⟨_, _, h, -⟩ | ⟨-, ⟨_, _, h, -⟩ | h⟩⟩ <;> rw [h] <;> nofun

/-- `[5, 25]` over `[0, 9]` and `[20, 29]`: the loop splits the first and trims the second. -/
theorem segTreeAdd_ne_outOfFuel_two_overlaps :
    segTreeAdd Rebalance.none
      ⟨.node .leaf ⟨0, 9, 100⟩ (.node .leaf ⟨20, 29, 300⟩ .leaf), 2, 29, false⟩ 5 25 7 [] ≠
        .error .outOfFuel :=
  segTreeAdd_ne_outOfFuel Rebalance.none 7 []
    (Valid.iff_sorted_disjoint.2 ⟨by decide, by decide, by decide⟩) (by decide)

theorem segTreeAdd_of_locked (hl : t.wrlocked = true) (h1 : allocs.headD true = true) :
    segTreeAdd rb t start «end» ptr allocs = .error .relock := by
  rw [segTreeAdd, segTreeNodeAlloc_eq, h1, if_pos rfl]
  simp [segTreeWrlock, hl, bind, Except.bind]

end Add

/-! ## `seg_tree_iter` -/

/-- `seg_tree_iter` from a member of a valid tree returns the member after it. -/
theorem segTreeIter_of_mem {head : Inttree} {A B : List SegTreeNode} {x : SegTreeNode}
    (hv : Valid head.toList) (h : head.toList = A ++ x :: B) :
    segTreeIter head (some x) = B.head? := by
  have hx : x ∈ head.toList := by simp [h]
  have hxA : x ∉ A := fun hA =>
    not_before_self (hv.wf x hx) ((Valid.append_iff.1 (h ▸ hv)).2.2 x hA x (by simp))
  simp only [segTreeIter, Inttree.find_of_mem hv hx, Inttree.next_of_mem hv hx, h,
    nextOf_append_of_not_mem _ hxA, nextOf, if_true]

/-- The loop over `seg_tree_iter` from a member `x` visits what follows `x`, and needs one call
more than there are nodes after `x`. -/
theorem segTreeIterLoop_some {head : Inttree} (hv : Valid head.toList) :
    ∀ {B A : List SegTreeNode} {x : SegTreeNode} {fuel : Nat}, head.toList = A ++ x :: B →
      segTreeIterLoop head fuel (some x) = if B.length < fuel then some B else none
  | _, _, _, 0, _ => rfl
  | [], A, x, fuel + 1, h => by
    rw [segTreeIterLoop, segTreeIter_of_mem hv h]; simp
  | b :: B, A, x, fuel + 1, h => by
    rw [segTreeIterLoop, segTreeIter_of_mem hv h, List.head?_cons]
    dsimp only
    rw [segTreeIterLoop_some hv (B := B) (A := A ++ [x]) (by simp [h])]
    by_cases hf : B.length < fuel <;> simp [hf]

/-- From `NULL`, the loop over `seg_tree_iter` visits the whole in-order sequence, and gets
`NULL` at the call after its last node. -/
theorem segTreeIterLoop_none {head : Inttree} (hv : Valid head.toList) (fuel : Nat) :
    segTreeIterLoop head fuel none =
      if head.toList.length < fuel then some head.toList else none := by
  cases fuel with
  | zero => rfl
  | succ fuel =>
    rw [segTreeIterLoop, segTreeIter, Inttree.min_eq]
    cases h : head.toList with
    | nil => simp
    | cons x B =>
      rw [List.head?_cons]
      dsimp only
      rw [segTreeIterLoop_some hv (A := []) h]
      by_cases hf : B.length < fuel <;> simp [hf]

/-! ## `seg_tree_clear` -/

section Clear

variable (rb : Rebalance)

theorem segTreeIter_some {head : Inttree} {y : SegTreeNode} {B : List SegTreeNode}
    (hv : Valid head.toList) (h : head.toList = y :: B) : segTreeIter head (some y) = B.head? :=
  segTreeIter_of_mem (A := []) hv h

/-- The loop of `seg_tree_clear`, entered with `node = oldnode = y` at the head of the
sequence, removes every node. -/
theorem clearLoop_some (fuel : Nat) {head : Inttree} {y : SegTreeNode} {B : List SegTreeNode}
    (hv : Valid head.toList) (h : head.toList = y :: B) (hf : B.length < fuel) :
    ∃ head', clearLoop rb fuel head (some y) (some y) = .ok head' ∧ head'.toList = [] := by
  induction B generalizing fuel head y with
  | nil =>
    cases fuel with
    | zero => simp at hf
    | succ fuel =>
      refine ⟨_, by rw [clearLoop, segTreeIter_some hv h]; rfl, ?_⟩
      simp [toList_rbRemove hv (by simp [h] : y ∈ head.toList), h]
  | cons b B ih =>
    cases fuel with
    | zero => simp at hf
    | succ fuel =>
      have hrm : (rbRemove rb head y).toList = b :: B := by
        simp [toList_rbRemove hv (by simp [h] : y ∈ head.toList), h]
      rw [clearLoop, segTreeIter_some hv h]
      exact ih fuel (hrm ▸ (Valid.cons_iff.1 (h ▸ hv)).2.2) hrm (by simp at hf; omega)

theorem segTreeClear_of_locked {t : SegTree} (hl : t.wrlocked = true) :
    segTreeClear rb t = .error .relock := by
  simp [segTreeClear, segTreeWrlock, hl, bind, Except.bind]

/-- `seg_tree_clear` on an unlocked valid tree empties it and releases the lock; `count` and
`max` are reset unless the tree was already empty. -/
theorem segTreeClear_eq {t : SegTree} (hv : Valid t.segments) (hl : t.wrlocked = false) :
    ∃ t', segTreeClear rb t = .ok t' ∧ t'.segments = [] ∧ t'.wrlocked = false ∧
      (t' = t ∨ t'.count = 0 ∧ t'.max = 0) := by
  rw [segTreeClear, segTreeWrlock_of_unlocked hl]
  dsimp only [bind, Except.bind, pure, Except.pure]
  by_cases he : t.head = .leaf
  · rw [if_pos he]
    exact ⟨_, rfl, by simp [SegTree.segments, segTreeUnlock, he], rfl,
      .inl (by cases t; simp_all [segTreeUnlock])⟩
  rw [if_neg he]
  obtain ⟨y, B, hyB⟩ : ∃ y B, t.head.toList = y :: B := by
    cases hh : t.head with
    | leaf => exact absurd hh he
    | node l x r => exact List.exists_cons_of_ne_nil (by simp)
  obtain ⟨head', h, h'⟩ := clearLoop_some rb (B.length + 1) hv hyB (by omega)
  refine ⟨⟨head', 0, 0, false⟩, ?_, h', rfl, .inr ⟨rfl, rfl⟩⟩
  rw [SegTree.segments, hyB, List.length_cons, clearLoop]
  simp only [segTreeIter, Inttree.min_eq, hyB, List.head?_cons, h]
  rfl

theorem readLocked_of_unlocked {field : SegTree → Word} {t : SegTree}
    (hl : t.wrlocked = false) : readLocked field t = .ok (field { t with wrlocked := true }) := by
  rw [readLocked, segTreeWrlock_of_unlocked hl]; rfl

theorem readLocked_of_locked {field : SegTree → Word} {t : SegTree} (hl : t.wrlocked = true) :
    readLocked field t = .error .relock := by
  simp [readLocked, segTreeWrlock, hl, bind, Except.bind]

theorem segTreeMax_of_unlocked {t : SegTree} (hl : t.wrlocked = false) :
    segTreeMax t = .ok t.max :=
  readLocked_of_unlocked hl

end Clear

/-! ## `seg_tree_find_nolock` -/

/-- `seg_tree_find_nolock` on a valid tree, with the probe node allocated: the first segment
that ends at or after `start`, when it starts at or before `end`. -/
theorem segTreeFindNolock_eq {t : SegTree} {start «end» : Word} {allocs : List Bool}
    (hv : Valid t.segments) (h1 : allocs.headD true = true) :
    segTreeFindNolock t start «end» allocs =
      (t.segments.find? fun a => start ≤ a.«end»).filter fun a => a.start ≤ «end» := by
  rw [segTreeFindNolock, segTreeNodeAlloc_eq, h1, if_pos rfl, SegTree.segments]
  dsimp only
  rw [Inttree.nfind_point hv]
  cases (t.head.toList.find? fun a => start ≤ a.«end») <;> simp [Option.filter]

theorem segTreeFindNolock_of_alloc_fails {t : SegTree} {start «end» : Word} {allocs : List Bool}
    (h1 : allocs.headD true = false) : segTreeFindNolock t start «end» allocs = none := by
  rw [segTreeFindNolock, segTreeNodeAlloc_eq, h1]; rfl

end UnifyCR
