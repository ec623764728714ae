import UnifyCR.SegTree.Node

/-!
# The `inttree` red-black tree, as a search tree under `compare_func`

`seg_tree.c` instantiates the red-black tree of BSD `tree.h` (`RB_GENERATE(inttree, ...)`),
a header that is not part of the source. This file models what the segment tree uses of it,
from the spec's description ("a balanced BST keyed on the interval with an ordering relation
that treats overlapping intervals as equal"):

* `Inttree.insert` is `RB_INSERT`'s descent: left on `-1`, right on `+1`, and on `0` it
  returns the node found and changes nothing; at a leaf it links the new node.
* `Inttree.remove` unlinks a node, putting the leftmost node of its right subtree in its place.
* `Inttree.min`, `Inttree.find`, `Inttree.nfind` and `Inttree.next` are `RB_MIN`, `RB_FIND`,
  `RB_NFIND` and `RB_NEXT`.
* The recolouring and rotations after an insert or a remove are a parameter (`Rebalance`):
  any reshaping that keeps the in-order sequence. Every result below holds for every tree
  shape and every rebalancing, so it does not depend on which overlapping node a descent
  happens to meet first.

Every lemma is stated on the in-order sequence `toList` of a tree whose sequence is `Valid`.
-/

namespace UnifyCR

/-- `RB_HEAD(inttree, seg_tree_node)`: a binary tree of segments. -/
inductive Inttree
  | leaf
  | node (left : Inttree) (n : SegTreeNode) (right : Inttree)
deriving DecidableEq, Repr

namespace Inttree

/-- The in-order sequence of the tree. -/
def toList : Inttree → List SegTreeNode
  | leaf => []
  | node l n r => l.toList ++ n :: r.toList

/-- Modelled from the spec: `RB_INSERT`'s descent, giving the node found equal to `elm`, or the
tree with `elm` linked in. -/
def insert (elm : SegTreeNode) : Inttree → Inttree × Option SegTreeNode
  | leaf => (node leaf elm leaf, none)
  | node l x r =>
    match compareFunc elm x with
    | .lt => ((l.insert elm).1.node x r, (l.insert elm).2)
    | .gt => (node l x (r.insert elm).1, (r.insert elm).2)
    | .eq => (node l x r, some x)

/-- The leftmost node, unlinked. -/
def removeMin : Inttree → Option (SegTreeNode × Inttree)
  | leaf => none
  | node l x r =>
    match l.removeMin with
    | none => some (x, r)
    | some (m, l') => some (m, node l' x r)

/-- Modelled from the spec: `RB_REMOVE`'s unlinking of `elm`, reached by descent; its place goes
to the leftmost node of its right subtree. -/
def remove (elm : SegTreeNode) : Inttree → Inttree
  | leaf => leaf
  | node l x r =>
    match compareFunc elm x with
    | .lt => node (l.remove elm) x r
    | .gt => node l x (r.remove elm)
    | .eq =>
      match r.removeMin with
      | none => l
      | some (m, r') => node l m r'

/-- Modelled from the spec: `RB_MIN`. -/
def min : Inttree → Option SegTreeNode
  | leaf => none
  | node l x _ => l.min.or (some x)

/-- Modelled from the spec: `RB_FIND`, the node `compare_func` calls equal to `elm`. -/
def find (elm : SegTreeNode) : Inttree → Option SegTreeNode
  | leaf => none
  | node l x r =>
    match compareFunc elm x with
    | .lt => l.find elm
    | .gt => r.find elm
    | .eq => some x

/-- Modelled from the spec: `RB_NFIND`, the node `compare_func` calls equal to `elm`, or else
the last node on the descent that `elm` is less than. -/
def nfind (elm : SegTreeNode) : Inttree → Option SegTreeNode
  | leaf => none
  | node l x r =>
    match compareFunc elm x with
    | .lt => (l.nfind elm).or (some x)
    | .gt => r.nfind elm
    | .eq => some x

/-- Modelled from the spec: `RB_NEXT`, the in-order successor of `elm`. -/
def next (elm : SegTreeNode) : Inttree → Option SegTreeNode
  | leaf => none
  | node l x r =>
    match compareFunc elm x with
    | .lt => (l.next elm).or (some x)
    | .gt => r.next elm
    | .eq => r.min

@[simp] theorem toList_leaf : leaf.toList = [] := rfl

@[simp] theorem toList_node (l r : Inttree) (n : SegTreeNode) :
    (node l n r).toList = l.toList ++ n :: r.toList := rfl

end Inttree

/-- Modelled from the spec: the rebalancing of `tree.h` (`RB_INSERT_COLOR`, `RB_REMOVE_COLOR`),
not part of the source, as any reshaping of the tree that keeps its in-order sequence. -/
structure Rebalance where
  fix : Inttree → Inttree
  toList_fix : ∀ t, (fix t).toList = t.toList

/-- No rebalancing at all: a plain search tree. -/
def Rebalance.none : Rebalance := ⟨id, fun _ => rfl⟩

attribute [simp] Rebalance.toList_fix

/-- `RB_INSERT`: on a found node the tree is left as it was; otherwise the new node is linked
and the tree rebalanced. -/
def rbInsert (rb : Rebalance) (head : Inttree) (elm : SegTreeNode) :
    Inttree × Option SegTreeNode :=
  match (head.insert elm).2 with
  | some x => (head, some x)
  | none => (rb.fix (head.insert elm).1, none)

/-- `RB_REMOVE`. -/
def rbRemove (rb : Rebalance) (head : Inttree) (elm : SegTreeNode) : Inttree :=
  rb.fix (head.remove elm)

/-! ## The operations on the in-order sequence -/

/-- The element after the first occurrence of `x`: what `RB_NEXT` reads off the sequence. -/
def nextOf : List SegTreeNode → SegTreeNode → Option SegTreeNode
  | [], _ => none
  | a :: l, x => if a = x then l.head? else nextOf l x

theorem nextOf_append_of_mem {L : List SegTreeNode} {x : SegTreeNode} (M : List SegTreeNode)
    (h : x ∈ L) : nextOf (L ++ M) x = (nextOf L x).or M.head? := by
  induction L with
  | nil => simp at h
  | cons a L ih =>
    by_cases hax : a = x
    · subst hax
      rw [List.cons_append, nextOf, nextOf, if_pos rfl, if_pos rfl, List.head?_append]
    · rw [List.cons_append, nextOf, nextOf, if_neg hax, if_neg hax]
      exact ih (by simpa [Ne.symm hax] using h)

theorem nextOf_append_of_not_mem {L : List SegTreeNode} {x : SegTreeNode} (M : List SegTreeNode)
    (h : x ∉ L) : nextOf (L ++ M) x = nextOf M x := by
  induction L with
  | nil => rfl
  | cons a L ih =>
    simp only [List.mem_cons, not_or] at h
    rw [List.cons_append, nextOf, if_neg (Ne.symm h.1), ih h.2]

namespace Inttree

theorem valid_node {l r : Inttree} {x : SegTreeNode} (hv : Valid (node l x r).toList) :
    Valid l.toList ∧ Valid r.toList ∧ x.start ≤ x.«end» ∧ (∀ a ∈ l.toList, Before a x) ∧
      ∀ b ∈ r.toList, Before x b := by
  rw [toList_node, Valid.append_iff, Valid.cons_iff] at hv
  obtain ⟨hl, ⟨hx, hxr, hr⟩, h⟩ := hv
  exact ⟨hl, hr, hx, fun a ha => h a ha x (by simp), hxr⟩

/-- Where a member `x` of a valid tree lies, by `compare_func` against the root `y`: in the left
subtree on `-1`, at the root on `0`, in the right subtree on `+1`. -/
theorem mem_node_of_compare {l r : Inttree} {x y : SegTreeNode} (hv : Valid (node l y r).toList)
    (hx : x ∈ (node l y r).toList) :
    (compareFunc x y = .lt → x ∈ l.toList) ∧ (compareFunc x y = .eq → x = y ∧ x ∉ l.toList) ∧
      (compareFunc x y = .gt → x ∉ l.toList ∧ y ≠ x ∧ x ∈ r.toList) := by
  obtain ⟨-, -, hy, hly, hyr⟩ := valid_node hv
  have hwx := hv.wf x hx
  have hx' := hx
  simp only [toList_node, List.mem_append, List.mem_cons] at hx'
  refine ⟨fun hc => ?_, fun hc => ?_, fun hc => ?_⟩
  · have hb := (compareFunc_lt_iff hwx hy).1 hc
    rcases hx' with h | rfl | h
    · exact h
    · exact absurd hb (not_before_self hy)
    · exact absurd (before_trans hy hb (hyr x h)) (not_before_self hwx)
  · obtain rfl := hv.eq_of_overlaps hx (by simp) (compareFunc_eq_iff.1 hc)
    exact ⟨rfl, fun h => not_before_self hy (hly x h)⟩
  · have hb := compareFunc_gt_iff.1 hc
    have hxl : x ∉ l.toList := fun h => not_before_of_before hwx hy (hly x h) hb
    refine ⟨hxl, by rintro rfl; exact not_before_self hy hb, ?_⟩
    rcases hx' with h | rfl | h
    · exact absurd h hxl
    · exact absurd hb (not_before_self hy)
    · exact h

/-- A descent that stops at a node leaves the tree alone, and the node overlaps `elm`. -/
theorem insert_eq_some {elm x : SegTreeNode} : ∀ {t : Inttree}, (t.insert elm).2 = some x →
    (t.insert elm).1 = t ∧ x ∈ t.toList ∧ Overlaps elm x
  | leaf, h => by simp [insert] at h
  | node l y r, h => by
    cases hc : compareFunc elm y <;> simp only [insert, hc] at h ⊢
    · obtain ⟨h1, h2, h3⟩ := insert_eq_some h
      exact ⟨by rw [h1], by simp [h2], h3⟩
    · cases h; exact ⟨trivial, by simp, compareFunc_eq_iff.1 hc⟩
    · obtain ⟨h1, h2, h3⟩ := insert_eq_some h
      exact ⟨by rw [h1], by simp [h2], h3⟩

/-- On a valid tree, a descent meets an overlapping node whenever there is one. -/
theorem insert_isSome {elm : SegTreeNode} (he : elm.start ≤ elm.«end») : ∀ {t : Inttree},
    Valid t.toList → (∃ a ∈ t.toList, Overlaps a elm) → (t.insert elm).2.isSome
  | leaf, _, ⟨a, ha, _⟩ => by simp at ha
  | node l y r, hv, ⟨a, ha, hao⟩ => by
    obtain ⟨hl, hr, hy, hly, hyr⟩ := valid_node hv
    have hwa := hv.wf a ha
    simp only [toList_node, List.mem_append, List.mem_cons] at ha
    cases hc : compareFunc elm y <;> simp only [insert, hc, Option.isSome_some]
    · have hb := (compareFunc_lt_iff he hy).1 hc
      rcases ha with ha | rfl | ha
      · exact insert_isSome he hl ⟨a, ha, hao⟩
      · exact absurd (overlaps_comm.1 hao) (not_overlaps_of_before hb)
      · exact absurd (overlaps_comm.1 hao)
          (not_overlaps_of_before (before_trans hy hb (hyr a ha)))
    · have hb := compareFunc_gt_iff.1 hc
      rcases ha with ha | rfl | ha
      · exact absurd hao (not_overlaps_of_before (before_trans hy (hly a ha) hb))
      · exact absurd hao (not_overlaps_of_before hb)
      · exact insert_isSome he hr ⟨a, ha, hao⟩

/-- On a valid tree with no node overlapping `elm`, the descent links `elm` between the
nodes before it and the nodes after it. -/
theorem insert_of_disjoint {elm : SegTreeNode} (he : elm.start ≤ elm.«end») : ∀ {t : Inttree},
    Valid t.toList → (∀ a ∈ t.toList, ¬ Overlaps a elm) →
    (t.insert elm).2 = none ∧ (t.insert elm).1.toList =
      t.toList.filter (fun a => decide (Before a elm)) ++
        elm :: t.toList.filter (fun a => decide (Before elm a))
  | leaf, _, _ => by simp [insert]
  | node l y r, hv, hno => by
    obtain ⟨hl, hr, hy, hly, hyr⟩ := valid_node hv
    have hw := hv.wf
    simp only [toList_node, List.mem_append, List.mem_cons] at hw hno
    rcases before_or_overlaps_or_after y elm with hb | ho | hb
    · obtain ⟨h1, h2⟩ := insert_of_disjoint he hr fun a ha => hno a (.inr (.inr ha))
      have hl₁ : l.toList.filter (fun a => decide (Before a elm)) = l.toList :=
        List.filter_eq_self.2 fun a ha => by simpa using before_trans hy (hly a ha) hb
      have hl₂ : l.toList.filter (fun a => decide (Before elm a)) = [] :=
        List.filter_eq_nil_iff.2 fun a ha => by
          simpa using not_before_of_before (hw a (.inl ha)) he (before_trans hy (hly a ha) hb)
      simp only [insert, compareFunc_gt_iff.2 hb, h1, h2, true_and, toList_node,
        List.filter_append, List.filter_cons, hl₁, hl₂, decide_eq_true hb,
        decide_eq_false (not_before_of_before hy he hb), Bool.false_eq_true, ite_false, ite_true,
        List.nil_append, List.append_assoc, List.cons_append]
    · exact absurd ho (hno y (.inr (.inl rfl)))
    · obtain ⟨h1, h2⟩ := insert_of_disjoint he hl fun a ha => hno a (.inl ha)
      have hr₁ : r.toList.filter (fun a => decide (Before a elm)) = [] :=
        List.filter_eq_nil_iff.2 fun a ha => by
          simpa using not_before_of_before he (hw a (.inr (.inr ha))) (before_trans hy hb (hyr a ha))
      have hr₂ : r.toList.filter (fun a => decide (Before elm a)) = r.toList :=
        List.filter_eq_self.2 fun a ha => by simpa using before_trans hy hb (hyr a ha)
      simp only [insert, (compareFunc_lt_iff he hy).2 hb, h1, h2, true_and, toList_node,
        List.filter_append, List.filter_cons, hr₁, hr₂, decide_eq_true hb,
        decide_eq_false (not_before_of_before he hy hb), Bool.false_eq_true, ite_false, ite_true,
        List.nil_append, List.append_assoc, List.cons_append]

/-- On a tree whose in-order segments are intervals, ordered by start and pairwise disjoint,
the descent of `RB_INSERT` for an interval `N` stops at a segment meeting `N` whenever one does,
and leaves the tree as it is; otherwise it links `N` between the segments that end before `N`
and those that start after it, and the sequence stays ordered and disjoint. -/
theorem insert_stops_or_links {t : Inttree} (hw : ∀ a ∈ t.toList, a.start ≤ a.«end»)
    (hs : t.toList.Pairwise fun a b => a.start < b.start)
    (hd : t.toList.Pairwise fun a b => ¬ Overlaps a b) {N : SegTreeNode} (hN : N.start ≤ N.«end») :
    ((∃ a ∈ t.toList, Overlaps a N) → ∃ x ∈ t.toList, Overlaps N x ∧ t.insert N = (t, some x)) ∧
    ((∀ a ∈ t.toList, ¬ Overlaps a N) →
      (t.insert N).2 = none ∧
      (t.insert N).1.toList =
        t.toList.filter (fun a => Before a N) ++ N :: t.toList.filter (fun a => Before N a) ∧
      (∀ a ∈ (t.insert N).1.toList, a.start ≤ a.«end») ∧
      ((t.insert N).1.toList.Pairwise fun a b => a.start < b.start) ∧
      (t.insert N).1.toList.Pairwise fun a b => ¬ Overlaps a b) := by
  have hv := Valid.iff_sorted_disjoint.2 ⟨hw, hs, hd⟩
  refine ⟨fun h => ?_, fun h => ?_⟩
  · obtain ⟨x, hx⟩ := Option.isSome_iff_exists.1 (insert_isSome hN hv h)
    obtain ⟨h1, hmem, hov⟩ := insert_eq_some hx
    exact ⟨x, hmem, hov, Prod.ext h1 hx⟩
  · obtain ⟨h1, h2⟩ := insert_of_disjoint hN hv h
    have hA := hv.sublist (List.filter_sublist (p := fun a => decide (Before a N)) t.toList)
    have hB := hv.sublist (List.filter_sublist (p := fun a => decide (Before N a)) t.toList)
    have hAB : Valid (t.toList.filter (fun a => Before a N) ++ t.toList.filter (fun a => Before N a)) :=
      Valid.append_iff.2 ⟨hA, hB, fun a ha b hb => by
        simp only [List.mem_filter, decide_eq_true_eq] at ha hb
        exact before_trans hN ha.2 hb.2⟩
    refine ⟨h1, h2, Valid.iff_sorted_disjoint.1 (h2 ▸ hAB.middle hN ?_ ?_)⟩
    · intro a ha; simpa using (List.mem_filter.1 ha).2
    · intro b hb; simpa using (List.mem_filter.1 hb).2

/-- On `[0, 9]`, `[20, 29]`, `[40, 49]` with `[20, 29]` at the root, the descent for `[30, 45]`
goes right and stops at `[40, 49]`, and `[12, 15]` is linked between `[0, 9]` and `[20, 29]`. -/
theorem insert_stops_or_links_three_segments :
    (∃ x ∈ (node (node leaf ⟨0, 9, 100⟩ leaf) ⟨20, 29, 300⟩ (node leaf ⟨40, 49, 500⟩ leaf)).toList,
      Overlaps ⟨30, 45, 7⟩ x ∧
      (node (node leaf ⟨0, 9, 100⟩ leaf) ⟨20, 29, 300⟩ (node leaf ⟨40, 49, 500⟩ leaf)).insert
        ⟨30, 45, 7⟩ =
        (node (node leaf ⟨0, 9, 100⟩ leaf) ⟨20, 29, 300⟩ (node leaf ⟨40, 49, 500⟩ leaf), some x)) ∧
    ((node (node leaf ⟨0, 9, 100⟩ leaf) ⟨20, 29, 300⟩ (node leaf ⟨40, 49, 500⟩ leaf)).insert
      ⟨12, 15, 7⟩).1.toList = [⟨0, 9, 100⟩, ⟨12, 15, 7⟩, ⟨20, 29, 300⟩, ⟨40, 49, 500⟩] :=
  ⟨(insert_stops_or_links (by decide) (by decide) (by decide) (by decide)).1
      ⟨⟨40, 49, 500⟩, by decide, by decide⟩,
    ((insert_stops_or_links (by decide) (by decide) (by decide) (by decide)).2
      (by decide)).2.1.trans (by decide)⟩

theorem removeMin_eq_none {t : Inttree} (h : t.removeMin = none) : t = leaf := by
  cases t with
  | leaf => rfl
  | node l x r => unfold removeMin at h; split at h <;> simp at h

theorem toList_removeMin : ∀ {t t' : Inttree} {m : SegTreeNode}, t.removeMin = some (m, t') →
    t.toList = m :: t'.toList
  | leaf, _, _, h => by simp [removeMin] at h
  | node l x r, t', m, h => by
    unfold removeMin at h
    split at h
    · rename_i hl; cases h; simp [removeMin_eq_none hl]
    · rename_i m' l' hl; cases h; simp [toList_removeMin hl]

/-- Unlinking a node of a valid tree erases it from the in-order sequence. -/
theorem toList_remove {x : SegTreeNode} : ∀ {t : Inttree}, Valid t.toList → x ∈ t.toList →
    (t.remove x).toList = t.toList.erase x
  | leaf, _, hx => by simp at hx
  | node l y r, hv, hx => by
    obtain ⟨hl, hr, -⟩ := valid_node hv
    obtain ⟨hlt, heq, hgt⟩ := mem_node_of_compare hv hx
    cases hc : compareFunc x y
    · have hxl := hlt hc
      simp only [remove, hc, toList_node, toList_remove hl hxl, List.erase_append_left _ hxl]
    · obtain ⟨rfl, hxl⟩ := heq hc
      rw [toList_node, List.erase_append_right _ hxl, List.erase_cons_head]
      simp only [remove, hc]
      split
      · rename_i h; simp [removeMin_eq_none h]
      · rename_i m r' h; simp [toList_removeMin h]
    · obtain ⟨hxl, hyx, hxr⟩ := hgt hc
      have hyx' : ¬ (y == x) = true := by simpa using hyx
      simp only [remove, hc, toList_node, toList_remove hr hxr, List.erase_append_right _ hxl,
        List.erase_cons_tail hyx']

theorem eq_leaf_of_toList_eq_nil {t : Inttree} (h : t.toList = []) : t = leaf := by
  cases t with
  | leaf => rfl
  | node l x r => simp at h

/-- `RB_MIN` is the head of the in-order sequence. -/
theorem min_eq : ∀ t : Inttree, t.min = t.toList.head?
  | leaf => rfl
  | node l x r => by simp [min, min_eq l, List.head?_append]

/-- `RB_FIND` of a member of a valid tree finds it. -/
theorem find_of_mem {x : SegTreeNode} : ∀ {t : Inttree}, Valid t.toList → x ∈ t.toList →
    t.find x = some x
  | leaf, _, hx => by simp at hx
  | node l y r, hv, hx => by
    obtain ⟨hl, hr, -⟩ := valid_node hv
    obtain ⟨hlt, heq, hgt⟩ := mem_node_of_compare hv hx
    cases hc : compareFunc x y <;> simp only [find, hc]
    · exact find_of_mem hl (hlt hc)
    · rw [(heq hc).1]
    · exact find_of_mem hr (hgt hc).2.2

/-- `RB_NFIND` of a one-byte range `[s, s]` in a valid tree is the first node of the in-order
sequence that ends at or after `s`: the one holding `s`, or else the first one after it. -/
theorem nfind_point {s q : Word} : ∀ {t : Inttree}, Valid t.toList →
    t.nfind ⟨s, s, q⟩ = t.toList.find? fun a => s ≤ a.«end»
  | leaf, _ => rfl
  | node l y r, hv => by
    obtain ⟨hl, hr, hy, hly, -⟩ := valid_node hv
    have hlnone (h : y.start ≤ s) : l.toList.find? (fun a => s ≤ a.«end») = none :=
      List.find?_eq_none.2 fun a ha => by
        have := hly a ha; unfold Before at this; simp only [decide_eq_true_eq]; bv_omega
    rw [toList_node, List.find?_append, List.find?_cons]
    cases hc : compareFunc ⟨s, s, q⟩ y <;> simp only [nfind, hc]
    · have hb := (compareFunc_lt_iff (BitVec.le_refl s) hy).1 hc
      unfold Before at hb
      rw [nfind_point hl, decide_eq_true (show s ≤ y.«end» by simp only at hb; bv_omega)]
    · have hov := compareFunc_eq_iff.1 hc
      unfold Overlaps at hov
      simp only at hov
      rw [hlnone hov.2, decide_eq_true hov.1]; rfl
    · have hb := compareFunc_gt_iff.1 hc
      unfold Before at hb
      simp only at hb
      rw [nfind_point hr, hlnone (by bv_omega), decide_eq_false (show ¬ s ≤ y.«end» by bv_omega)]
      rfl

/-- `RB_NEXT` of a member of a valid tree is the next node of the in-order sequence. -/
theorem next_of_mem {x : SegTreeNode} : ∀ {t : Inttree}, Valid t.toList → x ∈ t.toList →
    t.next x = nextOf t.toList x
  | leaf, _, hx => by simp at hx
  | node l y r, hv, hx => by
    obtain ⟨hl, hr, -⟩ := valid_node hv
    obtain ⟨hlt, heq, hgt⟩ := mem_node_of_compare hv hx
    cases hc : compareFunc x y <;> simp only [next, hc]
    · have hxl := hlt hc
      rw [toList_node, nextOf_append_of_mem _ hxl, next_of_mem hl hxl]; rfl
    · obtain ⟨rfl, hxl⟩ := heq hc
      rw [toList_node, nextOf_append_of_not_mem _ hxl, min_eq]; simp [nextOf]
    · obtain ⟨hxl, hyx, hxr⟩ := hgt hc
      rw [toList_node, nextOf_append_of_not_mem _ hxl, next_of_mem hr hxr]
      simp [nextOf, hyx]

end Inttree

/-! ## `RB_INSERT` and `RB_REMOVE` with rebalancing -/

theorem rbInsert_of_overlaps (rb : Rebalance) {head : Inttree} (elm : SegTreeNode)
    (hv : Valid head.toList) (he : elm.start ≤ elm.«end»)
    (h : ∃ a ∈ head.toList, Overlaps a elm) :
    ∃ x ∈ head.toList, Overlaps elm x ∧ rbInsert rb head elm = (head, some x) := by
  obtain ⟨x, hx⟩ := Option.isSome_iff_exists.1 (Inttree.insert_isSome he hv h)
  obtain ⟨-, hmem, hov⟩ := Inttree.insert_eq_some hx
  exact ⟨x, hmem, hov, by simp [rbInsert, hx]⟩

theorem rbInsert_of_disjoint (rb : Rebalance) {head : Inttree} {elm : SegTreeNode}
    (hv : Valid head.toList) (he : elm.start ≤ elm.«end»)
    (h : ∀ a ∈ head.toList, ¬ Overlaps a elm) :
    (rbInsert rb head elm).2 = none ∧ (rbInsert rb head elm).1.toList =
      head.toList.filter (fun a => decide (Before a elm)) ++
        elm :: head.toList.filter (fun a => decide (Before elm a)) := by
  obtain ⟨h1, h2⟩ := Inttree.insert_of_disjoint he hv h
  simp [rbInsert, h1, h2]

theorem toList_rbRemove {rb : Rebalance} {head : Inttree} {x : SegTreeNode}
    (hv : Valid head.toList) (hx : x ∈ head.toList) :
    (rbRemove rb head x).toList = head.toList.erase x := by
  simp [rbRemove, Inttree.toList_remove hv hx]

end UnifyCR
