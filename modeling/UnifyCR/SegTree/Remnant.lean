import UnifyCR.SegTree.Splice

/-!
# What a pass leaves of an overlapped segment

A pass of `seg_tree_add`'s loop takes one segment `o` that overlaps the new segment `n` out of
the sequence `A ++ o :: B` and puts back a list `P` of what is left of it: nothing when `n`
covers `o`, a left part and the remaining part `[n.start, oe]` when `o` starts before `n`, a
right part otherwise. `Remnant n o P` is what the loop needs of `P`: its segments lie inside
`o` in order, map their offsets as `o` does (same `ptr - start`), contribute to the splice
exactly what `o` does, and weigh less than `o` in the loop's measure `overlapWeight`.

`Remnant.replace_*` show that replacing `o` by such a `P` keeps the sequence valid, keeps its
splice with `n`, only shrinks its offset map, and lowers the measure.
-/

namespace UnifyCR

/-- The measure of `seg_tree_add`'s loop for the new segment `n`: `2` for a segment that
overlaps `n` and starts before it, `1` for any other segment overlapping `n`. -/
def overlapWeight (n : SegTreeNode) : List SegTreeNode → Nat
  | [] => 0
  | a :: l => (if Overlaps a n then (if a.start < n.start then 2 else 1) else 0) + overlapWeight n l

theorem overlapWeight_cons (n a : SegTreeNode) (l : List SegTreeNode) :
    overlapWeight n (a :: l) =
      (if Overlaps a n then (if a.start < n.start then 2 else 1) else 0) + overlapWeight n l :=
  rfl

theorem overlapWeight_append (n : SegTreeNode) (l₁ l₂ : List SegTreeNode) :
    overlapWeight n (l₁ ++ l₂) = overlapWeight n l₁ + overlapWeight n l₂ := by
  induction l₁ with
  | nil => simp [overlapWeight]
  | cons a l ih => rw [List.cons_append, overlapWeight_cons, overlapWeight_cons, ih, Nat.add_assoc]

theorem overlapWeight_le (n : SegTreeNode) (l : List SegTreeNode) :
    overlapWeight n l ≤ 2 * l.length := by
  induction l with
  | nil => simp [overlapWeight]
  | cons a l ih =>
    rw [overlapWeight_cons, List.length_cons]
    split_ifs <;> omega

/-- When no segment meeting `n` starts before it, the measure counts the segments meeting `n`. -/
theorem overlapWeight_eq_countP {n : SegTreeNode} :
    ∀ {l : List SegTreeNode}, (∀ a ∈ l, Overlaps a n → n.start ≤ a.start) →
      overlapWeight n l = l.countP fun a => Overlaps a n
  | [], _ => rfl
  | a :: l, h => by
    rw [overlapWeight_cons, List.countP_cons, overlapWeight_eq_countP fun b hb => h b (by simp [hb])]
    by_cases ha : Overlaps a n
    · have := h a (by simp) ha
      rw [if_pos ha, if_neg (by bv_omega), decide_eq_true ha, if_pos rfl]; omega
    · simp [ha]

/-- In a valid sequence at most one segment meets `n` and starts before it, so the measure is at
most one more than the number of segments meeting `n`. -/
theorem overlapWeight_le_countP {n : SegTreeNode} :
    ∀ {l : List SegTreeNode}, Valid l → overlapWeight n l ≤ (l.countP fun a => Overlaps a n) + 1
  | [], _ => by simp [overlapWeight]
  | a :: l, hv => by
    obtain ⟨hwa, hal, hvl⟩ := Valid.cons_iff.1 hv
    rw [overlapWeight_cons, List.countP_cons]
    by_cases ha : Overlaps a n
    · by_cases hs : a.start < n.start
      · -- every later segment starts after `a` ends, so at or after `n.start`
        rw [overlapWeight_eq_countP fun b hb _ => by
          have := hal b hb; unfold Overlaps Before at *; bv_omega]
        simp [ha, hs]; omega
      · have := overlapWeight_le_countP (n := n) hvl
        simp [ha, hs]; omega
    · have := overlapWeight_le_countP (n := n) hvl
      simp [ha]; omega

/-- What one pass may put back in place of the overlapped segment `o`. -/
structure Remnant (n o : SegTreeNode) (P : List SegTreeNode) : Prop where
  valid : Valid P
  within : ∀ p ∈ P, o.start ≤ p.start ∧ p.«end» ≤ o.«end»
  intercept : ∀ p ∈ P, p.ptr - p.start = o.ptr - o.start
  left : P.filterMap (leftPiece n.start) = [o].filterMap (leftPiece n.start)
  right : P.filterMap (rightPiece n.«end») = [o].filterMap (rightPiece n.«end»)
  weight : overlapWeight n P < overlapWeight n [o]

section Replace

variable {n o : SegTreeNode} {A B P : List SegTreeNode}

theorem Remnant.replace_valid (hP : Remnant n o P) (hv : Valid (A ++ o :: B)) :
    Valid (A ++ P ++ B) := by
  obtain ⟨hA, hoB, hAo⟩ := Valid.append_iff.1 hv
  obtain ⟨hwo, hoB', hB⟩ := Valid.cons_iff.1 hoB
  refine Valid.append_iff.2 ⟨Valid.append_iff.2 ⟨hA, hP.valid, fun a ha p hp => ?_⟩, hB,
    fun a ha b hb => ?_⟩
  · have := hAo a ha o (by simp); have := hP.within p hp; unfold Before at *; bv_omega
  · rcases List.mem_append.1 ha with ha | ha
    · exact before_trans hwo (hAo a ha o (by simp)) (hoB' b hb)
    · have := hoB' b hb; have := hP.within a ha; unfold Before at *; bv_omega

theorem Remnant.replace_splice (hP : Remnant n o P) :
    splice (A ++ P ++ B) n = splice (A ++ o :: B) n := by
  rw [show A ++ o :: B = A ++ [o] ++ B by simp]
  simp only [splice, List.filterMap_append, hP.left, hP.right]

/-- A remnant maps only offsets that `o` maps, and maps them as `o` does. -/
theorem Remnant.lookup_sub (hP : Remnant n o P) {x v : Word} (h : lookup P x = some v) :
    lookup [o] x = some v := by
  obtain ⟨p, hp, hpx, rfl⟩ := exists_of_lookup_eq_some h
  have hw := hP.within p hp
  have hi := hP.intercept p hp
  rw [lookup_cons, if_pos (by unfold Covers at *; bv_omega)]
  congr 1
  calc o.ptr + (x - o.start) = (o.ptr - o.start) + x := by abel
    _ = (p.ptr - p.start) + x := by rw [hi]
    _ = p.ptr + (x - p.start) := by abel

theorem Remnant.replace_lookup (hP : Remnant n o P) (hv : Valid (A ++ o :: B)) {x v : Word}
    (h : lookup (A ++ P ++ B) x = some v) : lookup (A ++ o :: B) x = some v := by
  rw [List.append_assoc, lookup_append, lookup_append] at h
  rw [show A ++ o :: B = A ++ ([o] ++ B) by simp, lookup_append, lookup_append]
  cases hA : lookup A x with
  | some w => rw [hA] at h; exact h
  | none =>
    rw [hA] at h
    cases hp : lookup P x with
    | some w => rw [hp] at h; rw [hP.lookup_sub hp]; exact h
    | none =>
      rw [hp] at h
      simp only [Option.none_or] at h ⊢
      have hox : ¬ Covers o x := fun hox => by
        obtain ⟨b, hb, hbx, -⟩ := exists_of_lookup_eq_some h
        have := (Valid.cons_iff.1 (Valid.append_iff.1 hv).2.1).2.1 b hb
        unfold Covers Before at *; bv_omega
      rw [lookup_cons, if_neg hox, lookup_nil, Option.none_or, h]

theorem Remnant.replace_weight (hP : Remnant n o P) :
    overlapWeight n (A ++ P ++ B) < overlapWeight n (A ++ o :: B) := by
  rw [show A ++ o :: B = A ++ [o] ++ B by simp]
  simp only [overlapWeight_append]
  have := hP.weight
  omega

end Replace

/-! ## The three remnants -/

section Cases

variable {n o : SegTreeNode}

/-- `n` covers `o`: nothing is left. -/
theorem remnant_covered (hov : Overlaps o n) (hs : n.start ≤ o.start)
    (he : o.«end» ≤ n.«end») : Remnant n o [] where
  valid := Valid.nil
  within := by simp
  intercept := by simp
  left := by simp [leftPiece_of_ge hs]
  right := by simp [rightPiece_of_le he]
  weight := by simp only [overlapWeight, if_pos hov]; split_ifs <;> simp

/-- `o` starts before `n`: the left part `[os, s - 1, op]` and the remaining part
`[s, oe, op + (s - os)]`, which still overlaps `n`. -/
theorem remnant_split (ho : o.start ≤ o.«end») (hn : n.start ≤ n.«end») (hov : Overlaps o n)
    (hs : o.start < n.start) :
    Remnant n o [⟨o.start, n.start - 1, o.ptr⟩, ⟨n.start, o.«end», o.ptr + (n.start - o.start)⟩] := by
  unfold Overlaps at hov
  refine ⟨?_, ?_, ?_, ?_, ?_, ?_⟩
  · refine Valid.cons_iff.2 ⟨by simp only; bv_omega, ?_, Valid.cons_iff.2 ⟨by simp only; bv_omega,
      by simp, Valid.nil⟩⟩
    simp only [List.mem_singleton, forall_eq, Before]; bv_omega
  · simp only [List.mem_cons, List.mem_singleton, forall_eq_or_imp, forall_eq,
      List.not_mem_nil, false_implies, implies_true, and_true]
    bv_omega
  · simp only [List.mem_cons, List.mem_singleton, forall_eq_or_imp, forall_eq,
      List.not_mem_nil, false_implies, implies_true, and_true]
    exact ⟨trivial, by abel⟩
  · have h1 : leftPiece n.start ⟨o.start, n.start - 1, o.ptr⟩ = some ⟨o.start, n.start - 1, o.ptr⟩ :=
      leftPiece_of_before (by simp only; bv_omega) (by simp only; bv_omega)
    have h2 : leftPiece n.start ⟨n.start, o.«end», o.ptr + (n.start - o.start)⟩ = none :=
      leftPiece_of_ge (by simp only; bv_omega)
    have h3 : leftPiece n.start o = some ⟨o.start, n.start - 1, o.ptr⟩ := by
      rw [leftPiece_eq_some, MIN_eq_right (by bv_omega)]; exact ⟨hs, rfl⟩
    rw [List.filterMap_cons_some h1, List.filterMap_cons_none h2, List.filterMap_cons_some h3]
  · rw [List.filterMap_cons_none (rightPiece_of_le (by simp only; bv_omega))]
    simp only [List.filterMap_cons, List.filterMap_nil]
    by_cases he : n.«end» < o.«end»
    · rw [rightPiece_eq_of_tail (p := ⟨n.start, o.«end», o.ptr + (n.start - o.start)⟩) (o := o)
        rfl (by simp only; bv_omega) (by simp only; bv_omega) (by simp only; abel)]
    · rw [rightPiece_of_le (e := n.«end») (p := ⟨n.start, o.«end», _⟩) (by simp only; bv_omega),
        rightPiece_of_le (by bv_omega)]
  · -- the left part ends before `n`, the remaining part starts at `n.start`
    have hl : ¬ Overlaps ⟨o.start, n.start - 1, o.ptr⟩ n := by unfold Overlaps; simp only; bv_omega
    rw [overlapWeight_cons, if_neg hl, overlapWeight_cons, overlapWeight_cons,
      if_pos (show Overlaps o n from hov), if_pos hs, if_neg (BitVec.lt_irrefl _)]
    split_ifs <;> omega

/-- `o` starts at or after `n` and runs past it: the right part `[e + 1, oe, op + (e + 1 - os)]`. -/
theorem remnant_right (ho : o.start ≤ o.«end») (hov : Overlaps o n) (hs : n.start ≤ o.start)
    (he : n.«end» < o.«end») :
    Remnant n o [⟨n.«end» + 1, o.«end», o.ptr + (n.«end» + 1 - o.start)⟩] := by
  unfold Overlaps at hov
  have hp : rightPiece n.«end» o = some ⟨n.«end» + 1, o.«end», o.ptr + (n.«end» + 1 - o.start)⟩ := by
    rw [rightPiece_eq_some, MAX_eq_right (by bv_omega)]; exact ⟨he, rfl⟩
  refine ⟨Valid.cons_iff.2 ⟨by simp only; bv_omega, by simp, Valid.nil⟩, ?_, ?_, ?_, ?_, ?_⟩
  · simp only [List.mem_singleton, forall_eq]; bv_omega
  · simp only [List.mem_singleton, forall_eq]; abel
  · rw [List.filterMap_cons_none (leftPiece_of_ge (s := n.start) (p := ⟨n.«end» + 1, o.«end», _⟩)
      (show n.start ≤ n.«end» + 1 by bv_omega)), List.filterMap_cons_none (leftPiece_of_ge hs)]
  · rw [List.filterMap_cons_some hp,
      List.filterMap_cons_some (rightPiece_of_after (by simp only; bv_omega) (by simp only; bv_omega))]
  · -- the right part starts after `n` ends
    have hr : ¬ Overlaps ⟨n.«end» + 1, o.«end», o.ptr + (n.«end» + 1 - o.start)⟩ n := by
      unfold Overlaps; simp only; bv_omega
    rw [overlapWeight_cons, if_neg hr, overlapWeight_cons, if_pos (show Overlaps o n from hov)]
    split_ifs <;> omega

end Cases

end UnifyCR
