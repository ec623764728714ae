import UnifyCR.SegTree.Ops
import UnifyCR.SegTree.Remnant

/-!
# The while loop of `seg_tree_add`

One pass (`addPass`) on a valid tree does one of three things (`addPass_cases`). It links the
new segment `n` when nothing overlaps it any more. Or it replaces the overlapping segment `o`
that `RB_INSERT` returned by a `Remnant` of it, keeping `count` in step unless
`resized->end + 1` wrapped. Or it leaves the loop on a failed allocation, with the tree as the
pass found it. Which overlapping segment the descent returns does not matter: every remnant
keeps the splice of the sequence with `n`.

The loop (`addLoop`) therefore ends, after at most `overlapWeight n l + 1` passes, with the
splice of the sequence it started from. Otherwise it stops on a failed allocation, with a valid
sequence of the same splice whose offset map is part of the old one (`addLoop_cases`).
-/

namespace UnifyCR

/-! ## Allocation and `get_non_overlapping_range` -/

/-- Every allocation of the list succeeds. -/
def AllocsSucceed (allocs : List Bool) : Prop := ∀ b ∈ allocs, b = true

theorem segTreeNodeAlloc_eq (allocs : List Bool) (start «end» ptr : Word) :
    segTreeNodeAlloc allocs start «end» ptr =
      (if allocs.headD true then some ⟨start, «end», ptr⟩ else none, allocs.tail) := by
  cases allocs <;> simp [segTreeNodeAlloc]

theorem allocsSucceed_nil : AllocsSucceed [] := fun _ h => absurd h (List.not_mem_nil _)

theorem AllocsSucceed.headD {allocs : List Bool} (h : AllocsSucceed allocs) :
    allocs.headD true = true := by
  cases allocs with
  | nil => rfl
  | cons b l => exact h b (by simp)

theorem AllocsSucceed.tail {allocs : List Bool} (h : AllocsSucceed allocs) :
    AllocsSucceed allocs.tail := fun b hb => h b (List.mem_of_mem_tail hb)

theorem AllocsSucceed.of_suffix {l₁ l₂ : List Bool} (h : AllocsSucceed l₂) (hs : l₁ <:+ l₂) :
    AllocsSucceed l₁ := fun b hb => h b (hs.subset hb)

section Range

variable {start1 end1 start2 end2 newStart newEnd : Word}

theorem getNonOverlappingRange_covered (hs : start2 ≤ start1) (he : end1 ≤ end2) :
    getNonOverlappingRange start1 end1 start2 end2 newStart newEnd = (1, newStart, newEnd) := by
  unfold getNonOverlappingRange; rw [if_pos ⟨hs, he⟩]

theorem getNonOverlappingRange_left (hs : start1 < start2) (hov : start2 ≤ end1) :
    getNonOverlappingRange start1 end1 start2 end2 newStart newEnd =
      (0, start1, start2 - 1) := by
  unfold getNonOverlappingRange
  rw [if_neg (by bv_omega), if_pos hs, MIN_eq_right (by bv_omega)]

theorem getNonOverlappingRange_right (hs : start2 ≤ start1) (hov : start1 ≤ end2)
    (he : end2 < end1) :
    getNonOverlappingRange start1 end1 start2 end2 newStart newEnd = (0, end2 + 1, end1) := by
  unfold getNonOverlappingRange
  rw [if_neg (by bv_omega), if_neg (by bv_omega)]
  by_cases h : start1 > start2 ∧ end1 > end2
  · rw [if_pos h, MAX_eq_right (by bv_omega)]
  · rw [if_neg h, if_pos (by bv_omega)]

end Range

/-! ## `RB_INSERT` in the loop -/

theorem rbInsert_eq_some {rb : Rebalance} {head head' : Inttree} {n o : SegTreeNode}
    (h : rbInsert rb head n = (head', some o)) :
    head' = head ∧ o ∈ head.toList ∧ Overlaps n o := by
  unfold rbInsert at h
  split at h
  · rename_i x hx
    cases h
    exact ⟨rfl, (Inttree.insert_eq_some hx).2⟩
  · cases h

theorem rbInsert_eq_none {rb : Rebalance} {head head' : Inttree} {n : SegTreeNode}
    (hv : Valid head.toList) (hn : n.start ≤ n.«end») (h : rbInsert rb head n = (head', none)) :
    (∀ a ∈ head.toList, ¬ Overlaps a n) ∧ head'.toList = splice head.toList n := by
  have hno : ∀ a ∈ head.toList, ¬ Overlaps a n := fun a ha hov => by
    obtain ⟨x, -, -, hx⟩ := rbInsert_of_overlaps rb n hv hn ⟨a, ha, hov⟩
    rw [hx] at h; cases h
  obtain ⟨-, h2⟩ := rbInsert_of_disjoint rb hv hn hno
  rw [h] at h2
  exact ⟨hno, h2.trans (splice_of_disjoint hn fun a ha => ⟨hv.wf a ha, hno a ha⟩).symm⟩

/-- A segment that fits between `A` and `B` is linked between them. -/
theorem rbInsert_between (rb : Rebalance) {head : Inttree} {A B : List SegTreeNode}
    {p : SegTreeNode} (hv : Valid (A ++ B)) (hp : p.start ≤ p.«end»)
    (hA : ∀ a ∈ A, Before a p) (hB : ∀ b ∈ B, Before p b) (hhead : head.toList = A ++ B) :
    (rbInsert rb head p).1.toList = A ++ p :: B := by
  have hwA : ∀ a ∈ A, a.start ≤ a.«end» := fun a ha => hv.wf a (by simp [ha])
  have hwB : ∀ b ∈ B, b.start ≤ b.«end» := fun b hb => hv.wf b (by simp [hb])
  rw [← hhead] at hv
  obtain ⟨-, h⟩ := rbInsert_of_disjoint rb hv hp fun a ha => by
    rw [hhead] at ha
    rcases List.mem_append.1 ha with ha | ha
    · exact not_overlaps_of_before (hA a ha)
    · exact fun h => not_overlaps_of_before (hB a ha) (overlaps_comm.1 h)
  rw [h, hhead, List.filter_append, List.filter_append,
    List.filter_eq_self.2 fun a ha => by simpa using hA a ha,
    List.filter_eq_nil_iff.2 fun b hb => by simpa using not_before_of_before hp (hwB b hb) (hB b hb),
    List.filter_eq_nil_iff.2 fun a ha => by simpa using not_before_of_before (hwA a ha) hp (hA a ha),
    List.filter_eq_self.2 fun b hb => by simpa using hB b hb]
  simp

/-- Segments that fit, in order, between `A` and `B` are linked there one after another. -/
theorem rbInsert_foldl_between (rb : Rebalance) {B : List SegTreeNode} :
    ∀ {P A : List SegTreeNode} {head : Inttree}, Valid (A ++ P ++ B) → head.toList = A ++ B →
      (P.foldl (fun h p => (rbInsert rb h p).1) head).toList = A ++ P ++ B
  | [], _, _, _, hhead => by simpa using hhead
  | p :: P, A, head, hv, hhead => by
    have hv' : Valid (A ++ p :: (P ++ B)) := by simpa using hv
    obtain ⟨-, hvpPB, hA⟩ := Valid.append_iff.1 hv'
    obtain ⟨hp, hpPB, -⟩ := Valid.cons_iff.1 hvpPB
    have h1 := rbInsert_between rb (hv'.sublist (by simp)) hp (fun a ha => hA a ha p (by simp))
      (fun b hb => hpPB b (by simp [hb])) hhead
    simpa using rbInsert_foldl_between rb (A := A ++ [p]) (by simpa using hv) (by simpa using h1)

/-- Taking `o` out of `A ++ o :: B`. -/
theorem toList_rbRemove_mid (rb : Rebalance) {head : Inttree} {A B : List SegTreeNode}
    {o : SegTreeNode} (hv : Valid head.toList) (hAB : head.toList = A ++ o :: B) :
    (rbRemove rb head o).toList = A ++ B := by
  have hoA : o ∉ A := fun h =>
    not_before_self (hv.wf o (by simp [hAB])) ((Valid.append_iff.1 (hAB ▸ hv)).2.2 o h o (by simp))
  rw [toList_rbRemove hv (by simp [hAB]), hAB, List.erase_append_right _ hoA,
    List.erase_cons_head]

/-! ## One pass -/

section Pass

variable (rb : Rebalance) {n : SegTreeNode} {s : AddState}

/-- Everything one pass can do on a valid tree: link `n` when nothing overlaps it, or, for the
overlapping `o` that `RB_INSERT` returned, put a remnant of `o` in its place, or stop on a
failed allocation. -/
theorem addPass_cases (hv : Valid s.head.toList) (hn : n.start ≤ n.«end») :
    (∃ head', rbInsert rb s.head n = (head', none) ∧
      addPass rb n s = .exit (.inserted { s with head := head' })) ∨
    ∃ A o B, s.head.toList = A ++ o :: B ∧ Overlaps n o ∧
      ((∃ P s', addPass rb n s = .again s' ∧ Remnant n o P ∧ s'.head.toList = A ++ P ++ B ∧
          s'.allocs <:+ s.allocs ∧
          (o.«end» + 1 ≠ 0 → s'.count + 1 = s.count + BitVec.ofNat 64 P.length)) ∨
        (∃ s', addPass rb n s = .exit (.enomem s') ∧ s'.head = s.head ∧ s'.count = s.count ∧
          s.allocs.headD true = false) ∨
        (addPass rb n s = .exit (.stuck .nullInsert) ∧ s.allocs.tail.headD true = false)) := by
  unfold addPass
  rcases hi : rbInsert rb s.head n with ⟨head', _ | o⟩
  · exact .inl ⟨head', rfl, rfl⟩
  obtain ⟨rfl, ho, hov⟩ := rbInsert_eq_some hi
  obtain ⟨A, B, hAB⟩ := List.append_of_mem ho
  refine .inr ⟨A, o, B, hAB, hov, ?_⟩
  dsimp only
  have hwo := hv.wf o ho
  have hrm := toList_rbRemove_mid rb hv hAB
  -- the pieces of a remnant, linked one after another where `o` was
  have hlink {P : List SegTreeNode} (hP : Remnant n o P) :=
    rbInsert_foldl_between rb (hP.replace_valid (hAB ▸ hv)) hrm
  have hov' := overlaps_comm.1 hov
  unfold Overlaps at hov
  by_cases hcov : n.start ≤ o.start ∧ o.«end» ≤ n.«end»
  · rw [getNonOverlappingRange_covered hcov.1 hcov.2]
    simp only [ne_eq, one_ne_zero, not_false_eq_true, if_true]
    exact .inl ⟨[], _, rfl, remnant_covered hov' hcov.1 hcov.2, by simpa using hrm,
      List.suffix_refl _, fun _ => by simp⟩
  by_cases hs : o.start < n.start
  · rw [getNonOverlappingRange_left hs hov.1]
    simp only [ne_eq, not_true_eq_false, if_false, segTreeNodeAlloc_eq, sub_add_cancel,
      sub_self, add_zero]
    cases h1 : s.allocs.headD true
    · exact .inr (.inl ⟨_, rfl, rfl, rfl, rfl⟩)
    rw [if_pos rfl]
    dsimp only
    rw [if_pos (by rw [sub_add_cancel]; exact ⟨BitVec.not_lt.1 (BitVec.lt_asymm hs), hov.1⟩)]
    cases h2 : s.allocs.tail.headD true
    · exact .inr (.inr ⟨rfl, rfl⟩)
    rw [if_pos rfl]
    have hP := remnant_split hwo hn hov' hs
    refine .inl ⟨_, _, rfl, hP, ?_, (List.tail_suffix _).trans (List.tail_suffix _),
      fun _ => by simp only [List.length]; abel⟩
    dsimp only
    rw [sub_add_cancel]
    exact hlink hP
  have hs' : n.start ≤ o.start := BitVec.not_lt.1 hs
  have he : n.«end» < o.«end» := BitVec.not_le.1 fun h => hcov ⟨hs', h⟩
  rw [getNonOverlappingRange_right hs' hov.2 he]
  simp only [ne_eq, not_true_eq_false, if_false, segTreeNodeAlloc_eq]
  cases h1 : s.allocs.headD true
  · exact .inr (.inl ⟨_, rfl, rfl, rfl, rfl⟩)
  rw [if_pos rfl]
  dsimp only
  have hP := remnant_right hwo hov' hs' he
  have hrm' := hlink hP
  by_cases ht : o.«end» + 1 ≥ o.start ∧ o.«end» + 1 ≤ o.«end»
  · rw [if_pos ht]
    cases h2 : s.allocs.tail.headD true
    · exact .inr (.inr ⟨rfl, rfl⟩)
    rw [if_pos rfl]
    refine .inl ⟨_, _, rfl, hP, ?_, (List.tail_suffix _).trans (List.tail_suffix _),
      fun h => absurd ht (by bv_omega)⟩
    -- `o` ends at `2^64 - 1`: the `remaining` node wraps round and overlaps `resized`
    obtain ⟨x, -, -, hx⟩ := rbInsert_of_overlaps rb
      ⟨o.«end» + 1, o.«end», o.ptr + (o.«end» + 1 - o.start)⟩
      (hrm' ▸ hP.replace_valid (hAB ▸ hv)) ht.2
      ⟨⟨n.«end» + 1, o.«end», o.ptr + (n.«end» + 1 - o.start)⟩, by rw [hrm']; simp,
        by unfold Overlaps; simp only; bv_omega⟩
    exact (congrArg (fun p => p.1.toList) hx).trans hrm'
  · rw [if_neg ht]
    exact .inl ⟨_, _, rfl, hP, hrm', List.tail_suffix _, fun _ => rfl⟩

/-- A pass that goes round again keeps the sequence valid and lowers the measure. -/
theorem addPass_again {s' : AddState} (hv : Valid s.head.toList) (hn : n.start ≤ n.«end»)
    (h : addPass rb n s = .again s') :
    Valid s'.head.toList ∧ overlapWeight n s'.head.toList < overlapWeight n s.head.toList := by
  rcases addPass_cases rb hv hn with
    ⟨_, _, h'⟩ | ⟨A, o, B, hAB, -, ⟨P, s'', h', hP, hs', -, -⟩ | ⟨_, h', -⟩ | ⟨h', -⟩⟩
  all_goals rw [h'] at h; cases h
  rw [hAB, hs']
  exact ⟨hP.replace_valid (hAB ▸ hv), hP.replace_weight⟩

/-- A split whose `resized` node is allocated and whose `remaining` node is not goes on to
`RB_INSERT(NULL)`: the code tests `resized` a second time where it means `remaining`. -/
theorem addPass_split_remaining_fails {o : SegTreeNode} (hi : rbInsert rb s.head n = (s.head, some o))
    (hs : o.start < n.start) (hov : n.start ≤ o.«end») (h1 : s.allocs.headD true = true)
    (h2 : s.allocs.tail.headD true = false) :
    addPass rb n s = .exit (.stuck .nullInsert) := by
  unfold addPass
  rw [hi]
  dsimp only
  rw [getNonOverlappingRange_left hs hov]
  simp only [ne_eq, not_true_eq_false, if_false, segTreeNodeAlloc_eq, h1, if_true]
  rw [if_pos (by bv_omega), h2]
  rfl

end Pass

/-! ## The loop -/

/-- What the loop leaves of the sequence `l` when it stops early: a valid sequence `l'` with the
same splice with `n`, whose offset map is part of the map of `l`. -/
structure PartlyCoalesced (n : SegTreeNode) (l l' : List SegTreeNode) : Prop where
  valid : Valid l'
  splice_eq : splice l' n = splice l n
  lookup_sub : ∀ x v, lookup l' x = some v → lookup l x = some v

theorem PartlyCoalesced.refl {n : SegTreeNode} {l : List SegTreeNode} (hv : Valid l) :
    PartlyCoalesced n l l := ⟨hv, rfl, fun _ _ => id⟩

theorem PartlyCoalesced.trans {n : SegTreeNode} {l₁ l₂ l₃ : List SegTreeNode}
    (h₁ : PartlyCoalesced n l₁ l₂) (h₂ : PartlyCoalesced n l₂ l₃) : PartlyCoalesced n l₁ l₃ :=
  ⟨h₂.valid, h₂.splice_eq.trans h₁.splice_eq,
    fun x v h => h₁.lookup_sub x v (h₂.lookup_sub x v h)⟩

theorem Remnant.partlyCoalesced {n o : SegTreeNode} {A B P : List SegTreeNode}
    (hP : Remnant n o P) (hv : Valid (A ++ o :: B)) :
    PartlyCoalesced n (A ++ o :: B) (A ++ P ++ B) :=
  ⟨hP.replace_valid hv, hP.replace_splice, fun _ _ => hP.replace_lookup hv⟩

section Loop

variable {n : SegTreeNode}

/-- No segment ends at `2^64 - 1`, where `resized->end + 1` wraps. -/
def BelowTop (l : List SegTreeNode) : Prop := ∀ a ∈ l, a.«end» + 1 ≠ 0

theorem BelowTop.remnant {o : SegTreeNode} {A B P : List SegTreeNode} (hb : BelowTop (A ++ o :: B))
    (hP : Remnant n o P) : BelowTop (A ++ P ++ B) := by
  intro a ha
  simp only [List.mem_append] at ha
  rcases ha with (ha | ha) | ha
  · exact hb a (by simp [ha])
  · have := hP.within a ha; have := hb o (by simp); bv_omega
  · exact hb a (by simp [ha])

/-- The `count` of a pass that replaced one of `a + 1 + b` segments by `p` of them. -/
theorem count_replace {c c' : Word} {a b p : Nat} (h : c' + 1 = c + BitVec.ofNat 64 p)
    (hc : c = BitVec.ofNat 64 (a + (b + 1))) : c' = BitVec.ofNat 64 (a + p + b) := by
  refine add_right_cancel (b := 1) ?_
  calc c' + 1 = BitVec.ofNat 64 (a + (b + 1)) + BitVec.ofNat 64 p := by rw [h, hc]
    _ = BitVec.ofNat 64 (a + p + b + 1) := by rw [BitVec.ofNat_add_ofNat]; congr 1; omega
    _ = BitVec.ofNat 64 (a + p + b) + 1 := (BitVec.ofNat_add_ofNat _ 1).symm

theorem addLoop_succ_again {rb : Rebalance} {fuel : Nat} {s s' : AddState} (h : addPass rb n s = .again s') :
    addLoop rb n (fuel + 1) s = addLoop rb n fuel s' := by
  rw [addLoop, h]

theorem addLoop_succ_exit {rb : Rebalance} {fuel : Nat} {s : AddState} {e : AddExit}
    (h : addPass rb n s = .exit e) : addLoop rb n (fuel + 1) s = e := by
  rw [addLoop, h]

/-- With more fuel than the measure, the loop links `n` into the splice of the sequence it
started from, or stops on a failed allocation, with what `PartlyCoalesced` allows or stuck at
`RB_INSERT(NULL)`. It never runs out of fuel. -/
theorem addLoop_cases (rb : Rebalance) (fuel : Nat) (s : AddState) (hv : Valid s.head.toList)
    (hn : n.start ≤ n.«end») (hf : overlapWeight n s.head.toList < fuel) :
    (∃ s', addLoop rb n fuel s = .inserted s' ∧ s'.head.toList = splice s.head.toList n ∧
      (BelowTop s.head.toList → s.count = BitVec.ofNat 64 s.head.toList.length →
        s'.count + 1 = BitVec.ofNat 64 s'.head.toList.length)) ∨
    ¬ AllocsSucceed s.allocs ∧
      ((∃ s', addLoop rb n fuel s = .enomem s' ∧
          PartlyCoalesced n s.head.toList s'.head.toList) ∨
        addLoop rb n fuel s = .stuck .nullInsert) := by
  induction fuel generalizing s with
  | zero => omega
  | succ fuel ih =>
    rcases addPass_cases rb hv hn with
      ⟨head', hi, h⟩ | ⟨A, o, B, hAB, -, ⟨P, s', h, hP, hs', hsuf, hcnt⟩ | ⟨s', h, hhead, -, h1⟩ | ⟨h, h1⟩⟩
    · obtain ⟨hno, hsp⟩ := rbInsert_eq_none hv hn hi
      have hlen := length_splice_of_disjoint hn fun a ha => ⟨hv.wf a ha, hno a ha⟩
      refine .inl ⟨_, addLoop_succ_exit h, hsp, fun _ hc => ?_⟩
      show s.count + 1 = _
      rw [hsp, hlen, hc]; exact BitVec.ofNat_add_ofNat _ 1
    · have hc : PartlyCoalesced n s.head.toList s'.head.toList := by
        rw [hAB, hs']; exact hP.partlyCoalesced (hAB ▸ hv)
      have hw := hP.replace_weight (A := A) (B := B)
      rw [← hAB, ← hs'] at hw
      rw [addLoop_succ_again h]
      rcases ih s' hc.valid (by omega) with ⟨s'', h'', hsp, hcnt'⟩ | ⟨ha, hi⟩
      · refine .inl ⟨s'', h'', hsp.trans hc.splice_eq, fun hb hcount => hcnt' ?_ ?_⟩
        · rw [hs']; exact (hAB ▸ hb).remnant hP
        · rw [hAB] at hcount
          rw [hs']; simp only [List.length_append, List.length_cons] at hcount ⊢
          exact count_replace (hcnt (hb o (by simp [hAB]))) hcount
      · refine .inr ⟨fun h => ha (h.of_suffix hsuf), ?_⟩
        rcases hi with ⟨s'', h'', hc'⟩ | hi
        · exact .inl ⟨s'', h'', hc.trans hc'⟩
        · exact .inr hi
    · refine .inr ⟨fun ha => ?_, .inl ⟨s', addLoop_succ_exit h, by rw [hhead]; exact .refl hv⟩⟩
      rw [ha.headD] at h1; cases h1
    · refine .inr ⟨fun ha => ?_, .inr (addLoop_succ_exit h)⟩
      rw [ha.tail.headD] at h1; cases h1

end Loop

end UnifyCR
