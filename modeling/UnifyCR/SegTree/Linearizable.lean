import UnifyCR.SegTree.Threads

/-!
# Interleaved threads see one sequential run

The invariant `Inv` of every interleaving of the threads' steps:

* **The lock.** The thread inside a write section is the lock's writer, the threads inside a
  read section are its readers, and a writer excludes readers. So a thread inside a write section
  is alone (`interleaved_mutual_exclusion`).
* **The log.** Replaying the log of returned calls with the sequential model from
  `seg_tree_init` reproduces every return value and ends in a state `t` a sequential run reaches.
  The shared tree is `t` itself, except while a thread is inside a write section: then it is `t`
  locked, or, inside `seg_tree_add`'s loop, the state its passes have reached from `t`. The loop
  itself has no bound; `addLoop_of_passes` shows it leaves exactly as the sequential model's
  bounded loop does (`interleaved_calls_linearize`). Since the log only grows, each of its
  prefixes was the log of an earlier state: every returned call ran on a reachable tree, and an
  iteration returned that tree's segments in order (`interleaved_calls_see_reachable_trees`).
* **Readers.** A thread iterating has seen a prefix of the tree's sequence, ending at the node
  it passes to `seg_tree_iter`; the tree does not change under it.

`seg_tree_add` returns `ENOMEM` from inside its loop without `seg_tree_unlock`. From then on the
lock is never released: every thread that takes it waits forever or aborts, and the only calls
that still return are `seg_tree_add`s whose own node cannot be allocated
(`interleaved_enomem_lock_never_released`).
-/

namespace UnifyCR

/-! ## Where threads are -/

namespace Pc

theorem afterWrlock_spec {p q : Pc} (h : p.afterWrlock = some q) :
    ¬ p.InWrite ∧ ¬ p.InRead ∧ q.InWrite ∧ ¬ q.InRead ∧ ∀ a allocs, q ≠ .addLock a allocs := by
  cases p <;> simp only [afterWrlock, Option.some.injEq, reduceCtorEq] at h <;> subst h <;>
    simp [InWrite, InRead]

theorem afterRdlock_spec {p q : Pc} (h : p.afterRdlock = some q) :
    ¬ p.InWrite ∧ ¬ p.InRead ∧ ¬ q.InWrite ∧ q.InRead ∧ ∀ a allocs, q ≠ .addLock a allocs := by
  cases p <;> simp only [afterRdlock, Option.some.injEq, reduceCtorEq] at h <;> subst h <;>
    simp [InWrite, InRead]

theorem waitingCall_not_inWrite {p : Pc} {c : Call} (h : p.waitingCall = some c) : ¬ p.InWrite := by
  cases p <;> simp_all [waitingCall, InWrite]

theorem lockPc_spec {c : Call} {p : Pc} (h : c.lockPc = some p) :
    ¬ p.InWrite ∧ ¬ p.InRead ∧ ∀ a allocs, p ≠ .addLock a allocs := by
  cases c <;> simp only [Call.lockPc, Option.some.injEq, reduceCtorEq] at h <;> subst h <;>
    simp [InWrite, InRead]

@[simp] theorem idle_not_inWrite : ¬ Pc.idle.InWrite := id

@[simp] theorem idle_not_inRead : ¬ Pc.idle.InRead := id

end Pc

/-! ## The loop without a bound -/

/-- A pass of `seg_tree_add`'s loop for the node `n` that goes round again. -/
def AddAgain (rb : Rebalance) (n : SegTreeNode) (s s' : AddState) : Prop :=
  addPass rb n s = .again s'

section Loop

variable {rb : Rebalance} {n : SegTreeNode}

/-- Passes of the loop from `s₀` that reach `s`, where the loop leaves with `e`: the bounded loop
of the sequential model, with more fuel than the measure, leaves with `e` too. -/
theorem addLoop_of_passes (hn : n.start ≤ n.«end») {s₀ s : AddState}
    (hp : Relation.ReflTransGen (AddAgain rb n) s₀ s) {e : AddExit}
    (he : addPass rb n s = .exit e) :
    Valid s₀.head.toList → ∀ fuel, overlapWeight n s₀.head.toList < fuel →
      addLoop rb n fuel s₀ = e := by
  induction hp using Relation.ReflTransGen.head_induction_on with
  | refl =>
    rintro - (_ | fuel) hf
    · cases hf
    · exact addLoop_succ_exit he
  | head hab _ ih =>
    rintro hv (_ | fuel) hf
    · cases hf
    · obtain ⟨hv', hw⟩ := addPass_again rb hv hn hab
      rw [addLoop_succ_again hab]
      exact ih hv' fuel (by omega)

/-- A `seg_tree_add` on an unlocked valid tree whose loop, run pass by pass, leaves with `e`. -/
theorem segTreeAdd_of_passes {t : SegTree} (hv : Valid t.segments) (hl : t.wrlocked = false)
    {a : AddArgs} (hse : a.start ≤ a.«end») {allocs₀ : List Bool}
    (hal : segTreeNodeAlloc a.allocs a.start a.«end» a.ptr = (some a.node, allocs₀)) {s : AddState}
    (hp : Relation.ReflTransGen (AddAgain rb a.node) ⟨t.head, t.count, 0, 0, allocs₀⟩ s)
    {e : AddExit} (he : addPass rb a.node s = .exit e) :
    segTreeAdd rb t a.start a.«end» a.ptr a.allocs =
      match e with
      | .inserted s => .ok (0, ⟨s.head, s.count + 1, MAX t.max a.«end», false⟩)
      | .enomem s => .ok (ENOMEM, ⟨s.head, s.count, t.max, true⟩)
      | .stuck why => .error why := by
  rw [segTreeAdd, hal]
  dsimp only
  rw [segTreeWrlock_of_unlocked hl]
  dsimp only [bind, Except.bind]
  rw [SegTree.segments_mk, addLoop_of_passes hse hp he hv (2 * t.head.toList.length + 1)
    (Nat.lt_succ_of_le (overlapWeight_le _ _))]
  cases e <;> rfl

end Loop

/-! ## `seg_tree_iter` from the last node seen -/

/-- `seg_tree_iter` from the last node of a prefix of a valid tree's sequence returns the node
after the prefix (from `NULL` for the empty prefix). -/
theorem segTreeIter_getLast {head : Inttree} (hv : Valid head.toList)
    {seen rest : List SegTreeNode} (h : head.toList = seen ++ rest) :
    segTreeIter head seen.getLast? = rest.head? := by
  rcases List.eq_nil_or_concat seen with rfl | ⟨A, x, rfl⟩
  · rw [List.getLast?_nil, segTreeIter, Inttree.min_eq, h, List.nil_append]
  · rw [List.concat_eq_append, List.getLast?_concat, segTreeIter_of_mem hv (by simpa using h)]

/-! ## The invariant -/

/-- How the shared state `s` stands to the state `t` of the sequential replay, given the place of
the thread holding the lock for writing. -/
def AgreesAt (rb : Rebalance) (t : SegTree) (s : Sys) : Pc → Prop
  | .addLoop a newStart newEnd allocs =>
    t.wrlocked = false ∧ s.max = t.max ∧ a.start ≤ a.«end» ∧
      ∃ allocs₀, segTreeNodeAlloc a.allocs a.start a.«end» a.ptr = (some a.node, allocs₀) ∧
        Relation.ReflTransGen (AddAgain rb a.node) ⟨t.head, t.count, 0, 0, allocs₀⟩
          (s.addState newStart newEnd allocs)
  | .clearBody | .countBody | .maxBody => t = { s.tree with wrlocked := false }
  | _ => s.tree = t

/-- The shared state agrees with the state `t` of the sequential replay. -/
def Agrees (rb : Rebalance) (t : SegTree) (s : Sys) : Prop :=
  match s.writer with
  | none => s.tree = t
  | some i => AgreesAt rb t s (s.pcs i)

/-- What holds of every state the threads reach. -/
structure Inv (rb : Rebalance) (s : Sys) : Prop where
  writer : ∀ i, (s.pcs i).InWrite → s.writer = some i
  readers : ∀ i, i ∈ s.readers ↔ (s.pcs i).InRead
  nodup : s.readers.Nodup
  excl : ∀ i, s.writer = some i → s.readers = []
  waiting : ∀ i a allocs, s.pcs i = .addLock a allocs →
    a.start ≤ a.«end» ∧ segTreeNodeAlloc a.allocs a.start a.«end» a.ptr = (some a.node, allocs)
  reading : ∀ i node seen, s.pcs i = .iterNext node seen →
    ∃ rest, s.head.toList = seen ++ rest ∧ seen.getLast? = node
  serial : ∃ t, seqRun rb segTreeInit s.log = some t ∧ Reachable rb (fun _ => True) t ∧
    Agrees rb t s ∧ ∀ why, s.crashed = some why → ∃ c, seqCall rb t c = .error why

section Inv

variable {rb : Rebalance} {s : Sys} {t : SegTree}

theorem agreesAt_of_not_inWrite {p : Pc} (h : ¬ p.InWrite) : AgreesAt rb t s p ↔ s.tree = t := by
  cases p <;> first | exact Iff.rfl | exact absurd trivial h

theorem agreesAt_congr {s' : Sys} (hh : s'.head = s.head) (hc : s'.count = s.count)
    (hm : s'.max = s.max) (hw : s'.writer = s.writer) (p : Pc) :
    AgreesAt rb t s' p ↔ AgreesAt rb t s p := by
  cases p <;> simp only [AgreesAt, Sys.tree, Sys.addState, hh, hc, hm, hw]

theorem agrees_of_writer_none (hw : s.writer = none) : Agrees rb t s ↔ s.tree = t := by
  unfold Agrees; rw [hw]

theorem agrees_of_writer_some {i : Nat} (hw : s.writer = some i) :
    Agrees rb t s ↔ AgreesAt rb t s (s.pcs i) := by
  unfold Agrees; rw [hw]

theorem Inv.init : Inv rb Sys.init where
  writer _ h := False.elim h
  readers _ := by simp [Sys.init, Pc.InRead]
  nodup := List.nodup_nil
  excl _ h := by cases h
  waiting _ _ _ h := by cases h
  reading _ _ _ h := by cases h
  serial := ⟨segTreeInit, rfl, .init, rfl, fun _ h => by cases h⟩

theorem Inv.not_inRead (hi : Inv rb s) {w : Nat} (hw : s.writer = some w) (j : Nat) :
    ¬ (s.pcs j).InRead := fun h => by
  simpa [hi.excl w hw] using (hi.readers j).2 h

theorem Inv.writer_eq_none (hi : Inv rb s) {i : Nat} (h : (s.pcs i).InRead) : s.writer = none := by
  cases hw : s.writer with
  | none => rfl
  | some w => exact absurd h (hi.not_inRead hw i)

/-- The tree a reader sees is the replayed state, unlocked. -/
theorem Inv.tree_of_inRead (hi : Inv rb s) {i : Nat} (h : (s.pcs i).InRead) {t : SegTree}
    (ha : Agrees rb t s) : s.tree = t := by
  exact (agrees_of_writer_none (hi.writer_eq_none h)).1 ha

theorem seqRun_snoc {log : List Event} {t t' : SegTree} (hr : seqRun rb segTreeInit log = some t)
    {e : Event} (he : seqCall rb t e.call = .ok (e.ret, t')) :
    seqRun rb segTreeInit (log ++ [e]) = some t' := by
  rw [seqRun_append, hr]; exact seqEvent_eq_some.2 he

/-! ### One lemma per kind of step -/

/-- A thread moves between places outside the lock's sections. -/
theorem Inv.setPc (hi : Inv rb s) {i : Nat} {p : Pc}
    (hq : ¬ (s.pcs i).InWrite ∧ ¬ (s.pcs i).InRead) (hp : ¬ p.InWrite ∧ ¬ p.InRead)
    (hw : ∀ a allocs, p = .addLock a allocs →
      a.start ≤ a.«end» ∧ segTreeNodeAlloc a.allocs a.start a.«end» a.ptr = (some a.node, allocs)) :
    Inv rb (s.setPc i p) := by
  obtain ⟨t, hr, ht, ha, hc⟩ := hi.serial
  refine ⟨fun j hj => ?_, fun j => ?_, hi.nodup, hi.excl, fun j a allocs h => ?_,
    fun j node seen h => ?_, t, hr, ht, ?_, hc⟩
  · rcases eq_or_ne j i with rfl | hji
    · simp only [Sys.setPc_pcs, Function.update_same] at hj; exact absurd hj hp.1
    · simp only [Sys.setPc_pcs, Function.update_noteq hji] at hj; exact hi.writer j hj
  · rcases eq_or_ne j i with rfl | hji
    · simp only [Sys.setPc_readers, Sys.setPc_pcs, Function.update_same]
      exact iff_of_false (fun h => hq.2 ((hi.readers j).1 h)) hp.2
    · simp only [Sys.setPc_readers, Sys.setPc_pcs, Function.update_noteq hji]; exact hi.readers j
  · rcases eq_or_ne j i with rfl | hji
    · simp only [Sys.setPc_pcs, Function.update_same] at h; exact hw a allocs h
    · simp only [Sys.setPc_pcs, Function.update_noteq hji] at h; exact hi.waiting j a allocs h
  · rcases eq_or_ne j i with rfl | hji
    · simp only [Sys.setPc_pcs, Function.update_same] at h; subst h; exact absurd trivial hp.2
    · simp only [Sys.setPc_pcs, Function.update_noteq hji] at h; exact hi.reading j node seen h
  · rcases hwr : s.writer with _ | w
    · rw [agrees_of_writer_none (by exact hwr)]; exact (agrees_of_writer_none hwr).1 ha
    · rw [agrees_of_writer_some hwr] at ha
      rw [agrees_of_writer_some (by exact hwr), agreesAt_congr rfl rfl rfl rfl]
      rcases eq_or_ne w i with rfl | hwi
      · rw [Sys.setPc_pcs, Function.update_same, agreesAt_of_not_inWrite hp.1]
        exact (agreesAt_of_not_inWrite hq.1).1 ha
      · rwa [Sys.setPc_pcs, Function.update_noteq hwi]

/-- The process aborts, for a reason the sequential model aborts with too. -/
theorem Inv.crash (hi : Inv rb s) {why : Stuck}
    (hc : ∀ t, Reachable rb (fun _ => True) t → Agrees rb t s → ∃ c, seqCall rb t c = .error why) :
    Inv rb { s with crashed := some why } := by
  obtain ⟨t, hr, ht, ha, -⟩ := hi.serial
  exact ⟨hi.writer, hi.readers, hi.nodup, hi.excl, hi.waiting, hi.reading, t, hr, ht, ha,
    fun _ h => by cases h; exact hc t ht ha⟩

/-- `seg_tree_add` returns `ENOMEM` before it touches the lock. -/
theorem Inv.addNoMem (hi : Inv rb s) (hcr : s.crashed = none) {i : Nat} {a : AddArgs}
    (hpc : s.pcs i = .idle) (hal : (segTreeNodeAlloc a.allocs a.start a.«end» a.ptr).1 = none) :
    Inv rb (s.ret i (.add a) (.rc ENOMEM)) := by
  have h1 : a.allocs.headD true = false := by simpa [segTreeNodeAlloc_eq] using hal
  have hs : s.ret i (.add a) (.rc ENOMEM) =
      { s with log := s.log ++ [⟨i, .add a, .rc ENOMEM⟩] } := by
    rw [Sys.ret, ← hpc, Function.update_eq_self]
  obtain ⟨t, hr, ht, ha, -⟩ := hi.serial
  rw [hs]
  refine ⟨hi.writer, hi.readers, hi.nodup, hi.excl, hi.waiting, hi.reading, t,
    seqRun_snoc hr ?_, ht, ha, fun _ h => (by simp [hcr] at h)⟩
  rw [seqCall, segTreeAdd, segTreeNodeAlloc_eq, h1]; rfl

/-- `seg_tree_wrlock` on a free lock. -/
theorem Inv.wrlock (hi : Inv rb s) (hcr : s.crashed = none) {i : Nat} {p : Pc}
    (hp : (s.pcs i).afterWrlock = some p) (hw : s.writer = none) (hrd : s.readers = []) :
    Inv rb { s.setPc i p with writer := some i } := by
  obtain ⟨-, -, hpw, hpr, hpa⟩ := Pc.afterWrlock_spec hp
  obtain ⟨t, hr, ht, ha, -⟩ := hi.serial
  rw [agrees_of_writer_none hw] at ha; subst ha
  refine ⟨fun j hj => ?_, fun j => ?_, by simp [hrd], fun _ _ => hrd, fun j a allocs h => ?_,
    fun j node seen h => ?_, s.tree, hr, ht, ?_, fun _ h => (by simp [hcr] at h)⟩
  · rcases eq_or_ne j i with rfl | hji
    · rfl
    · simp only [Sys.setPc_pcs, Function.update_noteq hji] at hj
      rw [hi.writer j hj] at hw; cases hw
  · rcases eq_or_ne j i with rfl | hji
    · simp only [Sys.setPc_readers, Sys.setPc_pcs, Function.update_same, hrd]
      exact iff_of_false (List.not_mem_nil j) hpr
    · simp only [Sys.setPc_readers, Sys.setPc_pcs, Function.update_noteq hji]; exact hi.readers j
  · rcases eq_or_ne j i with rfl | hji
    · simp only [Sys.setPc_pcs, Function.update_same] at h; exact absurd h (hpa a allocs)
    · simp only [Sys.setPc_pcs, Function.update_noteq hji] at h; exact hi.waiting j a allocs h
  · rcases eq_or_ne j i with rfl | hji
    · simp only [Sys.setPc_pcs, Function.update_same] at h; subst h; exact absurd trivial hpr
    · simp only [Sys.setPc_pcs, Function.update_noteq hji] at h; exact hi.reading j node seen h
  · show AgreesAt rb s.tree _ (Function.update s.pcs i p i)
    rw [Function.update_same]
    cases hq : s.pcs i <;> simp only [hq, Pc.afterWrlock, Option.some.injEq, reduceCtorEq] at hp <;>
      subst hp
    · obtain ⟨hse, hal⟩ := hi.waiting i _ _ hq
      exact ⟨by simp [Sys.tree, hw], rfl, hse, _, hal, .refl⟩
    all_goals simp [AgreesAt, Sys.tree, hw]

/-- `seg_tree_rdlock` on a lock no thread holds for writing. -/
theorem Inv.rdlock (hi : Inv rb s) (hcr : s.crashed = none) {i : Nat} {p : Pc}
    (hp : (s.pcs i).afterRdlock = some p) (hw : s.writer = none) :
    Inv rb { s.setPc i p with readers := i :: s.readers } := by
  obtain ⟨-, hqr, hpw, hpr, hpa⟩ := Pc.afterRdlock_spec hp
  obtain ⟨t, hr, ht, ha, -⟩ := hi.serial
  refine ⟨fun j hj => ?_, fun j => ?_,
    List.nodup_cons.2 ⟨fun h => hqr ((hi.readers i).1 h), hi.nodup⟩,
    fun _ h => (by simp [hw] at h), fun j a allocs h => ?_, fun j node seen h => ?_, t, hr, ht, ?_,
    fun _ h => (by simp [hcr] at h)⟩
  · rcases eq_or_ne j i with rfl | hji
    · simp only [Sys.setPc_pcs, Function.update_same] at hj; exact absurd hj hpw
    · simp only [Sys.setPc_pcs, Function.update_noteq hji] at hj
      rw [hi.writer j hj] at hw; cases hw
  · rcases eq_or_ne j i with rfl | hji
    · simp only [Sys.setPc_pcs, Function.update_same]
      exact iff_of_true (List.mem_cons_self j _) hpr
    · simp only [Sys.setPc_pcs, Function.update_noteq hji, List.mem_cons, hji, false_or]
      exact hi.readers j
  · rcases eq_or_ne j i with rfl | hji
    · simp only [Sys.setPc_pcs, Function.update_same] at h; exact absurd h (hpa a allocs)
    · simp only [Sys.setPc_pcs, Function.update_noteq hji] at h; exact hi.waiting j a allocs h
  · rcases eq_or_ne j i with rfl | hji
    · simp only [Sys.setPc_pcs, Function.update_same] at h
      subst h
      cases hq : s.pcs j <;> simp only [hq, Pc.afterRdlock, Option.some.injEq, reduceCtorEq] at hp
      cases hp
      exact ⟨_, rfl, rfl⟩
    · simp only [Sys.setPc_pcs, Function.update_noteq hji] at h; exact hi.reading j node seen h
  · rw [agrees_of_writer_none (by exact hw)]; exact (agrees_of_writer_none hw).1 ha

/-- A step of the thread `i` holding the lock for writing, which moves it to `p` and may release
the lock, changes nothing else about the threads: the lock's part of the invariant carries over,
and the caller gives the replay. -/
theorem Inv.writerStep (hi : Inv rb s) {i : Nat} (hw : s.writer = some i) {s' : Sys} {p : Pc}
    (hpcs : s'.pcs = Function.update s.pcs i p) (hrd : s'.readers = s.readers)
    (hwr : s'.writer = some i ∨ s'.writer = none) (hpw : p.InWrite → s'.writer = some i)
    (hpr : ¬ p.InRead) (hpa : ∀ a allocs, p ≠ .addLock a allocs)
    (hser : ∃ t, seqRun rb segTreeInit s'.log = some t ∧ Reachable rb (fun _ => True) t ∧
      Agrees rb t s' ∧ ∀ why, s'.crashed = some why → ∃ c, seqCall rb t c = .error why) :
    Inv rb s' := by
  have hnil := hi.excl i hw
  refine ⟨fun j hj => ?_, fun j => ?_, by simp [hrd, hnil], fun _ _ => by rw [hrd, hnil],
    fun j a allocs h => ?_, fun j node seen h => ?_, hser⟩
  all_goals rw [hpcs] at *
  · rcases eq_or_ne j i with rfl | hji
    · rw [Function.update_same] at hj; exact hpw hj
    · rw [Function.update_noteq hji] at hj
      cases (hi.writer j hj).symm.trans hw; exact absurd rfl hji
  · rw [hrd, hnil]
    rcases eq_or_ne j i with rfl | hji
    · rw [Function.update_same]; exact iff_of_false (List.not_mem_nil j) hpr
    · rw [Function.update_noteq hji]; exact iff_of_false (List.not_mem_nil j) (hi.not_inRead hw j)
  · rcases eq_or_ne j i with rfl | hji
    · rw [Function.update_same] at h; exact absurd h (hpa a allocs)
    · rw [Function.update_noteq hji] at h; exact hi.waiting j a allocs h
  · rcases eq_or_ne j i with rfl | hji
    · rw [Function.update_same] at h; subst h; exact absurd trivial hpr
    · rw [Function.update_noteq hji] at h; exact absurd (h ▸ trivial) (hi.not_inRead hw j)

/-- A pass of `seg_tree_add`'s loop that goes round again. -/
theorem Inv.pass (hi : Inv rb s) (hcr : s.crashed = none) {i : Nat} {a : AddArgs}
    {newStart newEnd : Word} {allocs : List Bool} {s' : AddState}
    (hpc : s.pcs i = .addLoop a newStart newEnd allocs)
    (hp : addPass rb a.node (s.addState newStart newEnd allocs) = .again s') :
    Inv rb { s.setPc i (.addLoop a s'.newStart s'.newEnd s'.allocs) with
      head := s'.head, count := s'.count } := by
  have hw := hi.writer i (by rw [hpc]; trivial)
  obtain ⟨t, hr, ht, ha, -⟩ := hi.serial
  rw [agrees_of_writer_some hw, hpc] at ha
  obtain ⟨hl, hm, hse, allocs₀, hal, hpath⟩ := ha
  refine hi.writerStep hw rfl rfl (.inl hw) (fun _ => hw) id (fun _ _ => nofun)
    ⟨t, hr, ht, ?_, fun _ h => (by simp [hcr] at h)⟩
  rw [agrees_of_writer_some (by exact hw), Sys.setPc_pcs, Function.update_same]
  exact ⟨hl, hm, hse, allocs₀, hal, hpath.tail hp⟩

/-- The thread inside a write section returns `r` from `c` and releases the lock, leaving the
tree `⟨head, count, max⟩`, which the sequential model reaches from the replayed state. -/
theorem Inv.release (hi : Inv rb s) (hcr : s.crashed = none) {i : Nat}
    (hin : (s.pcs i).InWrite) {c : Call} {r : Ret} {head : Inttree} {count max : Word}
    (hseq : ∀ t, Reachable rb (fun _ => True) t → AgreesAt rb t s (s.pcs i) →
      seqCall rb t c = .ok (r, ⟨head, count, max, false⟩) ∧
        Reachable rb (fun _ => True) ⟨head, count, max, false⟩) :
    Inv rb { s.ret i c r with head, count, max, writer := none } := by
  have hw := hi.writer i hin
  obtain ⟨t, hr, ht, ha, -⟩ := hi.serial
  rw [agrees_of_writer_some hw] at ha
  obtain ⟨hs, ht'⟩ := hseq t ht ha
  exact hi.writerStep hw rfl rfl (.inr rfl) nofun id (fun _ _ => nofun)
    ⟨_, seqRun_snoc hr hs, ht', (agrees_of_writer_none rfl).2 rfl, fun _ h => (by simp [hcr] at h)⟩

/-- `seg_tree_add` returns `ENOMEM` from inside its loop, the lock still held. -/
theorem Inv.enomem (hi : Inv rb s) (hcr : s.crashed = none) {i : Nat} {a : AddArgs}
    {newStart newEnd : Word} {allocs : List Bool} {s' : AddState}
    (hpc : s.pcs i = .addLoop a newStart newEnd allocs)
    (hp : addPass rb a.node (s.addState newStart newEnd allocs) = .exit (.enomem s')) :
    Inv rb { s.ret i (.add a) (.rc ENOMEM) with head := s'.head, count := s'.count } := by
  have hw := hi.writer i (by rw [hpc]; trivial)
  obtain ⟨t, hr, ht, ha, -⟩ := hi.serial
  rw [agrees_of_writer_some hw, hpc] at ha
  obtain ⟨hl, hm, hse, allocs₀, hal, hpath⟩ := ha
  have hadd := segTreeAdd_of_passes ht.valid hl hse hal hpath hp
  refine hi.writerStep hw rfl rfl (.inl hw) nofun id (fun _ _ => nofun)
    ⟨_, seqRun_snoc hr (by simp only [seqCall, hadd]; rfl), .add ht hse trivial hadd, ?_,
      fun _ h => (by simp [hcr] at h)⟩
  rw [agrees_of_writer_some (by exact hw), Sys.ret_pcs, Function.update_same]
  show (⟨s'.head, s'.count, s.max, s.writer.isSome⟩ : SegTree) = _
  rw [hw, hm]; rfl

/-- A reader's `seg_tree_iter` returns the node after those it has seen. -/
theorem Inv.iterNext (hi : Inv rb s) (hcr : s.crashed = none) {i : Nat}
    {node : Option SegTreeNode} {seen : List SegTreeNode} {next : SegTreeNode}
    (hpc : s.pcs i = .iterNext node seen) (hit : segTreeIter s.head node = some next) :
    Inv rb (s.setPc i (.iterNext (some next) (seen ++ [next]))) := by
  have hin : (s.pcs i).InRead := by rw [hpc]; trivial
  have hw := hi.writer_eq_none hin
  obtain ⟨t, hr, ht, ha, -⟩ := hi.serial
  have htr := hi.tree_of_inRead hin ha
  have hv : Valid s.head.toList := by have := ht.valid; rwa [← htr] at this
  obtain ⟨rest, hrest, hlast⟩ := hi.reading i node seen hpc
  rw [← hlast, segTreeIter_getLast hv hrest] at hit
  obtain ⟨rest', rfl⟩ : ∃ rest', rest = next :: rest' := by
    cases rest with
    | nil => cases hit
    | cons b rest' => cases hit; exact ⟨rest', rfl⟩
  refine ⟨fun j hj => ?_, fun j => ?_, hi.nodup, hi.excl, fun j a allocs h => ?_,
    fun j node' seen' h => ?_, t, hr, ht, ?_, fun _ h => (by simp [hcr] at h)⟩
  · rcases eq_or_ne j i with rfl | hji
    · simp only [Sys.setPc_pcs, Function.update_same] at hj; exact hj.elim
    · simp only [Sys.setPc_pcs, Function.update_noteq hji] at hj; exact hi.writer j hj
  · rcases eq_or_ne j i with rfl | hji
    · simp only [Sys.setPc_readers, Sys.setPc_pcs, Function.update_same]
      exact iff_of_true ((hi.readers j).2 hin) trivial
    · simp only [Sys.setPc_readers, Sys.setPc_pcs, Function.update_noteq hji]; exact hi.readers j
  · rcases eq_or_ne j i with rfl | hji
    · simp only [Sys.setPc_pcs, Function.update_same, reduceCtorEq] at h
    · simp only [Sys.setPc_pcs, Function.update_noteq hji] at h; exact hi.waiting j a allocs h
  · rcases eq_or_ne j i with rfl | hji
    · simp only [Sys.setPc_pcs, Function.update_same, Pc.iterNext.injEq] at h
      obtain ⟨rfl, rfl⟩ := h
      exact ⟨rest', by simp [hrest], by simp⟩
    · simp only [Sys.setPc_pcs, Function.update_noteq hji] at h; exact hi.reading j node' seen' h
  · rw [agrees_of_writer_none (by exact hw)]; exact htr

/-- A reader returns `r` from `c`, the sequential model's answer on the tree it read, and
releases its hold on the lock. -/
theorem Inv.readRelease (hi : Inv rb s) (hcr : s.crashed = none) {i : Nat}
    (hin : (s.pcs i).InRead) {c : Call} {r : Ret}
    (hseq : ∀ t, Reachable rb (fun _ => True) t → s.tree = t → seqCall rb t c = .ok (r, t)) :
    Inv rb { s.ret i c r with readers := s.readers.erase i } := by
  have hw := hi.writer_eq_none hin
  obtain ⟨t, hr, ht, ha, -⟩ := hi.serial
  have htr := hi.tree_of_inRead hin ha
  refine ⟨fun j hj => ?_, fun j => ?_, hi.nodup.erase i, fun _ h => (by simp [hw] at h),
    fun j a allocs h => ?_, fun j node seen h => ?_, t, seqRun_snoc hr (hseq t ht htr), ht, ?_,
    fun _ h => (by simp [hcr] at h)⟩
  · rcases eq_or_ne j i with rfl | hji
    · simp only [Sys.ret_pcs, Function.update_same] at hj; exact hj.elim
    · simp only [Sys.ret_pcs, Function.update_noteq hji] at hj
      rw [hi.writer j hj] at hw; cases hw
  · show j ∈ s.readers.erase i ↔ _
    rw [hi.nodup.mem_erase_iff]
    rcases eq_or_ne j i with rfl | hji
    · simp
    · simp only [Sys.ret_pcs, Function.update_noteq hji, ne_eq, hji, not_false_eq_true, true_and]
      exact hi.readers j
  · rcases eq_or_ne j i with rfl | hji
    · simp only [Sys.ret_pcs, Function.update_same, reduceCtorEq] at h
    · simp only [Sys.ret_pcs, Function.update_noteq hji] at h; exact hi.waiting j a allocs h
  · rcases eq_or_ne j i with rfl | hji
    · simp only [Sys.ret_pcs, Function.update_same, reduceCtorEq] at h
    · simp only [Sys.ret_pcs, Function.update_noteq hji] at h; exact hi.reading j node seen h
  · rw [agrees_of_writer_none (by exact hw)]; exact htr

/-! ### The sequential model on the replayed state -/

theorem headD_of_alloc {allocs rest : List Bool} {start «end» ptr : Word} {n : SegTreeNode}
    (h : segTreeNodeAlloc allocs start «end» ptr = (some n, rest)) : allocs.headD true = true := by
  rw [segTreeNodeAlloc_eq] at h
  cases hh : allocs.headD true
  · rw [hh] at h; simp at h
  · rfl

/-- A thread that waits for the lock while holding it for writing: the sequential model stops
its call the same way. -/
theorem Inv.seqCall_relock (hi : Inv rb s) {i : Nat} {c : Call}
    (hc : (s.pcs i).waitingCall = some c) (hw : s.writer = some i) (ha : Agrees rb t s) :
    seqCall rb t c = .error .relock := by
  rw [agrees_of_writer_some hw, agreesAt_of_not_inWrite (Pc.waitingCall_not_inWrite hc)] at ha
  have hl : t.wrlocked = true := by rw [← ha]; simp [Sys.tree, hw]
  cases hq : s.pcs i <;> simp only [hq, Pc.waitingCall, Option.some.injEq, reduceCtorEq] at hc <;>
    subst hc
  case addLock a allocs =>
    have h1 := headD_of_alloc (hi.waiting i a allocs hq).2
    simp [seqCall, segTreeAdd_of_locked rb a.ptr a.allocs hl h1, Except.map]
  case clearLock => simp [seqCall, segTreeClear_of_locked rb hl, Except.map]
  case countLock => simp [seqCall, segTreeCount, readLocked_of_locked hl, Except.map]
  case maxLock => simp [seqCall, segTreeMax, readLocked_of_locked hl, Except.map]
  all_goals simp [seqCall, hl]

/-- `seg_tree_clear` on the replayed state of a thread inside its section runs that section on
the shared tree. -/
theorem segTreeClear_of_agrees {i : Nat} (hw : s.writer = some i)
    (ha : t = { s.tree with wrlocked := false }) :
    segTreeClear rb t = segTreeClearLocked rb s.tree := by
  rw [segTreeClear_eq_locked, ha, segTreeWrlock_of_unlocked rfl]
  show segTreeClearLocked rb _ = _
  congr 1; simp [Sys.tree, hw]

/-! ### Every step -/

/-- Every step keeps the invariant. -/
theorem Inv.step (hi : Inv rb s) (hcr : s.crashed = none) {s' : Sys} (h : Step rb s s') :
    Inv rb s' := by
  cases h with
  | addNoMem hpc _ hal => exact hi.addNoMem hcr hpc hal
  | addAlloc hpc hse hal =>
    exact hi.setPc (by rw [hpc]; exact ⟨id, id⟩) ⟨id, id⟩ fun _ _ h => by cases h; exact ⟨hse, hal⟩
  | begin hpc hc =>
    obtain ⟨hpw, hpr, hpa⟩ := Pc.lockPc_spec hc
    exact hi.setPc (by rw [hpc]; exact ⟨id, id⟩) ⟨hpw, hpr⟩
      fun a allocs h => absurd h (hpa a allocs)
  | wrlock hp hw hr => exact hi.wrlock hcr hp hw hr
  | rdlock hp hw => exact hi.rdlock hcr hp hw
  | relock hc hw => exact hi.crash fun _ _ ha => ⟨_, hi.seqCall_relock hc hw ha⟩
  | pass hpc hp => exact hi.pass hcr hpc hp
  | enomem hpc hp => exact hi.enomem hcr hpc hp
  | @inserted i a _ _ _ s' hpc hp =>
    refine hi.release hcr (by rw [hpc]; trivial) fun t ht ha => ?_
    rw [hpc] at ha
    obtain ⟨hl, hm, hse, allocs₀, hal, hpath⟩ := ha
    have hadd := segTreeAdd_of_passes ht.valid hl hse hal hpath hp
    rw [← hm] at hadd
    exact ⟨by simp only [seqCall, hadd]; rfl, .add ht hse trivial hadd⟩
  | @stuck i a _ _ _ _ hpc hp =>
    refine hi.crash fun t ht ha => ?_
    rw [agrees_of_writer_some (hi.writer _ (by rw [hpc]; trivial)), hpc] at ha
    obtain ⟨hl, -, hse, allocs₀, hal, hpath⟩ := ha
    have hadd := segTreeAdd_of_passes ht.valid hl hse hal hpath hp
    exact ⟨.add a, by simp only [seqCall, hadd]; rfl⟩
  | @clear i t' hpc hcl =>
    have hw := hi.writer i (by rw [hpc]; trivial)
    have hl := segTreeClearLocked_wrlocked hcl
    refine hi.release hcr (by rw [hpc]; trivial) fun t ht ha => ?_
    rw [hpc] at ha
    have hcl' : segTreeClear rb t = .ok t' := (segTreeClear_of_agrees hw ha).trans hcl
    have ht' : t' = ⟨t'.head, t'.count, t'.max, false⟩ := by cases t'; simp_all
    rw [ht'] at hcl'
    exact ⟨by simp [seqCall, hcl', Except.map], .clear ht hcl'⟩
  | clearStuck hpc hcl =>
    have hw := hi.writer _ (by rw [hpc]; trivial)
    refine hi.crash fun t _ ha => ⟨.clear, ?_⟩
    rw [agrees_of_writer_some hw, hpc] at ha
    rw [seqCall, segTreeClear_of_agrees hw ha, hcl]; rfl
  | count hpc =>
    refine hi.release hcr (by rw [hpc]; trivial) fun t ht ha => ?_
    rw [hpc] at ha; subst ha
    exact ⟨by simp [seqCall, segTreeCount, readLocked_of_unlocked, Except.map, Sys.tree], ht⟩
  | max hpc =>
    refine hi.release hcr (by rw [hpc]; trivial) fun t ht ha => ?_
    rw [hpc] at ha; subst ha
    exact ⟨by simp [seqCall, segTreeMax, readLocked_of_unlocked, Except.map, Sys.tree], ht⟩
  | iterNext hpc hit => exact hi.iterNext hcr hpc hit
  | @iterDone i node seen hpc hit =>
    have hin : (s.pcs i).InRead := by rw [hpc]; trivial
    have hw := hi.writer_eq_none hin
    refine hi.readRelease hcr hin fun t ht htr => ?_
    have hv : Valid s.head.toList := by have := ht.valid; rwa [← htr] at this
    obtain ⟨rest, hrest, hlast⟩ := hi.reading i node seen hpc
    rw [← hlast, segTreeIter_getLast hv hrest] at hit
    cases rest with
    | cons => cases hit
    | nil =>
      subst htr
      rw [seqCall_iterate_eq (t := s.tree) hv (by simp [Sys.tree, hw]), SegTree.segments, Sys.tree,
        hrest, List.append_nil]
  | @find i _ _ _ hpc =>
    have hin : (s.pcs i).InRead := by rw [hpc]; trivial
    have hw := hi.writer_eq_none hin
    refine hi.readRelease hcr hin fun t _ htr => ?_
    subst htr
    simp [seqCall, Sys.tree, hw]

/-- Every state some interleaving reaches satisfies the invariant. -/
theorem Interleaved.inv (h : Interleaved rb s) : Inv rb s := by
  induction h with
  | refl => exact Inv.init
  | tail _ hn ih => exact ih.step hn.1 hn.2

end Inv

/-! ## What every interleaving does -/

section Results

variable {rb : Rebalance} {s : Sys}

/-- **Mutual exclusion.** In every interleaving, a thread inside a section that holds the lock for
writing (the loop of `seg_tree_add`, or the section of `seg_tree_clear`, `seg_tree_count` or
`seg_tree_max`) is the only thread inside any section of the lock. -/
theorem interleaved_mutual_exclusion (h : Interleaved rb s) {i j : Nat} (hi : (s.pcs i).InWrite)
    (hj : (s.pcs j).InWrite ∨ (s.pcs j).InRead) : j = i := by
  have hinv := h.inv
  have hw := hinv.writer i hi
  rcases hj with hj | hj
  · exact Option.some.inj ((hinv.writer j hj).symm.trans hw)
  · exact absurd hj (hinv.not_inRead hw j)

theorem interleaved_mutual_exclusion_adding :
    ∃ s, Interleaved Rebalance.none s ∧ (s.pcs 0).InWrite ∧ (s.pcs 1).waitingCall = some .iterate ∧
      ∀ j, (s.pcs j).InWrite ∨ (s.pcs j).InRead → j = 0 :=
  have h : Interleaved Rebalance.none _ :=
    (((Interleaved.init : Interleaved Rebalance.none _).step rfl
      (.begin (i := 1) (c := .iterate) rfl rfl)).step rfl
      (.addAlloc (i := 0) (a := ⟨0, 9, 100, []⟩) rfl (by decide) rfl)).step rfl
      (.wrlock (i := 0) rfl rfl rfl)
  ⟨_, h, trivial, rfl, fun _ hj => interleaved_mutual_exclusion h trivial hj⟩

/-- **Linearizability.** In every interleaving, replaying the calls that returned, in the order
they returned, with the sequential model from `seg_tree_init` gives back every call's return value
and ends in a state that a sequential run reaches; while no thread is inside a write section, that
state is the shared tree. If the process aborted, the sequential model aborts on that state for the
same reason. -/
theorem interleaved_calls_linearize (h : Interleaved rb s) :
    ∃ t, seqRun rb segTreeInit s.log = some t ∧ Reachable rb (fun _ => True) t ∧
      ((∀ i, ¬ (s.pcs i).InWrite) → s.tree = t) ∧
      ∀ why, s.crashed = some why → ∃ c, seqCall rb t c = .error why := by
  obtain ⟨t, hr, ht, ha, hc⟩ := h.inv.serial
  refine ⟨t, hr, ht, fun hno => ?_, hc⟩
  rcases hw : s.writer with _ | w
  · exact (agrees_of_writer_none hw).1 ha
  · exact (agreesAt_of_not_inWrite (hno w)).1 ((agrees_of_writer_some hw).1 ha)

/-- Thread `0` adds `[0, 9]` at `100`; then thread `1` iterates, and sees that segment. -/
theorem interleaved_add_then_iterate :
    ∃ s, Interleaved Rebalance.none s ∧
      s.log = [⟨0, .add ⟨0, 9, 100, []⟩, .rc 0⟩, ⟨1, .iterate, .nodes [⟨0, 9, 100⟩]⟩] :=
  ⟨_, (((((((Interleaved.init : Interleaved Rebalance.none _).step rfl
      (.addAlloc (i := 0) (a := ⟨0, 9, 100, []⟩) rfl (by decide) rfl)).step rfl
      (.wrlock (i := 0) rfl rfl rfl)).step rfl
      (.inserted (i := 0) rfl rfl)).step rfl
      (.begin (i := 1) (c := .iterate) rfl rfl)).step rfl
      (.rdlock (i := 1) rfl rfl)).step rfl
      (.iterNext (i := 1) rfl rfl)).step rfl
      (.iterDone (i := 1) rfl rfl), rfl⟩

theorem interleaved_calls_linearize_add_then_iterate :
    ∃ s, Interleaved Rebalance.none s ∧
      s.log = [⟨0, .add ⟨0, 9, 100, []⟩, .rc 0⟩, ⟨1, .iterate, .nodes [⟨0, 9, 100⟩]⟩] ∧
      ∃ t, seqRun Rebalance.none segTreeInit s.log = some t ∧
        Reachable Rebalance.none (fun _ => True) t ∧ ((∀ i, ¬ (s.pcs i).InWrite) → s.tree = t) ∧
        ∀ why, s.crashed = some why → ∃ c, seqCall Rebalance.none t c = .error why :=
  let ⟨_, h, hl⟩ := interleaved_add_then_iterate
  ⟨_, h, hl, interleaved_calls_linearize h⟩

/-- A step logs at most one returned call. -/
theorem Step.log_snoc {s' : Sys} (h : Step rb s s') :
    s'.log = s.log ∨ ∃ e, s'.log = s.log ++ [e] := by
  cases h <;> simp

/-- Each call that returned in an interleaving, replayed after the calls that returned before it,
runs on a reachable tree and returns what it returned. -/
theorem Interleaved.log_replays (h : Interleaved rb s) {l₁ l₂ : List Event} {e : Event}
    (hl : s.log = l₁ ++ e :: l₂) :
    ∃ t t', seqRun rb segTreeInit l₁ = some t ∧ Reachable rb (fun _ => True) t ∧
      seqCall rb t e.call = .ok (e.ret, t') := by
  induction h generalizing l₂ with
  | refl => simp [Sys.init] at hl
  | @tail s s' hs hn ih =>
    rcases hn.2.log_snoc with hlog | ⟨e', hlog⟩
    · exact ih (hlog ▸ hl)
    rcases List.eq_nil_or_concat l₂ with rfl | ⟨l₂, b, rfl⟩
    · -- the call that returned last
      obtain ⟨rfl, he⟩ := List.append_inj' (hlog.symm.trans hl) rfl
      cases he
      obtain ⟨t, hr, ht, -⟩ := (Interleaved.inv hs).serial
      obtain ⟨t', hr', -⟩ := (Interleaved.inv (hs.tail hn)).serial
      rw [hlog, seqRun_append, hr, Option.some_bind, seqEvent_eq_some] at hr'
      exact ⟨t, t', hr, ht, hr'⟩
    · rw [hlog, List.concat_eq_append, ← List.cons_append, ← List.append_assoc] at hl
      exact ih (List.append_inj' hl rfl).1

/-- Alone, an iteration on a tree of ordered segments returns them all. -/
theorem seqCall_iterate {t t' : SegTree} {r : Ret} (hv : Valid t.segments)
    (h : seqCall rb t .iterate = .ok (r, t')) : r = .nodes t.segments := by
  rw [seqCall_iterate_eq hv (seqCall_of_read h (fun _ => nofun) nofun).2] at h
  cases h; rfl

/-- **Every call sees a reachable tree.** In every interleaving, each call that returned returned
what it returns when run alone on a tree that `seg_tree_init`, `seg_tree_add` and `seg_tree_clear`
reach; an iteration in particular returned every segment of that tree, in order and disjoint, never
a tree that another thread was changing. -/
theorem interleaved_calls_see_reachable_trees (h : Interleaved rb s) {e : Event} (he : e ∈ s.log) :
    ∃ t t', Reachable rb (fun _ => True) t ∧ seqCall rb t e.call = .ok (e.ret, t') ∧
      (e.call = .iterate → e.ret = .nodes t.segments ∧ Valid t.segments) := by
  obtain ⟨l₁, l₂, hl⟩ := List.append_of_mem he
  obtain ⟨t, t', -, ht, hc⟩ := h.log_replays hl
  refine ⟨t, t', ht, hc, fun hi => ?_⟩
  rw [hi] at hc
  exact ⟨seqCall_iterate ht.valid hc, ht.valid⟩

theorem interleaved_calls_see_reachable_trees_iterate :
    ∃ s, Interleaved Rebalance.none s ∧ ⟨1, .iterate, .nodes [⟨0, 9, 100⟩]⟩ ∈ s.log ∧
      ∃ t t', Reachable Rebalance.none (fun _ => True) t ∧
        seqCall Rebalance.none t .iterate = .ok (.nodes [⟨0, 9, 100⟩], t') ∧
        (Call.iterate = .iterate →
          Ret.nodes [⟨0, 9, 100⟩] = .nodes t.segments ∧ Valid t.segments) :=
  let ⟨s, h, hl⟩ := interleaved_add_then_iterate
  have he : (⟨1, .iterate, .nodes [⟨0, 9, 100⟩]⟩ : Event) ∈ s.log := by
    rw [hl]; exact .tail _ (.head _)
  ⟨s, h, he, interleaved_calls_see_reachable_trees h he⟩

/-- With the lock held by a thread outside every section, a step keeps it so: no thread enters a
section, the tree does not change, and the only call that returns is a `seg_tree_add` whose node
cannot be allocated. -/
theorem Step.of_lock_held {s' : Sys} (h : Step rb s s') {i : Nat} (hw : s.writer = some i)
    (hno : ∀ j, ¬ (s.pcs j).InWrite ∧ ¬ (s.pcs j).InRead) :
    s'.writer = some i ∧ (∀ j, ¬ (s'.pcs j).InWrite ∧ ¬ (s'.pcs j).InRead) ∧ s'.tree = s.tree ∧
      (s'.log = s.log ∨ ∃ j a, s'.log = s.log ++ [⟨j, .add a, .rc ENOMEM⟩] ∧
        a.allocs.headD true = false) := by
  have hsame {j : Nat} {p : Pc} (hp : ¬ p.InWrite ∧ ¬ p.InRead) (k : Nat) :
      ¬ (Function.update s.pcs j p k).InWrite ∧ ¬ (Function.update s.pcs j p k).InRead := by
    rcases eq_or_ne k j with rfl | hk
    · rw [Function.update_same]; exact hp
    · rw [Function.update_noteq hk]; exact hno k
  cases h with
  | @addNoMem j a _ _ hal =>
    refine ⟨hw, hsame ⟨id, id⟩, rfl, .inr ⟨j, a, rfl, ?_⟩⟩
    rw [segTreeNodeAlloc_eq] at hal
    cases hh : a.allocs.headD true
    · rfl
    · rw [hh] at hal; cases hal
  | addAlloc => exact ⟨hw, hsame ⟨id, id⟩, rfl, .inl rfl⟩
  | begin _ hc =>
    obtain ⟨hpw, hpr, -⟩ := Pc.lockPc_spec hc
    exact ⟨hw, hsame ⟨hpw, hpr⟩, rfl, .inl rfl⟩
  | wrlock _ hw' => rw [hw] at hw'; cases hw'
  | rdlock _ hw' => rw [hw] at hw'; cases hw'
  | relock => exact ⟨hw, hno, rfl, .inl rfl⟩
  | pass hpc | inserted hpc | enomem hpc | stuck hpc | clear hpc | clearStuck hpc | count hpc
    | max hpc =>
    exact absurd (by rw [hpc]; trivial) (hno _).1
  | iterNext hpc | iterDone hpc | find hpc => exact absurd (by rw [hpc]; trivial) (hno _).2

/-- **A lock that is never released.** `seg_tree_add` returns `ENOMEM` from inside its loop without
`seg_tree_unlock`. Once the lock is held by a thread outside every write section, in every
continuation of the interleaving the lock stays held by that thread, the tree never changes, and
every call that still returns is a `seg_tree_add` whose own node cannot be allocated: every other
call waits for the lock forever, or aborts when its thread is the holder. -/
theorem interleaved_enomem_lock_never_released (h : Interleaved rb s) {i : Nat}
    (hw : s.writer = some i) (hi : ¬ (s.pcs i).InWrite) {s' : Sys}
    (h' : Relation.ReflTransGen (Sys.Next rb) s s') :
    s'.writer = some i ∧ s'.tree = s.tree ∧ ∃ es, s'.log = s.log ++ es ∧
      ∀ e ∈ es, ∃ a, e.call = .add a ∧ e.ret = .rc ENOMEM ∧ a.allocs.headD true = false := by
  have hinv := h.inv
  have hno : ∀ j, ¬ (s.pcs j).InWrite ∧ ¬ (s.pcs j).InRead := fun j =>
    ⟨fun hj => hi (by cases (hinv.writer j hj).symm.trans hw; exact hj), hinv.not_inRead hw j⟩
  suffices s'.writer = some i ∧ (∀ j, ¬ (s'.pcs j).InWrite ∧ ¬ (s'.pcs j).InRead) ∧
      s'.tree = s.tree ∧ ∃ es, s'.log = s.log ++ es ∧
        ∀ e ∈ es, ∃ a, e.call = .add a ∧ e.ret = .rc ENOMEM ∧ a.allocs.headD true = false from
    ⟨this.1, this.2.2⟩
  induction h' with
  | refl => exact ⟨hw, hno, rfl, [], by simp, by simp⟩
  | tail _ hn ih =>
    obtain ⟨hw', hno', ht', es, hlog, hes⟩ := ih
    obtain ⟨hw'', hno'', ht'', hl⟩ := hn.2.of_lock_held hw' hno'
    refine ⟨hw'', hno'', ht''.trans ht', ?_⟩
    rcases hl with hl | ⟨j, a, hl, ha⟩
    · exact ⟨es, hl.trans hlog, hes⟩
    · refine ⟨es ++ [⟨j, .add a, .rc ENOMEM⟩], by rw [hl, hlog, List.append_assoc], fun e he => ?_⟩
      rcases List.mem_append.1 he with he | he
      · exact hes e he
      · rw [List.mem_singleton] at he; subst he; exact ⟨a, rfl, rfl, ha⟩

theorem interleaved_enomem_lock_never_released_split :
    ∃ s, Interleaved Rebalance.none s ∧ s.writer = some 0 ∧ ¬ (s.pcs 0).InWrite ∧
      s.log.getLast? = some ⟨0, .add ⟨5, 7, 200, [true, false]⟩, .rc ENOMEM⟩ ∧
      ∀ s', Relation.ReflTransGen (Sys.Next Rebalance.none) s s' →
        s'.writer = some 0 ∧ s'.tree = s.tree ∧ ∃ es, s'.log = s.log ++ es ∧
          ∀ e ∈ es, ∃ a, e.call = .add a ∧ e.ret = .rc ENOMEM ∧ a.allocs.headD true = false :=
  have h : Interleaved Rebalance.none _ :=
    ((((((Interleaved.init : Interleaved Rebalance.none _).step rfl
      (.addAlloc (i := 0) (a := ⟨0, 9, 100, []⟩) rfl (by decide) rfl)).step rfl
      (.wrlock (i := 0) rfl rfl rfl)).step rfl
      (.inserted (i := 0) rfl rfl)).step rfl
      (.addAlloc (i := 0) (a := ⟨5, 7, 200, [true, false]⟩) rfl (by decide) rfl)).step rfl
      (.wrlock (i := 0) rfl rfl rfl)).step rfl
      (.enomem (i := 0) rfl rfl)
  ⟨_, h, rfl, id, rfl, fun _ h' => interleaved_enomem_lock_never_released h rfl id h'⟩

end Results

end UnifyCR
