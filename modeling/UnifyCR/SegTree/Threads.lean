import UnifyCR.SegTree.Runs
import Mathlib.Logic.Relation

/-!
# Threads sharing one segment tree

`seg_tree.c` is "a simple, thread-safe, segment tree": `seg_tree_add`, `seg_tree_clear`,
`seg_tree_count` and `seg_tree_max` take the tree's `rwlock` for writing, and a caller reads the
tree with `seg_tree_iter` or `seg_tree_find_nolock` between `seg_tree_rdlock` and
`seg_tree_unlock`. This module models any number of threads making such calls, their steps
interleaved in any order.

* The state (`Sys`) is the tree's fields, the lock (the thread holding it for writing and the
  threads holding it for reading), and where each thread is in its current call (`Pc`).
* A thread's steps (`Step`) are cut where another thread can act in between:
  `seg_tree_node_alloc` of the new node, `seg_tree_wrlock`, each pass of `seg_tree_add`'s while
  loop and its exit; the section of `seg_tree_clear`, `seg_tree_count` or `seg_tree_max` after
  its lock; `seg_tree_rdlock`, each call of `seg_tree_iter`, `seg_tree_find_nolock`, and
  `seg_tree_unlock`. As in the sequential runs (`Reachable`), a caller of `seg_tree_add` passes
  `start ≤ end`; the function itself does not check it.
* `pthread_rwlock_wrlock` waits while another thread holds the lock, `pthread_rwlock_rdlock`
  while another thread holds it for writing. On a lock the calling thread holds for writing
  both fail with `EDEADLK`, and the `assert` around them aborts the process (`crashed`); so
  does `RB_INSERT(NULL)`.
* A log records each call as it returns, with its thread and what it returned. The sequential
  model runs a call by itself (`seqCall`) and replays a log (`seqRun`).
-/

namespace UnifyCR

/-! ## Calls -/

/-- The arguments of a `seg_tree_add` call, with the outcomes of its `calloc`s. -/
structure AddArgs where
  start : Word
  «end» : Word
  ptr : Word
  allocs : List Bool
deriving DecidableEq, Repr

def AddArgs.node (a : AddArgs) : SegTreeNode := ⟨a.start, a.«end», a.ptr⟩

inductive Call
  | add (a : AddArgs)
  | clear
  | count
  | max
  /-- `seg_tree_rdlock`, the loop over `seg_tree_iter` its comment gives, `seg_tree_unlock`. -/
  | iterate
  /-- `seg_tree_find_nolock(start, end)` between `seg_tree_rdlock` and `seg_tree_unlock`;
  `allocs` holds the outcome of its probe's `calloc`. -/
  | find (start «end» : Word) (allocs : List Bool)
deriving DecidableEq, Repr

inductive Ret
  | rc (n : Nat)
  | done
  | word (w : Word)
  | nodes (l : List SegTreeNode)
  | found (node : Option SegTreeNode)
deriving DecidableEq, Repr

structure Event where
  thread : Nat
  call : Call
  ret : Ret
deriving DecidableEq, Repr

/-! ## The sequential model of a call -/

/-- A call run by one thread alone, on the tree as that thread sees it (`wrlocked` when it holds
the lock for writing). -/
def seqCall (rb : Rebalance) (t : SegTree) : Call → Except Stuck (Ret × SegTree)
  | .add a => (segTreeAdd rb t a.start a.«end» a.ptr a.allocs).map fun r => (.rc r.1, r.2)
  | .clear => (segTreeClear rb t).map fun t' => (.done, t')
  | .count => (segTreeCount t).map fun w => (.word w, t)
  | .max => (segTreeMax t).map fun w => (.word w, t)
  | .iterate =>
    if t.wrlocked then .error .relock else
    match segTreeIterLoop t.head (t.segments.length + 1) none with
    | some l => .ok (.nodes l, t)
    | none => .error .outOfFuel
  | .find start «end» allocs =>
    if t.wrlocked then .error .relock else .ok (.found (segTreeFindNolock t start «end» allocs), t)

/-- Replaying one returned call: the state after it, if the sequential model returns the same. -/
def seqEvent (rb : Rebalance) (t : SegTree) (e : Event) : Option SegTree :=
  match seqCall rb t e.call with
  | .ok (r, t') => if r = e.ret then some t' else none
  | .error _ => none

def seqRun (rb : Rebalance) (t : SegTree) (log : List Event) : Option SegTree :=
  log.foldlM (seqEvent rb) t

theorem seqRun_append (rb : Rebalance) (t : SegTree) (log : List Event) (e : Event) :
    seqRun rb t (log ++ [e]) = (seqRun rb t log).bind fun t' => seqEvent rb t' e := by
  simp only [seqRun, List.foldlM_append, List.foldlM_cons, List.foldlM_nil, bind_pure]
  rfl

theorem seqEvent_eq_some {rb : Rebalance} {t t' : SegTree} {e : Event} :
    seqEvent rb t e = some t' ↔ seqCall rb t e.call = .ok (e.ret, t') := by
  unfold seqEvent
  rcases seqCall rb t e.call with _ | ⟨r, t''⟩ <;> simp [and_comm]

/-- The calls other than add and clear return the tree as it was, and only when it is unlocked. -/
theorem seqCall_of_read {rb : Rebalance} {t t' : SegTree} {c : Call} {r : Ret}
    (h : seqCall rb t c = .ok (r, t')) (hadd : ∀ a, c ≠ .add a) (hcl : c ≠ .clear) :
    t' = t ∧ t.wrlocked = false := by
  cases hlk : t.wrlocked
  · cases c with
    | add a => exact absurd rfl (hadd a)
    | clear => exact absurd rfl hcl
    | count | max =>
      simp only [seqCall, segTreeCount, segTreeMax, readLocked_of_unlocked hlk, Except.map,
        Except.ok.injEq, Prod.mk.injEq] at h
      exact ⟨h.2.symm, rfl⟩
    | iterate =>
      simp only [seqCall, hlk, Bool.false_eq_true, if_false] at h
      cases hit : segTreeIterLoop t.head (t.segments.length + 1) none <;>
        simp only [hit, Except.ok.injEq, Prod.mk.injEq, reduceCtorEq] at h
      exact ⟨h.2.symm, rfl⟩
    | find =>
      simp only [seqCall, hlk, Bool.false_eq_true, if_false, Except.ok.injEq, Prod.mk.injEq] at h
      exact ⟨h.2.symm, rfl⟩
  · cases c <;> simp [seqCall, segTreeCount, segTreeMax, readLocked_of_locked hlk, hlk,
      Except.map] at h hadd hcl

theorem seqCall_iterate_eq {rb : Rebalance} {t : SegTree} (hv : Valid t.segments)
    (hl : t.wrlocked = false) : seqCall rb t .iterate = .ok (.nodes t.segments, t) := by
  simp only [seqCall, hl, Bool.false_eq_true, if_false, SegTree.segments, segTreeIterLoop_none hv,
    Nat.lt_succ_self, if_true]

/-- The critical section of `seg_tree_clear`, on the tree `seg_tree_wrlock` left. -/
def segTreeClearLocked (rb : Rebalance) (t : SegTree) : Except Stuck SegTree := do
  if t.head = .leaf then return segTreeUnlock t
  let head ← clearLoop rb (t.segments.length + 1) t.head none none
  return segTreeUnlock { t with head, count := 0, max := 0 }

theorem segTreeClear_eq_locked (rb : Rebalance) (t : SegTree) :
    segTreeClear rb t = segTreeWrlock t >>= segTreeClearLocked rb := rfl

theorem segTreeClearLocked_wrlocked {rb : Rebalance} {t t' : SegTree}
    (h : segTreeClearLocked rb t = .ok t') : t'.wrlocked = false := by
  unfold segTreeClearLocked at h
  split at h
  · cases h; rfl
  · cases hc : clearLoop rb (t.segments.length + 1) t.head none none <;>
      rw [hc] at h <;> cases h
    rfl

/-! ## Threads -/

inductive Pc
  | idle
  /-- `seg_tree_add` at `seg_tree_wrlock`, its node allocated; `allocs` are the outcomes left. -/
  | addLock (a : AddArgs) (allocs : List Bool)
  /-- `seg_tree_add` at its while condition, holding the lock, with `new_start` and `new_end`. -/
  | addLoop (a : AddArgs) (newStart newEnd : Word) (allocs : List Bool)
  | clearLock
  | clearBody
  | countLock
  | countBody
  | maxLock
  | maxBody
  | iterLock
  /-- In that loop: `node` is what the last `seg_tree_iter` returned, `seen` all it returned. -/
  | iterNext (node : Option SegTreeNode) (seen : List SegTreeNode)
  | findLock (start «end» : Word) (allocs : List Bool)
  | findBody (start «end» : Word) (allocs : List Bool)
deriving DecidableEq, Repr

namespace Pc

def InWrite : Pc → Prop
  | addLoop .. | clearBody | countBody | maxBody => True
  | _ => False

def InRead : Pc → Prop
  | iterNext .. | findBody .. => True
  | _ => False

def afterWrlock : Pc → Option Pc
  | addLock a allocs => some (addLoop a 0 0 allocs)
  | clearLock => some clearBody
  | countLock => some countBody
  | maxLock => some maxBody
  | _ => none

def afterRdlock : Pc → Option Pc
  | iterLock => some (iterNext none [])
  | findLock start «end» allocs => some (findBody start «end» allocs)
  | _ => none

def waitingCall : Pc → Option Call
  | addLock a _ => some (.add a)
  | clearLock => some .clear
  | countLock => some .count
  | maxLock => some .max
  | iterLock => some .iterate
  | findLock start «end» allocs => some (.find start «end» allocs)
  | _ => none

end Pc

def Call.lockPc : Call → Option Pc
  | .add _ => none
  | .clear => some .clearLock
  | .count => some .countLock
  | .max => some .maxLock
  | .iterate => some .iterLock
  | .find start «end» allocs => some (.findLock start «end» allocs)

/-- The state the threads share, and where each thread is. -/
structure Sys where
  head : Inttree
  count : Word
  max : Word
  /-- The thread holding `rwlock` for writing. -/
  writer : Option Nat
  readers : List Nat
  pcs : Nat → Pc
  log : List Event
  crashed : Option Stuck

namespace Sys

/-- The shared `struct seg_tree`; its lock is taken when some thread holds it for writing. -/
def tree (s : Sys) : SegTree := ⟨s.head, s.count, s.max, s.writer.isSome⟩

def init : Sys := ⟨.leaf, 0, 0, none, [], fun _ => .idle, [], none⟩

def setPc (s : Sys) (i : Nat) (p : Pc) : Sys := { s with pcs := Function.update s.pcs i p }

def ret (s : Sys) (i : Nat) (c : Call) (r : Ret) : Sys :=
  { s with pcs := Function.update s.pcs i .idle, log := s.log ++ [⟨i, c, r⟩] }

@[simp] theorem setPc_pcs (s : Sys) (i : Nat) (p : Pc) :
    (s.setPc i p).pcs = Function.update s.pcs i p :=
  rfl

@[simp] theorem ret_pcs (s : Sys) (i : Nat) (c : Call) (r : Ret) :
    (s.ret i c r).pcs = Function.update s.pcs i .idle := rfl

@[simp] theorem ret_log (s : Sys) (i : Nat) (c : Call) (r : Ret) :
    (s.ret i c r).log = s.log ++ [⟨i, c, r⟩] := rfl

@[simp] theorem init_tree : init.tree = segTreeInit := rfl

section Fields

variable (s : Sys) (i : Nat) (p : Pc) (c : Call) (r : Ret)

@[simp] theorem setPc_head : (s.setPc i p).head = s.head := rfl
@[simp] theorem setPc_count : (s.setPc i p).count = s.count := rfl
@[simp] theorem setPc_max : (s.setPc i p).max = s.max := rfl
@[simp] theorem setPc_writer : (s.setPc i p).writer = s.writer := rfl
@[simp] theorem setPc_readers : (s.setPc i p).readers = s.readers := rfl
@[simp] theorem setPc_log : (s.setPc i p).log = s.log := rfl
@[simp] theorem setPc_crashed : (s.setPc i p).crashed = s.crashed := rfl
@[simp] theorem setPc_tree : (s.setPc i p).tree = s.tree := rfl
@[simp] theorem ret_head : (s.ret i c r).head = s.head := rfl
@[simp] theorem ret_count : (s.ret i c r).count = s.count := rfl
@[simp] theorem ret_max : (s.ret i c r).max = s.max := rfl
@[simp] theorem ret_writer : (s.ret i c r).writer = s.writer := rfl
@[simp] theorem ret_readers : (s.ret i c r).readers = s.readers := rfl
@[simp] theorem ret_crashed : (s.ret i c r).crashed = s.crashed := rfl
@[simp] theorem ret_tree : (s.ret i c r).tree = s.tree := rfl

end Fields

end Sys

def Sys.addState (s : Sys) (newStart newEnd : Word) (allocs : List Bool) : AddState :=
  ⟨s.head, s.count, newStart, newEnd, allocs⟩

inductive Step (rb : Rebalance) : Sys → Sys → Prop
  /-- `seg_tree_add` whose node cannot be allocated returns `ENOMEM`. -/
  | addNoMem {s : Sys} {i : Nat} {a : AddArgs} : s.pcs i = .idle → a.start ≤ a.«end» →
      (segTreeNodeAlloc a.allocs a.start a.«end» a.ptr).1 = none →
      Step rb s (s.ret i (.add a) (.rc ENOMEM))
  /-- `seg_tree_add` allocates its node and goes on to `seg_tree_wrlock`. -/
  | addAlloc {s : Sys} {i : Nat} {a : AddArgs} {allocs : List Bool} : s.pcs i = .idle →
      a.start ≤ a.«end» → segTreeNodeAlloc a.allocs a.start a.«end» a.ptr = (some a.node, allocs) →
      Step rb s (s.setPc i (.addLock a allocs))
  | begin {s : Sys} {i : Nat} {c : Call} {p : Pc} : s.pcs i = .idle → c.lockPc = some p →
      Step rb s (s.setPc i p)
  | wrlock {s : Sys} {i : Nat} {p : Pc} : (s.pcs i).afterWrlock = some p → s.writer = none →
      s.readers = [] → Step rb s { s.setPc i p with writer := some i }
  /-- `seg_tree_rdlock` on a lock no thread holds for writing. -/
  | rdlock {s : Sys} {i : Nat} {p : Pc} : (s.pcs i).afterRdlock = some p → s.writer = none →
      Step rb s { s.setPc i p with readers := i :: s.readers }
  /-- Either lock on a lock the thread holds for writing: `EDEADLK` and the `assert` aborts. -/
  | relock {s : Sys} {i : Nat} {c : Call} : (s.pcs i).waitingCall = some c →
      s.writer = some i → Step rb s { s with crashed := some .relock }
  /-- A pass of `seg_tree_add`'s while loop that goes round again. -/
  | pass {s : Sys} {i : Nat} {a : AddArgs} {newStart newEnd : Word} {allocs : List Bool}
      {s' : AddState} : s.pcs i = .addLoop a newStart newEnd allocs →
      addPass rb a.node (s.addState newStart newEnd allocs) = .again s' →
      Step rb s { s.setPc i (.addLoop a s'.newStart s'.newEnd s'.allocs) with
        head := s'.head, count := s'.count }
  /-- The loop links the node: `count++`, `max`, `seg_tree_unlock`, return `0`. -/
  | inserted {s : Sys} {i : Nat} {a : AddArgs} {newStart newEnd : Word} {allocs : List Bool}
      {s' : AddState} : s.pcs i = .addLoop a newStart newEnd allocs →
      addPass rb a.node (s.addState newStart newEnd allocs) = .exit (.inserted s') →
      Step rb s { s.ret i (.add a) (.rc 0) with
        head := s'.head, count := s'.count + 1, max := MAX s.max a.«end», writer := none }
  /-- A failed allocation in the loop: return `ENOMEM`, the lock still held. -/
  | enomem {s : Sys} {i : Nat} {a : AddArgs} {newStart newEnd : Word} {allocs : List Bool}
      {s' : AddState} : s.pcs i = .addLoop a newStart newEnd allocs →
      addPass rb a.node (s.addState newStart newEnd allocs) = .exit (.enomem s') →
      Step rb s { s.ret i (.add a) (.rc ENOMEM) with head := s'.head, count := s'.count }
  /-- `RB_INSERT(NULL)`. -/
  | stuck {s : Sys} {i : Nat} {a : AddArgs} {newStart newEnd : Word} {allocs : List Bool}
      {why : Stuck} : s.pcs i = .addLoop a newStart newEnd allocs →
      addPass rb a.node (s.addState newStart newEnd allocs) = .exit (.stuck why) →
      Step rb s { s with crashed := some why }
  /-- The section of `seg_tree_clear`, up to its `seg_tree_unlock`. -/
  | clear {s : Sys} {i : Nat} {t' : SegTree} : s.pcs i = .clearBody →
      segTreeClearLocked rb s.tree = .ok t' →
      Step rb s { s.ret i .clear .done with
        head := t'.head, count := t'.count, max := t'.max, writer := none }
  | clearStuck {s : Sys} {i : Nat} {why : Stuck} : s.pcs i = .clearBody →
      segTreeClearLocked rb s.tree = .error why → Step rb s { s with crashed := some why }
  | count {s : Sys} {i : Nat} : s.pcs i = .countBody →
      Step rb s { s.ret i .count (.word s.count) with writer := none }
  | max {s : Sys} {i : Nat} : s.pcs i = .maxBody →
      Step rb s { s.ret i .max (.word s.max) with writer := none }
  | iterNext {s : Sys} {i : Nat} {node : Option SegTreeNode} {seen : List SegTreeNode}
      {next : SegTreeNode} : s.pcs i = .iterNext node seen → segTreeIter s.head node = some next →
      Step rb s (s.setPc i (.iterNext (some next) (seen ++ [next])))
  /-- `seg_tree_iter` returns `NULL`: the loop ends and the thread unlocks. -/
  | iterDone {s : Sys} {i : Nat} {node : Option SegTreeNode} {seen : List SegTreeNode} :
      s.pcs i = .iterNext node seen → segTreeIter s.head node = none →
      Step rb s { s.ret i .iterate (.nodes seen) with readers := s.readers.erase i }
  /-- `seg_tree_find_nolock`, then `seg_tree_unlock`. -/
  | find {s : Sys} {i : Nat} {start «end» : Word} {allocs : List Bool} :
      s.pcs i = .findBody start «end» allocs →
      Step rb s { s.ret i (.find start «end» allocs)
        (.found (segTreeFindNolock s.tree start «end» allocs)) with
        readers := s.readers.erase i }

def Sys.Next (rb : Rebalance) (s s' : Sys) : Prop := s.crashed = none ∧ Step rb s s'

/-- The states that some interleaving of the threads' steps reaches from `seg_tree_init`. -/
def Interleaved (rb : Rebalance) (s : Sys) : Prop :=
  Relation.ReflTransGen (Sys.Next rb) Sys.init s

theorem Interleaved.init {rb : Rebalance} : Interleaved rb Sys.init := .refl

theorem Interleaved.step {rb : Rebalance} {s s' : Sys} (h : Interleaved rb s)
    (hc : s.crashed = none) (hs : Step rb s s') : Interleaved rb s' :=
  .tail h (And.intro hc hs)

end UnifyCR
