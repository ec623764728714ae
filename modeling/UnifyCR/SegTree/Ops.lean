import UnifyCR.SegTree.Inttree

/-!
# `seg_tree.c`: the segment tree's operations

The state is `struct seg_tree`: the `inttree`, `count`, `max` and the `rwlock`, of which the
model keeps whether the calling thread holds it for writing. A call either returns, with a
return code and the state it leaves, or never does (`Stuck`): `seg_tree_wrlock` on a lock the
thread already holds, `RB_INSERT` of a NULL node, or a model loop bound that ran out.

`calloc` can fail: each call gets the outcomes of its allocations, in order, as a list of
`Bool`s (`segTreeNodeAlloc`); once the list is used up every allocation succeeds.

`seg_tree_add` is one pass of its while loop (`addPass`) iterated by `addLoop`; each pass
starts with the `RB_INSERT` of the while condition. The loop's bound `2 * n + 1` for a tree of
`n` segments is enough on every valid tree (`AddLoop.lean`).
-/

namespace UnifyCR

structure SegTree where
  head : Inttree
  count : Word
  max : Word
  /-- The calling thread holds `rwlock` for writing. -/
  wrlocked : Bool
deriving DecidableEq, Repr

def SegTree.segments (t : SegTree) : List SegTreeNode := t.head.toList

@[simp] theorem SegTree.segments_mk (head : Inttree) (count max : Word) (wrlocked : Bool) :
    (SegTree.mk head count max wrlocked).segments = head.toList := rfl

inductive Stuck
  /-- `seg_tree_wrlock` on a lock this thread already holds: the `assert` around
  `pthread_rwlock_wrlock` fails, or the thread waits on itself. -/
  | relock
  /-- `RB_INSERT` of a NULL node. -/
  | nullInsert
  | outOfFuel
deriving DecidableEq, Repr

/-- `ENOMEM` of `errno.h`. -/
def ENOMEM : Nat := 12

def segTreeInit : SegTree := ⟨.leaf, 0, 0, false⟩

/-- `seg_tree_node_alloc`, with the outcome of its `calloc` taken from `allocs`. -/
def segTreeNodeAlloc (allocs : List Bool) (start «end» ptr : Word) :
    Option SegTreeNode × List Bool :=
  match allocs with
  | [] => (some ⟨start, «end», ptr⟩, [])
  | ok :: rest => (if ok then some ⟨start, «end», ptr⟩ else none, rest)

def segTreeWrlock (t : SegTree) : Except Stuck SegTree :=
  if t.wrlocked then .error .relock else .ok { t with wrlocked := true }

def segTreeUnlock (t : SegTree) : SegTree := { t with wrlocked := false }

/-- `get_non_overlapping_range`: `1` when `[start1, end1]` lies within `[start2, end2]`,
otherwise `0` with the first part of `[start1, end1]` outside it. The `long` parameters hold
the same 64 bits as the `unsigned long` ones, so the comparisons between them are unsigned and
`start2 - 1`, `end2 + 1` wrap. `new_start` and `new_end` keep their values when no branch
applies. -/
def getNonOverlappingRange (start1 end1 start2 end2 newStart newEnd : Word) :
    Nat × Word × Word :=
  if start1 ≥ start2 ∧ end1 ≤ end2 then (1, newStart, newEnd)
  else if start1 < start2 then (0, start1, MIN end1 (start2 - 1))
  else if start1 > start2 ∧ end1 > end2 then (0, MAX start1 (end2 + 1), end1)
  else if start1 = start2 ∧ end1 > end2 then (0, end2 + 1, end1)
  else (0, newStart, newEnd)

/-- `(long) x` of an `unsigned long`: the same 64 bits read in two's complement, as gcc
converts. `get_non_overlapping_range` computes `start2 - 1` and `end2 + 1` on such values. -/
def toLong (x : Word) : Int := x.toInt

structure AddState where
  head : Inttree
  count : Word
  newStart : Word
  newEnd : Word
  allocs : List Bool

inductive AddExit
  /-- `RB_INSERT` linked the new node. -/
  | inserted (s : AddState)
  /-- `return ENOMEM` inside the loop, with the lock still held. -/
  | enomem (s : AddState)
  | stuck (why : Stuck)

inductive Pass
  | again (s : AddState)
  | exit (e : AddExit)

/-- One pass of `seg_tree_add`'s while loop for the new node `node`: the `RB_INSERT` of the
condition, then the handling of the overlap it returns. -/
def addPass (rb : Rebalance) (node : SegTreeNode) (s : AddState) : Pass :=
  match rbInsert rb s.head node with
  | (head, none) => .exit (.inserted { s with head := head })
  | (_, some overlap) =>
    match getNonOverlappingRange overlap.start overlap.«end» node.start node.«end»
        s.newStart s.newEnd with
    | (rc, newStart, newEnd) =>
      if rc ≠ 0 then
        .again ⟨rbRemove rb s.head overlap, s.count - 1, newStart, newEnd, s.allocs⟩
      else
        match segTreeNodeAlloc s.allocs newStart newEnd
            (overlap.ptr + (newStart - overlap.start)) with
        | (none, allocs) => .exit (.enomem ⟨s.head, s.count, newStart, newEnd, allocs⟩)
        | (some resized, allocs) =>
          let head := (rbInsert rb (rbRemove rb s.head overlap) resized).1
          if resized.«end» + 1 ≥ overlap.start ∧ resized.«end» + 1 ≤ overlap.«end» then
            -- the code tests `resized` again, so a failed allocation of `remaining`
            -- goes on to `RB_INSERT(NULL)`
            match segTreeNodeAlloc allocs (resized.«end» + 1) overlap.«end»
                (overlap.ptr + (resized.«end» + 1 - overlap.start)) with
            | (none, _) => .exit (.stuck .nullInsert)
            | (some remaining, allocs) =>
              .again ⟨(rbInsert rb head remaining).1, s.count + 1, newStart, newEnd, allocs⟩
          else .again ⟨head, s.count, newStart, newEnd, allocs⟩

def addLoop (rb : Rebalance) (node : SegTreeNode) : Nat → AddState → AddExit
  | 0, _ => .stuck .outOfFuel
  | fuel + 1, s =>
    match addPass rb node s with
    | .again s' => addLoop rb node fuel s'
    | .exit e => e

/-- `seg_tree_add`: the return code (`0` or `ENOMEM`) and the tree as the call leaves it. -/
def segTreeAdd (rb : Rebalance) (t : SegTree) (start «end» ptr : Word) (allocs : List Bool) :
    Except Stuck (Nat × SegTree) :=
  match segTreeNodeAlloc allocs start «end» ptr with
  | (none, _) => .ok (ENOMEM, t)
  | (some node, allocs) => do
    let t ← segTreeWrlock t
    match addLoop rb node (2 * t.segments.length + 1) ⟨t.head, t.count, 0, 0, allocs⟩ with
    | .inserted s =>
      .ok (0, segTreeUnlock { t with head := s.head, count := s.count + 1, max := MAX t.max «end» })
    | .enomem s => .ok (ENOMEM, { t with head := s.head, count := s.count })
    | .stuck why => .error why

/-- `seg_tree_iter`: the first node for `NULL`, else the node after `start`, or `NULL` when
`start` is not in the tree. -/
def segTreeIter (head : Inttree) : Option SegTreeNode → Option SegTreeNode
  | none => head.min
  | some start =>
    match head.find start with
    | none => none
    | some _ => head.next start

/-- The loop `seg_tree_iter`'s comment gives, `node = NULL; while ((node = seg_tree_iter(seg_tree,
node))) ...`, for at most `fuel` calls: the nodes it visits, once a call returns `NULL`. -/
def segTreeIterLoop (head : Inttree) : Nat → Option SegTreeNode → Option (List SegTreeNode)
  | 0, _ => none
  | fuel + 1, node =>
    match segTreeIter head node with
    | none => some []
    | some next => (segTreeIterLoop head fuel (some next)).map (next :: ·)

/-- The while loop of `seg_tree_clear`, for at most `fuel` passes, and the removal of the last
node after it. -/
def clearLoop (rb : Rebalance) :
    Nat → Inttree → Option SegTreeNode → Option SegTreeNode → Except Stuck Inttree
  | 0, _, _, _ => .error .outOfFuel
  | fuel + 1, head, node, oldnode =>
    let head' := match oldnode with
      | some o => rbRemove rb head o
      | none => head
    match segTreeIter head node with
    | none => .ok head'
    | some node' => clearLoop rb fuel head' (some node') (some node')

def segTreeClear (rb : Rebalance) (t : SegTree) : Except Stuck SegTree := do
  let t ← segTreeWrlock t
  if t.head = .leaf then return segTreeUnlock t
  let head ← clearLoop rb (t.segments.length + 1) t.head none none
  return segTreeUnlock { t with head, count := 0, max := 0 }

def segTreeDestroy (rb : Rebalance) (t : SegTree) : Except Stuck SegTree := segTreeClear rb t

/-- `seg_tree_find_nolock`: `RB_NFIND` of the probe node `[start, start]`, kept when it starts
at or before `end`; `NULL` when the probe cannot be allocated. The caller holds the lock. -/
def segTreeFindNolock (t : SegTree) (start «end» : Word) (allocs : List Bool) :
    Option SegTreeNode :=
  match segTreeNodeAlloc allocs start start 0 with
  | (none, _) => none
  | (some node, _) =>
    match t.head.nfind node with
    | some next => if next.start ≤ «end» then some next else none
    | none => none

/-- A field of the tree read under the write lock, as `seg_tree_count` and `seg_tree_max` do;
`seg_tree_unlock` changes no field. -/
def readLocked (field : SegTree → Word) (t : SegTree) : Except Stuck Word := do
  let t ← segTreeWrlock t
  return field t

def segTreeCount (t : SegTree) : Except Stuck Word := readLocked SegTree.count t

def segTreeMax (t : SegTree) : Except Stuck Word := readLocked SegTree.max t

end UnifyCR
