import UnifyCR.SegTree.Linearizable

/-!
# The offset map every interleaving implements

What the segment tree is for: a map from file offsets to the pointers of the data written there
last. A `seg_tree_add` that returned `0` maps every offset of its range to its pointer, shifted by
the offset's distance from the range's start; a `seg_tree_clear` forgets every offset; the other
calls change nothing (`mapEvent`, and `logMap` for a whole log of returned calls).

* **One call.** A call run alone on a valid tree, that leaves the tree unlocked, changes its offset
  map (`lookup`) as `mapEvent` says; it also found the tree unlocked (`seqCall_lookup`).
* **A log.** Every prefix of an interleaving's log replays, while the tree it reaches is unlocked,
  to a tree whose offset map is the prefix's `logMap` (`Interleaved.prefix_lookup`). The adds of
  the log were all given `start ≤ end` (`Interleaved.log_add_ordered`), which the sequential
  contract of `seg_tree_add` asks for.
* **Refinement.** In every interleaving an iteration returned ordered, disjoint segments whose
  offset map is the `logMap` of the calls that returned before it, and while no thread holds the
  lock the shared tree's offset map is the `logMap` of the whole log
  (`interleaved_refines_offset_map`).
-/

namespace UnifyCR

/-! ## The abstract map -/

/-- The offset map after a returned call, from the map before it. -/
def mapEvent (m : Word → Option Word) (e : Event) : Word → Option Word :=
  match e.call, e.ret with
  | .add a, .rc 0 => fun x => if Covers a.node x then some (a.ptr + (x - a.start)) else m x
  | .clear, .done => fun _ => none
  | _, _ => m

/-- The offset map a log of returned calls describes, from the empty tree of `seg_tree_init`. -/
def logMap (log : List Event) : Word → Option Word :=
  log.foldl mapEvent fun _ => none

theorem logMap_snoc (log : List Event) (e : Event) :
    logMap (log ++ [e]) = mapEvent (logMap log) e := by
  rw [logMap, List.foldl_append]; rfl

/-! ## One call -/

section Call

variable {rb : Rebalance} {t t' : SegTree}

theorem mapEvent_of_read {m : Word → Option Word} {e : Event} (hadd : ∀ a, e.call ≠ .add a)
    (hcl : e.call ≠ .clear) : mapEvent m e = m := by
  unfold mapEvent
  split
  · exact absurd ‹_› (hadd _)
  · exact absurd ‹_› hcl
  · rfl

/-- A call run alone on a valid tree that leaves the tree unlocked found it unlocked, and changed
its offset map as `mapEvent` says. -/
theorem seqCall_lookup {e : Event} (hv : Valid t.segments)
    (hse : ∀ a, e.call = .add a → a.start ≤ a.«end») (h : seqCall rb t e.call = .ok (e.ret, t'))
    (hl : t'.wrlocked = false) :
    t.wrlocked = false ∧ lookup t'.segments = mapEvent (lookup t.segments) e := by
  obtain ⟨i, c, r⟩ := e
  dsimp only at hse h
  cases c with
  | add a =>
    rcases segTreeAdd_cases rb a.ptr a.allocs hv (hse a rfl) with
      ⟨-, h'⟩ | ⟨-, -, h'⟩ | ⟨-, hl₀, ⟨head, count, h', hs, -⟩ | ⟨-, ⟨head, count, h', -⟩ | h'⟩⟩ <;>
      simp only [seqCall, h', Except.map, Except.ok.injEq, Prod.mk.injEq, reduceCtorEq] at h
    · -- no node: the call returned `ENOMEM` and changed nothing
      obtain ⟨rfl, rfl⟩ := h
      exact ⟨hl, rfl⟩
    · -- inserted: the segment is spliced in
      obtain ⟨rfl, rfl⟩ := h
      refine ⟨hl₀, funext fun x => ?_⟩
      rw [SegTree.segments_mk, hs, lookup_splice _ (hse a rfl)]
      rfl
    · -- `ENOMEM` inside the loop leaves the tree locked
      obtain ⟨-, rfl⟩ := h
      cases hl
  | clear =>
    cases hlk : t.wrlocked
    · obtain ⟨t'', h', hs, -, -⟩ := segTreeClear_eq rb hv hlk
      simp only [seqCall, h', Except.map, Except.ok.injEq, Prod.mk.injEq] at h
      obtain ⟨rfl, rfl⟩ := h
      exact ⟨rfl, funext fun x => by rw [hs]; rfl⟩
    · simp [seqCall, segTreeClear_of_locked rb hlk, Except.map] at h
  | count | max | iterate | find =>
    obtain ⟨rfl, hlk⟩ := seqCall_of_read h (fun _ => nofun) nofun
    exact ⟨hlk, (mapEvent_of_read (fun _ => by simp) (by simp)).symm⟩

end Call

/-! ## A log -/

section Log

variable {rb : Rebalance} {s : Sys}

/-- A call that a step logs, if it is an add, was given `start ≤ end`: the check before the node
allocation, or the one the invariant keeps for the thread in the add's loop. -/
theorem Inv.logged_add (hi : Inv rb s) {s' : Sys} (h : Step rb s s') {e : Event}
    (he : s'.log = s.log ++ [e]) {a : AddArgs} (ha : e.call = .add a) : a.start ≤ a.«end» := by
  have hloop : ∀ i a' ns ne al, s.pcs i = .addLoop a' ns ne al → a'.start ≤ a'.«end» :=
    fun i a' ns ne al hpc => by
      obtain ⟨t, -, -, hag, -⟩ := hi.serial
      have hw := hi.writer i (by rw [hpc]; trivial)
      have := (agrees_of_writer_some hw).1 hag
      rw [hpc] at this
      exact this.2.2.1
  cases h <;> simp only [Sys.ret_log, Sys.setPc_log, List.append_cancel_left_eq,
    List.cons.injEq, and_true, List.self_eq_append_right, reduceCtorEq] at he <;>
    subst he <;> simp only [Call.add.injEq, reduceCtorEq] at ha
  all_goals subst ha
  case addNoMem hse _ => exact hse
  case inserted hpc _ => exact hloop _ _ _ _ _ hpc
  case enomem hpc _ => exact hloop _ _ _ _ _ hpc

/-- Every add in an interleaving's log was given `start ≤ end`. -/
theorem Interleaved.log_add_ordered (h : Interleaved rb s) {e : Event} (he : e ∈ s.log)
    {a : AddArgs} (ha : e.call = .add a) : a.start ≤ a.«end» := by
  induction h with
  | refl => simp [Sys.init] at he
  | @tail s s' hs hn ih =>
    rcases hn.2.log_snoc with hlog | ⟨e', hlog⟩
    · exact ih (hlog ▸ he)
    rw [hlog, List.mem_append, List.mem_singleton] at he
    rcases he with he | rfl
    · exact ih he
    · exact (Interleaved.inv hs).logged_add hn.2 hlog ha

/-- While it is unlocked, the tree a prefix of an interleaving's log replays to has the prefix's
offset map. -/
theorem Interleaved.prefix_lookup (h : Interleaved rb s) {l₁ l₂ : List Event}
    (hl : s.log = l₁ ++ l₂) {t : SegTree} (hr : seqRun rb segTreeInit l₁ = some t)
    (hu : t.wrlocked = false) : lookup t.segments = logMap l₁ := by
  induction l₁ using List.reverseRecOn generalizing l₂ t with
  | nil => cases hr; rfl
  | append_singleton l₀ e ih =>
    rw [List.append_assoc, List.singleton_append] at hl
    obtain ⟨t₀, t₁, hr₀, ht₀, hc⟩ := h.log_replays hl
    rw [seqRun_append, hr₀, Option.some_bind, seqEvent_eq_some, hc] at hr
    obtain rfl := (Prod.mk.inj (Except.ok.inj hr)).2
    have hse : ∀ a, e.call = .add a → a.start ≤ a.«end» := fun _ ha =>
      h.log_add_ordered (by rw [hl]; simp) ha
    obtain ⟨hu₀, hlk⟩ := seqCall_lookup ht₀.valid hse hc hu
    rw [hlk, ih hl hr₀ hu₀, logMap_snoc]

end Log

/-! ## Refinement -/

section Refinement

variable {rb : Rebalance} {s : Sys}

/-- **The offset map.** In every interleaving, an iteration returned ordered, disjoint segments
whose offset map is the one the calls that returned before it describe; and while no thread holds
the lock, the shared tree's offset map is the one the whole log describes. -/
theorem interleaved_refines_offset_map (h : Interleaved rb s) :
    (∀ l₁ e l₂, s.log = l₁ ++ e :: l₂ → e.call = .iterate →
      ∃ l, e.ret = .nodes l ∧ Valid l ∧ lookup l = logMap l₁) ∧
    (s.writer = none → lookup s.tree.segments = logMap s.log) := by
  refine ⟨fun l₁ e l₂ hl hc => ?_, fun hw => ?_⟩
  · obtain ⟨t, t', hr, ht, hs⟩ := h.log_replays hl
    rw [hc] at hs
    obtain ⟨-, hu⟩ := seqCall_of_read hs (fun _ => nofun) nofun
    exact ⟨t.segments, seqCall_iterate ht.valid hs, ht.valid, h.prefix_lookup hl hr hu⟩
  · obtain ⟨t, hr, -, hag, -⟩ := h.inv.serial
    have htr : s.tree = t := (agrees_of_writer_none hw).1 hag
    subst htr
    exact h.prefix_lookup (List.append_nil _).symm hr (by simp [Sys.tree, hw])

theorem interleaved_refines_offset_map_add_then_iterate :
    ∃ s, Interleaved Rebalance.none s ∧
      s.log = [⟨0, .add ⟨0, 9, 100, []⟩, .rc 0⟩, ⟨1, .iterate, .nodes [⟨0, 9, 100⟩]⟩] ∧
      (∀ l₁ e l₂, s.log = l₁ ++ e :: l₂ → e.call = .iterate →
        ∃ l, e.ret = .nodes l ∧ Valid l ∧ lookup l = logMap l₁) ∧
      (s.writer = none → lookup s.tree.segments = logMap s.log) :=
  let ⟨_, h, hl⟩ := interleaved_add_then_iterate
  ⟨_, h, hl, interleaved_refines_offset_map h⟩

end Refinement

end UnifyCR
