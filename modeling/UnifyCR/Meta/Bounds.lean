import UnifyCR.Meta.Attrs

/-!
# The fixed-size arrays of the metadata service

`meta_process_fsync` and `meta_batch_get` stage keys, values and lengths in arrays of a fixed
length: `unifycr_key_lens` and `unifycr_val_lens` of `MAX_META_PER_SEND` elements,
`fattr_key_lens` and `fattr_val_lens` of `MAX_FILE_CNT_PER_NODE`, `del_req_set->msg_meta` of
`MAX_META_PER_SEND` (`msg_meta_t` of `unifycr_global.h`), and the pointer arrays `unifycr_keys`,
`unifycr_vals`, `fattr_keys` and `fattr_vals`, which the disabled `meta_init_indices` allocates
with the same lengths. The two constants come from `unifycr_const.h`, which is not part of the
source, so they are parameters (`MetaBounds`).

Each loop of the two functions is modelled by the elements it accesses, in order; an access at
or past the end of its array, undefined in C, stops the model with the array and the index
(`OutOfBounds`). Neither function compares a count with a bound or splits its input, so the
accesses stay inside the arrays exactly when the counts fit: the client's entry and record
counts for `meta_process_fsync` (`metaProcessFsyncAccesses_eq_ok_iff`), twice the request count
and the number of bindings the range get returns for `meta_batch_get`
(`metaBatchGetAccesses_eq_ok_iff`).
-/

namespace UnifyCR

/-- The arrays of `unifycr_metadata.c` with a declared length. -/
inductive MetaArray
  | unifycrKeys
  | unifycrVals
  | unifycrKeyLens
  | unifycrValLens
  | fattrKeys
  | fattrVals
  | fattrKeyLens
  | fattrValLens
  | msgMeta
deriving DecidableEq, Repr

/-- The values of `MAX_META_PER_SEND` and `MAX_FILE_CNT_PER_NODE`. -/
structure MetaBounds where
  maxMetaPerSend : Nat
  maxFileCntPerNode : Nat
deriving DecidableEq, Repr

/-- The declared length of each array. -/
def MetaArray.bound (b : MetaBounds) : MetaArray → Nat
  | unifycrKeys | unifycrVals | unifycrKeyLens | unifycrValLens | msgMeta => b.maxMetaPerSend
  | fattrKeys | fattrVals | fattrKeyLens | fattrValLens => b.maxFileCntPerNode

/-- An access at or past the end of an array: the array and the index. -/
structure OutOfBounds where
  array : MetaArray
  index : Nat
deriving DecidableEq, Repr

/-- An access to element `i` of array `a`. -/
def access (b : MetaBounds) (a : MetaArray) (i : Nat) : Except OutOfBounds Unit :=
  if i < a.bound b then .ok () else .error ⟨a, i⟩

/-- A loop `for (i = 0; i < n; i++)` whose body accesses the elements `slots i`, in order. -/
def fillLoop (b : MetaBounds) (slots : Nat → List (MetaArray × Nat)) (n : Nat) :
    Except OutOfBounds Unit :=
  (List.range n).forM fun i => (slots i).forM fun s => access b s.1 s.2

/-- The accesses of `meta_process_fsync`: element `i` of the four index arrays for each of the
client's `num_entries` index entries, then element `i` of the four attribute arrays for each of
its attribute records. -/
def metaProcessFsyncAccesses (b : MetaBounds) (metaPayload : List UnifycrIndex)
    (attrPayload : List UnifycrFileAttr) : Except OutOfBounds Unit := do
  fillLoop b (fun i => [(.unifycrKeys, i), (.unifycrVals, i), (.unifycrKeyLens, i),
    (.unifycrValLens, i)]) metaPayload.length
  fillLoop b (fun i => [(.fattrKeys, i), (.fattrVals, i), (.fattrKeyLens, i),
    (.fattrValLens, i)]) attrPayload.length

/-- The accesses of `meta_batch_get`: the two probe keys of request `i` and their lengths, at
`2 * i` and `2 * i + 1`, then one `msg_meta` entry for each binding of the reply chain of the
range get (`mdhimBGet`). -/
def metaBatchGetAccesses (b : MetaBounds) (mdhimBGet : List UnifycrKey → List BgetRm)
    (metaReqs : List ShmMeta) : Except OutOfBounds Unit := do
  fillLoop b (fun i => [(.unifycrKeys, 2 * i), (.unifycrKeys, 2 * i + 1),
    (.unifycrKeyLens, 2 * i), (.unifycrKeyLens, 2 * i + 1)]) metaReqs.length
  fillLoop b (fun k => [(.msgMeta, k)]) (chainBindings (mdhimBGet (probeKeys metaReqs))).length

/-! ## When the loops stay inside their arrays -/

section InBounds

variable {b : MetaBounds}

theorem forM_eq_ok {α : Type} {f : α → Except OutOfBounds Unit} :
    ∀ {l : List α}, l.forM f = .ok () ↔ ∀ x ∈ l, f x = .ok ()
  | [] => by simp [List.forM, pure, Except.pure]
  | a :: l => by
    simp only [List.forM, List.mem_cons, forall_eq_or_imp]
    cases f a <;> simp [bind, Except.bind, forM_eq_ok]

theorem bind_eq_ok_unit {x y : Except OutOfBounds Unit} :
    (x >>= fun _ => y) = .ok () ↔ x = .ok () ∧ y = .ok () := by
  cases x <;> simp [bind, Except.bind]

theorem access_eq_ok {a : MetaArray} {i : Nat} : access b a i = .ok () ↔ i < a.bound b := by
  unfold access; split <;> simp_all

/-- A loop stays inside its arrays exactly when every element it accesses does. -/
theorem fillLoop_eq_ok {slots : Nat → List (MetaArray × Nat)} {n : Nat} :
    fillLoop b slots n = .ok () ↔ ∀ i < n, ∀ s ∈ slots i, s.2 < s.1.bound b := by
  simp only [fillLoop, forM_eq_ok, List.mem_range, access_eq_ok]

/-- `meta_process_fsync` stays inside its arrays exactly when the client has at most
`MAX_META_PER_SEND` index entries and at most `MAX_FILE_CNT_PER_NODE` attribute records. -/
theorem metaProcessFsyncAccesses_eq_ok_iff (metaPayload : List UnifycrIndex)
    (attrPayload : List UnifycrFileAttr) :
    metaProcessFsyncAccesses b metaPayload attrPayload = .ok () ↔
      metaPayload.length ≤ b.maxMetaPerSend ∧ attrPayload.length ≤ b.maxFileCntPerNode := by
  simp only [metaProcessFsyncAccesses, bind_eq_ok_unit, fillLoop_eq_ok, List.mem_cons,
    List.mem_singleton, forall_eq_or_imp, forall_eq, List.not_mem_nil, false_implies,
    implies_true, and_true, MetaArray.bound, and_self, forall_lt_iff_le]

/-- `meta_batch_get` stays inside its arrays exactly when twice the number of requests and the
number of bindings the range get returns are at most `MAX_META_PER_SEND`. -/
theorem metaBatchGetAccesses_eq_ok_iff (mdhimBGet : List UnifycrKey → List BgetRm)
    (metaReqs : List ShmMeta) :
    metaBatchGetAccesses b mdhimBGet metaReqs = .ok () ↔
      2 * metaReqs.length ≤ b.maxMetaPerSend ∧
        (chainBindings (mdhimBGet (probeKeys metaReqs))).length ≤ b.maxMetaPerSend := by
  simp only [metaBatchGetAccesses, bind_eq_ok_unit, fillLoop_eq_ok, List.mem_cons,
    List.mem_singleton, forall_eq_or_imp, forall_eq, List.not_mem_nil, false_implies,
    implies_true, and_true, MetaArray.bound, forall_lt_iff_le]
  refine and_congr_left' ⟨fun h => Nat.le_of_not_lt fun hlt => ?_,
    fun h i hi => ⟨by omega, by omega, by omega, by omega⟩⟩
  -- the last request's second key sits at `2 * req_cnt - 1`
  have := (h (metaReqs.length - 1) (by omega)).2.1
  omega

/-- `meta_process_fsync` and `meta_batch_get` stay inside their arrays exactly when the counts
fit: the client's index entries and `2 * req_cnt` within `MAX_META_PER_SEND`, its attribute
records within `MAX_FILE_CNT_PER_NODE`, and the bindings of the range get within
`MAX_META_PER_SEND`. -/
theorem meta_accesses_in_bounds_iff (b : MetaBounds) (metaPayload : List UnifycrIndex)
    (attrPayload : List UnifycrFileAttr) (mdhimBGet : List UnifycrKey → List BgetRm)
    (metaReqs : List ShmMeta) :
    (metaProcessFsyncAccesses b metaPayload attrPayload = .ok () ↔
      metaPayload.length ≤ b.maxMetaPerSend ∧ attrPayload.length ≤ b.maxFileCntPerNode) ∧
    (metaBatchGetAccesses b mdhimBGet metaReqs = .ok () ↔
      2 * metaReqs.length ≤ b.maxMetaPerSend ∧
        (chainBindings (mdhimBGet (probeKeys metaReqs))).length ≤ b.maxMetaPerSend) :=
  ⟨metaProcessFsyncAccesses_eq_ok_iff metaPayload attrPayload,
    metaBatchGetAccesses_eq_ok_iff mdhimBGet metaReqs⟩

end InBounds

/-! ## Past the end of the arrays -/

/-- No count is compared with a bound. For any values of the two constants, a batch of
`MAX_META_PER_SEND` read requests, which `req_cnt ≤ MAX_META_PER_SEND` allows, takes
`meta_batch_get` past the end of `unifycr_keys`, and a client region of `MAX_META_PER_SEND + 1`
index entries takes `meta_process_fsync` there too. -/
theorem meta_arrays_written_past_bounds (b : MetaBounds) (hb : 0 < b.maxMetaPerSend)
    (mdhimBGet : List UnifycrKey → List BgetRm) (metaReqs : List ShmMeta)
    (hreq : metaReqs.length = b.maxMetaPerSend) (metaPayload : List UnifycrIndex)
    (hpay : metaPayload.length = b.maxMetaPerSend + 1) (attrPayload : List UnifycrFileAttr) :
    metaBatchGetAccesses b mdhimBGet metaReqs ≠ .ok () ∧
      metaProcessFsyncAccesses b metaPayload attrPayload ≠ .ok () := by
  rw [Ne, metaBatchGetAccesses_eq_ok_iff, Ne, metaProcessFsyncAccesses_eq_ok_iff]
  omega

theorem meta_arrays_written_past_bounds_one :
    metaBatchGetAccesses ⟨1, 1⟩ (rangeGetOne []) [⟨1, 5, 3⟩] ≠ .ok () ∧
      metaProcessFsyncAccesses ⟨1, 1⟩ [⟨1, 0, 0, 1⟩, ⟨1, 1, 1, 1⟩] [] ≠ .ok () :=
  meta_arrays_written_past_bounds ⟨1, 1⟩ (by decide) (rangeGetOne []) [⟨1, 5, 3⟩] rfl
    [⟨1, 0, 0, 1⟩, ⟨1, 1, 1, 1⟩] rfl []

end UnifyCR
