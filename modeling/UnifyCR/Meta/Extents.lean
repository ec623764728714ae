import UnifyCR.Meta.Types

/-!
# The extent index: flush and lookup

`meta_process_fsync` turns each raw index entry of a client into a key and value of the
extent index and puts them in one batch (`fsyncKeyVal`, `metaProcessFsyncIndex`).
`meta_batch_get` probes the index with the first and last byte of each read request, and
writes one `send_msg_t` per binding of the reply chain (`metaBatchGet`, `sendMsgOf`).

The index itself (MDHIM) is not part of the source. The extent index is the list of pairs the
batch puts have delivered, and its range get is given by the specification (`RangeGet`): the
reply chain holds, in some order, every stored pair whose key lies in one of the closed key
ranges the probe keys form two by two. With it, a stored pair reaches `del_req_set` exactly when
its key lies in the range `[offset, offset + length - 1]` of a request of its file
(`metaBatchGet_locates_key_ranges`), and each entry carries the fields of the raw entry it came
from (`metaBatchGet_msg_of_fsync_entry`).
-/

namespace UnifyCR

/-! ## `meta_process_fsync`: the index part -/

/-- The extent index: the pairs that batch puts have delivered to it. -/
abbrev ExtentStore := List (UnifycrKey × UnifycrVal)

/-- The key and value `meta_process_fsync` builds from the raw entry `e` of client
`clientSideId` of app `appId` on delegator `glbRank`. `old` is the slot of `unifycr_vals`
before the call: its `app_rank_id` is not written. -/
def fsyncKeyVal (glbRank appId clientSideId : CInt) (old : UnifycrVal) (e : UnifycrIndex) :
    UnifycrKey × UnifycrVal :=
  (⟨intToU64 e.fid, e.filePos⟩,
    { old with addr := e.memPos, len := e.length, delegatorId := glbRank, appId := appId,
               rank := clientSideId })

/-- The index part of `meta_process_fsync`: the pairs of the client's entries, put in one batch
(`mdhimBPut`); `old i` is the slot `unifycr_vals[i]` before the call. -/
def metaProcessFsyncIndex (glbRank appId clientSideId : CInt) (old : Nat → UnifycrVal)
    (metaPayload : List UnifycrIndex) (store : ExtentStore) : ExtentStore :=
  store ++ metaPayload.mapIdx fun i e => fsyncKeyVal glbRank appId clientSideId (old i) e

/-- The walk of a batch put's reply chain (the `error` of each reply, in order) that follows each
`mdhimBPut`: it stops at the first negative error, with `UNIFYCR_ERROR_MDHIM` (`errMdhim`). -/
def bputWalk (errMdhim rc : Int) : List Int → Int
  | [] => rc
  | e :: rest => if e < 0 then errMdhim else bputWalk errMdhim rc rest

/-- The check of a batch put's reply chain: `rc` becomes `errMdhim` when there is no reply or the
first reply has an error, then the walk. -/
def bputCheck (errMdhim rc : Int) (replies : List Int) : Int :=
  bputWalk errMdhim
    (match replies with
      | e :: _ => if e ≠ 0 then errMdhim else rc
      | [] => errMdhim)
    replies

/-- A batch put reported as done: a first reply without error, and no reply with a negative
one. A positive error in a later reply goes unnoticed. -/
def BputOk (replies : List Int) : Prop := replies.head? = some 0 ∧ ∀ e ∈ replies, 0 ≤ e

instance (replies : List Int) : Decidable (BputOk replies) :=
  inferInstanceAs (Decidable (_ ∧ _))

theorem bputWalk_eq (errMdhim rc : Int) (replies : List Int) :
    bputWalk errMdhim rc replies = if ∀ e ∈ replies, 0 ≤ e then rc else errMdhim := by
  induction replies with
  | nil => simp [bputWalk]
  | cons e rest ih =>
    rw [bputWalk, ih]
    by_cases he : e < 0
    · simp [he, not_le.2 he]
    · simp [he, not_lt.1 he]

theorem bputCheck_eq (errMdhim rc : Int) (replies : List Int) :
    bputCheck errMdhim rc replies = if BputOk replies then rc else errMdhim := by
  rcases replies with _ | ⟨e, rest⟩
  · simp [bputCheck, bputWalk, BputOk]
  · by_cases he : e = 0 <;> simp [bputCheck, bputWalk_eq, BputOk, he]

/-! ## `meta_batch_get` -/

/-- The probe keys of `meta_batch_get`: the first and the last byte of each request. -/
def probeKeys (metaReqs : List ShmMeta) : List UnifycrKey :=
  metaReqs.flatMap fun req =>
    [⟨intToU64 req.srcFid, req.offset⟩, ⟨intToU64 req.srcFid, req.offset + req.length - 1⟩]

/-- The `send_msg_t` that `meta_batch_get` fills from a binding, after its `memset`. -/
def sendMsgOf (glbRank appId clientId thrdId dbgRank : CInt) (kv : UnifycrKey × UnifycrVal) :
    SendMsg where
  destAppId := kv.2.appId
  destClientId := kv.2.rank
  destOffset := offTToSizeT kv.2.addr
  destDelegatorRank := kv.2.delegatorId
  length := kv.2.len
  srcDelegatorRank := glbRank
  srcCliId := clientId
  srcAppId := appId
  srcFid := u64ToInt kv.1.fid
  srcOffset := offTToSizeT kv.1.offset
  srcThrd := thrdId
  srcDbgRank := dbgRank
  arrivalTime := 0

/-- `msg_meta_t`: the number of entries written and the entries. -/
structure MsgMeta where
  num : Nat
  msgMeta : List SendMsg
deriving DecidableEq, Repr

/-- The loop of `meta_batch_get` over the reply chain: the return code and the entries written
so far; `errMdhim` is `UNIFYCR_ERROR_MDHIM`. -/
def batchGetLoop (errMdhim : Int) (f : UnifycrKey × UnifycrVal → SendMsg) :
    List BgetRm → Int × List SendMsg → Int × List SendMsg
  | [], acc => acc
  | b :: rest, (rc, msgs) =>
    batchGetLoop errMdhim f rest (if b.error < 0 then errMdhim else rc, msgs ++ b.bindings.map f)

/-- `meta_batch_get`; `mdhimBGet` is the range get (`MDHIM_RANGE_BGET`) of the extent index. -/
def metaBatchGet (mdhimBGet : List UnifycrKey → List BgetRm) (errMdhim : Int)
    (glbRank appId clientId thrdId dbgRank : CInt) (metaReqs : List ShmMeta) : Int × MsgMeta :=
  let r := batchGetLoop errMdhim (sendMsgOf glbRank appId clientId thrdId dbgRank)
    (mdhimBGet (probeKeys metaReqs)) (0, [])
  (r.1, ⟨r.2.length, r.2⟩)

theorem batchGetLoop_msgs (errMdhim : Int) (f : UnifycrKey × UnifycrVal → SendMsg) :
    ∀ (chain : List BgetRm) (rc : Int) (msgs : List SendMsg),
      (batchGetLoop errMdhim f chain (rc, msgs)).2 = msgs ++ (chainBindings chain).map f
  | [], _, _ => by simp [batchGetLoop, chainBindings]
  | b :: rest, _, _ => by
    rw [batchGetLoop, batchGetLoop_msgs errMdhim f rest]
    simp [chainBindings]

/-- `del_req_set` holds one entry per binding of the reply chain, in order. -/
theorem metaBatchGet_msgMeta (mdhimBGet : List UnifycrKey → List BgetRm) (errMdhim : Int)
    (glbRank appId clientId thrdId dbgRank : CInt) (metaReqs : List ShmMeta) :
    (metaBatchGet mdhimBGet errMdhim glbRank appId clientId thrdId dbgRank metaReqs).2.msgMeta =
      (chainBindings (mdhimBGet (probeKeys metaReqs))).map
        (sendMsgOf glbRank appId clientId thrdId dbgRank) := by
  simp [metaBatchGet, batchGetLoop_msgs]

/-! ## The range get -/

/-- The closed key ranges of a range get: the probe keys, two by two. -/
def keyRanges : List UnifycrKey → List (UnifycrKey × UnifycrKey)
  | lo :: hi :: rest => (lo, hi) :: keyRanges rest
  | _ => []

def InRanges (keys : List UnifycrKey) (k : UnifycrKey) : Prop :=
  ∃ r ∈ keyRanges keys, InKeyRange r.1 r.2 k

instance (keys : List UnifycrKey) (k : UnifycrKey) : Decidable (InRanges keys k) :=
  inferInstanceAs (Decidable (∃ r ∈ keyRanges keys, _))

/-- Modelled from the spec (§4.3, Range Get), MDHIM not being part of the source: the reply
chain holds, in some order and in any split into batches, every stored pair whose key lies in
one of the ranges. -/
def RangeGet (store : ExtentStore) (keys : List UnifycrKey) (chain : List BgetRm) : Prop :=
  (chainBindings chain).Perm (store.filter fun kv => decide (InRanges keys kv.1))

/-- Modelled from the spec: a range get answered in a single batch. -/
def rangeGetOne (store : ExtentStore) (keys : List UnifycrKey) : List BgetRm :=
  [⟨0, store.filter fun kv => decide (InRanges keys kv.1)⟩]

theorem rangeGetOne_spec (store : ExtentStore) (keys : List UnifycrKey) :
    RangeGet store keys (rangeGetOne store keys) := by
  simp [RangeGet, rangeGetOne, chainBindings]

/-- Request `req` covers key `k`: same file, offset in `[offset, offset + length - 1]` (computed
in `unsigned long`, as the probe key is). -/
def RequestCovers (req : ShmMeta) (k : UnifycrKey) : Prop :=
  k.fid = intToU64 req.srcFid ∧ req.offset ≤ k.offset ∧ k.offset ≤ req.offset + req.length - 1

instance (req : ShmMeta) (k : UnifycrKey) : Decidable (RequestCovers req k) :=
  inferInstanceAs (Decidable (_ ∧ _))

theorem keyRanges_probeKeys (metaReqs : List ShmMeta) :
    keyRanges (probeKeys metaReqs) = metaReqs.map fun req =>
      (⟨intToU64 req.srcFid, req.offset⟩, ⟨intToU64 req.srcFid, req.offset + req.length - 1⟩) := by
  induction metaReqs with
  | nil => rfl
  | cons req rest ih =>
    show keyRanges (_ :: _ :: probeKeys rest) = _
    rw [keyRanges, ih, List.map_cons]

theorem inRanges_probeKeys {metaReqs : List ShmMeta} {k : UnifycrKey} :
    InRanges (probeKeys metaReqs) k ↔ ∃ req ∈ metaReqs, RequestCovers req k := by
  simp [InRanges, keyRanges_probeKeys, inKeyRange_same_fid, RequestCovers]

/-- With a range get as the specification has it, `del_req_set` holds one entry for each stored
pair whose key some request covers, and no other. -/
theorem metaBatchGet_locates_key_ranges (store : ExtentStore)
    (mdhimBGet : List UnifycrKey → List BgetRm) (hget : ∀ keys, RangeGet store keys (mdhimBGet keys))
    (errMdhim : Int) (glbRank appId clientId thrdId dbgRank : CInt) (metaReqs : List ShmMeta) :
    (metaBatchGet mdhimBGet errMdhim glbRank appId clientId thrdId dbgRank metaReqs).2.msgMeta.Perm
      ((store.filter fun kv => decide (∃ req ∈ metaReqs, RequestCovers req kv.1)).map
        (sendMsgOf glbRank appId clientId thrdId dbgRank)) := by
  rw [metaBatchGet_msgMeta]
  refine ((hget _).map _).trans (.of_eq ?_)
  congr 1
  exact List.filter_congr fun kv _ => by simp only [inRanges_probeKeys]

theorem metaBatchGet_locates_key_ranges_one_request :
    (metaBatchGet (rangeGetOne [(⟨1, 6⟩, ⟨200, 2, 0, 0, 0, 0⟩)]) 0 0 0 0 0 0
        [⟨1, 5, 3⟩]).2.msgMeta.Perm
      ((([(⟨1, 6⟩, ⟨200, 2, 0, 0, 0, 0⟩)] : ExtentStore).filter fun kv =>
        decide (∃ req ∈ [(⟨1, 5, 3⟩ : ShmMeta)], RequestCovers req kv.1)).map
        (sendMsgOf 0 0 0 0 0)) :=
  metaBatchGet_locates_key_ranges _ _ (rangeGetOne_spec _) 0 0 0 0 0 0 [⟨1, 5, 3⟩]

/-- The extent `[0, 9]` of file `1` overlaps the request for `[5, 7]`, but its key `(1, 0)` lies
outside the probe range `[(1, 5), (1, 7)]`: `del_req_set` stays empty. -/
theorem metaBatchGet_misses_extent_before_offset :
    (0 : U64) ≤ 5 + 3 - 1 ∧ (5 : U64) ≤ 0 + 10 - 1 ∧
    (metaBatchGet (rangeGetOne [(⟨1, 0⟩, ⟨100, 10, 0, 0, 0, 0⟩)]) 0 0 0 0 0 0 [⟨1, 5, 3⟩]).2.num
      = 0 := by
  decide

/-! ## From a flushed entry to a read reply address -/

/-- The entry `meta_batch_get` writes for a binding that `meta_process_fsync` flushed carries the
raw entry's file, offsets, length and owner, through every conversion on the way. -/
theorem metaBatchGet_msg_of_fsync_entry (mdhimBGet : List UnifycrKey → List BgetRm)
    (errMdhim : Int) (srcRank srcAppId srcCliId thrdId dbgRank : CInt) (metaReqs : List ShmMeta)
    (glbRank appId clientSideId : CInt) (old : UnifycrVal) (e : UnifycrIndex) (i : Nat)
    (h : (chainBindings (mdhimBGet (probeKeys metaReqs)))[i]? =
      some (fsyncKeyVal glbRank appId clientSideId old e)) :
    ∃ m, (metaBatchGet mdhimBGet errMdhim srcRank srcAppId srcCliId thrdId dbgRank
        metaReqs).2.msgMeta[i]? = some m ∧
      m.srcFid = e.fid ∧ m.srcOffset = e.filePos ∧ m.destOffset = e.memPos ∧
      m.length = e.length ∧ m.destDelegatorRank = glbRank ∧ m.destAppId = appId ∧
      m.destClientId = clientSideId := by
  rw [metaBatchGet_msgMeta, List.getElem?_map, h]
  exact ⟨_, rfl, by simp [sendMsgOf, fsyncKeyVal]⟩

/-- An entry with a negative `fid` and a `file_pos` of `2^63`, flushed and then read back. -/
theorem metaBatchGet_msg_of_fsync_entry_negative_fid :
    ∃ m : SendMsg, (metaBatchGet (rangeGetOne [fsyncKeyVal 2 3 4 ⟨0, 0, 0, 0, 0, 0⟩
          ⟨-1, 0x8000000000000000, 5, 7⟩]) 0 9 3 4 1 0 [⟨-1, 0x8000000000000000, 7⟩]).2.msgMeta[0]?
        = some m ∧
      m.srcFid = -1 ∧ m.srcOffset = 0x8000000000000000 ∧ m.destOffset = 5 ∧ m.length = 7 ∧
      m.destDelegatorRank = 2 ∧ m.destAppId = 3 ∧ m.destClientId = 4 :=
  metaBatchGet_msg_of_fsync_entry
    (rangeGetOne [fsyncKeyVal 2 3 4 ⟨0, 0, 0, 0, 0, 0⟩ ⟨-1, 0x8000000000000000, 5, 7⟩]) 0 9 3 4 1 0
    [⟨-1, 0x8000000000000000, 7⟩] 2 3 4 ⟨0, 0, 0, 0, 0, 0⟩ ⟨-1, 0x8000000000000000, 5, 7⟩ 0
    (by decide)

/-! ## `unifycr_get_file_extents` -/

/-- `unifycr_keyval_t`. -/
structure UnifycrKeyval where
  key : UnifycrKey
  val : UnifycrVal
deriving DecidableEq, Repr

/-- The entry `unifycr_get_file_extents` writes for a binding into its `calloc`ed array: the key,
then `addr`, `app_rank_id`, `delegator_id`, and `addr` once more, from `len`. -/
def keyvalOf (kv : UnifycrKey × UnifycrVal) : UnifycrKeyval :=
  let val : UnifycrVal := ⟨0, 0, 0, 0, 0, 0⟩
  let val := { val with addr := kv.2.addr }
  let val := { val with appRankId := kv.2.appRankId }
  let val := { val with delegatorId := kv.2.delegatorId }
  let val := { val with addr := kv.2.len }
  ⟨⟨kv.1.fid, kv.1.offset⟩, val⟩

/-- The loop of `unifycr_get_file_extents` over the reply chain: the return code, `*keyval`
(a fresh array for each batch) and `tot_num`, counted once per batch. -/
def fileExtentsLoop (errMdhim : Int) :
    List BgetRm → Int × List UnifycrKeyval × Nat → Int × List UnifycrKeyval × Nat
  | [], acc => acc
  | b :: rest, (rc, _, totNum) =>
    fileExtentsLoop errMdhim rest
      (if b.error < 0 then errMdhim else rc, b.bindings.map keyvalOf, totNum + 1)

/-- `unifycr_get_file_extents`: the return code, `*num_values` and `*keyval`; `keyval` is what
`*keyval` held before the call. -/
def unifycrGetFileExtents (mdhimBGet : List UnifycrKey → List BgetRm) (errMdhim : Int)
    (keys : List UnifycrKey) (keyval : List UnifycrKeyval) : Int × Nat × List UnifycrKeyval :=
  let r := fileExtentsLoop errMdhim (mdhimBGet keys) (0, keyval, 0)
  (r.1, r.2.2, r.2.1)

theorem fileExtentsLoop_eq (errMdhim : Int) :
    ∀ (chain : List BgetRm) (rc : Int) (keyval : List UnifycrKeyval) (totNum : Nat),
      (fileExtentsLoop errMdhim chain (rc, keyval, totNum)).2 =
        (((chain.getLast?.map BgetRm.bindings).map (List.map keyvalOf)).getD keyval,
          totNum + chain.length)
  | [], _, _, _ => rfl
  | [b], _, _, _ => rfl
  | b :: b' :: rest, _, _, _ => by
    rw [fileExtentsLoop, fileExtentsLoop_eq errMdhim (b' :: rest), List.getLast?_cons_cons,
      List.getLast?_eq_getLast _ (List.cons_ne_nil _ _)]
    simp only [Option.map_some', Option.getD_some, List.length_cons, Prod.mk.injEq, true_and]
    omega

/-- The entry of a binding carries the stored length as its `addr` and `0` as its `len`; of the
rest of the value only `delegator_id` and `app_rank_id` are copied. -/
theorem keyvalOf_eq (k : UnifycrKey) (v : UnifycrVal) :
    keyvalOf (k, v) = ⟨k, ⟨v.len, 0, v.delegatorId, 0, 0, v.appRankId⟩⟩ := rfl

/-- `*num_values` is the number of batches of the reply chain, and `*keyval` holds the last batch
only: each entry with the stored length as its `addr` and `0` as its `len`. -/
theorem unifycrGetFileExtents_eq (mdhimBGet : List UnifycrKey → List BgetRm) (errMdhim : Int)
    (keys : List UnifycrKey) (keyval : List UnifycrKeyval) :
    (unifycrGetFileExtents mdhimBGet errMdhim keys keyval).2 =
      ((mdhimBGet keys).length,
        (((mdhimBGet keys).getLast?.map BgetRm.bindings).map (List.map fun kv =>
          ⟨kv.1, ⟨kv.2.len, 0, kv.2.delegatorId, 0, 0, kv.2.appRankId⟩⟩)).getD keyval) := by
  have hkv : keyvalOf = fun kv => ⟨kv.1, ⟨kv.2.len, 0, kv.2.delegatorId, 0, 0, kv.2.appRankId⟩⟩ :=
    funext fun kv => keyvalOf_eq kv.1 kv.2
  simp only [unifycrGetFileExtents, fileExtentsLoop_eq, zero_add, hkv]

/-- A reply chain of one batch with two bindings: `*num_values` is `1`, and the entries carry the
lengths `10` and `5` as their `addr`. -/
theorem unifycrGetFileExtents_one_batch :
    unifycrGetFileExtents (fun _ => [⟨0, [(⟨1, 0⟩, ⟨100, 10, 2, 3, 4, 5⟩),
        (⟨1, 10⟩, ⟨200, 5, 2, 3, 4, 5⟩)]⟩]) 0 [] [] =
      (0, 1, [⟨⟨1, 0⟩, ⟨10, 0, 2, 0, 0, 5⟩⟩, ⟨⟨1, 10⟩, ⟨5, 0, 2, 0, 0, 5⟩⟩]) := by
  decide

end UnifyCR
