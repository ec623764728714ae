import UnifyCR.Meta.Extents

/-!
# The attribute index

The second index of the metadata service maps a global file id to a file's attribute record.
It has two writers and one reader, which do not agree on the value:

* `meta_process_fsync` puts, for each record of the client, a `fattr_val_t`: the file name and
  the `struct stat`, without `gfid` and `fid`;
* `unifycr_set_file_attribute` puts the whole `unifycr_file_attr_t`;
* `unifycr_get_file_attribute` reads the value back as a `unifycr_file_attr_t`.

`unifycr_file_attr_t` is declared in a header that is not part of the source. `AttrLayout` is any
byte layout of the two records. For every layout, what the reader returns for a record that
`meta_process_fsync` flushed does not depend on the record's `fid`
(`fsync_attribute_read_ignores_fid`). `structLayout` is the C layout of the two structs, with the
sizes of the name array and of `struct stat` as parameters. Under it, a record put by
`unifycr_set_file_attribute` reads back whole whenever the struct can hold it: a name shorter than
its array and without NUL, and a `struct stat` of its size (`unifycrGetFileAttribute_set_of_fits`).

Each batch put is followed by a check of its reply chain (`bputCheck`); `meta_process_fsync`
returns `0` exactly when both puts are reported as done (`metaProcessFsyncRc_eq_zero_iff`).
-/

namespace UnifyCR

abbrev Bytes := List UInt8

/-- `unifycr_file_attr_t`: `filename` is the C string up to its NUL, `fileAttr` the bytes of the
`struct stat`. -/
structure UnifycrFileAttr where
  fid : CInt
  gfid : CInt
  filename : Bytes
  fileAttr : Bytes
deriving DecidableEq, Repr

structure FattrVal where
  fname : Bytes
  fileAttr : Bytes
deriving DecidableEq, Repr

/-- Byte layouts of `unifycr_file_attr_t` (written, and read back) and of `fattr_val_t`. -/
structure AttrLayout where
  encodeFileAttr : UnifycrFileAttr → Bytes
  decodeFileAttr : Bytes → UnifycrFileAttr
  encodeFattrVal : FattrVal → Bytes

/-! ## The C layout -/

/-- An `int`, least significant byte first. -/
def intBytes (x : CInt) : Bytes :=
  [UInt8.ofNat x.toNat, UInt8.ofNat (x.toNat / 2 ^ 8), UInt8.ofNat (x.toNat / 2 ^ 16),
    UInt8.ofNat (x.toNat / 2 ^ 24)]

def intOfBytes : Bytes → CInt
  | b₀ :: b₁ :: b₂ :: b₃ :: _ =>
    BitVec.ofNat 32 (b₀.toNat + 2 ^ 8 * b₁.toNat + 2 ^ 16 * b₂.toNat + 2 ^ 24 * b₃.toNat)
  | _ => 0

/-- A field of `n` bytes holding `s`, the rest zero. -/
def fixedField (n : Nat) (s : Bytes) : Bytes := s.take n ++ List.replicate (n - s.length) 0

/-- The layout of `unifycr_file_attr_t` (`fid`, `gfid`, `filename`, `file_attr`) and of
`fattr_val_t` (`fname`, `file_attr`) on a little-endian machine, for a name array of `N` bytes
(`UNIFYCR_MAX_FILENAME`) and a `struct stat` of `S` bytes, with no padding (the case when `N` is a
multiple of 8). The reader copies `filename` with `strcpy`: up to the first NUL, past the array's
end when the name fills it. -/
def structLayout (N S : Nat) : AttrLayout where
  encodeFileAttr r :=
    intBytes r.fid ++ intBytes r.gfid ++ fixedField N r.filename ++ fixedField S r.fileAttr
  decodeFileAttr b :=
    ⟨intOfBytes b, intOfBytes (b.drop 4), (b.drop 8).takeWhile (· ≠ 0), (b.drop (8 + N)).take S⟩
  encodeFattrVal v := fixedField N v.fname ++ fixedField S v.fileAttr

theorem intOfBytes_intBytes (x : CInt) (rest : Bytes) : intOfBytes (intBytes x ++ rest) = x := by
  apply BitVec.eq_of_toNat_eq
  have := x.isLt
  simp only [intBytes, intOfBytes, List.cons_append, UInt8.toNat, UInt8.ofNat, BitVec.toNat_ofNat]
  omega

@[simp] theorem length_intBytes (x : CInt) : (intBytes x).length = 4 := rfl

@[simp] theorem length_fixedField (n : Nat) (s : Bytes) : (fixedField n s).length = n := by
  simp only [fixedField, List.length_append, List.length_take, List.length_replicate]
  omega

theorem fixedField_of_le {n : Nat} {s : Bytes} (h : s.length ≤ n) :
    fixedField n s = s ++ List.replicate (n - s.length) 0 := by
  rw [fixedField, List.take_of_length_le h]

/-- `strcpy` of a string without NUL followed by a NUL copies the string. -/
theorem takeWhile_ne_zero_append {s rest : Bytes} (hz : 0 ∉ s) :
    (s ++ 0 :: rest).takeWhile (· ≠ 0) = s := by
  induction s with
  | nil => rfl
  | cons a s ih =>
    rw [List.mem_cons, not_or] at hz
    rw [List.cons_append, List.takeWhile_cons, if_pos (decide_eq_true (Ne.symm hz.1)), ih hz.2]

/-- A record the C struct can hold reads back from its bytes: the name ends with a NUL inside its
array, and the `struct stat` fills its field. -/
theorem structLayout_decode_encode {N S : Nat} {r : UnifycrFileAttr}
    (hn : r.filename.length < N) (hz : 0 ∉ r.filename) (hs : r.fileAttr.length = S) :
    (structLayout N S).decodeFileAttr ((structLayout N S).encodeFileAttr r) = r := by
  obtain ⟨fid, gfid, name, stat⟩ := r
  dsimp only at hn hz hs
  obtain ⟨k, hk⟩ : ∃ k, N - name.length = k + 1 := ⟨N - name.length - 1, by omega⟩
  have hname : fixedField N name = name ++ 0 :: List.replicate k 0 := by
    rw [fixedField_of_le hn.le, hk, List.replicate_succ]
  have hstat : fixedField S stat = stat := by
    rw [fixedField_of_le hs.le, hs, Nat.sub_self, List.replicate_zero, List.append_nil]
  -- the bytes after `fid`, after `gfid`, and after `filename`
  have h4 : (intBytes fid ++ intBytes gfid ++ fixedField N name ++ fixedField S stat).drop 4 =
      intBytes gfid ++ fixedField N name ++ fixedField S stat := by
    simp only [List.append_assoc]; exact List.drop_left' rfl
  have h8 : (intBytes fid ++ intBytes gfid ++ fixedField N name ++ fixedField S stat).drop 8 =
      fixedField N name ++ fixedField S stat := by
    rw [List.append_assoc]; exact List.drop_left' rfl
  have hN : (intBytes fid ++ intBytes gfid ++ fixedField N name ++ fixedField S stat).drop (8 + N) =
      fixedField S stat :=
    List.drop_left' (by simp only [List.length_append, length_intBytes, length_fixedField])
  simp only [structLayout]
  rw [h4, h8, hN]
  simp only [hname, hstat, List.append_assoc, List.cons_append, intOfBytes_intBytes,
    takeWhile_ne_zero_append hz, List.take_of_length_le hs.le]

/-- Modelled from the spec (§4.4, point put and get; MDHIM is not part of the source): the
attribute index holds the value last put for each `gfid`. -/
abbrev AttrStore := CInt → Option Bytes

def attrPut (store : AttrStore) (gfid : CInt) (v : Bytes) : AttrStore :=
  fun k => if k = gfid then some v else store k

/-! ## Writers and reader -/

/-- The attribute part of `meta_process_fsync`: each record of the client goes in under its
`gfid` as a `fattr_val_t` of its name and `struct stat`. -/
def metaProcessFsyncAttrs (layout : AttrLayout) (attrPayload : List UnifycrFileAttr)
    (store : AttrStore) : AttrStore :=
  attrPayload.foldl (fun s r => attrPut s r.gfid (layout.encodeFattrVal ⟨r.filename, r.fileAttr⟩))
    store

/-- `meta_process_fsync`: the client's index entries into the extent index, then its attribute
records into the attribute index. Its return code is `metaProcessFsyncRc`. -/
def metaProcessFsync (layout : AttrLayout) (glbRank appId clientSideId : CInt)
    (old : Nat → UnifycrVal) (metaPayload : List UnifycrIndex) (attrPayload : List UnifycrFileAttr)
    (extents : ExtentStore) (attrs : AttrStore) : ExtentStore × AttrStore :=
  (metaProcessFsyncIndex glbRank appId clientSideId old metaPayload extents,
    metaProcessFsyncAttrs layout attrPayload attrs)

/-- The return code of `meta_process_fsync`, from the reply chains of its two batch puts: the
check of the attribute put starts from the code the check of the index put left. -/
def metaProcessFsyncRc (errMdhim : Int) (indexReplies attrReplies : List Int) : Int :=
  bputCheck errMdhim (bputCheck errMdhim 0 indexReplies) attrReplies

theorem metaProcessFsyncRc_eq_zero_iff {errMdhim : Int} (h : errMdhim ≠ 0)
    (indexReplies attrReplies : List Int) :
    metaProcessFsyncRc errMdhim indexReplies attrReplies = 0 ↔
      BputOk indexReplies ∧ BputOk attrReplies := by
  rw [metaProcessFsyncRc, bputCheck_eq, bputCheck_eq]
  by_cases h₁ : BputOk indexReplies <;> by_cases h₂ : BputOk attrReplies <;> simp [h₁, h₂, h]

theorem metaProcessFsyncRc_eq_zero_iff_later_error : metaProcessFsyncRc (-1) [0, 5] [0] = 0 :=
  (metaProcessFsyncRc_eq_zero_iff (by decide) [0, 5] [0]).2 ⟨by decide, by decide⟩

def unifycrSetFileAttribute (layout : AttrLayout) (store : AttrStore) (r : UnifycrFileAttr) :
    AttrStore :=
  attrPut store r.gfid (layout.encodeFileAttr r)

/-- The return code of `unifycr_set_file_attribute`, from `mdhimPut`'s reply: `none` for no
reply, else the reply's `error`. -/
def unifycrSetFileAttributeRc (errMdhim : Int) (reply : Option Int) : Int :=
  match reply with
  | none => errMdhim
  | some e => if e ≠ 0 then errMdhim else 0

/-- `unifycr_get_file_attribute`: the value under `gfid` read as a `unifycr_file_attr_t`, or
`UNIFYCR_ERROR_MDHIM` (`errMdhim`) when there is none. -/
def unifycrGetFileAttribute (layout : AttrLayout) (errMdhim : Int) (store : AttrStore)
    (gfid : CInt) : Except Int UnifycrFileAttr :=
  match store gfid with
  | none => .error errMdhim
  | some v =>
    let tmp := layout.decodeFileAttr v
    .ok ⟨tmp.fid, tmp.gfid, tmp.filename, tmp.fileAttr⟩

theorem unifycrGetFileAttribute_attrPut (layout : AttrLayout) (errMdhim : Int)
    (store : AttrStore) (gfid : CInt) (v : Bytes) :
    unifycrGetFileAttribute layout errMdhim (attrPut store gfid v) gfid =
      .ok (layout.decodeFileAttr v) := by
  simp [unifycrGetFileAttribute, attrPut]

/-- In the C layout, a record put by `unifycr_set_file_attribute` reads back whole through
`unifycr_get_file_attribute` when the struct can hold it. -/
theorem unifycrGetFileAttribute_set_of_fits {N S : Nat} (errMdhim : Int) (store : AttrStore)
    {r : UnifycrFileAttr} (hn : r.filename.length < N) (hz : 0 ∉ r.filename)
    (hs : r.fileAttr.length = S) :
    unifycrGetFileAttribute (structLayout N S) errMdhim
      (unifycrSetFileAttribute (structLayout N S) store r) r.gfid = .ok r := by
  rw [unifycrSetFileAttribute, unifycrGetFileAttribute_attrPut,
    structLayout_decode_encode hn hz hs]

/-- A file `foo` with a 128-byte name array and the 144-byte `struct stat` of x86-64 Linux. -/
theorem unifycrGetFileAttribute_set_of_fits_foo :
    unifycrGetFileAttribute (structLayout 128 144) (-1)
      (unifycrSetFileAttribute (structLayout 128 144) (fun _ => none)
        ⟨1, 7, [102, 111, 111], List.replicate 144 0⟩) 7 =
      .ok ⟨1, 7, [102, 111, 111], List.replicate 144 0⟩ :=
  unifycrGetFileAttribute_set_of_fits (-1) (fun _ => none) (by decide) (by decide) rfl

theorem metaProcessFsyncAttrs_fid (layout : AttrLayout) (store : AttrStore)
    (r : UnifycrFileAttr) (fid : CInt) :
    metaProcessFsyncAttrs layout [{ r with fid := fid }] store =
      metaProcessFsyncAttrs layout [r] store := rfl

/-- For every layout of `unifycr_file_attr_t`, two records that differ only in `fid` read back
the same after `meta_process_fsync`, so one of them reads back wrong. -/
theorem fsync_attribute_read_ignores_fid (layout : AttrLayout) (glbRank appId clientSideId : CInt)
    (old : Nat → UnifycrVal) (metaPayload : List UnifycrIndex) (extents : ExtentStore)
    (attrs : AttrStore) (errMdhim : Int) (r : UnifycrFileAttr) :
    unifycrGetFileAttribute layout errMdhim (metaProcessFsync layout glbRank appId clientSideId old
        metaPayload [r] extents attrs).2 r.gfid ≠ .ok r ∨
    unifycrGetFileAttribute layout errMdhim (metaProcessFsync layout glbRank appId clientSideId old
        metaPayload [{ r with fid := r.fid + 1 }] extents attrs).2 r.gfid ≠
      .ok { r with fid := r.fid + 1 } := by
  simp only [metaProcessFsync, metaProcessFsyncAttrs_fid]
  by_contra h
  simp only [not_or, not_not] at h
  have := congrArg UnifycrFileAttr.fid (Except.ok.inj (h.1.symm.trans h.2))
  simp at this

end UnifyCR
