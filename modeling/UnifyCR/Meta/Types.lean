import Mathlib.Data.BitVec
import Mathlib.Data.List.Perm.Basic

/-!
# The records of the metadata service

`unifycr_metadata.c` moves extents between three records: the raw index entry a client leaves
in shared memory (`unifycr_index_t`), the key and value of the extent index
(`unifycr_key_t`, `unifycr_val_t`), and the read request and its reply address
(`shm_meta_t`, `send_msg_t`). Only `send_msg_t` is declared in the source
(`unifycr_global.h`); the others come from headers that are not part of it, so their fields
are the ones the code reads and writes, with the types its format strings give them.

C's integer types are bit vectors: `int` is `CInt`, `unsigned long`, `size_t` and `off_t` are
64-bit `Word`s. An `int` stored into an `unsigned long` is sign-extended; an `unsigned long`
cast to `int` keeps its low 32 bits; an `unsigned long` cast to `off_t` and stored into a
`size_t` goes through the signed value (`BitVec.toInt`, then `BitVec.ofInt`).
-/

namespace UnifyCR

/-- C's `int`. -/
abbrev CInt := BitVec 32

/-- `unsigned long`, `size_t` and `off_t`. -/
abbrev U64 := BitVec 64

/-- `unifycr_key_t`: the key of the extent index. -/
structure UnifycrKey where
  fid : U64
  offset : U64
deriving DecidableEq, Repr

/-- `unifycr_val_t`: the value of the extent index. -/
structure UnifycrVal where
  addr : U64
  len : U64
  delegatorId : CInt
  appId : CInt
  rank : CInt
  appRankId : CInt
deriving DecidableEq, Repr

/-- `unifycr_index_t`: a raw index entry of a client. -/
structure UnifycrIndex where
  fid : CInt
  filePos : U64
  memPos : U64
  length : U64
deriving DecidableEq, Repr

/-- `shm_meta_t`: a read request of a client. -/
structure ShmMeta where
  srcFid : CInt
  offset : U64
  length : U64
deriving DecidableEq, Repr

/-- `send_msg_t` of `unifycr_global.h`. -/
structure SendMsg where
  destAppId : CInt
  destClientId : CInt
  destOffset : U64
  destDelegatorRank : CInt
  length : U64
  srcDelegatorRank : CInt
  srcCliId : CInt
  srcAppId : CInt
  srcFid : CInt
  srcOffset : U64
  srcThrd : CInt
  srcDbgRank : CInt
  arrivalTime : CInt
deriving DecidableEq, Repr

/-- One batch of a reply chain of `mdhimBGet` (`struct mdhim_bgetrm_t`): its error slot and
its `num_keys` keys and values, as pairs. -/
structure BgetRm where
  error : Int
  bindings : List (UnifycrKey × UnifycrVal)
deriving DecidableEq, Repr

def chainBindings (chain : List BgetRm) : List (UnifycrKey × UnifycrVal) :=
  chain.flatMap BgetRm.bindings

/-! ## Conversions -/

/-- An `int` stored into an `unsigned long`. -/
def intToU64 (x : CInt) : U64 := x.signExtend 64

/-- `(int)` of an `unsigned long`. -/
def u64ToInt (x : U64) : CInt := x.setWidth 32

/-- `(off_t)` of an `unsigned long`, stored into a `size_t`. -/
def offTToSizeT (x : U64) : U64 := BitVec.ofInt 64 x.toInt

@[simp] theorem u64ToInt_intToU64 (x : CInt) : u64ToInt (intToU64 x) = x := by
  apply BitVec.eq_of_getLsbD_eq
  intro i
  simp only [u64ToInt, intToU64, BitVec.getLsbD_setWidth, BitVec.getLsbD_signExtend]
  simp; omega

@[simp] theorem offTToSizeT_eq (x : U64) : offTToSizeT x = x := by
  apply BitVec.eq_of_toInt_eq
  rw [offTToSizeT, BitVec.toInt_ofInt, BitVec.toInt_eq_toNat_bmod, Int.bmod_bmod]

/-! ## `unifycr_key_compare` -/

/-- `unifycr_key_compare`: by `fid`, then by `offset`. -/
def unifycrKeyCompare (a b : UnifycrKey) : Int :=
  if a.fid = b.fid then
    if a.offset = b.offset then 0 else if a.offset < b.offset then -1 else 1
  else if a.fid < b.fid then -1 else 1

/-- `k` lies in the closed key range `[lo, hi]` of `unifycr_key_compare`. -/
def InKeyRange (lo hi k : UnifycrKey) : Prop :=
  unifycrKeyCompare lo k ≤ 0 ∧ unifycrKeyCompare k hi ≤ 0

instance (lo hi k : UnifycrKey) : Decidable (InKeyRange lo hi k) :=
  inferInstanceAs (Decidable (_ ∧ _))

theorem unifycrKeyCompare_le_zero {a b : UnifycrKey} :
    unifycrKeyCompare a b ≤ 0 ↔ a.fid < b.fid ∨ a.fid = b.fid ∧ a.offset ≤ b.offset := by
  unfold unifycrKeyCompare
  split_ifs <;> simp_all <;> bv_omega

/-- A key range within one file holds the keys of that file between the two offsets. -/
theorem inKeyRange_same_fid {f a b : U64} {k : UnifycrKey} :
    InKeyRange ⟨f, a⟩ ⟨f, b⟩ k ↔ k.fid = f ∧ a ≤ k.offset ∧ k.offset ≤ b := by
  simp only [InKeyRange, unifycrKeyCompare_le_zero]
  constructor
  · rintro ⟨h₁ | ⟨h₁, h₂⟩, h₃ | ⟨h₃, h₄⟩⟩
    · bv_omega
    · bv_omega
    · bv_omega
    · exact ⟨h₃, h₂, h₄⟩
  · rintro ⟨rfl, h₁, h₂⟩
    exact ⟨.inr ⟨rfl, h₁⟩, .inr ⟨rfl, h₂⟩⟩

end UnifyCR
