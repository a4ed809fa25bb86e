import Eddy.Index.Txn
import Eddy.Index.Geometry
import Eddy.Lib.Ranges

/-!
# Eddy — objects of the slab

An object lies in a run of blocks of the slab: a header, the key, the meta data and the data. The
index has two entries for it: one under the hash of its key, one under the number of its first block.

The slab is modelled by what its blocks look like through `EdObjectHdr`: `slab no` is the object that
a mapping of the block `no` shows. Lengths are the lengths of the byte lists.
-/

namespace Eddy

open Ranges

/-- `ED_MAX_KEY`. -/
def edMaxKey : Nat := 1024

/-- What the build fixes: `ED_MAX_ALIGN`, which is the compiler's largest alignment, and `PAGESIZE`. -/
structure Build where
  maxAlign : Nat
  pageSize : Nat
  maxAlign_pos : 0 < maxAlign
  pageSize_pos : 0 < pageSize

/-- A build for pages of 4096 bytes without wide vectors. -/
def Build.page4096 : Build := ⟨16, 4096, by decide, by decide⟩

/-- `sizeof(EdObjectHdr)`. -/
def objHdrSize : Nat := 8 + 4 + 4 + 8 + 2 + 2 + 4 + 8 + 4 + 4

/-! ## Sizes -/

/-- `obj_key_offset`. -/
def objKeyOffset : Nat := objHdrSize

/-- `obj_meta_offset`. -/
def objMetaOffset (v : Build) (keylen : Nat) : Nat :=
  edAlignSize (objKeyOffset + keylen + 1) v.maxAlign

/-- `obj_data_offset`. -/
def objDataOffset (v : Build) (keylen metalen : Nat) (pagealign : Bool) : Nat :=
  edAlignSize (objMetaOffset v keylen + metalen) (if pagealign then v.pageSize else v.maxAlign)

/-- `obj_slab_size`. -/
def objSlabSize (v : Build) (keylen metalen datalen blockSize : Nat) (pagealign : Bool) : Nat :=
  edAlignSize (objDataOffset v keylen metalen pagealign + datalen) blockSize

/-! ## Times -/

/-- `ED_TIME_DELETE`. -/
def edTimeDelete : Nat := 0

/-- `ED_TIME_INF`. -/
def edTimeInf : Nat := 2 ^ 32 - 1

/-- `ed_expired_at`. -/
def edExpiredAt (epoch exp now : Nat) : Bool :=
  if exp = edTimeInf then false
  else if exp = edTimeDelete then true
  else decide (exp + epoch ≤ now)

/-! ## Entries and objects -/

structure EdEntryKey where
  hash : UInt64
  vno : Nat
  count : Nat
  exp : Nat
  deriving DecidableEq, Repr

structure EdEntryBlock where
  no : UInt64
  count : Nat
  xid : Nat
  deriving DecidableEq, Repr

/-- The entries of the two trees. -/
inductive CacheEnt where
  | key (e : EdEntryKey)
  | block (e : EdEntryBlock)
  deriving DecidableEq, Repr

instance : EdEntry CacheEnt where
  fetch64
    | .key e => e.hash.toNat
    | .block e => e.no.toNat
  fetch64_lt
    | .key e => e.hash.toNat_lt
    | .block e => e.no.toNat_lt

/-- An object in the slab. -/
structure EdObjectHdr where
  xid : Nat
  created : Nat
  exp : Nat
  keyhash : UInt64
  metacrc : Nat
  datacrc : Nat
  key : List UInt8
  metadata : List UInt8
  data : List UInt8
  deriving DecidableEq, Repr

/-- The configuration of a cache. -/
structure CacheCfg where
  build : Build
  blockSize : Nat
  blockCount : Nat
  epoch : Nat
  hash : List UInt8 → UInt64
  crc : List UInt8 → Nat
  checksum : Bool
  noverify : Bool
  pagealign : Bool
  keepold : Bool

/-- An open object. `no` is the block its header is mapped from, `dataseek` how much of the data was
written, `newkey` the key of an object that is being written. -/
structure EdObject where
  no : Nat
  xid : Nat
  vno : Nat
  nblcks : Nat
  byte : Nat
  nbytes : Nat
  exp : Nat
  rdonly : Bool
  metalen : Nat
  datalen : Nat
  dataseek : Nat
  newkey : List UInt8
  deriving DecidableEq, Repr

/-- The bytes of the slab an open object stands for. -/
def EdObject.range (o : EdObject) : Range := ⟨o.byte, o.nbytes⟩

variable (c : CacheCfg)

/-- The bytes that an object takes in the slab. -/
def EdObjectHdr.size (h : EdObjectHdr) : Nat :=
  objSlabSize c.build h.key.length h.metadata.length h.data.length c.blockSize c.pagealign

/-- `obj_init`: the open object for a header that was mapped at the block `no`. -/
def objInit (h : EdObjectHdr) (no vno : Nat) (rdonly : Bool) (exp : Nat) (newkey : List UInt8) :
    EdObject where
  no := no
  xid := h.xid
  vno := vno
  nblcks := h.size c / c.blockSize
  byte := vno % c.blockCount * c.blockSize
  nbytes := h.size c
  exp := exp
  rdonly := rdonly
  metalen := h.metadata.length
  datalen := h.data.length
  dataseek := 0
  newkey := newkey

/-- The error codes of the cache. -/
inductive CacheErr where
  | idx (e : EdErr)
  | sys
  | eobjectId
  | eobjectTooSmall
  | eobjectTooBig
  | eobjectRdonly
  | eobjectMetacrc
  | eobjectDatacrc
  deriving DecidableEq, Repr

/-- `obj_verify`: the error when a checksum is wrong. -/
def objVerify (h : EdObjectHdr) : Option CacheErr :=
  if c.checksum ∧ ¬ c.noverify then
    if h.metadata ≠ [] ∧ c.crc h.metadata ≠ h.metacrc then some .eobjectMetacrc
    else if h.data ≠ [] ∧ c.crc h.data ≠ h.datacrc then some .eobjectDatacrc
    else none
  else none

end Eddy
