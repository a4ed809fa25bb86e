import Eddy.Cache.Calls
import Eddy.Hash.Checksum
import Eddy.Lib.Bytes

/-!
# Eddy — the bytes of an object

What `ed_create` and `ed_write` leave in the slab, byte by byte. An image is the memory from the header
of the object on. The numbers of the header lie in the byte order of the machine.
-/

namespace Eddy

open Bytes

/-- A string of bytes, low byte first, as it lies in memory; and back. -/
def CrcBuild.ordered (b : CrcBuild) (bytes : List UInt8) : List UInt8 :=
  match b.order with
  | .little => bytes
  | .big => bytes.reverse

namespace Raw

/-! ## The header -/

/-- The fields of `EdObjectHdr`. -/
structure Hdr where
  xid : Nat
  created : Nat
  exp : Nat
  flags : Nat
  keylen : Nat
  metalen : Nat
  datalen : Nat
  keyhash : Nat
  metacrc : Nat
  datacrc : Nat

variable (c : CacheCfg) (b : CrcBuild)

/-- A field of `n` bytes in memory. -/
def fieldBytes (n v : Nat) : List UInt8 := b.ordered (leBytes n v)

/-- The header in memory. -/
def Hdr.bytes (h : Hdr) : List UInt8 :=
  fieldBytes b 8 h.xid ++ fieldBytes b 4 h.created ++ fieldBytes b 4 h.exp ++
    fieldBytes b 8 h.flags ++ fieldBytes b 2 h.keylen ++ fieldBytes b 2 h.metalen ++
    fieldBytes b 4 h.datalen ++ fieldBytes b 8 h.keyhash ++ fieldBytes b 4 h.metacrc ++
    fieldBytes b 4 h.datacrc

/-- The number that the field of `n` bytes at `off` holds. -/
def field (m : Image) (off n : Nat) : Nat := number (b.ordered (peek m off n))

def keylen (m : Image) : Nat := field b m 24 2

def metalen (m : Image) : Nat := field b m 26 2

def datalen (m : Image) : Nat := field b m 28 4

def metacrc (m : Image) : UInt32 := UInt32.ofNat (field b m 40 4)

def datacrc (m : Image) : UInt32 := UInt32.ofNat (field b m 44 4)

def setMetacrc (m : Image) (crc : UInt32) : Image := poke m 40 (fieldBytes b 4 crc.toNat)

def setDatacrc (m : Image) (crc : UInt32) : Image := poke m 44 (fieldBytes b 4 crc.toNat)

/-! ## The segments -/

/-- `obj_key`. -/
def objKey (_ : Image) : Nat := objKeyOffset

/-- `obj_meta`. -/
def objMeta (m : Image) : Nat := objMetaOffset c.build (keylen b m)

/-- `obj_data`. -/
def objData (m : Image) : Nat :=
  objDataOffset c.build (keylen b m) (metalen b m) c.pagealign

/-- `memset` with 0. -/
def zero (m : Image) (off n : Nat) : Image := poke m off (List.replicate n 0)

/-- The fields of `EdObject` that writing and verifying use. `metaAt` and `dataAt` are the pointers
`meta` and `data`, as offsets from the header. -/
structure Obj where
  metaAt : Nat
  dataAt : Nat
  keylen : Nat
  metalen : Nat
  metacrc : UInt32
  datalen : Nat
  dataseek : Nat
  datacrc : UInt32
  nbytes : Nat
  rdonly : Bool
  deriving DecidableEq

/-- `obj_init`. -/
def objInit (m : Image) (rdonly : Bool) : Obj where
  metaAt := objMeta c b m
  dataAt := objData c b m
  keylen := keylen b m
  metalen := metalen b m
  metacrc := metacrc b m
  datalen := datalen b m
  dataseek := 0
  datacrc := datacrc b m
  nbytes := objSlabSize c.build (keylen b m) (metalen b m) (datalen b m) c.blockSize c.pagealign
  rdonly := rdonly

/-- An open object and the memory it is mapped to. -/
structure Mapped where
  obj : Obj
  img : Image

/-- `obj_write`: the new memory and the new checksum. `addr` is the address of the source. -/
def objWrite (m : Image) (dst addr : Nat) (src : List UInt8) (crc : UInt32) : Image × UInt32 :=
  (poke m dst src, if c.checksum then edCrc32c b addr crc src else crc)

/-- `obj_hdr_final`. -/
def objHdrFinal (m : Image) (nbytes : Nat) : Image :=
  let data := objData c b m + datalen b m
  zero m data (nbytes - data)

/-- The header that `ed_create` writes. -/
def newHdr (a : EdObjectAttr) (now : Nat) : Hdr where
  xid := 0
  created := now
  exp := 0
  flags := 0
  keylen := a.key.length
  metalen := a.metadata.length
  datalen := a.datalen
  keyhash := (c.hash a.key).toNat
  metacrc := 0
  datacrc := 0

/-- The meta data segment; `addr` is the address of the caller's meta data. -/
def createMeta (a : EdObjectAttr) (addr : Nat) (m : Image) : Image :=
  if a.metadata ≠ [] then
    let w := objWrite c b m (objMeta c b m) addr a.metadata (metacrc b m)
    setMetacrc b w.1 w.2
  else m

/-- The part of `ed_create` behind the commit. -/
def edCreate (a : EdObjectAttr) (now addr : Nat) (m : Image) : Mapped :=
  let m := poke m 0 ((newHdr c a now).bytes b)
  let m := poke m (objKey m) a.key
  -- the end of the key segment
  let key := objKey m + a.key.length
  let m := zero m key (objMeta c b m - key)
  let m := createMeta c b a addr m
  -- the end of the meta data segment
  let metaEnd := objMeta c b m + a.metadata.length
  let m := zero m metaEnd (objData c b m - metaEnd)
  ⟨objInit c b m false, m⟩

/-- `ed_write`; `addr` is the address of the buffer. -/
def edWrite (addr : Nat) (buf : List UInt8) (s : Mapped) : Except CacheErr Nat × Mapped :=
  if s.obj.rdonly then (.error .eobjectRdonly, s)
  else if buf.length > 2 ^ 32 - 1 ∨ s.obj.dataseek + buf.length > s.obj.datalen then
    (.error .eobjectTooBig, s)
  else
    let w := objWrite c b s.img (s.obj.dataAt + s.obj.dataseek) addr buf s.obj.datacrc
    let o : Obj := { s.obj with datacrc := w.2, dataseek := s.obj.dataseek + buf.length }
    if o.datalen = o.dataseek then
      (.ok buf.length, ⟨o, objHdrFinal c b (setDatacrc b w.1 o.datacrc) o.nbytes⟩)
    else (.ok buf.length, ⟨o, w.1⟩)

/-- `obj_verify`, for an object that is mapped at the address `addr`. -/
def objVerify (addr : Nat) (s : Mapped) : Option CacheErr :=
  if c.checksum ∧ ¬ c.noverify then
    if s.obj.metalen ≠ 0 ∧ edCrc32c b (addr + s.obj.metaAt) 0
        (peek s.img s.obj.metaAt s.obj.metalen) ≠ s.obj.metacrc then
      some .eobjectMetacrc
    else if s.obj.datalen ≠ 0 ∧ edCrc32c b (addr + s.obj.dataAt) 0
        (peek s.img s.obj.dataAt s.obj.datalen) ≠ s.obj.datacrc then
      some .eobjectDatacrc
    else none
  else none

/-- Successive calls of `ed_write`, each with the address and the content of its buffer. -/
def writes : List (Nat × List UInt8) → Mapped → Mapped
  | [], s => s
  | w :: ws, s => writes ws (edWrite c b w.1 w.2 s).2

end Raw

end Eddy
