import Eddy.Lib.Halving
import Eddy.Mime.Charset

/-!
# Eddy — the mime database of `mime.c`

A mime database is a file that the process has in memory as a whole. Its parts point to each other with
offsets of 32 bits, which are big-endian numbers. No function compares an offset with the size of the
file before it follows it, but for the few tests of `ed_mime_load`.
-/

namespace Eddy.Mime

open Halving

variable {α β : Type} {data : List UInt8} {off : Nat}

/-! ## Reads -/

/-- What can go wrong but for the errors that a function returns. -/
inductive Fault where
  /-- a read outside of the file, or outside of the buffer -/
  | wild
  /-- the recursion is deeper than the bound -/
  | deep
  /-- an assertion fails -/
  | assert
  deriving DecidableEq, Repr

abbrev Read (α : Type) := Except Fault α

def byteAt (data : List UInt8) (off : Nat) : Read UInt8 :=
  match data[off]? with
  | some b => .ok b
  | none => .error .wild

/-- The big-endian number of 32 bits at `off`. -/
def field (data : List UInt8) (off : Nat) : Nat :=
  b32 (data.getD off 0) (data.getD (off + 1) 0) (data.getD (off + 2) 0) (data.getD (off + 3) 0)

/-- `fetch32`, and `ed_b32` of a field. -/
def fetch32 (data : List UInt8) (off : Nat) : Read Nat :=
  if off + 4 ≤ data.length then .ok (field data off) else .error .wild

/-- The bytes of small numbers, four for each. -/
def words (l : List UInt8) : List UInt8 := l.flatMap fun x => [0, 0, 0, x]

theorem byteAt_ok {b : UInt8} (h : data[off]? = some b) : byteAt data off = .ok b := by
  rw [byteAt, h]

theorem fetch32_ok (h : off + 4 ≤ data.length) : fetch32 data off = .ok (field data off) := if_pos h

theorem fetch32_inv {v : Nat} (h : fetch32 data off = .ok v) :
    off + 4 ≤ data.length ∧ v = field data off := by
  unfold fetch32 at h
  split at h
  · rename_i hin
    exact ⟨hin, (Except.ok.inj h).symm⟩
  · cases h

theorem ok_bind (a : α) (f : α → Read β) : ((.ok a : Read α) >>= f) = f a := rfl

theorem error_bind (e : Fault) (f : α → Read β) : ((.error e : Read α) >>= f) = .error e := rfl

theorem bind_inv {x : Read α} {f : α → Read β} {b : β} (h : (x >>= f) = .ok b) :
    ∃ a, x = .ok a ∧ f a = .ok b := by
  cases x with
  | ok a => exact ⟨a, rfl, h⟩
  | error e => cases h

/-- The sum of two `uint32_t`. -/
def add32 (a b : Nat) : Nat := (a + b) % 2 ^ 32

/-! ## The layout -/

/-- The fields of `EdMime` that are read. The pointers are offsets in the file. -/
structure EdMime where
  data : List UInt8
  maxExtent : Nat
  aliasList : Nat
  parentList : Nat
  magicList : Nat
  deriving DecidableEq

/-- The size of an `EdMimeMatch`. -/
def matchSize : Nat := 16

/-- The size of an `EdMimeMatchlet`. -/
def matchletSize : Nat := 32

/-- The sizes of an `EdMimeAlias` and of an `EdMimeParent`. -/
def entrySize : Nat := 8

/-- The size of an `EdMimeHdr`. -/
def hdrSize : Nat := 40

/-! ## Loading -/

/-- The loop of the functions for the extent over `nel` elements from `m` on: an extent of 0 is a
failure. -/
def maxExtents (extent : Nat → Read Nat) (size : Nat) : Nat → Nat → Nat → Read Nat
  | 0, _, max => .ok max
  | nel + 1, m, max => do
    let ext ← extent m
    if ext = 0 then .ok 0
    else maxExtents extent size nel (m + size) (if ext > max then ext else max)

/-- `max_extent_matchlet`, for matchlets that are nested `fuel` levels deep at most. -/
def maxExtentMatchlet (data : List UInt8) : Nat → Nat → Read Nat
  | 0, _ => .error .deep
  | fuel + 1, m => do
    let rngOff ← fetch32 data m
    let rngLen ← fetch32 data (m + 4)
    let dataLen ← fetch32 data (m + 12)
    let max := add32 (add32 rngLen rngOff) dataLen
    let nel ← fetch32 data (m + 24)
    if nel > 0 then do
      let base ← fetch32 data (m + 28)
      maxExtents (maxExtentMatchlet data fuel) matchletSize nel base max
    else .ok max

/-- `max_extent_match`. -/
def maxExtentMatch (data : List UInt8) (fuel m : Nat) : Read Nat := do
  let nel ← fetch32 data (m + 8)
  let base ← fetch32 data (m + 12)
  maxExtents (maxExtentMatchlet data fuel) matchletSize nel base 0

/-- `check_max_extent`. -/
def checkMaxExtent (db : EdMime) (fuel : Nat) : Read Nat := do
  let nel ← fetch32 db.data db.magicList
  let base ← fetch32 db.data (db.magicList + 8)
  if base > db.data.length then .ok 0
  else maxExtents (maxExtentMatch db.data fuel) matchSize nel base 0

/-- What `ed_mime_load` returns but for 0. -/
inductive LoadError where
  /-- `ED_EMIME_FILE` -/
  | file
  /-- `ED_ERRNO`: there is no memory for the handle -/
  | errno
  deriving DecidableEq, Repr

/-- The offsets of the header that `ed_mime_load` compares with the last one. -/
def hdrOffsets (data : List UInt8) : List Nat :=
  [4, 8, 12, 16, 20, 24, 28, 32].map (field data)

/-- The offset of the last list. -/
def genericIcons (data : List UInt8) : Nat := field data 36

/-- The first test of `ed_mime_load`. All that it reads is in the header. -/
def hdrRefused (data : List UInt8) : Bool :=
  decide (data.length < hdrSize) || decide (genericIcons data + 4 > data.length) ||
    (hdrOffsets data).any fun off => decide (genericIcons data < off)

/-- The handle before its check. -/
def openDb (data : List UInt8) : Read EdMime := do
  let maxExtent ← fetch32 data (field data 24 + 4)
  .ok { data, maxExtent, aliasList := field data 4, parentList := field data 8,
        magicList := field data 24 }

/-- The check of `ed_mime_load`. `noverify` is `ED_FMIME_NOVERIFY`. -/
def verifyDb (db : EdMime) (noverify : Bool) (fuel : Nat) : Read Bool :=
  if noverify then .ok true
  else do
    let count ← fetch32 db.data (genericIcons db.data)
    if genericIcons db.data + 4 + count * entrySize > db.data.length then .ok false
    else do
      let ext ← checkMaxExtent db fuel
      .ok (decide (db.maxExtent = ext))

/-- `ed_mime_load` of bytes that are not `NULL`. `mem` tells whether there is memory for the handle. -/
def edMimeLoad (data : List UInt8) (noverify mem : Bool) (fuel : Nat) :
    Read (Except LoadError EdMime) :=
  if hdrRefused data then .ok (.error .file)
  else do
    let db ← openDb data
    let good ← verifyDb db noverify fuel
    .ok (if good then if mem then .ok db else .error .errno else .error .file)

/-- `ed_mime_max_extent`. -/
def edMimeMaxExtent (db : EdMime) : Nat := db.maxExtent

/-! ## Rules -/

/-- `maskeq`, of `len` bytes of the file at `a` and of the buffer at `b`. -/
def maskeq (data buf : List UInt8) : Nat → Nat → Nat → Nat → Read Bool
  | 0, _, _, _ => .ok true
  | len + 1, a, b, m => do
    let x ← byteAt data a
    let k ← byteAt data m
    let y ← byteAt buf b
    if x &&& k ≠ y &&& k then .ok false else maskeq data buf len (a + 1) (b + 1) (m + 1)

/-- Whether `memcmp` of `len` bytes of the file at `a` and of the buffer at `b` is 0. -/
def memeq (data buf : List UInt8) (len a b : Nat) : Read Bool :=
  if a + len ≤ data.length ∧ b + len ≤ buf.length then
    .ok (decide ((data.drop a).take len = (buf.drop b).take len))
  else .error .wild

/-- The comparison with the bytes of the buffer at `i`. -/
def valueAt (data buf : List UInt8) (dataLen dataOff maskOff i : Nat) : Read Bool :=
  if maskOff ≠ 0 then maskeq data buf dataLen dataOff i maskOff
  else memeq data buf dataLen dataOff i

/-- The first loop of `is_matchlet`, over `n` places from `i` on. -/
def valueIn (data buf : List UInt8) (dataLen dataOff maskOff : Nat) : Nat → Nat → Read Bool
  | 0, _ => .ok false
  | n + 1, i =>
    if add32 i dataLen > buf.length then .ok false
    else do
      let hit ← valueAt data buf dataLen dataOff maskOff i
      if hit then .ok true else valueIn data buf dataLen dataOff maskOff n (i + 1)

/-- The second loop of `is_matchlet`: all matchlets match. -/
def allMatchlets (test : Nat → Read Bool) : Nat → Nat → Read Bool
  | 0, _ => .ok true
  | nel + 1, m => do
    let ok ← test m
    if ok then allMatchlets test nel (m + matchletSize) else .ok false

/-- The loop of `is_match`: some matchlet matches. -/
def anyMatchlet (test : Nat → Read Bool) : Nat → Nat → Read Bool
  | 0, _ => .ok false
  | nel + 1, m => do
    let ok ← test m
    if ok then .ok true else anyMatchlet test nel (m + matchletSize)

/-- The value of a matchlet is in the buffer. -/
def found (data buf : List UInt8) (m : Nat) : Read Bool := do
  let rngOff ← fetch32 data m
  let rngLen ← fetch32 data (m + 4)
  let dataLen ← fetch32 data (m + 12)
  let dataOff ← fetch32 data (m + 16)
  let maskOff ← fetch32 data (m + 20)
  valueIn data buf dataLen dataOff maskOff (add32 rngLen rngOff - rngOff) rngOff

/-- `is_matchlet`, for matchlets that are nested `fuel` levels deep at most. -/
def isMatchlet (data buf : List UInt8) : Nat → Nat → Read Bool
  | 0, _ => .error .deep
  | fuel + 1, m => do
    let hit ← found data buf m
    if hit then do
      let nel ← fetch32 data (m + 24)
      if nel = 0 then .ok true
      else do
        let base ← fetch32 data (m + 28)
        allMatchlets (isMatchlet data buf fuel) nel base
    else .ok false

/-- `is_match`. -/
def isMatch (data buf : List UInt8) (fuel m : Nat) : Read Bool := do
  let nel ← fetch32 data (m + 8)
  let base ← fetch32 data (m + 12)
  anyMatchlet (isMatchlet data buf fuel) nel base

/-- `ed_mime_test_match`. -/
def edMimeTestMatch (data buf : List UInt8) (fuel m : Nat) : Read Nat := do
  let ok ← isMatch data buf fuel m
  if ok then fetch32 data m else .ok 0

/-- The loop of `ed_mime_type` over `nel` rules from `m` on. -/
def typeLoop (data buf : List UInt8) (fuel : Nat) : Nat → Nat → Nat → Option Nat → Read (Option Nat)
  | 0, _, _, mime => .ok mime
  | nel + 1, m, max, mime => do
    let p ← edMimeTestMatch data buf fuel m
    if p > max then do
      let off ← fetch32 data (m + 4)
      typeLoop data buf fuel nel (m + matchSize) p (some off)
    else typeLoop data buf fuel nel (m + matchSize) max mime

/-- The texts of `ed_mime_basic`. -/
def fallbackText : EdCharset → String
  | .binary => "application/octet-stream"
  | .ascii => "text/plain"
  | .utf8 => "text/plain; charset=utf-8"
  | .utf16be => "text/plain; charset=utf-16be"
  | .utf16le => "text/plain; charset=utf-16le"
  | .utf32be => "text/plain; charset=utf-32be"
  | .utf32le => "text/plain; charset=utf-32le"

/-- `ed_mime_basic`. -/
def edMimeBasic (buf : List UInt8) : String := fallbackText (maybeText (buf.take 2048))

/-- The name of a type: a string of the file, at an offset, or one of the texts of `ed_mime_basic`. -/
inductive MimeName where
  | inDb (off : Nat)
  | text (s : String)
  deriving DecidableEq, Repr

/-- `ed_mime_type`. -/
def edMimeType (db : EdMime) (buf : List UInt8) (fallback : Bool) (fuel : Nat) :
    Read (Option MimeName) :=
  if buf.length = 0 then .error .assert
  else do
    let nel ← fetch32 db.data db.magicList
    let base ← fetch32 db.data (db.magicList + 8)
    let mime ← typeLoop db.data buf fuel nel base 0 none
    match mime with
    | some off => .ok (some (.inDb off))
    | none => .ok (if fallback then some (.text (edMimeBasic buf)) else none)

/-! ## Searches -/

/-- `strcmp` of a string with the string of the file at `off`. -/
def strcmp (data : List UInt8) : List UInt8 → Nat → Read Int
  | [], off => do
    let c ← byteAt data off
    .ok (0 - c.toNat)
  | q :: qs, off => do
    let c ← byteAt data off
    if q = c then strcmp data qs (off + 1) else .ok (q.toNat - c.toNat)

/-- The comparison of the searches with the entry `i` of the list at `list`, whose first field is the
offset of a string. -/
def cmpEntry (data : List UInt8) (list : Nat) (mime : List UInt8) (i : Nat) : Read Int := do
  let off ← fetch32 data (list + 4 + i * entrySize)
  strcmp data mime off

/-- `ed_mime_alias`: the offset of the type, or `none` for the name itself. -/
def edMimeAlias (db : EdMime) (mime : List UInt8) : Read (Option Nat) := do
  let nel ← fetch32 db.data db.aliasList
  let hit ← halve (cmpEntry db.data db.aliasList mime) 0 nel
  match hit with
  | some i => do
    let off ← fetch32 db.data (db.aliasList + 4 + i * entrySize + 4)
    .ok (some off)
  | none => .ok none

/-- The loop of `ed_mime_parents`: the offsets that are written. -/
def parentOffsets (data : List UInt8) : Nat → Nat → Read (List Nat)
  | 0, _ => .ok []
  | n + 1, off => do
    let par ← fetch32 data off
    let rest ← parentOffsets data n (off + 4)
    .ok (par :: rest)

/-- `ed_mime_parents`: the offsets that are written; their number is the result. -/
def edMimeParents (db : EdMime) (mime : List UInt8) (n : Nat) : Read (List Nat) := do
  let nel ← fetch32 db.data db.parentList
  let hit ← halve (cmpEntry db.data db.parentList mime) 0 nel
  match hit with
  | some i => do
    let par ← fetch32 db.data (db.parentList + 4 + i * entrySize + 4)
    let npar ← fetch32 db.data par
    parentOffsets db.data (if npar < n then npar else n) (par + 4)
  | none => .ok []

end Eddy.Mime
