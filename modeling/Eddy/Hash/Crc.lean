import Eddy.Hash.Tables
import Eddy.Lib.Strides

/-!
# Eddy — the checksum

`hash.c` has two implementations of `ed_crc32c`. One uses the `crc32` instruction of the processor,
three times in parallel for blocks of 1024 bytes; the other uses tables and works for both byte orders.
`crc32c` is what they are for: the reflected CRC-32C, bit by bit, of a register that is inverted at the
start and at the end.

The model has the addresses of the buffer as natural numbers: no buffer lies at the end of the address
space.
-/

namespace Eddy

open Bytes Crc Strides

/-! ## The checksum -/

/-- One bit of the register is divided out. -/
def crcBit (c : UInt32) : UInt32 := if c &&& 1 = 1 then (c >>> 1) ^^^ 0x82f63b78 else c >>> 1

/-- The register takes in one byte. -/
def crcByte (c : UInt32) (b : UInt8) : UInt32 := Nat.repeat crcBit 8 (c ^^^ b.toUInt32)

/-- The CRC-32C of a string of bytes, continued from `crc`. -/
def crc32c (crc : UInt32) (bytes : List UInt8) : UInt32 := ~~~ bytes.foldl crcByte (~~~ crc)

/-! ## With the instruction -/

/-- The `crc32` instruction: the register takes in `n` bits of a word, the lowest first. -/
def mmCrc32 : Nat → UInt32 → UInt64 → UInt32
  | 0, crc, _ => crc
  | n + 1, crc, v => mmCrc32 n (crcBit (crc ^^^ (v &&& 1).toUInt32)) (v >>> 1)

/-- `_mm_crc32_u8`. -/
def mmCrc32U8 (crc : UInt32) (v : UInt64) : UInt32 := mmCrc32 8 crc v

/-- `_mm_crc32_u16`. -/
def mmCrc32U16 (crc : UInt32) (v : UInt64) : UInt32 := mmCrc32 16 crc v

/-- `_mm_crc32_u32`. -/
def mmCrc32U32 (crc : UInt32) (v : UInt64) : UInt32 := mmCrc32 32 crc v

/-- `_mm_crc32_u64`, which works on registers of 64 bits. -/
def mmCrc32U64 (crc v : UInt64) : UInt64 := (mmCrc32 64 crc.toUInt32 v).toUInt64

/-- The word of `n` bytes at the start of a buffer, as a processor with the low byte first reads it. -/
def word (n : Nat) (bytes : List UInt8) : UInt64 := UInt64.ofNat (number (bytes.take n))

/-- The registers of `crc32c_1024`. -/
structure Lanes where
  crc0 : UInt64
  crc1 : UInt64
  crc2 : UInt64

/-- The words of the three loops of `crc32c_1024`. -/
def full (bytes : List UInt8) (i : Nat) : UInt64 := word 8 (bytes.drop (8 * i))

/-- An entry of `table32c_336` or `table32c_672`. -/
def entry64 (table : List Nat) (i : UInt64) : UInt64 := UInt64.ofNat (table.getD (i &&& 0xff).toNat 0)

/-- What a register adds to the last word, through a table. -/
def merge (table : List Nat) (crc : UInt64) : UInt64 :=
  entry64 table crc ^^^ entry64 table (crc >>> 8) <<< 8 ^^^ entry64 table (crc >>> 16) <<< 16 ^^^
    entry64 table (crc >>> 24) <<< 24

/-- The loop of `crc32c_1024`. -/
def lanes (crc : UInt32) (bytes : List UInt8) (n : Nat) : Lanes :=
  (List.range n).foldl (fun c i =>
    { crc1 := mmCrc32U64 c.crc1 (full bytes (1 + 1 * 42 + i))
      crc2 := mmCrc32U64 c.crc2 (full bytes (1 + 2 * 42 + i))
      crc0 := mmCrc32U64 c.crc0 (full bytes (1 + 0 * 42 + i)) })
    { crc0 := mmCrc32U64 crc.toUInt64 (full bytes 0), crc1 := 0, crc2 := 0 }

/-- `crc32c_1024`. -/
def crc32c1024 (crc : UInt32) (bytes : List UInt8) : UInt32 :=
  let c := lanes crc bytes 42
  let tmp := full bytes 127 ^^^ merge table32c336 c.crc1 ^^^ merge table32c672 c.crc0
  (mmCrc32U64 c.crc2 tmp).toUInt32

/-- The end of `ed_crc32c`: one step of `n` bytes if there are as many. -/
def lastStep (n : Nat) (step : UInt32 → UInt64 → UInt32) (p : UInt32 × List UInt8) :
    UInt32 × List UInt8 :=
  if n ≤ p.2.length then (step p.1 (word n p.2), p.2.drop n) else p

/-- `ed_crc32c` with the instruction. -/
def edCrc32cSse (crc : UInt32) (bytes : List UInt8) : UInt32 :=
  let p := strides crc32c1024 1024 (~~~ crc) bytes
  let p := strides (fun crc bs => (mmCrc32U64 crc.toUInt64 (word 8 bs)).toUInt32) 8 p.1 p.2
  let p := lastStep 4 mmCrc32U32 p
  let p := lastStep 2 mmCrc32U16 p
  let p := lastStep 1 mmCrc32U8 p
  ~~~ p.1

/-! ## With tables -/

inductive ByteOrder where
  | little
  | big
  deriving DecidableEq, Repr

/-- The bytes of a word, the lowest first. -/
def bytes32 (v : UInt32) : List UInt8 :=
  [v.toUInt8, (v >>> 8).toUInt8, (v >>> 16).toUInt8, (v >>> 24).toUInt8]

/-- `ed_l32`: nothing, or `__builtin_bswap32`. -/
def edL32 : ByteOrder → UInt32 → UInt32
  | .little, v => v
  | .big, v => UInt32.ofNat (number (bytes32 v).reverse)

/-- The word at the start of a buffer. -/
def word32 : ByteOrder → List UInt8 → UInt32
  | .little, bytes => UInt32.ofNat (number (bytes.take 4))
  | .big, bytes => UInt32.ofNat (number (bytes.take 4).reverse)

/-- An entry of a part of `table32c`. -/
def entry32 (table : List Nat) (i : UInt32) : UInt32 := UInt32.ofNat (table.getD i.toNat 0)

/-- `NEXT1`. -/
def next1 (crc : UInt32) (bytes : List UInt8) : UInt32 :=
  let c := (crc &&& 0xff) ^^^ (bytes.headD 0).toUInt32
  entry32 table32c3 c ^^^ (crc >>> 8)

variable (o : ByteOrder)

/-- `NEXT4`. -/
def next4 (crc : UInt32) (bytes : List UInt8) : UInt32 :=
  let c := crc ^^^ edL32 o (word32 o bytes)
  entry32 table32c0 (c &&& 0xff) ^^^ entry32 table32c1 ((c >>> 8) &&& 0xff) ^^^
    entry32 table32c2 ((c >>> 16) &&& 0xff) ^^^ entry32 table32c3 (c >>> 24)

/-- Two turns, the second one behind the first. -/
def twice (n : Nat) (step : UInt32 → List UInt8 → UInt32) (crc : UInt32) (bytes : List UInt8) :
    UInt32 := step (step crc bytes) (bytes.drop n)

/-- `ed_crc32c` with tables, for a buffer at the address `addr`. -/
def edCrc32cTable (addr : Nat) (crc : UInt32) (bytes : List UInt8) : UInt32 :=
  let crc := ~~~ edL32 o crc
  -- the end of the unaligned sequence
  let sub := ((addr + 3) >>> 2) <<< 2
  let p := if sub ≤ addr + bytes.length then steps next1 (sub - addr) crc bytes else (crc, bytes)
  let p := strides (twice 8 (twice 4 (next4 o))) 16 p.1 p.2
  let p := strides (next4 o) 4 p.1 p.2
  let p := strides next1 1 p.1 p.2
  edL32 o (~~~ p.1)

/-! ## What is compiled in -/

/-- The implementation of `ed_crc32c` that was compiled in. -/
inductive CrcBuild where
  | sse
  | table (o : ByteOrder)

/-- The byte order of the machine. -/
def CrcBuild.order : CrcBuild → ByteOrder
  | .sse => .little
  | .table o => o

/-- `ed_crc32c`, for a buffer at the address `addr`. -/
def edCrc32c : CrcBuild → Nat → UInt32 → List UInt8 → UInt32
  | .sse, _, crc, bytes => edCrc32cSse crc bytes
  | .table o, addr, crc, bytes => edCrc32cTable o addr crc bytes

end Eddy
