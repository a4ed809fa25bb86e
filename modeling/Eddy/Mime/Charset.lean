import Mathlib.Algebra.Group.Nat.Defs
import Mathlib.Data.List.GetD
import Mathlib.Data.List.Basic

/-!
# Eddy — the text check of `mime.c`

`maybe_text` looks at the first bytes of a buffer that no rule of the database matched. A byte order
mark decides how the rest is read: as units of 32 bits, as units of 16 bits, or, without a mark, as
UTF-8.
-/

namespace Eddy.Mime

inductive EdCharset where
  | binary
  | ascii
  | utf8
  | utf16be
  | utf16le
  | utf32be
  | utf32le
  deriving DecidableEq, Repr

/-! ## Units -/

/-- `ed_l16` of two bytes. -/
def l16 (b0 b1 : UInt8) : Nat := b0.toNat + 2 ^ 8 * b1.toNat

/-- `ed_b16` of two bytes. -/
def b16 (b0 b1 : UInt8) : Nat := 2 ^ 8 * b0.toNat + b1.toNat

/-- The unit of 16 bits with the index `i`. -/
def unit16 (fetch : UInt8 → UInt8 → Nat) (p : List UInt8) (i : Nat) : Nat :=
  fetch (p.getD (2 * i) 0) (p.getD (2 * i + 1) 0)

/-- `ed_l32` of four bytes. -/
def l32 (b0 b1 b2 b3 : UInt8) : Nat := l16 b0 b1 + 2 ^ 16 * l16 b2 b3

/-- `ed_b32` of four bytes. -/
def b32 (b0 b1 b2 b3 : UInt8) : Nat := 2 ^ 16 * b16 b0 b1 + b16 b2 b3

/-- The unit of 32 bits with the index `i`. -/
def unit32 (fetch : UInt8 → UInt8 → UInt8 → UInt8 → Nat) (p : List UInt8) (i : Nat) : Nat :=
  fetch (p.getD (4 * i) 0) (p.getD (4 * i + 1) 0) (p.getD (4 * i + 2) 0) (p.getD (4 * i + 3) 0)

/-- `is_utf32`. -/
def isUtf32 (ch : Nat) : Bool := decide (0 < ch) && decide (ch ≤ 0x10FFFF)

/-- The loop of `maybe_utf32_le` and `maybe_utf32_be`. -/
def maybeUtf32 (fetch : UInt8 → UInt8 → UInt8 → UInt8 → Nat) (cs : EdCharset) (p : List UInt8) :
    EdCharset :=
  if (List.range (p.length / 4)).all fun i => isUtf32 (unit32 fetch p i) then cs else .binary

def maybeUtf32Le : List UInt8 → EdCharset := maybeUtf32 l32 .utf32le

def maybeUtf32Be : List UInt8 → EdCharset := maybeUtf32 b32 .utf32be

/-- `is_utf16`: the number of bytes of the character, or 0. -/
def isUtf16 (ch1 ch2 : Nat) : Nat :=
  if ch1 = 0 then 0
  else if ch1 < 0xd800 ∨ ch1 > 0xdfff then 2
  else if ch1 ≥ 0xd800 ∧ ch1 ≤ 0xdbff ∧ ch2 ≥ 0xdc00 ∧ ch2 ≤ 0xdfff then 4
  else 0

/-- The loop of `maybe_utf16_le` and `maybe_utf16_be` over the first `n` units. The source adds what
`is_utf16` returns, a number of bytes, to the index of a unit. Every turn adds 2 at least, so that the
loop has ended after `n` turns. -/
def utf16Loop (unit : Nat → Nat) (n : Nat) (cs : EdCharset) : Nat → Nat → EdCharset
  | 0, _ => cs
  | fuel + 1, i =>
    if i < n then
      let c := isUtf16 (unit i) (unit (i + 1))
      if c = 0 then .binary else utf16Loop unit n cs fuel (i + c)
    else cs

/-- How many units the check covers. -/
def covered16 (p : List UInt8) : Nat := p.length / 4 * 2

def maybeUtf16Le (p : List UInt8) : EdCharset :=
  utf16Loop (unit16 l16 p) (covered16 p) .utf16le (covered16 p) 0

def maybeUtf16Be (p : List UInt8) : EdCharset :=
  utf16Loop (unit16 b16 p) (covered16 p) .utf16be (covered16 p) 0

/-! ## UTF-8 -/

/-- What follows the first byte of a character of two bytes is refused. -/
def badTwo (b0 b1 : UInt8) : Bool := b1 &&& 0xc0 != 0x80 || b0 &&& 0xfe == 0xc0

/-- A character of three bytes is refused. -/
def badThree (b0 b1 b2 : UInt8) : Bool :=
  b1 &&& 0xc0 != 0x80 || b2 &&& 0xc0 != 0x80 || (b0 == 0xe0 && b1 &&& 0xe0 == 0x80) ||
    (b0 == 0xed && b1 &&& 0xe0 == 0xa0) || (b0 == 0xef && b1 == 0xbf && b2 &&& 0xfe == 0xbe)

/-- A character of four bytes is refused. -/
def badFour (b0 b1 b2 b3 : UInt8) : Bool :=
  b1 &&& 0xc0 != 0x80 || b2 &&& 0xc0 != 0x80 || b3 &&& 0xc0 != 0x80 ||
    (b0 == 0xf0 && b1 &&& 0xf0 == 0x80) || (b0 == 0xf4 && decide (b1 > 0x8f)) || decide (b0 > 0xf4)

/-- The loop of `maybe_text` from `p` on. A character that is cut by the end of the buffer ends it before
any of its bytes but the first is looked at. -/
def textLoop : List UInt8 → EdCharset → EdCharset
  | [], cs => cs
  | b0 :: p, cs =>
    if b0 = 0 then .binary
    else if b0 < 0x80 then textLoop p cs
    else if b0 &&& 0xe0 = 0xc0 then
      match p with
      | b1 :: p => if badTwo b0 b1 then .binary else textLoop p .utf8
      | _ => cs
    else if b0 &&& 0xf0 = 0xe0 then
      match p with
      | b1 :: b2 :: p => if badThree b0 b1 b2 then .binary else textLoop p .utf8
      | _ => cs
    else if b0 &&& 0xf8 = 0xf0 then
      match p with
      | b1 :: b2 :: b3 :: p => if badFour b0 b1 b2 b3 then .binary else textLoop p .utf8
      | _ => cs
    else .binary

/-- `maybe_text`. -/
def maybeText (p : List UInt8) : EdCharset :=
  if [0xff, 0xfe, 0x00, 0x00] <+: p then maybeUtf32Le (p.drop 4)
  else if [0x00, 0x00, 0xfe, 0xff] <+: p then maybeUtf32Be (p.drop 4)
  else if [0xff, 0xfe] <+: p then maybeUtf16Le (p.drop 2)
  else if [0xfe, 0xff] <+: p then maybeUtf16Be (p.drop 2)
  else textLoop p .ascii

end Eddy.Mime
