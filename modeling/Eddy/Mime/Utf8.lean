import Mathlib.Data.List.Forall2
import Eddy.Mime.Charset

/-!
# Eddy — `maybe_text` without a mark

Without a byte order mark `maybe_text` reads the buffer as UTF-8. A character whose bytes are all there
is checked against the table of well-formed sequences. One that the end of the buffer cuts is not
checked at all: its first byte may be one that starts no character, and the bytes behind it may be any.
-/

namespace Eddy.Mime

variable {b b0 b1 b2 b3 : UInt8} {c p rest tail : List UInt8} {cs : EdCharset}
  {l : List (List UInt8)}

/-! ## UTF-8 -/

/-- The well-formed byte sequences of UTF-8 (Unicode, Table 3-7): the range of each byte. -/
def table37 : List (List (UInt8 × UInt8)) :=
  [[(0x00, 0x7f)],
   [(0xc2, 0xdf), (0x80, 0xbf)],
   [(0xe0, 0xe0), (0xa0, 0xbf), (0x80, 0xbf)],
   [(0xe1, 0xec), (0x80, 0xbf), (0x80, 0xbf)],
   [(0xed, 0xed), (0x80, 0x9f), (0x80, 0xbf)],
   [(0xee, 0xef), (0x80, 0xbf), (0x80, 0xbf)],
   [(0xf0, 0xf0), (0x90, 0xbf), (0x80, 0xbf), (0x80, 0xbf)],
   [(0xf1, 0xf3), (0x80, 0xbf), (0x80, 0xbf), (0x80, 0xbf)],
   [(0xf4, 0xf4), (0x80, 0x8f), (0x80, 0xbf), (0x80, 0xbf)]]

/-- A byte is in a range. -/
def Within (r : UInt8 × UInt8) (b : UInt8) : Prop := r.1 ≤ b ∧ b ≤ r.2

instance (r : UInt8 × UInt8) (b : UInt8) : Decidable (Within r b) :=
  inferInstanceAs (Decidable (_ ∧ _))

/-- The bytes of a character, U+FFFE and U+FFFF excluded. -/
structure Utf8Char (c : List UInt8) : Prop where
  row : ∃ r ∈ table37, List.Forall₂ Within r c
  isChar : c ≠ [0xef, 0xbf, 0xbe] ∧ c ≠ [0xef, 0xbf, 0xbf]

theorem utf8Char_iff (c : List UInt8) :
    Utf8Char c ↔ (∃ r ∈ table37, List.Forall₂ Within r c) ∧
      c ≠ [0xef, 0xbf, 0xbe] ∧ c ≠ [0xef, 0xbf, 0xbf] :=
  ⟨fun h => ⟨h.row, h.isChar⟩, fun h => ⟨h.1, h.2⟩⟩

instance (c : List UInt8) : Decidable (Utf8Char c) := decidable_of_iff _ (utf8Char_iff c).symm

/-- A text is a sequence of characters. -/
def Utf8Text (t : List UInt8) : Prop := ∃ l : List (List UInt8), (∀ c ∈ l, Utf8Char c) ∧ l.flatten = t

/-! ## Bytes -/

theorem and_high_eq : ∀ k : Fin 9, ∀ x : Fin 256, x.val &&& (256 - 2 ^ k.val)
    = x.val - x.val % 2 ^ k.val := by
  decide +kernel

theorem within_iff : Within (b0, b1) b ↔ b0.toNat ≤ b.toNat ∧ b.toNat ≤ b1.toNat := Iff.rfl

theorem and_high_iff (b v m : UInt8) (k : Fin 9) (hm : m.toNat = 256 - 2 ^ k.val)
    (hv : v.toNat % 2 ^ k.val = 0) :
    b &&& m = v ↔ v.toNat ≤ b.toNat ∧ b.toNat < v.toNat + 2 ^ k.val := by
  have hand : (b &&& m).toNat = b.toNat - b.toNat % 2 ^ k.val := by
    rw [UInt8.toNat_and, hm]
    exact and_high_eq k ⟨b.toNat, b.toNat_lt⟩
  have hpos : 0 < 2 ^ k.val := Nat.two_pow_pos _
  have hb := Nat.div_add_mod b.toNat (2 ^ k.val)
  have hlt := Nat.mod_lt b.toNat hpos
  rw [← UInt8.toNat_inj, hand]
  constructor
  · intro h
    omega
  · rintro ⟨h1, h2⟩
    obtain ⟨q, hq⟩ := Nat.dvd_of_mod_eq_zero hv
    have hdiv : b.toNat / 2 ^ k.val = q := by
      apply Nat.div_eq_of_lt_le
      · rw [Nat.mul_comm, ← hq]
        exact h1
      · rw [Nat.add_mul, Nat.mul_comm q, ← hq]
        omega
    rw [hdiv, ← hq] at hb
    omega

theorem and_e0_c0 : b &&& 0xe0 = 0xc0 ↔ 0xc0 ≤ b.toNat ∧ b.toNat < 0xe0 :=
  and_high_iff b 0xc0 0xe0 5 rfl rfl

theorem and_f0_e0 : b &&& 0xf0 = 0xe0 ↔ 0xe0 ≤ b.toNat ∧ b.toNat < 0xf0 :=
  and_high_iff b 0xe0 0xf0 4 rfl rfl

theorem and_f8_f0 : b &&& 0xf8 = 0xf0 ↔ 0xf0 ≤ b.toNat ∧ b.toNat < 0xf8 :=
  and_high_iff b 0xf0 0xf8 3 rfl rfl

theorem and_c0_80 : b &&& 0xc0 = 0x80 ↔ 0x80 ≤ b.toNat ∧ b.toNat < 0xc0 :=
  and_high_iff b 0x80 0xc0 6 rfl rfl

theorem and_fe_c0 : b &&& 0xfe = 0xc0 ↔ 0xc0 ≤ b.toNat ∧ b.toNat < 0xc2 :=
  and_high_iff b 0xc0 0xfe 1 rfl rfl

theorem and_e0_80 : b &&& 0xe0 = 0x80 ↔ 0x80 ≤ b.toNat ∧ b.toNat < 0xa0 :=
  and_high_iff b 0x80 0xe0 5 rfl rfl

theorem and_e0_a0 : b &&& 0xe0 = 0xa0 ↔ 0xa0 ≤ b.toNat ∧ b.toNat < 0xc0 :=
  and_high_iff b 0xa0 0xe0 5 rfl rfl

theorem and_fe_be : b &&& 0xfe = 0xbe ↔ 0xbe ≤ b.toNat ∧ b.toNat < 0xc0 :=
  and_high_iff b 0xbe 0xfe 1 rfl rfl

theorem and_f0_80 : b &&& 0xf0 = 0x80 ↔ 0x80 ≤ b.toNat ∧ b.toNat < 0x90 :=
  and_high_iff b 0x80 0xf0 4 rfl rfl

/-! ## The tests of the loop are the rows of the table -/

theorem utf8Char_one : Utf8Char [b0] ↔ b0.toNat ≤ 0x7f := by
  simp [utf8Char_iff, table37, within_iff]

theorem utf8Char_two : Utf8Char [b0, b1] ↔
    (0xc2 ≤ b0.toNat ∧ b0.toNat ≤ 0xdf) ∧ 0x80 ≤ b1.toNat ∧ b1.toNat ≤ 0xbf := by
  simp [utf8Char_iff, table37, within_iff]

theorem utf8Char_three : Utf8Char [b0, b1, b2] ↔
    ((b0.toNat = 0xe0 ∧ 0xa0 ≤ b1.toNat ∧ b1.toNat ≤ 0xbf) ∨
      ((0xe1 ≤ b0.toNat ∧ b0.toNat ≤ 0xec ∨ 0xee ≤ b0.toNat ∧ b0.toNat ≤ 0xef) ∧
        0x80 ≤ b1.toNat ∧ b1.toNat ≤ 0xbf) ∨
      (b0.toNat = 0xed ∧ 0x80 ≤ b1.toNat ∧ b1.toNat ≤ 0x9f)) ∧
    (0x80 ≤ b2.toNat ∧ b2.toNat ≤ 0xbf) ∧
    ¬ (b0.toNat = 0xef ∧ b1.toNat = 0xbf ∧ 0xbe ≤ b2.toNat) := by
  simp [utf8Char_iff, table37, within_iff, ← UInt8.toNat_inj]
  omega

theorem utf8Char_four : Utf8Char [b0, b1, b2, b3] ↔
    ((b0.toNat = 0xf0 ∧ 0x90 ≤ b1.toNat ∧ b1.toNat ≤ 0xbf) ∨
      ((0xf1 ≤ b0.toNat ∧ b0.toNat ≤ 0xf3) ∧ 0x80 ≤ b1.toNat ∧ b1.toNat ≤ 0xbf) ∨
      (b0.toNat = 0xf4 ∧ 0x80 ≤ b1.toNat ∧ b1.toNat ≤ 0x8f)) ∧
    (0x80 ≤ b2.toNat ∧ b2.toNat ≤ 0xbf) ∧ 0x80 ≤ b3.toNat ∧ b3.toNat ≤ 0xbf := by
  simp [utf8Char_iff, table37, within_iff, ← UInt8.toNat_inj]
  omega

theorem badTwo_iff (h0 : b0 &&& 0xe0 = 0xc0) : badTwo b0 b1 = false ↔ Utf8Char [b0, b1] := by
  have hlead := and_e0_c0.mp h0
  simp only [badTwo, Bool.or_eq_false_iff, bne_eq_false_iff_eq, beq_eq_false_iff_ne, ne_eq, and_c0_80,
    and_fe_c0, utf8Char_two]
  omega

theorem badThree_iff (h0 : b0 &&& 0xf0 = 0xe0) :
    badThree b0 b1 b2 = false ↔ Utf8Char [b0, b1, b2] := by
  have hlead := and_f0_e0.mp h0
  simp only [badThree, Bool.or_eq_false_iff, Bool.and_eq_false_iff, bne_eq_false_iff_eq,
    beq_eq_false_iff_ne, ne_eq, and_c0_80, and_e0_80, and_e0_a0, and_fe_be, utf8Char_three]
  simp only [← UInt8.toNat_inj, UInt8.reduceToNat]
  omega

theorem badFour_iff (h0 : b0 &&& 0xf8 = 0xf0) :
    badFour b0 b1 b2 b3 = false ↔ Utf8Char [b0, b1, b2, b3] := by
  have hlead := and_f8_f0.mp h0
  simp only [badFour, Bool.or_eq_false_iff, Bool.and_eq_false_iff, bne_eq_false_iff_eq,
    beq_eq_false_iff_ne, ne_eq, and_c0_80, and_f0_80, utf8Char_four, decide_eq_false_iff_not]
  simp only [gt_iff_lt, UInt8.lt_iff_toNat_lt, ← UInt8.toNat_inj, UInt8.reduceToNat]
  omega

/-- How many bytes the first byte announces, in the classes of the loop. -/
def announced (b0 : UInt8) : Nat :=
  if b0 &&& 0xe0 = 0xc0 then 2
  else if b0 &&& 0xf0 = 0xe0 then 3
  else if b0 &&& 0xf8 = 0xf0 then 4
  else 1

theorem announced_eq (b0 : UInt8) : announced b0 =
    if 0xc0 ≤ b0.toNat ∧ b0.toNat < 0xe0 then 2
    else if 0xe0 ≤ b0.toNat ∧ b0.toNat < 0xf0 then 3
    else if 0xf0 ≤ b0.toNat ∧ b0.toNat < 0xf8 then 4
    else 1 := by
  simp only [announced, and_e0_c0, and_f0_e0, and_f8_f0]

/-- A character has the length that its first byte announces, and only the character of one byte can be
a zero. -/
theorem Utf8Char.shape (h : Utf8Char (b0 :: p)) :
    (b0 :: p).length = announced b0 ∧ (b0 ≠ 0 → 0 ∉ b0 :: p) := by
  rw [announced_eq, ne_eq, ← UInt8.toNat_inj]
  match p with
  | [] =>
    have := utf8Char_one.mp h
    simp only [List.mem_cons, List.not_mem_nil, ← UInt8.toNat_inj, UInt8.reduceToNat]
    grind
  | [b1] =>
    have := utf8Char_two.mp h
    simp only [List.mem_cons, List.not_mem_nil, ← UInt8.toNat_inj, UInt8.reduceToNat]
    grind
  | [b1, b2] =>
    have := utf8Char_three.mp h
    simp only [List.mem_cons, List.not_mem_nil, ← UInt8.toNat_inj, UInt8.reduceToNat]
    grind
  | [b1, b2, b3] =>
    have := utf8Char_four.mp h
    simp only [List.mem_cons, List.not_mem_nil, ← UInt8.toNat_inj, UInt8.reduceToNat]
    grind
  | _ :: _ :: _ :: _ :: p => simp [utf8Char_iff, table37] at h

theorem not_utf8Char_nil : ¬ Utf8Char [] := by decide

/-! ## One turn of the loop -/

/-- What the loop says after the characters `l`. -/
def charsetOf (cs : EdCharset) (l : List (List UInt8)) : EdCharset :=
  if ∃ c ∈ l, 2 ≤ c.length then .utf8 else cs

/-- The end of the buffer cuts a character, by what its first byte announces. -/
def Cut (tail : List UInt8) : Prop := ∃ b0 p, tail = b0 :: p ∧ tail.length < announced b0

/-- No character starts with the tail, and the tail starts with no character. -/
def Alien (tail : List UInt8) : Prop := ∀ c, Utf8Char c → ¬ c <+: tail ∧ ¬ tail <+: c

theorem charsetOf_one : charsetOf cs [[b0]] = cs := by simp [charsetOf]

theorem charsetOf_more : charsetOf cs [b0 :: b1 :: p] = .utf8 := by simp [charsetOf]

/-- The bytes announced are all there: the loop goes on behind a character, or refuses the bytes. -/
theorem textLoop_whole (h0 : b0 ≠ 0) (hlen : announced b0 ≤ (b0 :: p).length) :
    textLoop (b0 :: p) cs =
      if Utf8Char ((b0 :: p).take (announced b0)) then
        textLoop ((b0 :: p).drop (announced b0)) (charsetOf cs [(b0 :: p).take (announced b0)])
      else .binary := by
  have h80 : b0 < 0x80 ↔ b0.toNat ≤ 0x7f := by
    rw [UInt8.lt_iff_toNat_lt]
    exact Nat.lt_succ_iff
  have ha := announced_eq b0
  by_cases hone : b0 < 0x80
  · -- one byte
    have hn := h80.mp hone
    rw [if_neg (by omega), if_neg (by omega), if_neg (by omega)] at ha
    rw [ha, List.take_succ_cons, List.take_zero, if_pos (utf8Char_one.mpr hn), charsetOf_one]
    conv_lhs => unfold textLoop
    rw [if_neg h0, if_pos hone]
    rfl
  rw [announced] at hlen ⊢
  by_cases htwo : b0 &&& 0xe0 = 0xc0
  · rw [if_pos htwo] at hlen
    match p with
    | b1 :: p =>
      have hbad : badTwo b0 b1 = false ↔ _ := badTwo_iff htwo
      simp only [textLoop, if_neg h0, if_neg hone, if_pos htwo, List.take_succ_cons, List.take_zero,
        List.drop_succ_cons, List.drop_zero, charsetOf_more, ← hbad]
      cases badTwo b0 b1 <;> rfl
  rw [if_neg htwo] at hlen ⊢
  by_cases hthree : b0 &&& 0xf0 = 0xe0
  · rw [if_pos hthree] at hlen
    match p with
    | b1 :: b2 :: p =>
      have hbad : badThree b0 b1 b2 = false ↔ _ := badThree_iff hthree
      simp only [textLoop, if_neg h0, if_neg hone, if_neg htwo, if_pos hthree, List.take_succ_cons,
        List.take_zero, List.drop_succ_cons, List.drop_zero, charsetOf_more, ← hbad]
      cases badThree b0 b1 b2 <;> rfl
  rw [if_neg hthree] at hlen ⊢
  by_cases hfour : b0 &&& 0xf8 = 0xf0
  · rw [if_pos hfour] at hlen
    match p with
    | b1 :: b2 :: b3 :: p =>
      have hbad : badFour b0 b1 b2 b3 = false ↔ _ := badFour_iff hfour
      simp only [textLoop, if_neg h0, if_neg hone, if_neg htwo, if_neg hthree, if_pos hfour,
        List.take_succ_cons, List.take_zero, List.drop_succ_cons, List.drop_zero, charsetOf_more, ← hbad]
      cases badFour b0 b1 b2 b3 <;> rfl
  · -- a byte that starts no character
    have hno : ¬ Utf8Char [b0] := fun h => hone (h80.mpr (utf8Char_one.mp h))
    rw [if_neg hfour, List.take_succ_cons, List.take_zero, if_neg hno]
    unfold textLoop
    rw [if_neg h0, if_neg hone, if_neg htwo, if_neg hthree, if_neg hfour]

theorem textLoop_cut (h : Cut tail) : textLoop tail cs = cs := by
  obtain ⟨b0, p, rfl, hlen⟩ := h
  have ha := announced_eq b0
  have hlen' : p.length + 1 < announced b0 := hlen
  have hclass : 0xc0 ≤ b0.toNat := by
    by_contra hlt
    rw [if_neg (by omega), if_neg (by omega), if_neg (by omega)] at ha
    omega
  have h0 : b0 ≠ 0 := by
    rintro rfl
    exact absurd hclass (by decide)
  have hone : ¬ b0 < 0x80 := by
    simp only [UInt8.lt_iff_toNat_lt, UInt8.reduceToNat]
    omega
  rw [announced] at hlen'
  unfold textLoop
  rw [if_neg h0, if_neg hone]
  split_ifs at hlen' with htwo hthree hfour
  · rw [if_pos htwo]
    match p with
    | [] => rfl
  · rw [if_neg htwo, if_pos hthree]
    match p with
    | [] => rfl
    | [_] => rfl
  · rw [if_neg htwo, if_neg hthree, if_pos hfour]
    match p with
    | [] => rfl
    | [_] => rfl
    | [_, _] => rfl
  · omega

theorem Utf8Char.eq_take (hc : Utf8Char c) (hpre : c <+: b0 :: p) :
    c = (b0 :: p).take (announced b0) := by
  match c with
  | [] => exact absurd hc not_utf8Char_nil
  | c0 :: c =>
    obtain rfl : c0 = b0 := (List.cons_prefix_cons.mp hpre).1
    rw [← hc.shape.1]
    exact List.prefix_iff_eq_take.mp hpre

theorem Utf8Char.ne_nil (hc : Utf8Char c) : c ≠ [] := fun h => not_utf8Char_nil (h ▸ hc)

theorem Utf8Char.unique {c' : List UInt8} (hc : Utf8Char c) (hc' : Utf8Char c') (hp : c <+: p)
    (hp' : c' <+: p) : c = c' := by
  match p with
  | [] => exact absurd (List.prefix_nil.mp hp) hc.ne_nil
  | b0 :: p => rw [hc.eq_take hp, hc'.eq_take hp']

theorem textLoop_char (hc : Utf8Char c) (h0 : 0 ∉ c) :
    textLoop (c ++ rest) cs = textLoop rest (charsetOf cs [c]) := by
  match c with
  | [] => exact absurd hc not_utf8Char_nil
  | b0 :: c =>
    have hlen := hc.shape.1
    have htake : b0 :: c = (b0 :: (c ++ rest)).take (announced b0) :=
      hc.eq_take (List.prefix_append (b0 :: c) rest)
    have hdrop : rest = (b0 :: (c ++ rest)).drop (announced b0) := by
      rw [← hlen]
      exact List.drop_left.symm
    have hle : announced b0 ≤ (b0 :: (c ++ rest)).length := by
      rw [← hlen, List.length_cons, List.length_cons, List.length_append]
      omega
    rw [List.cons_append, textLoop_whole (fun h => h0 (h ▸ List.mem_cons_self)) hle, ← htake, ← hdrop,
      if_pos hc]

/-- Bytes that are no character are refused: no character starts with them either. -/
theorem textLoop_refused (cs : EdCharset) (h0 : b0 ≠ 0) (hlen : announced b0 ≤ (b0 :: p).length)
    (hno : ¬ Utf8Char ((b0 :: p).take (announced b0))) :
    textLoop (b0 :: p) cs = .binary ∧ Alien (b0 :: p) := by
  have hpre : ∀ c, Utf8Char c → ¬ c <+: b0 :: p := fun c hc hpre => hno (hc.eq_take hpre ▸ hc)
  refine ⟨by rw [textLoop_whole h0 hlen, if_neg hno], fun c hc => ⟨hpre c hc, fun hlong => ?_⟩⟩
  match c with
  | [] => exact hc.ne_nil rfl
  | c0 :: c =>
    -- the character has as many bytes as the buffer at most, so that it is the buffer
    obtain rfl : b0 = c0 := (List.cons_prefix_cons.mp hlong).1
    have heq := hlong.eq_of_length_le (hc.shape.1 ▸ hlen)
    exact hpre _ hc (heq ▸ List.prefix_refl _)

/-! ## Whole runs -/

theorem charsetOf_cons (c : List UInt8) (l : List (List UInt8)) :
    charsetOf cs (c :: l) = charsetOf (charsetOf cs [c]) l := by
  by_cases hc : 2 ≤ c.length <;> by_cases hl : ∃ d ∈ l, 2 ≤ d.length <;> simp [charsetOf, hc, hl]

/-- The buffer is a sequence of characters that are not zero, and a tail. -/
structure Parsed (b : List UInt8) (l : List (List UInt8)) (tail : List UInt8) : Prop where
  chars : ∀ c ∈ l, Utf8Char c
  nonzero : 0 ∉ l.flatten
  eq : b = l.flatten ++ tail

theorem Parsed.nil (b : List UInt8) : Parsed b [] b :=
  ⟨fun _ hc => absurd hc List.not_mem_nil, List.not_mem_nil, rfl⟩

theorem Parsed.cons (h : Parsed rest l tail) (hc : Utf8Char c) (h0 : 0 ∉ c) :
    Parsed (c ++ rest) (c :: l) tail where
  chars d hd := by
    rcases List.mem_cons.mp hd with rfl | hd
    · exact hc
    · exact h.chars d hd
  nonzero := by
    rw [List.flatten_cons, List.mem_append, not_or]
    exact ⟨h0, h.nonzero⟩
  eq := by rw [List.flatten_cons, List.append_assoc, ← h.eq]

theorem textLoop_chars (hl : ∀ c ∈ l, Utf8Char c) (h0 : 0 ∉ l.flatten) :
    textLoop (l.flatten ++ tail) cs = textLoop tail (charsetOf cs l) := by
  induction l generalizing cs with
  | nil => simp [charsetOf]
  | cons c l ih =>
    rw [List.flatten_cons, List.mem_append, not_or] at h0
    rw [List.flatten_cons, List.append_assoc, textLoop_char (hl c List.mem_cons_self) h0.1,
      ih (fun c hc => hl c (List.mem_cons_of_mem _ hc)) h0.2, ← charsetOf_cons]

theorem Parsed.textLoop_eq {b : List UInt8} (h : Parsed b l tail) :
    textLoop b cs = textLoop tail (charsetOf cs l) := by
  rw [h.eq, textLoop_chars h.chars h.nonzero]

/-- Where the loop ends: at the end of the buffer, at a cut character, or at bytes that it refuses. -/
inductive Stop (tail : List UInt8) : Prop where
  | done (h : tail = [])
  | cut (h : Cut tail)
  | zero (hbin : ∀ cs, textLoop tail cs = .binary) (h : 0 ∈ tail)
  | refused (hbin : ∀ cs, textLoop tail cs = .binary) (hne : tail ≠ []) (h : Alien tail)

theorem exists_stop (b : List UInt8) : ∃ l tail, Parsed b l tail ∧ Stop tail := by
  match b with
  | [] => exact ⟨[], [], .nil _, .done rfl⟩
  | b0 :: p =>
    by_cases h0 : b0 = 0
    · refine ⟨[], _, .nil _, .zero (fun cs => ?_) (h0 ▸ List.mem_cons_self)⟩
      unfold textLoop
      rw [if_pos h0]
    by_cases hlen : (b0 :: p).length < announced b0
    · exact ⟨[], _, .nil _, .cut ⟨b0, p, rfl, hlen⟩⟩
    have hle := Nat.le_of_not_lt hlen
    by_cases hc : Utf8Char ((b0 :: p).take (announced b0))
    · -- a character: the rest is shorter
      have hpos : 0 < announced b0 := by
        rw [announced]
        split_ifs <;> decide
      have hc0 : 0 ∉ (b0 :: p).take (announced b0) := by
        obtain ⟨n, hn⟩ := Nat.exists_eq_add_of_lt hpos
        rw [hn] at hc ⊢
        exact hc.shape.2 h0
      obtain ⟨l, tail, hparsed, hstop⟩ := exists_stop ((b0 :: p).drop (announced b0))
      have hcons := hparsed.cons hc hc0
      rw [List.take_append_drop] at hcons
      exact ⟨_, tail, hcons, hstop⟩
    · exact ⟨[], _, .nil _, .refused (fun cs => (textLoop_refused cs h0 hle hc).1)
        (List.cons_ne_nil _ _) (textLoop_refused .ascii h0 hle hc).2⟩
termination_by b.length
decreasing_by
  rw [List.length_drop, List.length_cons]
  omega

/-! ## Buffers that are the start of a text -/

/-- The buffer is the start of a text. -/
def StartsText (b : List UInt8) : Prop := ∃ t, Utf8Text (b ++ t)

theorem utf8Text_nil : Utf8Text [] := ⟨[], fun _ hc => absurd hc List.not_mem_nil, rfl⟩

theorem Utf8Text.cons (hc : Utf8Char c) (h : Utf8Text rest) : Utf8Text (c ++ rest) := by
  obtain ⟨l, hl, rfl⟩ := h
  refine ⟨c :: l, fun d hd => ?_, List.flatten_cons⟩
  rcases List.mem_cons.mp hd with rfl | hd
  · exact hc
  · exact hl d hd

theorem Utf8Text.uncons (h : Utf8Text p) (hne : p ≠ []) :
    ∃ c rest, Utf8Char c ∧ Utf8Text rest ∧ p = c ++ rest := by
  obtain ⟨l, hl, rfl⟩ := h
  match l with
  | [] => exact absurd rfl hne
  | c :: l =>
    exact ⟨c, l.flatten, hl c List.mem_cons_self,
      ⟨l, fun d hd => hl d (List.mem_cons_of_mem _ hd), rfl⟩, List.flatten_cons⟩

theorem startsText_char (hc : Utf8Char c) : StartsText (c ++ rest) ↔ StartsText rest := by
  constructor
  · rintro ⟨t, ht⟩
    have hne : c ++ rest ++ t ≠ [] := by
      rw [List.append_assoc]
      exact fun h => hc.ne_nil (List.append_eq_nil_iff.mp h).1
    obtain ⟨d, u, hd, hu, heq⟩ := ht.uncons hne
    rw [List.append_assoc] at heq
    have hpre : c <+: d ++ u := heq ▸ List.prefix_append _ _
    obtain rfl : c = d := hc.unique hd hpre (List.prefix_append _ _)
    exact ⟨t, List.append_cancel_left heq ▸ hu⟩
  · rintro ⟨t, ht⟩
    exact ⟨t, List.append_assoc c rest t ▸ ht.cons hc⟩

theorem Parsed.startsText_iff {b : List UInt8} (h : Parsed b l tail) :
    StartsText b ↔ StartsText tail := by
  obtain ⟨hl, -, rfl⟩ := h
  induction l with
  | nil => exact Iff.rfl
  | cons c l ih =>
    rw [List.flatten_cons, List.append_assoc, startsText_char (hl c List.mem_cons_self)]
    exact ih fun d hd => hl d (List.mem_cons_of_mem _ hd)

theorem startsText_tail (hne : tail ≠ []) (hno : ∀ c, Utf8Char c → ¬ c <+: tail) :
    StartsText tail ↔ ∃ c, Utf8Char c ∧ tail <+: c := by
  constructor
  · rintro ⟨t, ht⟩
    obtain ⟨c, u, hc, -, heq⟩ := ht.uncons fun h => hne (List.append_eq_nil_iff.mp h).1
    refine ⟨c, hc, ?_⟩
    have h1 : tail <+: tail ++ t := List.prefix_append _ _
    have h2 : c <+: tail ++ t := heq ▸ List.prefix_append _ _
    exact (List.prefix_or_prefix_of_prefix h1 h2).resolve_right (hno c hc)
  · rintro ⟨c, hc, t, rfl⟩
    refine ⟨t, ?_⟩
    rw [← List.append_nil (tail ++ t)]
    exact utf8Text_nil.cons hc

/-- The buffer has a character of two bytes or more that is whole. -/
def HasMultibyte (b : List UInt8) : Prop :=
  ∃ pre c post, Utf8Text pre ∧ Utf8Char c ∧ 2 ≤ c.length ∧ b = pre ++ c ++ post

theorem Parsed.prefix_of_chars {k : List (List UInt8)} (h : Parsed p l tail)
    (htail : ∀ c, Utf8Char c → ¬ c <+: tail) (hk : ∀ c ∈ k, Utf8Char c) (hpre : k.flatten <+: p) :
    k <+: l := by
  obtain ⟨hl, -, rfl⟩ := h
  induction k generalizing l with
  | nil => exact List.nil_prefix
  | cons c k ih =>
    have hc := hk c List.mem_cons_self
    rw [List.flatten_cons] at hpre
    have hcpre := (List.prefix_append c _).trans hpre
    match l with
    | [] => exact absurd hcpre (htail c hc)
    | d :: l =>
      rw [List.flatten_cons, List.append_assoc] at hpre hcpre
      obtain rfl : c = d := hc.unique (hl d List.mem_cons_self) hcpre (List.prefix_append _ _)
      rw [List.prefix_append_right_inj] at hpre
      rw [List.cons_prefix_cons]
      exact ⟨rfl, ih (fun d hd => hk d (List.mem_cons_of_mem _ hd))
        (fun d hd => hl d (List.mem_cons_of_mem _ hd)) hpre⟩

theorem Parsed.hasMultibyte_iff (h : Parsed p l tail) (htail : ∀ c, Utf8Char c → ¬ c <+: tail) :
    HasMultibyte p ↔ ∃ c ∈ l, 2 ≤ c.length := by
  constructor
  · rintro ⟨pre, c, post, ⟨k, hk, rfl⟩, hc, hlen, heq⟩
    have hkc : ∀ d ∈ k ++ [c], Utf8Char d := by
      intro d hd
      rcases List.mem_append.mp hd with hd | hd
      · exact hk d hd
      · exact List.mem_singleton.mp hd ▸ hc
    have hflat : (k ++ [c]).flatten <+: p := by
      rw [List.flatten_append, List.flatten_singleton, heq]
      exact List.prefix_append _ _
    have hpre := h.prefix_of_chars htail hkc hflat
    exact ⟨c, hpre.subset (List.mem_append_right k (List.mem_singleton_self c)), hlen⟩
  · rintro ⟨c, hc, hlen⟩
    obtain ⟨k, m, rfl⟩ := List.append_of_mem hc
    refine ⟨k.flatten, c, m.flatten ++ tail, ⟨k, fun d hd => h.chars d ?_, rfl⟩, h.chars c hc, hlen, ?_⟩
    · exact List.mem_append_left _ hd
    · rw [h.eq, List.flatten_append, List.flatten_cons]
      simp only [List.append_assoc]

/-! ## The result -/

open Classical in
/-- What a buffer without a mark is. -/
noncomputable def utf8Charset (b : List UInt8) : EdCharset :=
  if 0 ∉ b ∧ StartsText b then if HasMultibyte b then .utf8 else .ascii
  else .binary

/-- Behind characters that are not zero, the end of the buffer cuts bytes that no character starts with. -/
def BadTail (b : List UInt8) : Prop :=
  ∃ l tail, Parsed b l tail ∧ Cut tail ∧ ∀ c, Utf8Char c → ¬ tail <+: c

theorem Cut.ne_nil (h : Cut tail) : tail ≠ [] := by
  obtain ⟨b0, p, rfl, -⟩ := h
  exact List.cons_ne_nil _ _

theorem Cut.no_char (h : Cut tail) (hc : Utf8Char c) : ¬ c <+: tail := by
  intro hpre
  obtain ⟨b0, p, rfl, hlen⟩ := h
  have hle := hpre.length_le
  match c with
  | [] => exact hc.ne_nil rfl
  | c0 :: c =>
    obtain rfl : c0 = b0 := (List.cons_prefix_cons.mp hpre).1
    have := hc.shape.1
    omega

theorem Cut.nonzero (h : Cut tail) (hc : Utf8Char c) (hpre : tail <+: c) : 0 ∉ tail := by
  obtain ⟨b0, p, rfl, hlen⟩ := h
  intro hz
  match c with
  | [] => exact hc.ne_nil rfl
  | c0 :: c =>
    obtain rfl : b0 = c0 := (List.cons_prefix_cons.mp hpre).1
    refine hc.shape.2 ?_ (hpre.subset hz)
    rintro rfl
    have hone : announced 0 = 1 := by decide
    rw [hone] at hlen
    exact absurd hlen (by simp)

theorem charsetOf_ascii_ne (l : List (List UInt8)) : charsetOf .ascii l ≠ .binary := by
  unfold charsetOf
  split <;> decide

theorem Parsed.charset_eq (h : Parsed p l tail) (h0 : 0 ∉ tail) (hstarts : StartsText tail)
    (htail : ∀ c, Utf8Char c → ¬ c <+: tail) : charsetOf .ascii l = utf8Charset p := by
  have hzero : 0 ∉ p := by
    rw [h.eq, List.mem_append, not_or]
    exact ⟨h.nonzero, h0⟩
  rw [utf8Charset, if_pos ⟨hzero, h.startsText_iff.mpr hstarts⟩, charsetOf]
  by_cases hm : HasMultibyte p
  · rw [if_pos hm, if_pos ((h.hasMultibyte_iff htail).mp hm)]
  · rw [if_neg hm, if_neg (fun hc => hm ((h.hasMultibyte_iff htail).mpr hc))]

theorem BadTail.not_startsText {b : List UInt8} (h : BadTail b) : ¬ StartsText b := by
  obtain ⟨l, tail, hparsed, hcut, hno⟩ := h
  rw [hparsed.startsText_iff, startsText_tail hcut.ne_nil fun c hc => hcut.no_char hc]
  rintro ⟨c, hc, hpre⟩
  exact hno c hc hpre

theorem textLoop_charset_iff (b : List UInt8) : textLoop b .ascii = utf8Charset b ↔ ¬ BadTail b := by
  constructor
  · -- a bad tail is accepted, and the buffer is not the start of a text
    intro heq hbad
    rw [utf8Charset, if_neg (fun h => hbad.not_startsText h.2)] at heq
    obtain ⟨l, tail, hparsed, hcut, -⟩ := hbad
    rw [hparsed.textLoop_eq, textLoop_cut hcut] at heq
    exact charsetOf_ascii_ne l heq
  · intro hgood
    obtain ⟨l, tail, hparsed, hstop⟩ := exists_stop b
    rw [hparsed.textLoop_eq]
    have hbinary : ¬ (0 ∉ b ∧ StartsText b) → utf8Charset b = .binary := fun h => if_neg h
    cases hstop with
    | done h =>
      subst h
      exact hparsed.charset_eq List.not_mem_nil ⟨[], utf8Text_nil⟩
        fun c hc hpre => hc.ne_nil (List.prefix_nil.mp hpre)
    | cut h =>
      rw [textLoop_cut h]
      have hex : ∃ c, Utf8Char c ∧ tail <+: c := by
        by_contra hno
        exact hgood ⟨l, tail, hparsed, h, fun c hc hpre => hno ⟨c, hc, hpre⟩⟩
      obtain ⟨c, hc, hpre⟩ := hex
      have hchar : ∀ c, Utf8Char c → ¬ c <+: tail := fun c hc => h.no_char hc
      exact hparsed.charset_eq (h.nonzero hc hpre) ((startsText_tail h.ne_nil hchar).mpr ⟨c, hc, hpre⟩)
        hchar
    | zero hbin h =>
      rw [hbin, hbinary]
      exact fun hn => hn.1 (hparsed.eq ▸ List.mem_append_right _ h)
    | refused hbin hne h =>
      rw [hbin, hbinary]
      intro hn
      have hstarts := hparsed.startsText_iff.mp hn.2
      rw [startsText_tail hne fun c hc => (h c hc).1] at hstarts
      obtain ⟨c, hc, hpre⟩ := hstarts
      exact (h c hc).2 hpre

/-- For every buffer without a byte order mark: the result is the right one exactly when the end of the
buffer does not cut bytes that no character starts with. -/
theorem maybeText_utf8_iff (b : List UInt8) (h16le : ¬ [0xff, 0xfe] <+: b)
    (h16be : ¬ [0xfe, 0xff] <+: b) (h32be : ¬ [0x00, 0x00, 0xfe, 0xff] <+: b) :
    maybeText b = utf8Charset b ↔ ¬ BadTail b := by
  have h32le : ¬ [0xff, 0xfe, 0x00, 0x00] <+: b := fun h =>
    h16le ((List.prefix_append [0xff, 0xfe] [0x00, 0x00]).trans h)
  have hloop : maybeText b = textLoop b .ascii := by
    unfold maybeText
    rw [if_neg h32le, if_neg h32be, if_neg h16le, if_neg h16be]
  rw [hloop]
  exact textLoop_charset_iff b

/-- A letter, and the first two bytes of U+20AC. -/
theorem maybeText_utf8_cut : maybeText [0x41, 0xe2, 0x82] = utf8Charset [0x41, 0xe2, 0x82] :=
  (maybeText_utf8_iff _ (by decide) (by decide) (by decide)).mpr fun h => h.not_startsText
    ⟨[0xac], [[0x41], [0xe2, 0x82, 0xac]], by decide, rfl⟩

/-- No character starts with the byte C0, and none has a zero behind E0. -/
theorem maybeText_utf8_wrong :
    (maybeText [0xc0] = .ascii ∧ utf8Charset [0xc0] = .binary) ∧
      maybeText [0xe0, 0x00] = .ascii ∧ utf8Charset [0xe0, 0x00] = .binary := by
  refine ⟨⟨by decide, ?_⟩, by decide, if_neg fun h => h.1 (by decide)⟩
  have hcut : Cut [0xc0] := ⟨0xc0, [], rfl, by decide⟩
  refine if_neg fun h => BadTail.not_startsText ⟨[], [0xc0], .nil _, hcut, ?_⟩ h.2
  rintro c hc ⟨rest, rfl⟩
  have hlen := hc.shape.1
  match rest with
  | [] => exact absurd hlen (by decide)
  | [b1] => exact absurd (utf8Char_two.mp hc).1.1 (by decide)
  | _ :: _ :: _ => exact absurd hlen (by simp [show announced 0xc0 = 2 by decide])

end Eddy.Mime
