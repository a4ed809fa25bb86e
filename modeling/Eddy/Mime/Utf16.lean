import Eddy.Mime.Charset

/-!
# Eddy — `maybe_text` behind a mark of UTF-16

The check of UTF-16 goes on by the number of bytes of a character where it should go on by the number
of its units. So it looks at every second unit only, and behind a surrogate pair it skips two units.
-/

namespace Eddy.Mime

open List

variable {unit : Nat → Nat} {n k fuel : Nat} {cs : EdCharset}

/-- A high surrogate. -/
def High (u : Nat) : Prop := 0xd800 ≤ u ∧ u ≤ 0xdbff

/-- A low surrogate. -/
def Low (u : Nat) : Prop := 0xdc00 ≤ u ∧ u ≤ 0xdfff

instance (u : Nat) : Decidable (High u) := inferInstanceAs (Decidable (_ ∧ _))

instance (u : Nat) : Decidable (Low u) := inferInstanceAs (Decidable (_ ∧ _))

/-- The first `n` units are UTF-16 without a zero unit; a pair that is cut by the end is tolerated. -/
structure Utf16Ok (unit : Nat → Nat) (n : Nat) : Prop where
  nonzero : ∀ i < n, unit i ≠ 0
  high : ∀ i < n, High (unit i) → i + 1 < n → Low (unit (i + 1))
  low : ∀ i < n, Low (unit i) → 0 < i ∧ High (unit (i - 1))

theorem utf16Ok_iff (unit : Nat → Nat) (n : Nat) :
    Utf16Ok unit n ↔ (∀ i < n, unit i ≠ 0) ∧
      (∀ i < n, High (unit i) → i + 1 < n → Low (unit (i + 1))) ∧
      ∀ i < n, Low (unit i) → 0 < i ∧ High (unit (i - 1)) :=
  ⟨fun h => ⟨h.nonzero, h.high, h.low⟩, fun h => ⟨h.1, h.2.1, h.2.2⟩⟩

instance (unit : Nat → Nat) (n : Nat) : Decidable (Utf16Ok unit n) :=
  decidable_of_iff _ (utf16Ok_iff unit n).symm

/-- A pair of surrogates at `i`. -/
def PairAt (unit : Nat → Nat) (i : Nat) : Prop := High (unit i) ∧ Low (unit (i + 1))

instance (unit : Nat → Nat) (i : Nat) : Decidable (PairAt unit i) :=
  inferInstanceAs (Decidable (_ ∧ _))

/-- No character starts at `i`: a zero, a low surrogate, or a high one without its low one. -/
def Broken (unit : Nat → Nat) (i : Nat) : Prop :=
  unit i = 0 ∨ Low (unit i) ∨ High (unit i) ∧ ¬ Low (unit (i + 1))

instance (unit : Nat → Nat) (i : Nat) : Decidable (Broken unit i) :=
  inferInstanceAs (Decidable (_ ∨ _ ∨ _))

/-- How many pairs at even units stand in a row right before the unit `2 * k`. -/
def pairRun (unit : Nat → Nat) : Nat → Nat
  | 0 => 0
  | k + 1 => if PairAt unit (2 * k) then pairRun unit k + 1 else 0

/-- The loop looks at the unit `2 * k`: of the pairs in a row it looks at every second one. -/
def Seen (unit : Nat → Nat) (k : Nat) : Prop := pairRun unit k % 2 = 0

instance (unit : Nat → Nat) (k : Nat) : Decidable (Seen unit k) :=
  inferInstanceAs (Decidable (_ = _))

/-! ## The loop -/

theorem isUtf16_cases (unit : Nat → Nat) (i : Nat) :
    (isUtf16 (unit i) (unit (i + 1)) = 0 ∧ Broken unit i) ∨
      (isUtf16 (unit i) (unit (i + 1)) = 2 ∧ ¬ Broken unit i ∧ ¬ PairAt unit i) ∨
      (isUtf16 (unit i) (unit (i + 1)) = 4 ∧ ¬ Broken unit i ∧ PairAt unit i) := by
  simp only [isUtf16, Broken, PairAt, High, Low]
  split
  · omega
  · split
    · omega
    · split <;> omega

theorem seen_of_not_pair (h : ¬ PairAt unit (2 * k)) : Seen unit (k + 1) := by
  unfold Seen
  rw [pairRun, if_neg h]

theorem not_seen_of_pair (hk : Seen unit k) (h : PairAt unit (2 * k)) : ¬ Seen unit (k + 1) := by
  unfold Seen at hk ⊢
  rw [pairRun, if_pos h]
  omega

theorem seen_of_not_seen (hk : ¬ Seen unit k) : Seen unit (k + 1) := by
  unfold Seen at hk ⊢
  rw [pairRun]
  split <;> omega

theorem utf16Loop_from (hcs : cs ≠ .binary) (hfuel : n ≤ 2 * k + 2 * fuel) (hk : Seen unit k) :
    utf16Loop unit n cs fuel (2 * k) = cs ↔
      ∀ m, k ≤ m → 2 * m < n → Seen unit m → ¬ Broken unit (2 * m) := by
  induction fuel generalizing k with
  | zero => exact iff_of_true rfl fun m hm hn => by omega
  | succ fuel ih =>
    rw [utf16Loop]
    by_cases hn : 2 * k < n
    · simp only [if_pos hn]
      rcases isUtf16_cases unit (2 * k) with ⟨hc, hb⟩ | ⟨hc, hb, hp⟩ | ⟨hc, hb, hp⟩
      · -- the unit is broken
        rw [hc, if_pos rfl]
        exact iff_of_false hcs.symm fun hall => hall k (Nat.le_refl k) hn hk hb
      · -- one unit: the loop goes on with the next even one
        have hgo : 2 * k + 2 = 2 * (k + 1) := by omega
        rw [hc, if_neg (by decide), hgo, ih (by omega) (seen_of_not_pair hp)]
        constructor
        · intro hall m hm
          rcases Nat.eq_or_lt_of_le hm with rfl | hlt
          · exact fun _ _ => hb
          · exact hall m hlt
        · exact fun hall m hm => hall m (by omega)
      · -- a pair: the loop goes on with the even unit after the next
        have hskip := not_seen_of_pair hk hp
        have hgo : 2 * k + 4 = 2 * (k + 2) := by omega
        rw [hc, if_neg (by decide), hgo, ih (by omega) (seen_of_not_seen hskip)]
        constructor
        · intro hall m hm
          rcases Nat.eq_or_lt_of_le hm with rfl | hlt
          · exact fun _ _ => hb
          · rcases Nat.eq_or_lt_of_le hlt with rfl | hlt
            · exact fun _ hseen => absurd hseen hskip
            · exact hall m hlt
        · exact fun hall m hm => hall m (by omega)
    · rw [if_neg hn]
      exact iff_of_true rfl fun m hm hmn => by omega

theorem utf16Loop_iff (hcs : cs ≠ .binary) :
    utf16Loop unit n cs n 0 = cs ↔ ∀ m, 2 * m < n → Seen unit m → ¬ Broken unit (2 * m) := by
  have hfirst : Seen unit 0 := rfl
  have hfrom := utf16Loop_from hcs (show n ≤ 2 * 0 + 2 * n by omega) hfirst
  rw [Nat.mul_zero] at hfrom
  rw [hfrom]
  exact ⟨fun h m => h m (Nat.zero_le m), fun h m _ => h m⟩

theorem utf16Loop_cases (unit : Nat → Nat) (n : Nat) (cs : EdCharset) (fuel i : Nat) :
    utf16Loop unit n cs fuel i = cs ∨ utf16Loop unit n cs fuel i = .binary := by
  induction fuel generalizing i with
  | zero => exact .inl rfl
  | succ fuel ih =>
    rw [utf16Loop]
    split
    · dsimp only
      split
      · exact .inr rfl
      · exact ih _
    · exact .inl rfl

/-! ## UTF-16 -/

/-- On UTF-16 the loop is right when no pair starts at an odd unit. -/
theorem utf16Loop_ok_iff (hcs : cs ≠ .binary) (hn : n % 2 = 0) (hok : Utf16Ok unit n) :
    utf16Loop unit n cs n 0 = cs ↔ ∀ m, 2 * m + 2 < n → ¬ PairAt unit (2 * m + 1) := by
  rw [utf16Loop_iff hcs]
  constructor
  · intro hall m hm hpair
    have hlow : Broken unit (2 * (m + 1)) := .inr (.inl hpair.2)
    by_cases hseen : Seen unit (m + 1)
    · exact hall (m + 1) (by omega) hseen hlow
    · -- then a pair stands before it, and the unit between is both a low and a high surrogate
      have hp : PairAt unit (2 * m) := by
        by_contra hp
        exact hseen (seen_of_not_pair hp)
      have h1 := hp.2
      have h2 := hpair.1
      unfold Low at h1
      unfold High at h2
      omega
  · intro hno m hm _ hb
    rcases hb with hz | hlow | ⟨hhigh, hnl⟩
    · exact hok.nonzero _ hm hz
    · obtain ⟨hpos, hhigh⟩ := hok.low _ hm hlow
      have he : 2 * m - 1 = 2 * (m - 1) + 1 := by omega
      have hs : 2 * (m - 1) + 1 + 1 = 2 * m := by omega
      refine hno (m - 1) (by omega) ⟨he ▸ hhigh, ?_⟩
      rw [hs]
      exact hlow
    · exact hnl (hok.high _ hm hhigh (by omega))

/-- What the loop gets right, over the first `n` units. -/
def Utf16Faithful (unit : Nat → Nat) (n : Nat) : Prop :=
  if Utf16Ok unit n then ∀ m < n, 2 * m + 2 < n → ¬ PairAt unit (2 * m + 1)
  else ∃ m < n, 2 * m < n ∧ Seen unit m ∧ Broken unit (2 * m)

instance (unit : Nat → Nat) (n : Nat) : Decidable (Utf16Faithful unit n) := by
  unfold Utf16Faithful
  infer_instance

theorem utf16Loop_faithful_iff (hcs : cs ≠ .binary) (hn : n % 2 = 0) :
    utf16Loop unit n cs n 0 = (if Utf16Ok unit n then cs else .binary) ↔ Utf16Faithful unit n := by
  unfold Utf16Faithful
  by_cases hok : Utf16Ok unit n
  · rw [if_pos hok, if_pos hok, utf16Loop_ok_iff hcs hn hok]
    exact ⟨fun h m _ => h m, fun h m hm => h m (by omega) hm⟩
  · rw [if_neg hok, if_neg hok]
    have hnot : utf16Loop unit n cs n 0 = .binary ↔ ¬ utf16Loop unit n cs n 0 = cs := by
      rcases utf16Loop_cases unit n cs n 0 with h | h
      · exact iff_of_false (fun hb => hcs (h.symm.trans hb)) (fun hne => hne h)
      · exact iff_of_true h fun hb => hcs (hb.symm.trans h)
    rw [hnot, utf16Loop_iff hcs]
    constructor
    · intro h
      by_contra hno
      exact h fun m hm hseen hb => hno ⟨m, by omega, hm, hseen, hb⟩
    · rintro ⟨m, _, hm, hseen, hb⟩ h
      exact h m hm hseen hb

/-! ## Buffers -/

/-- What a buffer with a mark of UTF-16 is: UTF-16 or binary. -/
def utf16Charset (b : List UInt8) : EdCharset :=
  if [0xff, 0xfe] <+: b then
    if Utf16Ok (unit16 l16 (b.drop 2)) (covered16 (b.drop 2)) then .utf16le else .binary
  else
    if Utf16Ok (unit16 b16 (b.drop 2)) (covered16 (b.drop 2)) then .utf16be else .binary

/-- When the result is the right one. A mark of UTF-16 with a zero unit behind it is taken for a mark of
UTF-32, and the result is binary only if one of the units of 32 bits is out of range. -/
def Utf16Right (b : List UInt8) : Prop :=
  if [0xff, 0xfe, 0x00, 0x00] <+: b then
    ∃ i < (b.drop 4).length / 4, isUtf32 (unit32 l32 (b.drop 4) i) = false
  else if [0xff, 0xfe] <+: b then Utf16Faithful (unit16 l16 (b.drop 2)) (covered16 (b.drop 2))
  else Utf16Faithful (unit16 b16 (b.drop 2)) (covered16 (b.drop 2))

instance (b : List UInt8) : Decidable (Utf16Right b) := by
  unfold Utf16Right
  infer_instance

theorem covered16_even (p : List UInt8) : covered16 p % 2 = 0 := by
  unfold covered16
  omega

theorem maybeUtf16Le_iff (p : List UInt8) :
    maybeUtf16Le p = (if Utf16Ok (unit16 l16 p) (covered16 p) then .utf16le else .binary) ↔
      Utf16Faithful (unit16 l16 p) (covered16 p) :=
  utf16Loop_faithful_iff (by decide) (covered16_even p)

theorem maybeUtf16Be_iff (p : List UInt8) :
    maybeUtf16Be p = (if Utf16Ok (unit16 b16 p) (covered16 p) then .utf16be else .binary) ↔
      Utf16Faithful (unit16 b16 p) (covered16 p) :=
  utf16Loop_faithful_iff (by decide) (covered16_even p)

theorem maybeUtf32_binary_iff {fetch : UInt8 → UInt8 → UInt8 → UInt8 → Nat} (hcs : cs ≠ .binary)
    (p : List UInt8) :
    maybeUtf32 fetch cs p = .binary ↔ ∃ i < p.length / 4, isUtf32 (unit32 fetch p i) = false := by
  unfold maybeUtf32
  by_cases h : ((List.range (p.length / 4)).all fun i => isUtf32 (unit32 fetch p i)) = true
  · rw [if_pos h]
    refine iff_of_false hcs ?_
    rintro ⟨i, hi, hbad⟩
    have := all_eq_true.mp h i (mem_range.mpr hi)
    rw [hbad] at this
    exact absurd this (by decide)
  · rw [if_neg h]
    refine iff_of_true rfl ?_
    have hany := any_eq_true.mp (not_all_eq_any_not ▸ (Bool.not_eq_true' _).mpr
      ((Bool.not_eq_true _).mp h))
    obtain ⟨i, hi, hbad⟩ := hany
    exact ⟨i, mem_range.mp hi, by simpa using hbad⟩

theorem not_utf16Ok_of_mark32 {q : List UInt8} (hq : 0 < q.length / 4) :
    ¬ Utf16Ok (unit16 l16 (0 :: 0 :: q)) (covered16 (0 :: 0 :: q)) := by
  intro hok
  refine hok.nonzero 0 ?_ rfl
  unfold covered16
  simp only [length_cons]
  omega

theorem maybeUtf32Le_cases (p : List UInt8) :
    maybeUtf32Le p = .utf32le ∨ maybeUtf32Le p = .binary := by
  unfold maybeUtf32Le maybeUtf32
  split
  · exact .inl rfl
  · exact .inr rfl

/-- For every buffer that starts with a mark of UTF-16: the result is the right one exactly when no pair
starts at an odd unit of UTF-16, or one of the units that the loop looks at shows that the buffer is no
UTF-16. -/
theorem maybeText_utf16_iff (b : List UInt8) (hmark : [0xff, 0xfe] <+: b ∨ [0xfe, 0xff] <+: b) :
    maybeText b = utf16Charset b ↔ Utf16Right b := by
  rcases hmark with ⟨q, rfl⟩ | ⟨q, rfl⟩
  · have hmark : [0xff, 0xfe] <+: [0xff, 0xfe] ++ q := prefix_append _ _
    have hno : ¬ [0x00, 0x00, 0xfe, 0xff] <+: [0xff, 0xfe] ++ q := by simp
    have hle : utf16Charset ([0xff, 0xfe] ++ q) =
        if Utf16Ok (unit16 l16 q) (covered16 q) then .utf16le else .binary := if_pos hmark
    rw [hle]
    by_cases h32 : [0xff, 0xfe, 0x00, 0x00] <+: [0xff, 0xfe] ++ q
    · -- the units of 32 bits decide
      obtain ⟨r, rfl⟩ : ∃ r, q = 0 :: 0 :: r := by
        obtain ⟨r, hr⟩ := h32
        exact ⟨r, by simpa using hr.symm⟩
      have hcode : maybeText ([0xff, 0xfe] ++ 0 :: 0 :: r) = maybeUtf32Le r := if_pos h32
      have hright : Utf16Right ([0xff, 0xfe] ++ 0 :: 0 :: r) ↔
          ∃ i < r.length / 4, isUtf32 (unit32 l32 r i) = false := by
        unfold Utf16Right
        rw [if_pos h32]
        exact Iff.rfl
      have hbin : maybeUtf32Le r = .binary ↔ ∃ i < r.length / 4, isUtf32 (unit32 l32 r i) = false :=
        maybeUtf32_binary_iff (by decide) r
      rw [hcode, hright, ← hbin]
      constructor
      · intro h
        rcases maybeUtf32Le_cases r with hc | hc
        · rw [hc] at h
          split at h <;> exact absurd h (by decide)
        · exact hc
      · intro h
        obtain ⟨i, hi, _⟩ := hbin.mp h
        rw [if_neg (not_utf16Ok_of_mark32 (by omega))]
        exact h
    · have hcode : maybeText ([0xff, 0xfe] ++ q) = maybeUtf16Le q := by
        unfold maybeText
        rw [if_neg h32, if_neg hno, if_pos hmark]
        rfl
      have hright : Utf16Right ([0xff, 0xfe] ++ q) = Utf16Faithful (unit16 l16 q) (covered16 q) := by
        unfold Utf16Right
        rw [if_neg h32, if_pos hmark]
        rfl
      rw [hcode, hright]
      exact maybeUtf16Le_iff q
  · have hmark : [0xfe, 0xff] <+: [0xfe, 0xff] ++ q := prefix_append _ _
    have hn1 : ¬ [0xff, 0xfe, 0x00, 0x00] <+: [0xfe, 0xff] ++ q := by simp
    have hn2 : ¬ [0x00, 0x00, 0xfe, 0xff] <+: [0xfe, 0xff] ++ q := by simp
    have hn3 : ¬ [0xff, 0xfe] <+: [0xfe, 0xff] ++ q := by simp
    have hcode : maybeText ([0xfe, 0xff] ++ q) = maybeUtf16Be q := by
      unfold maybeText
      rw [if_neg hn1, if_neg hn2, if_neg hn3, if_pos hmark]
      rfl
    have hbe : utf16Charset ([0xfe, 0xff] ++ q) =
        if Utf16Ok (unit16 b16 q) (covered16 q) then .utf16be else .binary := if_neg hn3
    have hright : Utf16Right ([0xfe, 0xff] ++ q) = Utf16Faithful (unit16 b16 q) (covered16 q) := by
      unfold Utf16Right
      rw [if_neg hn1, if_neg hn3]
      rfl
    rw [hcode, hbe, hright]
    exact maybeUtf16Be_iff q

/-- A pair at the first unit, and a letter behind it. -/
theorem maybeText_utf16_pair :
    Utf16Right [0xff, 0xfe, 0x3d, 0xd8, 0x00, 0xde, 0x41, 0x00, 0x42, 0x00] ∧
      maybeText [0xff, 0xfe, 0x3d, 0xd8, 0x00, 0xde, 0x41, 0x00, 0x42, 0x00] =
        utf16Charset [0xff, 0xfe, 0x3d, 0xd8, 0x00, 0xde, 0x41, 0x00, 0x42, 0x00] :=
  ⟨by decide, (maybeText_utf16_iff _ (.inl (by decide))).mpr (by decide)⟩

/-- A letter and a zero unit are taken for UTF-16; a letter, a pair and another letter are not. -/
theorem maybeText_utf16_wrong :
    (maybeText [0xff, 0xfe, 0x41, 0x00, 0x00, 0x00] = .utf16le ∧
      utf16Charset [0xff, 0xfe, 0x41, 0x00, 0x00, 0x00] = .binary) ∧
    (maybeText [0xfe, 0xff, 0x00, 0x41, 0xd8, 0x3d, 0xde, 0x00, 0x00, 0x42] = .binary ∧
      utf16Charset [0xfe, 0xff, 0x00, 0x41, 0xd8, 0x3d, 0xde, 0x00, 0x00, 0x42] = .utf16be) := by
  decide

end Eddy.Mime
