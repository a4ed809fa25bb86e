import Mathlib.Algebra.Group.Nat.Defs
import Mathlib.Data.List.Basic
import Mathlib.Data.List.GetD

/-!
# Eddy — the marks of `stat.c`

`EdStat` has a bit for every page of the index. `ed_stat_mark` sets bits, `ed_stat_has_leak` tests one,
and `ed_stat_has_leaks` looks for a clear one: it compares 8 bytes at once, then single bytes, and at
last the bits of the last, partial byte. `ed_stat_mark` accepts the page number `stat->no` too, which
is behind the last page. Its bit is in the partial byte, which `ed_stat_has_leaks` compares as a whole.
-/

namespace Eddy.Stat

open List

/-! ## Bits -/

/-- `ED_BIT_MASK`. -/
def bitMask (b : Nat) : BitVec 8 := 1#8 <<< (b % 8)

/-- `ED_BIT_SLOT`. -/
def bitSlot (b : Nat) : Nat := b / 8

/-- `ED_BIT_SET`. -/
def bitSet (a : List (BitVec 8)) (b : Nat) : List (BitVec 8) :=
  a.modify (bitSlot b) (· ||| bitMask b)

/-- `ED_BIT_TEST`. -/
def bitTest (a : List (BitVec 8)) (b : Nat) : Bool := a.getD (bitSlot b) 0 &&& bitMask b != 0

/-- What the marks work on: the pages that were marked twice with the length of their array, the
counter that `stat->mark` points to, the number of pages and the bits. There is a byte behind the
last full one. -/
structure EdStat where
  mult : List Nat
  nmultslots : Nat
  mark : Nat
  no : Nat
  vec : List (BitVec 8)
  size : vec.length = no / 8 + 1

@[simp] theorem length_bitSet (a : List (BitVec 8)) (b : Nat) : (bitSet a b).length = a.length :=
  length_modify ..

/-- Set the bit of a page. -/
def EdStat.setBit (s : EdStat) (b : Nat) : EdStat :=
  { s with vec := bitSet s.vec b, size := by rw [length_bitSet, s.size] }

/-- The bits that `ed_stat_new` sets before the first mark: those of the first `hdr` pages and those of
the tail. -/
def edStatNew (no hdr tailStart : Nat) : EdStat :=
  (List.range hdr ++ List.range' tailStart (no - tailStart)).foldl EdStat.setBit
    ⟨[], 0, 0, no, List.replicate (no / 8 + 1) 0, length_replicate⟩

/-- `push_double_page`; `granted` is whether `realloc` succeeds. -/
def pushDoublePage (granted : Bool) (s : EdStat) (no : Nat) : EdStat :=
  if s.mult.length = s.nmultslots then
    if granted then
      { s with
        nmultslots := if s.nmultslots = 0 then 64 else s.nmultslots * 2
        mult := s.mult ++ [no] }
    else s
  else { s with mult := s.mult ++ [no] }

/-- `ed_stat_mark`. -/
def edStatMark (granted : Bool) (s : EdStat) (no : Nat) : EdStat :=
  let s := { s with mark := s.mark + 1 }
  if s.no < no then s
  else if bitTest s.vec no = false then s.setBit no
  else pushDoublePage granted s no

/-- `ed_stat_has_leak`. -/
def edStatHasLeak (s : EdStat) (no : Nat) : Bool := decide (no < s.no) && !bitTest s.vec no

/-- The 8 bytes at `v` as a number. -/
def word64 (vec : List (BitVec 8)) (v : Nat) : Nat :=
  ((vec.drop v).take 8).foldr (fun b n => b.toNat + 2 ^ 8 * n) 0

/-- The scan of words from `v` on: where it ends, or nothing when it finds a clear bit. -/
def scanWords (vec : List (BitVec 8)) (ve : Nat) : Nat → Nat → Option Nat
  | 0, v => some v
  | fuel + 1, v =>
    if 8 ≤ ve - v then
      if word64 vec v ≠ 2 ^ 64 - 1 then none else scanWords vec ve fuel (v + 8)
    else some v

/-- The scan of bytes. -/
def scanBytes (vec : List (BitVec 8)) (ve : Nat) : Nat → Nat → Option Nat
  | 0, v => some v
  | fuel + 1, v =>
    if v < ve then
      if vec.getD v 0 ≠ 0xff#8 then none else scanBytes vec ve fuel (v + 1)
    else some v

/-- `ed_stat_has_leaks`. -/
def edStatHasLeaks (s : EdStat) : Bool :=
  let ve := s.no / 8
  match scanWords s.vec ve ve 0 with
  | none => true
  | some v =>
    match scanBytes s.vec ve ve v with
    | none => true
    | some v =>
      let last := s.no - s.no / 8 * 8
      decide (last ≠ 0) && decide (s.vec.getD v 0 ≠ 0xff#8 >>> (8 - last))

/-! ## Single bits -/

variable {s : EdStat} {vec : List (BitVec 8)} {b p v v' ve fuel : Nat}

theorem bitTest_eq (a : List (BitVec 8)) (b : Nat) :
    bitTest a b = (a.getD (b / 8) 0).getLsbD (b % 8) := by
  rw [bitTest, bitSlot, bitMask, ← BitVec.twoPow_eq, BitVec.and_twoPow]
  cases hbit : (a.getD (b / 8) 0).getLsbD (b % 8) with
  | false => rfl
  | true =>
    have hlt : b % 8 < 8 := Nat.mod_lt b (by decide)
    have hne : BitVec.twoPow 8 (b % 8) ≠ 0#8 := by
      intro heq
      have hself := congrArg (BitVec.getLsbD · (b % 8)) heq
      simp [hlt] at hself
    simpa using hne

theorem bitTest_bitSet (hb : b / 8 < vec.length) :
    bitTest (bitSet vec b) p = (decide (p = b) || bitTest vec p) := by
  have hlt : p % 8 < 8 := Nat.mod_lt p (by decide)
  rw [bitTest_eq, bitTest_eq, bitSet, bitSlot, getD_eq_getElem?_getD, List.getElem?_modify,
    getD_eq_getElem?_getD, Option.map_eq_map]
  by_cases hslot : b / 8 = p / 8
  · -- The bit is in the byte that is changed.
    have hiff : b % 8 = p % 8 ↔ p = b := by omega
    have hmask : (1#8 <<< (b % 8)).getLsbD (p % 8) = decide (p = b) := by
      rw [← BitVec.twoPow_eq, BitVec.getLsbD_twoPow, decide_eq_true (Nat.mod_lt b (by decide)),
        Bool.true_and, decide_eq_decide]
      exact hiff
    rw [hslot] at hb
    simp only [if_pos hslot, List.getElem?_eq_getElem hb, Option.map_some, Option.getD_some, bitMask,
      BitVec.getLsbD_or, hmask]
    exact Bool.or_comm _ _
  · have hne : p ≠ b := fun heq => hslot (by rw [heq])
    simp only [if_neg hslot, Option.map_id_fun', decide_eq_false hne, Bool.false_or, id]

/-! ## The scan -/

theorem byte_ne_full {x : BitVec 8} : x ≠ 0xff#8 ↔ ∃ j, j < 8 ∧ x.getLsbD j = false := by
  rw [show 0xff#8 = BitVec.allOnes 8 from rfl]
  constructor
  · intro hne
    by_contra hall
    refine hne (BitVec.eq_of_getLsbD_eq fun j hj => ?_)
    rw [BitVec.getLsbD_allOnes, decide_eq_true hj]
    exact (Bool.not_eq_false _).mp fun hbit => hall ⟨j, hj, hbit⟩
  · rintro ⟨j, hj, hbit⟩ rfl
    rw [BitVec.getLsbD_allOnes, decide_eq_true hj] at hbit
    cases hbit

theorem byte_ne_cut {x : BitVec 8} {last : Nat} (hlast : last < 8) :
    x ≠ 0xff#8 >>> (8 - last) ↔
      (∃ j, j < last ∧ x.getLsbD j = false) ∨ ∃ j, last ≤ j ∧ j < 8 ∧ x.getLsbD j = true := by
  have hbit : ∀ j, (0xff#8 >>> (8 - last)).getLsbD j = decide (j < last) := by
    intro j
    rw [show 0xff#8 = BitVec.allOnes 8 from rfl, BitVec.getLsbD_ushiftRight, BitVec.getLsbD_allOnes,
      decide_eq_decide]
    omega
  constructor
  · intro hne
    by_contra hall
    rw [not_or] at hall
    refine hne (BitVec.eq_of_getLsbD_eq fun j hj => ?_)
    rw [hbit]
    by_cases hin : j < last
    · rw [decide_eq_true hin]
      exact (Bool.not_eq_false _).mp fun h0 => hall.1 ⟨j, hin, h0⟩
    · rw [decide_eq_false hin]
      exact (Bool.not_eq_true _).mp fun h1 => hall.2 ⟨j, Nat.le_of_not_lt hin, hj, h1⟩
  · rintro (⟨j, hj, h0⟩ | ⟨j, hj, -, h1⟩) rfl
    · rw [hbit, decide_eq_true hj] at h0
      cases h0
    · rw [hbit, decide_eq_false (Nat.not_lt.mpr hj)] at h1
      cases h1

theorem number_full (bs : List (BitVec 8)) :
    bs.foldr (fun b n => b.toNat + 2 ^ 8 * n) 0 < 2 ^ (8 * bs.length) ∧
      (bs.foldr (fun b n => b.toNat + 2 ^ 8 * n) 0 = 2 ^ (8 * bs.length) - 1 ↔
        ∀ b ∈ bs, b = 0xff#8) := by
  induction bs with
  | nil => exact ⟨by decide, iff_of_true rfl nofun⟩
  | cons b bs ih =>
    obtain ⟨hlt, hfull⟩ := ih
    have hb : b.toNat < 2 ^ 8 := b.isLt
    have hpow : 2 ^ (8 * (b :: bs).length) = 2 ^ 8 * 2 ^ (8 * bs.length) := by
      rw [length_cons, Nat.mul_add_one, Nat.add_comm, Nat.pow_add]
    have hbyte : b = 0xff#8 ↔ b.toNat = 255 := by
      rw [← BitVec.toNat_inj]
      rfl
    rw [foldr_cons, hpow, forall_mem_cons, ← hfull, hbyte]
    generalize bs.foldr (fun b n => b.toNat + 2 ^ 8 * n) 0 = n at hlt ⊢
    generalize 2 ^ (8 * bs.length) = k at hlt ⊢
    omega

theorem word64_full (h : v + 8 ≤ vec.length) :
    word64 vec v = 2 ^ 64 - 1 ↔ ∀ i, v ≤ i → i < v + 8 → vec.getD i 0 = 0xff#8 := by
  have hlen : ((vec.drop v).take 8).length = 8 := by
    rw [length_take, length_drop]
    omega
  have hnum := (number_full ((vec.drop v).take 8)).2
  rw [hlen] at hnum
  rw [word64, hnum, forall_mem_iff_forall_getElem]
  constructor
  · intro hall i hi hi'
    have hb := hall (i - v) (by omega)
    rw [getElem_take, getElem_drop] at hb
    rw [getD_eq_getElem _ _ (by omega), ← hb]
    congr 1
    omega
  · intro hall j hj
    rw [getElem_take, getElem_drop, ← getD_eq_getElem _ 0]
    exact hall (v + j) (by omega) (by omega)

theorem scanBytes_cases (vec : List (BitVec 8)) (hv : v ≤ ve) (hfuel : ve - v ≤ fuel) :
    (scanBytes vec ve fuel v = none ∧ ∃ i, v ≤ i ∧ i < ve ∧ vec.getD i 0 ≠ 0xff#8) ∨
      scanBytes vec ve fuel v = some ve ∧ ∀ i, v ≤ i → i < ve → vec.getD i 0 = 0xff#8 := by
  induction fuel generalizing v with
  | zero =>
    obtain rfl : v = ve := by omega
    exact .inr ⟨rfl, fun i h1 h2 => absurd h1 (by omega)⟩
  | succ fuel ih =>
    rw [scanBytes]
    by_cases hlt : v < ve
    · rw [if_pos hlt]
      by_cases hfull : vec.getD v 0 = 0xff#8
      · rw [if_neg (not_not.mpr hfull)]
        rcases ih (v := v + 1) (by omega) (by omega) with ⟨hnone, i, h1, h2⟩ | ⟨hsome, hall⟩
        · exact .inl ⟨hnone, i, by omega, h2⟩
        · refine .inr ⟨hsome, fun i h1 h2 => ?_⟩
          rcases Nat.lt_or_eq_of_le h1 with h1 | rfl
          · exact hall i h1 h2
          · exact hfull
      · rw [if_pos hfull]
        exact .inl ⟨rfl, v, Nat.le_refl v, hlt, hfull⟩
    · obtain rfl : v = ve := by omega
      rw [if_neg hlt]
      exact .inr ⟨rfl, fun i h1 h2 => absurd h1 (by omega)⟩

theorem scanWords_cases (fuel : Nat) (hve : ve ≤ vec.length) (hv : v ≤ ve) :
    (scanWords vec ve fuel v = none ∧ ∃ i, v ≤ i ∧ i < ve ∧ vec.getD i 0 ≠ 0xff#8) ∨
      ∃ v', scanWords vec ve fuel v = some v' ∧ v ≤ v' ∧ v' ≤ ve ∧
        ∀ i, v ≤ i → i < v' → vec.getD i 0 = 0xff#8 := by
  induction fuel generalizing v with
  | zero => exact .inr ⟨v, rfl, Nat.le_refl v, hv, fun i h1 h2 => absurd h1 (by omega)⟩
  | succ fuel ih =>
    rw [scanWords]
    by_cases h8 : 8 ≤ ve - v
    · rw [if_pos h8]
      have hword := word64_full (show v + 8 ≤ vec.length by omega)
      by_cases hfull : word64 vec v = 2 ^ 64 - 1
      · rw [if_neg (not_not.mpr hfull)]
        rw [hword] at hfull
        rcases ih (v := v + 8) (by omega) with ⟨hnone, i, h1, h2⟩ | ⟨v', hsome, h1, h2, hall⟩
        · exact .inl ⟨hnone, i, by omega, h2⟩
        · refine .inr ⟨v', hsome, by omega, h2, fun i hi hi' => ?_⟩
          rcases Nat.lt_or_ge i (v + 8) with hlt | hge
          · exact hfull i hi hlt
          · exact hall i hge hi'
      · rw [if_pos hfull]
        refine .inl ⟨rfl, ?_⟩
        rw [hword] at hfull
        push Not at hfull
        obtain ⟨i, h1, h2, h3⟩ := hfull
        exact ⟨i, h1, by omega, h3⟩
    · rw [if_neg h8]
      exact .inr ⟨v, rfl, Nat.le_refl v, hv, fun i h1 h2 => absurd h1 (by omega)⟩

theorem edStatHasLeaks_bytes (s : EdStat) :
    edStatHasLeaks s = true ↔ (∃ i, i < s.no / 8 ∧ s.vec.getD i 0 ≠ 0xff#8) ∨
      s.no % 8 ≠ 0 ∧ s.vec.getD (s.no / 8) 0 ≠ 0xff#8 >>> (8 - s.no % 8) := by
  have hlast : s.no - s.no / 8 * 8 = s.no % 8 := by omega
  have hsize := s.size
  rw [edStatHasLeaks, hlast]
  rcases scanWords_cases (s.no / 8) (show s.no / 8 ≤ s.vec.length by omega)
    (Nat.zero_le _) with ⟨hnone, i, -, hi, hbyte⟩ | ⟨v, hsome, -, hv, hfull⟩
  · rw [hnone]
    exact iff_of_true rfl (.inl ⟨i, hi, hbyte⟩)
  rw [hsome]
  rcases scanBytes_cases s.vec hv (Nat.sub_le (s.no / 8) v) with
    ⟨hnone, i, -, hi, hbyte⟩ | ⟨hend, hrest⟩
  · simp only [hnone]
    exact iff_of_true trivial (.inl ⟨i, hi, hbyte⟩)
  · have hall : ¬ ∃ i, i < s.no / 8 ∧ s.vec.getD i 0 ≠ 0xff#8 := by
      rintro ⟨i, hi, hbyte⟩
      rcases Nat.lt_or_ge i v with hlt | hge
      · exact hbyte (hfull i (Nat.zero_le i) hlt)
      · exact hbyte (hrest i hge hi)
    simp only [hend, Bool.and_eq_true, decide_eq_true_eq]
    exact (or_iff_right hall).symm

/-- What `ed_stat_has_leaks` finds: a clear bit, or a bit of the partial byte that is behind the last
page. -/
theorem edStatHasLeaks_iff (s : EdStat) :
    edStatHasLeaks s = true ↔ (∃ p, p < s.no ∧ bitTest s.vec p = false) ∨
      ∃ p, s.no ≤ p ∧ p < 8 * (s.no / 8 + 1) ∧ s.no % 8 ≠ 0 ∧ bitTest s.vec p = true := by
  have hmod : ∀ q j, j < 8 → (8 * q + j) / 8 = q ∧ (8 * q + j) % 8 = j := by
    intro q j hj
    omega
  rw [edStatHasLeaks_bytes]
  constructor
  · rintro (⟨i, hi, hbyte⟩ | ⟨hne, hbyte⟩)
    · obtain ⟨j, hj, hbit⟩ := byte_ne_full.mp hbyte
      refine .inl ⟨8 * i + j, by omega, ?_⟩
      rw [bitTest_eq, (hmod i j hj).1, (hmod i j hj).2]
      exact hbit
    · rcases (byte_ne_cut (Nat.mod_lt _ (by decide))).mp hbyte with ⟨j, hj, hbit⟩ | ⟨j, hj, hj8, hbit⟩
      · have hj8 : j < 8 := by omega
        refine .inl ⟨8 * (s.no / 8) + j, by omega, ?_⟩
        rw [bitTest_eq, (hmod _ j hj8).1, (hmod _ j hj8).2]
        exact hbit
      · refine .inr ⟨8 * (s.no / 8) + j, by omega, by omega, hne, ?_⟩
        rw [bitTest_eq, (hmod _ j hj8).1, (hmod _ j hj8).2]
        exact hbit
  · rintro (⟨p, hp, hbit⟩ | ⟨p, hp, hp8, hne, hbit⟩)
    · rw [bitTest_eq] at hbit
      rcases Nat.lt_or_ge (p / 8) (s.no / 8) with hlt | hge
      · exact .inl ⟨p / 8, hlt, byte_ne_full.mpr ⟨p % 8, Nat.mod_lt p (by decide), hbit⟩⟩
      · have hslot : p / 8 = s.no / 8 := by omega
        rw [hslot] at hbit
        refine .inr ⟨by omega, (byte_ne_cut (Nat.mod_lt _ (by decide))).mpr (.inl ⟨p % 8, ?_, hbit⟩)⟩
        omega
    · rw [bitTest_eq, show p / 8 = s.no / 8 by omega] at hbit
      refine .inr ⟨hne, (byte_ne_cut (Nat.mod_lt _ (by decide))).mpr (.inr ⟨p % 8, ?_, ?_, hbit⟩)⟩
      · omega
      · exact Nat.mod_lt p (by decide)

/-! ## Sequences of marks -/

theorem bitTest_setBit (hb : b ≤ s.no) :
    bitTest (s.setBit b).vec p = (decide (p = b) || bitTest s.vec p) := by
  refine bitTest_bitSet ?_
  have hsize := s.size
  have hslot := Nat.div_le_div_right (c := 8) hb
  omega

theorem pushDoublePage_vec (granted : Bool) (s : EdStat) (no : Nat) :
    (pushDoublePage granted s no).vec = s.vec ∧ (pushDoublePage granted s no).no = s.no := by
  rw [pushDoublePage]
  split
  · split <;> exact ⟨rfl, rfl⟩
  · exact ⟨rfl, rfl⟩

theorem edStatMark_spec (granted : Bool) (s : EdStat) (no : Nat) :
    (edStatMark granted s no).no = s.no ∧ ∀ p, bitTest (edStatMark granted s no).vec p =
      (decide (p = no ∧ no ≤ s.no) || bitTest s.vec p) := by
  rw [edStatMark]
  by_cases hlt : s.no < no
  · rw [if_pos hlt]
    refine ⟨rfl, fun p => ?_⟩
    rw [decide_eq_false (fun h => Nat.not_le.mpr hlt h.2), Bool.false_or]
  rw [if_neg hlt]
  have hle : no ≤ s.no := Nat.le_of_not_lt hlt
  by_cases hbit : bitTest s.vec no = false
  · rw [if_pos hbit]
    refine ⟨rfl, fun p => ?_⟩
    have hset : bitTest (EdStat.setBit { s with mark := s.mark + 1 } no).vec p
        = (decide (p = no) || bitTest s.vec p) := bitTest_setBit hle
    rw [hset, decide_eq_decide.mpr (and_iff_left hle)]
  · rw [if_neg hbit]
    obtain ⟨hvec, hno⟩ := pushDoublePage_vec granted { s with mark := s.mark + 1 } no
    refine ⟨hno, fun p => ?_⟩
    rw [hvec]
    by_cases hp : p = no
    · subst hp
      rw [(Bool.not_eq_false _).mp hbit, Bool.or_true]
    · rw [decide_eq_false (fun h => hp h.1), Bool.false_or]

/-- A sequence of calls, each with the answer of `realloc`. -/
def marks (s : EdStat) (calls : List (Nat × Bool)) : EdStat :=
  calls.foldl (fun s c => edStatMark c.2 s c.1) s

theorem bitTest_marks (s : EdStat) (calls : List (Nat × Bool)) :
    (marks s calls).no = s.no ∧ ∀ p, bitTest (marks s calls).vec p = true ↔
      (p ≤ s.no ∧ ∃ c ∈ calls, c.1 = p) ∨ bitTest s.vec p = true := by
  induction calls generalizing s with
  | nil => exact ⟨rfl, fun p => ⟨.inr, fun h => h.resolve_left (fun ⟨_, c, hc, _⟩ => nomatch hc)⟩⟩
  | cons c calls ih =>
    obtain ⟨hno, hbits⟩ := edStatMark_spec c.2 s c.1
    obtain ⟨hno', hbits'⟩ := ih (edStatMark c.2 s c.1)
    refine ⟨hno'.trans hno, fun p => ?_⟩
    show bitTest (marks (edStatMark c.2 s c.1) calls).vec p = true ↔ _
    rw [hbits', hbits, hno, Bool.or_eq_true, decide_eq_true_eq]
    constructor
    · rintro (⟨hle, c', hc', rfl⟩ | ⟨rfl, hle⟩ | hbit)
      · exact .inl ⟨hle, c', mem_cons_of_mem c hc', rfl⟩
      · exact .inl ⟨hle, c, mem_cons_self, rfl⟩
      · exact .inr hbit
    · rintro (⟨hle, c', hc', rfl⟩ | hbit)
      · rcases mem_cons.mp hc' with rfl | hc'
        · exact .inr (.inl ⟨rfl, hle⟩)
        · exact .inl ⟨hle, c', hc', rfl⟩
      · exact .inr (.inr hbit)

theorem bitTest_foldl_setBit (bs : List Nat) (hbs : ∀ b ∈ bs, b ≤ s.no) :
    (bs.foldl EdStat.setBit s).no = s.no ∧ ∀ p, bitTest (bs.foldl EdStat.setBit s).vec p = true ↔
      p ∈ bs ∨ bitTest s.vec p = true := by
  induction bs generalizing s with
  | nil => exact ⟨rfl, fun p => ⟨.inr, fun h => h.resolve_left nofun⟩⟩
  | cons b bs ih =>
    obtain ⟨hno, hbits⟩ := ih (s := s.setBit b) fun b' hb' => hbs b' (mem_cons_of_mem b hb')
    refine ⟨hno, fun p => ?_⟩
    rw [foldl_cons, hbits, bitTest_setBit (hbs b mem_cons_self), Bool.or_eq_true,
      decide_eq_true_eq, mem_cons]
    constructor
    · rintro (h | h | h)
      · exact .inl (.inr h)
      · exact .inl (.inl h)
      · exact .inr h
    · rintro ((h | h) | h)
      · exact .inr (.inl h)
      · exact .inl h
      · exact .inr (.inr h)

theorem bitTest_edStatNew {no hdr : Nat} (tailStart : Nat) (hhdr : hdr ≤ no) :
    (edStatNew no hdr tailStart).no = no ∧ ∀ p, bitTest (edStatNew no hdr tailStart).vec p = true ↔
      p < hdr ∨ tailStart ≤ p ∧ p < no := by
  have hbelow : ∀ b ∈ List.range hdr ++ List.range' tailStart (no - tailStart), b ≤ no := by
    intro b hb
    rcases mem_append.mp hb with hb | hb
    · have := mem_range.mp hb
      omega
    · have := mem_range'_1.mp hb
      omega
  obtain ⟨hno, hbits⟩ := bitTest_foldl_setBit
    (s := ⟨[], 0, 0, no, List.replicate (no / 8 + 1) 0, length_replicate⟩) _ hbelow
  refine ⟨hno, fun p => ?_⟩
  have hzero : bitTest (List.replicate (no / 8 + 1) 0) p = false := by
    rw [bitTest_eq, getD_eq_getElem?_getD, List.getElem?_getD_replicate_default_eq]
    exact BitVec.getLsbD_zero
  rw [edStatNew, hbits, hzero, mem_append, mem_range, mem_range'_1]
  constructor
  · rintro ((h | h) | h)
    · exact .inl h
    · exact .inr (by omega)
    · cases h
  · rintro (h | h)
    · exact .inl (.inl h)
    · exact .inl (.inr (by omega))

/-- The two checks agree after every sequence of calls but those that mark all pages and the page number
behind the last page, when this has a bit in the partial byte. -/
theorem hasLeaks_agrees_iff (no hdr tailStart : Nat) (hhdr : hdr ≤ no) (calls : List (Nat × Bool)) :
    (edStatHasLeaks (marks (edStatNew no hdr tailStart) calls) = true ↔
      ∃ p, p < no ∧ edStatHasLeak (marks (edStatNew no hdr tailStart) calls) p = true) ↔
    ¬ (no % 8 ≠ 0 ∧ (∃ c ∈ calls, c.1 = no) ∧
      ∀ p, p < no → p < hdr ∨ tailStart ≤ p ∨ ∃ c ∈ calls, c.1 = p) := by
  obtain ⟨hno, hnew⟩ := bitTest_edStatNew tailStart hhdr
  obtain ⟨hno', hmarks⟩ := bitTest_marks (edStatNew no hdr tailStart) calls
  have hall := edStatHasLeaks_iff (marks (edStatNew no hdr tailStart) calls)
  obtain ⟨s, hs⟩ : ∃ s, s = marks (edStatNew no hdr tailStart) calls := ⟨_, rfl⟩
  rw [← hs] at hno' hmarks hall ⊢
  rw [hno] at hno' hmarks
  rw [hno'] at hall
  -- A bit is set when its page is of the header or of the tail, or was marked.
  have hbit : ∀ p, bitTest s.vec p = true ↔
      (p ≤ no ∧ ∃ c ∈ calls, c.1 = p) ∨ p < hdr ∨ tailStart ≤ p ∧ p < no := by
    intro p
    rw [hmarks, hnew]
  have hleak : (∃ p, p < no ∧ edStatHasLeak s p = true) ↔ ∃ p, p < no ∧ bitTest s.vec p = false := by
    refine exists_congr fun p => and_congr_right fun hp => ?_
    rw [edStatHasLeak, hno', decide_eq_true hp, Bool.true_and, Bool.not_eq_true']
  -- Behind the last page only the bit of the number `no` can be set.
  have hbehind : (∃ p, no ≤ p ∧ p < 8 * (no / 8 + 1) ∧ no % 8 ≠ 0 ∧ bitTest s.vec p = true) ↔
      no % 8 ≠ 0 ∧ ∃ c ∈ calls, c.1 = no := by
    constructor
    · rintro ⟨p, hp, -, hne, h1⟩
      rcases (hbit p).mp h1 with ⟨hle, hc⟩ | h | h
      · rw [show p = no by omega] at hc
        exact ⟨hne, hc⟩
      · omega
      · omega
    · rintro ⟨hne, hc⟩
      exact ⟨no, Nat.le_refl no, by omega, hne, (hbit no).mpr (.inl ⟨Nat.le_refl no, hc⟩)⟩
  have hset : (∀ p, p < no → p < hdr ∨ tailStart ≤ p ∨ ∃ c ∈ calls, c.1 = p) ↔
      ¬ ∃ p, p < no ∧ bitTest s.vec p = false := by
    constructor
    · rintro hp ⟨p, hlt, h0⟩
      have h1 : bitTest s.vec p = true := by
        rw [hbit]
        rcases hp p hlt with h | h | h
        · exact .inr (.inl h)
        · exact .inr (.inr ⟨h, hlt⟩)
        · exact .inl ⟨Nat.le_of_lt hlt, h⟩
      rw [h0] at h1
      cases h1
    · intro hnone p hlt
      have h1 : bitTest s.vec p = true := (Bool.not_eq_false _).mp fun h0 => hnone ⟨p, hlt, h0⟩
      rcases (hbit p).mp h1 with ⟨-, h⟩ | h | h
      · exact .inr (.inr h)
      · exact .inl h
      · exact .inr (.inl h.1)
  rw [hall, hleak, hbehind, hset]
  by_cases hex : ∃ p, p < no ∧ bitTest s.vec p = false
  · exact iff_of_true (iff_of_true (.inl hex) hex) fun h => h.2.2 hex
  · rw [or_iff_right hex, iff_false_right hex]
    exact not_congr ⟨fun h => ⟨h.1, h.2, hex⟩, fun h => ⟨h.1, h.2.1⟩⟩

/-- Eleven pages of which one is not marked. -/
theorem hasLeaks_agrees_eleven : 2 ≤ 11 ∧
    ((edStatHasLeaks (marks (edStatNew 11 2 9) [(3, true), (5, true), (11, true)]) = true ↔
      ∃ p, p < 11 ∧ edStatHasLeak (marks (edStatNew 11 2 9) [(3, true), (5, true), (11, true)]) p = true)
    ↔ ¬ (11 % 8 ≠ 0 ∧ (∃ c ∈ [(3, true), (5, true), (11, true)], c.1 = 11) ∧
      ∀ p, p < 11 → p < 2 ∨ 9 ≤ p ∨ ∃ c ∈ [(3, true), (5, true), (11, true)], c.1 = p)) :=
  ⟨by decide, hasLeaks_agrees_iff 11 2 9 (by decide) [(3, true), (5, true), (11, true)]⟩

/-- All four pages are in use, and the number 4 is marked too. -/
theorem hasLeaks_spurious :
    edStatHasLeaks (marks (edStatNew 4 1 4) [(1, true), (2, true), (3, true), (4, true)]) = true ∧
      ∀ p, p < 4 →
        edStatHasLeak (marks (edStatNew 4 1 4) [(1, true), (2, true), (3, true), (4, true)]) p = false := by
  decide

end Eddy.Stat
