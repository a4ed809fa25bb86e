import Eddy.Mime.Cache

/-!
# Eddy — the rules of the mime database

A rule matches a buffer when one of its matchlets does. A matchlet matches when its value is found in the
buffer and, by the format of the file, when it has no children or one of its children matches.
`is_matchlet` asks for all children instead.
-/

namespace Eddy.Mime

open List

variable {data buf : List UInt8} {m fuel d i n nel : Nat} {P : Nat → Prop} {db : EdMime}

/-! ## The fields of a matchlet -/

def rangeStart (data : List UInt8) (m : Nat) : Nat := field data m

def rangeLength (data : List UInt8) (m : Nat) : Nat := field data (m + 4)

def valueLength (data : List UInt8) (m : Nat) : Nat := field data (m + 12)

def valueOff (data : List UInt8) (m : Nat) : Nat := field data (m + 16)

def maskOff (data : List UInt8) (m : Nat) : Nat := field data (m + 20)

def nChildren (data : List UInt8) (m : Nat) : Nat := field data (m + 24)

/-- The child `i`. -/
def child (data : List UInt8) (m i : Nat) : Nat := field data (m + 28) + i * matchletSize

/-- The matchlet, its value and its mask are inside of the file. -/
structure Inside (data : List UInt8) (m : Nat) : Prop where
  fields : m + matchletSize ≤ data.length
  value : valueOff data m + valueLength data m ≤ data.length
  mask : maskOff data m ≠ 0 → maskOff data m + valueLength data m ≤ data.length

/-- The matchlet and all below it are inside of the file, and nested `d` levels deep at most. -/
def WholeAt (data : List UInt8) : Nat → Nat → Prop
  | 0, _ => False
  | d + 1, m => Inside data m ∧ ∀ i < nChildren data m, WholeAt data d (child data m i)

instance (data : List UInt8) (m : Nat) : Decidable (Inside data m) :=
  decidable_of_iff (m + matchletSize ≤ data.length ∧
      valueOff data m + valueLength data m ≤ data.length ∧
      (maskOff data m ≠ 0 → maskOff data m + valueLength data m ≤ data.length))
    ⟨fun h => ⟨h.1, h.2.1, h.2.2⟩, fun h => ⟨h.fields, h.value, h.mask⟩⟩

instance decidableWholeAt (data : List UInt8) : (d m : Nat) → Decidable (WholeAt data d m)
  | 0, _ => isFalse id
  | d + 1, m =>
    have := decidableWholeAt data d
    inferInstanceAs (Decidable (Inside data m ∧ ∀ i < nChildren data m, WholeAt data d (child data m i)))

/-- A matchlet below another one, or the same. -/
inductive Below (data : List UInt8) (m : Nat) : Nat → Prop where
  | refl : Below data m m
  | step {c i : Nat} (h : Below data m c) (hi : i < nChildren data c) : Below data m (child data c i)

/-- The places where a matchlet looks are numbers of 32 bits. -/
def Fits (data : List UInt8) (m : Nat) : Prop :=
  rangeStart data m + rangeLength data m + valueLength data m < 2 ^ 32

instance (data : List UInt8) (m : Nat) : Decidable (Fits data m) :=
  inferInstanceAs (Decidable (_ < _))

/-- All matchlets below a matchlet fit. -/
def FitBelow (data : List UInt8) (m : Nat) : Prop := ∀ c, Below data m c → Fits data c

theorem Below.of_child {c : Nat} (hi : i < nChildren data m) (h : Below data (child data m i) c) :
    Below data m c := by
  induction h with
  | refl => exact .step .refl hi
  | step _ hj ih => exact .step ih hj

theorem FitBelow.of_child (h : FitBelow data m) (hi : i < nChildren data m) :
    FitBelow data (child data m i) := fun c hc => h c (hc.of_child hi)

/-! ## Values -/

/-- The byte `k` of a value is that of the buffer, under the mask. -/
def SameByte (data buf : List UInt8) (m i k : Nat) : Prop :=
  if maskOff data m = 0 then data.getD (valueOff data m + k) 0 = buf.getD (i + k) 0
  else data.getD (valueOff data m + k) 0 &&& data.getD (maskOff data m + k) 0 =
    buf.getD (i + k) 0 &&& data.getD (maskOff data m + k) 0

/-- The value is in the buffer at `i`. -/
def SameAt (data buf : List UInt8) (m i : Nat) : Prop :=
  i + valueLength data m ≤ buf.length ∧ ∀ k < valueLength data m, SameByte data buf m i k

instance (data buf : List UInt8) (m i : Nat) : Decidable (SameAt data buf m i) := by
  unfold SameAt SameByte
  infer_instance

/-- The value is in the buffer at a place in the range. -/
def Found (data buf : List UInt8) (m : Nat) : Prop :=
  ∃ i, rangeStart data m ≤ i ∧ i < rangeStart data m + rangeLength data m ∧ SameAt data buf m i

/-- A result with the meaning `P`. -/
def Decides (r : Read Bool) (P : Prop) : Prop := ∃ b, r = .ok b ∧ (b = true ↔ P)

theorem Decides.yes {P : Prop} (h : P) : Decides (.ok true) P := ⟨true, rfl, iff_of_true rfl h⟩

theorem Decides.no {P : Prop} (h : ¬ P) : Decides (.ok false) P :=
  ⟨false, rfl, iff_of_false Bool.false_ne_true h⟩

theorem Decides.congr {r : Read Bool} {P Q : Prop} (h : Decides r P) (hPQ : P ↔ Q) : Decides r Q := by
  obtain ⟨b, hr, hb⟩ := h
  exact ⟨b, hr, hb.trans hPQ⟩

theorem maskeq_spec {len a b k : Nat} (ha : a + len ≤ data.length) (hk : k + len ≤ data.length)
    (hb : b + len ≤ buf.length) :
    Decides (maskeq data buf len a b k) (∀ j < len,
      data.getD (a + j) 0 &&& data.getD (k + j) 0 = buf.getD (b + j) 0 &&& data.getD (k + j) 0) := by
  induction len generalizing a b k with
  | zero => exact .yes fun j hj => absurd hj (Nat.not_lt_zero j)
  | succ len ih =>
    have hget : ∀ (l : List UInt8) i, i < l.length → byteAt l i = .ok (l.getD i 0) := by
      intro l i hi
      refine byteAt_ok ?_
      rw [getD_eq_getElem _ _ hi, List.getElem?_eq_getElem hi]
    rw [maskeq, hget data a (by omega), hget data k (by omega), hget buf b (by omega)]
    show Decides (if _ then _ else _) _
    split
    · rename_i hne
      exact .no fun h => hne (h 0 (Nat.succ_pos len))
    · rename_i heq
      refine (ih (by omega) (by omega) (by omega)).congr ⟨fun h j hj => ?_, fun h j hj => ?_⟩
      · rcases Nat.eq_zero_or_pos j with rfl | hpos
        · exact not_not.mp heq
        · have hj' := h (j - 1) (by omega)
          rwa [show a + 1 + (j - 1) = a + j by omega, show k + 1 + (j - 1) = k + j by omega,
            show b + 1 + (j - 1) = b + j by omega] at hj'
      · have hj' := h (j + 1) (by omega)
        rwa [show a + (j + 1) = a + 1 + j by omega, show k + (j + 1) = k + 1 + j by omega,
          show b + (j + 1) = b + 1 + j by omega] at hj'

theorem memeq_spec {len a b : Nat} (ha : a + len ≤ data.length) (hb : b + len ≤ buf.length) :
    Decides (memeq data buf len a b) (∀ j < len, data.getD (a + j) 0 = buf.getD (b + j) 0) := by
  rw [memeq, if_pos ⟨ha, hb⟩]
  refine ⟨_, rfl, ?_⟩
  rw [decide_eq_true_iff]
  have hlen : ∀ (l : List UInt8) (i : Nat), i + len ≤ l.length → ((l.drop i).take len).length = len := by
    intro l i hi
    rw [length_take, length_drop]
    omega
  have hget : ∀ (l : List UInt8) (i j : Nat), i + len ≤ l.length → j < len →
      ((l.drop i).take len)[j]? = some (l.getD (i + j) 0) := by
    intro l i j hi hj
    rw [List.getElem?_take_of_lt hj, List.getElem?_drop, getD_eq_getElem _ _ (by omega),
      List.getElem?_eq_getElem]
  constructor
  · intro h j hj
    have hj' := hget data a j ha hj
    rw [h, hget buf b j hb hj] at hj'
    exact (Option.some.inj hj').symm
  · intro h
    refine ext_getElem? fun j => ?_
    rcases Nat.lt_or_ge j len with hj | hj
    · rw [hget data a j ha hj, hget buf b j hb hj, h j hj]
    · rw [List.getElem?_eq_none (by rw [hlen data a ha]; exact hj),
        List.getElem?_eq_none (by rw [hlen buf b hb]; exact hj)]

theorem valueAt_spec (h : Inside data m) (hi : i + valueLength data m ≤ buf.length) :
    Decides (valueAt data buf (valueLength data m) (valueOff data m) (maskOff data m) i)
      (SameAt data buf m i) := by
  unfold valueAt
  by_cases hm : maskOff data m = 0
  · rw [if_neg (not_not.mpr hm)]
    refine (memeq_spec h.value hi).congr ?_
    simp only [SameAt, SameByte, if_pos hm]
    exact ⟨fun hall => ⟨hi, hall⟩, fun hall => hall.2⟩
  · rw [if_pos hm]
    refine (maskeq_spec h.value (h.mask hm) hi).congr ?_
    simp only [SameAt, SameByte, if_neg hm]
    exact ⟨fun hall => ⟨hi, hall⟩, fun hall => hall.2⟩

theorem valueIn_spec (h : Inside data m) (hfit : i + n + valueLength data m < 2 ^ 32) :
    Decides (valueIn data buf (valueLength data m) (valueOff data m) (maskOff data m) n i)
      (∃ j, i ≤ j ∧ j < i + n ∧ SameAt data buf m j) := by
  induction n generalizing i with
  | zero => exact .no fun ⟨j, h1, h2, _⟩ => by omega
  | succ n ih =>
    have hadd : add32 i (valueLength data m) = i + valueLength data m :=
      Nat.mod_eq_of_lt (by omega)
    rw [valueIn, hadd]
    split
    · rename_i hgt
      refine .no fun ⟨j, h1, _, hsame⟩ => ?_
      have := hsame.1
      omega
    · rename_i hle
      obtain ⟨b, hb, hiff⟩ := valueAt_spec h (Nat.le_of_not_lt hle)
      rw [hb]
      cases b with
      | true => exact .yes ⟨i, Nat.le_refl i, by omega, hiff.mp rfl⟩
      | false =>
        have hnot : ¬ SameAt data buf m i := fun hs => Bool.false_ne_true (hiff.mpr hs)
        refine Decides.congr (ih (by omega)) ⟨?_, ?_⟩
        · rintro ⟨j, h1, h2, hs⟩
          exact ⟨j, by omega, by omega, hs⟩
        · rintro ⟨j, h1, h2, hs⟩
          rcases Nat.eq_or_lt_of_le h1 with rfl | hlt
          · exact absurd hs hnot
          · exact ⟨j, hlt, by omega, hs⟩

theorem found_spec (h : Inside data m) (hfit : Fits data m) :
    Decides (found data buf m) (Found data buf m) := by
  have hin := h.fields
  have hf : rangeStart data m + rangeLength data m + valueLength data m < 2 ^ 32 := hfit
  unfold matchletSize at hin
  have hadd : add32 (rangeLength data m) (rangeStart data m) - rangeStart data m =
      rangeLength data m := by
    rw [add32, Nat.mod_eq_of_lt (by omega)]
    omega
  have hread : found data buf m = valueIn data buf (valueLength data m) (valueOff data m)
      (maskOff data m) (add32 (rangeLength data m) (rangeStart data m) - rangeStart data m)
      (rangeStart data m) := by
    rw [found, fetch32_ok (by omega), fetch32_ok (by omega), fetch32_ok (by omega),
      fetch32_ok (by omega), fetch32_ok (by omega)]
    rfl
  rw [hread, hadd]
  exact valueIn_spec h hf

/-! ## Matchlets -/

/-- A matchlet matches, by the format of the file. -/
inductive Matches (data buf : List UInt8) : Nat → Prop where
  | leaf {m : Nat} (h : Found data buf m) (hn : nChildren data m = 0) : Matches data buf m
  | node {m i : Nat} (h : Found data buf m) (hi : i < nChildren data m)
      (hc : Matches data buf (child data m i)) : Matches data buf m

/-- The values of a matchlet and of all below it are in the buffer. -/
inductive AllFound (data buf : List UInt8) : Nat → Prop where
  | node {m : Nat} (h : Found data buf m)
      (hc : ∀ i < nChildren data m, AllFound data buf (child data m i)) : AllFound data buf m

theorem AllFound.found (h : AllFound data buf m) : Found data buf m := by
  cases h with
  | node h _ => exact h

theorem AllFound.children (h : AllFound data buf m) (hi : i < nChildren data m) :
    AllFound data buf (child data m i) := by
  cases h with
  | node _ hc => exact hc i hi

theorem AllFound.matches (h : AllFound data buf m) : Matches data buf m := by
  induction h with
  | node h hc ih =>
    rename_i m
    rcases Nat.eq_zero_or_pos (nChildren data m) with hn | hn
    · exact .leaf h hn
    · exact .node h hn (ih 0 hn)

theorem forall_row (Q : Nat → Prop) {s : Nat} :
    (∀ i < n + 1, Q (m + i * s)) ↔ Q m ∧ ∀ i < n, Q (m + s + i * s) := by
  have hnext : ∀ i, m + (i + 1) * s = m + s + i * s := fun i => by
    rw [Nat.add_mul, Nat.one_mul]
    omega
  constructor
  · intro h
    refine ⟨?_, fun i hi => hnext i ▸ h (i + 1) (by omega)⟩
    have h0 := h 0 (Nat.succ_pos n)
    rwa [Nat.zero_mul, Nat.add_zero] at h0
  · rintro ⟨h0, h⟩ i hi
    match i with
    | 0 => rwa [Nat.zero_mul, Nat.add_zero]
    | i + 1 => exact hnext i ▸ h i (by omega)

theorem exists_row (Q : Nat → Prop) {s : Nat} :
    (∃ i < n + 1, Q (m + i * s)) ↔ Q m ∨ ∃ i < n, Q (m + s + i * s) := by
  rw [← not_iff_not]
  push Not
  exact forall_row fun c => ¬ Q c

theorem allMatchlets_spec {test : Nat → Read Bool}
    (h : ∀ i < nel, Decides (test (m + i * matchletSize)) (P (m + i * matchletSize))) :
    Decides (allMatchlets test nel m) (∀ i < nel, P (m + i * matchletSize)) := by
  induction nel generalizing m with
  | zero => exact .yes fun i hi => absurd hi (Nat.not_lt_zero i)
  | succ nel ih =>
    obtain ⟨⟨b, hb, hiff⟩, hrest⟩ := (forall_row fun c => Decides (test c) (P c)).mp h
    rw [allMatchlets, hb]
    refine Decides.congr ?_ (forall_row P).symm
    cases b with
    | false => exact .no fun hall => Bool.false_ne_true (hiff.mpr hall.1)
    | true => exact (ih hrest).congr ⟨fun hall => ⟨hiff.mp rfl, hall⟩, fun hall => hall.2⟩

theorem anyMatchlet_spec {test : Nat → Read Bool}
    (h : ∀ i < nel, Decides (test (m + i * matchletSize)) (P (m + i * matchletSize))) :
    Decides (anyMatchlet test nel m) (∃ i < nel, P (m + i * matchletSize)) := by
  induction nel generalizing m with
  | zero => exact .no fun ⟨i, hi, _⟩ => Nat.not_lt_zero i hi
  | succ nel ih =>
    obtain ⟨⟨b, hb, hiff⟩, hrest⟩ := (forall_row fun c => Decides (test c) (P c)).mp h
    rw [anyMatchlet, hb]
    refine Decides.congr ?_ (exists_row P).symm
    cases b with
    | true => exact .yes (.inl (hiff.mp rfl))
    | false =>
      have hnot : ¬ P m := fun hp => Bool.false_ne_true (hiff.mpr hp)
      exact (ih hrest).congr ⟨.inr, fun hor => hor.resolve_left hnot⟩

/-- `is_matchlet` asks for the values of all matchlets below. -/
theorem isMatchlet_spec (h : WholeAt data d m) (hfit : FitBelow data m) (hfuel : d ≤ fuel) :
    Decides (isMatchlet data buf fuel m) (AllFound data buf m) := by
  induction d generalizing m fuel with
  | zero => exact h.elim
  | succ d ih =>
    obtain ⟨hin, hchildren⟩ := h
    have hfields := hin.fields
    unfold matchletSize at hfields
    match fuel with
    | fuel + 1 =>
      obtain ⟨b, hb, hiff⟩ : Decides (found data buf m) _ := found_spec hin (hfit m .refl)
      rw [isMatchlet, hb]
      cases b with
      | false => exact .no fun hall => Bool.false_ne_true (hiff.mpr hall.found)
      | true =>
        show Decides (fetch32 data (m + 24) >>= _) _
        rw [fetch32_ok (by omega)]
        show Decides (if nChildren data m = 0 then _ else _) _
        split
        · rename_i hn
          refine .yes (.node (hiff.mp rfl) fun i hi => ?_)
          exact absurd hi (by omega)
        · rw [fetch32_ok (by omega)]
          have hall : ∀ i < nChildren data m, Decides (isMatchlet data buf fuel (child data m i))
              (AllFound data buf (child data m i)) := fun i hi =>
            ih (hchildren i hi) (hfit.of_child hi) (by omega)
          exact Decides.congr (allMatchlets_spec hall)
            ⟨fun hall => .node (hiff.mp rfl) hall, fun hall i hi => hall.children hi⟩

/-! ## Rules -/

def priority (data : List UInt8) (r : Nat) : Nat := field data r

def typeOff (data : List UInt8) (r : Nat) : Nat := field data (r + 4)

def nMatchlets (data : List UInt8) (r : Nat) : Nat := field data (r + 8)

/-- The matchlet `j` of a rule. -/
def matchlet (data : List UInt8) (r j : Nat) : Nat := field data (r + 12) + j * matchletSize

def nMatches (db : EdMime) : Nat := field db.data db.magicList

/-- The rule `i`. -/
def rule (db : EdMime) (i : Nat) : Nat := field db.data (db.magicList + 8) + i * matchSize

/-- A rule and its matchlets are inside of the file. -/
structure RuleOk (data : List UInt8) (d r : Nat) : Prop where
  inside : r + matchSize ≤ data.length
  matchlets : ∀ j < nMatchlets data r, WholeAt data d (matchlet data r j)

/-- The rules are inside of the file, and their matchlets are nested `d` levels deep at most. -/
structure MagicOk (db : EdMime) (d : Nat) : Prop where
  inside : db.magicList + 12 ≤ db.data.length
  rules : ∀ i < nMatches db, RuleOk db.data d (rule db i)

instance (data : List UInt8) (d r : Nat) : Decidable (RuleOk data d r) :=
  decidable_of_iff (r + matchSize ≤ data.length ∧
      ∀ j < nMatchlets data r, WholeAt data d (matchlet data r j))
    ⟨fun h => ⟨h.1, h.2⟩, fun h => ⟨h.inside, h.matchlets⟩⟩

instance (db : EdMime) (d : Nat) : Decidable (MagicOk db d) :=
  decidable_of_iff (db.magicList + 12 ≤ db.data.length ∧
      ∀ i < nMatches db, RuleOk db.data d (rule db i))
    ⟨fun h => ⟨h.1, h.2⟩, fun h => ⟨h.inside, h.rules⟩⟩

/-- All matchlets of all rules fit. -/
def MagicFits (db : EdMime) : Prop :=
  ∀ i < nMatches db, ∀ j < nMatchlets db.data (rule db i),
    FitBelow db.data (matchlet db.data (rule db i) j)

theorem magicFits_of_list (l : List Nat)
    (htop : ∀ i < nMatches db, ∀ j < nMatchlets db.data (rule db i),
      matchlet db.data (rule db i) j ∈ l)
    (hclosed : ∀ c ∈ l, ∀ i < nChildren db.data c, child db.data c i ∈ l)
    (hfit : ∀ c ∈ l, Fits db.data c) : MagicFits db := by
  intro i hi j hj c hc
  have hmem : c ∈ l := by
    induction hc with
    | refl => exact htop i hi j hj
    | step _ hk ih => exact hclosed _ ih _ hk
  exact hfit c hmem

/-- A rule matches, by the format of the file. -/
def RuleMatches (data buf : List UInt8) (r : Nat) : Prop :=
  ∃ j < nMatchlets data r, Matches data buf (matchlet data r j)

/-- One of the matchlets of a rule has all its values in the buffer. -/
def RuleFound (data buf : List UInt8) (r : Nat) : Prop :=
  ∃ j < nMatchlets data r, AllFound data buf (matchlet data r j)

theorem RuleFound.matches {r : Nat} (h : RuleFound data buf r) : RuleMatches data buf r := by
  obtain ⟨j, hj, hall⟩ := h
  exact ⟨j, hj, hall.matches⟩

theorem isMatch_spec {r : Nat} (h : RuleOk data d r)
    (hfit : ∀ j < nMatchlets data r, FitBelow data (matchlet data r j)) (hfuel : d ≤ fuel) :
    Decides (isMatch data buf fuel r) (RuleFound data buf r) := by
  have hin := h.inside
  unfold matchSize at hin
  have hall : ∀ j < nMatchlets data r, Decides (isMatchlet data buf fuel (matchlet data r j))
      (AllFound data buf (matchlet data r j)) := fun j hj =>
    isMatchlet_spec (h.matchlets j hj) (hfit j hj) hfuel
  rw [isMatch, fetch32_ok (by omega), fetch32_ok (by omega)]
  exact anyMatchlet_spec hall

/-! ## The rule of the highest priority -/

/-- The first of the first `n` rules that has the highest priority of those that match. -/
structure Best (n : Nat) (P : Nat → Prop) (pri : Nat → Nat) (i : Nat) : Prop where
  lt : i < n
  hit : P i
  pos : 0 < pri i
  top : ∀ j < n, P j → pri j ≤ pri i
  first : ∀ j < i, P j → pri j < pri i

/-- The rule that is taken, if there is one. -/
def BestOf (n : Nat) (P : Nat → Prop) (pri : Nat → Nat) : Option Nat → Prop
  | some i => Best n P pri i
  | none => ∀ j < n, P j → pri j = 0

/-- What `max` and the rule taken are after `n` rules. -/
def Taken (n : Nat) (P : Nat → Prop) (pri : Nat → Nat) (max : Nat) (best : Option Nat) : Prop :=
  BestOf n P pri best ∧ max = (best.map pri).getD 0

section Taken

variable {n max : Nat} {P : Nat → Prop} {pri : Nat → Nat} {best : Option Nat}

theorem Taken.le (h : Taken n P pri max best) {j : Nat} (hj : j < n) (hp : P j) : pri j ≤ max := by
  obtain ⟨hbest, rfl⟩ := h
  match best, hbest with
  | some i, hbest => exact hbest.top j hj hp
  | none, hbest => exact Nat.le_of_eq (hbest j hj hp)

theorem Taken.next (h : Taken n P pri max best) (hp : P n) (hgt : max < pri n) :
    Taken (n + 1) P pri (pri n) (some n) := by
  refine ⟨⟨Nat.lt_succ_self n, hp, by omega, fun j hj hpj => ?_, fun j hj hpj => ?_⟩, rfl⟩
  · rcases Nat.eq_or_lt_of_le (Nat.le_of_lt_succ hj) with rfl | hlt
    · exact Nat.le_refl _
    · exact Nat.le_trans (h.le hlt hpj) (Nat.le_of_lt hgt)
  · exact Nat.lt_of_le_of_lt (h.le hj hpj) hgt

theorem Taken.stay (h : Taken n P pri max best) (hle : P n → pri n ≤ max) :
    Taken (n + 1) P pri max best := by
  obtain ⟨hbest, rfl⟩ := h
  refine ⟨?_, rfl⟩
  match best, hbest with
  | some i, hbest =>
    refine ⟨Nat.lt_succ_of_lt hbest.lt, hbest.hit, hbest.pos, fun j hj hpj => ?_, hbest.first⟩
    rcases Nat.eq_or_lt_of_le (Nat.le_of_lt_succ hj) with rfl | hlt
    · exact hle hpj
    · exact hbest.top j hlt hpj
  | none, hbest =>
    intro j hj hpj
    rcases Nat.eq_or_lt_of_le (Nat.le_of_lt_succ hj) with rfl | hlt
    · exact Nat.le_zero.mp (hle hpj)
    · exact hbest j hlt hpj

end Taken

/-- The loop takes the first rule of the highest priority. -/
theorem typeLoop_spec {max : Nat} {best : Option Nat}
    (hin : ∀ i < n + nel, rule db i + matchSize ≤ db.data.length)
    (hmatch : ∀ i < n + nel, Decides (isMatch db.data buf fuel (rule db i)) (P i))
    (h : Taken n P (fun i => priority db.data (rule db i)) max best) :
    ∃ max' best', Taken (n + nel) P (fun i => priority db.data (rule db i)) max' best' ∧
      typeLoop db.data buf fuel nel (rule db n) max (best.map fun i => typeOff db.data (rule db i)) =
        .ok (best'.map fun i => typeOff db.data (rule db i)) := by
  induction nel generalizing n max best with
  | zero => exact ⟨max, best, h, rfl⟩
  | succ nel ih =>
    have hnext : rule db n + matchSize = rule db (n + 1) := by
      rw [rule, rule, Nat.add_mul, Nat.one_mul, Nat.add_assoc]
    have hsum : n + (nel + 1) = n + 1 + nel := by omega
    have hlen := hin n (by omega)
    unfold matchSize at hlen
    rw [hsum] at hin hmatch ⊢
    obtain ⟨b, hb, hiff⟩ := hmatch n (by omega)
    obtain ⟨p, htest, hp⟩ : ∃ p, edMimeTestMatch db.data buf fuel (rule db n) = .ok p ∧
        p = if b then priority db.data (rule db n) else 0 := by
      rw [edMimeTestMatch, hb]
      cases b with
      | true => exact ⟨_, fetch32_ok (by omega), rfl⟩
      | false => exact ⟨0, rfl, rfl⟩
    rw [typeLoop, htest]
    show ∃ max' best', _ ∧ (if p > max then _ else _) = _
    by_cases hgt : p > max
    · -- the rule matches, with a higher priority
      have hbt : b = true := by
        by_contra hbf
        rw [if_neg hbf] at hp
        omega
      rw [if_pos hbt] at hp
      subst hp
      rw [if_pos hgt, fetch32_ok (by omega), hnext]
      exact ih hin hmatch (h.next (hiff.mp hbt) hgt)
    · rw [if_neg hgt, hnext]
      refine ih hin hmatch (h.stay fun hpn => ?_)
      rw [if_pos (hiff.mpr hpn)] at hp
      exact hp ▸ Nat.le_of_not_lt hgt

theorem edMimeType_eq (hbuf : buf ≠ []) (hin : db.magicList + 12 ≤ db.data.length) :
    edMimeType db buf false fuel =
      (typeLoop db.data buf fuel (nMatches db) (rule db 0) 0 none).map (Option.map .inDb) := by
  have hlen : buf.length ≠ 0 := fun h => hbuf (length_eq_zero_iff.mp h)
  have hfirst : rule db 0 = field db.data (db.magicList + 8) := by rw [rule, Nat.zero_mul, Nat.add_zero]
  rw [edMimeType, if_neg hlen, fetch32_ok (by omega), fetch32_ok (by omega), hfirst]
  show (typeLoop db.data buf fuel (nMatches db) (field db.data (db.magicList + 8)) 0 none >>= _) = _
  cases typeLoop db.data buf fuel (nMatches db) (field db.data (db.magicList + 8)) 0 none with
  | error e => rfl
  | ok mime => cases mime <;> rfl

/-- `ed_mime_type` returns the type of the first rule of the highest priority of those for which
`is_match` answers `P`. -/
theorem edMimeType_spec (h : MagicOk db d) (hbuf : buf ≠ [])
    (hmatch : ∀ i < nMatches db, Decides (isMatch db.data buf fuel (rule db i)) (P i)) :
    ∃ best, BestOf (nMatches db) P (fun i => priority db.data (rule db i)) best ∧
      edMimeType db buf false fuel =
        .ok (best.map fun i => .inDb (typeOff db.data (rule db i))) := by
  have hnone : Taken 0 P (fun i => priority db.data (rule db i)) 0 none :=
    ⟨fun j hj => absurd hj (Nat.not_lt_zero j), rfl⟩
  have hrules : ∀ i < 0 + nMatches db, rule db i + matchSize ≤ db.data.length := fun i hi =>
    (h.rules i (by omega)).inside
  obtain ⟨max, best, ⟨hbest, -⟩, hloop⟩ :=
    typeLoop_spec hrules (fun i hi => hmatch i (by omega)) hnone
  rw [Nat.zero_add] at hbest
  rw [Option.map_none] at hloop
  refine ⟨best, hbest, ?_⟩
  rw [edMimeType_eq hbuf h.inside, hloop]
  cases best <;> rfl

/-! ## The format -/

/-- The functions follow the format of the file. -/
def MagicCorrect (db : EdMime) (buf : List UInt8) (fuel : Nat) : Prop :=
  (∀ i < nMatches db, Decides (isMatch db.data buf fuel (rule db i))
    (RuleMatches db.data buf (rule db i))) ∧
  ∃ best, BestOf (nMatches db) (fun i => RuleMatches db.data buf (rule db i))
      (fun i => priority db.data (rule db i)) best ∧
    edMimeType db buf false fuel = .ok (best.map fun i => .inDb (typeOff db.data (rule db i)))

/-- For every well-formed section (its parts are inside of the file, the matchlets are not nested endlessly,
and the end of each one's range fits in the 32 bits of an extent) and every buffer: the functions follow
the format exactly when the buffer is not empty and each rule that matches by the format has a matchlet
with all values of it and below it in the buffer. -/
theorem magic_correct_iff (db : EdMime) (d : Nat) (h : MagicOk db d) (hfit : MagicFits db)
    (buf : List UInt8) (fuel : Nat) (hfuel : d ≤ fuel) :
    MagicCorrect db buf fuel ↔ buf ≠ [] ∧ ∀ i < nMatches db,
      RuleMatches db.data buf (rule db i) → RuleFound db.data buf (rule db i) := by
  have hcode : ∀ i < nMatches db, Decides (isMatch db.data buf fuel (rule db i))
      (RuleFound db.data buf (rule db i)) := fun i hi =>
    isMatch_spec (h.rules i hi) (hfit i hi) hfuel
  constructor
  · rintro ⟨hmatch, best, -, htype⟩
    refine ⟨?_, fun i hi hr => ?_⟩
    · rintro rfl
      rw [edMimeType, if_pos length_nil] at htype
      cases htype
    · obtain ⟨b, hb, hiff⟩ := hmatch i hi
      obtain ⟨b', hb', hiff'⟩ := hcode i hi
      obtain rfl : b = b' := Except.ok.inj (hb.symm.trans hb')
      exact hiff'.mp (hiff.mpr hr)
  · rintro ⟨hbuf, hrules⟩
    have hmatch : ∀ i < nMatches db, Decides (isMatch db.data buf fuel (rule db i))
        (RuleMatches db.data buf (rule db i)) := fun i hi =>
      (hcode i hi).congr ⟨RuleFound.matches, hrules i hi⟩
    exact ⟨hmatch, edMimeType_spec h hbuf hmatch⟩

/-- A rule with one matchlet, for the byte 41, and two children, for the bytes 42 and `c` behind it. -/
def pairDb (c : UInt8) : EdMime where
  data := words [1, 3, 12, 50, 127, 1, 28, 0, 1, 1, 1, 124, 0, 2, 60, 1, 1, 1, 1, 125, 0, 0, 0,
    1, 1, 1, 1, 126, 0, 0, 0] ++ [0x41, 0x42, c, 0x78, 0]
  maxExtent := 3
  aliasList := 0
  parentList := 0
  magicList := 0

/-- Both children match. -/
theorem magic_correct_both : MagicCorrect (pairDb 0x42) [0x41, 0x42] 2 := by
  have hok : MagicOk (pairDb 0x42) 2 := by decide +kernel
  have hfits : MagicFits (pairDb 0x42) :=
    magicFits_of_list [28, 60, 92] (by decide +kernel) (by decide +kernel) (by decide +kernel)
  refine (magic_correct_iff _ 2 hok hfits _ 2 (Nat.le_refl 2)).mpr ⟨by decide, fun i hi _ => ?_⟩
  obtain rfl : i = 0 := Nat.lt_one_iff.mp hi
  have hleaf : ∀ k, nChildren (pairDb 0x42).data k = 0 → Found (pairDb 0x42).data [0x41, 0x42] k →
      AllFound (pairDb 0x42).data [0x41, 0x42] k := fun k hk hf =>
    .node hf fun i hi => absurd hi (by omega)
  refine ⟨0, by decide +kernel, .node ⟨0, by decide +kernel⟩ fun i hi => ?_⟩
  have hi2 : i < 2 := hi
  match i with
  | 0 => exact hleaf _ (by decide +kernel) ⟨1, by decide +kernel⟩
  | 1 => exact hleaf _ (by decide +kernel) ⟨1, by decide +kernel⟩

/-- One of the children matches, the other does not: the rule matches by the format, but not for the
functions. -/
theorem magic_one_child : MagicOk (pairDb 0x43) 2 ∧ MagicFits (pairDb 0x43) ∧
    RuleMatches (pairDb 0x43).data [0x41, 0x42] (rule (pairDb 0x43) 0) ∧
    isMatch (pairDb 0x43).data [0x41, 0x42] 2 (rule (pairDb 0x43) 0) = .ok false ∧
    edMimeType (pairDb 0x43) [0x41, 0x42] false 2 = .ok none := by
  refine ⟨by decide +kernel, magicFits_of_list [28, 60, 92] (by decide +kernel) (by decide +kernel)
    (by decide +kernel), ?_, by decide +kernel, by decide +kernel⟩
  refine ⟨0, by decide +kernel, ?_⟩
  have hchild : (0 : Nat) < nChildren (pairDb 0x43).data 28 := by decide +kernel
  exact .node (i := 0) ⟨0, by decide +kernel⟩ hchild (.leaf ⟨1, by decide +kernel⟩ (by decide +kernel))

end Eddy.Mime
