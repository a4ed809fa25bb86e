import Eddy.Mime.Cache

/-!
# Eddy — the searches of the mime database

`ed_mime_alias` and `ed_mime_parents` search lists that are sorted by `strcmp`.
-/

namespace Eddy.Mime

open Halving List

variable {data q s : List UInt8} {off list : Nat} {l : List (List UInt8 × Nat)}

/-! ## Strings -/

/-- A string of the file. -/
structure CStr (data : List UInt8) (off : Nat) (s : List UInt8) : Prop where
  nonzero : 0 ∉ s
  bytes : s ++ [0] <+: data.drop off

instance (data : List UInt8) (off : Nat) (s : List UInt8) : Decidable (CStr data off s) :=
  decidable_of_iff (0 ∉ s ∧ s ++ [0] <+: data.drop off) ⟨fun h => ⟨h.1, h.2⟩, fun h => ⟨h.1, h.2⟩⟩

/-- What `strcmp` returns. -/
def strOrder : List UInt8 → List UInt8 → Int
  | [], [] => 0
  | [], c :: _ => 0 - c.toNat
  | q :: _, [] => q.toNat
  | q :: qs, c :: cs => if q = c then strOrder qs cs else q.toNat - c.toNat

theorem toNat_ne_zero {c : UInt8} (h : 0 ∉ c :: s) : c.toNat ≠ 0 := by
  intro hc
  apply h
  rw [UInt8.toNat_inj.mp (show c.toNat = (0 : UInt8).toNat from hc)]
  exact mem_cons_self

theorem strOrder_eq_zero (hq : 0 ∉ q) (hs : 0 ∉ s) : strOrder q s = 0 ↔ q = s := by
  induction q generalizing s with
  | nil =>
    cases s with
    | nil => simp [strOrder]
    | cons c s =>
      have hc := toNat_ne_zero hs
      simp only [strOrder]
      exact iff_of_false (by omega) (by simp)
  | cons x q ih =>
    have hx := toNat_ne_zero hq
    cases s with
    | nil =>
      simp only [strOrder]
      exact iff_of_false (by omega) (by simp)
    | cons c s =>
      rw [strOrder]
      rw [mem_cons, not_or] at hq hs
      split
      · rename_i heq
        rw [ih hq.2 hs.2, heq, List.cons.injEq]
        exact ⟨fun h => ⟨rfl, h⟩, fun h => h.2⟩
      · rename_i hne
        rw [← UInt8.toNat_inj] at hne
        exact iff_of_false (by omega) fun h => hne (by rw [(List.cons.inj h).1])

theorem strOrder_trans {t : List UInt8} (hq : 0 ∉ q) (hs : 0 ∉ s) (ht : 0 ∉ t) (h1 : strOrder q s ≤ 0)
    (h2 : strOrder s t < 0) : strOrder q t < 0 := by
  induction q generalizing s t with
  | nil =>
    cases t with
    | nil =>
      cases s <;> simp only [strOrder] at h2 <;> omega
    | cons c t =>
      have hc := toNat_ne_zero ht
      simp only [strOrder]
      omega
  | cons x q ih =>
    cases s with
    | nil =>
      have hx := toNat_ne_zero hq
      simp only [strOrder] at h1
      omega
    | cons c s =>
      cases t with
      | nil =>
        simp only [strOrder] at h2
        omega
      | cons d t =>
        rw [mem_cons, not_or] at hq hs ht
        rw [strOrder] at h1 h2 ⊢
        simp only [← UInt8.toNat_inj] at h1 h2 ⊢
        split at h1
        · split at h2
          · rw [if_pos (by omega)]
            exact ih hq.2 hs.2 ht.2 h1 h2
          · rw [if_neg (by omega)]
            omega
        · split at h2
          · rw [if_neg (by omega)]
            omega
          · rw [if_neg (by omega)]
            omega

theorem CStr.head {c : UInt8} (h : CStr data off (c :: s)) :
    byteAt data off = .ok c ∧ CStr data (off + 1) s := by
  obtain ⟨h0, t, ht⟩ := h
  rw [mem_cons, not_or] at h0
  have hdrop : data.drop (off + 1) = s ++ [0] ++ t := by
    rw [← drop_drop, ← ht]
    rfl
  refine ⟨byteAt_ok ?_, h0.2, t, hdrop.symm⟩
  rw [← List.head?_drop, ← ht]
  rfl

theorem CStr.last (h : CStr data off []) : byteAt data off = .ok 0 := by
  obtain ⟨-, t, ht⟩ := h
  refine byteAt_ok ?_
  rw [← List.head?_drop, ← ht]
  rfl

theorem strcmp_spec (hq : 0 ∉ q) (h : CStr data off s) : strcmp data q off = .ok (strOrder q s) := by
  induction q generalizing off s with
  | nil =>
    cases s with
    | nil =>
      rw [strcmp, h.last]
      rfl
    | cons c s =>
      rw [strcmp, h.head.1]
      rfl
  | cons x q ih =>
    have hx := toNat_ne_zero hq
    rw [mem_cons, not_or] at hq
    cases s with
    | nil =>
      rw [strcmp, h.last]
      show (if x = 0 then _ else _) = _
      rw [if_neg fun h => hq.1 h.symm]
      simp [strOrder]
    | cons c s =>
      rw [strcmp, h.head.1]
      show (if x = c then _ else _) = _
      rw [strOrder, ih hq.2 h.head.2]
      split <;> rfl

/-! ## Lists -/

/-- The file has a list of names, with a number for each. -/
structure Table (data : List UInt8) (list : Nat) (l : List (List UInt8 × Nat)) : Prop where
  inside : list + 4 + l.length * entrySize ≤ data.length
  count : field data list = l.length
  name : ∀ i (h : i < l.length), CStr data (field data (list + 4 + i * entrySize)) l[i].1
  number : ∀ i (h : i < l.length), field data (list + 4 + i * entrySize + 4) = l[i].2

/-- The names are strictly sorted by `strcmp`. -/
def Sorted {β : Type} (l : List (List UInt8 × β)) : Prop :=
  (l.map Prod.fst).Pairwise fun a b => strOrder a b < 0

theorem cmpEntry_spec (h : Table data list l) (hq : 0 ∉ q) {i : Nat} (hi : i < l.length) :
    cmpEntry data list q i = .ok (strOrder q l[i].1) := by
  have hin := h.inside
  unfold entrySize at hin
  rw [cmpEntry, fetch32_ok (by unfold entrySize; omega)]
  exact strcmp_spec hq (h.name i hi)

/-- The search finds the entry of a name. -/
theorem search_cases (h : Table data list l) (hl : Sorted l) (hq : 0 ∉ q) :
    (halve (cmpEntry data list q) 0 l.length = .ok none ∧ l.lookup q = none) ∨
      ∃ i, ∃ hi : i < l.length, halve (cmpEntry data list q) 0 l.length = .ok (some i) ∧
        l.lookup q = some l[i].2 := by
  -- what the comparison with the entry `i` returns
  obtain ⟨c, hc⟩ : ∃ c : Nat → Int, ∀ i (hi : i < l.length), c i = strOrder q l[i].1 :=
    ⟨fun i => if hi : i < l.length then strOrder q l[i].1 else 0, fun i hi => dif_pos hi⟩
  have hname : ∀ i (hi : i < l.length), 0 ∉ l[i].1 := fun i hi => (h.name i hi).nonzero
  have hzero : ∀ i (hi : i < l.length), c i = 0 ↔ q = l[i].1 := fun i hi => by
    rw [hc i hi, strOrder_eq_zero hq (hname i hi)]
  have hcmp : ∀ i, 0 ≤ i → i < 0 + l.length → cmpEntry data list q i = .ok (c i) := by
    intro i _ hi
    rw [hc i (by omega), cmpEntry_spec h hq]
  have hsorted : Descending c 0 l.length := by
    intro i j _ hij hj hle
    have hi' : i < l.length := by omega
    have hj' : j < l.length := by omega
    rw [hc i hi'] at hle
    rw [hc j hj']
    have hlt := pairwise_iff_getElem.mp (pairwise_map.mp hl) i j hi' hj' hij
    exact strOrder_trans hq (hname i hi') (hname j hj') hle hlt
  rcases halve_cases hcmp with ⟨hnone, hno⟩ | ⟨i, -, hi, hzi, hsome⟩
  · refine .inl ⟨hnone, lookup_eq_none_iff.mpr fun p hp => ?_⟩
    obtain ⟨i, hi, rfl⟩ := mem_iff_getElem.mp hp
    have hne := hno hsorted i (Nat.zero_le i) (by omega)
    rw [ne_eq, hzero i hi] at hne
    simpa using hne
  · have hi' : i < l.length := by omega
    refine .inr ⟨i, hi', hsome, lookup_eq_some_iff.mpr ⟨l.take i, l.drop (i + 1), ?_, ?_⟩⟩
    · rw [(hzero i hi').mp hzi]
      exact (take_append_drop i l).symm.trans (by rw [drop_eq_getElem_cons hi'])
    · -- an entry before is smaller
      intro p hp
      obtain ⟨j, hj, rfl⟩ := mem_iff_getElem.mp hp
      rw [length_take] at hj
      have hj' : j < l.length := by omega
      rw [getElem_take]
      have hne : c j ≠ 0 := by
        intro hzj
        have := hsorted j i (Nat.zero_le j) (by omega) hi (by omega)
        omega
      rw [ne_eq, hzero j hj'] at hne
      simpa using hne

/-! ## Aliases and parents -/

/-- The file has the list of aliases: for each name the offset of its type. -/
def AliasList (db : EdMime) (l : List (List UInt8 × Nat)) : Prop := Table db.data db.aliasList l

/-- The file has the offsets of parents at `off`. -/
structure Parents (data : List UInt8) (off : Nat) (par : List Nat) : Prop where
  inside : off + 4 + par.length * 4 ≤ data.length
  count : field data off = par.length
  offset : ∀ i (h : i < par.length), field data (off + 4 + i * 4) = par[i]

/-- The file has the list of parents: for each name the offsets of its parents. -/
def ParentList (db : EdMime) (l : List (List UInt8 × List Nat)) : Prop :=
  ∃ t, Table db.data db.parentList t ∧
    List.Forall₂ (fun a b => a.1 = b.1 ∧ Parents db.data a.2 b.2) t l

theorem parentOffsets_spec {par : List Nat} {n : Nat} (hin : off + par.length * 4 ≤ data.length)
    (hoff : ∀ i (h : i < par.length), field data (off + i * 4) = par[i]) (hn : n ≤ par.length) :
    parentOffsets data n off = .ok (par.take n) := by
  induction n generalizing off par with
  | zero => rfl
  | succ n ih =>
    match par with
    | p :: par =>
      rw [length_cons] at hin hn
      have hhead : field data off = p := hoff 0 (by simp)
      have hnext : ∀ i (h : i < par.length), field data (off + 4 + i * 4) = par[i] := by
        intro i hi
        have hi' := hoff (i + 1) (by simpa using hi)
        rw [getElem_cons_succ] at hi'
        rw [← hi']
        congr 1
        omega
      rw [parentOffsets, fetch32_ok (by omega), hhead]
      show (parentOffsets data n (off + 4) >>= _) = _
      rw [ih (by omega) hnext (by omega)]
      rfl

theorem edMimeAlias_spec {db : EdMime} (h : AliasList db l) (hl : Sorted l) (hq : 0 ∉ q) :
    edMimeAlias db q = .ok (l.lookup q) := by
  have hin := h.inside
  unfold entrySize at hin
  have hcount : fetch32 db.data db.aliasList = .ok l.length := by
    rw [fetch32_ok (by omega), h.count]
  rw [edMimeAlias, hcount]
  show (halve (cmpEntry db.data db.aliasList q) 0 l.length >>= _) = _
  rcases search_cases h hl hq with ⟨hnone, hno⟩ | ⟨i, hi, hsome, hval⟩
  · rw [hnone, hno]
    rfl
  · have hoff : fetch32 db.data (db.aliasList + 4 + i * entrySize + 4) = .ok l[i].2 := by
      rw [fetch32_ok (by unfold entrySize; omega), h.number i hi]
    rw [hsome, hval]
    show (fetch32 db.data (db.aliasList + 4 + i * entrySize + 4) >>= _) = _
    rw [hoff]
    rfl

theorem map_fst_eq {t : List (List UInt8 × Nat)} {l : List (List UInt8 × List Nat)}
    (h : List.Forall₂ (fun a b => a.1 = b.1 ∧ Parents data a.2 b.2) t l) :
    t.map Prod.fst = l.map Prod.fst := by
  induction h with
  | nil => rfl
  | cons hab _ ih => rw [map_cons, map_cons, hab.1, ih]

theorem lookup_parents {t : List (List UInt8 × Nat)} {l : List (List UInt8 × List Nat)}
    (h : List.Forall₂ (fun a b => a.1 = b.1 ∧ Parents data a.2 b.2) t l) (q : List UInt8) :
    (t.lookup q = none ∧ l.lookup q = none) ∨
      ∃ off par, t.lookup q = some off ∧ l.lookup q = some par ∧ Parents data off par := by
  induction h with
  | nil => exact .inl ⟨rfl, rfl⟩
  | cons hab _ ih =>
    rename_i a b t l _
    obtain ⟨name, off⟩ := a
    obtain ⟨name', par⟩ := b
    obtain ⟨rfl, hpar⟩ : name = name' ∧ Parents data off par := hab
    rw [lookup_cons, lookup_cons]
    split
    · exact .inr ⟨off, par, rfl, rfl, hpar⟩
    · exact ih

theorem edMimeParents_spec {db : EdMime} {l : List (List UInt8 × List Nat)} (h : ParentList db l)
    (hl : Sorted l) (hq : 0 ∉ q) (n : Nat) :
    edMimeParents db q n = .ok (((l.lookup q).getD []).take n) := by
  obtain ⟨t, ht, hpar⟩ := h
  have hsorted : Sorted t := by
    unfold Sorted
    rw [map_fst_eq hpar]
    exact hl
  have hin := ht.inside
  unfold entrySize at hin
  have hcount : fetch32 db.data db.parentList = .ok t.length := by
    rw [fetch32_ok (by omega), ht.count]
  rw [edMimeParents, hcount]
  show (halve (cmpEntry db.data db.parentList q) 0 t.length >>= _) = _
  rcases search_cases ht hsorted hq with ⟨hnone, hno⟩ | ⟨i, hi, hsome, hval⟩
  · have hl : l.lookup q = none := by
      rcases lookup_parents hpar q with ⟨-, h⟩ | ⟨off, par, h, -⟩
      · exact h
      · rw [hno] at h
        cases h
    rw [hnone, hl, Option.getD_none, take_nil]
    rfl
  · obtain ⟨par, hl, hp⟩ : ∃ par, l.lookup q = some par ∧ Parents db.data t[i].2 par := by
      rcases lookup_parents hpar q with ⟨h, -⟩ | ⟨off, par, h, hl, hp⟩
      · rw [hval] at h
        cases h
      · rw [hval] at h
        exact ⟨par, hl, Option.some.inj h ▸ hp⟩
    have hpin := hp.inside
    have hoff : fetch32 db.data (db.parentList + 4 + i * entrySize + 4) = .ok t[i].2 := by
      rw [fetch32_ok (by unfold entrySize; omega), ht.number i hi]
    have hnpar : fetch32 db.data t[i].2 = .ok par.length := by
      rw [fetch32_ok (by omega), hp.count]
    have hwrite : parentOffsets db.data (if par.length < n then par.length else n) (t[i].2 + 4) =
        .ok (par.take (if par.length < n then par.length else n)) :=
      parentOffsets_spec hpin hp.offset (by split <;> omega)
    have htake : par.take (if par.length < n then par.length else n) = par.take n := by
      split
      · rw [take_length, take_of_length_le (by omega)]
      · rfl
    rw [hsome, hl, Option.getD_some]
    show (fetch32 db.data (db.parentList + 4 + i * entrySize + 4) >>= _) = _
    rw [hoff]
    show (fetch32 db.data t[i].2 >>= _) = _
    rw [hnpar]
    exact hwrite.trans (congrArg _ htake)

/-- For every pair of sorted lists: the type of a name of the list of aliases, and the name itself for
other names; the first parents of a name of the other list, and none for other names. -/
theorem alias_parents_spec (db : EdMime) (aliases : List (List UInt8 × Nat))
    (parents : List (List UInt8 × List Nat)) (ha : AliasList db aliases) (hp : ParentList db parents)
    (hsa : Sorted aliases) (hsp : Sorted parents) (mime : List UInt8) (hmime : 0 ∉ mime) (n : Nat) :
    edMimeAlias db mime = .ok (aliases.lookup mime) ∧
      edMimeParents db mime n = .ok (((parents.lookup mime).getD []).take n) :=
  ⟨edMimeAlias_spec ha hsa hmime, edMimeParents_spec hp hsp hmime n⟩

/-- A file with the aliases `a`, `c` and `e` of the types `b`, `d` and `f`, the parents of these types, and
a rule for the byte 41. -/
def tinyFile : List UInt8 :=
  [0, 1, 0, 2] ++ words [40, 68, 40, 40, 40, 124, 40, 40, 200, 3, 184, 186, 188, 190, 192, 194,
    3, 186, 96, 190, 104, 194, 116, 1, 190, 2, 186, 194, 1, 190, 1, 2, 136, 50, 186, 1, 152,
    0, 1, 1, 1, 196, 0, 0, 0] ++ [97, 0, 98, 0, 99, 0, 100, 0, 101, 0, 102, 0, 0x41, 0, 0, 0] ++
    words [0]

/-- The handle of this file. -/
def tinyDb : EdMime where
  data := tinyFile
  maxExtent := 2
  aliasList := 40
  parentList := 68
  magicList := 124

theorem tinyDb_alias : AliasList tinyDb [([97], 186), ([99], 190), ([101], 194)] :=
  ⟨by decide +kernel, by decide +kernel, by decide +kernel, by decide +kernel⟩

theorem tinyDb_parents : ParentList tinyDb [([98], [190]), ([100], [186, 194]), ([102], [190])] := by
  refine ⟨[([98], 96), ([100], 104), ([102], 116)], ⟨by decide +kernel, by decide +kernel,
    by decide +kernel, by decide +kernel⟩, ?_⟩
  refine .cons ⟨rfl, ?_⟩ (.cons ⟨rfl, ?_⟩ (.cons ⟨rfl, ?_⟩ .nil)) <;>
  exact ⟨by decide +kernel, by decide +kernel, by decide +kernel⟩

theorem alias_parents_tiny :
    edMimeAlias tinyDb [99] = .ok (some 190) ∧ edMimeParents tinyDb [100] 3 = .ok [186, 194] ∧
      edMimeAlias tinyDb [100] = .ok none ∧ edMimeParents tinyDb [99] 3 = .ok [] := by
  have h := fun mime hmime => alias_parents_spec tinyDb _ _ tinyDb_alias tinyDb_parents
    (by unfold Sorted; decide) (by unfold Sorted; decide) mime hmime 3
  exact ⟨(h [99] (by decide)).1, (h [100] (by decide)).2, (h [100] (by decide)).1,
    (h [99] (by decide)).2⟩

end Eddy.Mime
