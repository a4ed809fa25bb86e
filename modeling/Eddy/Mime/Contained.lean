import Eddy.Mime.Extent
import Eddy.Mime.Search

/-!
# Eddy — reads outside of the mime database

The file of the database may hold any offsets and counts. `ed_mime_load` compares some of them with the
size of the file, but not all that it follows itself, and few of those that the other functions follow.
A matchlet may be among its own children, too, and the check of the extent never ends then.
-/

namespace Eddy.Mime

open Halving

variable {data buf mime : List UInt8} {m fuel d list off : Nat} {db : EdMime}

/-- No read outside, and no endless recursion. -/
def Contained {α : Type} (r : Read α) : Prop := r ≠ .error .wild ∧ r ≠ .error .deep

/-- A result. -/
def Returns {α : Type} (r : Read α) : Prop := ∃ a, r = .ok a

section Returns

variable {α β : Type}

theorem returns_ok (a : α) : Returns (.ok a) := ⟨a, rfl⟩

theorem Returns.bind {x : Read α} {f : α → Read β} (hx : Returns x)
    (hf : ∀ a, x = .ok a → Returns (f a)) : Returns (x >>= f) := by
  obtain ⟨a, rfl⟩ := hx
  exact hf a rfl

theorem Returns.ite {c : Prop} [Decidable c] {x y : Read α} (hx : c → Returns x) (hy : ¬ c → Returns y) :
    Returns (if c then x else y) := by
  split
  · exact hx (by assumption)
  · exact hy (by assumption)

theorem Returns.contained {r : Read α} (h : Returns r) : Contained r := by
  obtain ⟨a, rfl⟩ := h
  constructor <;> (intro h; cases h)

end Returns

theorem returns_fetch32 (h : off + 4 ≤ data.length) : Returns (fetch32 data off) :=
  ⟨_, fetch32_ok h⟩

/-! ## The condition -/

/-- A list of names: its entries and its strings are inside of the file. -/
structure NamesOk (data : List UInt8) (list : Nat) : Prop where
  inside : list + 4 + field data list * entrySize ≤ data.length
  names : ∀ i < field data list, ∃ s, CStr data (field data (list + 4 + i * entrySize)) s

/-- The list of parents: the offsets of the parents are inside of the file, too. -/
structure ParentsOk (data : List UInt8) (list : Nat) : Prop extends NamesOk data list where
  parents : ∀ i < field data list,
    field data (list + 4 + i * entrySize + 4) + 4 +
      field data (field data (list + 4 + i * entrySize + 4)) * 4 ≤ data.length

/-- The handle of a file. -/
def dbOf (data : List UInt8) : EdMime where
  data := data
  maxExtent := field data (field data 24 + 4)
  aliasList := field data 4
  parentList := field data 8
  magicList := field data 24

/-- A file that `ed_mime_load` refuses by its header, by the number of its icons or because the check of
the extent ends with another one, or all of whose parts are inside of it. -/
inductive FileOk (data : List UInt8) : Prop where
  | refused (h : hdrRefused data = true)
  | icons (magic : field data 24 + 8 ≤ data.length)
      (h : data.length < genericIcons data + 4 + field data (genericIcons data) * entrySize)
  | extent (magic : field data 24 + 8 ≤ data.length)
      (ends : ∃ fuel₀, ∀ fuel ≥ fuel₀, Returns (checkMaxExtent (dbOf data) fuel))
      (h : ∀ fuel, checkMaxExtent (dbOf data) fuel ≠ .ok (dbOf data).maxExtent)
  | parts (d : Nat) (magic : MagicOk (dbOf data) d) (fits : MagicFits (dbOf data))
      (aliases : NamesOk data (field data 4)) (parents : ParentsOk data (field data 8))

/-! ## Loading -/

theorem returns_maxExtents {extent : Nat → Read Nat} {s n max : Nat}
    (h : ∀ i < n, Returns (extent (m + i * s))) : Returns (maxExtents extent s n m max) := by
  induction n generalizing m max with
  | zero => exact returns_ok max
  | succ n ih =>
    obtain ⟨h0, hrest⟩ := (forall_row fun c => Returns (extent c)).mp h
    exact h0.bind fun e _ => .ite (fun _ => returns_ok 0) fun _ => ih hrest

theorem returns_maxExtentMatchlet (h : WholeAt data d m) (hfuel : d ≤ fuel) :
    Returns (maxExtentMatchlet data fuel m) := by
  induction d generalizing m fuel with
  | zero => exact h.elim
  | succ d ih =>
    obtain ⟨hin, hchildren⟩ := h
    have hfields := hin.fields
    unfold matchletSize at hfields
    match fuel with
    | fuel + 1 =>
      rw [maxExtentMatchlet]
      refine (returns_fetch32 (by omega)).bind fun rngOff _ => ?_
      refine (returns_fetch32 (by omega)).bind fun rngLen _ => ?_
      refine (returns_fetch32 (by omega)).bind fun dataLen _ => ?_
      refine (returns_fetch32 (by omega)).bind fun nel hnel => ?_
      refine .ite (fun _ => ?_) fun _ => returns_ok _
      refine (returns_fetch32 (by omega)).bind fun base hbase => ?_
      obtain rfl : nel = nChildren data m := (fetch32_inv hnel).2
      obtain rfl : base = field data (m + 28) := (fetch32_inv hbase).2
      exact returns_maxExtents fun i hi => ih (hchildren i hi) (by omega)

theorem returns_maxExtentMatch {r : Nat} (h : RuleOk data d r) (hfuel : d ≤ fuel) :
    Returns (maxExtentMatch data fuel r) := by
  have hin := h.inside
  unfold matchSize at hin
  refine (returns_fetch32 (by omega)).bind fun nel hnel => ?_
  refine (returns_fetch32 (by omega)).bind fun base hbase => ?_
  obtain rfl : nel = nMatchlets data r := (fetch32_inv hnel).2
  obtain rfl : base = field data (r + 12) := (fetch32_inv hbase).2
  exact returns_maxExtents fun j hj => returns_maxExtentMatchlet (h.matchlets j hj) hfuel

theorem returns_checkMaxExtent (h : MagicOk db d) (hfuel : d ≤ fuel) :
    Returns (checkMaxExtent db fuel) := by
  have hin := h.inside
  refine (returns_fetch32 (by omega)).bind fun nel hnel => ?_
  refine (returns_fetch32 (by omega)).bind fun base hbase => ?_
  obtain rfl : nel = nMatches db := (fetch32_inv hnel).2
  obtain rfl : base = field db.data (db.magicList + 8) := (fetch32_inv hbase).2
  exact .ite (fun _ => returns_ok 0) fun _ =>
    returns_maxExtents fun i hi => returns_maxExtentMatch (h.rules i hi) hfuel

theorem genericIcons_inside (h : hdrRefused data = false) : genericIcons data + 4 ≤ data.length := by
  unfold hdrRefused at h
  simp only [Bool.or_eq_false_iff, decide_eq_false_iff_not] at h
  omega

theorem openDb_inv (h : openDb data = .ok db) : db = dbOf data := by
  obtain ⟨_, hr, h⟩ := bind_inv h
  obtain ⟨-, rfl⟩ := fetch32_inv hr
  exact (Except.ok.inj h).symm

theorem returns_edMimeLoad (hmagic : field data 24 + 8 ≤ data.length)
    (hcheck : genericIcons data + 4 + field data (genericIcons data) * entrySize ≤ data.length →
      Returns (checkMaxExtent (dbOf data) fuel)) (noverify mem : Bool) :
    Returns (edMimeLoad data noverify mem fuel) := by
  refine .ite (fun _ => returns_ok _) fun hhdr => ?_
  have hicons := genericIcons_inside ((Bool.not_eq_true _).mp hhdr)
  have hopen : Returns (openDb data) := (returns_fetch32 (by omega)).bind fun _ _ => returns_ok _
  refine hopen.bind fun db hdb => ?_
  obtain rfl := openDb_inv hdb
  have hver : Returns (verifyDb (dbOf data) noverify fuel) := by
    refine .ite (fun _ => returns_ok _) fun _ => ?_
    refine (returns_fetch32 hicons).bind fun count hcount => ?_
    obtain rfl := (fetch32_inv hcount).2
    refine .ite (fun _ => returns_ok _) fun hle => ?_
    exact (hcheck (Nat.not_lt.mp hle)).bind fun _ _ => returns_ok _
  exact hver.bind fun _ _ => returns_ok _

theorem dbOf_of_load {mem : Bool} (h : edMimeLoad data false mem fuel = .ok (.ok db)) :
    hdrRefused data = false ∧ db = dbOf data ∧
      genericIcons data + 4 + field data (genericIcons data) * entrySize ≤ data.length := by
  unfold edMimeLoad at h
  split at h
  · cases h
  rename_i hhdr
  obtain ⟨db', hopen, h⟩ := bind_inv h
  obtain rfl := openDb_inv hopen
  obtain ⟨good, hgood, h⟩ := bind_inv h
  have hres := Except.ok.inj h
  split at hres
  · rename_i htrue
    subst htrue
    obtain ⟨_, hcount, hver⟩ := bind_inv (show (fetch32 data _ >>= _) = _ from hgood)
    obtain rfl := (fetch32_inv hcount).2
    split at hver
    · cases hver
    rename_i hle
    refine ⟨(Bool.not_eq_true _).mp hhdr, ?_, Nat.not_lt.mp hle⟩
    split at hres
    · exact (Except.ok.inj hres).symm
    · cases hres
  · cases hres

/-! ## The other functions -/

theorem edMimeType_contained (h : MagicOk db d) (hfit : MagicFits db) (hfuel : d ≤ fuel)
    (buf : List UInt8) (fallback : Bool) : Contained (edMimeType db buf fallback fuel) := by
  have hin := h.inside
  by_cases hbuf : buf = []
  · subst hbuf
    rw [edMimeType_assert_iff.mpr rfl]
    constructor <;> (intro h; cases h)
  have hlen : buf.length ≠ 0 := fun h => hbuf (List.length_eq_zero_iff.mp h)
  obtain ⟨best, -, hbest⟩ := edMimeType_spec h hbuf fun i hi =>
    isMatch_spec (h.rules i hi) (hfit i hi) hfuel
  rw [edMimeType_eq hbuf hin] at hbest
  have hloop : Returns (typeLoop db.data buf fuel (nMatches db) (rule db 0) 0 none) := by
    cases hr : typeLoop db.data buf fuel (nMatches db) (rule db 0) 0 none with
    | ok mime => exact returns_ok mime
    | error e =>
      rw [hr] at hbest
      cases hbest
  have hfirst : rule db 0 = field db.data (db.magicList + 8) := by rw [rule, Nat.zero_mul, Nat.add_zero]
  refine Returns.contained ?_
  refine .ite (fun h => absurd h hlen) fun _ => ?_
  refine (returns_fetch32 (by omega)).bind fun nel hnel => ?_
  refine (returns_fetch32 (by omega)).bind fun base hbase => ?_
  obtain rfl : nel = nMatches db := (fetch32_inv hnel).2
  obtain rfl : base = rule db 0 := hfirst ▸ (fetch32_inv hbase).2
  refine hloop.bind fun mime _ => ?_
  cases mime <;> exact returns_ok _

theorem returns_search (h : NamesOk data list) (hmime : 0 ∉ mime) :
    Returns (halve (cmpEntry data list mime) 0 (field data list)) ∧
      ∀ i, halve (cmpEntry data list mime) 0 (field data list) = .ok (some i) → i < field data list := by
  have hin := h.inside
  have hcmp : ∀ i < field data list, ∃ v, cmpEntry data list mime i = .ok v := by
    intro i hi
    obtain ⟨s, hs⟩ := h.names i hi
    unfold entrySize at hin
    refine ⟨strOrder mime s, ?_⟩
    rw [cmpEntry, fetch32_ok (by unfold entrySize; omega)]
    exact strcmp_spec hmime hs
  obtain ⟨c, hc⟩ : ∃ c : Nat → Int, ∀ i, 0 ≤ i → i < 0 + field data list →
      cmpEntry data list mime i = .ok (c i) := by
    refine ⟨fun i => (cmpEntry data list mime i).toOption.getD 0, fun i _ hi => ?_⟩
    obtain ⟨v, hv⟩ := hcmp i (by omega)
    dsimp only
    rw [hv]
    rfl
  rcases halve_cases hc with ⟨hnone, -⟩ | ⟨i, -, hi, -, hsome⟩
  · exact ⟨⟨_, hnone⟩, fun i hi => by rw [hnone] at hi; cases hi⟩
  · refine ⟨⟨_, hsome⟩, fun j hj => ?_⟩
    rw [hsome] at hj
    obtain rfl := Option.some.inj (Except.ok.inj hj)
    omega

theorem returns_edMimeAlias (h : NamesOk db.data db.aliasList) (hmime : 0 ∉ mime) :
    Returns (edMimeAlias db mime) := by
  have hin := h.inside
  unfold entrySize at hin
  refine (returns_fetch32 (by omega)).bind fun nel hnel => ?_
  obtain rfl := (fetch32_inv hnel).2
  obtain ⟨hsearch, hlt⟩ := returns_search h hmime
  refine hsearch.bind fun hit hhit => ?_
  cases hit with
  | none => exact returns_ok _
  | some i =>
    have := hlt i hhit
    exact (returns_fetch32 (by unfold entrySize; omega)).bind fun _ _ => returns_ok _

theorem returns_parentOffsets {n : Nat} (h : off + n * 4 ≤ data.length) :
    Returns (parentOffsets data n off) := by
  induction n generalizing off with
  | zero => exact returns_ok _
  | succ n ih =>
    refine (returns_fetch32 (by omega)).bind fun _ _ => ?_
    exact (ih (by omega)).bind fun _ _ => returns_ok _

theorem returns_edMimeParents (h : ParentsOk db.data db.parentList) (hmime : 0 ∉ mime) (n : Nat) :
    Returns (edMimeParents db mime n) := by
  have hin := h.inside
  unfold entrySize at hin
  refine (returns_fetch32 (by omega)).bind fun nel hnel => ?_
  obtain rfl := (fetch32_inv hnel).2
  obtain ⟨hsearch, hlt⟩ := returns_search h.toNamesOk hmime
  refine hsearch.bind fun hit hhit => ?_
  cases hit with
  | none => exact returns_ok _
  | some i =>
    have hi := hlt i hhit
    have hpar := h.parents i hi
    refine (returns_fetch32 (by unfold entrySize; omega)).bind fun par hp => ?_
    obtain rfl := (fetch32_inv hp).2
    refine (returns_fetch32 (by omega)).bind fun npar hnpar => ?_
    obtain rfl := (fetch32_inv hnpar).2
    refine returns_parentOffsets ?_
    split <;> omega

/-! ## All functions -/

/-- One icon is counted at the end of the file, where none fits; the list of the rules is never read. -/
example : FileOk ([0, 1, 0, 2] ++ words [40, 40, 40, 40, 40, 40, 40, 40, 52, 1, 1] ++
    [0xff, 0xff, 0xff, 0xff] ++ words [1]) :=
  .icons (by decide +kernel) (by decide +kernel)

theorem tinyFile_ok : FileOk tinyFile := by
  have hdb : dbOf tinyFile = tinyDb := by decide +kernel
  have h4 : field tinyFile 4 = 40 := by decide +kernel
  have h8 : field tinyFile 8 = 68 := by decide +kernel
  have haliases : NamesOk tinyFile 40 := by
    refine ⟨by decide +kernel, fun i hi => ?_⟩
    exact ⟨_, tinyDb_alias.name i (Nat.lt_of_lt_of_eq hi tinyDb_alias.count)⟩
  have hparents : ParentsOk tinyFile 68 := by
    obtain ⟨t, ht, -⟩ := tinyDb_parents
    refine ⟨⟨by decide +kernel, fun i hi => ?_⟩, by decide +kernel⟩
    exact ⟨_, ht.name i (Nat.lt_of_lt_of_eq hi ht.count)⟩
  refine .parts 1 ?_ ?_ (h4 ▸ haliases) (h8 ▸ hparents)
  · rw [hdb]
    decide +kernel
  · rw [hdb]
    exact magicFits_of_list [152] (by decide +kernel) (by decide +kernel) (by decide +kernel)

/-- A file whose lists are all at the place 40, 4 bytes before its end. -/
def shortFile : List UInt8 := [0, 1, 0, 2] ++ words [40, 40, 40, 40, 40, 40, 40, 40, 40, 0]

/-- A file with a matchlet that is its own child. -/
def ringFile : List UInt8 :=
  [0, 1, 0, 2] ++ words [40, 40, 40, 40, 40, 44, 40, 40, 104, 0, 1, 2, 56, 50, 40, 1, 72,
    0, 1, 1, 1, 40, 0, 1, 72, 0]

theorem fetch32_ring (h : off + 4 ≤ 108) : fetch32 ringFile off = .ok (field ringFile off) := by
  have hlen : ringFile.length = 108 := by decide +kernel
  exact fetch32_ok (by omega)

theorem maxExtentMatchlet_ring (fuel : Nat) : maxExtentMatchlet ringFile fuel 72 = .error .deep := by
  induction fuel with
  | zero => rfl
  | succ fuel ih =>
    have hn : field ringFile 96 = 1 := by decide +kernel
    have hbase : field ringFile 100 = 72 := by decide +kernel
    rw [maxExtentMatchlet, fetch32_ring (by omega), fetch32_ring (by omega), fetch32_ring (by omega),
      fetch32_ring (by omega), fetch32_ring (by omega), hn, hbase]
    show (maxExtentMatchlet ringFile fuel 72 >>= _) = _
    rw [ih]
    rfl

theorem checkMaxExtent_ring (fuel : Nat) : checkMaxExtent (dbOf ringFile) fuel = .error .deep := by
  have hrule : maxExtentMatch ringFile fuel 56 = .error .deep := by
    have hn : field ringFile 64 = 1 := by decide +kernel
    have hbase : field ringFile 68 = 72 := by decide +kernel
    rw [maxExtentMatch, fetch32_ring (by omega), fetch32_ring (by omega), hn, hbase]
    show (maxExtentMatchlet ringFile fuel 72 >>= _) = _
    rw [maxExtentMatchlet_ring]
    rfl
  have hlist : (dbOf ringFile).magicList = 44 := by decide +kernel
  have hn : field ringFile 44 = 1 := by decide +kernel
  have hbase : field ringFile 52 = 56 := by decide +kernel
  have hin : ¬ 56 > ringFile.length := by decide +kernel
  rw [checkMaxExtent, hlist, show (dbOf ringFile).data = ringFile from rfl, fetch32_ring (by omega),
    fetch32_ring (by omega), hn, hbase, ok_bind, ok_bind, if_neg hin, maxExtents, hrule]
  rfl

end Eddy.Mime
