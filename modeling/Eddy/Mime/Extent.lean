import Eddy.Mime.Match

/-!
# Eddy — the extent of the mime database

`ed_mime_load` compares the extent that the file has with the places where the matchlets look. Behind that
extent no byte of a buffer matters to `ed_mime_type`, so that a caller may read this much only. The check
takes an extent of 0 for a failure, and a file whose extent is 0 passes it then.
-/

namespace Eddy.Mime

open List

variable {data buf : List UInt8} {m fuel L n ext i len a k fuel' : Nat} {test : Nat → Read Bool}
  {db : EdMime}

/-! ## The check -/

theorem maxExtents_inv {extent : Nat → Read Nat} {s max : Nat}
    (h : maxExtents extent s n m max = .ok ext) (h0 : ext ≠ 0) :
    max ≤ ext ∧ ∀ i < n, ∃ e, extent (m + i * s) = .ok e ∧ e ≠ 0 ∧ e ≤ ext := by
  induction n generalizing m max with
  | zero =>
    obtain rfl : max = ext := Except.ok.inj h
    exact ⟨Nat.le_refl _, fun i hi => absurd hi (Nat.not_lt_zero i)⟩
  | succ n ih =>
    obtain ⟨e, he, h⟩ := bind_inv h
    by_cases hz : e = 0
    · rw [if_pos hz] at h
      exact absurd (Except.ok.inj h).symm h0
    rw [if_neg hz] at h
    obtain ⟨hle, hrest⟩ := ih h
    have hmax : max ≤ ext ∧ e ≤ ext := by
      split at hle <;> omega
    refine ⟨hmax.1, (forall_row fun c => ∃ e, extent c = .ok e ∧ e ≠ 0 ∧ e ≤ ext).mpr ⟨?_, hrest⟩⟩
    exact ⟨e, he, hz, hmax.2⟩

/-- The extent of a matchlet covers its places and the extents of its children. -/
theorem maxExtentMatchlet_inv (h : maxExtentMatchlet data (fuel + 1) m = .ok ext) (h0 : ext ≠ 0) :
    m + 28 ≤ data.length ∧
      add32 (add32 (rangeLength data m) (rangeStart data m)) (valueLength data m) ≤ ext ∧
      ∀ i < nChildren data m, ∃ e, maxExtentMatchlet data fuel (child data m i) = .ok e ∧ e ≠ 0 ∧
        e ≤ ext := by
  rw [maxExtentMatchlet] at h
  obtain ⟨_, hr, h⟩ := bind_inv h
  obtain ⟨-, rfl⟩ := fetch32_inv hr
  obtain ⟨_, hr, h⟩ := bind_inv h
  obtain ⟨-, rfl⟩ := fetch32_inv hr
  obtain ⟨_, hr, h⟩ := bind_inv h
  obtain ⟨-, rfl⟩ := fetch32_inv hr
  obtain ⟨_, hr, h⟩ := bind_inv h
  obtain ⟨hin, rfl⟩ := fetch32_inv hr
  refine ⟨by omega, ?_⟩
  split at h
  · obtain ⟨_, hr, h⟩ := bind_inv h
    obtain ⟨-, rfl⟩ := fetch32_inv hr
    exact maxExtents_inv h h0
  · rename_i hn
    obtain rfl := Except.ok.inj h
    exact ⟨Nat.le_refl _, fun i hi => absurd hi (by unfold nChildren; omega)⟩

/-! ## The bytes behind the extent -/

theorem byteAt_take (hi : i < L) : byteAt (buf.take L) i = byteAt buf i := by
  rw [byteAt, byteAt, List.getElem?_take_of_lt hi]

theorem maskeq_take {b : Nat} (hb : b + len ≤ L) :
    maskeq data (buf.take L) len a b k = maskeq data buf len a b k := by
  induction len generalizing a b k with
  | zero => rfl
  | succ len ih =>
    rw [maskeq, maskeq, byteAt_take (by omega), ih (by omega)]

theorem memeq_take {b : Nat} (hb : b + len ≤ L) (hL : L ≤ buf.length) :
    memeq data (buf.take L) len a b = memeq data buf len a b := by
  have hlen : (buf.take L).length = L := by
    rw [length_take]
    omega
  have hbytes : ((buf.take L).drop b).take len = (buf.drop b).take len := by
    rw [drop_take, take_take, Nat.min_eq_left (by omega)]
  have hin : b + len ≤ buf.length := Nat.le_trans hb hL
  rw [memeq, memeq, hlen, hbytes]
  simp only [hb, hin, and_true]

theorem valueAt_take (hi : i + len ≤ L) (hL : L ≤ buf.length) :
    valueAt data (buf.take L) len a k i = valueAt data buf len a k i := by
  rw [valueAt, valueAt, maskeq_take hi, memeq_take hi hL]

theorem valueIn_take (hi : i + n + len ≤ L) (hL : L ≤ buf.length) (hfit : i + n + len < 2 ^ 32) :
    valueIn data (buf.take L) len a k n i = valueIn data buf len a k n i := by
  have hlen : (buf.take L).length = L := by
    rw [length_take]
    omega
  induction n generalizing i with
  | zero => rfl
  | succ n ih =>
    have hadd : add32 i len = i + len := Nat.mod_eq_of_lt (by omega)
    rw [valueIn, valueIn, hadd, hlen, if_neg (by omega), if_neg (by omega), valueAt_take (by omega) hL,
      ih (by omega) (by omega)]

theorem found_take (hfit : Fits data m)
    (hext : add32 (add32 (rangeLength data m) (rangeStart data m)) (valueLength data m) ≤ L)
    (hin : m + 28 ≤ data.length) (hL : L ≤ buf.length) :
    found data (buf.take L) m = found data buf m := by
  have hf : rangeStart data m + rangeLength data m + valueLength data m < 2 ^ 32 := hfit
  have hend : add32 (rangeLength data m) (rangeStart data m) =
      rangeStart data m + rangeLength data m := by
    rw [add32, Nat.mod_eq_of_lt (by omega), Nat.add_comm]
  have hsum : add32 (rangeStart data m + rangeLength data m) (valueLength data m) =
      rangeStart data m + rangeLength data m + valueLength data m := Nat.mod_eq_of_lt hf
  have hread : ∀ buf, found data buf m = valueIn data buf (valueLength data m) (valueOff data m)
      (maskOff data m) (rangeLength data m) (rangeStart data m) := by
    intro buf
    rw [found, fetch32_ok (by omega), fetch32_ok (by omega), fetch32_ok (by omega),
      fetch32_ok (by omega), fetch32_ok (by omega)]
    show valueIn data buf (valueLength data m) (valueOff data m) (maskOff data m)
      (add32 (rangeLength data m) (rangeStart data m) - rangeStart data m) (rangeStart data m) = _
    rw [hend, Nat.add_sub_cancel_left]
  rw [hend, hsum] at hext
  rw [hread, hread, valueIn_take hext hL hf]

theorem allMatchlets_congr {test' : Nat → Read Bool}
    (h : ∀ i < n, test (m + i * matchletSize) = test' (m + i * matchletSize)) :
    allMatchlets test n m = allMatchlets test' n m := by
  induction n generalizing m with
  | zero => rfl
  | succ n ih =>
    obtain ⟨h0, hrest⟩ := (forall_row fun c => test c = test' c).mp h
    rw [allMatchlets, allMatchlets, h0, ih hrest]

theorem anyMatchlet_congr {test' : Nat → Read Bool}
    (h : ∀ i < n, test (m + i * matchletSize) = test' (m + i * matchletSize)) :
    anyMatchlet test n m = anyMatchlet test' n m := by
  induction n generalizing m with
  | zero => rfl
  | succ n ih =>
    obtain ⟨h0, hrest⟩ := (forall_row fun c => test c = test' c).mp h
    rw [anyMatchlet, anyMatchlet, h0, ih hrest]

/-- The bytes behind the extent of a matchlet do not matter to it. -/
theorem isMatchlet_take (h : maxExtentMatchlet data fuel m = .ok ext) (h0 : ext ≠ 0)
    (hext : ext ≤ L) (hfit : FitBelow data m) (hL : L ≤ buf.length) :
    isMatchlet data (buf.take L) fuel' m = isMatchlet data buf fuel' m := by
  induction fuel generalizing m ext fuel' with
  | zero => cases h
  | succ fuel ih =>
    obtain ⟨hin, hown, hchildren⟩ := maxExtentMatchlet_inv h h0
    match fuel' with
    | 0 => rfl
    | fuel' + 1 =>
      have hrow : ∀ i < nChildren data m, isMatchlet data (buf.take L) fuel' (child data m i) =
          isMatchlet data buf fuel' (child data m i) := by
        intro i hi
        obtain ⟨e, he, he0, hle⟩ := hchildren i hi
        exact ih he he0 (Nat.le_trans hle hext) (hfit.of_child hi)
      rw [isMatchlet, isMatchlet, found_take (hfit m .refl) (Nat.le_trans hown hext) hin hL]
      refine bind_congr fun hit => ?_
      split
      · rw [fetch32_ok (show m + 24 + 4 ≤ data.length by omega), ok_bind, ok_bind]
        split
        · rfl
        · by_cases hbase : m + 28 + 4 ≤ data.length
          · rw [fetch32_ok hbase, ok_bind, ok_bind]
            exact allMatchlets_congr hrow
          · rw [show fetch32 data (m + 28) = .error .wild from if_neg hbase, error_bind, error_bind]
      · rfl

/-! ## Rules -/

theorem isMatch_take {r : Nat} (h : maxExtentMatch data fuel r = .ok ext) (h0 : ext ≠ 0)
    (hext : ext ≤ L) (hfit : ∀ j < nMatchlets data r, FitBelow data (matchlet data r j))
    (hL : L ≤ buf.length) : isMatch data (buf.take L) fuel' r = isMatch data buf fuel' r := by
  rw [maxExtentMatch] at h
  obtain ⟨_, hr, h⟩ := bind_inv h
  obtain ⟨hn, rfl⟩ := fetch32_inv hr
  obtain ⟨_, hr, h⟩ := bind_inv h
  obtain ⟨hb, rfl⟩ := fetch32_inv hr
  obtain ⟨-, hrow⟩ := maxExtents_inv h h0
  have hsame : ∀ j < nMatchlets data r, isMatchlet data (buf.take L) fuel' (matchlet data r j) =
      isMatchlet data buf fuel' (matchlet data r j) := by
    intro j hj
    obtain ⟨e, he, he0, hle⟩ := hrow j hj
    exact isMatchlet_take he he0 (Nat.le_trans hle hext) (hfit j hj) hL
  rw [isMatch, isMatch, fetch32_ok hn, fetch32_ok hb]
  exact anyMatchlet_congr hsame

theorem typeLoop_congr {buf' : List UInt8} {max : Nat} {mime : Option Nat}
    (h : ∀ i < n, isMatch data buf' fuel (m + i * matchSize) = isMatch data buf fuel (m + i * matchSize)) :
    typeLoop data buf' fuel n m max mime = typeLoop data buf fuel n m max mime := by
  induction n generalizing m max mime with
  | zero => rfl
  | succ n ih =>
    obtain ⟨h0, hrest⟩ := (forall_row fun c => isMatch data buf' fuel c = isMatch data buf fuel c).mp h
    rw [typeLoop, typeLoop, edMimeTestMatch, edMimeTestMatch, h0]
    refine bind_congr fun p => ?_
    split
    · exact bind_congr fun off => ih hrest
    · exact ih hrest

theorem checkMaxExtent_inv (h : checkMaxExtent db fuel = .ok ext) (h0 : ext ≠ 0) :
    db.magicList + 12 ≤ db.data.length ∧ ∀ i < nMatches db, ∃ e,
      maxExtentMatch db.data fuel (rule db i) = .ok e ∧ e ≠ 0 ∧ e ≤ ext := by
  rw [checkMaxExtent] at h
  obtain ⟨_, hr, h⟩ := bind_inv h
  obtain ⟨-, rfl⟩ := fetch32_inv hr
  obtain ⟨_, hr, h⟩ := bind_inv h
  obtain ⟨hin, rfl⟩ := fetch32_inv hr
  refine ⟨hin, ?_⟩
  split at h
  · exact absurd (Except.ok.inj h).symm h0
  · exact (maxExtents_inv h h0).2

theorem edMimeLoad_inv {mem : Bool} (h : edMimeLoad data false mem fuel = .ok (.ok db)) :
    checkMaxExtent db fuel = .ok db.maxExtent := by
  unfold edMimeLoad at h
  split at h
  · cases h
  obtain ⟨db', hopen, h⟩ := bind_inv h
  obtain ⟨good, hgood, h⟩ := bind_inv h
  have hres := Except.ok.inj h
  cases good with
  | false => cases hres
  | true =>
    cases mem with
    | false => cases hres
    | true =>
      obtain rfl : db' = db := Except.ok.inj hres
      obtain ⟨count, -, hver⟩ := bind_inv (show (fetch32 db'.data _ >>= _) = _ from hgood)
      split at hver
      · cases hver
      obtain ⟨ext, hext, hver⟩ := bind_inv hver
      have heq := of_decide_eq_true (Except.ok.inj hver)
      rw [heq]
      exact hext

theorem edMimeType_take (h : checkMaxExtent db fuel = .ok db.maxExtent) (h0 : 0 < db.maxExtent)
    (hfit : MagicFits db) (hL : db.maxExtent ≤ buf.length) :
    edMimeType db (buf.take db.maxExtent) false fuel' = edMimeType db buf false fuel' := by
  obtain ⟨hin, hrules⟩ := checkMaxExtent_inv h (by omega)
  have hlen : (buf.take db.maxExtent).length = db.maxExtent := by
    rw [length_take]
    omega
  have hsame : ∀ i < nMatches db, isMatch db.data (buf.take db.maxExtent) fuel' (rule db i) =
      isMatch db.data buf fuel' (rule db i) := by
    intro i hi
    obtain ⟨e, he, he0, hle⟩ := hrules i hi
    exact isMatch_take he he0 hle (hfit i hi) hL
  have hbuf : buf ≠ [] := fun h => by
    rw [h, length_nil] at hL
    omega
  have htake : buf.take db.maxExtent ≠ [] := fun h => by
    rw [h, length_nil] at hlen
    omega
  have hfirst : rule db 0 = field db.data (db.magicList + 8) := by rw [rule, Nat.zero_mul, Nat.add_zero]
  rw [edMimeType_eq htake hin, edMimeType_eq hbuf hin, hfirst, typeLoop_congr hsame]

/-! ## The assertion -/

/-- No assertion fails. -/
def Quiet {α : Type} (r : Read α) : Prop := r ≠ .error .assert

section Quiet

variable {α β : Type}

theorem quiet_ok (a : α) : Quiet (.ok a) := fun h => by cases h

theorem Quiet.bind {x : Read α} {f : α → Read β} (hx : Quiet x) (hf : ∀ a, Quiet (f a)) :
    Quiet (x >>= f) := by
  cases x with
  | ok a => exact hf a
  | error e => exact fun h => hx (Except.error.inj h ▸ rfl)

theorem Quiet.ite {c : Prop} [Decidable c] {x y : Read α} (hx : Quiet x) (hy : Quiet y) :
    Quiet (if c then x else y) := by
  split
  · exact hx
  · exact hy

end Quiet

theorem quiet_fetch32 (data : List UInt8) (off : Nat) : Quiet (fetch32 data off) :=
  .ite (quiet_ok _) fun h => by cases h

theorem quiet_byteAt (data : List UInt8) (off : Nat) : Quiet (byteAt data off) := by
  unfold byteAt
  split
  · exact quiet_ok _
  · exact fun h => by cases h

theorem quiet_maskeq (data buf : List UInt8) (len a b k : Nat) : Quiet (maskeq data buf len a b k) := by
  induction len generalizing a b k with
  | zero => exact quiet_ok _
  | succ len ih =>
    exact (quiet_byteAt _ _).bind fun _ => (quiet_byteAt _ _).bind fun _ =>
      (quiet_byteAt _ _).bind fun _ => .ite (quiet_ok _) (ih _ _ _)

theorem quiet_valueAt (data buf : List UInt8) (len a k i : Nat) :
    Quiet (valueAt data buf len a k i) :=
  .ite (quiet_maskeq _ _ _ _ _ _) (.ite (quiet_ok _) fun h => by cases h)

theorem quiet_valueIn (data buf : List UInt8) (len a k n i : Nat) :
    Quiet (valueIn data buf len a k n i) := by
  induction n generalizing i with
  | zero => exact quiet_ok _
  | succ n ih =>
    exact .ite (quiet_ok _) ((quiet_valueAt _ _ _ _ _ _).bind fun _ => .ite (quiet_ok _) (ih _))

theorem quiet_found (data buf : List UInt8) (m : Nat) : Quiet (found data buf m) :=
  (quiet_fetch32 _ _).bind fun _ => (quiet_fetch32 _ _).bind fun _ => (quiet_fetch32 _ _).bind fun _ =>
    (quiet_fetch32 _ _).bind fun _ => (quiet_fetch32 _ _).bind fun _ => quiet_valueIn _ _ _ _ _ _ _

theorem quiet_allMatchlets (h : ∀ m, Quiet (test m)) (n m : Nat) :
    Quiet (allMatchlets test n m) := by
  induction n generalizing m with
  | zero => exact quiet_ok _
  | succ n ih => exact (h m).bind fun _ => .ite (ih _) (quiet_ok _)

theorem quiet_anyMatchlet (h : ∀ m, Quiet (test m)) (n m : Nat) : Quiet (anyMatchlet test n m) := by
  induction n generalizing m with
  | zero => exact quiet_ok _
  | succ n ih => exact (h m).bind fun _ => .ite (quiet_ok _) (ih _)

theorem quiet_isMatchlet (data buf : List UInt8) (fuel m : Nat) : Quiet (isMatchlet data buf fuel m) := by
  induction fuel generalizing m with
  | zero => exact fun h => by cases h
  | succ fuel ih =>
    exact (quiet_found _ _ _).bind fun _ => .ite ((quiet_fetch32 _ _).bind fun _ =>
      .ite (quiet_ok _) ((quiet_fetch32 _ _).bind fun _ => quiet_allMatchlets ih _ _)) (quiet_ok _)

theorem quiet_typeLoop (data buf : List UInt8) (fuel n m max : Nat) (mime : Option Nat) :
    Quiet (typeLoop data buf fuel n m max mime) := by
  induction n generalizing m max mime with
  | zero => exact quiet_ok _
  | succ n ih =>
    have hmatch : Quiet (isMatch data buf fuel m) := (quiet_fetch32 _ _).bind fun _ =>
      (quiet_fetch32 _ _).bind fun _ => quiet_anyMatchlet (quiet_isMatchlet data buf fuel) _ _
    have htest : Quiet (edMimeTestMatch data buf fuel m) :=
      hmatch.bind fun _ => .ite (quiet_fetch32 _ _) (quiet_ok _)
    exact htest.bind fun _ => .ite ((quiet_fetch32 _ _).bind fun _ => ih _ _ _) (ih _ _ _)

theorem edMimeType_assert_iff {fallback : Bool} :
    edMimeType db buf fallback fuel = .error .assert ↔ buf = [] := by
  unfold edMimeType
  split
  · rename_i h
    exact iff_of_true rfl (length_eq_zero_iff.mp h)
  · rename_i h
    refine iff_of_false ?_ fun hb => h (length_eq_zero_iff.mpr hb)
    refine (quiet_fetch32 _ _).bind fun _ => (quiet_fetch32 _ _).bind fun _ =>
      (quiet_typeLoop _ _ _ _ _ _ _).bind fun mime => ?_
    cases mime <;> exact quiet_ok _

/-! ## The two calls -/

/-- The matchlets of all rules, their values and their masks are inside of the file. -/
def MagicInside (db : EdMime) : Prop :=
  ∀ i < nMatches db, ∀ j < nMatchlets db.data (rule db i),
    ∀ c, Below db.data (matchlet db.data (rule db i) j) c → Inside db.data c

theorem wholeAt_of_extent (h : maxExtentMatchlet data fuel m = .ok ext) (h0 : ext ≠ 0)
    (hin : ∀ c, Below data m c → Inside data c) : WholeAt data fuel m := by
  induction fuel generalizing m ext with
  | zero => cases h
  | succ fuel ih =>
    obtain ⟨-, -, hchildren⟩ := maxExtentMatchlet_inv h h0
    refine ⟨hin m .refl, fun i hi => ?_⟩
    obtain ⟨e, he, he0, -⟩ := hchildren i hi
    exact ih he he0 fun c hc => hin c (hc.of_child hi)

theorem magicOk_of_check (h : checkMaxExtent db fuel = .ok ext) (h0 : ext ≠ 0)
    (hin : MagicInside db) : MagicOk db fuel := by
  obtain ⟨hmagic, hrules⟩ := checkMaxExtent_inv h h0
  refine ⟨hmagic, fun i hi => ?_⟩
  obtain ⟨e, he, he0, -⟩ := hrules i hi
  rw [maxExtentMatch] at he
  obtain ⟨_, hr, he⟩ := bind_inv he
  obtain ⟨-, rfl⟩ := fetch32_inv hr
  obtain ⟨_, hr, he⟩ := bind_inv he
  obtain ⟨hrule, rfl⟩ := fetch32_inv hr
  obtain ⟨-, hrow⟩ := maxExtents_inv he he0
  refine ⟨hrule, fun j hj => ?_⟩
  obtain ⟨e, he, he0, -⟩ := hrow j hj
  exact wholeAt_of_extent he he0 (hin i hi j hj)

/-- For every file that `ed_mime_load` accepts with its check, whose matchlets fit, and every buffer that
is not shorter than the extent: the result for the whole buffer is that for its first bytes exactly when
the extent is not 0, or the buffer is empty. The calls return when the matchlets are inside of the file. -/
theorem edMimeType_take_iff (data : List UInt8) (mem : Bool) (fuel : Nat) (db : EdMime)
    (hload : edMimeLoad data false mem fuel = .ok (.ok db)) (hfit : MagicFits db) (buf : List UInt8)
    (hlen : edMimeMaxExtent db ≤ buf.length) (fuel' : Nat) :
    (edMimeType db buf false fuel' = edMimeType db (buf.take (edMimeMaxExtent db)) false fuel' ↔
      0 < edMimeMaxExtent db ∨ buf = []) ∧
    (0 < edMimeMaxExtent db → MagicInside db → fuel ≤ fuel' →
      ∃ mime, edMimeType db buf false fuel' = .ok mime) := by
  have hcheck := edMimeLoad_inv hload
  refine ⟨⟨fun h => ?_, ?_⟩, fun hpos hin hfuel => ?_⟩
  · rcases Nat.eq_zero_or_pos (edMimeMaxExtent db) with hz | hpos
    · rw [hz, take_zero] at h
      exact .inr (edMimeType_assert_iff.mp (h.trans (edMimeType_assert_iff.mpr rfl)))
    · exact .inl hpos
  · rintro (hpos | rfl)
    · exact (edMimeType_take hcheck hpos hfit hlen).symm
    · rw [take_nil]
  · have hok : MagicOk db fuel := magicOk_of_check hcheck (by unfold edMimeMaxExtent at hpos; omega) hin
    have hbuf : buf ≠ [] := fun h => by
      rw [h, length_nil] at hlen
      omega
    obtain ⟨best, -, hbest⟩ := edMimeType_spec hok hbuf fun i hi =>
      isMatch_spec (hok.rules i hi) (hfit i hi) hfuel
    exact ⟨_, hbest⟩

/-- A file with one rule, which has a matchlet from the place 0 with the lengths given and one for the
byte 41 at the place 0. -/
def sampleFile (ext rngLen dataLen : UInt8) : List UInt8 :=
  [0, 1, 0, 2] ++ words [40, 40, 40, 40, 40, 44, 40, 40, 140, 0, 1, ext, 56, 50, 137, 2, 72,
    0, rngLen, 1, dataLen, 136, 0, 0, 0, 0, 1, 1, 1, 136, 0, 0, 0] ++ [0x41, 0x78, 0, 0] ++ words [0]

/-- The handle of such a file. -/
def sampleDb (ext rngLen dataLen : UInt8) : EdMime where
  data := sampleFile ext rngLen dataLen
  maxExtent := ext.toNat
  aliasList := 40
  parentList := 40
  magicList := 44

/-- The extent is 2, and so are the bytes that matter. -/
theorem edMimeType_take_two :
    edMimeType (sampleDb 2 1 1) [0x41, 0x42, 0x43] false 1 =
      edMimeType (sampleDb 2 1 1) [0x41, 0x42] false 1 :=
  (edMimeType_take_iff (sampleFile 2 1 1) true 1 (sampleDb 2 1 1) (by decide +kernel)
    (magicFits_of_list [72, 104] (by decide +kernel) (by decide +kernel) (by decide +kernel))
    [0x41, 0x42, 0x43] (by decide) 1).1.mpr (.inl (by decide))

/-- The first matchlet looks nowhere, and the extent that the check finds is 0: the file is accepted. The
rule matches by its second matchlet, but of no bytes there is no type. -/
theorem edMimeType_take_none :
    edMimeLoad (sampleFile 0 0 0) false true 1 = .ok (.ok (sampleDb 0 0 0)) ∧
      MagicFits (sampleDb 0 0 0) ∧ edMimeMaxExtent (sampleDb 0 0 0) = 0 ∧
      edMimeType (sampleDb 0 0 0) [0x41] false 1 = .ok (some (.inDb 137)) ∧
      edMimeType (sampleDb 0 0 0) [] false 1 = .error .assert :=
  ⟨by decide +kernel,
    magicFits_of_list [72, 104] (by decide +kernel) (by decide +kernel) (by decide +kernel), rfl,
    by decide +kernel, by decide +kernel⟩

end Eddy.Mime
