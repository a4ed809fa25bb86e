import Mathlib.Algebra.Group.Nat.Defs
import Mathlib.Algebra.Group.Int.Defs
import Mathlib.Data.Int.Basic
import Mathlib.Data.List.Basic
import Mathlib.Tactic.ByContra

/-!
# Eddy — filling a buffer with random bytes

`ed_rnd_buf` calls `read` until `len` bytes have come. It counts them in `rc` and moves the pointer
`p` along. An interrupted call of `read` is repeated, but it goes through the branch of the calls
that succeeded, so `rc` and `p` take its result `-1` like a count: both step back by one byte.

The pointer is an offset from the start of the buffer. `rc` is not bounded from below: it would
overflow after `2^63` interruptions.
-/

namespace Eddy.Rnd

open List

/-! ## System calls -/

/-- `EINTR`. -/
def eintr : Nat := 4

/-- `SSIZE_MAX`. -/
def ssizeMax : Nat := 2 ^ 63 - 1

/-- `ed_esys`. -/
def edEsys (n : Nat) : Int := -((1 <<< 16 ||| ((n + 1) &&& 0xffff) : Nat) : Int)

/-- How `open` and `ed_rnd_check` end: a descriptor with the error of the check, if there is one, or
the error number of `open`. -/
inductive OpenRes where
  | opened (fd : Nat) (check : Option Nat)
  | fails (errno : Nat)

/-- How `read` ends: the number of bytes that are there, `0` at the end of the file, or an error
number. -/
inductive ReadRes where
  | bytes (n : Nat)
  | fails (errno : Nat)

/-- `errno` after `read`. -/
def ReadRes.errno : ReadRes → Nat
  | .bytes _ => 0
  | .fails errno => errno

/-- The locals of `ed_rnd_buf` with the memory around the buffer, the number of bytes that have
come, and the stores so far: an offset and a number of bytes for each. -/
structure Run where
  p : Int
  rc : Int
  got : Nat
  mem : Int → UInt8
  stores : List (Int × Nat)

/-- The next `n` bytes of the device go to `p`. -/
def Run.filled (src : Nat → UInt8) (s : Run) (n : Nat) : Run :=
  { s with
    got := s.got + n
    mem := fun i => if s.p ≤ i ∧ i < s.p + n then src (s.got + (i - s.p).toNat) else s.mem i
    stores := s.stores ++ [(s.p, n)] }

/-- How many of `n` bytes `read` takes when it is asked for `want`. -/
def taken (n want : Nat) : Nat := min n (min want ssizeMax)

/-- `read` when it is asked for `want` bytes: its result and the state after it. -/
def read (src : Nat → UInt8) (want : Nat) (s : Run) : ReadRes → Int × Run
  | .bytes n => (taken n want, s.filled src (taken n want))
  | .fails _ => (-1, s)

/-! ## The functions -/

/-- `ed_rnd_open`; nothing is returned while `open` is still to be called. -/
def edRndOpen : List OpenRes → Option Int
  | [] => none
  | .opened fd none :: _ => some fd
  | .opened _ (some errno) :: rs | .fails errno :: rs =>
    if edEsys errno ≠ edEsys eintr then some (edEsys errno) else edRndOpen rs

/-- The cast `(ssize_t)len`. -/
def toSsize (len : UInt64) : Int := if len.toNat < 2 ^ 63 then len.toNat else len.toNat - 2 ^ 64

/-- The loop of `ed_rnd_buf`; nothing is returned while `read` is still to be called. -/
def rndLoop (len : UInt64) (src : Nat → UInt8) : List ReadRes → Run → Option Int × Run
  | [], s => (none, s)
  | r :: rs, s =>
    let (n, s) := read src (len.toNat - s.rc).toNat s r
    if n < 0 ∧ r.errno ≠ eintr then (some (edEsys r.errno), s)
    else if n = 0 then (some 0, s)
    else
      -- an interrupted `read` comes here with `n = -1`
      let s := { s with rc := s.rc + n }
      if toSsize len ≤ s.rc then (some s.rc, s) else rndLoop len src rs { s with p := s.p + n }

/-- The locals before the first `read`. -/
def Run.start (mem : Int → UInt8) : Run := ⟨0, 0, 0, mem, []⟩

/-- `ed_rnd_buf`. -/
def edRndBuf (fd : Int) (opens : List OpenRes) (len : UInt64) (src : Nat → UInt8)
    (reads : List ReadRes) (mem : Int → UInt8) : Option Int × Run :=
  if fd < 0 then
    match edRndOpen opens with
    | none => (none, .start mem)
    | some fd => if fd < 0 then (some fd, .start mem) else rndLoop len src reads (.start mem)
  else rndLoop len src reads (.start mem)

/-! ## What a call should do -/

/-- Every store is inside the buffer, and a call that returns `len` filled the buffer with the bytes
that came. -/
structure Faithful (len : Nat) (src : Nat → UInt8) (out : Option Int × Run) : Prop where
  inside : ∀ w ∈ out.2.stores, ∀ i, w.1 ≤ i → i < w.1 + w.2 → 0 ≤ i ∧ i < len
  whole : out.1 = some (len : Int) → out.2.got = len ∧ ∀ i < len, out.2.mem i = src i

/-- The results of `read` after `d` bytes and `e` interruptions: whenever bytes come, there were at
most as many interruptions as bytes, and there were none when the last byte comes. -/
def Undisturbed (len : Nat) : Nat → Nat → List ReadRes → Prop
  | _, _, [] => True
  | d, e, .fails errno :: rs => errno = eintr → Undisturbed len d (e + 1) rs
  | d, e, .bytes n :: rs =>
    n = 0 ∨ (e ≤ d ∧ (d + n < len + e → Undisturbed len (d + n) e rs) ∧ (len + e ≤ d + n → e = 0))

/-! ## One call of `read` -/

section Step

variable {len : UInt64} {src : Nat → UInt8} {rs : List ReadRes} {s : Run} {n m errno d e : Nat}

theorem edEsys_neg (n : Nat) : edEsys n < 0 := by
  have hge : 1 <<< 16 ≤ 1 <<< 16 ||| ((n + 1) &&& 0xffff) := Nat.left_le_or
  rw [edEsys]
  omega

theorem toSsize_of_lt (h : len.toNat < 2 ^ 63) : toSsize len = len.toNat := if_pos h

theorem filled_mem (s : Run) {j : Nat} (hj : j < m) :
    (s.filled src m).mem (s.p + j) = src (s.got + j) := by
  have hin : s.p ≤ s.p + j ∧ s.p + j < s.p + m := by omega
  rw [Run.filled]
  simp only [if_pos hin]
  congr 2
  omega

theorem filled_mem_before (s : Run) {i : Int} (hi : i < s.p) :
    (s.filled src m).mem i = s.mem i := by
  have hout : ¬ (s.p ≤ i ∧ i < s.p + m) := by omega
  rw [Run.filled]
  exact if_neg hout

theorem rndLoop_fails (h : errno ≠ eintr) :
    rndLoop len src (.fails errno :: rs) s = (some (edEsys errno), s) :=
  if_pos ⟨by decide, h⟩

theorem rndLoop_eintr (hlen : len.toNat < 2 ^ 63) (hrc : s.rc ≤ len.toNat) :
    rndLoop len src (.fails eintr :: rs) s =
      rndLoop len src rs { s with rc := s.rc - 1, p := s.p - 1 } := by
  have hread : read src (len.toNat - s.rc).toNat s (.fails eintr) = (-1, s) := rfl
  have hgo : ¬ toSsize len ≤ s.rc + -1 := by rw [toSsize_of_lt hlen]; omega
  rw [rndLoop, hread]
  dsimp only
  rw [if_neg fun h => h.2 rfl, if_neg (by decide), if_neg hgo]
  rfl

theorem read_bytes (hm : taken n (len.toNat - s.rc).toNat = m) :
    read src (len.toNat - s.rc).toNat s (.bytes n) = ((m : Int), s.filled src m) := by
  rw [read, hm]

theorem rndLoop_none (hm : taken n (len.toNat - s.rc).toNat = 0) :
    rndLoop len src (.bytes n :: rs) s = (some 0, s.filled src 0) := by
  rw [rndLoop, read_bytes hm]
  dsimp only
  rw [if_neg (by omega), if_pos (by rfl)]

theorem rndLoop_bytes (hlen : len.toNat < 2 ^ 63) (hm : taken n (len.toNat - s.rc).toNat = m)
    (hpos : 0 < m) (hrc : s.rc + m < len.toNat) :
    rndLoop len src (.bytes n :: rs) s =
      rndLoop len src rs { s.filled src m with rc := s.rc + m, p := s.p + m } := by
  have hgo : ¬ toSsize len ≤ (s.filled src m).rc + m := by
    rw [toSsize_of_lt hlen]
    exact Int.not_le.mpr hrc
  rw [rndLoop, read_bytes hm]
  dsimp only
  rw [if_neg (by omega), if_neg (by omega), if_neg hgo]
  rfl

theorem rndLoop_last (hm : taken n (len.toNat - s.rc).toNat = m) (hpos : 0 < m)
    (hrc : toSsize len ≤ s.rc + m) :
    rndLoop len src (.bytes n :: rs) s =
      (some (s.rc + m), { s.filled src m with rc := s.rc + m }) := by
  have hend : toSsize len ≤ (s.filled src m).rc + m := hrc
  rw [rndLoop, read_bytes hm]
  dsimp only
  rw [if_neg (by omega), if_neg (by omega), if_pos hend]
  rfl

end Step

/-! ## The stores of a call are kept -/

section Stores

variable {len : UInt64} {src : Nat → UInt8} {w : Int × Nat}

theorem mem_stores_read {want : Nat} {s : Run} (r : ReadRes) (hw : w ∈ s.stores) :
    w ∈ (read src want s r).2.stores := by
  cases r with
  | bytes n => exact mem_append_left _ hw
  | fails errno => exact hw

theorem mem_stores_step {r : ReadRes} {rs : List ReadRes} {s : Run}
    (hrest : ∀ s', w ∈ s'.stores → w ∈ (rndLoop len src rs s').2.stores)
    (hw : w ∈ (read src (len.toNat - s.rc).toNat s r).2.stores) :
    w ∈ (rndLoop len src (r :: rs) s).2.stores := by
  rw [rndLoop]
  generalize read src (len.toNat - s.rc).toNat s r = x at hw
  dsimp only
  split
  · exact hw
  split
  · exact hw
  split
  · exact hw
  · exact hrest _ hw

theorem mem_stores (rs : List ReadRes) (s : Run) (hw : w ∈ s.stores) :
    w ∈ (rndLoop len src rs s).2.stores := by
  induction rs generalizing s with
  | nil => exact hw
  | cons r rs ih => exact mem_stores_step ih (mem_stores_read r hw)

theorem mem_stores_bytes (n : Nat) (rs : List ReadRes) (s : Run) :
    (s.p, taken n (len.toNat - s.rc).toNat) ∈ (rndLoop len src (.bytes n :: rs) s).2.stores := by
  apply mem_stores_step (mem_stores rs)
  show _ ∈ s.stores ++ [(s.p, taken n (len.toNat - s.rc).toNat)]
  exact mem_append_right _ (mem_singleton_self _)

end Stores

/-! ## The loop -/

/-- The loop after `d` bytes and `e` interruptions. -/
structure At (len d e : Nat) (s : Run) : Prop where
  rc : s.rc = (d : Int) - e
  p : s.p = (d : Int) - e
  got : s.got = d
  room : d < len + e ∨ d = 0 ∧ e = 0

/-- The stores of the loop are inside the buffer, and without an interruption the bytes are
there. -/
structure Kept (len : Nat) (src : Nat → UInt8) (d e : Nat) (s : Run) : Prop where
  inside : ∀ w ∈ s.stores, ∀ i, w.1 ≤ i → i < w.1 + w.2 → 0 ≤ i ∧ i < len
  bytes : e = 0 → ∀ i < d, s.mem i = src i
  none : len = 0 → d = 0

section Loop

variable {len : UInt64} {src : Nat → UInt8} {rs : List ReadRes} {s : Run} {n l d e : Nat}

theorem At.eintr (h : At l d e s) :
    At l d (e + 1) { s with rc := s.rc - 1, p := s.p - 1 } where
  rc := by show s.rc - 1 = _; rw [h.rc]; omega
  p := by show s.p - 1 = _; rw [h.p]; omega
  got := h.got
  room := by have := h.room; omega

theorem At.bytes (h : At l d e s) (hn : d + n < l + e) :
    At l (d + n) e { s.filled src n with rc := s.rc + n, p := s.p + n } where
  rc := by show s.rc + n = _; rw [h.rc]; omega
  p := by show s.p + n = _; rw [h.p]; omega
  got := by show s.got + n = _; rw [h.got]
  room := .inl hn

theorem At.rc_le (h : At l d e s) : s.rc ≤ l := by
  have := h.room
  rw [h.rc]
  omega

theorem At.taken (hlen : len.toNat < 2 ^ 63) (h : At len.toNat d e s) (hed : e ≤ d) :
    taken n (len.toNat - s.rc).toNat = min n (len.toNat + e - d) := by
  have := h.room
  rw [Rnd.taken, h.rc, ssizeMax]
  omega

theorem Kept.eintr (h : Kept l src d e s) :
    Kept l src d (e + 1) { s with rc := s.rc - 1, p := s.p - 1 } where
  inside := h.inside
  bytes := fun he => absurd he (Nat.succ_ne_zero e)
  none := h.none

theorem Kept.filled_inside (h : Kept l src d e s) (hat : At l d e s) (hed : e ≤ d)
    (hn : d + n ≤ l + e) :
    ∀ w ∈ (s.filled src n).stores, ∀ i, w.1 ≤ i → i < w.1 + w.2 → 0 ≤ i ∧ i < l := by
  intro w hw i h1 h2
  rcases mem_append.mp hw with hold | hnew
  · exact h.inside w hold i h1 h2
  · rw [mem_singleton.mp hnew] at h1 h2
    have hp := hat.p
    simp only at h1 h2
    omega

theorem Kept.filled_bytes (h : Kept l src d 0 s) (hat : At l d 0 s) :
    ∀ i < d + n, (s.filled src n).mem i = src i := by
  intro i hi
  have hp : s.p = d := by rw [hat.p]; omega
  by_cases hold : i < d
  · rw [filled_mem_before s (by omega)]
    exact h.bytes rfl i hold
  · have hin : i - d < n := by omega
    have hmem : (s.filled src n).mem (s.p + (i - d : Nat)) = src (s.got + (i - d)) :=
      filled_mem s hin
    rw [hp, hat.got] at hmem
    rw [show (i : Int) = d + (i - d : Nat) by omega, hmem]
    congr 1
    omega

theorem Kept.filled (h : Kept l src d e s) (hat : At l d e s) (hed : e ≤ d)
    (hn : d + n < l + e) :
    Kept l src (d + n) e { s.filled src n with rc := s.rc + n, p := s.p + n } where
  inside := h.filled_inside hat hed (Nat.le_of_lt hn)
  bytes := by
    intro he
    subst he
    exact h.filled_bytes hat
  none := by omega

theorem Kept.faithful_none (h : Kept l src d e s) (hat : At l d e s) :
    Faithful l src (some 0, s.filled src 0) where
  inside := by
    intro w hw i h1 h2
    rcases mem_append.mp hw with hold | hnew
    · exact h.inside w hold i h1 h2
    · rw [mem_singleton.mp hnew] at h1 h2
      exact absurd h2 (by simp only; omega)
  whole := by
    intro hret
    have hl : l = 0 := by have := Option.some.inj hret; omega
    refine ⟨?_, fun i hi => absurd hi (by omega)⟩
    show s.got + 0 = l
    rw [hat.got, h.none hl, hl]

theorem Kept.faithful_last (h : Kept l src d 0 s) (hat : At l d 0 s) (hn : d + n = l) (rc : Int) :
    Faithful l src (some rc, { s.filled src n with rc := rc }) where
  inside := h.filled_inside hat (Nat.zero_le d) (Nat.le_of_eq hn)
  whole := by
    intro _
    refine ⟨?_, fun i hi => h.filled_bytes hat i (by omega)⟩
    show s.got + n = l
    rw [hat.got, hn]

theorem At.faithful (hlen : len.toNat < 2 ^ 63) (hat : At len.toNat d e s)
    (hk : Kept len.toNat src d e s) (hu : Undisturbed len.toNat d e rs) :
    Faithful len.toNat src (rndLoop len src rs s) := by
  induction rs generalizing s d e with
  | nil => exact ⟨hk.inside, nofun⟩
  | cons r rs ih =>
    cases r with
    | fails errno =>
      by_cases herr : errno = Rnd.eintr
      · subst herr
        rw [rndLoop_eintr hlen hat.rc_le]
        exact ih hat.eintr hk.eintr (hu rfl)
      · rw [rndLoop_fails herr]
        refine ⟨hk.inside, fun hret => ?_⟩
        have hneg := edEsys_neg errno
        have := Option.some.inj hret
        omega
    | bytes n =>
      rcases Nat.eq_zero_or_pos n with hn | hn
      · rw [rndLoop_none (by rw [hn, Rnd.taken, Nat.zero_min])]
        exact hk.faithful_none hat
      obtain ⟨hed, hgo, hend⟩ := hu.resolve_left (by omega)
      have htaken := hat.taken (n := n) hlen hed
      by_cases hmore : d + n < len.toNat + e
      · -- there is room for more bytes than came
        rw [rndLoop_bytes hlen (htaken.trans (by omega)) hn (by rw [hat.rc]; omega)]
        exact ih (hat.bytes hmore) (hk.filled hat hed hmore) (hgo hmore)
      · -- the buffer is full now, or had no room from the start
        have he : e = 0 := hend (by omega)
        subst he
        by_cases hroom : d < len.toNat
        · have hret : toSsize len ≤ s.rc + (len.toNat - d : Nat) := by
            rw [toSsize_of_lt hlen, hat.rc]
            omega
          rw [rndLoop_last (htaken.trans (by omega)) (by omega) hret]
          exact hk.faithful_last hat (by omega) _
        · rw [rndLoop_none (htaken.trans (by omega))]
          exact hk.faithful_none hat

theorem At.undisturbed (hlen : len.toNat < 2 ^ 63) (hat : At len.toNat d e s)
    (hf : Faithful len.toNat src (rndLoop len src rs s)) : Undisturbed len.toNat d e rs := by
  induction rs generalizing s d e with
  | nil => exact trivial
  | cons r rs ih =>
    cases r with
    | fails errno =>
      intro herr
      subst herr
      rw [rndLoop_eintr hlen hat.rc_le] at hf
      exact ih hat.eintr hf
    | bytes n =>
      rcases Nat.eq_zero_or_pos n with hn | hn
      · exact .inl hn
      have hed : e ≤ d := by
        -- otherwise the bytes would go in front of the buffer
        by_contra hlt
        have hpos : 0 < Rnd.taken n (len.toNat - s.rc).toNat := by
          rw [Rnd.taken, hat.rc, ssizeMax]
          omega
        have hin := hf.inside _ (mem_stores_bytes n rs s) s.p (Int.le_refl _) (by simp only; omega)
        rw [hat.p] at hin
        omega
      have htaken := hat.taken (n := n) hlen hed
      refine .inr ⟨hed, fun hmore => ?_, fun hlast => ?_⟩
      · rw [rndLoop_bytes hlen (htaken.trans (by omega)) hn (by rw [hat.rc]; omega)] at hf
        exact ih (hat.bytes hmore) hf
      · -- the call returns `len`, but more bytes came
        by_contra he
        have hroom : d < len.toNat + e := by have := hat.room; omega
        have hret : s.rc + (len.toNat + e - d : Nat) = len.toNat := by rw [hat.rc]; omega
        rw [rndLoop_last (htaken.trans (Nat.min_eq_right (by omega))) (by omega)
          (by rw [toSsize_of_lt hlen]; omega)] at hf
        have hgot : s.got + (len.toNat + e - d) = len.toNat := (hf.whole (congrArg some hret)).1
        rw [hat.got] at hgot
        omega

end Loop

/-! ## A whole call -/

theorem at_start (l : Nat) (mem : Int → UInt8) : At l 0 0 (.start mem) :=
  ⟨rfl, rfl, rfl, .inr ⟨rfl, rfl⟩⟩

theorem kept_start (l : Nat) (src : Nat → UInt8) (mem : Int → UInt8) :
    Kept l src 0 0 (.start mem) :=
  ⟨nofun, fun _ _ hi => absurd hi (Nat.not_lt_zero _), fun _ => rfl⟩

theorem Kept.faithful_failed {l d e : Nat} {src : Nat → UInt8} {s : Run} {ret : Option Int}
    (h : Kept l src d e s) (hret : ∀ rc, ret = some rc → rc < 0) : Faithful l src (ret, s) where
  inside := h.inside
  whole hlen := absurd (hret _ hlen) (by omega)

/-- For a length of `2^63` and more, which is negative as `ssize_t`, the loop ends after one
call. -/
theorem Kept.faithful_large {len : UInt64} {src : Nat → UInt8} {s : Run}
    (hlen : 2 ^ 63 ≤ len.toNat) (hk : Kept len.toNat src 0 0 s) (hat : At len.toNat 0 0 s)
    (rs : List ReadRes) : Faithful len.toNat src (rndLoop len src rs s) := by
  have hcast : toSsize len = len.toNat - 2 ^ 64 := if_neg (Nat.not_lt.mpr hlen)
  have hlt : len.toNat < 2 ^ 64 := len.toNat_lt
  have hrc : s.rc = 0 := hat.rc
  cases rs with
  | nil => exact hk.faithful_failed nofun
  | cons r rs =>
    cases r with
    | fails errno =>
      by_cases herr : errno = Rnd.eintr
      · subst herr
        have hread : read src (len.toNat - s.rc).toNat s (.fails Rnd.eintr) = (-1, s) := rfl
        have hend : toSsize len ≤ s.rc + -1 := by rw [hcast, hrc]; omega
        rw [rndLoop, hread]
        dsimp only
        rw [if_neg fun h => h.2 rfl, if_neg (by decide), if_pos hend]
        refine ⟨hk.inside, fun h => ?_⟩
        have := Option.some.inj h
        omega
      · rw [rndLoop_fails herr]
        refine hk.faithful_failed fun rc h => ?_
        cases h
        exact edEsys_neg errno
    | bytes n =>
      obtain ⟨m, hm⟩ : ∃ m, taken n (len.toNat - s.rc).toNat = m := ⟨_, rfl⟩
      have hle : m < 2 ^ 63 := by rw [← hm, taken, ssizeMax]; omega
      rcases Nat.eq_zero_or_pos m with h0 | hpos
      · rw [rndLoop_none (hm.trans h0)]
        exact hk.faithful_none hat
      · rw [rndLoop_last hm hpos (by rw [hcast, hrc]; omega)]
        refine ⟨hk.filled_inside hat (Nat.le_refl 0) (by omega), fun h => ?_⟩
        have := Option.some.inj h
        omega

/-- Whether a call of `ed_rnd_buf` stores bytes only in the buffer, and returns `len` only with the
bytes that came in it: the results of `read` decide, unless the call does not get to them or the
length is negative as `ssize_t`. -/
theorem edRndBuf_faithful_iff (fd : Int) (opens : List OpenRes) (len : UInt64) (src : Nat → UInt8)
    (reads : List ReadRes) (mem : Int → UInt8) :
    Faithful len.toNat src (edRndBuf fd opens len src reads mem) ↔
      (fd < 0 ∧ ∀ fd', edRndOpen opens = some fd' → fd' < 0) ∨ 2 ^ 63 ≤ len.toNat ∨
        Undisturbed len.toNat 0 0 reads := by
  have hloop : Faithful len.toNat src (rndLoop len src reads (.start mem)) ↔
      2 ^ 63 ≤ len.toNat ∨ Undisturbed len.toNat 0 0 reads := by
    rcases Nat.lt_or_ge len.toNat (2 ^ 63) with hlen | hlen
    · rw [or_iff_right (Nat.not_le.mpr hlen)]
      exact ⟨(at_start _ mem).undisturbed hlen,
        (at_start _ mem).faithful hlen (kept_start _ src mem)⟩
    · have hlarge := (kept_start _ src mem).faithful_large hlen (at_start _ mem) reads
      exact iff_of_true hlarge (.inl hlen)
  rw [edRndBuf]
  by_cases hfd : fd < 0
  · rw [if_pos hfd]
    cases hopen : edRndOpen opens with
    | none => exact iff_of_true ((kept_start _ src mem).faithful_failed nofun) (.inl ⟨hfd, nofun⟩)
    | some fd' =>
      dsimp only
      by_cases hneg : fd' < 0
      · rw [if_pos hneg]
        refine iff_of_true ((kept_start _ src mem).faithful_failed fun rc h => ?_)
          (.inl ⟨hfd, fun rc h => ?_⟩)
        · cases h
          exact hneg
        · cases h
          exact hneg
      · have hopened : ¬ (fd < 0 ∧ ∀ x, some fd' = some x → x < 0) := fun h => hneg (h.2 fd' rfl)
        rw [if_neg hneg, hloop, or_iff_right hopened]
  · have hgiven : ¬ (fd < 0 ∧ ∀ x, edRndOpen opens = some x → x < 0) := fun h => hfd h.1
    rw [if_neg hfd, hloop, or_iff_right hgiven]

/-- One interruption before the only byte: the call returns `1`, but its first byte went in front of
the buffer. -/
theorem edRndBuf_interrupted :
    (edRndBuf 3 [] 1 UInt8.ofNat [.fails eintr, .bytes 2] fun _ => 0).1 = some 1 ∧
      ¬ Faithful 1 UInt8.ofNat
        (edRndBuf 3 [] 1 UInt8.ofNat [.fails eintr, .bytes 2] fun _ => 0) := by
  refine ⟨by decide, fun h => ?_⟩
  have hin := h.inside (-1, 2) (by decide) (-1) (by decide) (by decide)
  exact absurd hin.1 (by decide)

end Eddy.Rnd
