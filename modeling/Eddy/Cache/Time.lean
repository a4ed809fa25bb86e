import Mathlib.Algebra.Group.Int.Defs
import Eddy.Cache.Object

/-!
# Eddy — expiry times

Times are seconds since the UNIX epoch, in signed 64 bits. An entry stores its expiry in unsigned 32
bits, relative to the epoch of the index; the smallest and the largest value are reserved for a
deleted entry and for one that never expires. A signed operation that overflows is undefined, and has
no result here.
-/

namespace Eddy.Time

/-- A value of a signed 64-bit type. -/
def Fits64 (x : Int) : Prop := -2 ^ 63 ≤ x ∧ x < 2 ^ 63

instance (x : Int) : Decidable (Fits64 x) := inferInstanceAs (Decidable (_ ∧ _))

/-- The result of a signed 64-bit operation. -/
def int64 (x : Int) : Option Int := if Fits64 x then some x else none

/-- `ED_TIME_MAX`. -/
def edTimeMax : Nat := 2 ^ 32 - 2

/-- The conversion to `EdTime`. -/
def toEdTime (x : Int) : Nat := (x % 2 ^ 32).toNat

/-- `ed_time_from_unix`. -/
def edTimeFromUnix (epoch at' : Int) : Option Nat :=
  if (edTimeMax : Int) < at' then some edTimeMax
  else if at' < 0 then some edTimeInf
  else if at' ≤ epoch then some edTimeDelete
  else (int64 (at' - epoch)).map toEdTime

/-- `ed_time_to_unix`. -/
def edTimeToUnix (epoch : Int) (at' : Nat) : Option Int :=
  if at' = edTimeInf then some (-1)
  else if at' = edTimeDelete then some 0
  else int64 (at' + epoch)

/-- `ed_expiry_at`. -/
def edExpiryAt (epoch ttl at' : Int) : Option Nat :=
  if ttl < 0 then some edTimeInf
  else (int64 (at' + ttl)).bind (edTimeFromUnix epoch)

/-- `ed_ttl_at`. -/
def edTtlAt (epoch : Int) (exp : Nat) (at' : Int) : Option Int :=
  if exp = edTimeInf then some (-1)
  else if exp = edTimeDelete then some 0
  else do
    let unix ← edTimeToUnix epoch exp
    let ttl ← int64 (unix - at')
    pure (if ttl < 0 then 0 else ttl)

/-- `ed_expired_at`. -/
def edExpiredAt (epoch : Int) (exp : Nat) (at' : Int) : Option Bool :=
  if exp = edTimeInf then some false
  else if exp = edTimeDelete then some true
  else do
    let cmp ← edTimeToUnix epoch exp
    pure (decide (cmp ≤ at'))

variable {epoch ttl t0 t at' : Int} {exp : Nat}

theorem int64_eq {x : Int} (h : Fits64 x) : int64 x = some x := if_pos h

/-- A stored value that is not reserved. -/
structure Plain (exp : Nat) : Prop where
  notDelete : exp ≠ edTimeDelete
  notInf : exp ≠ edTimeInf

theorem edTimeToUnix_plain (h : Plain exp) (hfit : Fits64 (exp + epoch)) :
    edTimeToUnix epoch exp = some (exp + epoch) := by
  rw [edTimeToUnix, if_neg h.notInf, if_neg h.notDelete, int64_eq hfit]

theorem edExpiredAt_plain (h : Plain exp) (hfit : Fits64 (exp + epoch)) :
    edExpiredAt epoch exp t = some true ↔ exp + epoch ≤ t := by
  rw [edExpiredAt, if_neg h.notInf, if_neg h.notDelete, edTimeToUnix_plain h hfit]
  simp

theorem edTtlAt_plain (h : Plain exp) (hfit : Fits64 (exp + epoch)) (hsub : Fits64 (exp + epoch - t)) :
    edTtlAt epoch exp t = some 0 ↔ exp + epoch ≤ t := by
  rw [edTtlAt, if_neg h.notInf, if_neg h.notDelete, edTimeToUnix_plain h hfit]
  simp only [Option.bind_eq_bind, Option.bind_some, int64_eq hsub, Option.pure_def, Option.some.injEq]
  split <;> omega

/-! ## What is stored -/

theorem edTimeFromUnix_after (h0 : 0 ≤ epoch) (hlt : epoch < at') (hfit : at' < 2 ^ 63) :
    edTimeFromUnix epoch at'
      = some (if (edTimeMax : Int) < at' then edTimeMax else (at' - epoch).toNat) := by
  unfold edTimeFromUnix
  split
  · rfl
  · rename_i hmax
    have hsmall : at' ≤ 2 ^ 32 - 2 := by
      have : (edTimeMax : Int) = 2 ^ 32 - 2 := by decide
      omega
    rw [if_neg (by omega), if_neg (by omega), int64_eq ⟨by omega, by omega⟩, Option.map_some, toEdTime,
      Int.emod_eq_of_lt (by omega) (by omega)]

/-- An expiry that is stored as it was asked for, up to the largest one there is: it is not a reserved
value, comes back unchanged, and the entry expires and has no time to live from then on. -/
def KeepsExpiry (epoch ttl t0 : Int) : Prop :=
  ∃ exp, edExpiryAt epoch ttl t0 = some exp ∧ exp ≠ edTimeDelete ∧ exp ≠ edTimeInf ∧
    edTimeToUnix epoch exp = some (min (t0 + ttl) (epoch + edTimeMax)) ∧
    (∀ t, edExpiredAt epoch exp t = some true ↔ min (t0 + ttl) (epoch + edTimeMax) ≤ t) ∧
    ∀ t, Fits64 (min (t0 + ttl) (epoch + edTimeMax) - t) →
      (edTtlAt epoch exp t = some 0 ↔ min (t0 + ttl) (epoch + edTimeMax) ≤ t)

/-- The expiry is kept unless it lies above the largest stored value as an absolute time, but below it
as a time after the epoch of the index. -/
theorem keepsExpiry_iff (h0 : 0 ≤ epoch) (httl : 0 ≤ ttl) (hlt : epoch < t0 + ttl)
    (hfit : t0 + ttl < 2 ^ 63) (hmax : epoch + edTimeMax < 2 ^ 63) :
    KeepsExpiry epoch ttl t0 ↔ t0 + ttl ≤ edTimeMax ∨ epoch + edTimeMax ≤ t0 + ttl := by
  have hM : (edTimeMax : Int) = 2 ^ 32 - 2 := by decide
  have hstore : edExpiryAt epoch ttl t0
      = some (if (edTimeMax : Int) < t0 + ttl then edTimeMax else (t0 + ttl - epoch).toNat) := by
    rw [edExpiryAt, if_neg (by omega), int64_eq ⟨by omega, hfit⟩, Option.bind_some]
    exact edTimeFromUnix_after h0 hlt hfit
  constructor
  · rintro ⟨exp, hexp, hdel, hinf, hback, -⟩
    by_contra hno
    obtain ⟨habove, hbelow⟩ := not_or.mp hno
    -- the largest value was stored, and comes back
    rw [hstore, if_pos (Int.not_le.mp habove)] at hexp
    cases hexp
    rw [edTimeToUnix_plain ⟨hdel, hinf⟩ ⟨by omega, by omega⟩, Option.some.injEq] at hback
    omega
  · intro hcond
    -- in both cases the stored value is the time after the epoch, up to the largest one
    obtain ⟨exp, hexp, hval, hpos, hle'⟩ : ∃ exp : Nat, edExpiryAt epoch ttl t0 = some exp ∧
        (exp : Int) + epoch = min (t0 + ttl) (epoch + edTimeMax) ∧ 0 < exp ∧ exp ≤ edTimeMax := by
      by_cases hbig : (edTimeMax : Int) < t0 + ttl
      · refine ⟨edTimeMax, by rw [hstore, if_pos hbig], ?_, by decide, le_rfl⟩
        omega
      · refine ⟨(t0 + ttl - epoch).toNat, by rw [hstore, if_neg hbig], ?_, by omega, by omega⟩
        omega
    have hplain : Plain exp := by
      refine ⟨?_, ?_⟩
      · rw [edTimeDelete]
        omega
      · have : edTimeMax < edTimeInf := by decide
        omega
    have hfit' : Fits64 (exp + epoch) := ⟨by omega, by omega⟩
    refine ⟨exp, hexp, hplain.notDelete, hplain.notInf, ?_, fun t => ?_, fun t hsub => ?_⟩
    · rw [edTimeToUnix_plain hplain hfit', hval]
    · rw [edExpiredAt_plain hplain hfit', hval]
    · rw [← hval] at hsub ⊢
      exact edTtlAt_plain hplain hfit' hsub

/-- An hour from a time in 2020, in an index of 2017. -/
theorem keepsExpiry_hour : KeepsExpiry 1500000000 3600 1600000000 ↔
    (1600000000 : Int) + 3600 ≤ edTimeMax ∨ (1500000000 : Int) + edTimeMax ≤ 1600000000 + 3600 :=
  keepsExpiry_iff (by decide) (by decide) (by decide) (by decide) (by decide)

/-- A hundred years from then are stored as the largest value, although they would fit. -/
theorem loses_century : ¬ KeepsExpiry 1500000000 3155760000 1600000000 := by
  rintro ⟨exp, hexp, -, -, hback, -⟩
  have hstored : edExpiryAt 1500000000 3155760000 1600000000 = some edTimeMax := by decide
  rw [hstored] at hexp
  cases hexp
  exact absurd hback (by decide)

end Eddy.Time
