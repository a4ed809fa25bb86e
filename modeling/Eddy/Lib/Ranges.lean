import Mathlib.Data.List.Basic
import Mathlib.Data.List.Perm.Basic

/-!
# Locks on byte ranges

The record locks of one process on a file: every byte is locked in some mode or not at all. A lock
call sets the mode of the bytes of a range, an unlock call clears them, whoever set them before; so
ranges merge and split. A range of length 0 reaches to the end of the file.

* `Held.lock`, `Held.unlock`: the calls;
* `Covers h rs`: the locked bytes are those of the ranges `rs`;
* `Covers.lock`, `Covers.unlock`: what one call does to this.
-/

namespace Ranges

/-- A range of bytes. -/
structure Range where
  start : Nat
  len : Nat
  deriving DecidableEq, Repr

instance : Membership Nat Range where
  mem r b := r.start ≤ b ∧ (r.len = 0 ∨ b < r.start + r.len)

instance (r : Range) (b : Nat) : Decidable (b ∈ r) :=
  inferInstanceAs (Decidable (r.start ≤ b ∧ (r.len = 0 ∨ b < r.start + r.len)))

/-- No byte is in both ranges. -/
def Range.Apart (r r' : Range) : Prop := ∀ b, b ∈ r → b ∉ r'

theorem Range.Apart.symm {r r' : Range} (h : r.Apart r') : r'.Apart r := fun b hb hb' => h b hb' hb

/-- The locks of a process: the mode of every byte. -/
abbrev Held (μ : Type) : Type := Nat → Option μ

namespace Held

variable {μ : Type}

def lock (h : Held μ) (r : Range) (m : μ) : Held μ := fun b => if b ∈ r then some m else h b

def unlock (h : Held μ) (r : Range) : Held μ := fun b => if b ∈ r then none else h b

end Held

variable {μ : Type} {h : Held μ} {rs rs' : List Range} {r : Range}

/-- The locked bytes are those of the ranges. -/
def Covers (h : Held μ) (rs : List Range) : Prop := ∀ b, (h b).isSome = true ↔ ∃ r ∈ rs, b ∈ r

theorem covers_nil : Covers (fun _ => none : Held μ) [] := by
  intro b
  simp

theorem Covers.perm (hc : Covers h rs) (hp : rs.Perm rs') : Covers h rs' := by
  intro b
  rw [hc b]
  simp only [hp.mem_iff]

theorem Covers.lock (hc : Covers h rs) (r : Range) (m : μ) : Covers (h.lock r m) (r :: rs) := by
  intro b
  unfold Held.lock
  by_cases hb : b ∈ r
  · simp [hb]
  · simp [hb, hc b]

theorem Covers.unlock (hc : Covers h (r :: rs)) (hr : ∀ r' ∈ rs, r.Apart r') :
    Covers (h.unlock r) rs := by
  intro b
  unfold Held.unlock
  by_cases hb : b ∈ r
  · rw [if_pos hb]
    refine ⟨nofun, ?_⟩
    rintro ⟨r', hr', hb'⟩
    exact absurd hb' (hr r' hr' b hb)
  · rw [if_neg hb, hc b]
    simp [hb]

end Ranges
