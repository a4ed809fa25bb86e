import Mathlib.Logic.Basic

/-!
# A halving search

The search looks for a key among `nel` sorted entries from `base` on. `cmp i` compares the key with the
entry `i`, and may fail. An entry that is smaller than the key stays in the half that is searched next,
so that one entry that does not match has to end the search.

* `halve_cases`: the search ends, and what it finds matches, whatever the order of the entries; among
  sorted entries it finds the entry that matches.
-/

namespace Halving

variable {ε : Type} {cmp : Nat → Except ε Int} {c : Nat → Int} {base nel : Nat}

def halve (cmp : Nat → Except ε Int) (base nel : Nat) : Except ε (Option Nat) :=
  if h0 : nel = 0 then .ok none
  else do
    let v ← cmp (base + nel / 2)
    if v = 0 then .ok (some (base + nel / 2))
    else if h1 : nel = 1 then .ok none
    else if v < 0 then halve cmp base (nel / 2)
    else halve cmp (base + nel / 2) (nel - nel / 2)
termination_by nel

theorem halve_zero (cmp : Nat → Except ε Int) (base : Nat) : halve cmp base 0 = .ok none := by
  rw [halve, dif_pos rfl]

theorem halve_pos (h0 : nel ≠ 0) (hc : cmp (base + nel / 2) = .ok (c (base + nel / 2))) :
    halve cmp base nel =
      if c (base + nel / 2) = 0 then .ok (some (base + nel / 2))
      else if nel = 1 then .ok none
      else if c (base + nel / 2) < 0 then halve cmp base (nel / 2)
      else halve cmp (base + nel / 2) (nel - nel / 2) := by
  rw [halve, dif_neg h0, hc]
  rfl

/-- The entries are sorted by how they compare with the key: from one that is not above it on, they
are below it. -/
def Descending (c : Nat → Int) (base nel : Nat) : Prop :=
  ∀ i j, base ≤ i → i < j → j < base + nel → c i ≤ 0 → c j < 0

/-- The search ends, and what it finds matches. Among sorted entries it finds an entry when there is
one that matches. -/
theorem halve_cases (hcmp : ∀ i, base ≤ i → i < base + nel → cmp i = .ok (c i)) :
    (halve cmp base nel = .ok none ∧
      (Descending c base nel → ∀ i, base ≤ i → i < base + nel → c i ≠ 0)) ∨
      ∃ i, base ≤ i ∧ i < base + nel ∧ c i = 0 ∧ halve cmp base nel = .ok (some i) := by
  induction nel using Nat.strongRecOn generalizing base with
  | _ nel ih =>
    by_cases h0 : nel = 0
    · subst h0
      exact .inl ⟨halve_zero cmp base, fun _ i h1 h2 => absurd h2 (by omega)⟩
    rw [halve_pos h0 (hcmp _ (by omega) (by omega))]
    split
    · exact .inr ⟨_, by omega, by omega, by assumption, rfl⟩
    rename_i hne
    split
    · -- one entry is left
      refine .inl ⟨rfl, fun _ i h1 h2 => ?_⟩
      obtain rfl : i = base + nel / 2 := by omega
      exact hne
    split
    · -- the key is below the middle: so are no entries from the middle on
      rename_i hlt
      rcases ih (nel / 2) (by omega) (fun i h1 h2 => hcmp i h1 (by omega)) with
        ⟨h, hno⟩ | ⟨i, h1, h2, h⟩
      · refine .inl ⟨h, fun hsorted i h1 h2 => ?_⟩
        rcases Nat.lt_trichotomy i (base + nel / 2) with hi | rfl | hi
        · exact hno (fun i j h1 h2 h3 => hsorted i j h1 h2 (by omega)) i h1 hi
        · exact hne
        · have := hsorted _ i (by omega) hi h2 (by omega)
          omega
      · exact .inr ⟨i, h1, by omega, h⟩
    · -- the key is above the middle: no entry before the middle matches
      rename_i hge
      rcases ih (nel - nel / 2) (by omega)
        (fun i (h1 : base + nel / 2 ≤ i) h2 => hcmp i (by omega) (by omega)) with
        ⟨h, hno⟩ | ⟨i, h1, h2, h⟩
      · refine .inl ⟨h, fun hsorted i h1 h2 hzero => ?_⟩
        rcases Nat.lt_or_ge i (base + nel / 2) with hi | hi
        · have := hsorted i _ h1 hi (by omega) (by omega)
          omega
        · exact hno (fun i j h1 h2 h3 => hsorted i j (by omega) h2 (by omega)) i hi (by omega) hzero
      · exact .inr ⟨i, by omega, by omega, h⟩

end Halving
