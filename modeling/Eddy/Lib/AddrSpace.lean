import Mathlib.Data.List.Perm.Subperm
import Mathlib.Data.List.Pairwise

/-!
# An address space made of pages

A process maps areas of whole pages and unmaps ranges of pages. Unmapping is by address: nothing
ties it to the area that was mapped there.

* `Space`: which pages are mapped, and the areas that the process believes to have;
* `Intact`: all of these areas are mapped and they do not overlap;
* `Intact.map`, `Intact.unmap`: mapping unused pages and unmapping exactly one of the areas keeps
  this.
-/

namespace AddrSpace

open List

/-- A range of pages. -/
structure Area where
  base : Nat
  pages : Nat
  deriving DecidableEq, Repr

/-- The page `p` lies in the area. -/
def Area.Has (a : Area) (p : Nat) : Prop := a.base ≤ p ∧ p < a.base + a.pages

instance (a : Area) (p : Nat) : Decidable (a.Has p) := inferInstanceAs (Decidable (_ ∧ _))

/-- The pages that are mapped, and the areas that were mapped and not yet given up. -/
structure Space where
  used : Nat → Bool
  live : List Area

namespace Space

variable (s : Space)

/-- The pages of the area are mapped. -/
def map (a : Area) : Space where
  used p := decide (a.Has p) || s.used p
  live := a :: s.live

/-- The area `a` is given up by unmapping the pages of `freed`. -/
def unmap (a freed : Area) : Space where
  used p := s.used p && !decide (freed.Has p)
  live := s.live.erase a

/-- No page of the area is mapped. -/
def Fresh (a : Area) : Prop := ∀ p, a.Has p → s.used p = false

/-- Every area is mapped as a whole, and no page belongs to two areas. -/
structure Intact : Prop where
  full : ∀ a ∈ s.live, ∀ p, a.Has p → s.used p = true
  apart : s.live.Pairwise fun a b => ∀ p, a.Has p → ¬ b.Has p

end Space

variable {s : Space} {a : Area}

theorem Space.Intact.map (h : s.Intact) (hf : s.Fresh a) : (s.map a).Intact where
  full b hb p hp := by
    show (decide (a.Has p) || s.used p) = true
    rcases mem_cons.mp hb with rfl | hb'
    · rw [decide_eq_true hp, Bool.true_or]
    · rw [h.full b hb' p hp, Bool.or_true]
  apart := by
    refine pairwise_cons.mpr ⟨fun b hb p hp hp' => ?_, h.apart⟩
    have hused := h.full b hb p hp'
    rw [hf p hp] at hused
    cases hused

theorem Space.Intact.unmap (h : s.Intact) (ha : a ∈ s.live) : (s.unmap a a).Intact where
  full b hb p hp := by
    have hb' : b ∈ s.live := mem_of_mem_erase hb
    have hnot : ¬ a.Has p := by
      intro hap
      -- The area `b` is still there after one `a` is taken out, so the two are apart.
      have hperm : s.live.Perm (a :: s.live.erase a) := perm_cons_erase ha
      have hapart := (hperm.pairwise_iff fun {x y} hxy q hq hq' => hxy q hq' hq).mp h.apart
      exact (pairwise_cons.mp hapart).1 b hb p hap hp
    show (s.used p && !decide (a.Has p)) = true
    rw [h.full b hb' p hp, decide_eq_false hnot]
    rfl
  apart := h.apart.sublist erase_sublist

end AddrSpace
