import Mathlib.Data.List.Range
import Mathlib.Data.List.Nodup

/-!
# Eddy — the scan of `ed_idx_repair_leaks`

`ed_idx_repair_leaks` visits the page numbers `0 .. stat->no` and collects the leaked ones in an
array of 64. When the array is full, or at the last page number, it passes the array to
`ed_free_pgno`. The source does not empty the array after that: a full array is passed on again at
every later page number, and the next leak is written behind its end.
-/

namespace Eddy

open List

/-- `ed_len(leaks)`. -/
def leaksLen : Nat := 64

/-- The scan between two page numbers: the collected leaks, the pages passed to `ed_free_pgno` so far,
and whether a call was refused. -/
structure Batch where
  leaks : List Nat
  freed : List Nat
  broke : Bool
  deriving DecidableEq

/-- The visit of one page number; `granted` is whether the calls of `ed_lck` and `ed_free_pgno` there
succeed. There is no result when the scan writes behind the array. -/
def repairTurn (leak granted : Nat → Bool) (npg : Nat) (b : Batch) (no : Nat) : Option Batch :=
  if b.broke then some b
  else
    let leaks := if leak no then b.leaks ++ [no] else b.leaks
    if leaksLen < leaks.length then none
    else if leaks.length = leaksLen ∨ (0 < leaks.length ∧ no = npg) then
      -- `ed_free_pgno(idx, 0, leaks, nleaks)`; `nleaks` stays as it is
      if granted no then some { b with leaks := leaks, freed := b.freed ++ leaks }
      else some { b with leaks := leaks, broke := true }
    else some { b with leaks := leaks }

/-- The scan of `ed_idx_repair_leaks`. -/
def repairLoop (leak granted : Nat → Bool) (npg : Nat) : Option Batch :=
  (List.range (npg + 1)).foldlM (repairTurn leak granted npg) ⟨[], [], false⟩

variable {leak granted : Nat → Bool} {npg : Nat}

/-- The leaks below a page number. -/
def leaksBelow (leak : Nat → Bool) (n : Nat) : List Nat := (List.range n).filter leak

theorem leaksBelow_succ (n : Nat) :
    leaksBelow leak (n + 1) = if leak n then leaksBelow leak n ++ [n] else leaksBelow leak n := by
  unfold leaksBelow
  rw [range_succ, filter_append, filter_singleton]
  cases leak n <;> simp

theorem leaksBelow_length_le {n m : Nat} (h : n ≤ m) :
    (leaksBelow leak n).length ≤ (leaksBelow leak m).length := by
  have hs : (List.range n).Sublist (List.range m) := range_sublist.mpr h
  exact (hs.filter leak).length_le

theorem nodup_leaksBelow (n : Nat) : (leaksBelow leak n).Nodup := nodup_range.filter _

theorem mem_leaksBelow {n p : Nat} : p ∈ leaksBelow leak n ↔ p < n ∧ leak p = true := by
  simp [leaksBelow]

/-- The scan up to a page number. -/
def repairUpTo (leak granted : Nat → Bool) (npg n : Nat) : Option Batch :=
  (List.range n).foldlM (repairTurn leak granted npg) ⟨[], [], false⟩

theorem repairUpTo_succ (n : Nat) :
    repairUpTo leak granted npg (n + 1) =
      (repairUpTo leak granted npg n).bind fun b => repairTurn leak granted npg b n := by
  unfold repairUpTo
  rw [range_succ, foldlM_append]
  simp only [foldlM_cons, foldlM_nil, bind_pure]
  rfl

theorem repairUpTo_few {n : Nat} (hn : n ≤ npg) (hfew : (leaksBelow leak n).length < leaksLen) :
    repairUpTo leak granted npg n = some ⟨leaksBelow leak n, [], false⟩ := by
  induction n with
  | zero => rfl
  | succ n ih =>
    have hle : (leaksBelow leak n).length ≤ (leaksBelow leak (n + 1)).length :=
      leaksBelow_length_le n.le_succ
    rw [repairUpTo_succ, ih (by omega) (by omega)]
    show repairTurn leak granted npg ⟨leaksBelow leak n, [], false⟩ n = _
    unfold repairTurn
    simp only [Bool.false_eq_true, if_false, ← leaksBelow_succ]
    rw [if_neg (by omega), if_neg]
    rintro (h | ⟨-, h⟩) <;> omega

/-- Fewer than 64 leaks are passed on once, at the last page number, if the calls there are
granted. -/
theorem repairLoop_few (hlast : leak npg = false)
    (hfew : (leaksBelow leak npg).length < leaksLen) :
    repairLoop leak granted npg = some ⟨leaksBelow leak npg,
      if granted npg then leaksBelow leak npg else [],
      !granted npg && decide (0 < (leaksBelow leak npg).length)⟩ := by
  have hup : repairUpTo leak granted npg npg = _ := repairUpTo_few le_rfl hfew
  have hsucc : leaksBelow leak (npg + 1) = leaksBelow leak npg := by
    rw [leaksBelow_succ, hlast]
    rfl
  show repairUpTo leak granted npg (npg + 1) = _
  rw [repairUpTo_succ, hup]
  show repairTurn leak granted npg ⟨leaksBelow leak npg, [], false⟩ npg = _
  unfold repairTurn
  simp only [Bool.false_eq_true, if_false, ← leaksBelow_succ, hsucc]
  rw [if_neg (by omega)]
  by_cases hpos : 0 < (leaksBelow leak npg).length
  · rw [if_pos (.inr ⟨hpos, trivial⟩)]
    cases granted npg <;> simp [hpos]
  · rw [if_neg (by rintro (h | h) <;> omega)]
    have hnil : leaksBelow leak npg = [] := length_eq_zero_iff.mp (by omega)
    cases granted npg <;> simp [hnil]

end Eddy
