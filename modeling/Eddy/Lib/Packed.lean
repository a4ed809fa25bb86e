import Eddy.Lib.Slots

/-!
# Records of different length in one array

An array of words holds records one after another: each record is a string of words and takes a
number of words at least as long as that string. Where a record starts is known only from the
records before it.

* `window`, `overlay`: words are read and written a string at a time;
* `Laid`: the records stand in the array from a word on; `past` is the first word behind them;
* `laid_append`, `Laid.congr`, `Laid.shift`: records are added behind the others, the words behind
  them do not matter, and they can be moved as a whole.
-/

namespace Packed

open Slots List

variable {α ρ : Type} {m m' : Nat → α} {o o' n : Nat} {xs : List α}

/-! ## Strings of words -/

/-- The `n` words from `o` on. -/
def window (m : Nat → α) (o n : Nat) : List α := slots (fun i => m (o + i)) n

/-- The array with the words `xs` from `o` on. -/
def overlay (m : Nat → α) (o : Nat) (xs : List α) : Nat → α := fun i =>
  if o ≤ i then xs[i - o]?.getD (m i) else m i

@[simp] theorem length_window (m : Nat → α) (o n : Nat) : (window m o n).length = n :=
  length_slots _ _

theorem window_congr (h : ∀ i, o ≤ i → i < o + n → m' i = m i) : window m' o n = window m o n :=
  slots_congr fun i hi => h (o + i) (Nat.le_add_right o i) (Nat.add_lt_add_left hi o)

theorem window_add (m : Nat → α) (o n k : Nat) :
    window m o (n + k) = window m o n ++ window m (o + n) k := by
  unfold window slots
  rw [range_add, map_append, map_map]
  simp only [Function.comp_def, Nat.add_assoc]

theorem window_succ (m : Nat → α) (o n : Nat) : window m o (n + 1) = m o :: window m (o + 1) n := by
  rw [Nat.add_comm n 1, window_add]
  rfl

theorem drop_window (m : Nat → α) (o n k : Nat) :
    (window m o n).drop k = window m (o + k) (n - k) := by
  by_cases hk : k ≤ n
  · have hn : n = k + (n - k) := by omega
    conv_lhs => rw [hn, window_add]
    exact drop_left' (length_window m o k)
  · rw [show n - k = 0 by omega, drop_eq_nil_of_le (by rw [length_window]; omega)]
    rfl

theorem take_window (m : Nat → α) (o : Nat) {n k : Nat} (hk : k ≤ n) :
    (window m o n).take k = window m o k :=
  take_slots _ hk

theorem window_shift (m : Nat → α) (k o n : Nat) :
    window (fun i => m (i + k)) o n = window m (o + k) n := by
  unfold window
  exact slots_congr fun i _ => by rw [Nat.add_right_comm]

theorem overlay_of_lt {i : Nat} (h : i < o) : overlay m o xs i = m i := if_neg (by omega)

theorem overlay_of_le {i : Nat} (h : o + xs.length ≤ i) : overlay m o xs i = m i := by
  unfold overlay
  rw [if_pos (by omega), List.getElem?_eq_none (by omega)]
  rfl

theorem window_overlay_apart (h : o' + n ≤ o ∨ o + xs.length ≤ o') :
    window (overlay m o xs) o' n = window m o' n := by
  refine window_congr fun i h1 h2 => ?_
  rcases h with h | h
  · exact overlay_of_lt (by omega)
  · exact overlay_of_le (by omega)

@[simp] theorem window_overlay_self (m : Nat → α) (o : Nat) (xs : List α) :
    window (overlay m o xs) o xs.length = xs := by
  refine (eq_slots rfl fun i hi => ?_).symm
  show xs[i]? = some (overlay m o xs (o + i))
  unfold overlay
  rw [if_pos (Nat.le_add_right o i), Nat.add_sub_cancel_left, List.getElem?_eq_getElem hi]
  rfl

/-! ## Records -/

variable (enc : ρ → List α) (stride : ρ → Nat)

/-- The records stand in the array from word `o` on. -/
def Laid (m : Nat → α) : Nat → List ρ → Prop
  | _, [] => True
  | o, r :: rs => window m o (enc r).length = enc r ∧ Laid m (o + stride r) rs

/-- The first word behind the records. -/
def past : Nat → List ρ → Nat
  | o, [] => o
  | o, r :: rs => past (o + stride r) rs

/-- Where the last record stands. -/
def lastAt (o : Nat) (rs : List ρ) : Nat := past stride o rs.dropLast

variable {enc stride} {rs rs' : List ρ} {r : ρ}

theorem le_past (stride : ρ → Nat) (o : Nat) (rs : List ρ) : o ≤ past stride o rs := by
  induction rs generalizing o with
  | nil => exact Nat.le_refl o
  | cons r rs ih => exact (Nat.le_add_right o _).trans (ih _)

theorem past_append (stride : ρ → Nat) (o : Nat) (rs rs' : List ρ) :
    past stride o (rs ++ rs') = past stride (past stride o rs) rs' := by
  induction rs generalizing o with
  | nil => rfl
  | cons r rs ih => exact ih _

theorem lastAt_concat (stride : ρ → Nat) (o : Nat) (rs : List ρ) (r : ρ) :
    lastAt stride o (rs ++ [r]) = past stride o rs := by
  rw [lastAt, dropLast_concat]

theorem laid_append : Laid enc stride m o (rs ++ rs') ↔
    Laid enc stride m o rs ∧ Laid enc stride m (past stride o rs) rs' := by
  induction rs generalizing o with
  | nil => exact ⟨fun h => ⟨trivial, h⟩, fun h => h.2⟩
  | cons r rs ih =>
    show _ ∧ Laid enc stride m _ (rs ++ rs') ↔ (_ ∧ _) ∧ _
    rw [ih, and_assoc]
    rfl

theorem Laid.congr (hlen : ∀ r, (enc r).length ≤ stride r) (h : Laid enc stride m o rs)
    (hm : ∀ i, o ≤ i → i < past stride o rs → m' i = m i) : Laid enc stride m' o rs := by
  induction rs generalizing o with
  | nil => trivial
  | cons r rs ih =>
    have hle : o + stride r ≤ past stride o (r :: rs) := le_past stride _ rs
    refine ⟨?_, ih h.2 fun i hi => hm i (by omega)⟩
    refine (window_congr fun i h1 h2 => hm i h1 ?_).trans h.1
    have := hlen r
    omega

theorem Laid.shift {k : Nat} (hlen : ∀ r, (enc r).length ≤ stride r)
    (h : Laid enc stride m (o + k) rs) (hm : ∀ i, o ≤ i → i < past stride o rs → m' i = m (i + k)) :
    Laid enc stride m' o rs := by
  refine Laid.congr hlen (m := fun i => m (i + k)) ?_ hm
  clear hm
  induction rs generalizing o with
  | nil => trivial
  | cons r rs ih =>
    refine ⟨(window_shift m k o _).trans h.1, ih ?_⟩
    rw [Nat.add_right_comm]
    exact h.2

theorem past_add (stride : ρ → Nat) (o k : Nat) (rs : List ρ) :
    past stride (o + k) rs = past stride o rs + k := by
  induction rs generalizing o with
  | nil => rfl
  | cons r rs ih => rw [past, past, Nat.add_right_comm, ih]

end Packed
