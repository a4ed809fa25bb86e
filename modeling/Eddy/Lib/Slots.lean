import Mathlib.Data.List.Basic
import Mathlib.Data.List.Range
import Mathlib.Logic.Function.Basic

/-!
# Fixed arrays read through a length field

An on-page array is a function from slot numbers to values; how many of its slots are in
use is kept in a separate length field, and the slots past it still hold old values.
`slots f n` is the list of the first `n` slots. The lemmas say what a block copy, a shift
by one and a single store do to that list.
-/

namespace Slots

open List

variable {α : Type} {i n : Nat} {f : Nat → α}

/-- The first `n` slots of an array. -/
def slots (f : Nat → α) (n : Nat) : List α := (List.range n).map f

/-- Copy `n` slots of `src` from `si` on over the slots of `dst` from `di` on. -/
def blit (dst : Nat → α) (di : Nat) (src : Nat → α) (si n : Nat) : Nat → α :=
  fun j => if di ≤ j ∧ j < di + n then src (si + (j - di)) else dst j

/-- Store one slot. -/
def store (f : Nat → α) (i : Nat) (v : α) : Nat → α := fun j => if j = i then v else f j

@[simp] theorem store_self (f : Nat → α) (i : Nat) (v : α) : store f i v i = v := by
  simp [store]

theorem store_of_ne (f : Nat → α) {j : Nat} (v : α) (h : j ≠ i) : store f i v j = f j := by
  simp [store, h]

theorem store_same (f : Nat → α) (i : Nat) : store f i (f i) = f := by
  funext j
  by_cases h : j = i
  · rw [h, store_self]
  · rw [store_of_ne f _ h]

@[simp] theorem length_slots (f : Nat → α) (n : Nat) : (slots f n).length = n := by
  simp [slots]

@[simp] theorem slots_zero (f : Nat → α) : slots f 0 = [] := rfl

theorem getElem?_slots (f : Nat → α) (h : i < n) : (slots f n)[i]? = some (f i) := by
  simp [slots, List.getElem?_map, List.getElem?_range h]

theorem getElem_slots (f : Nat → α) (h : i < (slots f n).length) : (slots f n)[i] = f i := by
  simp [slots]

theorem mem_slots {a : α} : a ∈ slots f n ↔ ∃ i, i < n ∧ f i = a := by
  simp [slots]

theorem slots_congr {g : Nat → α} (h : ∀ i, i < n → f i = g i) : slots f n = slots g n := by
  unfold slots
  exact map_congr_left (fun i hi => h i (mem_range.mp hi))

theorem eq_slots {l : List α} (hl : l.length = n) (h : ∀ i, i < n → l[i]? = some (f i)) :
    l = slots f n := by
  apply ext_getElem?
  intro i
  rcases Nat.lt_or_ge i n with hi | hi
  · rw [h i hi, getElem?_slots f hi]
  · rw [List.getElem?_eq_none_iff.mpr (by omega), List.getElem?_eq_none_iff.mpr (by simpa using hi)]

theorem slots_succ (f : Nat → α) (n : Nat) : slots f (n + 1) = slots f n ++ [f n] := by
  simp [slots, range_succ]

theorem take_slots (f : Nat → α) {m : Nat} (h : m ≤ n) : (slots f n).take m = slots f m := by
  apply eq_slots
  · simp [h]
  · intro i hi
    rw [List.getElem?_take_of_lt hi, getElem?_slots f (by omega)]

theorem drop_slots (f : Nat → α) (m n : Nat) :
    (slots f n).drop m = slots (fun j => f (m + j)) (n - m) := by
  apply eq_slots
  · simp
  · intro i hi
    rw [List.getElem?_drop, getElem?_slots f (by omega)]

theorem set_slots (f : Nat → α) (n i : Nat) (v : α) :
    (slots f n).set i v = slots (store f i v) n := by
  apply eq_slots
  · simp
  · intro j hj
    rw [List.getElem?_set]
    by_cases hij : i = j
    · subst hij
      simp [hj]
    · rw [if_neg hij, getElem?_slots f hj, store_of_ne f v (Ne.symm hij)]

/-- Replace `m` elements from slot `i` on by the list `mid`: the slots in front of them stay, the
slots behind them move. -/
theorem slots_splice (f f' : Nat → α) (mid : List α) {m : Nat} (h : i + m ≤ n)
    (hfront : ∀ j, j < i → f' j = f j) (hmid : ∀ j, j < mid.length → mid[j]? = some (f' (i + j)))
    (hback : ∀ j, i + m ≤ j → j < n → f' (j - m + mid.length) = f j) :
    slots f' (n - m + mid.length) = (slots f n).take i ++ mid ++ (slots f n).drop (i + m) := by
  symm
  apply eq_slots
  · simp; omega
  · intro j hj
    have hlen : ((slots f n).take i).length = i := by simp; omega
    rw [append_assoc]
    rcases Nat.lt_or_ge j i with h1 | h1
    · rw [List.getElem?_append_left (by omega), List.getElem?_take_of_lt h1,
        getElem?_slots f (by omega), hfront j h1]
    · rw [List.getElem?_append_right (by omega), hlen]
      rcases Nat.lt_or_ge (j - i) mid.length with h2 | h2
      · rw [List.getElem?_append_left h2, hmid _ h2, show i + (j - i) = j by omega]
      · rw [List.getElem?_append_right h2, List.getElem?_drop, getElem?_slots f (by omega),
          ← hback (i + m + (j - i - mid.length)) (by omega) (by omega)]
        congr 2
        omega

end Slots
