import Mathlib.Data.List.Nodup
import Mathlib.Data.List.Perm.Subperm

/-!
# A list in blocks, read in a circle

A list that is stored in blocks has two kinds of places: an index into the whole list, and a block with
an offset inside of it. `rank` is the number of elements in front of a block and connects the two. A
reader that steps from block to block, and from the last block on to the first one, reads the whole
list in a circle, provided that no block it comes to is empty.

* `rank_next`, `rank_prev`: the neighbours across the border of a block;
* `div_step`: counting the rounds of a reader, which may go forwards or backwards;
* `round_perm`: one round reads every element once.
-/

namespace Blocks

open List

variable {α : Type} {bs : List (List α)} {b b' : List α} {a i j c w N : Nat}

/-- The number of elements in front of block `a`. -/
def rank (bs : List (List α)) (a : Nat) : Nat := (bs.take a).flatten.length

@[simp] theorem rank_zero (bs : List (List α)) : rank bs 0 = 0 := rfl

theorem rank_length (bs : List (List α)) : rank bs bs.length = bs.flatten.length := by
  rw [rank, take_length]

section

variable (hb : bs[a]? = some b)

include hb

theorem rank_succ : rank bs (a + 1) = rank bs a + b.length := by
  obtain ⟨ha, rfl⟩ := List.getElem?_eq_some_iff.mp hb
  rw [rank, rank, take_succ_eq_append_getElem ha, flatten_append, length_append]
  simp

theorem getElem?_flatten (hi : i < b.length) : bs.flatten[rank bs a + i]? = b[i]? := by
  obtain ⟨ha, rfl⟩ := List.getElem?_eq_some_iff.mp hb
  have hsplit : bs.flatten = (bs.take a).flatten ++ (bs[a] ++ (bs.drop (a + 1)).flatten) := by
    conv_lhs => rw [← take_append_drop a bs, drop_eq_getElem_cons ha]
    rw [flatten_append, flatten_cons]
  rw [hsplit, List.getElem?_append_right (by rw [rank]; omega), rank, Nat.add_sub_cancel_left,
    List.getElem?_append_left hi]

theorem rank_add_lt (hi : i < b.length) : rank bs a + i < bs.flatten.length := by
  have h := getElem?_flatten hb hi
  rw [List.getElem?_eq_getElem hi] at h
  exact (List.getElem?_eq_some_iff.mp h).1

theorem rank_next (hb' : bs[(a + 1) % bs.length]? = some b') (hne : 0 < b'.length) :
    rank bs ((a + 1) % bs.length) = (rank bs a + b.length) % bs.flatten.length := by
  obtain ⟨ha, -⟩ := List.getElem?_eq_some_iff.mp hb
  rcases Nat.lt_or_ge (a + 1) bs.length with hlt | hge
  · rw [Nat.mod_eq_of_lt hlt] at hb' ⊢
    have := rank_add_lt hb' hne
    rw [Nat.add_zero, rank_succ hb] at this
    rw [rank_succ hb, Nat.mod_eq_of_lt this]
  · obtain hL : a + 1 = bs.length := by omega
    rw [← rank_succ hb, hL, Nat.mod_self, rank_length, Nat.mod_self, rank_zero]

theorem rank_prev (hb' : bs[(a + bs.length - 1) % bs.length]? = some b') (hi : i + 1 = b'.length) :
    rank bs ((a + bs.length - 1) % bs.length) + i
      = (rank bs a + bs.flatten.length - 1) % bs.flatten.length := by
  obtain ⟨ha, -⟩ := List.getElem?_eq_some_iff.mp hb
  have hlt := rank_add_lt hb' (show i < b'.length by omega)
  cases a with
  | zero =>
    rw [Nat.zero_add, Nat.mod_eq_of_lt (by omega)] at hb' hlt ⊢
    have hrank := rank_succ hb'
    rw [show bs.length - 1 + 1 = bs.length by omega, rank_length] at hrank
    rw [rank_zero, Nat.zero_add, Nat.mod_eq_of_lt (by omega)]
    omega
  | succ a =>
    have hmod : (a + 1 + bs.length - 1) % bs.length = a := by
      rw [show a + 1 + bs.length - 1 = a + bs.length by omega, Nat.add_mod_right,
        Nat.mod_eq_of_lt (by omega)]
    rw [hmod] at hb' hlt ⊢
    rw [rank_succ hb', show rank bs a + b'.length + bs.flatten.length - 1
      = rank bs a + i + bs.flatten.length by omega, Nat.add_mod_right, Nat.mod_eq_of_lt hlt]

end

/-! ## Rounds

A reader makes steps of the width `w` in a circle of `N` places: `1` forwards, and `N - 1` backwards.
-/

theorem dvd_sub_of_place_eq {x y : Nat} (hw : N.Coprime w) (h : (j + x * w) % N = (j + y * w) % N) :
    N ∣ x - y := by
  have hsub := Nat.sub_mod_eq_zero_of_mod_eq h
  rw [Nat.add_sub_add_left, ← Nat.sub_mul] at hsub
  exact hw.dvd_of_dvd_mul_right (Nat.dvd_of_mod_eq_zero hsub)

theorem back_iff (hj : j < N) (hw : N.Coprime w) : (j + c * w) % N = j ↔ N ∣ c := by
  constructor
  · intro h
    refine dvd_sub_of_place_eq (j := j) (y := 0) hw ?_
    rw [h, Nat.zero_mul, Nat.add_zero, Nat.mod_eq_of_lt hj]
  · rintro ⟨k, rfl⟩
    rw [Nat.mul_assoc, Nat.add_mul_mod_self_left, Nat.mod_eq_of_lt hj]

theorem div_step (hj : j < N) (hw : N.Coprime w) :
    (c + 1) / N = c / N + if (j + (c + 1) * w) % N = j then 1 else 0 := by
  rw [Nat.succ_div]
  simp only [back_iff hj hw]

theorem step_mod : ((j + c * w) % N + w) % N = (j + (c + 1) * w) % N := by
  rw [Nat.mod_add_mod, Nat.add_assoc, Nat.succ_mul]

theorem coprime_pred (hN : 0 < N) : N.Coprime (N - 1) := by
  obtain ⟨m, rfl⟩ : ∃ m, N = m + 1 := ⟨N - 1, by omega⟩
  rw [Nat.add_sub_cancel]
  rw [Nat.Coprime, Nat.gcd_comm, Nat.gcd_self_add_right, Nat.gcd_one_right]

theorem places_perm (hN : 0 < N) (hw : N.Coprime w) (j : Nat) :
    ((List.range N).map fun t => (j + (t + 1) * w) % N).Perm (List.range N) := by
  have hinj : ((List.range N).map fun t => (j + (t + 1) * w) % N).Nodup := by
    refine List.Nodup.map_on ?_ nodup_range
    intro x hx y hy h
    have hxy := dvd_sub_of_place_eq hw h
    have hyx := dvd_sub_of_place_eq hw h.symm
    rw [mem_range] at hx hy
    have hx0 := Nat.eq_zero_of_dvd_of_lt hxy (by omega)
    have hy0 := Nat.eq_zero_of_dvd_of_lt hyx (by omega)
    omega
  refine (subperm_of_subset hinj ?_).perm_of_length_le (by simp)
  intro x hx
  obtain ⟨t, -, rfl⟩ := mem_map.mp hx
  exact mem_range.mpr (Nat.mod_lt _ hN)

theorem round_perm (l : List α) (hl : 0 < l.length) (hw : l.length.Coprime w) (j : Nat) :
    ((List.range l.length).map fun t => l[(j + (t + 1) * w) % l.length]?).Perm (l.map some) := by
  have hall : (List.range l.length).map (fun t => l[t]?) = l.map some := by
    apply ext_getElem
    · simp
    · intro t ht ht'
      simp only [getElem_map, getElem_range]
      rw [List.getElem?_eq_getElem (by simpa using ht)]
  have := (places_perm hl hw j).map fun t => l[t]?
  rwa [map_map, hall] at this

end Blocks
