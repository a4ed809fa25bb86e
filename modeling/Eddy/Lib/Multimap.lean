import Mathlib.Data.List.Sort

/-!
# Multimaps as sorted lists

A multimap is a list that is sorted by a key; entries with the same key stand next to each other.

* `put`: a new entry goes in front of the entries with its key;
* `overwrite`: it takes the place of the first entry with its key;
* `take`: the first entry with a key is removed;
* `first`: the first entry with a key.

`Cut key k pre suf` says that the list `pre ++ suf` is cut where the entries with the key `k` start.
The operations are given at a cut.
-/

namespace Multimap

open List

variable {E : Type} (key : E → Nat)

/-- The list is sorted by the key. -/
def Sorted (l : List E) : Prop := l.Pairwise fun a b => key a ≤ key b

/-- The new entry in front of the entries with its key. -/
def put (e : E) (l : List E) : List E := l.orderedInsert (fun a b => key a ≤ key b) e

/-- The new entry in place of the first one with its key. -/
def overwrite (e : E) (l : List E) : List E :=
  l.set (l.findIdx fun a => decide (key a = key e)) e

/-- The first entry with the key is removed. -/
def take (k : Nat) (l : List E) : List E := l.eraseP fun a => decide (key a = k)

/-- The first entry with the key. -/
def first (k : Nat) (l : List E) : Option E := l.find? fun a => decide (key a = k)

/-- The entries below the key `k` are `pre`, the others are `suf`. -/
structure Cut (k : Nat) (pre suf : List E) : Prop where
  lt : ∀ e ∈ pre, key e < k
  ge : ∀ e ∈ suf, k ≤ key e

variable {key} {k : Nat} {pre suf : List E} {e : E}

namespace Cut

theorem countP_eq (h : Cut key k pre suf) :
    (pre ++ suf).countP (fun e => decide (key e < k)) = pre.length := by
  rw [countP_append, countP_eq_length.mpr fun e he => decide_eq_true (h.lt e he),
    countP_eq_zero.mpr fun e he => by simpa using h.ge e he, Nat.add_zero]

theorem first_pre (h : Cut key k pre suf) : first key k (pre ++ suf) = first key k suf := by
  have hnone : pre.find? (fun a => decide (key a = k)) = none := by
    rw [List.find?_eq_none]
    intro a ha
    have := h.lt a ha
    simp
    omega
  unfold first
  rw [List.find?_append, hnone, Option.none_or]

theorem put_eq (h : Cut key (key e) pre suf) : put key e (pre ++ suf) = pre ++ e :: suf := by
  unfold put
  induction pre with
  | nil =>
    cases suf with
    | nil => rfl
    | cons a rest => exact orderedInsert_cons_of_le _ rest (h.ge a mem_cons_self)
  | cons a rest ih =>
    have hlt := h.lt a mem_cons_self
    rw [cons_append, orderedInsert_cons, if_neg (not_le.mpr hlt)]
    rw [ih ⟨fun b hb => h.lt b (mem_cons_of_mem _ hb), h.ge⟩]
    rfl

theorem take_eq {a : E} (h : Cut key k pre (a :: suf)) (ha : key a = k) :
    take key k (pre ++ a :: suf) = pre ++ suf := by
  unfold take
  rw [eraseP_append_right _ fun b hb => by simpa using (h.lt b hb).ne]
  rw [eraseP_cons_of_pos (by simpa using ha)]

theorem overwrite_eq {a : E} (h : Cut key (key e) pre (a :: suf)) (ha : key a = key e) :
    overwrite key e (pre ++ a :: suf) = pre ++ e :: suf := by
  have hidx : (pre ++ a :: suf).findIdx (fun b => decide (key b = key e)) = pre.length := by
    rw [findIdx_append]
    have hno : ¬ pre.findIdx (fun b => decide (key b = key e)) < pre.length := by
      rw [findIdx_lt_length]
      rintro ⟨b, hb, hbe⟩
      exact (h.lt b hb).ne (by simpa using hbe)
    rw [if_neg hno, findIdx_cons]
    simp [ha]
  unfold overwrite
  rw [hidx, set_append_right _ _ le_rfl]
  simp

end Cut

theorem Sorted.insert (hp : Sorted key pre) (hs : Sorted key suf) (hle : ∀ a ∈ pre, key a ≤ key e)
    (hge : ∀ a ∈ suf, key e ≤ key a) : Sorted key (pre ++ e :: suf) := by
  refine pairwise_append.mpr ⟨hp, pairwise_cons.mpr ⟨hge, hs⟩, fun a ha b hb => ?_⟩
  rcases mem_cons.mp hb with rfl | hb
  · exact hle a ha
  · exact (hle a ha).trans (hge b hb)

end Multimap
