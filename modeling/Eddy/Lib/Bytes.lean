import Mathlib.Algebra.Group.Nat.Defs
import Mathlib.Data.List.Basic

/-!
# Bytes

Numbers as strings of bytes, the low byte first, and images of memory that are read and written a
string at a time.

* `number`, `leBytes`: the number of a string, and the string of a number;
* `peek`, `poke`: a string is read, and written, at an offset;
* `peek_poke_part`: what is read inside of what was written.
-/

namespace Bytes

open List

/-! ## Numbers -/

/-- The number of a string of bytes, the first byte lowest. -/
def number : List UInt8 → Nat
  | [] => 0
  | b :: bs => b.toNat + 256 * number bs

/-- The `n` lowest bytes of a number. -/
def leBytes : Nat → Nat → List UInt8
  | 0, _ => []
  | n + 1, v => UInt8.ofNat v :: leBytes n (v / 256)

theorem number_lt (bs : List UInt8) : number bs < 256 ^ bs.length := by
  induction bs with
  | nil => exact Nat.one_pos
  | cons b bs ih =>
    have hb : b.toNat < 256 := b.toNat_lt
    rw [number, length_cons, Nat.pow_succ]
    omega

@[simp] theorem length_leBytes (n v : Nat) : (leBytes n v).length = n := by
  induction n generalizing v with
  | zero => rfl
  | succ n ih => rw [leBytes, length_cons, ih]

theorem number_leBytes {n v : Nat} (hv : v < 256 ^ n) : number (leBytes n v) = v := by
  induction n generalizing v with
  | zero =>
    rw [Nat.pow_zero] at hv
    exact (Nat.lt_one_iff.mp hv).symm
  | succ n ih =>
    rw [Nat.pow_succ] at hv
    have hbyte : (UInt8.ofNat v).toNat = v % 256 := UInt8.toNat_ofNat'
    rw [leBytes, number, ih (Nat.div_lt_of_lt_mul (Nat.mul_comm _ _ ▸ hv)), hbyte]
    omega

/-! ## Images -/

/-- The bytes of a memory. -/
abbrev Image : Type := Nat → UInt8

def peek (m : Image) (off n : Nat) : List UInt8 := (List.range n).map fun i => m (off + i)

def poke (m : Image) (off : Nat) (bs : List UInt8) : Image := fun a =>
  if off ≤ a ∧ a < off + bs.length then bs.getD (a - off) 0 else m a

variable {m : Image} {off off' n : Nat} {bs : List UInt8}

@[simp] theorem length_peek (m : Image) (off n : Nat) : (peek m off n).length = n := by
  simp [peek]

theorem peek_add (m : Image) (off n k : Nat) :
    peek m off (n + k) = peek m off n ++ peek m (off + n) k := by
  unfold peek
  rw [range_add, map_append, map_map]
  simp only [Function.comp_def, Nat.add_assoc]

theorem peek_poke_part (m : Image) (off i : Nat) (h : i + n ≤ bs.length) :
    peek (poke m off bs) (off + i) n = (bs.drop i).take n := by
  refine ext_getElem ?_ fun j hj hj' => ?_
  · rw [length_peek, length_take, length_drop]
    omega
  · rw [length_peek] at hj
    have hin : off ≤ off + i + j ∧ off + i + j < off + bs.length := by omega
    have hsub : off + i + j - off = i + j := by omega
    simp only [peek, getElem_map, getElem_range, poke, if_pos hin, hsub,
      getElem_take, getElem_drop]
    exact (getElem_eq_getD 0).symm

@[simp] theorem peek_poke_self (m : Image) (off : Nat) (bs : List UInt8) :
    peek (poke m off bs) off bs.length = bs := by
  have h := peek_poke_part m off 0 (Nat.le_of_eq (Nat.zero_add bs.length))
  rwa [Nat.add_zero, drop_zero, take_length] at h

theorem peek_congr {m' : Image} (h : ∀ a, off ≤ a → a < off + n → m' a = m a) :
    peek m' off n = peek m off n := by
  unfold peek
  refine map_congr_left fun i hi => h _ (Nat.le_add_right off i) ?_
  have := mem_range.mp hi
  omega

theorem poke_of_notMem {a : Nat} (h : a < off ∨ off + bs.length ≤ a) : poke m off bs a = m a :=
  if_neg (by omega)

end Bytes
