import Mathlib.Data.List.Basic
import Eddy.Lib.Bytes

/-!
# Reflected cyclic redundancy checks

A polynomial over the field with two elements is written as a natural number, the coefficient of the
highest power in the lowest bit. Multiplication by `x` modulo the polynomial of the check is then
`shift`: one step to the right, and the bit that falls out is replaced by the polynomial. There is no
bound on the numbers, so a register, a word and a whole message are numbers of the same kind, and
`n` bits of input are taken in by `n` shifts of their sum with the register.

* `shifts_xor`: `n` shifts are linear;
* `shifts_shiftLeft`: they undo a move to the left;
* `foldl_update`: a message byte by byte, and at once;
* `span_eq`: the table of a linear map from its values at the powers of two.
-/

namespace Crc

open Bytes List

/-! ## Shifts -/

/-- Multiplication by `x` modulo the polynomial. -/
def shift (P x : Nat) : Nat := (x >>> 1) ^^^ (if x % 2 = 1 then P else 0)

/-- Multiplication by a power of `x`. -/
def shifts (P : Nat) : Nat → Nat → Nat
  | 0, x => x
  | n + 1, x => shifts P n (shift P x)

variable {P : Nat}

theorem shift_xor (a b : Nat) : shift P (a ^^^ b) = shift P a ^^^ shift P b := by
  -- the polynomial is added if exactly one of the two bits that fall out is set
  have hbit : (if (a ^^^ b) % 2 = 1 then P else 0) =
      (if a % 2 = 1 then P else 0) ^^^ (if b % 2 = 1 then P else 0) := by
    simp only [Nat.xor_mod_two_eq_one]
    by_cases ha : a % 2 = 1 <;> by_cases hb : b % 2 = 1 <;> simp [ha, hb]
  unfold shift
  rw [hbit, Nat.shiftRight_xor_distrib]
  ac_rfl

theorem shift_zero : shift P 0 = 0 := by simp [shift]

theorem shift_shiftLeft_one (a : Nat) : shift P (a <<< 1) = a := by
  unfold shift
  rw [Nat.shiftLeft_shiftRight, Nat.shiftLeft_eq, if_neg (by omega), Nat.xor_zero]

theorem shift_lt {w x : Nat} (hP : P < 2 ^ w) (hx : x < 2 ^ (w + 1)) : shift P x < 2 ^ w := by
  unfold shift
  refine Nat.xor_lt_two_pow ?_ ?_
  · rw [Nat.shiftRight_eq_div_pow]
    rw [Nat.pow_succ] at hx
    omega
  · split
    · exact hP
    · exact Nat.two_pow_pos w

@[simp] theorem shifts_zero_right (n : Nat) : shifts P n 0 = 0 := by
  induction n with
  | zero => rfl
  | succ n ih => rw [shifts, shift_zero, ih]

theorem shifts_xor (n a b : Nat) : shifts P n (a ^^^ b) = shifts P n a ^^^ shifts P n b := by
  induction n generalizing a b with
  | zero => rfl
  | succ n ih => rw [shifts, shifts, shifts, shift_xor, ih]

theorem shifts_add (m n a : Nat) : shifts P (m + n) a = shifts P n (shifts P m a) := by
  induction m generalizing a with
  | zero => rw [Nat.zero_add, shifts]
  | succ m ih => rw [Nat.succ_add, shifts, shifts, ih]

@[simp] theorem shifts_shiftLeft (n a : Nat) : shifts P n (a <<< n) = a := by
  induction n with
  | zero => rw [Nat.shiftLeft_zero, shifts]
  | succ n ih => rw [shifts, Nat.shiftLeft_add, shift_shiftLeft_one, ih]

theorem shifts_of_le {m n : Nat} (h : m ≤ n) (a : Nat) :
    shifts P n (a <<< m) = shifts P (n - m) a := by
  conv_lhs => rw [← Nat.add_sub_cancel' h, shifts_add, shifts_shiftLeft]

theorem shifts_move {k m n : Nat} (hk : m ≤ k) (hn : m ≤ n) (a : Nat) :
    shifts P k (shifts P n a <<< m) = shifts P k (shifts P n (a <<< m)) := by
  rw [shifts_of_le hk, shifts_of_le hn, ← shifts_add, ← shifts_add]
  congr 1
  omega

theorem shifts_lt {w n x : Nat} (hP : P < 2 ^ w) (hx : x < 2 ^ (w + n)) :
    shifts P n x < 2 ^ w := by
  induction n generalizing x with
  | zero => exact hx
  | succ n ih => exact ih (shift_lt (Nat.lt_of_lt_of_le hP (Nat.pow_le_pow_right (by omega)
      (Nat.le_add_right w n))) hx)

/-! ## Messages -/

theorem low_xor_high (x n : Nat) : x % 2 ^ n ^^^ (x >>> n) <<< n = x := by
  apply Nat.eq_of_testBit_eq
  intro i
  rw [Nat.testBit_xor, Nat.testBit_mod_two_pow, Nat.testBit_shiftLeft, Nat.testBit_shiftRight]
  by_cases hi : i < n
  · simp [hi, Nat.not_le_of_lt hi]
  · rw [Nat.add_sub_cancel' (Nat.le_of_not_lt hi)]
    simp [hi, Nat.le_of_not_lt hi]

theorem four_bytes {x : Nat} (hx : x < 2 ^ 32) :
    x = x % 256 ^^^ (x >>> 8 % 256) <<< 8 ^^^ (x >>> 16 % 256) <<< 16 ^^^ (x >>> 24 % 256) <<< 24 := by
  have h0 : x % 256 ^^^ x >>> 8 <<< 8 = x := low_xor_high x 8
  have h1 : x >>> 8 % 256 ^^^ x >>> 8 >>> 8 <<< 8 = x >>> 8 := low_xor_high (x >>> 8) 8
  have h2 : x >>> 16 % 256 ^^^ x >>> 16 >>> 8 <<< 8 = x >>> 16 := low_xor_high (x >>> 16) 8
  have h3 : x >>> 24 % 256 = x >>> 24 := by
    rw [Nat.shiftRight_eq_div_pow]
    omega
  rw [← Nat.shiftRight_add] at h1 h2
  -- from the highest byte down
  rw [h3]
  conv_lhs => rw [← h0, ← h1, ← h2]
  simp only [Nat.shiftLeft_xor_distrib, ← Nat.shiftLeft_add, Nat.xor_assoc]

theorem number_cons (b : UInt8) (bs : List UInt8) :
    number (b :: bs) = b.toNat ^^^ number bs <<< 8 := by
  have hb : b.toNat < 256 := b.toNat_lt
  have hlow : (b.toNat + 256 * number bs) % 2 ^ 8 = b.toNat := by omega
  have hhigh : (b.toNat + 256 * number bs) >>> 8 = number bs := by
    rw [Nat.shiftRight_eq_div_pow]
    omega
  have hsum := low_xor_high (b.toNat + 256 * number bs) 8
  rw [hlow, hhigh] at hsum
  exact hsum.symm

/-- The register takes in one byte. -/
def update (P c : Nat) (b : UInt8) : Nat := shifts P 8 (c ^^^ b.toNat)

/-- A whole message is taken in at once. -/
theorem foldl_update (c : Nat) (bs : List UInt8) :
    bs.foldl (update P) c = shifts P (8 * bs.length) (c ^^^ number bs) := by
  induction bs generalizing c with
  | nil => simp [number, shifts]
  | cons b bs ih =>
    rw [foldl_cons, ih, update, number_cons, length_cons, Nat.mul_succ, Nat.add_comm,
      shifts_add, ← Nat.xor_assoc, shifts_xor 8 (c ^^^ b.toNat), shifts_shiftLeft]

/-! ## Tables -/

/-- The table of a linear map, from its values at the powers of two, the highest power first. -/
def span : List Nat → List Nat
  | [] => [0]
  | b :: bs => span bs ++ (span bs).map (b ^^^ ·)

theorem two_pow_add_eq_xor {k x : Nat} (hx : x < 2 ^ k) : 2 ^ k + x = 2 ^ k ^^^ x := by
  have hlow : (2 ^ k + x) % 2 ^ k = x := by rw [Nat.add_mod_left, Nat.mod_eq_of_lt hx]
  have hhigh : (2 ^ k + x) >>> k = 1 := by
    rw [Nat.shiftRight_eq_div_pow, Nat.add_div_left x (Nat.two_pow_pos k), Nat.div_eq_of_lt hx]
  have hsum := low_xor_high (2 ^ k + x) k
  rw [hlow, hhigh, Nat.one_shiftLeft] at hsum
  rw [← hsum, Nat.xor_comm]

theorem span_eq {f : Nat → Nat} (hzero : f 0 = 0) (hxor : ∀ a b, f (a ^^^ b) = f a ^^^ f b)
    (k : Nat) :
    span ((List.range k).reverse.map fun i => f (2 ^ i)) = (List.range (2 ^ k)).map f := by
  induction k with
  | zero => simp [span, hzero]
  | succ k ih =>
    rw [range_succ, reverse_append, reverse_singleton, singleton_append,
      map_cons, span, ih, Nat.pow_succ, Nat.mul_two, range_add, map_append]
    congr 1
    rw [map_map, map_map]
    -- the upper half of the numbers has the bit `k` set
    refine map_congr_left fun x hx => ?_
    rw [Function.comp, Function.comp, two_pow_add_eq_xor (mem_range.mp hx), hxor]

/-- The table of `n` shifts of a byte. -/
def Tabulates (P n : Nat) (table : List Nat) : Prop := table = (List.range 256).map (shifts P n)

/-- The check of a table: the entry at the highest bit, its shifts, which stand at the lower bits, and
the sums. -/
def tabulated (P n : Nat) (table : List Nat) : Bool :=
  table == span ((List.range 8).map fun j => shifts P j (shifts P (n - 7) 1))

theorem tabulates_of_check {n : Nat} {table : List Nat} (hn : 7 ≤ n)
    (h : tabulated P n table = true) : Tabulates P n table := by
  have hbasis : (List.range 8).reverse.map (fun i => shifts P n (2 ^ i)) =
      (List.range 8).map fun j => shifts P j (shifts P (n - 7) 1) := by
    have hbit : ∀ i j, i + j = 7 → shifts P n (2 ^ i) = shifts P j (shifts P (n - 7) 1) := by
      intro i j hij
      rw [← Nat.one_shiftLeft, shifts_of_le (by omega), ← shifts_add]
      congr 1
      omega
    rw [show (List.range 8).reverse = (List.range 8).map (7 - ·) by decide, map_map]
    refine map_congr_left fun j hj => hbit (7 - j) j ?_
    have := mem_range.mp hj
    omega
  rw [eq_of_beq h, ← hbasis]
  exact span_eq (shifts_zero_right n) (shifts_xor n) 8

theorem Tabulates.getD {n x : Nat} {table : List Nat} (h : Tabulates P n table) (hx : x < 256) :
    table.getD x 0 = shifts P n x := by
  rw [h, getD_eq_getElem?_getD, List.getElem?_map, List.getElem?_range hx]
  rfl

end Crc
