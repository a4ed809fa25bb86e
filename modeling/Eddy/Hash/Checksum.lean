import Eddy.Hash.Crc

/-!
# Eddy — both implementations compute the checksum

Every loop of `ed_crc32c` takes in some bytes at a time. `Takes crcByte n` says that one turn of such a
loop does what the checksum does for these bytes one by one; it is proved by comparing the numbers of
the registers, where a turn is a number of shifts.
-/

namespace Eddy

open Bytes Crc Strides List

variable {n i : Nat} {bs : List UInt8} {table : List Nat}

/-! ## Registers as numbers -/

theorem crcBit_toNat (c : UInt32) : (crcBit c).toNat = shift crc32cPoly c.toNat := by
  have hbit : c &&& 1 = 1 ↔ c.toNat % 2 = 1 := by
    rw [← UInt32.toNat_inj, UInt32.toNat_and]
    exact Nat.and_one_is_mod c.toNat ▸ Iff.rfl
  unfold crcBit shift
  by_cases h : c.toNat % 2 = 1
  · rw [if_pos (hbit.mpr h), if_pos h]
    rfl
  · rw [if_neg (mt hbit.mp h), if_neg h, Nat.xor_zero]
    rfl

theorem repeat_crcBit_toNat (n : Nat) (c : UInt32) :
    (Nat.repeat crcBit n c).toNat = shifts crc32cPoly n c.toNat := by
  induction n with
  | zero => rfl
  | succ n ih =>
    rw [Nat.repeat, crcBit_toNat, ih, shifts_add n 1]
    rfl

theorem crcByte_toNat (c : UInt32) (b : UInt8) :
    (crcByte c b).toNat = update crc32cPoly c.toNat b := by
  unfold crcByte update
  rw [repeat_crcBit_toNat, UInt32.toNat_xor, UInt8.toNat_toUInt32]

theorem foldl_crcByte_toNat (c : UInt32) (bs : List UInt8) :
    (bs.foldl crcByte c).toNat = shifts crc32cPoly (8 * bs.length) (c.toNat ^^^ number bs) := by
  rw [← foldl_update]
  induction bs generalizing c with
  | nil => rfl
  | cons b bs ih => rw [foldl_cons, foldl_cons, ih, crcByte_toNat]

theorem mmCrc32_toNat (n : Nat) (c : UInt32) (v : UInt64) :
    (mmCrc32 n c v).toNat = shifts crc32cPoly n (c.toNat ^^^ v.toNat % 2 ^ n) := by
  induction n generalizing c v with
  | zero => rw [mmCrc32, Nat.pow_zero, Nat.mod_one, Nat.xor_zero, shifts]
  | succ n ih =>
    -- the lowest bit and the others
    have hsplit : v.toNat % 2 ^ (n + 1) = v.toNat % 2 ^ 1 ^^^ (v.toNat / 2 % 2 ^ n) <<< 1 := by
      have hsum := low_xor_high (v.toNat % 2 ^ (n + 1)) 1
      rw [← hsum]
      congr 1
      · rw [Nat.mod_mod_of_dvd _ (Nat.pow_dvd_pow 2 (Nat.le_add_left 1 n))]
      · rw [Nat.shiftRight_eq_div_pow, Nat.pow_one, Nat.pow_succ, Nat.mul_comm (2 ^ n) 2,
          Nat.mod_mul_right_div_self]
    have hlow : ((v &&& 1).toUInt32).toNat = v.toNat % 2 ^ 1 := by
      rw [UInt64.toNat_toUInt32, UInt64.toNat_and]
      show (v.toNat &&& 1) % 2 ^ 32 = _
      rw [Nat.and_one_is_mod]
      omega
    have hhigh : (v >>> 1).toNat = v.toNat / 2 := by
      rw [UInt64.toNat_shiftRight]
      exact Nat.shiftRight_eq_div_pow v.toNat 1
    rw [mmCrc32, ih, crcBit_toNat, UInt32.toNat_xor, hlow, hhigh, hsplit, shifts, ← Nat.xor_assoc,
      shift_xor (c.toNat ^^^ v.toNat % 2 ^ 1), shift_shiftLeft_one]

/-! ## The instruction -/

theorem word_toNat (hn : n ≤ 8) (bs : List UInt8) : (word n bs).toNat = number (bs.take n) := by
  unfold word
  refine UInt64.toNat_ofNat_of_lt' (Nat.lt_of_lt_of_le (number_lt _) ?_)
  refine Nat.le_trans (Nat.pow_le_pow_right (by decide) (Nat.le_trans ?_ hn)) (Nat.le_of_eq rfl)
  exact length_take_le n bs

theorem takes_word (hn : n ≤ 8) : Takes crcByte n fun c bs => mmCrc32 (8 * n) c (word n bs) := by
  intro c bs hlen
  have htake : (bs.take n).length = n := length_take_of_le hlen
  have hlt : number (bs.take n) < 2 ^ (8 * n) := by
    have h := number_lt (bs.take n)
    rw [htake] at h
    rw [Nat.pow_mul]
    exact h
  apply UInt32.toNat_inj.mp
  rw [mmCrc32_toNat, word_toNat hn, Nat.mod_eq_of_lt hlt, foldl_crcByte_toNat, htake]

theorem mmCrc32U64_toUInt32 (c : UInt32) (v : UInt64) :
    (mmCrc32U64 c.toUInt64 v).toUInt32 = mmCrc32 64 c v := by
  unfold mmCrc32U64
  rw [UInt32.toUInt32_toUInt64, UInt32.toUInt32_toUInt64]

theorem takes_word8 :
    Takes crcByte 8 fun c bs => (mmCrc32U64 c.toUInt64 (word 8 bs)).toUInt32 := by
  intro c bs hlen
  exact (mmCrc32U64_toUInt32 c _).trans (takes_word (Nat.le_refl 8) c bs hlen)

/-! ## Blocks of 1024 bytes -/

/-- What a register makes of `n` words from the word `i` on. -/
def lane (c : UInt32) (bs : List UInt8) (i n : Nat) : UInt32 :=
  ((bs.drop (8 * i)).take (8 * n)).foldl crcByte c

theorem lane_next (bs : List UInt8) {c : UInt32} (h : 8 * (i + n + 1) ≤ bs.length) :
    mmCrc32U64 (lane c bs i n).toUInt64 (full bs (i + n)) = (lane c bs i (n + 1)).toUInt64 := by
  have hrest : 8 ≤ (bs.drop (8 * (i + n))).length := by
    rw [length_drop]
    omega
  have hword := takes_word (Nat.le_refl 8) (lane c bs i n) _ hrest
  unfold mmCrc32U64
  rw [UInt32.toUInt32_toUInt64]
  refine congrArg UInt32.toUInt64 (hword.trans ?_)
  unfold lane
  rw [← foldl_append, Nat.mul_add 8 i n, ← drop_drop, Nat.mul_succ, take_add]

theorem lanes_eq {crc : UInt32} (hlen : 1024 ≤ bs.length) (hn : n ≤ 42) :
    lanes crc bs n = ⟨(lane crc bs 0 (n + 1)).toUInt64, (lane 0 bs 43 n).toUInt64,
      (lane 0 bs 85 n).toUInt64⟩ := by
  induction n with
  | zero =>
    have h := lane_next bs (i := 0) (n := 0) (c := crc) (by omega)
    rw [show lane crc bs 0 0 = crc from rfl] at h
    unfold lanes
    rw [← h]
    rfl
  | succ n ih =>
    have h0 := lane_next bs (i := 0) (n := n + 1) (c := crc) (by omega)
    have h1 := lane_next bs (i := 43) (n := n) (c := 0) (by omega)
    have h2 := lane_next bs (i := 85) (n := n) (c := 0) (by omega)
    have hstep := ih (by omega)
    unfold lanes at hstep ⊢
    rw [range_succ, foldl_append, hstep, ← h0, ← h1, ← h2]
    show Lanes.mk _ _ _ = _
    congr 2
    congr 1
    omega

theorem crc32cPoly_lt : crc32cPoly < 2 ^ 32 := by decide

theorem shifts_byte_lt (n x : Nat) : shifts crc32cPoly n (x % 256) < 2 ^ 32 := by
  have hx : x % 256 < 2 ^ 8 := Nat.mod_lt x (by decide)
  refine shifts_lt crc32cPoly_lt (Nat.lt_of_lt_of_le hx ?_)
  exact Nat.pow_le_pow_right (by decide) (Nat.le_trans (by decide : 8 ≤ 32) (Nat.le_add_right 32 n))

theorem entry64_toNat (ht : Tabulates crc32cPoly n table) (i : UInt64) :
    (entry64 table i).toNat = shifts crc32cPoly n (i.toNat % 256) := by
  have hindex : (i &&& 0xff).toNat = i.toNat % 256 := by
    rw [UInt64.toNat_and]
    exact Nat.and_two_pow_sub_one_eq_mod i.toNat 8
  unfold entry64
  rw [hindex, ht.getD (Nat.mod_lt _ (by decide))]
  exact UInt64.toNat_ofNat_of_lt' (Nat.lt_of_lt_of_le (shifts_byte_lt n _) (by decide))

theorem entry64_shiftLeft (ht : Tabulates crc32cPoly n table) (i : UInt64) {k : Nat} (hk : k ≤ 24) :
    (entry64 table (i >>> UInt64.ofNat k) <<< UInt64.ofNat k).toNat =
      shifts crc32cPoly n (i.toNat >>> k % 256) <<< k := by
  have hk64 : (UInt64.ofNat k).toNat = k := UInt64.toNat_ofNat_of_lt' (Nat.lt_of_le_of_lt hk (by decide))
  have hmod : k % 64 = k := Nat.mod_eq_of_lt (by omega)
  rw [UInt64.toNat_shiftLeft, entry64_toNat ht, UInt64.toNat_shiftRight, hk64, hmod]
  refine Nat.mod_eq_of_lt ?_
  rw [Nat.shiftLeft_eq]
  calc shifts crc32cPoly n (i.toNat >>> k % 256) * 2 ^ k
      < 2 ^ 32 * 2 ^ k := Nat.mul_lt_mul_of_pos_right (shifts_byte_lt n _) (Nat.two_pow_pos k)
    _ = 2 ^ (32 + k) := (Nat.pow_add 2 32 k).symm
    _ ≤ 2 ^ 64 := Nat.pow_le_pow_right (by decide) (by omega)

theorem merge_toNat (ht : Tabulates crc32cPoly n table) (hn : 24 ≤ n) (c : UInt32) :
    shifts crc32cPoly 64 (merge table c.toUInt64).toNat =
      shifts crc32cPoly 64 (shifts crc32cPoly n c.toNat) := by
  have hmerge : (merge table c.toUInt64).toNat = shifts crc32cPoly n (c.toNat % 256) ^^^
      shifts crc32cPoly n (c.toNat >>> 8 % 256) <<< 8 ^^^
      shifts crc32cPoly n (c.toNat >>> 16 % 256) <<< 16 ^^^
      shifts crc32cPoly n (c.toNat >>> 24 % 256) <<< 24 := by
    have h0 := entry64_toNat ht c.toUInt64
    have h1 := entry64_shiftLeft ht c.toUInt64 (k := 8) (by decide)
    have h2 := entry64_shiftLeft ht c.toUInt64 (k := 16) (by decide)
    have h3 := entry64_shiftLeft ht c.toUInt64 (k := 24) (by decide)
    rw [UInt32.toNat_toUInt64] at h0 h1 h2 h3
    unfold merge
    rw [UInt64.toNat_xor, UInt64.toNat_xor, UInt64.toNat_xor, h0]
    exact congrArg₂ _ (congrArg₂ _ (congrArg₂ _ rfl h1) h2) h3
  rw [hmerge]
  conv_rhs => rw [four_bytes c.toNat_lt]
  simp only [shifts_xor]
  rw [shifts_move (by decide) (by omega), shifts_move (by decide) (by omega),
    shifts_move (by decide) (by omega)]

theorem lane_add (c : UInt32) (bs : List UInt8) (i m n : Nat) :
    lane c bs i (m + n) = lane (lane c bs i m) bs (i + m) n := by
  unfold lane
  rw [← foldl_append, Nat.mul_add 8 i m, ← drop_drop, Nat.mul_add 8 m n, take_add]

theorem lane_toNat (c : UInt32) (h : 8 * (i + n) ≤ bs.length) :
    (lane c bs i n).toNat =
      shifts crc32cPoly (8 * (8 * n)) c.toNat ^^^ (lane 0 bs i n).toNat := by
  have hlen : ((bs.drop (8 * i)).take (8 * n)).length = 8 * n := by
    rw [length_take, length_drop]
    omega
  unfold lane
  rw [foldl_crcByte_toNat, foldl_crcByte_toNat, hlen, shifts_xor, UInt32.toNat_zero, Nat.zero_xor]

theorem lane_one (h : 8 * (i + 1) ≤ bs.length) :
    (lane 0 bs i 1).toNat = shifts crc32cPoly 64 (full bs i).toNat := by
  have hlen : ((bs.drop (8 * i)).take 8).length = 8 := by
    rw [length_take, length_drop]
    omega
  unfold full lane
  rw [Nat.mul_one, foldl_crcByte_toNat, hlen, word_toNat (Nat.le_refl 8), UInt32.toNat_zero,
    Nat.zero_xor]

theorem takes_block : Takes crcByte 1024 crc32c1024 := by
  intro c bs hlen
  -- the three lanes and the last word, one behind the other
  have hall : (bs.take 1024).foldl crcByte c =
      lane (lane (lane (lane c bs 0 43) bs 43 42) bs 85 42) bs 127 1 := by
    rw [← lane_add _ bs 85 42 1, ← lane_add _ bs 43 42 43, ← lane_add _ bs 0 43 85]
    rfl
  have hblock : crc32c1024 c bs = mmCrc32 64 (lane 0 bs 85 42) (full bs 127 ^^^
      merge table32c336 (lane 0 bs 43 42).toUInt64 ^^^
      merge table32c672 (lane c bs 0 43).toUInt64) := by
    unfold crc32c1024
    rw [lanes_eq hlen (Nat.le_refl 42)]
    exact mmCrc32U64_toUInt32 _ _
  -- the first register is moved over two lanes, the second over one
  have htwo : shifts crc32cPoly (8 * 672) (lane c bs 0 43).toNat =
      shifts crc32cPoly (8 * (8 * 42)) (shifts crc32cPoly (8 * (8 * 42)) (lane c bs 0 43).toNat) :=
    shifts_add (8 * (8 * 42)) (8 * (8 * 42)) _
  apply UInt32.toNat_inj.mp
  rw [hall, hblock, mmCrc32_toNat, Nat.mod_eq_of_lt (UInt64.toNat_lt _), UInt64.toNat_xor,
    UInt64.toNat_xor, lane_toNat (lane (lane (lane c bs 0 43) bs 43 42) bs 85 42) (by omega),
    lane_one (by omega), lane_toNat (lane (lane c bs 0 43) bs 43 42) (by omega),
    lane_toNat (lane c bs 0 43) (by omega)]
  simp only [shifts_xor]
  rw [merge_toNat table32c336_ok (by decide), merge_toNat table32c672_ok (by decide), htwo]
  simp only [Nat.reduceMul]
  ac_rfl

/-! ## The steps with tables -/

theorem entry32_toNat {x : Nat} (ht : Tabulates crc32cPoly n table) {i : UInt32}
    (hi : i.toNat = x % 256) : (entry32 table i).toNat = shifts crc32cPoly n (x % 256) := by
  unfold entry32
  rw [hi, ht.getD (Nat.mod_lt _ (by decide))]
  exact UInt32.toNat_ofNat_of_lt' (shifts_byte_lt n x)

theorem and_ff_toNat (c : UInt32) : (c &&& 0xff).toNat = c.toNat % 256 := by
  rw [UInt32.toNat_and]
  exact Nat.and_two_pow_sub_one_eq_mod c.toNat 8

theorem takes_next1 : Takes crcByte 1 next1 := by
  intro c bs hlen
  cases bs with
  | nil => cases hlen
  | cons b bs =>
    show next1 c (b :: bs) = crcByte c b
    -- the low byte of the register goes into the index, the others move down
    have hindex : ((c &&& 0xff) ^^^ b.toUInt32).toNat = (c.toNat ^^^ b.toNat) % 256 := by
      rw [UInt32.toNat_xor, and_ff_toNat, UInt8.toNat_toUInt32, Nat.xor_mod_two_pow (n := 8)]
      congr 1
      exact (Nat.mod_eq_of_lt b.toNat_lt).symm
    have hhigh : (c.toNat ^^^ b.toNat) >>> 8 = (c >>> 8).toNat := by
      have hb : b.toNat >>> 8 = 0 := by
        rw [Nat.shiftRight_eq_div_pow]
        exact Nat.div_eq_of_lt b.toNat_lt
      rw [Nat.shiftRight_xor_distrib, hb, Nat.xor_zero]
      rfl
    have hsum := low_xor_high (c.toNat ^^^ b.toNat) 8
    rw [hhigh, show 2 ^ 8 = 256 from rfl] at hsum
    apply UInt32.toNat_inj.mp
    rw [crcByte_toNat, update, ← hsum, shifts_xor, shifts_shiftLeft]
    show (entry32 table32c3 ((c &&& 0xff) ^^^ b.toUInt32) ^^^ (c >>> 8)).toNat = _
    rw [UInt32.toNat_xor, entry32_toNat table32c3_ok hindex]

theorem number_four (a b c d : UInt8) : number [a, b, c, d] < 2 ^ 32 := by
  have h := number_lt [a, b, c, d]
  rw [show [a, b, c, d].length = 4 from rfl] at h
  exact h

theorem byte_toNat (v : UInt32) {k : Nat} (hk : k < 32) :
    (v >>> UInt32.ofNat k).toUInt8.toNat = v.toNat / 2 ^ k % 256 := by
  have hk32 : (UInt32.ofNat k).toNat = k := UInt32.toNat_ofNat_of_lt' (Nat.lt_trans hk (by decide))
  rw [UInt32.toNat_toUInt8, UInt32.toNat_shiftRight, hk32, Nat.mod_eq_of_lt hk,
    Nat.shiftRight_eq_div_pow]

theorem bytes32_number (a b c d : UInt8) :
    bytes32 (UInt32.ofNat (number [a, b, c, d])) = [a, b, c, d] := by
  have hnum : (UInt32.ofNat (number [a, b, c, d])).toNat =
      a.toNat + 256 * (b.toNat + 256 * (c.toNat + 256 * (d.toNat + 256 * 0))) :=
    UInt32.toNat_ofNat_of_lt' (number_four a b c d)
  have ha := a.toNat_lt
  have hb := b.toNat_lt
  have hc := c.toNat_lt
  have hd := d.toNat_lt
  have h0 : (UInt32.ofNat (number [a, b, c, d])).toUInt8 = a := by
    apply UInt8.toNat_inj.mp
    rw [UInt32.toNat_toUInt8, hnum]
    omega
  have h1 : (UInt32.ofNat (number [a, b, c, d]) >>> 8).toUInt8 = b := by
    apply UInt8.toNat_inj.mp
    refine (byte_toNat _ (by decide : 8 < 32)).trans ?_
    rw [hnum]
    omega
  have h2 : (UInt32.ofNat (number [a, b, c, d]) >>> 16).toUInt8 = c := by
    apply UInt8.toNat_inj.mp
    refine (byte_toNat _ (by decide : 16 < 32)).trans ?_
    rw [hnum]
    omega
  have h3 : (UInt32.ofNat (number [a, b, c, d]) >>> 24).toUInt8 = d := by
    apply UInt8.toNat_inj.mp
    refine (byte_toNat _ (by decide : 24 < 32)).trans ?_
    rw [hnum]
    omega
  unfold bytes32
  rw [h0, h1, h2, h3]

theorem number_bytes32 (v : UInt32) : number (bytes32 v) = v.toNat := by
  have hv := v.toNat_lt
  have h0 := UInt32.toNat_toUInt8 v
  have h1 : (v >>> 8).toUInt8.toNat = _ := byte_toNat v (by decide : 8 < 32)
  have h2 : (v >>> 16).toUInt8.toNat = _ := byte_toNat v (by decide : 16 < 32)
  have h3 : (v >>> 24).toUInt8.toNat = _ := byte_toNat v (by decide : 24 < 32)
  unfold bytes32
  simp only [number, h0, h1, h2, h3]
  omega

theorem edL32_edL32 (o : ByteOrder) (v : UInt32) : edL32 o (edL32 o v) = v := by
  cases o with
  | little => rfl
  | big =>
    apply UInt32.toNat_inj.mp
    show (UInt32.ofNat (number (bytes32 (UInt32.ofNat (number (bytes32 v).reverse))).reverse)).toNat = _
    rw [show (bytes32 v).reverse = [(v >>> 24).toUInt8, (v >>> 16).toUInt8, (v >>> 8).toUInt8,
      v.toUInt8] from rfl, bytes32_number]
    show (UInt32.ofNat (number (bytes32 v))).toNat = v.toNat
    rw [number_bytes32]
    exact UInt32.toNat_ofNat_of_lt' v.toNat_lt

theorem edL32_word32 (o : ByteOrder) (hlen : 4 ≤ bs.length) :
    (edL32 o (word32 o bs)).toNat = number (bs.take 4) := by
  match bs, hlen with
  | a :: b :: c :: d :: _, _ =>
    have hof : (UInt32.ofNat (number [a, b, c, d])).toNat = number [a, b, c, d] :=
      UInt32.toNat_ofNat_of_lt' (number_four a b c d)
    cases o with
    | little => exact hof
    | big =>
      show (UInt32.ofNat (number (bytes32 (UInt32.ofNat (number [d, c, b, a]))).reverse)).toNat = _
      rw [bytes32_number]
      exact hof

theorem takes_next4 (o : ByteOrder) : Takes crcByte 4 (next4 o) := by
  intro c bs hlen
  have hx : (c ^^^ edL32 o (word32 o bs)).toNat = c.toNat ^^^ number (bs.take 4) := by
    rw [UInt32.toNat_xor, edL32_word32 o hlen]
  generalize hv : c ^^^ edL32 o (word32 o bs) = v at hx
  -- the indices are the four bytes of the sum
  have h0 : (v &&& 0xff).toNat = v.toNat % 256 := and_ff_toNat v
  have h1 : ((v >>> 8) &&& 0xff).toNat = v.toNat >>> 8 % 256 := and_ff_toNat (v >>> 8)
  have h2 : ((v >>> 16) &&& 0xff).toNat = v.toNat >>> 16 % 256 := and_ff_toNat (v >>> 16)
  have h3 : (v >>> 24).toNat = v.toNat >>> 24 % 256 := by
    show v.toNat >>> 24 = _
    have hlt := v.toNat_lt
    rw [Nat.shiftRight_eq_div_pow]
    omega
  have hlen4 : (bs.take 4).length = 4 := length_take_of_le hlen
  apply UInt32.toNat_inj.mp
  unfold next4
  rw [hv, UInt32.toNat_xor, UInt32.toNat_xor, UInt32.toNat_xor, entry32_toNat table32c0_ok h0,
    entry32_toNat table32c1_ok h1, entry32_toNat table32c2_ok h2, entry32_toNat table32c3_ok h3,
    foldl_crcByte_toNat, hlen4, ← hx]
  conv_rhs => rw [four_bytes v.toNat_lt]
  rw [shifts_xor, shifts_xor, shifts_xor, shifts_of_le (by decide), shifts_of_le (by decide),
    shifts_of_le (by decide)]

theorem takes_twice {step : UInt32 → List UInt8 → UInt32} (h : Takes crcByte n step) :
    Takes crcByte (n + n) (twice n step) := h.append h

/-! ## The whole buffer -/

theorem lastStep_spec {step : UInt32 → UInt64 → UInt32}
    (h : Takes crcByte n fun c bs => step c (word n bs)) (p : UInt32 × List UInt8)
    (hp : p.2.length < n + n) :
    (lastStep n step p).2.foldl crcByte (lastStep n step p).1 = p.2.foldl crcByte p.1 ∧
      (lastStep n step p).2.length < n := by
  unfold lastStep
  split
  · next hn =>
    refine ⟨h.foldl_drop hn, ?_⟩
    rw [length_drop]
    omega
  · next hn => exact ⟨rfl, Nat.lt_of_not_le hn⟩

theorem foldl_of_length_lt_one {c : UInt32} (h : bs.length < 1) : bs.foldl crcByte c = c := by
  rw [eq_nil_of_length_eq_zero (Nat.lt_one_iff.mp h)]
  rfl

theorem edCrc32cSse_eq (crc : UInt32) (bytes : List UInt8) :
    edCrc32cSse crc bytes = crc32c crc bytes := by
  obtain ⟨hblocks, -⟩ := takes_block.strides (by decide) (~~~ crc) bytes
  generalize hp1 : strides crc32c1024 1024 (~~~ crc) bytes = p1 at hblocks
  obtain ⟨hwords, hlen⟩ := takes_word8.strides (by decide) p1.1 p1.2
  generalize hp2 : strides (fun crc bs => (mmCrc32U64 crc.toUInt64 (word 8 bs)).toUInt32) 8
    p1.1 p1.2 = p2 at hwords hlen
  obtain ⟨hfour, hlen4⟩ := lastStep_spec (takes_word (n := 4) (by decide)) p2 hlen
  obtain ⟨htwo, hlen2⟩ := lastStep_spec (takes_word (n := 2) (by decide)) _ hlen4
  obtain ⟨hone, hlen1⟩ := lastStep_spec (takes_word (n := 1) (by decide)) _ hlen2
  rw [foldl_of_length_lt_one hlen1] at hone
  unfold edCrc32cSse crc32c
  rw [← hblocks, ← hwords, ← hfour, ← htwo, ← hone]
  simp only [hp1, hp2]
  rfl

theorem edCrc32cTable_eq (o : ByteOrder) (addr : Nat) (crc : UInt32) (bytes : List UInt8) :
    edCrc32cTable o addr crc bytes = edL32 o (crc32c (edL32 o crc) bytes) := by
  -- the bytes up to an aligned address
  have hstart : ∃ p : UInt32 × List UInt8, (if ((addr + 3) >>> 2) <<< 2 ≤ addr + bytes.length then
        steps next1 (((addr + 3) >>> 2) <<< 2 - addr) (~~~ edL32 o crc) bytes
      else (~~~ edL32 o crc, bytes)) = p ∧
      p.2.foldl crcByte p.1 = bytes.foldl crcByte (~~~ edL32 o crc) := by
    refine ⟨_, rfl, ?_⟩
    split
    · exact takes_next1.steps _ _ (by omega)
    · rfl
  obtain ⟨p1, hp1, hfirst⟩ := hstart
  obtain ⟨hlong, -⟩ := (takes_twice (takes_twice (takes_next4 o))).strides (by decide) p1.1 p1.2
  generalize hp2 : strides (twice 8 (twice 4 (next4 o))) 16 p1.1 p1.2 = p2 at hlong
  obtain ⟨hshort, -⟩ := (takes_next4 o).strides (by decide) p2.1 p2.2
  generalize hp3 : strides (next4 o) 4 p2.1 p2.2 = p3 at hshort
  obtain ⟨hone, hlen⟩ := takes_next1.strides (by decide) p3.1 p3.2
  rw [foldl_of_length_lt_one hlen] at hone
  unfold edCrc32cTable crc32c
  rw [← hfirst, ← hlong, ← hshort, ← hone]
  simp only [hp1, hp2, hp3]

theorem crc32c_append (crc : UInt32) (as bs : List UInt8) :
    crc32c (crc32c crc as) bs = crc32c crc (as ++ bs) := by
  unfold crc32c
  rw [UInt32.not_not, foldl_append]

/-- Both implementations of `ed_crc32c` compute the checksum, for every initial value, string and
alignment. On a machine with the high byte first, where there is only the one with tables, the initial
value and the result have their bytes reversed. A checksum can be continued with each of them. -/
theorem edCrc32c_spec (crc : UInt32) (bytes : List UInt8) :
    edCrc32cSse crc bytes = crc32c crc bytes ∧
      (∀ addr, edCrc32cTable .little addr crc bytes = crc32c crc bytes) ∧
      (∀ addr, edCrc32cTable .big addr crc bytes =
        edL32 .big (crc32c (edL32 .big crc) bytes)) ∧
      ∀ more, edCrc32cSse (edCrc32cSse crc bytes) more = edCrc32cSse crc (bytes ++ more) ∧
        ∀ o addr addr' addr'', edCrc32cTable o addr' (edCrc32cTable o addr crc bytes) more =
          edCrc32cTable o addr'' crc (bytes ++ more) := by
  refine ⟨edCrc32cSse_eq crc bytes, fun addr => edCrc32cTable_eq .little addr crc bytes,
    fun addr => edCrc32cTable_eq .big addr crc bytes, fun more => ⟨?_, ?_⟩⟩
  · rw [edCrc32cSse_eq, edCrc32cSse_eq, edCrc32cSse_eq, crc32c_append]
  · intro o addr addr' addr''
    rw [edCrc32cTable_eq, edCrc32cTable_eq, edCrc32cTable_eq, edL32_edL32, crc32c_append]

/-! ## What is compiled in -/

theorem edCrc32c_addr (b : CrcBuild) (addr addr' : Nat) (crc : UInt32) (bs : List UInt8) :
    edCrc32c b addr crc bs = edCrc32c b addr' crc bs := by
  cases b with
  | sse => rfl
  | table o => exact (edCrc32cTable_eq o addr crc bs).trans (edCrc32cTable_eq o addr' crc bs).symm

theorem edCrc32c_append (b : CrcBuild) (addr addr' addr'' : Nat) (crc : UInt32)
    (as bs : List UInt8) :
    edCrc32c b addr' (edCrc32c b addr crc as) bs = edCrc32c b addr'' crc (as ++ bs) := by
  cases b with
  | sse => exact ((edCrc32c_spec crc as).2.2.2 bs).1
  | table o => exact ((edCrc32c_spec crc as).2.2.2 bs).2 o addr addr' addr''

theorem edCrc32c_nil (b : CrcBuild) (addr : Nat) : edCrc32c b addr 0 [] = 0 := by
  cases b with
  | sse =>
    show edCrc32cSse 0 [] = 0
    rw [edCrc32cSse_eq]
    rfl
  | table o =>
    show edCrc32cTable o addr 0 [] = 0
    rw [edCrc32cTable_eq]
    cases o <;> rfl

theorem bswap_crc32c_ne : edL32 .big (crc32c (edL32 .big 0) [97]) ≠ crc32c 0 [97] := by
  decide +kernel

/-- A build computes the checksum if and only if the machine has the low byte first; every build of
`ed_crc32c` can be continued. -/
theorem edCrc32c_iff (b : CrcBuild) :
    ((∀ addr crc bytes, edCrc32c b addr crc bytes = crc32c crc bytes) ↔ b.order = .little) ∧
      ∀ addr addr' addr'' crc as bs,
        edCrc32c b addr' (edCrc32c b addr crc as) bs = edCrc32c b addr'' crc (as ++ bs) := by
  refine ⟨⟨fun h => ?_, fun h addr crc bytes => ?_⟩, edCrc32c_append b⟩
  · -- the big-endian build fails on one byte
    rcases b with _ | _ | _
    · rfl
    · rfl
    · exact absurd ((edCrc32cTable_eq .big 0 0 [97]).symm.trans (h 0 0 [97])) bswap_crc32c_ne
  · rcases b with _ | _ | _
    · exact (edCrc32c_spec crc bytes).1
    · exact (edCrc32c_spec crc bytes).2.1 addr
    · cases h

/-- The checksum of the byte 97 on a machine with the high byte first. -/
theorem edCrc32cTable_big_ne : edCrc32cTable .big 0 0 [97] ≠ crc32c 0 [97] := by
  rw [edCrc32cTable_eq]
  exact bswap_crc32c_ne

end Eddy
