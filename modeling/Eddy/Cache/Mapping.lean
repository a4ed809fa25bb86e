import Mathlib.Algebra.Group.Int.Defs
import Eddy.Cache.Object

/-!
# Eddy — mapping blocks of the slab

`ed_blk_map` maps the pages that hold a range of blocks and returns the address of the first block;
`ed_blk_unmap` gets back to the pages from the address. Block numbers and byte counts are 64-bit
unsigned, file offsets 64-bit signed and page numbers 32-bit unsigned; the product of a page number
and the page size has the type of a page number.
-/

namespace Eddy

/-- The 64-bit signed value of an unsigned one. -/
def toInt64 (n : Nat) : Int :=
  if n % 2 ^ 64 < 2 ^ 63 then (n % 2 ^ 64 : Nat) else (n % 2 ^ 64 : Nat) - 2 ^ 64

/-- The 64-bit unsigned value of a signed one. -/
def toUint64 (x : Int) : Nat := (x % 2 ^ 64).toNat

/-- `ed_count_pg`, as a page number. -/
def edCountPg (n : Nat) : Nat := (n + (pageSize - 1)) % 2 ^ 64 / pageSize % 2 ^ 32

/-- Pages of a file, and the address they are mapped at. -/
structure Mapping where
  base : Nat
  pgno : Nat
  pgcount : Nat
  deriving DecidableEq, Repr

/-- What `ed_blk_map` computes from its arguments. -/
structure BlkRange where
  pgno : Nat
  diff : Int
  pgcount : Nat
  deriving DecidableEq, Repr

def blkRange (no count size : Nat) : BlkRange :=
  let off := toInt64 (no * size)
  let pgno := (off.tdiv pageSize % 2 ^ 32).toNat
  -- the product has the type of `pgno`
  let diff := off - (pgno * pageSize % 2 ^ 32 : Nat)
  { pgno := pgno
    diff := diff
    pgcount := edCountPg (toUint64 ((count * size : Nat) + diff)) }

/-- `ed_pg_map`, over what `mmap` answers. A mapping without pages is refused. -/
def edPgMap (mmap : Nat → Nat → Option Nat) (no count : Nat) : Option Mapping :=
  if no = edPgNone ∨ count = 0 then none
  else (mmap no count).map fun base => ⟨base, no, count⟩

/-- `ed_blk_map`: the mapping that is made, and the address that is returned. -/
def edBlkMap (mmap : Nat → Nat → Option Nat) (no count size : Nat) : Option (Mapping × Int) :=
  let r := blkRange no count size
  (edPgMap mmap r.pgno r.pgcount).map fun m => (m, m.base + r.diff)

/-- `ed_blk_unmap`: the address and the number of pages that are unmapped. -/
def edBlkUnmap (p : Int) (count size : Nat) : Int × Nat :=
  let m := p - (toUint64 p % pageSize : Nat)
  (m, edCountPg (toUint64 ((count * size : Nat) + (p - m))))

/-- `mmap` maps whatever is asked for, at whole pages of the address space. -/
structure MmapGrants (mmap : Nat → Nat → Option Nat) : Prop where
  answers : ∀ no count, ∃ base, mmap no count = some base
  aligned : ∀ no count base, mmap no count = some base → base % pageSize = 0
  fits : ∀ no count base, mmap no count = some base → count < 2 ^ 32 →
    base + count * pageSize ≤ 2 ^ 64

/-- The address is that of the blocks in a mapping that holds them, and unmapping it releases this
mapping. -/
structure BlkExact (no count size : Nat) (m : Mapping) (p : Int) : Prop where
  inside : (m.base : Int) ≤ p
  offset : p - m.base + m.pgno * pageSize = no * size
  mapped : p + count * size ≤ m.base + m.pgcount * pageSize
  unmap : edBlkUnmap p count size = ((m.base : Int), m.pgcount)

variable {no count size b n : Nat} {mmap : Nat → Nat → Option Nat}

theorem toInt64_eq (h : n < 2 ^ 63) : toInt64 n = n := by
  have hmod : n % 2 ^ 64 = n := Nat.mod_eq_of_lt (by omega)
  rw [toInt64, hmod, if_pos h]

theorem toUint64_natCast (h : n < 2 ^ 64) : toUint64 n = n := by
  rw [toUint64]
  omega

theorem edCountPg_eq (h : n ≤ (2 ^ 32 - 1) * 4096) : edCountPg n = (n + 4095) / 4096 := by
  rw [edCountPg, pageSize, Nat.mod_eq_of_lt (by omega), Nat.mod_eq_of_lt (by omega)]

theorem blkRange_eq (hfit : no * size + count * size ≤ (2 ^ 32 - 1) * 4096) :
    (blkRange no count size).pgno = no * size / 4096 ∧
      (blkRange no count size).diff = (no * size % 4096 + no * size / 2 ^ 32 * 2 ^ 32 : Nat) := by
  have hoff : toInt64 (no * size) = (no * size : Nat) := toInt64_eq (by omega)
  have hdiv : ((no * size : Nat) : Int).tdiv pageSize = (no * size / 4096 : Nat) := rfl
  have hpg : (blkRange no count size).pgno = no * size / 4096 := by
    show ((toInt64 (no * size)).tdiv pageSize % 2 ^ 32).toNat = _
    rw [hoff, hdiv]
    omega
  refine ⟨hpg, ?_⟩
  have hdiff : (blkRange no count size).diff
      = toInt64 (no * size) - ((blkRange no count size).pgno * 4096 % 2 ^ 32 : Nat) := rfl
  rw [hdiff, hoff, hpg]
  omega

theorem blkRange_pgcount (hfit : no * size + count * size ≤ (2 ^ 32 - 1) * 4096)
    (hlow : no * size < 2 ^ 32) :
    (blkRange no count size).diff = (no * size % 4096 : Nat) ∧
      (blkRange no count size).pgcount = (count * size + no * size % 4096 + 4095) / 4096 := by
  have hdiff : (blkRange no count size).diff = (no * size % 4096 : Nat) := by
    rw [(blkRange_eq hfit).2, Nat.div_eq_of_lt hlow, Nat.zero_mul, Nat.add_zero]
  refine ⟨hdiff, ?_⟩
  have hcount : (blkRange no count size).pgcount
      = edCountPg (toUint64 ((count * size : Nat) + (blkRange no count size).diff)) := rfl
  rw [hcount, hdiff, ← Int.natCast_add, toUint64_natCast (by omega), edCountPg_eq (by omega)]

theorem edBlkMap_some (hg : MmapGrants mmap) (hfit : no * size + count * size ≤ (2 ^ 32 - 1) * 4096)
    (hpos : (blkRange no count size).pgcount ≠ 0) (hlt : no * size < (2 ^ 32 - 1) * 4096) :
    ∃ base, mmap (blkRange no count size).pgno (blkRange no count size).pgcount = some base ∧
      edBlkMap mmap no count size
        = some (⟨base, (blkRange no count size).pgno, (blkRange no count size).pgcount⟩,
          base + (blkRange no count size).diff) := by
  obtain ⟨base, hbase⟩ := hg.answers (blkRange no count size).pgno (blkRange no count size).pgcount
  refine ⟨base, hbase, ?_⟩
  have hno : (blkRange no count size).pgno ≠ edPgNone := by
    rw [(blkRange_eq hfit).1, edPgNone]
    omega
  rw [edBlkMap]
  simp only [edPgMap, hno, hpos, or_self, if_false, hbase, Option.map_some]

theorem edBlkUnmap_eq {k : Nat} (hb : b % 4096 = 0) (hk : k < 4096) (hfit : b + k < 2 ^ 64)
    (hc : count * size + k ≤ (2 ^ 32 - 1) * 4096) :
    edBlkUnmap (b + k) count size = ((b : Int), (count * size + k + 4095) / 4096) := by
  have hp : (toUint64 ((b : Int) + k)) % pageSize = k := by
    rw [← Int.natCast_add, toUint64_natCast hfit, pageSize]
    omega
  rw [edBlkUnmap]
  simp only [hp]
  have hm : (b : Int) + k - ((b : Int) + k - (k : Nat)) = (k : Nat) := by omega
  have hsum : ((count * size : Nat) : Int) + (k : Nat) = (count * size + k : Nat) := by omega
  rw [hm, hsum, toUint64_natCast (by omega), edCountPg_eq hc]
  simp

/-- A range of blocks is mapped and unmapped as it should be exactly when it starts below 4 GiB and
some byte of a page is asked for. -/
theorem blkExact_iff (hg : MmapGrants mmap)
    (hpages : (no + count) * size ≤ (2 ^ 32 - 1) * pageSize) :
    (∃ m p, edBlkMap mmap no count size = some (m, p) ∧ BlkExact no count size m p) ↔
      no * size < 2 ^ 32 ∧ (0 < count * size ∨ no * size % pageSize ≠ 0) := by
  rw [Nat.add_mul] at hpages
  have hps : pageSize = 4096 := rfl
  rw [hps] at hpages ⊢
  constructor
  · rintro ⟨m, p, hmap, hex⟩
    have hrange : m.pgno = (blkRange no count size).pgno ∧
        m.pgcount = (blkRange no count size).pgcount ∧ (blkRange no count size).pgcount ≠ 0 ∧
        p = m.base + (blkRange no count size).diff := by
      rw [edBlkMap, Option.map_eq_some_iff] at hmap
      obtain ⟨m', hm', heq⟩ := hmap
      rw [edPgMap] at hm'
      split at hm'
      · cases hm'
      · rename_i hno
        obtain ⟨base, -, rfl⟩ := Option.map_eq_some_iff.mp hm'
        cases heq
        exact ⟨rfl, rfl, fun h0 => hno (.inr h0), rfl⟩
    obtain ⟨hpg, hcount, hpos, rfl⟩ := hrange
    obtain ⟨hpgno, hdiff⟩ := blkRange_eq hpages
    have hoff := hex.offset
    rw [hpg, hpgno, hdiff, hps] at hoff
    have hlow : no * size < 2 ^ 32 := by omega
    refine ⟨hlow, ?_⟩
    rw [(blkRange_pgcount hpages hlow).2] at hpos
    omega
  · rintro ⟨hlow, hbyte⟩
    obtain ⟨hdiff, hcount⟩ := blkRange_pgcount hpages hlow
    obtain ⟨base, hbase, hmap⟩ := edBlkMap_some hg hpages (by rw [hcount]; omega) (by omega)
    have hal := hg.aligned _ _ _ hbase
    have hend := hg.fits _ _ _ hbase (Nat.mod_lt _ (by decide))
    rw [hcount, hps] at hend
    rw [hps] at hal
    refine ⟨_, _, hmap, ?_⟩
    rw [hdiff, hcount, (blkRange_eq hpages).1]
    exact {
      inside := by show (base : Int) ≤ _; omega
      offset := by
        show (base : Int) + (no * size % 4096 : Nat) - base + (no * size / 4096 : Nat) * (4096 : Nat)
          = no * size
        have := Int.natCast_mul no size
        omega
      mapped := by
        show (base : Int) + (no * size % 4096 : Nat) + count * size
          ≤ base + ((count * size + no * size % 4096 + 4095) / 4096 : Nat) * (4096 : Nat)
        have := Int.natCast_mul count size
        omega
      unmap := edBlkUnmap_eq hal (Nat.mod_lt _ (by decide)) (by omega) (by omega) }

/-- A `mmap` that always answers with the same address. -/
def mmapLow (_ _ : Nat) : Option Nat := some 4096

theorem mmapLow_grants : MmapGrants mmapLow where
  answers _ _ := ⟨4096, rfl⟩
  aligned _ _ _ h := by cases h; rfl
  fits _ count _ h hc := by
    cases h
    rw [pageSize]
    omega

/-- Three blocks of 512 bytes across the border of a page. -/
theorem blkExact_seven :
    (∃ m p, edBlkMap mmapLow 7 3 512 = some (m, p) ∧ BlkExact 7 3 512 m p) ↔
      7 * 512 < 2 ^ 32 ∧ (0 < 3 * 512 ∨ 7 * 512 % pageSize ≠ 0) :=
  blkExact_iff mmapLow_grants (by decide)

/-- The block at 4 GiB: more than a million pages are mapped, and the address that is returned is
4 GiB behind the block. -/
theorem blkMap_4gib : ¬ ∃ m p, edBlkMap mmapLow (2 ^ 20) 1 4096 = some (m, p) ∧
    BlkExact (2 ^ 20) 1 4096 m p := by
  rintro ⟨m, p, hmap, hex⟩
  have hrun : edBlkMap mmapLow (2 ^ 20) 1 4096
      = some (⟨4096, 2 ^ 20, 2 ^ 20 + 1⟩, 4096 + 2 ^ 32) := by decide
  rw [hrun] at hmap
  cases hmap
  exact absurd hex.offset (by decide)

end Eddy
