import Eddy.Index.Conn
import Mathlib.Data.List.Range

/-!
# Eddy — where the pages of a new index lie (`idx.c`)

`ed_idx_open` computes the layout of an index from the `max_conns` of the process that creates it
and the length of its own mapping from the `max_conns` of the process that opens it. The header
and its connection slots start at page `0`, the first GC page has a fixed number, and the tail
starts after all of them.
-/

namespace Eddy

open List

/-- `PAGESIZE`. -/
def pageSize : Nat := 4096

/-- The page number `ED_PG_NONE`. -/
def edPgNone : Nat := 2 ^ 32 - 1

/-- `ED_COUNT_SIZE`. -/
def edCountSize (n size : Nat) : Nat := (n + (size - 1)) / size

/-- `offsetof(EdPgIdx, conns)`: the sum of the sizes of the members before it. -/
def connsOffset : Nat :=
  8 + 4 + 1 + 1 + 2 + 8 + 8 + 8 + 4 + 2 + 2 + 4 + 4 + 4 + 4 + 16 + 8 + 8 + 8 + 8 + 912 + 4 + 255 * 4

/-- `sizeof(EdConn)`. -/
def connSize : Nat := 4 + 4 + 8 + 4 + 11 * 4

/-- `ED_IDX_PAGES`: the pages of the header and its connection slots. -/
def edIdxPages (nconns : Nat) : Nat := edCountSize (connsOffset + connSize * nconns) pageSize

/-- `PG_ROOT_GC`. -/
def pgRootGc : Nat := 1

/-- `PG_NEXTRA`. -/
def pgNextra : Nat := 1

/-- `PG_NINIT`. -/
def pgNinit (nconns : Nat) : Nat := edIdxPages nconns + pgNextra

/-- The number of slots of `INDEX_DEFAULT`. -/
def defaultNconns : Nat := 32

/-- The number of slots `ed_idx_open` works with for a `max_conns`. -/
def openNconns (maxConns : Nat) : Nat :=
  if maxConns = 0 then defaultNconns else if maxConns > 256 then 512 else maxConns

/-- The numbers of a new index that say where its pages lie. -/
structure IdxLayout where
  nconns : Nat
  gcHead : Nat
  gcTail : Nat
  tailStart : Nat
  tailCount : Nat
  deriving DecidableEq, Repr

/-- The header that `ed_idx_open` writes when it creates an index. -/
def createIdx (maxConns : Nat) : IdxLayout where
  nconns := openNconns maxConns
  gcHead := pgRootGc
  gcTail := pgRootGc
  tailStart := pgNinit (openNconns maxConns)
  tailCount := edAllocCount

/-- What an opener keeps: the number of slots it scans and the number of pages it maps from the
start of the file. -/
structure EdIdx where
  nconns : Nat
  mapped : Nat
  deriving DecidableEq, Repr

/-- The part of `ed_idx_open` that every opener runs. -/
def openIdx (maxConns : Nat) : EdIdx where
  nconns := openNconns maxConns
  mapped := pgNinit (openNconns maxConns)

/-- The pages of the header and its connection slots. -/
def IdxLayout.header (h : IdxLayout) : List Nat := List.range (edIdxPages h.nconns)

/-- The tail pages. -/
def IdxLayout.tail (h : IdxLayout) : List Nat := List.range' h.tailStart h.tailCount

/-- The slot `i` can be handed out to a process. -/
def IdxLayout.CanAcquire (h : IdxLayout) (i : Nat) : Prop :=
  ∃ conns flck xmin, connAcquire conns flck xmin h.nconns = .slot i

/-- The bytes of the slot `i` lie in the mapping of an opener. -/
def EdIdx.MapsSlot (x : EdIdx) (i : Nat) : Prop :=
  connsOffset + connSize * (i + 1) ≤ x.mapped * pageSize

/-- The slot `i` is one of those `edIdxXmin` visits. -/
def EdIdx.ScansSlot (x : EdIdx) (i : Nat) : Prop := i ∈ List.range x.nconns

/-- The layout of an index and the numbers of its openers fit together. -/
structure GeometryOk (h : IdxLayout) (openers : List EdIdx) : Prop where
  headerGc : h.gcHead ∉ h.header
  headerTail : ∀ p ∈ h.header, p ∉ h.tail
  gcTail : h.gcHead ∉ h.tail
  maps : ∀ x ∈ openers, ∀ i, h.CanAcquire i → x.MapsSlot i
  scans : ∀ x ∈ openers, ∀ i, h.CanAcquire i → x.ScansSlot i

/-! ## The regions -/

theorem edIdxPages_eq (n : Nat) : edIdxPages n = (2048 + 64 * n + 4095) / 4096 := rfl

theorem edIdxPages_le_one {n : Nat} : edIdxPages n ≤ 1 ↔ n ≤ 32 := by
  rw [edIdxPages_eq]
  omega

theorem canAcquire_iff (h : IdxLayout) (i : Nat) : h.CanAcquire i ↔ i < h.nconns := by
  refine ⟨fun ⟨_, _, _, hi⟩ => (connAcquire_slot hi).1, fun hi => ?_⟩
  obtain ⟨conns, flck, hs⟩ := connAcquire_lt 0 hi
  exact ⟨conns, flck, 0, hs⟩

theorem scansSlot_iff (x : EdIdx) (i : Nat) : x.ScansSlot i ↔ i < x.nconns := mem_range

theorem openNconns_pos (maxConns : Nat) : 0 < openNconns maxConns := by
  unfold openNconns defaultNconns
  split
  · omega
  · split <;> omega

theorem createIdx_tail {c p : Nat} (hp : p ∈ (createIdx c).tail) :
    edIdxPages (openNconns c) < p ∧ pgRootGc < p := by
  have h1 : pgNinit (openNconns c) ≤ p := (mem_range'_1.mp hp).1
  have h2 : 1 ≤ edIdxPages (openNconns c) := by
    have := openNconns_pos c
    rw [edIdxPages_eq]
    omega
  unfold pgNinit pgNextra at h1
  unfold pgRootGc
  omega

theorem createIdx_headerGc (c : Nat) :
    (createIdx c).gcHead ∉ (createIdx c).header ↔ openNconns c ≤ 32 := by
  rw [IdxLayout.header, mem_range, not_lt, ← edIdxPages_le_one]
  rfl

theorem openIdx_maps {o n i : Nat} (hi : i < n) (hn : n ≤ openNconns o) :
    (openIdx o).MapsSlot i := by
  have hmap : (openIdx o).mapped = edIdxPages (openNconns o) + 1 := rfl
  have hpages := edIdxPages_eq (openNconns o)
  have hoff : connsOffset = 2048 := rfl
  have hsize : connSize = 64 := rfl
  have hpage : pageSize = 4096 := rfl
  rw [EdIdx.MapsSlot, hmap, hoff, hsize, hpage, hpages]
  omega

/-- The layout is consistent exactly when the slots of the creator fit on the first page and no
opener works with fewer slots than the creator. -/
theorem geometryOk_iff (c : Nat) (os : List Nat) :
    GeometryOk (createIdx c) (os.map openIdx) ↔
      openNconns c ≤ 32 ∧ ∀ o ∈ os, openNconns c ≤ openNconns o := by
  constructor
  · intro h
    refine ⟨(createIdx_headerGc c).mp h.headerGc, fun o ho => ?_⟩
    -- the last slot of the header is scanned
    have hpos := openNconns_pos c
    have hlast : (createIdx c).CanAcquire (openNconns c - 1) :=
      (canAcquire_iff _ _).mpr (show openNconns c - 1 < openNconns c by omega)
    have hscan := h.scans (openIdx o) (mem_map_of_mem ho) _ hlast
    have : openNconns c - 1 < openNconns o := (scansSlot_iff _ _).mp hscan
    omega
  · rintro ⟨hfit, hos⟩
    refine ⟨(createIdx_headerGc c).mpr hfit, fun p hp ht => ?_, fun ht => ?_, ?_, ?_⟩
    · have h1 : p < edIdxPages (openNconns c) := mem_range.mp hp
      exact absurd (createIdx_tail ht).1 (by omega)
    · exact absurd (createIdx_tail ht).2 (lt_irrefl _)
    · intro x hx i hi
      obtain ⟨o, ho, rfl⟩ := mem_map.mp hx
      exact openIdx_maps ((canAcquire_iff _ _).mp hi) (hos o ho)
    · intro x hx i hi
      obtain ⟨o, ho, rfl⟩ := mem_map.mp hx
      exact (scansSlot_iff _ _).mpr (((canAcquire_iff _ _).mp hi).trans_le (hos o ho))

/-- An index created for 33 processes has its first GC page inside the header. -/
theorem geometry_thirtyThree : ¬ GeometryOk (createIdx 33) ([33].map openIdx) := by
  intro h
  exact h.headerGc (by decide)

end Eddy
