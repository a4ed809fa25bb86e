import Eddy.Lib.Packed
import Eddy.Index.Txn
import Eddy.Index.Geometry
import Mathlib.Data.List.Sort

/-!
# Eddy — the pages of the garbage collector

The allocator of `pg.c` at the level of its bytes. The pages that are free again stand in lists, each
with the transaction that freed them; the lists stand one after another in the data area of a GC page
(`EdPgGc`), and the GC pages are chained from `gc_head` to `gc_tail`. Behind all of them lies the
tail: pages at the end of the file that were never used.

A GC page is identified by its number (`base.no`). The pointers `idx->gc_head` and `idx->gc_tail`
only keep a page mapped; a load of it may fail whether it is mapped or not. The data area is an array
of 32 bit words, since all accesses are to a `uint32_t`, or a `uint64_t` of two words; an access outside
of it is undefined behaviour. An `assert` that fails kills the process.
-/

namespace Eddy.Gc

open Outcome Packed

/-! ## Sizes -/

/-- `ED_GC_DATA`: the bytes of the data area of a GC page. -/
def edGcData : Nat := pageSize - 8 - 8 - 4 - 4

/-- `offsetof(EdPgGcList, pages)` -/
def edPgGcListPages : Nat := 12

/-- `sizeof(EdPgGcList)` -/
def edPgGcListSizeof : Nat := 16

/-- `ED_GC_LIST_PAGE_SIZE` -/
def edGcListPageSize : Nat := 4

/-- `ED_GC_LIST_MAX` -/
def edGcListMax : Nat := (edGcData - edPgGcListSizeof) / edGcListPageSize + 1

/-- `ED_GC_LIST_SIZE`: the bytes of a list with its padding. -/
def edGcListSize (npages : Nat) : Nat := edAlignSize (edPgGcListPages + npages * edGcListPageSize) 8

/-! ## Pages -/

/-- `EdPgGcState`; all of them are `uint16_t`. -/
structure EdPgGcState where
  head : Nat
  tail : Nat
  nlists : Nat
  nskip : Nat
  deriving DecidableEq, Repr

/-- A GC page. `next` is `none` for `ED_PG_NONE`. -/
structure EdPgGc where
  state : EdPgGcState
  next : Option Nat
  data : Nat → Nat

namespace EdPgGc

/-- `xid` of the list at byte `o`. -/
def xid (pgc : EdPgGc) (o : Nat) : Nat := pgc.data (o / 4) + 2 ^ 32 * pgc.data (o / 4 + 1)

/-- `npages` of the list at byte `o`. -/
def npages (pgc : EdPgGc) (o : Nat) : Nat := pgc.data (o / 4 + 2)

/-- `n` words of the array `pages` of the list at byte `o`, from index `i` on. -/
def pages (pgc : EdPgGc) (o i n : Nat) : List Nat := window pgc.data (o / 4 + 3 + i) n

end EdPgGc

/-- The assertions that can fail: of `gc_list_remain`; that `nskip` is not beyond the list; that no
page to free is `ED_PG_NONE`; that there is one more page in `new`; that all of `new` was used. -/
inductive GcFault where
  | remain
  | skip
  | pgno
  | newPage
  | usedPages
  deriving DecidableEq, Repr

/-- A call of `gc_list_remain`: the page as it was, and the byte of the list. -/
structure RemainCall where
  pgc : EdPgGc
  list : Nat

/-- What the allocator works on: the pages, read as GC pages, the fields of the header, and the
number of pages the file has. `remains` records the calls of `gc_list_remain`. -/
structure GcSt where
  pages : Nat → EdPgGc
  gcHead : Option Nat
  gcTail : Option Nat
  tailStart : Nat
  tailCount : Nat
  file : Nat
  tick : Nat
  remains : List RemainCall

/-- Which calls of `mmap` and `ftruncate` succeed. -/
structure Sys where
  mmap : Nat → Bool
  ftruncate : Nat → Bool

/-- A page of a file that was never written. -/
def EdPgGc.zero : EdPgGc := ⟨⟨0, 0, 0, 0⟩, none, fun _ => 0⟩

namespace GcSt

/-- Change one page. -/
def setPage (s : GcSt) (p : Nat) (f : EdPgGc → EdPgGc) : GcSt :=
  { s with pages := fun q => if q = p then f (s.pages q) else s.pages q }

/-- `ftruncate`: what was behind the new end of the file is lost. -/
def truncate (s : GcSt) (size : Nat) : GcSt :=
  { s with file := size, pages := fun q => if q < size then s.pages q else EdPgGc.zero }

end GcSt

/-- A new index; its only GC page was never written. -/
def GcSt.created (l : IdxLayout) : GcSt where
  pages _ := EdPgGc.zero
  gcHead := some l.gcHead
  gcTail := some l.gcTail
  tailStart := l.tailStart
  tailCount := l.tailCount
  file := l.tailStart + l.tailCount
  tick := 0
  remains := []

abbrev GM : Type → Type := Prog EdErr GcFault GcSt

def sysCall (ok : Nat → Bool) : GM Unit := do
  let t ← Prog.gets GcSt.tick
  Prog.modify fun s => { s with tick := s.tick + 1 }
  if ok t then pure () else Prog.throw .sys

def edPgMap (sys : Sys) : GM Unit := sysCall sys.mmap

/-- `ed_pg_load` -/
def edPgLoad (sys : Sys) : Option Nat → GM Unit
  | none => pure ()
  | some _ => edPgMap sys

/-! ## The lists of a page -/

def gcListRemain (p list : Nat) : GM Nat := do
  let pgc ← Prog.gets fun s => s.pages p
  if edGcData < list + edPgGcListPages then Prog.stuck
  else do
    Prog.modify fun s => { s with remains := ⟨pgc, list⟩ :: s.remains }
    let remain : Int := (edGcData : Int) - pgc.state.tail - edPgGcListPages
      - edGcListPageSize * pgc.npages list
    if 0 ≤ remain ∧ remain ≤ edGcData then pure (remain.toNat % 2 ^ 16)
    else Prog.halt .remain

def gcListNpages (size : Nat) : Nat :=
  if size ≤ edPgGcListPages then 0 else (size - edPgGcListPages) / edGcListPageSize

def gcListNpagesFor (pgc : Option Nat) (xid : Nat) : GM Nat :=
  match pgc with
  | none => pure 0
  | some p => do
    let pgc ← Prog.gets fun s => s.pages p
    let list := pgc.state.tail
    let remain ← gcListRemain p list
    if xid ≤ pgc.xid list then pure (remain / edGcListPageSize)
    else pure (gcListNpages (edGcData - edAlignSize (edGcData - remain) 8))

/-- The header of a new list. -/
def EdPgGc.startList (pgc : EdPgGc) (o xid : Nat) : EdPgGc :=
  { pgc with data := overlay pgc.data (o / 4) [xid % 2 ^ 32, xid / 2 ^ 32, 0] }

/-- Where `gc_list_next` puts a new list. -/
def nextList (pgc : EdPgGc) : Nat :=
  if pgc.state.nlists ≠ 0 then
    (pgc.state.tail + edGcListSize (pgc.npages pgc.state.tail)) % 2 ^ 16
  else pgc.state.head

/-- The page with a new list. -/
def withList (pgc : EdPgGc) (xid : Nat) : EdPgGc :=
  { pgc.startList (nextList pgc) xid with
    state := ⟨pgc.state.head, nextList pgc, (pgc.state.nlists + 1) % 2 ^ 16, pgc.state.nskip⟩ }

def gcListNext (pgc : Option Nat) (xid : Nat) : GM (Option Nat) :=
  match pgc with
  | none => pure none
  | some p => do
    let pgc ← Prog.gets fun s => s.pages p
    let list := pgc.state.tail
    let remain ← gcListRemain p list
    -- Older xid pages can be merged into a new xid.
    if 0 < pgc.state.nlists ∧ xid ≤ pgc.xid list then
      pure (if remain < edGcListPageSize then none else some list)
    -- The page is full.
    else if remain < edPgGcListSizeof then pure none
    else if edGcData < nextList pgc + edPgGcListPages then Prog.stuck
    else do
      Prog.modify fun s => s.setPage p fun _ => withList pgc xid
      pure (some (nextList pgc))

def gcListInit (p xid : Nat) : GM (Option Nat) := do
  Prog.modify fun s => s.setPage p fun _ => EdPgGc.zero
  gcListNext (some p) xid

/-! ## Allocation -/

/-- `map_sorted_pages`: one mapping for each run of consecutive pages. -/
def mapSortedPages (sys : Sys) : List Nat → GM Unit
  | [] => pure ()
  | [_] => edPgMap sys
  | a :: b :: rest => do
    if b ≠ (a + 1) % 2 ^ 32 then edPgMap sys
    mapSortedPages sys (b :: rest)

/-- `map_live_pages` writes the number of each page into it: behind the end of the file that is
undefined. -/
def mapLivePages (sys : Sys) (no n : Nat) : GM (List Nat) :=
  if n = 0 then pure []
  else do
    edPgMap sys
    let file ← Prog.gets GcSt.file
    if file < no + n then Prog.stuck else pure (List.range' no n)

/-- `map_end_pages` makes the file longer when the tail has fewer than `n` pages, and returns the
length of the tail. -/
def growTail (sys : Sys) (n : Nat) : GM Nat := do
  let s ← Prog.get
  if n ≤ s.tailCount then pure s.tailCount
  else do
    let count := (s.tailCount + edAlignSize n edAllocCount) % 2 ^ 32
    sysCall sys.ftruncate
    Prog.modify fun s' => s'.truncate ((s.tailStart + count) % 2 ^ 32)
    pure count

/-- The tail in the header, which lies in the first page: behind the end of the file the store is
undefined. -/
def setTail (start count : Nat) : GM Unit := do
  let file ← Prog.gets GcSt.file
  if file = 0 then Prog.stuck
  else Prog.modify fun s => { s with tailStart := start, tailCount := count }

/-- `map_end_pages`. -/
def mapEndPages (sys : Sys) (n : Nat) : GM (List Nat) :=
  if n = 0 then pure []
  else do
    let start ← Prog.gets GcSt.tailStart
    let count ← growTail sys n
    match ← Prog.attempt (mapLivePages sys start n) with
    | .error e => do
      setTail start count
      Prog.throw e
    | .ok pg => do
      setTail ((start + n) % 2 ^ 32) (count - n)
      pure pg

/-- What `ed_alloc` has collected: the GC page it is at, a copy of the state of that page, the pages
of the lists, and the GC pages that are recycled. -/
structure Stage where
  gc : Nat
  state : EdPgGcState
  pgno : List Nat
  recycled : List Nat

/-- `state.tail` is moved behind lists that are used up. -/
def EdPgGcState.closed (st : EdPgGcState) : EdPgGcState :=
  if st.tail < st.head then { st with tail := st.head } else st

/-- The pages collected so far. -/
def Stage.count (a : Stage) : Nat := a.pgno.length + a.recycled.length

/-- How a turn of the loop ends. -/
inductive Turn where
  | stop (a : Stage)
  | go (a : Stage)

/-- The loop goes on to the next GC page when the lists of the page are used up. -/
def nextGc (sys : Sys) (a : Stage) : GM Turn := do
  if a.state.nlists ≠ 0 then pure (.go a)
  else do
    let s ← Prog.get
    -- The last GC page is not recycled.
    if s.gcTail = some a.gc then pure (.stop a)
    else
      match (s.pages a.gc).next with
      | none => Prog.throw .einval
      | some next => do
        edPgMap sys
        let a' : Stage := ⟨next, (s.pages next).state, a.pgno, a.recycled ++ [a.gc]⟩
        pure (if a'.state.nlists = 0 then .stop a' else .go a')

/-- The loop takes pages of the first list. -/
def takeList (xmin npg : Nat) (a : Stage) : GM Turn := do
  let pgc ← Prog.gets fun s => s.pages a.gc
  let list := a.state.head
  if edGcData < list + edPgGcListPages then Prog.stuck
  else if 0 < pgc.xid list ∧ xmin ≤ pgc.xid list then pure (.stop a)
  else if pgc.npages list < a.state.nskip then Prog.halt .skip
  else
    let npages := (pgc.npages list - a.state.nskip) % 2 ^ 16
    let nuse := if npg - a.count < npages then npg - a.count else npages
    if edGcData < list + edPgGcListPages + edGcListPageSize * (a.state.nskip + nuse) then Prog.stuck
    else
      let pgno := a.pgno ++ pgc.pages list a.state.nskip nuse
      if nuse < npages then
        pure (.stop { a with
          state := { a.state with nskip := (a.state.nskip + nuse) % 2 ^ 16 }, pgno := pgno })
      else
        pure (.go { a with
          state := { a.state with
            head := (a.state.head + edGcListSize (pgc.npages list)) % 2 ^ 16
            nlists := a.state.nlists - 1, nskip := 0 }
          pgno := pgno })

def allocLoop (sys : Sys) (xmin npg : Nat) : Nat → Stage → GM Stage
  | 0, _ => Prog.stuck
  | fuel + 1, a =>
    if a.count < npg then do
      match ← nextGc sys a with
      | .stop a => pure a
      | .go a =>
        match ← takeList xmin npg a with
        | .stop a => pure a
        | .go a => allocLoop sys xmin npg fuel a
    else pure a

/-- The turns of the loop: every turn uses up a list or recycles a page. -/
def allocFuel (npg : Nat) : Nat := (npg + 1) * 2 ^ 16

/-- The end of `ed_alloc`: the collected pages are mapped in order, missing ones are taken from the
tail, and only then the chain is changed. -/
def finishAlloc (sys : Sys) (npg : Nat) (a : Stage) : GM (List Nat) := do
  let pgno := a.pgno.insertionSort (· ≤ ·)
  mapSortedPages sys pgno
  let fresh ← mapEndPages sys (npg - a.count)
  Prog.modify fun s => { s.setPage a.gc (fun pgc => { pgc with state := a.state.closed }) with
    gcHead := some a.gc }
  pure (a.recycled ++ pgno ++ fresh)

/-- `ed_alloc`; `xmin` is what `ed_idx_xmin` returns. -/
def edAlloc (sys : Sys) (xmin npg : Nat) : GM (List Nat) :=
  if npg = 0 then pure []
  else if 1024 < npg then Prog.throw .einval
  else do
    let s ← Prog.get
    edPgLoad sys s.gcHead
    match s.gcHead with
    | none => Prog.stuck
    | some gc => do
      let a ← allocLoop sys xmin npg (allocFuel npg) ⟨gc, (s.pages gc).state, [], []⟩
      finishAlloc sys npg a

/-! ## Freeing -/

/-- The half-page compaction: the lists move to the front of the data area. -/
def EdPgGc.compact (pgc : EdPgGc) : EdPgGc :=
  { pgc with
    state := { pgc.state with head := 0, tail := (pgc.state.tail - pgc.state.head) % 2 ^ 16 }
    data := overlay pgc.data 0
      (window pgc.data (pgc.state.head / 4) ((edGcData - pgc.state.head) / 4)) }

/-- How many new GC pages `ed_free_pgno` asks for. -/
def allocPages (tail : Option Nat) (xid n : Nat) : Nat → GM Nat
  | 0 => Prog.stuck
  | fuel + 1 => do
    let avail ← gcListNpagesFor tail xid
    let alloc := edCountSize (n - avail) edGcListMax
    match tail with
    | none => if alloc = 1 then Prog.stuck else pure alloc
    | some p => do
      let head ← Prog.gets fun s => (s.pages p).state.head
      if alloc = 1 ∧ edGcData / 2 ≤ head then do
        Prog.modify fun s => s.setPage p EdPgGc.compact
        allocPages tail xid n fuel
      else pure alloc

/-- The next allocated page becomes the tail of the chain. -/
def linkGc (tail : Option Nat) (next xid : Nat) : GM (Option Nat) := do
  match tail with
  | none => pure ()
  | some p => Prog.modify fun s => s.setPage p fun pgc => { pgc with next := some next }
  let list ← gcListInit next xid
  Prog.modify fun s => { s with
    gcHead := if s.gcHead = none then some next else s.gcHead
    gcTail := some next }
  pure list

/-- Pages are added to the list at byte `list`. -/
def EdPgGc.addPages (pgc : EdPgGc) (list : Nat) (pg : List Nat) : EdPgGc :=
  let npages := pgc.npages list
  let data := overlay pgc.data (list / 4 + 3 + npages) pg
  { pgc with data := overlay data (list / 4 + 2) [(npages + pg.length) % 2 ^ 32] }

/-- Add as many pages as possible to the list; the others are returned. -/
def fillList (p list : Nat) (pg : List Nat) : GM (List Nat) := do
  let remain ← gcListRemain p list
  let npg := if pg.length < remain / edGcListPageSize then pg.length else remain / edGcListPageSize
  let npages ← Prog.gets fun s => (s.pages p).npages list
  if edGcData < list + edPgGcListPages + edGcListPageSize * (npages + npg) then Prog.stuck
  else do
    Prog.modify fun s => s.setPage p fun pgc => pgc.addPages list (pg.take npg)
    pure (pg.drop npg)

/-- The loop of `ed_free_pgno`: `new` are the allocated pages that are left. It returns those that
were not used. -/
def insertLoop (xid : Nat) : Nat → Option Nat → List Nat → List Nat → GM (List Nat)
  | 0, _, _, _ => Prog.stuck
  | fuel + 1, tail, new, pg => do
    let list ← gcListNext tail xid
    match list, tail, new with
    | some list, some p, new => do
      let rest ← fillList p list pg
      if rest = [] then pure new else insertLoop xid fuel (some p) new rest
    | _, _, [] => Prog.halt .newPage
    | _, tail, next :: new => do
      match ← linkGc tail next xid with
      | none => Prog.stuck
      | some list => do
        let rest ← fillList next list pg
        if rest = [] then pure new else insertLoop xid fuel (some next) new rest

/-- The new GC pages of `ed_free_pgno`. -/
def newGcPages (sys : Sys) (xmin alloc : Nat) : GM (List Nat) :=
  if 0 < alloc then edAlloc sys xmin alloc else pure []

/-- The end of `ed_free_pgno`: all new GC pages have to be used. -/
def insertPages (xid : Nat) (tail : Option Nat) (new pg : List Nat) : GM Unit := do
  let unused ← insertLoop xid pg.length tail new pg
  if unused = [] then pure () else Prog.halt .usedPages

/-- `ed_free_pgno`; `xmin` is what `ed_idx_xmin` returns to `ed_alloc`. -/
def edFreePgno (sys : Sys) (xmin xid : Nat) (pg : List Nat) : GM Unit :=
  if pg.length < 1 then pure ()
  else if edPgNone ∈ pg then Prog.halt .pgno
  else do
    let tail ← Prog.gets GcSt.gcTail
    edPgLoad sys tail
    let alloc ← allocPages tail xid pg.length 2
    let new ← newGcPages sys xmin alloc
    insertPages xid tail new pg

end Eddy.Gc
