import Eddy.Index.Trees
import Eddy.Index.Geometry
import Eddy.Index.Repair
import Eddy.Lib.Run

/-!
# Eddy — readers and writers, store by store

`Eddy.System` lets a process run a whole call before the next one moves. Here the steps are the
single accesses to the shared words that the snapshot protocol of the index is made of:

* a reader reads `hdr->xid`, stores it in its connection slot, loads one root after the other, reads
  pages, and clears its slot (`ed_idx_acquire_snapshot`, `ed_idx_release_xid`);
* a writer, who holds the write lock, visits the slots one by one (`ed_idx_xmin`), takes pages
  (`ed_alloc`), writes pages it owns, stores both roots with one store of `hdr->vtree`, stores
  `hdr->xid`, puts the replaced pages into the free list (`ed_free_pgno`) and releases the lock;
* a process dies at any of these points, takes a stat (`ed_stat_new`) or repairs leaks with it
  (`ed_idx_repair_leaks`).

A free page carries the transaction id it was freed with, and `ed_alloc` hands it out only when that
id lies below the result of the scan. What a writer does inside its trees is left open; what it
publishes has to account for its pages the way an open transaction does (`TxnOk.account`).

Processes are numbered by the connection slots they own. The pages a process keeps for later
(`conn->pending`, `hdr->active`, the page array of a closed transaction) are one pool.
-/

namespace Eddy

open Function

/-- A root that a reader loaded: the page, and the height and number of the tree it belongs to. -/
structure RootRef where
  no : Option Nat
  height : Nat
  ver : Nat
  deriving DecidableEq

/-- How far a process is with its snapshot. -/
inductive Phase where
  | idle
  | gotXid (x : Nat)
  | stored (x : Nat)
  | half (x : Nat) (keys : RootRef)
  | snap (x : Nat) (keys blocks : RootRef)
  deriving DecidableEq

/-- The roots a process has loaded. -/
def Phase.refs : Phase → List RootRef
  | .half _ keys => [keys]
  | .snap _ keys blocks => [keys, blocks]
  | _ => []

/-- The xid a process has stored in its slot. -/
def Phase.xid? : Phase → Option Nat
  | .stored x | .half x _ | .snap x _ _ => some x
  | _ => none

/-- How far a writer is with its commit: before the store of `vtree`, before the store of `xid`,
before the replaced pages are freed, and after it. -/
inductive Stage where
  | working
  | published
  | stamped
  | done
  deriving DecidableEq

/-- The holder of the write lock: its slot, its pages, the pages it replaced, and the state of its
last scan of the slots (those still to visit, and the smallest xid so far). -/
structure Holder where
  conn : Nat
  own : List Nat
  gc : List Nat
  scan : Option (List Nat × Nat)
  stage : Stage

/-- What `ed_idx_repair_leaks` reads of a stat: its unmarked pages and `stat->no`. -/
structure Stat where
  leaks : List Nat
  no : Nat

/-- The scan of a repair with a stat. -/
def Stat.repair (st : Stat) (granted : Nat → Bool) : Option Batch :=
  repairLoop (fun p => decide (p ∈ st.leaks)) granted st.no

/-- The shared memory. `height`, `ver` and `hist` are not stored anywhere: the heights of the
published trees, the number of the commit that published them, and all published roots. `fresh i` is
whether no leak was repaired since the stat of `i`. -/
structure Shm (E : Type) where
  pages : Nat → EdBpt E
  xid : Nat
  tree : EdDb → Option Nat
  height : EdDb → Nat
  ver : Nat
  hist : List (EdDb → Option Nat)
  nconns : Nat
  slots : Nat → ConnSlot
  live : Nat → Bool
  scans : Nat → Nat
  phase : Nat → Phase
  holder : Option Holder
  free : List (Nat × Nat)
  pool : List Nat
  chain : List Nat
  tail : Nat
  stat : Nat → Option Stat
  fresh : Nat → Bool

/-- The single steps. -/
inductive Act (E : Type) where
  | attach (i nconns : Nat)
  | detach (i : Nat)
  | readXid (i : Nat)
  | storeXid (i now : Nat)
  | loadKeys (i : Nat)
  | loadBlocks (i : Nat)
  | release (i now : Nat)
  | lock (i : Nat)
  | take (p : Nat)
  | scanStart
  | scanSlot (now : Nat)
  | allocFree (p f : Nat) (chain : Bool)
  | allocTail (chain : Bool)
  | recycle (p : Nat)
  | write (p : Nat) (b : EdBpt E)
  | discard (p : Nat)
  | publish (tree : EdDb → Option Nat) (height : EdDb → Nat) (used rest : List Nat)
  | stampXid
  | freeGc
  | loseGc
  | give (p : Nat) (free : Bool)
  | drain (p : Nat)
  | lose (p : Nat)
  | unlock
  | kill (i : Nat) (keep gone : List Nat)
  | statNew (i now count : Nat) (seen : List Nat)
  | repair (granted : Nat → Bool)

variable {E : Type}

namespace Shm

/-- The pages of the published trees. -/
def treeList (σ : Shm E) : List Nat :=
  treePages σ.pages (σ.tree .keys) (σ.height .keys) ++
    treePages σ.pages (σ.tree .blocks) (σ.height .blocks)

/-- The pages that can be reached from a root a reader loaded. -/
def reach (σ : Shm E) (r : RootRef) : List Nat := treePages σ.pages r.no r.height

/-- The pages of the holder of the lock. -/
def own (σ : Shm E) : List Nat := σ.holder.elim [] Holder.own

/-- The pages in the free list. -/
def freePages (σ : Shm E) : List Nat := σ.free.map Prod.fst

/-- The pages that are in no tree: those of the holder of the lock, those kept for later, the GC chain
and the free list. -/
def stocks (σ : Shm E) : List Nat := σ.own ++ (σ.pool ++ (σ.chain ++ σ.freePages))

/-- What a lock call of the process `w` on the bytes of the slot `i` answers: the owner of a slot
holds its lock as long as it lives. -/
def flck (σ : Shm E) (w i : Nat) : FlckRc := if σ.live i = true ∧ i ≠ w then .again else .ok

def setPhase (σ : Shm E) (i : Nat) (ph : Phase) : Shm E :=
  { σ with phase := update σ.phase i ph }

def setSlot (σ : Shm E) (i : Nat) (c : ConnSlot) : Shm E :=
  { σ with slots := update σ.slots i c }

def setHolder (σ : Shm E) (w : Holder) : Shm E := { σ with holder := some w }

/-- A page the holder of the lock allocated becomes one of its pages, or one of the GC chain. -/
def grant (σ : Shm E) (w : Holder) (p : Nat) (chain : Bool) : Shm E :=
  if chain then { σ with chain := p :: σ.chain } else σ.setHolder { w with own := p :: w.own }

/-! ## Steps of a reader -/

/-- A process opens the index and takes a slot of the header (`connAcquire_slot`); it scans `nconns`
slots. -/
def attach (σ : Shm E) (i nconns : Nat) : Option (Shm E) :=
  if σ.live i = true ∨ σ.nconns ≤ i then none
  else some { σ.setSlot i (connTake (σ.slots i) (i + 1)) with
    live := update σ.live i true
    scans := update σ.scans i nconns
    phase := update σ.phase i .idle
    stat := update σ.stat i none }

/-- A process without a transaction closes the index. -/
def detach (σ : Shm E) (i : Nat) : Option (Shm E) :=
  if σ.live i = true ∧ σ.phase i = .idle ∧ σ.holder.all (fun w => w.conn != i) then
    some { σ.setSlot i (connRelease (σ.slots i)) with live := update σ.live i false }
  else none

def readXid (σ : Shm E) (i : Nat) : Option (Shm E) :=
  if σ.live i = true ∧ σ.phase i = .idle then some (σ.setPhase i (.gotXid σ.xid)) else none

def storeXid (σ : Shm E) (i now : Nat) : Option (Shm E) :=
  match σ.phase i with
  | .gotXid x =>
    some ((σ.setSlot i { σ.slots i with xid := x, active := now }).setPhase i (.stored x))
  | _ => none

/-- The published root of a tree. -/
def root (σ : Shm E) (d : EdDb) : RootRef := ⟨σ.tree d, σ.height d, σ.ver⟩

def loadKeys (σ : Shm E) (i : Nat) : Option (Shm E) :=
  match σ.phase i with
  | .stored x => some (σ.setPhase i (.half x (σ.root .keys)))
  | _ => none

def loadBlocks (σ : Shm E) (i : Nat) : Option (Shm E) :=
  match σ.phase i with
  | .half x keys => some (σ.setPhase i (.snap x keys (σ.root .blocks)))
  | _ => none

/-- The end of a snapshot, also of one whose roots could not be loaded. -/
def release (σ : Shm E) (i now : Nat) : Option (Shm E) :=
  match (σ.phase i).xid? with
  | some _ => some ((σ.setSlot i { σ.slots i with xid := 0, active := now }).setPhase i .idle)
  | none => none

/-! ## Steps of the holder of the write lock -/

def lock (σ : Shm E) (i : Nat) : Option (Shm E) :=
  if σ.live i = true ∧ σ.holder = none then some (σ.setHolder ⟨i, [], [], none, .working⟩)
  else none

/-- A page from the pool becomes a page of the transaction. -/
def take (σ : Shm E) (w : Holder) (p : Nat) : Option (Shm E) :=
  if p ∈ σ.pool then
    some ({ σ with pool := σ.pool.erase p }.setHolder { w with own := p :: w.own })
  else none

/-- The start of `ed_idx_xmin`. -/
def scanStart (σ : Shm E) (w : Holder) : Shm E :=
  σ.setHolder { w with scan := some (List.range (σ.scans w.conn), pred64 σ.xid) }

/-- The visit of one slot by `ed_idx_xmin`. -/
def scanSlot (σ : Shm E) (w : Holder) (now : Nat) : Option (Shm E) :=
  match w.scan with
  | some (i :: rest, acc) =>
    let v := xminSlot (xminDoubt σ.xid) (sub32 now 10) w.conn (σ.flck w.conn) i (σ.slots i) acc
    some ((σ.setSlot i v.1).setHolder { w with scan := some (rest, v.2) })
  | _ => none

/-- A free page may be handed out: it was freed without a transaction id or with one below the
result of the scan. -/
def Reusable (w : Holder) (f : Nat) : Prop := ∃ m, w.scan = some ([], m) ∧ (f = 0 ∨ f < m)

instance (w : Holder) (f : Nat) : Decidable (Reusable w f) :=
  match h : w.scan with
  | some ([], m) =>
    if hf : f = 0 ∨ f < m then isTrue ⟨m, h, hf⟩
    else isFalse fun ⟨m', h', hf'⟩ => hf (by rw [h] at h'; cases h'; exact hf')
  | some (_ :: _, _) => isFalse fun ⟨_, h', _⟩ => by rw [h] at h'; cases h'
  | none => isFalse fun ⟨_, h', _⟩ => by rw [h] at h'; cases h'

def allocFree (σ : Shm E) (w : Holder) (p f : Nat) (chain : Bool) : Option (Shm E) :=
  if (p, f) ∈ σ.free ∧ Reusable w f then
    some ({ σ with free := σ.free.erase (p, f) }.grant w p chain)
  else none

def allocTail (σ : Shm E) (w : Holder) (chain : Bool) : Shm E :=
  { σ with tail := σ.tail + 1 }.grant w σ.tail chain

/-- An emptied page of the GC chain is handed out. -/
def recycle (σ : Shm E) (w : Holder) (p : Nat) : Option (Shm E) :=
  if p ∈ σ.chain then
    some ({ σ with chain := σ.chain.erase p }.setHolder { w with own := p :: w.own })
  else none

def write (σ : Shm E) (w : Holder) (p : Nat) (b : EdBpt E) : Option (Shm E) :=
  if p ∈ w.own ∨ p ∈ σ.chain then some { σ with pages := update σ.pages p b } else none

/-- A page of the published trees is noted for removal. -/
def discard (σ : Shm E) (w : Holder) (p : Nat) : Option (Shm E) :=
  if w.stage = .working ∧ p ∈ σ.treeList ∧ p ∉ w.gc then
    some (σ.setHolder { w with gc := p :: w.gc })
  else none

/-- What a transaction may publish: the pages of its trees and those it noted for removal are the
published pages and those of its pages that it used. -/
def Accounts (σ : Shm E) (w : Holder) (tree : EdDb → Option Nat) (height : EdDb → Nat)
    (used rest : List Nat) : Prop :=
  (treePages σ.pages (tree .keys) (height .keys) ++
    treePages σ.pages (tree .blocks) (height .blocks) ++ w.gc).Perm (σ.treeList ++ used) ∧
    w.own.Perm (used ++ rest)

instance (σ : Shm E) (w : Holder) (tree : EdDb → Option Nat) (height : EdDb → Nat)
    (used rest : List Nat) : Decidable (σ.Accounts w tree height used rest) :=
  inferInstanceAs (Decidable (_ ∧ _))

/-- The store of `hdr->vtree`. -/
def publish (σ : Shm E) (w : Holder) (tree : EdDb → Option Nat) (height : EdDb → Nat)
    (used rest : List Nat) : Option (Shm E) :=
  if w.stage = .working ∧ σ.Accounts w tree height used rest then
    some ({ σ with tree := tree, height := height, ver := σ.xid + 1, hist := tree :: σ.hist
      }.setHolder { w with own := rest, stage := .published })
  else none

/-- The store of `hdr->xid`. -/
def stampXid (σ : Shm E) (w : Holder) : Option (Shm E) :=
  if w.stage = .published then
    some ({ σ with xid := σ.xid + 1 }.setHolder { w with stage := .stamped })
  else none

/-- `ed_free_pgno` for the replaced pages, granted or refused. -/
def freeGc (σ : Shm E) (w : Holder) (granted : Bool) : Option (Shm E) :=
  if w.stage = .stamped then
    some ({ σ with free := if granted then σ.free ++ w.gc.map (fun p => (p, σ.xid)) else σ.free
      }.setHolder { w with gc := [], stage := .done })
  else none

/-- An unused page goes to the free list, or is kept for later. -/
def give (σ : Shm E) (w : Holder) (p : Nat) (free : Bool) : Option (Shm E) :=
  if p ∈ w.own then
    some ((if free then { σ with free := σ.free ++ [(p, 0)] }
      else { σ with pool := p :: σ.pool }).setHolder { w with own := w.own.erase p })
  else none

/-- An abandoned or pending page goes to the free list. -/
def drain (σ : Shm E) (p : Nat) : Option (Shm E) :=
  if p ∈ σ.pool then some { σ with pool := σ.pool.erase p, free := σ.free ++ [(p, 0)] } else none

/-- A pending page is lost: its slot is cleared, or the call that frees it fails. -/
def lose (σ : Shm E) (p : Nat) : Option (Shm E) :=
  if p ∈ σ.pool then some { σ with pool := σ.pool.erase p } else none

/-- The holder releases the lock, after a commit or without one. -/
def unlock (σ : Shm E) (w : Holder) : Option (Shm E) :=
  if w.own = [] ∧ (w.stage = .working ∨ w.stage = .done) then some { σ with holder := none }
  else none

/-! ## Death and repair -/

/-- A process dies. Of the pages of a writer, those in `keep` are on record, those in `gone` are
not. -/
def kill (σ : Shm E) (i : Nat) (keep gone : List Nat) : Option (Shm E) :=
  if σ.live i then
    let dead := { σ with
      live := update σ.live i false
      phase := update σ.phase i .idle
      stat := update σ.stat i none }
    match σ.holder with
    | some w =>
      if w.conn = i then
        if w.own.Perm (keep ++ gone) then
          some { dead with holder := none, pool := keep ++ σ.pool }
        else none
      else some dead
    | none => some dead
  else none

/-- The pages that `ed_stat_new` leaves unmarked. It marks the header pages of an index with `nconns`
slots, the free list, the published trees and the pages `seen` of the pool and the GC chain: those
in the slots it looks at, in `hdr->active` and on the GC pages it reads. -/
def leaks (σ : Shm E) (nconns : Nat) (seen : List Nat) : List Nat :=
  leaksBelow (fun p => decide (edIdxPages nconns ≤ p ∧ p ∉ σ.freePages ∧ p ∉ σ.treeList ∧ p ∉ seen))
    σ.tail

/-- `ed_stat_new`. Its snapshot uses the slot of the process; the tail has `count` pages. -/
def statNew (σ : Shm E) (i now count : Nat) (seen : List Nat) : Option (Shm E) :=
  if σ.live i = true ∧ σ.phase i = .idle ∧ σ.holder = none ∧
      (∀ p ∈ seen, p ∈ σ.pool ∨ p ∈ σ.chain) then
    some { σ.setSlot i { σ.slots i with xid := 0, active := now } with
      stat := update σ.stat i (some ⟨σ.leaks (σ.scans i) seen, σ.tail + count⟩)
      fresh := update σ.fresh i true }
  else none

/-- `ed_idx_repair_leaks` by the holder of the lock. -/
def repair (σ : Shm E) (w : Holder) (granted : Nat → Bool) : Option (Shm E) :=
  (σ.stat w.conn).bind fun st => (st.repair granted).map fun b =>
    { σ with
      free := σ.free ++ b.freed.map (fun p => (p, 0))
      fresh := fun _ => false }

/-- One step. -/
def step (σ : Shm E) : Act E → Option (Shm E)
  | .attach i n => σ.attach i n
  | .detach i => σ.detach i
  | .readXid i => σ.readXid i
  | .storeXid i now => σ.storeXid i now
  | .loadKeys i => σ.loadKeys i
  | .loadBlocks i => σ.loadBlocks i
  | .release i now => σ.release i now
  | .lock i => σ.lock i
  | .take p => σ.holder.bind fun w => σ.take w p
  | .scanStart => σ.holder.map fun w => σ.scanStart w
  | .scanSlot now => σ.holder.bind fun w => σ.scanSlot w now
  | .allocFree p f chain => σ.holder.bind fun w => σ.allocFree w p f chain
  | .allocTail chain => σ.holder.map fun w => σ.allocTail w chain
  | .recycle p => σ.holder.bind fun w => σ.recycle w p
  | .write p b => σ.holder.bind fun w => σ.write w p b
  | .discard p => σ.holder.bind fun w => σ.discard w p
  | .publish t h used rest => σ.holder.bind fun w => σ.publish w t h used rest
  | .stampXid => σ.holder.bind fun w => σ.stampXid w
  | .freeGc => σ.holder.bind fun w => σ.freeGc w true
  | .loseGc => σ.holder.bind fun w => σ.freeGc w false
  | .give p free => σ.holder.bind fun w => σ.give w p free
  | .drain p => σ.holder.bind fun _ => σ.drain p
  | .lose p => σ.lose p
  | .unlock => σ.holder.bind fun w => σ.unlock w
  | .kill i keep gone => σ.kill i keep gone
  | .statNew i now count seen => σ.statNew i now count seen
  | .repair granted => σ.holder.bind fun w => σ.repair w granted

/-- A new index. -/
def create (maxConns : Nat) (pages : Nat → EdBpt E) : Shm E where
  pages := pages
  xid := 1
  tree := fun _ => none
  height := fun _ => 0
  ver := 1
  hist := [fun _ => none]
  nconns := (createIdx maxConns).nconns
  slots := fun _ => ConnSlot.blank
  live := fun _ => false
  scans := fun _ => 0
  phase := fun _ => .idle
  holder := none
  free := []
  pool := []
  chain := [pgRootGc]
  tail := (createIdx maxConns).tailStart
  stat := fun _ => none
  fresh := fun _ => false

end Shm

end Eddy
