import Eddy.Lib.Outcome
import Eddy.Lib.Slots
import Mathlib.Data.List.Dedup

/-!
# Eddy — the index file and one process's view of it

The index is a file of fixed-size pages shared by every process through `mmap`. Page `0`
and the pages after it hold the header and the connection slots. The pages at the end of
the file that were never used are the tail, and every other page belongs to the GC chain or
its free lists, to a tree, to a connection's pending list or to a transaction.

This module has the data that `bpt.c` and `txn.c` read and write, as one process sees it while it runs.
Page numbers, transaction ids and block numbers are natural numbers. Pointers to nodes are
indices into the node table, pointers to entries are a page and a slot.
An access outside a page's `data` area is undefined behaviour.
-/

namespace Eddy

open Outcome Slots

/-- `UINT64_MAX`. -/
def uint64Max : Nat := 2 ^ 64 - 1

theorem uint64Max_succ : uint64Max + 1 = 2 ^ 64 := by
  unfold uint64Max
  omega

/-- The subtraction of one in `uint64_t`. -/
def pred64 (k : Nat) : Nat := if k = 0 then uint64Max else k - 1

/-- The subtraction of two `uint32_t` values. -/
def sub32 (a b : Nat) : Nat := (a + (2 ^ 32 - b % 2 ^ 32)) % 2 ^ 32

/-- The two trees of an index (`ED_DB_KEYS`, `ED_DB_BLOCKS`). -/
inductive EdDb where
  | keys
  | blocks
  deriving DecidableEq, Repr

/-- Page types. -/
inductive EdPgType where
  | index
  | gc
  | branch
  | leaf
  deriving DecidableEq, Repr

/-- Error codes; `sys` stands for every failed system call. -/
inductive EdErr where
  | sys
  | einval
  | eindexKeyMatch
  | eindexRdonly
  | eindexDupkey
  | eindexTxnClosed
  deriving DecidableEq, Repr

/-- The fault points of `ED_FAULT_MAP`. -/
inductive EdFault where
  | commitBegin
  | activeCleared
  | updateTree
  | closeBegin
  | pendingBegin
  | pendingFinish
  deriving DecidableEq, Repr

/-- The requests to the operating system that may fail: the write lock, memory and mappings for
the pages of a transaction, and those for the GC lists of a call that frees pages. -/
inductive EdReq where
  | lock
  | page
  | free
  deriving DecidableEq, Repr

inductive EdTxnState where
  | closed
  | open
  | committed
  | cancelled
  deriving DecidableEq, Repr

/-- An entry type: its first eight bytes are the key (`ed_fetch64`). -/
class EdEntry (E : Type) where
  fetch64 : E → Nat
  fetch64_lt : ∀ e, fetch64 e < 2 ^ 64

export EdEntry (fetch64)

/-- How many slots fit on a page. The bounds are what the splits rely on. -/
structure Geom where
  branchOrder : Nat
  leafOrder : Nat
  branch_ge : 4 ≤ branchOrder
  leaf_ge : 2 ≤ leafOrder

/-- Bytes of a tree page before `data`. -/
def bptHeaderSize : Nat := 24

/-- `ed_branch_order` and `ed_leaf_order` of a build for one page size. -/
def edBranchOrder (pagesize : Nat) : Nat := (pagesize - bptHeaderSize - 4) / 12 + 1

def edLeafOrder (pagesize esize : Nat) : Nat := (pagesize - bptHeaderSize) / esize

/-- The geometry of 4096 byte pages and 24 byte entries. -/
def Geom.page4096 : Geom where
  branchOrder := edBranchOrder 4096
  leafOrder := edLeafOrder 4096 24
  branch_ge := by decide
  leaf_ge := by decide

/-- A tree page. Slot `i` of a branch is the pointer `ptr i` and, from `1` on, the separator
`key i` in front of it; slot `i` of a leaf is the entry `ent i`. -/
structure EdBpt (E : Type) where
  type : EdPgType
  xid : Nat
  nkeys : Nat
  ptr : Nat → Nat
  key : Nat → Nat
  ent : Nat → E

/-- The in-memory wrapper of a mapped page. -/
structure EdNode where
  page : Nat
  parent : Option Nat
  pindex : Nat
  gc : Bool

/-- A pointer to an entry slot of a page. A cursor that is moved to the last entry of an empty
leaf points to the slot `-1`. -/
structure EntPtr where
  page : Nat
  slot : Int
  deriving DecidableEq

/-- The cursor of one tree. `matched` is the test `match == 1`, the only one made on `match`. -/
structure EdTxnDb where
  root : Option Nat
  find : Option Nat
  key : Nat
  kmin : Nat
  kmax : Nat
  start : Option EntPtr
  entry : Option EntPtr
  entryIndex : Nat
  matched : Bool
  nmatches : Nat
  nloops : Nat
  haskey : Bool
  hasfind : Bool
  hasentry : Bool

/-- The cursor of a closed transaction. -/
def EdTxnDb.reset (root : Option Nat) (hasentry : Bool) : EdTxnDb where
  root := root
  find := root
  key := 0
  kmin := 0
  kmax := 0
  start := none
  entry := none
  entryIndex := 0
  matched := false
  nmatches := 0
  nloops := 0
  haskey := false
  hasfind := false
  hasentry := hasentry

/-- A transaction object. The nodes in use are those below `nused`. -/
structure EdTxn where
  pg : List Nat
  npgused : Nat
  npgslot : Nat
  gc : List Nat
  nodes : Nat → EdNode
  nused : Nat
  xid : Nat
  vno : Nat
  state : EdTxnState
  error : Option EdErr
  isrdonly : Bool
  db : EdDb → EdTxnDb

/-- The parts of the index header that transactions use. `gcs` lists the pages of the GC chain
together with the unconsumed pages of its lists. -/
structure EdPgIdx where
  xid : Nat
  vno : Nat
  tree : EdDb → Option Nat
  active : List Nat
  gcs : List Nat
  tailStart : Nat
  tailCount : Nat

/-- A connection slot. -/
structure EdConn where
  xid : Nat
  pending : List Nat

/-- The number of pages of the file. -/
def EdPgIdx.no (h : EdPgIdx) : Nat := h.tailStart + h.tailCount

/-- The state a process runs in: the shared file, the write lock, its own connection and
transaction. `lck` is whether this process holds the write lock and `busy` whether another one
does. `lost` records, for the accounting only, the arrays passed to a call of `edFreePgno` that
failed after its caller had already dropped them; `tick` counts the questions put to the
environment. -/
structure St (E : Type) where
  pages : Nat → EdBpt E
  hdr : EdPgIdx
  conn : EdConn
  txn : EdTxn
  lck : Bool
  busy : Bool
  lost : List Nat
  tick : Nat

/-- The environment: whether a request to the operating system fails, whether the process is
killed at a fault point, which free pages an allocation reuses, how many tail pages a call that
frees pages turns into GC pages, and what an allocated page holds. -/
structure Env (E : Type) where
  fails : EdReq → Nat → Bool
  kills : Nat → EdFault → Bool
  reuse : Nat → List Nat → List Nat
  gcPages : Nat → Nat
  junk : Nat → Nat → EdBpt E

/-- A call made by a process. -/
abbrev M (E : Type) := Prog EdErr EdFault (St E)

variable {E : Type}

/-! ## Access to the parts of the state -/

namespace St

def modTxn (s : St E) (f : EdTxn → EdTxn) : St E := { s with txn := f s.txn }

def modHdr (s : St E) (f : EdPgIdx → EdPgIdx) : St E := { s with hdr := f s.hdr }

def modConn (s : St E) (f : EdConn → EdConn) : St E := { s with conn := f s.conn }

def modPage (s : St E) (p : Nat) (f : EdBpt E → EdBpt E) : St E :=
  { s with pages := fun q => if q = p then f (s.pages p) else s.pages q }

def modNode (s : St E) (n : Nat) (f : EdNode → EdNode) : St E :=
  s.modTxn fun t => { t with nodes := fun m => if m = n then f (t.nodes n) else t.nodes m }

def modDb (s : St E) (d : EdDb) (f : EdTxnDb → EdTxnDb) : St E :=
  s.modTxn fun t => { t with db := fun e => if e = d then f (t.db d) else t.db e }

/-- The same state at another time of the environment's clock. -/
def atTick (s : St E) (t : Nat) : St E := { s with tick := t }

/-- The node `n` of the transaction. -/
def node (s : St E) (n : Nat) : EdNode := s.txn.nodes n

/-- The mapped page of the node `n` (`node->tree`). -/
def tree (s : St E) (n : Nat) : EdBpt E := s.pages (s.txn.nodes n).page

variable (s : St E)

@[simp] theorem modTxn_pages (f : EdTxn → EdTxn) : (s.modTxn f).pages = s.pages := rfl
@[simp] theorem modTxn_hdr (f : EdTxn → EdTxn) : (s.modTxn f).hdr = s.hdr := rfl
@[simp] theorem modTxn_conn (f : EdTxn → EdTxn) : (s.modTxn f).conn = s.conn := rfl
@[simp] theorem modTxn_lck (f : EdTxn → EdTxn) : (s.modTxn f).lck = s.lck := rfl
@[simp] theorem modTxn_busy (f : EdTxn → EdTxn) : (s.modTxn f).busy = s.busy := rfl
@[simp] theorem modTxn_lost (f : EdTxn → EdTxn) : (s.modTxn f).lost = s.lost := rfl
@[simp] theorem modTxn_txn (f : EdTxn → EdTxn) : (s.modTxn f).txn = f s.txn := rfl

@[simp] theorem atTick_pages (t : Nat) : (s.atTick t).pages = s.pages := rfl
@[simp] theorem atTick_hdr (t : Nat) : (s.atTick t).hdr = s.hdr := rfl
@[simp] theorem atTick_txn (t : Nat) : (s.atTick t).txn = s.txn := rfl
@[simp] theorem atTick_node (t n : Nat) : (s.atTick t).node n = s.node n := rfl

@[simp] theorem modHdr_hdr (f : EdPgIdx → EdPgIdx) : (s.modHdr f).hdr = f s.hdr := rfl
@[simp] theorem modHdr_conn (f : EdPgIdx → EdPgIdx) : (s.modHdr f).conn = s.conn := rfl
@[simp] theorem modHdr_lck (f : EdPgIdx → EdPgIdx) : (s.modHdr f).lck = s.lck := rfl
@[simp] theorem modHdr_busy (f : EdPgIdx → EdPgIdx) : (s.modHdr f).busy = s.busy := rfl
@[simp] theorem modHdr_lost (f : EdPgIdx → EdPgIdx) : (s.modHdr f).lost = s.lost := rfl
@[simp] theorem modHdr_txn (f : EdPgIdx → EdPgIdx) : (s.modHdr f).txn = s.txn := rfl

@[simp] theorem modPage_hdr (p : Nat) (f : EdBpt E → EdBpt E) : (s.modPage p f).hdr = s.hdr := rfl
@[simp] theorem modPage_txn (p : Nat) (f : EdBpt E → EdBpt E) : (s.modPage p f).txn = s.txn := rfl
@[simp] theorem modPage_node (p : Nat) (f : EdBpt E → EdBpt E) (n : Nat) :
    (s.modPage p f).node n = s.node n := rfl

@[simp] theorem modPage_pages_self (p : Nat) (f : EdBpt E → EdBpt E) :
    (s.modPage p f).pages p = f (s.pages p) := by simp [modPage]

theorem modPage_pages_of_ne {p q : Nat} (f : EdBpt E → EdBpt E) (h : q ≠ p) :
    (s.modPage p f).pages q = s.pages q := by simp [modPage, h]

@[simp] theorem modNode_pages (n : Nat) (f : EdNode → EdNode) :
    (s.modNode n f).pages = s.pages := rfl
@[simp] theorem modNode_nused (n : Nat) (f : EdNode → EdNode) :
    (s.modNode n f).txn.nused = s.txn.nused := rfl

@[simp] theorem modNode_node_self (n : Nat) (f : EdNode → EdNode) :
    (s.modNode n f).node n = f (s.node n) := by simp [modNode, modTxn, node]

theorem modNode_node_of_ne {n m : Nat} (f : EdNode → EdNode) (h : m ≠ n) :
    (s.modNode n f).node m = s.node m := by simp [modNode, modTxn, node, h]

@[simp] theorem modDb_pages (d : EdDb) (f : EdTxnDb → EdTxnDb) :
    (s.modDb d f).pages = s.pages := rfl
@[simp] theorem modDb_hdr (d : EdDb) (f : EdTxnDb → EdTxnDb) : (s.modDb d f).hdr = s.hdr := rfl
@[simp] theorem modDb_node (d : EdDb) (f : EdTxnDb → EdTxnDb) (n : Nat) :
    (s.modDb d f).node n = s.node n := rfl
@[simp] theorem modDb_tree (d : EdDb) (f : EdTxnDb → EdTxnDb) (n : Nat) :
    (s.modDb d f).tree n = s.tree n := rfl
@[simp] theorem modDb_nused (d : EdDb) (f : EdTxnDb → EdTxnDb) :
    (s.modDb d f).txn.nused = s.txn.nused := rfl

@[simp] theorem modDb_db_self (d : EdDb) (f : EdTxnDb → EdTxnDb) :
    (s.modDb d f).txn.db d = f (s.txn.db d) := by simp [modDb, modTxn]

theorem modDb_db_of_ne {d e : EdDb} (f : EdTxnDb → EdTxnDb) (h : e ≠ d) :
    (s.modDb d f).txn.db e = s.txn.db e := by simp [modDb, modTxn, h]

theorem modDb_modPage (d : EdDb) (f : EdTxnDb → EdTxnDb) (p : Nat) (F : EdBpt E → EdBpt E) :
    (s.modDb d f).modPage p F = (s.modPage p F).modDb d f := rfl

theorem modDb_eq (d : EdDb) (f : EdTxnDb → EdTxnDb) : s.modDb d f = { s with txn := { s.txn with
    db := fun e => if e = d then f (s.txn.db d) else s.txn.db e } } := rfl

theorem modDb_congr {d : EdDb} {f f' : EdTxnDb → EdTxnDb} (h : f (s.txn.db d) = f' (s.txn.db d)) :
    s.modDb d f = s.modDb d f' := by
  rw [modDb_eq, modDb_eq, h]

theorem modDb_modDb (d : EdDb) (f f' : EdTxnDb → EdTxnDb) :
    (s.modDb d f).modDb d f' = s.modDb d fun c => f' (f c) := by
  have hdb : (fun e => if e = d then f' ((s.modDb d f).txn.db d) else (s.modDb d f).txn.db e)
      = fun e => if e = d then f' (f (s.txn.db d)) else s.txn.db e := by
    funext e
    by_cases he : e = d
    · simp [he]
    · simp [he, modDb_db_of_ne s f he]
  rw [modDb_eq (s.modDb d f), hdb]
  rfl

theorem modDb_eq_self {d : EdDb} {f : EdTxnDb → EdTxnDb} (h : f (s.txn.db d) = s.txn.db d) :
    s.modDb d f = s := by
  have hdb : (fun e => if e = d then f (s.txn.db d) else s.txn.db e) = s.txn.db := by
    funext e
    by_cases he : e = d
    · rw [if_pos he, he, h]
    · rw [if_neg he]
  rw [modDb_eq, hdb]

end St

def modTxn (f : EdTxn → EdTxn) : M E Unit := Prog.modify fun s => s.modTxn f

def modHdr (f : EdPgIdx → EdPgIdx) : M E Unit := Prog.modify fun s => s.modHdr f

def modConn (f : EdConn → EdConn) : M E Unit := Prog.modify fun s => s.modConn f

/-- Change the mapped page of a node. -/
def modTree (n : Nat) (f : EdBpt E → EdBpt E) : M E Unit :=
  Prog.modify fun s => s.modPage (s.node n).page f

def modNode (n : Nat) (f : EdNode → EdNode) : M E Unit := Prog.modify fun s => s.modNode n f

def modDb (d : EdDb) (f : EdTxnDb → EdTxnDb) : M E Unit := Prog.modify fun s => s.modDb d f

def getNode (n : Nat) : M E EdNode := Prog.gets fun s => s.node n

def getTree (n : Nat) : M E (EdBpt E) := Prog.gets fun s => s.tree n

def getDb (d : EdDb) : M E EdTxnDb := Prog.gets fun s => s.txn.db d

/-- Ask whether the next request to the operating system fails. -/
def sysFails (env : Env E) (r : EdReq) : M E Bool := fun s =>
  .ok (env.fails r s.tick) (s.atTick (s.tick + 1))

/-- `ed_fault_trigger`: the process dies here when the environment says so. -/
def edFaultTrigger (env : Env E) (f : EdFault) : M E Unit := fun s =>
  if env.kills s.tick f then .halt f s else .ok () (s.atTick (s.tick + 1))

section Wp

variable {s : St E} {X : Exits EdErr EdFault (St E)} {Q : Unit → St E → Prop}

@[simp] theorem wp_modTxn (f : EdTxn → EdTxn) :
    wp (modTxn f) Q X s = Q () (s.modTxn f) := rfl

@[simp] theorem wp_modHdr (f : EdPgIdx → EdPgIdx) :
    wp (modHdr f) Q X s = Q () (s.modHdr f) := rfl

@[simp] theorem wp_modConn (f : EdConn → EdConn) :
    wp (modConn f) Q X s = Q () (s.modConn f) := rfl

@[simp] theorem wp_modTree (n : Nat) (f : EdBpt E → EdBpt E) :
    wp (modTree n f) Q X s = Q () (s.modPage (s.node n).page f) := rfl

@[simp] theorem wp_modNode (n : Nat) (f : EdNode → EdNode) :
    wp (modNode n f) Q X s = Q () (s.modNode n f) := rfl

@[simp] theorem wp_modDb (d : EdDb) (f : EdTxnDb → EdTxnDb) :
    wp (modDb d f) Q X s = Q () (s.modDb d f) := rfl

@[simp] theorem wp_getNode (n : Nat) {Q : EdNode → St E → Prop} :
    wp (getNode n) Q X s = Q (s.node n) s := rfl

@[simp] theorem wp_getTree (n : Nat) {Q : EdBpt E → St E → Prop} :
    wp (getTree n) Q X s = Q (s.tree n) s := rfl

@[simp] theorem wp_getDb (d : EdDb) {Q : EdTxnDb → St E → Prop} :
    wp (getDb d) Q X s = Q (s.txn.db d) s := rfl

@[simp] theorem wp_sysFails (env : Env E) (r : EdReq) {Q : Bool → St E → Prop} :
    wp (sysFails env r) Q X s = Q (env.fails r s.tick) (s.atTick (s.tick + 1)) := rfl

theorem wp_edFaultTrigger (env : Env E) (f : EdFault) {Q : Unit → St E → Prop} :
    wp (edFaultTrigger env f) Q X s ↔ (env.kills s.tick f = true → X.halt f s) ∧
      (env.kills s.tick f = false → Q () (s.atTick (s.tick + 1))) := by
  unfold edFaultTrigger wp
  cases h : env.kills s.tick f <;> simp [h]

end Wp

/-- Record an error in the transaction and return it (`return (txn->error = rc)`). -/
def txnError {α : Type} (e : EdErr) : M E α := do
  modTxn fun t => { t with error := some e }
  Prog.throw e

@[simp] theorem wp_txnError {α : Type} (e : EdErr) {Q : α → St E → Prop}
    {X : Exits EdErr EdFault (St E)} {s : St E} :
    wp (txnError e) Q X s = X.err e (s.modTxn fun t => { t with error := some e }) := rfl

/-! ## A small instance

For runs on fixed inputs: entries that are nothing but a key, pages of zeroes and an operating
system that grants every request. -/

instance : EdEntry UInt64 where
  fetch64 := UInt64.toNat
  fetch64_lt e := e.toNat_lt

/-- A page of zeroes. -/
def EdBpt.zero : EdBpt UInt64 where
  type := .index
  xid := 0
  nkeys := 0
  ptr := fun _ => 0
  key := fun _ => 0
  ent := fun _ => 0

/-- Every request is granted and no process is killed. -/
def Env.calm : Env UInt64 where
  fails := fun _ _ => false
  kills := fun _ _ => false
  reuse := fun _ _ => []
  gcPages := fun _ => 0
  junk := fun _ _ => EdBpt.zero

end Eddy
