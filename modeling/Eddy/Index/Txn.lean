import Eddy.Index.State

/-!
# Eddy — transactions (`txn.c`)

The allocator is taken at its documented contract: `edAlloc` moves distinct pages from the free
lists and the tail to its caller or moves none, `edFreePgno` moves all the given pages to the
free list or moves none. Which free pages are reused, how many tail pages become GC pages and
which calls fail is up to the environment; an allocated page holds arbitrary bytes.

Above it stand the functions of `txn.c`: the node table (`edTxnMap`, `edTxnAlloc`,
`edTxnClone`, `edTxnDiscard`) and the life of a transaction (`edTxnNew`, `edTxnOpen`,
`edTxnCommit`, `edTxnClose`) with its fault points.
-/

namespace Eddy

open Outcome Slots

variable {E : Type} (env : Env E)

/-! ## The allocator at its contract -/

/-- Pages are added to the file in groups of this size. -/
def edAllocCount : Nat := 16

/-- `ED_ALIGN_SIZE`. -/
def edAlignSize (n a : Nat) : Nat := (n + a - 1) / a * a

/-- Take pages from the tail (`map_end_pages`). The file grows first when the tail is too short,
and stays grown when the mapping fails. -/
def mapEndPages (r : EdReq) (n : Nat) : M E (List Nat) := do
  if n = 0 then pure [] else
  modHdr fun h => { h with
    tailCount := if n > h.tailCount then h.tailCount + edAlignSize n edAllocCount else h.tailCount }
  let failed ← sysFails env r
  if failed then Prog.throw .sys else
  let start ← Prog.gets fun s => s.hdr.tailStart
  modHdr fun h => { h with tailStart := h.tailStart + n, tailCount := h.tailCount - n }
  pure (List.range' start n)

/-- The free pages that the environment reuses: distinct, free, and at most `n`. -/
def pickFree (wish free : List Nat) (n : Nat) : List Nat :=
  ((wish.filter fun p => p ∈ free).dedup).take n

/-- `ed_alloc`. -/
def edAlloc (n : Nat) : M E (List Nat) := do
  if n = 0 then pure [] else
  let failed ← sysFails env .page
  if failed then Prog.throw .sys else
  let s ← Prog.get
  let picked := pickFree (env.reuse s.tick s.hdr.gcs) s.hdr.gcs n
  let fresh ← mapEndPages env .page (n - picked.length)
  modHdr fun h => { h with gcs := h.gcs.diff picked }
  Prog.modify fun s => { s with
    pages := fun p => if p ∈ picked ++ fresh then env.junk s.tick p else s.pages p }
  pure (picked ++ fresh)

/-- `ed_free_pgno`. The transaction id that gates the reuse of the pages plays no part in the
accounting. -/
def edFreePgno (_xid : Nat) (pg : List Nat) : M E Unit := do
  if pg = [] then pure () else
  let failed ← sysFails env .free
  if failed then Prog.throw .sys else
  let tick ← Prog.gets fun s => s.tick
  let fresh ← mapEndPages env .free (env.gcPages tick)
  modHdr fun h => { h with gcs := h.gcs ++ pg ++ fresh }

/-- A call of `ed_free_pgno` whose result is ignored: when it fails the pages are leaked. -/
def freeOrLose (xid : Nat) (pg : List Nat) : M E Unit := do
  let rc ← Prog.attempt (edFreePgno env xid pg)
  match rc with
  | .ok _ => pure ()
  | .error _ => Prog.modify fun s => { s with lost := s.lost ++ pg }

/-! ## Nodes and pages of a transaction -/

/-- `ED_TXN_CHECK_WR`. -/
def edTxnCheckWr : M E Unit := do
  let t ← Prog.gets fun s => s.txn
  if t.state = .closed then Prog.throw .eindexTxnClosed
  else if t.isrdonly then Prog.throw .eindexRdonly
  else pure ()

/-- Wrap a mapped page into a new node. -/
def nodeWrap (no : Nat) (par : Option Nat) (pidx : Nat) : M E Nat := do
  let n ← Prog.gets fun s => s.txn.nused
  modNode n fun _ => { page := no, parent := par, pindex := pidx, gc := false }
  modTxn fun t => { t with nused := t.nused + 1 }
  pure n

/-- The newest of the first `n` nodes that wraps the page `no`. -/
def nodeOf (nodes : Nat → EdNode) (no : Nat) : Nat → Option Nat
  | 0 => none
  | n + 1 => if (nodes n).page = no then some n else nodeOf nodes no n

/-- `ed_txn_map`: the node of a page, mapped and wrapped when there is none yet. -/
def edTxnMap (no : Nat) (par : Option Nat) (pidx : Nat) : M E Nat := do
  let t ← Prog.gets fun s => s.txn
  match nodeOf t.nodes no t.nused with
  | some n => do
    modNode n fun x => { x with parent := par, pindex := pidx }
    pure n
  | none => do
    let failed ← sysFails env .page
    if failed then txnError .sys else nodeWrap no par pidx

/-- The new number of page slots when all of them are in use. -/
def growPgslot (npg npgslot : Nat) : Nat :=
  if npgslot = npg then
    if 0 < npg ∧ npg < 10 then npgslot + 2
    else if npg = 0 then 2 else edAlignSize (npg + 1) 10
  else npgslot

/-- The length of `hdr->active`. -/
def activeMax : Nat := 255

/-- The length of `conn->pending`. -/
def pendingMax : Nat := 11

/-- Fill the page slots of the transaction and note the pages as active. -/
def edTxnGrow : M E Unit := do
  let t ← Prog.gets fun s => s.txn
  let failed ← sysFails env .page
  if failed then txnError .sys else
  let npgslot := growPgslot t.pg.length t.npgslot
  modTxn fun t => { t with npgslot := npgslot }
  let rc ← Prog.attempt (edAlloc env (npgslot - t.pg.length))
  match rc with
  | .error e => txnError e
  | .ok pgs => do
    modHdr fun h => { h with active := h.active ++ pgs.take (activeMax - h.active.length) }
    modTxn fun t => { t with pg := t.pg ++ pgs }

/-- Map the next page of the transaction and wrap it into a node with the current xid. -/
def wrapNext (par : Option Nat) (pidx : Nat) : M E Nat := do
  let t ← Prog.gets fun s => s.txn
  let failed ← sysFails env .page
  if failed then txnError .sys else
  match t.pg[t.npgused]? with
  | none => Prog.stuck
  | some no => do
    let n ← nodeWrap no par pidx
    modTxn fun t => { t with npgused := t.npgused + 1 }
    let t ← Prog.gets fun s => s.txn
    modTree n fun b => { b with xid := t.xid }
    pure n

/-- `ed_txn_alloc`: the next page of the transaction, wrapped into a node. -/
def edTxnAlloc (par : Option Nat) (pidx : Nat) : M E Nat := do
  edTxnCheckWr
  let t ← Prog.gets fun s => s.txn
  Prog.when (t.npgused = t.pg.length) (edTxnGrow env)
  wrapNext env par pidx

/-- `ed_txn_discard`: mark the page of a node for removal, once. -/
def edTxnDiscard (n : Nat) : M E Unit := do
  edTxnCheckWr
  let x ← getNode n
  if x.gc then pure () else
  let failed ← sysFails env .page
  if failed then txnError .sys else
  modTxn fun t => { t with gc := t.gc ++ [x.page] }
  modNode n fun x => { x with gc := true }

/-- `ed_txn_clone`: a new node with the header of `n`, whose page is discarded. -/
def edTxnClone (n : Nat) : M E Nat := do
  let x ← getNode n
  let copy ← edTxnAlloc env x.parent x.pindex
  let b ← getTree n
  modTree copy fun c => { c with type := b.type, nkeys := b.nkeys }
  let rc ← Prog.attempt (edTxnDiscard env n)
  match rc with
  | .ok _ => pure copy
  | .error e => do
    modTxn fun t => { t with npgused := t.npgused - 1 }
    Prog.throw e

/-- `ed_txn_isrdonly`. -/
def edTxnIsrdonly (t : EdTxn) : Bool := t.error.isSome || t.isrdonly

/-! ## The life of a transaction -/

/-- Take the write lock. -/
def edLck : M E Unit := do
  let s ← Prog.get
  if s.busy then Prog.throw .sys else
  let failed ← sysFails env .lock
  if failed then Prog.throw .sys else
  Prog.modify fun s => { s with lck := true }

/-- Release the write lock. -/
def edLckUn : M E Unit := Prog.modify fun s => { s with lck := false }

/-- A transaction object that was never opened. -/
def EdTxn.blank : EdTxn where
  pg := []
  npgused := 0
  npgslot := 0
  gc := []
  nodes := fun _ => { page := 0, parent := none, pindex := 0, gc := false }
  nused := 0
  xid := 0
  vno := 0
  state := .closed
  error := none
  isrdonly := false
  db := fun _ => EdTxnDb.reset none false

/-- `ed_idx_acquire_snapshot`: publish the current xid and load the roots. -/
def edIdxAcquireSnapshot : M E Unit := do
  let s ← Prog.get
  modConn fun c => { c with xid := s.hdr.xid }
  let failed ← sysFails env .page
  if failed then do
    modConn fun c => { c with xid := 0 }
    Prog.throw .sys
  else pure ()

/-- Wrap the loaded root of one tree. -/
def wrapRoot (d : EdDb) : M E Unit := do
  let s ← Prog.get
  match s.hdr.tree d with
  | none => modDb d fun c => { c with root := none, find := none }
  | some no => do
    let n ← nodeWrap no none 0
    modDb d fun c => { c with root := some n, find := some n }

/-- How far the loop over `txn->pg` in `ed_txn_open` gets for one pending page. -/
def pendingIndex (no : Nat) : List Nat → Nat
  | [] => 0
  | q :: rest => if no = q then (if no = q then 0 else pendingIndex no rest + 1) else 0

/-- The pending pages that go back to the free list. -/
def inactivePending (pending pg : List Nat) : List Nat :=
  pending.filter fun no => pendingIndex no pg = pg.length

/-- Give the pages of an abandoned transaction back to the free list. -/
def freeAbandoned : M E Unit := do
  let active ← Prog.gets fun s => s.hdr.active
  if active = [] then pure () else
  modHdr fun h => { h with active := [] }
  let rc ← Prog.attempt (edFreePgno env 0 active)
  match rc with
  | .ok _ => pure ()
  | .error e => do
    modHdr fun h => { h with active := active }
    edLckUn
    Prog.throw e

/-- Hand the pending pages of the connection to the transaction or to the free list. -/
def takePending : M E Unit := do
  let s ← Prog.get
  let inactive := inactivePending s.conn.pending s.txn.pg
  modConn fun c => { c with pending := [] }
  freeOrLose env 0 inactive
  modHdr fun h => { h with active := s.txn.pg }

/-- The part of `ed_txn_open` that only a write transaction runs. -/
def openWrite : M E Unit := do
  let h ← Prog.gets fun s => s.hdr
  modTxn fun t => { t with xid := h.xid + 1, vno := h.vno }
  freeAbandoned env
  takePending env

/-- `ed_txn_open`. -/
def edTxnOpen (rdonly : Bool) : M E Unit := do
  let t ← Prog.gets fun s => s.txn
  if t.state ≠ .closed then Prog.throw .einval else
  Prog.when (rdonly = false) (edLck env)
  edIdxAcquireSnapshot env
  wrapRoot .keys
  wrapRoot .blocks
  Prog.when (rdonly = false) (openWrite env)
  modTxn fun t => { t with isrdonly := rdonly, state := .open }

def flushActive : M E Unit := modHdr fun h => { h with active := [] }

/-- The page number of a root for the header. -/
def rootNo (s : St E) (d : EdDb) : Option Nat :=
  (s.txn.db d).root.map fun n => (s.node n).page

/-- How many pages a close keeps for the next transaction. -/
def keepCount (reset : Bool) : Nat := if reset then pendingMax else 0

/-- Record the kept pages as pending and free the rest. -/
def closePending (reset : Bool) : M E Unit := do
  flushActive
  edFaultTrigger env .pendingBegin
  let pg ← Prog.gets fun s => s.txn.pg
  modConn fun c => { c with pending := pg.take (keepCount reset) }
  modTxn fun t => { t with pg := pg.take (keepCount reset) }
  edFaultTrigger env .pendingFinish
  freeOrLose env 0 (pg.drop (keepCount reset))
  edLckUn

/-- Whether a close works under the write lock: a writer still holds it, any other transaction
takes it when it has pages. -/
def closeLock (t : EdTxn) : M E Bool :=
  if t.state ≠ .closed ∧ t.isrdonly = false then pure true
  else if t.pg = [] then pure false
  else do
    let rc ← Prog.attempt (edLck env)
    pure rc.isOk

/-- The transaction object after a reset. -/
def EdTxn.afterReset (t : EdTxn) : EdTxn :=
  { t with
    npgused := 0
    gc := []
    nodes := EdTxn.blank.nodes
    nused := 0
    xid := 0
    state := .closed
    error := none
    db := fun d => EdTxnDb.reset none (t.db d).hasentry }

/-- `ed_txn_close`. Without a reset the object is freed. -/
def edTxnClose (reset : Bool) : M E Unit := do
  modTxn fun t => { t with state := if t.state = .open then .cancelled else t.state }
  edFaultTrigger env .closeBegin
  let t ← Prog.gets fun s => s.txn
  let locked ← closeLock env t
  Prog.when (reset = false ∨ t.state ≠ .closed) (modConn fun c => { c with xid := 0 })
  Prog.when (locked = true) (closePending env reset)
  modTxn fun t => if reset then t.afterReset else EdTxn.blank

/-- `ed_txn_commit`. -/
def edTxnCommit (reset : Bool) : M E Unit := do
  let t ← Prog.gets fun s => s.txn
  if t.state = .closed then Prog.throw .eindexTxnClosed else
  if edTxnIsrdonly t then do
    edTxnClose env reset
    Prog.throw .eindexRdonly
  else do
    edFaultTrigger env .commitBegin
    flushActive
    edFaultTrigger env .activeCleared
    modTxn fun t => { t with pg := t.pg.drop t.npgused, npgused := 0 }
    let s ← Prog.get
    modHdr fun h => { h with tree := rootNo s }
    edFaultTrigger env .updateTree
    modHdr fun h => { h with xid := t.xid, vno := t.vno }
    freeOrLose env t.xid t.gc
    modTxn fun t => { t with gc := [], state := .committed }
    edTxnClose env reset

/-- Map the root of one tree into a new transaction object. -/
def newRoot (d : EdDb) : M E Unit := do
  let s ← Prog.get
  match s.hdr.tree d with
  | none => pure ()
  | some no => do
    let n ← edTxnMap env no none 0
    modDb d fun c => { c with root := some n, find := some n }

/-- `ed_txn_new`. -/
def edTxnNew : M E Unit := do
  modTxn fun _ => EdTxn.blank
  let rc ← Prog.attempt (do newRoot env .keys; newRoot env .blocks)
  match rc with
  | .ok _ => pure ()
  | .error e => do
    edTxnClose env false
    Prog.throw e

end Eddy
