import Eddy.Index.Txn

/-!
# Eddy — the B+tree (`bpt.c`)

Search, cursor moves, insertion and deletion on the tree of one database of a transaction.
`Geom` says how many slots a page has; a copy or a store that leaves the `data` area of a page
is undefined behaviour, and so is a walk over parents or children that would never end (it
runs out of its fuel, the number of nodes or of pages).
-/

namespace Eddy

open Outcome Slots

variable {E : Type} [EdEntry E] (env : Env E) (g : Geom)

/-! ## Slots of a page -/

/-- `branch_key`: separator `0` is the smallest key. -/
def branchKey (b : EdBpt E) (idx : Nat) : Nat := if idx = 0 then 0 else b.key idx

/-- `memcpy` or `memmove` of `n` slots between two branch pages. -/
def moveBranch (dst di src si n : Nat) : M E Unit := do
  if n = 0 ∨ (di + n ≤ g.branchOrder ∧ si + n ≤ g.branchOrder) then do
    let b ← getTree src
    modTree dst fun c => { c with ptr := blit c.ptr di b.ptr si n, key := blit c.key di b.key si n }
  else Prog.stuck

/-- `memcpy` or `memmove` of `n` slots between two leaf pages. -/
def moveLeaf (dst di src si n : Nat) : M E Unit := do
  if n = 0 ∨ (di + n ≤ g.leafOrder ∧ si + n ≤ g.leafOrder) then do
    let b ← getTree src
    modTree dst fun c => { c with ent := blit c.ent di b.ent si n }
  else Prog.stuck

/-- `branch_set_ptr`. -/
def branchSetPtr (n idx : Nat) (val : Nat) : M E Unit :=
  if idx < g.branchOrder then modTree n fun b => { b with ptr := store b.ptr idx val }
  else Prog.stuck

/-- `branch_set_key`. -/
def branchSetKey (n idx val : Nat) : M E Unit :=
  if idx = 0 then pure ()
  else if idx < g.branchOrder then modTree n fun b => { b with key := store b.key idx val }
  else Prog.stuck

/-- Read the entry a pointer points to. -/
def readEnt (p : Option EntPtr) : M E E := do
  match p with
  | none => Prog.stuck
  | some p =>
    if 0 ≤ p.slot ∧ p.slot < g.leafOrder then Prog.gets fun s => (s.pages p.page).ent p.slot.toNat
    else Prog.stuck

/-- Store an entry where a pointer points to. -/
def storeEnt (p : Option EntPtr) (e : E) : M E Unit := do
  match p with
  | none => Prog.stuck
  | some p =>
    if 0 ≤ p.slot ∧ p.slot < g.leafOrder then
      Prog.modify fun s => s.modPage p.page fun b => { b with ent := store b.ent p.slot.toNat e }
    else Prog.stuck

/-! ## Search -/

/-- The loop of `branch_search` over the separators from `i + 1` on. -/
def branchScan (key : Nat → Nat) (k : Nat) : Nat → Nat → Nat
  | 0, i => i
  | r + 1, i =>
    if k < key (i + 1) then i
    else if k = key (i + 1) then i + 1
    else branchScan key k r (i + 1)

/-- `branch_search`: the index of the child to descend to. -/
def branchSearch (b : EdBpt E) (k : Nat) : Nat := branchScan b.key k b.nkeys 0

/-- The result of the search loop over a leaf. -/
structure LeafPos where
  index : Nat
  kmin : Nat
  kmax : Nat
  found : Bool

/-- The search loop over a leaf from slot `i` on. -/
def leafScan (ent : Nat → E) (k : Nat) : Nat → Nat → Nat → Nat → LeafPos
  | 0, i, kmin, kmax => ⟨i, kmin, kmax, false⟩
  | r + 1, i, kmin, kmax =>
    if k = fetch64 (ent i) then ⟨i, kmin, fetch64 (ent i), true⟩
    else if k < fetch64 (ent i) then ⟨i, kmin, fetch64 (ent i), false⟩
    else leafScan ent k r (i + 1) (fetch64 (ent i)) kmax

/-- The descent of `ed_bpt_find` from a node, with the key range of that node. -/
def findDescend (d : EdDb) (k : Nat) : Nat → Nat → Nat → Nat → M E (Nat × Nat × Nat)
  | 0, _, _, _ => Prog.stuck
  | fuel + 1, n, kmin, kmax => do
    let b ← getTree n
    if b.type = .branch then
      if b.nkeys < g.branchOrder then do
        let i := branchSearch b k
        let next ← edTxnMap env (b.ptr i) (some n) i
        modDb d fun c => { c with find := some next }
        findDescend d k fuel next (if i = 0 then kmin else b.key i)
          (if i < b.nkeys then pred64 (b.key (i + 1)) else kmax)
      else Prog.stuck
    else pure (n, kmin, kmax)

/-- The cursor after a search. -/
def EdTxnDb.found (c : EdTxnDb) (k : Nat) (pos : LeafPos) (data : Option EntPtr) : EdTxnDb :=
  { c with
    key := k
    kmin := pos.kmin
    kmax := pos.kmax
    start := data
    entry := data
    entryIndex := pos.index
    matched := pos.found
    nmatches := if pos.found then 1 else 0
    nloops := 0
    haskey := true
    hasfind := true
    hasentry := pos.found }

/-- `ed_txn_db` with a reset of the search state. -/
def EdTxnDb.searchReset (c : EdTxnDb) : EdTxnDb :=
  { c with find := c.root, entry := none, entryIndex := 0, matched := false, nmatches := 0 }

/-- `ed_bpt_find`: whether the key is present, and the entry found. -/
def edBptFind (d : EdDb) (k : Nat) : M E (Nat × Option EntPtr) := do
  let t ← Prog.gets fun s => s.txn
  if t.state ≠ .open then Prog.throw .einval else
  modDb d EdTxnDb.searchReset
  match (t.db d).root with
  | none => do
    modDb d fun c => c.found k ⟨0, 0, uint64Max, false⟩ none
    pure (0, none)
  | some root => do
    let fuel ← Prog.gets fun s => s.hdr.no
    let r ← findDescend env g d k (fuel + 1) root 0 uint64Max
    let s ← Prog.get
    let b := s.tree r.1
    let pos := leafScan b.ent k b.nkeys 0 r.2.1 r.2.2
    if b.nkeys ≤ g.leafOrder ∨ pos.index < g.leafOrder then do
      let data : EntPtr := ⟨(s.node r.1).page, pos.index⟩
      modDb d fun c => c.found k pos (some data)
      pure (if pos.found then (1, some data) else (0, none))
    else Prog.stuck

/-! ## Cursor moves -/

/-- `find_kmin`. -/
def findKmin (s : St E) : Nat → Nat → M E Nat
  | 0, _ => Prog.stuck
  | fuel + 1, n =>
    match (s.node n).parent with
    | none => pure 0
    | some p =>
      if 0 < (s.node n).pindex then pure (pred64 (branchKey (s.tree p) ((s.node n).pindex - 1)))
      else findKmin s fuel p

/-- `find_kmax`. -/
def findKmax (s : St E) : Nat → Nat → M E Nat
  | 0, _ => Prog.stuck
  | fuel + 1, n =>
    match (s.node n).parent with
    | none => pure uint64Max
    | some p =>
      if (s.node n).pindex < (s.tree p).nkeys then
        pure (pred64 (branchKey (s.tree p) ((s.node n).pindex + 1)))
      else findKmax s fuel p

/-- The way down to the left-most leaf, with the largest key below the current position. -/
def firstDescend : Nat → Nat → Nat → M E (Nat × Nat)
  | 0, _, _ => Prog.stuck
  | fuel + 1, n, kmax => do
    let b ← getTree n
    if b.type = .branch then do
      let next ← edTxnMap env (b.ptr 0) (some n) 0
      firstDescend fuel next (pred64 (branchKey b 1))
    else pure (n, kmax)

/-- The way down to the right-most leaf. -/
def lastDescend : Nat → Nat → Nat → M E (Nat × Nat)
  | 0, _, _ => Prog.stuck
  | fuel + 1, n, kmin => do
    let b ← getTree n
    if b.type = .branch then
      if b.nkeys < g.branchOrder then do
        let next ← edTxnMap env (b.ptr b.nkeys) (some n) b.nkeys
        lastDescend fuel next (branchKey b b.nkeys)
      else Prog.stuck
    else pure (n, kmin)

/-- The cursor after a move to a leaf. -/
def EdTxnDb.moved (c : EdTxnDb) (leaf : Nat) (kmin kmax : Nat) (entry : EntPtr) (idx : Nat) :
    EdTxnDb :=
  { c with
    find := some leaf
    kmin := kmin
    kmax := kmax
    hasentry := true
    entry := some entry
    entryIndex := idx
    matched := false
    nmatches := 0 }

/-- The cursor after a move that failed. -/
def moveFailed (d : EdDb) (s : St E) : St E :=
  s.modDb d fun c => { c with matched := false, nmatches := 0 }

/-- `move_first`. -/
def moveFirst (d : EdDb) (src : Option Nat) (kmin kmax : Nat) : M E Unit := do
  match src with
  | none => Prog.stuck
  | some n => do
    let fuel ← Prog.gets fun s => s.hdr.no
    let r ← Prog.onErr (firstDescend env (fuel + 1) n kmax) fun _ => moveFailed d
    let s ← Prog.get
    let b := s.tree r.1
    modDb d fun c => c.moved r.1 kmin (if 0 < b.nkeys then fetch64 (b.ent 0) else r.2)
      ⟨(s.node r.1).page, 0⟩ 0

/-- `move_last`. -/
def moveLast (d : EdDb) (src : Option Nat) (kmin kmax : Nat) : M E Unit := do
  match src with
  | none => Prog.stuck
  | some n => do
    let fuel ← Prog.gets fun s => s.hdr.no
    let r ← Prog.onErr (lastDescend env g (fuel + 1) n kmin) fun _ => moveFailed d
    let s ← Prog.get
    let b := s.tree r.1
    if b.nkeys ≤ g.leafOrder then
      modDb d fun c => c.moved r.1 (if 0 < b.nkeys then fetch64 (b.ent (b.nkeys - 1)) else r.2) kmax
        ⟨(s.node r.1).page, (b.nkeys : Int) - 1⟩ (sub32 b.nkeys 1)
    else Prog.stuck

/-- The way up of `move_right` to a node that has a right sibling, and on to the sibling. -/
def climbRight : Nat → Nat → M E (Nat × Nat × Nat)
  | 0, _ => Prog.stuck
  | fuel + 1, n => do
    let s ← Prog.get
    match (s.node n).parent with
    | none => pure (n, 0, uint64Max)
    | some p =>
      if (s.node n).pindex < (s.tree p).nkeys then
        if (s.node n).pindex + 1 < g.branchOrder then do
          let idx := (s.node n).pindex + 1
          let sib ← edTxnMap env ((s.tree p).ptr idx) (some p) idx
          let s ← Prog.get
          let kmax ← findKmax s (s.txn.nused + 1) sib
          pure (sib, branchKey (s.tree p) idx, kmax)
        else Prog.stuck
      else climbRight fuel p

/-- The way up of `move_left` to a node that has a left sibling, and on to the sibling. -/
def climbLeft : Nat → Nat → M E (Nat × Nat × Nat)
  | 0, _ => Prog.stuck
  | fuel + 1, n => do
    let s ← Prog.get
    match (s.node n).parent with
    | none => pure (n, 0, uint64Max)
    | some p =>
      if 0 < (s.node n).pindex then
        if (s.node n).pindex < g.branchOrder then do
          let idx := (s.node n).pindex - 1
          let sib ← edTxnMap env ((s.tree p).ptr idx) (some p) idx
          let s ← Prog.get
          let kmin ← findKmin s (s.txn.nused + 1) sib
          pure (sib, kmin, branchKey (s.tree p) idx)
        else Prog.stuck
      else climbLeft fuel p

/-- `move_right`. -/
def moveRight (d : EdDb) (n : Nat) : M E Unit := do
  let fuel ← Prog.gets fun s => s.txn.nused
  let r ← climbRight env g (fuel + 1) n
  moveFirst env d (some r.1) r.2.1 r.2.2

/-- `move_left`. -/
def moveLeft (d : EdDb) (n : Nat) : M E Unit := do
  let fuel ← Prog.gets fun s => s.txn.nused
  let r ← climbLeft env g (fuel + 1) n
  moveLast env g d (some r.1) r.2.1 r.2.2

/-- The cursor when an iteration starts at its current entry. -/
def EdTxnDb.started (c : EdTxnDb) : EdTxnDb :=
  { c with start := c.entry, nloops := 0, hasfind := true }

/-- `ed_bpt_first`. -/
def edBptFirst (d : EdDb) : M E (Nat × Option EntPtr) := do
  let c ← getDb d
  moveFirst env d c.root 0 uint64Max
  modDb d EdTxnDb.started
  let c ← getDb d
  pure (0, c.entry)

/-- `ed_bpt_last`. -/
def edBptLast (d : EdDb) : M E (Nat × Option EntPtr) := do
  let c ← getDb d
  moveLast env g d c.root 0 uint64Max
  modDb d EdTxnDb.started
  let c ← getDb d
  pure (0, c.entry)

/-- The end of `ed_bpt_next` and `ed_bpt_prev`: compare with the searched key while the cursor is
still on it, and count the loops. -/
def yieldEntry (d : EdDb) : M E (Nat × Option EntPtr) := do
  let c ← getDb d
  Prog.when (c.haskey = true) do
    let e ← readEnt g c.entry
    modDb d fun c =>
      if c.key = fetch64 e then { c with nmatches := c.nmatches + 1, matched := true }
      else { c with haskey := false, matched := false }
  Prog.when (c.haskey = false) (modDb d fun c => { c with matched := false })
  modDb d fun c => if c.entry = c.start then { c with nloops := c.nloops + 1 } else c
  let c ← getDb d
  pure (if c.matched then 1 else 0, c.entry)

/-- The error exit of `ed_bpt_next` and `ed_bpt_prev`. -/
def stepFailed (d : EdDb) (e : EdErr) (s : St E) : St E :=
  (s.modDb d fun c => { c with matched := false }).modTxn fun t => { t with error := some e }

/-- Step the entry pointer one slot to the right inside the leaf. -/
def entryNext (d : EdDb) : M E Unit := do
  modDb d fun c => { c with
    entry := c.entry.map fun p => { p with slot := p.slot + 1 }
    entryIndex := (c.entryIndex + 1) % 2 ^ 32
    kmin := c.kmax }
  let c ← getDb d
  let e ← readEnt g c.entry
  modDb d fun c => { c with kmax := fetch64 e }

/-- Step the entry pointer one slot to the left inside the leaf. -/
def entryPrev (d : EdDb) : M E Unit := do
  modDb d fun c => { c with
    entry := c.entry.map fun p => { p with slot := p.slot - 1 }
    entryIndex := sub32 c.entryIndex 1
    kmax := c.kmin }
  let c ← getDb d
  let e ← readEnt g c.entry
  modDb d fun c => { c with kmin := fetch64 e, hasentry := true }

/-- `ed_bpt_next`. -/
def edBptNext (d : EdDb) : M E (Nat × Option EntPtr) := do
  let c ← getDb d
  if c.hasfind = false then Prog.throw .eindexKeyMatch else
  match c.find with
  | none => pure (0, none)
  | some n => do
    let b ← getTree n
    let i := if c.hasentry then (c.entryIndex + 1) % 2 ^ 32 else c.entryIndex
    Prog.when (b.nkeys ≤ i) (Prog.onErr (moveRight env g d n) (stepFailed d))
    Prog.when (i < b.nkeys ∧ c.hasentry = true) (entryNext g d)
    Prog.when (i < b.nkeys ∧ c.hasentry = false) (modDb d fun c => { c with hasentry := true })
    yieldEntry g d

/-- `ed_bpt_prev`. -/
def edBptPrev (d : EdDb) : M E (Nat × Option EntPtr) := do
  let c ← getDb d
  if c.hasfind = false then Prog.throw .eindexKeyMatch else
  match c.find with
  | none => pure (0, none)
  | some n => do
    Prog.when (c.entryIndex = 0) (Prog.onErr (moveLeft env g d n) (stepFailed d))
    Prog.when (c.entryIndex ≠ 0) (entryPrev g d)
    yieldEntry g d

/-- `ed_bpt_loop`. -/
def edBptLoop (t : EdTxn) (d : EdDb) : Nat := (t.db d).nloops

end Eddy
