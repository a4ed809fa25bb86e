import Eddy.Index.Bpt

/-!
# Eddy — changes to the B+tree (`bpt.c`)

`set_node`, `set_leaf`, `insert_into_parent`, `split_point`, `split_leaf`, `insert_into_leaf`,
`ed_bpt_set` and `ed_bpt_del`. A page that an earlier transaction wrote is cloned before it is
changed; the clone then has to be put into its parent, which may have to be cloned in turn.
-/

namespace Eddy

open Outcome Slots

variable {E : Type} [EdEntry E] (env : Env E) (g : Geom)

/-! ## Putting a changed node into its ancestors -/

/-- The parent `p` of the node `n`, cloned when an earlier transaction wrote it. -/
def ownParent (n p : Nat) : M E Nat := do
  let s ← Prog.get
  if (s.tree p).xid < s.txn.xid then do
    let copy ← edTxnClone env p
    let src ← getTree p
    moveBranch g copy 0 p 0 (src.nkeys + 1)
    modNode n fun x => { x with parent := some copy }
    pure copy
  else pure p

/-- Store the page number of a node of this transaction in its parent. -/
def linkNode (n parent : Nat) : M E Unit := do
  let s ← Prog.get
  Prog.when ((s.tree n).xid = s.txn.xid)
    (branchSetPtr g parent (s.node n).pindex (s.node n).page)

/-- `set_node`. -/
def setNode (d : EdDb) : Nat → Nat → M E Unit
  | 0, _ => Prog.stuck
  | fuel + 1, n => do
    let x ← getNode n
    match x.parent with
    | none => modDb d fun c => { c with root := some n }
    | some p => do
      let parent ← ownParent env g n p
      linkNode g n parent
      setNode d fuel parent

/-- `set_node` from the outside: a walk over more nodes than there are never ends. -/
def setNodeTop (d : EdDb) (n : Nat) : M E Unit := do
  let fuel ← Prog.gets fun s => s.txn.nused
  setNode env g d (fuel + 1) n

/-- Rewrite the separator of a leaf after its first entry changed. -/
def setLeafKey (leaf : Nat) : M E Unit := do
  let s ← Prog.get
  match (s.node leaf).parent with
  | none => Prog.stuck
  | some p => branchSetKey g p (s.node leaf).pindex (fetch64 ((s.tree leaf).ent 0))

/-- `set_leaf`. The result of `set_node` only decides about the separator. -/
def setLeaf (d : EdDb) (leaf eidx : Nat) : M E Unit := do
  let rc ← Prog.attempt (setNodeTop env g d leaf)
  let x ← getNode leaf
  Prog.when (rc.isOk ∧ eidx = 0 ∧ 0 < x.pindex) (setLeafKey g leaf)

/-! ## Splitting branches -/

/-- A new root above two nodes. -/
def newRootBranch : M E Nat := do
  let branch ← edTxnAlloc env none 0
  modTree branch fun b => { b with type := .branch, nkeys := 1 }
  pure branch

/-- Open the slot `eidx + 1` of a branch: the entries behind it move one slot to the right. The
entries come from `src`, which is the branch itself or the page it was cloned from. -/
def openBranchSlot (branch src eidx : Nat) : M E Unit := do
  let b ← getTree src
  if b.nkeys < eidx then Prog.stuck else do
    moveBranch g branch (eidx + 2) src (eidx + 1) (b.nkeys - eidx)
    modTree branch fun c => { c with nkeys := c.nkeys + 1 }

/-- The branch with a free slot for a new child behind `eidx`, cloned when it is old. -/
def expandBranch (src eidx : Nat) : M E Nat := do
  let s ← Prog.get
  if (s.tree src).xid < s.txn.xid then do
    let branch ← edTxnClone env src
    moveBranch g branch 0 src 0 (eidx + 1)
    openBranchSlot g branch src eidx
    pure branch
  else do
    openBranchSlot g src src eidx
    pure src

/-- The left half of a branch that is split at `mid`, cloned when it is old. -/
def splitLeft (branch mid : Nat) : M E Nat := do
  let s ← Prog.get
  if (s.tree branch).xid < s.txn.xid then do
    let left ← edTxnClone env branch
    moveBranch g left 0 branch 0 mid
    pure left
  else pure branch

/-- Split a full branch at `mid` into a left and a right one. -/
def splitBranch (branch mid : Nat) : M E (Nat × Nat) := do
  let x ← getNode branch
  let right ← edTxnAlloc env x.parent (x.pindex + 1)
  let left ← splitLeft env g branch mid
  let b ← getTree branch
  modTree right fun c => { c with type := .branch, nkeys := b.nkeys - mid }
  modTree left fun c => { c with nkeys := mid - 1 }
  moveBranch g right 0 branch mid (g.branchOrder - mid)
  pure (left, right)

/-- Make room for the children `l`, `r` in the half they belong to; returns that half. -/
def splitRoom (l r left right mid rkey rbkey : Nat) : M E Nat := do
  let x ← getNode l
  if rkey < rbkey then do
    openBranchSlot g left left x.pindex
    pure left
  else if x.pindex < mid then Prog.stuck
  else do
    modNode l fun x => { x with pindex := x.pindex - mid }
    modNode r fun y => { y with pindex := x.pindex - mid + 1 }
    openBranchSlot g right right (x.pindex - mid)
    pure right

/-- Store the separator of the right node and put the node into its ancestors. -/
def linkRight (d : EdDb) (r rkey : Nat) : M E Unit := do
  let y ← getNode r
  match y.parent with
  | none => Prog.stuck
  | some p => do
    branchSetKey g p y.pindex rkey
    let _ ← Prog.attempt (setNodeTop env g d r)
    pure ()

/-- The end of `insert_into_parent`: hang both nodes into the branch. -/
def linkSplit (d : EdDb) (branch l r rkey : Nat) : M E Unit := do
  modNode l fun x => { x with parent := some branch }
  modNode r fun x => { x with parent := some branch }
  let _ ← Prog.attempt (setNodeTop env g d l)
  linkRight env g d r rkey

/-- `insert_into_parent`. -/
def insertIntoParent (d : EdDb) : Nat → Nat → Nat → Nat → M E Unit
  | 0, _, _, _ => Prog.stuck
  | fuel + 1, l, r, rkey => do
    let s ← Prog.get
    match (s.node l).parent with
    | none => do
      let branch ← newRootBranch env
      linkSplit env g d branch l r rkey
    | some branch =>
      if (s.tree branch).nkeys = g.branchOrder - 1 then do
        let mid := ((s.tree branch).nkeys + 1) / 2
        let rbkey := branchKey (s.tree branch) mid
        let lr ← splitBranch env g branch mid
        let half ← splitRoom g l r lr.1 lr.2 mid rkey rbkey
        insertIntoParent d fuel lr.1 lr.2 rbkey
        linkSplit env g d half l r rkey
      else do
        let branch ← expandBranch env g branch (s.node l).pindex
        linkSplit env g d branch l r rkey

/-! ## Splitting leaves -/

/-- The start of the run of `key` that ends in front of slot `m`. -/
def backRun (ent : Nat → E) (key : Nat) : Nat → Nat
  | 0 => 0
  | m + 1 => if fetch64 (ent m) = key then backRun ent key m else m + 1

/-- The end of the run of `key` from slot `i` on, over at most `r` slots. -/
def foreRun (ent : Nat → E) (key : Nat) : Nat → Nat → Nat
  | 0, i => i
  | r + 1, i => if fetch64 (ent i) = key then foreRun ent key r (i + 1) else i

/-- The start of the run at the mid point as `split_point` sees it, the end of its search so far,
and the key of the run. `entry_index` is unsigned, so is the difference. -/
def splitRange (c : EdTxnDb) (b : EdBpt E) (mid : Nat) : Nat × Nat × Nat :=
  let back := (sub32 c.entryIndex c.nmatches + 1) % 2 ^ 32
  if 0 < c.nmatches ∧ mid ≤ c.entryIndex ∧ back ≤ mid then
    (back % 2 ^ 16, (c.entryIndex + 1) % 2 ^ 16, c.key)
  else if fetch64 (b.ent mid) = c.key then
    (back % 2 ^ 16, mid + 1, fetch64 (b.ent mid))
  else (backRun b.ent (fetch64 (b.ent mid)) mid, mid + 1, fetch64 (b.ent mid))

/-- `split_point`: where to split a leaf, never inside a run of equal keys; `none` when the whole
leaf is one run. -/
def splitPoint (c : EdTxnDb) (b : EdBpt E) : Option Nat :=
  let n := b.nkeys
  let mid := n / 2
  let r := splitRange c b mid
  if r.1 = mid then some mid
  else
    let max := foreRun b.ent r.2.2 (n - r.2.1) r.2.1
    if r.1 = 0 ∧ max = n then none
    -- the comparison is made on signed integers, so a difference below zero is fine
    else if n ≤ r.1 + max then some r.1 else some max

/-- The left half of a leaf that is split, cloned when it is old. -/
def splitLeafLeft (leaf : Nat) : M E Nat := do
  let s ← Prog.get
  if (s.tree leaf).xid < s.txn.xid then edTxnClone env leaf else pure leaf

/-- Move the entries so that the new one fits into the left half at `eidx`. -/
def splitIntoLeft (d : EdDb) (leaf left right mid eidx : Nat) : M E Unit := do
  modDb d fun c => { c with find := some left }
  moveLeaf g right 0 leaf mid (g.leafOrder - mid)
  Prog.when (left ≠ leaf) (moveLeaf g left 0 leaf 0 eidx)
  moveLeaf g left (eidx + 1) leaf eidx (mid - eidx)
  let s ← Prog.get
  modDb d fun c => { c with entry := some ⟨(s.node left).page, eidx⟩ }

/-- Move the entries so that the new one fits into the right half, `eidx` slots behind `mid`. -/
def splitIntoRight (d : EdDb) (leaf left right mid eidx : Nat) : M E Unit := do
  Prog.when (left ≠ leaf) (moveLeaf g left 0 leaf 0 mid)
  moveLeaf g right 0 leaf mid eidx
  let b ← getTree right
  if b.nkeys < eidx then Prog.stuck else do
    moveLeaf g right (eidx + 1) leaf (mid + eidx) (b.nkeys - eidx)
    let s ← Prog.get
    modDb d fun c => { c with
      entryIndex := eidx
      find := some right
      entry := some ⟨(s.node right).page, eidx⟩ }

/-- The part of `split_leaf` before the halves go into the parent. -/
def splitLeafPages (d : EdDb) (leaf mid eidx : Nat) : M E (Nat × Nat) := do
  let x ← getNode leaf
  let right ← edTxnAlloc env x.parent (x.pindex + 1)
  let left ← splitLeafLeft env leaf
  let b ← getTree leaf
  modTree right fun c => { c with type := .leaf, nkeys := b.nkeys - mid }
  modTree left fun c => { c with nkeys := mid }
  Prog.when (eidx < mid) (splitIntoLeft g d leaf left right mid eidx)
  Prog.when (mid ≤ eidx) (splitIntoRight g d leaf left right mid (eidx - mid))
  pure (left, right)

/-- `split_leaf`. -/
def splitLeaf (d : EdDb) (leaf mid : Nat) : M E Unit := do
  let s ← Prog.get
  let c := s.txn.db d
  let b := s.tree leaf
  if b.nkeys < mid ∨ (mid ≠ c.entryIndex ∧ g.leafOrder ≤ mid) then Prog.stuck else do
    let rkey := if mid = c.entryIndex then c.key else fetch64 (b.ent mid)
    let lr ← splitLeafPages env g d leaf mid c.entryIndex
    let fuel ← Prog.gets fun s => s.txn.nused
    insertIntoParent env g d (fuel + 1) lr.1 lr.2 rkey

/-! ## Insertion into a leaf -/

/-- The first leaf of a tree. -/
def freshLeaf (d : EdDb) : M E Nat := do
  let leaf ← edTxnAlloc env none 0
  modTree leaf fun b => { b with type := .leaf, nkeys := 1 }
  let x ← getNode leaf
  modDb d fun c => { c with entry := some ⟨x.page, 0⟩, entryIndex := 0, find := some leaf }
  pure leaf

/-- Split a full leaf and return the half that takes the new entry. -/
def splitFull (d : EdDb) (leaf : Nat) : M E Nat := do
  let s ← Prog.get
  match splitPoint (s.txn.db d) (s.tree leaf) with
  | none => Prog.throw .eindexDupkey
  | some mid => do
    splitLeaf env g d leaf mid
    let c ← getDb d
    match c.find with
    | none => Prog.stuck
    | some half => do
      modTree half fun b => { b with nkeys := b.nkeys + 1 }
      pure half

/-- Clone an old leaf for a change at `eidx`; a replacement keeps all entries. -/
def cloneLeaf (d : EdDb) (src eidx : Nat) (replace : Bool) : M E Nat := do
  let leaf ← edTxnClone env src
  let x ← getNode leaf
  modDb d fun c => { c with find := some leaf, entry := some ⟨x.page, eidx⟩ }
  moveLeaf g leaf 0 src 0 (if replace then g.leafOrder else eidx)
  pure leaf

/-- The leaf of this transaction to change: the leaf itself or its clone. -/
def ownLeaf (d : EdDb) (src eidx : Nat) (replace : Bool) : M E Nat := do
  let s ← Prog.get
  if (s.tree src).xid < s.txn.xid then cloneLeaf env g d src eidx replace else pure src

/-- Open the slot `eidx` of a leaf; the entries come from `src`. -/
def openLeafSlot (leaf src eidx : Nat) : M E Unit := do
  let b ← getTree src
  if b.nkeys < eidx then Prog.stuck else do
    moveLeaf g leaf (eidx + 1) src eidx (b.nkeys - eidx)
    modTree leaf fun c => { c with nkeys := c.nkeys + 1 }

/-- Make room in a leaf that is not full, or keep it as it is for a replacement. -/
def expandLeaf (d : EdDb) (src eidx : Nat) (replace : Bool) : M E Nat := do
  let leaf ← ownLeaf env g d src eidx replace
  Prog.when (replace = false) (openLeafSlot g leaf src eidx)
  pure leaf

/-- The leaf with the slot for the new entry. -/
def roomInLeaf (d : EdDb) (replace : Bool) : M E Nat := do
  let s ← Prog.get
  match (s.txn.db d).find with
  | none => freshLeaf env d
  | some leaf =>
    if replace = false ∧ (s.tree leaf).nkeys = g.leafOrder then splitFull env g d leaf
    else expandLeaf env g d leaf (s.txn.db d).entryIndex replace

/-- `insert_into_leaf`. -/
def insertIntoLeaf (d : EdDb) (e : E) (replace : Bool) : M E Unit := do
  let c ← getDb d
  let leaf ← roomInLeaf env g d replace
  let c' ← getDb d
  storeEnt g c'.entry e
  setLeaf env g d leaf c.entryIndex

/-- The cursor after an insertion. -/
def EdTxnDb.inserted (c : EdTxnDb) (k : Nat) : EdTxnDb :=
  { c with
    key := k
    kmax := k
    matched := true
    nmatches := 1
    nloops := 0
    haskey := true
    hasentry := true }

/-- Whether `ed_bpt_set` accepts a key at the position of the cursor. -/
def EdTxnDb.accepts (c : EdTxnDb) (k : Nat) : Prop := c.hasfind = true ∧ c.kmin ≤ k ∧ k ≤ c.kmax

instance (c : EdTxnDb) (k : Nat) : Decidable (c.accepts k) := by
  unfold EdTxnDb.accepts
  infer_instance

/-- `ed_bpt_set`. -/
def edBptSet (d : EdDb) (e : E) (replace : Bool) : M E Unit := do
  let t ← Prog.gets fun s => s.txn
  if edTxnIsrdonly t then Prog.throw .eindexRdonly else
  let c := t.db d
  if ¬ c.accepts (fetch64 e) then Prog.throw .eindexKeyMatch else do
    Prog.onErr (insertIntoLeaf env g d e (replace && c.matched))
      fun err s => s.modTxn fun t => { t with error := some err }
    modDb d fun c => c.inserted (fetch64 e)

/-! ## Deletion -/

/-- The leaf of this transaction to delete from: an old one is cloned and put into its parent. -/
def ownForDel (d : EdDb) (leaf eidx : Nat) : M E Nat := do
  let s ← Prog.get
  if (s.tree leaf).xid < s.txn.xid then do
    let copy ← edTxnClone env leaf
    moveLeaf g copy 0 leaf 0 g.leafOrder
    setNodeTop env g d copy
    let x ← getNode copy
    modDb d fun c => { c with entry := some ⟨x.page, eidx⟩, find := some copy }
    pure copy
  else pure leaf

/-- Move `n` entries one slot to the left, onto the entry that a pointer points to. -/
def shiftLeft (p : EntPtr) (n : Nat) : M E Unit :=
  Prog.when (n ≠ 0)
    (if 0 ≤ p.slot ∧ p.slot + 1 + n ≤ g.leafOrder then
      Prog.modify fun s => s.modPage p.page fun b =>
        { b with ent := blit b.ent p.slot.toNat b.ent (p.slot.toNat + 1) n }
    else Prog.stuck)

/-- Close the slot the cursor points to. The number of entries to move is unsigned: on an empty
leaf it wraps. -/
def closeLeafSlot (d : EdDb) (leaf eidx : Nat) : M E Unit := do
  let b ← getTree leaf
  let c ← getDb d
  match c.entry with
  | none => Prog.stuck
  | some p => shiftLeft g p (sub32 (sub32 b.nkeys eidx) 1)

/-- The largest key that may follow the cursor after a deletion. -/
def kmaxAfterDel (d : EdDb) (leaf : Nat) : M E Nat := do
  let s ← Prog.get
  let c := s.txn.db d
  if c.entryIndex = (s.tree leaf).nkeys then findKmax s (s.txn.nused + 1) leaf
  else do
    let e ← readEnt g c.entry
    pure (fetch64 e)

/-- The length of a leaf after a deletion, a `uint16_t`: it wraps when the leaf was empty. -/
def nkeysAfterDel (n : Nat) : Nat := if n = 1 then 0 else (n + (2 ^ 16 - 1)) % 2 ^ 16

/-- `ed_bpt_del`: the number of entries deleted. -/
def edBptDel (d : EdDb) : M E Nat := do
  let t ← Prog.gets fun s => s.txn
  if edTxnIsrdonly t then Prog.throw .eindexRdonly else
  let c := t.db d
  if c.hasfind = false then Prog.throw .eindexRdonly else
  if c.hasentry = false then pure 0 else
  match c.find with
  | none => Prog.stuck
  | some n => do
    let leaf ← ownForDel env g d n c.entryIndex
    closeLeafSlot g d leaf c.entryIndex
    modTree leaf fun b => { b with nkeys := nkeysAfterDel b.nkeys }
    let kmax ← kmaxAfterDel g d leaf
    modDb d fun c => { c with kmax := kmax, nmatches := 0, hasentry := false }
    pure 1

end Eddy
