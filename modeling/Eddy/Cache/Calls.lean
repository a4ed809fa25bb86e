import Eddy.Cache.Object
import Eddy.Index.Modify

/-!
# Eddy — the calls of the cache

The functions of `cache.c` that open, create, write, close and discard objects, over the index of one
process, the slab, and the record locks that the process holds on the slab. An index call works on
`Cst.idx` only (`onIdx`). Whether another process holds a conflicting lock, whether a mapping or an
allocation fails, and what time it is, the environment answers.
-/

namespace Eddy

open Outcome Ranges Function

inductive EdLckType where
  | sh
  | ex
  deriving DecidableEq, Repr

/-- What a call of the cache works on. -/
structure Cst where
  idx : St CacheEnt
  slab : Nat → EdObjectHdr
  held : Held EdLckType
  tick : Nat

/-- The answers of the environment, by the number of the request. `body` is what a block inside an
object shows as a header. -/
structure CacheEnv where
  idx : Env CacheEnt
  geom : Geom
  busy : Nat → Bool
  fails : Nat → Bool
  now : Nat → Nat
  body : Nat → Nat → EdObjectHdr
  fuel : Nat

/-- A call of the cache. -/
abbrev CM := Prog CacheErr EdFault Cst

/-- A call of the index. -/
def onIdx {α : Type} (m : M CacheEnt α) : CM α := fun s =>
  match m s.idx with
  | .ok a t => .ok a { s with idx := t }
  | .err e t => .err (.idx e) { s with idx := t }
  | .halt f t => .halt f { s with idx := t }
  | .stuck => .stuck

theorem wp_onIdx {α : Type} {m : M CacheEnt α} {Q : α → Cst → Prop} {X : Exits CacheErr EdFault Cst}
    {s : Cst} :
    wp (onIdx m) Q X s = wp m (fun a t => Q a { s with idx := t })
      ⟨fun e t => X.err (.idx e) { s with idx := t }, fun f t => X.halt f { s with idx := t },
        X.stuck⟩ s.idx := by
  unfold wp onIdx
  cases m s.idx <;> rfl

variable (env : CacheEnv) (c : CacheCfg)

/-- One more request to the environment. -/
def ask {α : Type} (f : Nat → α) : CM α := fun s => .ok (f s.tick) { s with tick := s.tick + 1 }

/-- `ed_flck` for a lock, without waiting: whether it was granted. -/
def edFlck (m : EdLckType) (r : Range) : CM Bool := do
  let busy ← ask env.busy
  Prog.when (busy = false) (Prog.modify fun s => { s with held := s.held.lock r m })
  pure (!busy)

/-- `ed_flck` with `ED_LCK_UN`. -/
def edFlckUn (r : Range) : CM Unit := Prog.modify fun s => { s with held := s.held.unlock r }

/-- A mapping or an allocation that may fail. -/
def require : CM Unit := do
  let failed ← ask env.fails
  Prog.when (failed = true) (Prog.throw .sys)

/-- Read the entry of the keys tree that a cursor points to. -/
def readKey (p : Option EntPtr) : CM EdEntryKey := do
  let e ← onIdx (readEnt env.geom p)
  match e with
  | .key k => pure k
  | .block _ => Prog.stuck

/-- Read the entry of the blocks tree that a cursor points to. -/
def readBlock (p : Option EntPtr) : CM EdEntryBlock := do
  let e ← onIdx (readEnt env.geom p)
  match e with
  | .key _ => Prog.stuck
  | .block b => pure b

/-- `ed_txn_close`, which returns no error code. -/
def txnClose : CM Unit := do
  let _ ← Prog.attempt (onIdx (edTxnClose env.idx true))
  pure ()

/-- A predicate that looks neither at the index nor at the number of the request. -/
structure Aside (I : Cst → Prop) : Prop where
  idx : ∀ s t, I s → I { s with idx := t }
  tick : ∀ s n, I s → I { s with tick := n }

section Aside

variable {α : Type} {I : Cst → Prop} (hI : Aside I)

include hI

theorem onIdx_aside (m : M CacheEnt α) : Preserves I (onIdx m) := by
  intro s hs
  rw [wp_onIdx]
  exact wp_mono (wp_run m s.idx) (fun _ t _ => hI.idx s t hs) (fun _ t _ => hI.idx s t hs)
    (fun _ t _ => hI.idx s t hs) fun _ => trivial

theorem ask_aside (f : Nat → α) : Preserves I (ask f) := fun s hs => hI.tick s _ hs

theorem require_aside : Preserves I (require env) :=
  (ask_aside hI _).bind fun _ => .when (.throw _)

theorem readKey_aside (p : Option EntPtr) : Preserves I (readKey env p) :=
  (onIdx_aside hI _).bind fun e => by
    cases e with
    | key k => exact .pure _
    | block b => exact .stuck

theorem readBlock_aside (p : Option EntPtr) : Preserves I (readBlock env p) :=
  (onIdx_aside hI _).bind fun e => by
    cases e with
    | key k => exact .stuck
    | block b => exact .pure _

end Aside

/-! ## Opening an object -/

/-- The range that `open_key` and `open_id` lock; the length is a product of 32-bit numbers. -/
def lockRange (no count : Nat) : Range := ⟨no * c.blockSize, count * c.blockSize % 2 ^ 32⟩

/-- The part of `open_key` for one entry: the object, if the entry is the one. -/
def openEntry (k : List UInt8) (now : Nat) (key : EdEntryKey) : CM (Option EdObject) := do
  if edExpiredAt c.epoch key.exp now then pure none else
  let no := key.vno % c.blockCount
  let granted ← edFlck env .sh (lockRange c no key.count)
  if granted = false then pure none else
  let rc ← Prog.attempt (require env)
  match rc with
  | .error e => do
    edFlckUn (lockRange c no key.count)
    Prog.throw e
  | .ok _ => do
    let hdr ← Prog.gets fun s => s.slab no
    if hdr.key = k then pure (some (objInit c hdr no key.vno true key.exp []))
    else do
      edFlckUn (lockRange c no key.count)
      pure none

/-- The loop of `open_key`. An error of the index ends it like a miss. -/
def openKeyLoop (k : List UInt8) (now : Nat) :
    Nat → Except CacheErr (Nat × Option EntPtr) → CM (Option EdObject)
  | 0, _ => Prog.stuck
  | _ + 1, .error _ => pure none
  | fuel + 1, .ok rc => do
    let nloops ← Prog.gets fun s => (s.idx.txn.db .keys).nloops
    if rc.1 = 1 ∧ nloops = 0 then do
      let key ← readKey env rc.2
      let obj ← openEntry env c k now key
      match obj with
      | some o => pure (some o)
      | none => do
        let rc ← Prog.attempt (onIdx (edBptNext env.idx env.geom .keys))
        openKeyLoop k now fuel rc
    else pure none

/-- `open_key`. -/
def openKey (k : List UInt8) : CM (Option EdObject) := do
  let now ← ask env.now
  let rc ← Prog.attempt (onIdx (edBptFind env.idx env.geom .keys (c.hash k).toNat))
  openKeyLoop env c k now env.fuel rc

/-- `open_id`; `id` is the result of `obj_id`. -/
def openId (id : Option (Nat × Nat)) : CM (Option EdObject) := do
  match id with
  | none => Prog.throw .eobjectId
  | some (xid, vno) => do
    let s ← Prog.get
    if xid > s.idx.conn.xid ∨ vno > s.idx.hdr.vno then pure none else
    let rc ← onIdx (edBptFind env.idx env.geom .blocks (vno % c.blockCount))
    if rc.1 ≠ 1 then pure none else
    let entry ← readBlock env rc.2
    if entry.xid ≠ xid then pure none else
    let granted ← edFlck env .sh (lockRange c entry.no.toNat entry.count)
    if granted = false then pure none else
    let rc ← Prog.attempt (require env)
    match rc with
    | .error e => do
      edFlckUn (lockRange c entry.no.toNat entry.count)
      Prog.throw e
    | .ok _ => do
      let hdr ← Prog.gets fun s => s.slab entry.no.toNat
      pure (some (objInit c hdr entry.no.toNat vno true hdr.exp []))

/-- What `ed_open` looks for. -/
inductive Query where
  | key (k : List UInt8)
  | id (id : Option (Nat × Nat))

/-- The lookup of `ed_open` inside its transaction. -/
def openLookup (q : Query) : CM (Option EdObject) := do
  onIdx (edTxnOpen env.idx true)
  match q with
  | .key k => openKey env c k
  | .id id => openId env c id

/-- `ed_open`. When the checksums are wrong the object is dropped, and its lock stays. -/
def edOpen (q : Query) : CM (Option EdObject) := do
  require env
  let rc ← Prog.attempt (openLookup env c q)
  txnClose env
  match rc with
  | .error e => Prog.throw e
  | .ok none => pure none
  | .ok (some o) => do
    let hdr ← Prog.gets fun s => s.slab o.no
    match objVerify c hdr with
    | some e => Prog.throw e
    | none => pure (some o)

/-! ## Creating an object -/

/-- Where the search of `obj_reserve` stands: the virtual and the physical number of the region, the
byte it starts at, whether the blocks tree was searched there, and the entry of the cursor. -/
structure Spot where
  vno : Nat
  no : Nat
  start : Nat
  searched : Bool
  block : Option EntPtr

/-- A region that sticks out of the slab is moved to its beginning. -/
def Spot.wrap (p : Spot) (len : Nat) : Spot :=
  if p.start + len > c.blockCount * c.blockSize then
    { p with
      vno := p.vno + (c.blockCount - p.no)
      no := (p.vno + (c.blockCount - p.no)) % c.blockCount
      start := 0
      searched := false }
  else p

/-- The lookup at a new position of the search. -/
def seek (p : Spot) : M CacheEnt Spot :=
  if p.searched then pure p
  else do
    let rc ← edBptFind env.idx env.geom .blocks p.no
    pure { p with searched := true, block := rc.2 }

/-- The search for a region that no other process has locked. When the lock is refused the search goes
on at the next entry. The source adds the length of this entry to `vno`, and takes its number for
`no`. -/
def reserveSearch (len : Nat) : Nat → Spot → CM Spot
  | 0, _ => Prog.stuck
  | fuel + 1, p => do
    let p ← onIdx (seek env (p.wrap c len))
    let granted ← edFlck env .ex ⟨p.start, len⟩
    if granted then pure p
    else do
      let rc ← onIdx (edBptNext env.idx env.geom .blocks)
      let b ← readBlock env rc.2
      reserveSearch len fuel
        { p with
          vno := p.vno + b.count
          no := b.no.toNat
          start := b.no.toNat * c.blockSize
          block := rc.2 }

/-- The loop of `obj_reserve` over the keys with the hash of an overwritten object: the entry that
points to its block is removed. -/
def dropKeyLoop (no : Nat) : Nat → Nat × Option EntPtr → CM Unit
  | 0, _ => Prog.stuck
  | fuel + 1, rc => do
    let nloops ← Prog.gets fun s => (s.idx.txn.db .keys).nloops
    if rc.1 = 1 ∧ nloops = 0 then do
      let key ← readKey env rc.2
      if key.vno % c.blockCount = no then do
        let _ ← onIdx (edBptDel env.idx env.geom .keys)
        let _ ← onIdx (edBptNext env.idx env.geom .keys)
        pure ()
      else do
        let rc ← onIdx (edBptNext env.idx env.geom .keys)
        dropKeyLoop no fuel rc
    else pure ()

/-- `obj_overlap`. -/
def objOverlap (b : EdEntryBlock) (start stop : Nat) : Bool :=
  decide (b.no.toNat < stop ∧ start < b.no.toNat + b.count)

/-- The loop of `obj_reserve` over the overwritten objects. -/
def evictLoop (no stop : Nat) : Nat → Option EntPtr → CM Unit
  | 0, _ => Prog.stuck
  | fuel + 1, ptr =>
    if ptr = none then pure ()
    else do
      let b ← readBlock env ptr
      if objOverlap b no stop then do
        require env
        let old ← Prog.gets fun s => s.slab b.no.toNat
        let rc ← onIdx (edBptFind env.idx env.geom .keys old.keyhash.toNat)
        dropKeyLoop env c b.no.toNat env.fuel rc
        let _ ← onIdx (edBptDel env.idx env.geom .blocks)
        let rc ← onIdx (edBptNext env.idx env.geom .blocks)
        evictLoop no stop fuel rc.2
      else pure ()

/-- The first entry to look at: that of the search, or the next one when the search had none. -/
def firstBlock (p : Spot) : CM (Option EntPtr) :=
  if p.block = none then do
    let rc ← onIdx (edBptNext env.idx env.geom .blocks)
    pure rc.2
  else pure p.block

/-- The part of `obj_reserve` behind the search. -/
def evict (p : Spot) (len : Nat) : CM Unit := do
  let block ← firstBlock env p
  evictLoop env c p.no (p.no + len / c.blockSize) env.fuel block

/-- Where the search starts. -/
def firstSpot (vno : Nat) : Spot :=
  ⟨vno, vno % c.blockCount, vno % c.blockCount * c.blockSize, false, none⟩

/-- `obj_reserve`: the virtual number of the region. -/
def objReserve (vno len : Nat) : CM Nat := do
  let p ← reserveSearch env c len env.fuel (firstSpot c vno)
  Prog.onErr (evict env c p len) fun _ s => { s with held := s.held.unlock ⟨p.start, len⟩ }
  pure p.vno

/-- The attributes of a new object. -/
structure EdObjectAttr where
  key : List UInt8
  metadata : List UInt8
  datalen : Nat

/-- The bytes that `ed_create` reserves. -/
def EdObjectAttr.size (a : EdObjectAttr) : Nat :=
  objSlabSize c.build a.key.length a.metadata.length a.datalen c.blockSize c.pagealign

/-- The header that `ed_create` writes over what the mapping showed before. -/
def newHdr (a : EdObjectAttr) (now : Nat) (old : EdObjectHdr) : EdObjectHdr where
  xid := 0
  created := now
  exp := 0
  keyhash := c.hash a.key
  metacrc := if c.checksum ∧ a.metadata ≠ [] then c.crc a.metadata else 0
  datacrc := 0
  key := a.key
  metadata := a.metadata
  data := (old.data ++ List.replicate a.datalen 0).take a.datalen

theorem newHdr_size (a : EdObjectAttr) (now : Nat) (old : EdObjectHdr) :
    (newHdr c a now old).size c = a.size c := by
  unfold EdObjectHdr.size EdObjectAttr.size newHdr
  simp

/-- A new object overwrites the blocks of its region. -/
def writeSlab (slab : Nat → EdObjectHdr) (no n : Nat) (h : EdObjectHdr) (body : Nat → EdObjectHdr) :
    Nat → EdObjectHdr := fun b =>
  if b = no then h else if no < b ∧ b < no + n then body b else slab b

/-- The part of `ed_create` up to the region. -/
def reserveRegion (a : EdObjectAttr) : CM Nat := do
  onIdx (edTxnOpen env.idx false)
  let vno ← Prog.gets fun s => s.idx.txn.vno
  objReserve env c vno (a.size c)

/-- The part of `ed_create` that may fail. -/
def createObject (a : EdObjectAttr) (now : Nat) : CM EdObject := do
  let vno ← reserveRegion env c a
  require env
  let nblcks := a.size c / c.blockSize
  Prog.modify fun s => { s with idx := s.idx.modTxn fun t => { t with vno := vno + nblcks } }
  onIdx (edTxnCommit env.idx true)
  let no := vno % c.blockCount
  let body ← ask env.body
  Prog.modify fun s =>
    { s with slab := writeSlab s.slab no nblcks (newHdr c a now (s.slab no)) body }
  let hdr ← Prog.gets fun s => s.slab no
  pure (objInit c hdr no vno false edTimeInf a.key)

/-- `ed_create`. Its variable `locked` is never set, so a failure behind `obj_reserve` leaves the
region locked. -/
def edCreate (a : EdObjectAttr) : CM EdObject := do
  require env
  let now ← ask env.now
  let rc ← Prog.attempt (createObject env c a now)
  match rc with
  | .ok o => pure o
  | .error e => do
    let t ← Prog.gets fun s => s.idx.txn
    Prog.when (t.state = .open) (txnClose env)
    Prog.throw e

/-! ## Writing and closing -/

/-- `ed_write`. -/
def edWrite (o : EdObject) (buf : List UInt8) : CM EdObject := do
  if o.rdonly then Prog.throw .eobjectRdonly else
  if o.dataseek + buf.length > o.datalen then Prog.throw .eobjectTooBig else
  let seek := o.dataseek + buf.length
  Prog.modify fun s =>
    let h := s.slab o.no
    let data := h.data.take o.dataseek ++ buf ++ h.data.drop seek
    -- the last write completes the checksum
    let datacrc := if seek = o.datalen ∧ c.checksum = true then c.crc data else h.datacrc
    { s with slab := update s.slab o.no { h with data := data, datacrc := datacrc } }
  pure { o with dataseek := seek }

/-- The loop of `obj_upsert` over the keys with the same hash: whether one of them is the same key. -/
def upsertLoop (k : List UInt8) : Nat → Nat × Option EntPtr → CM Bool
  | 0, _ => Prog.stuck
  | fuel + 1, rc => do
    let nloops ← Prog.gets fun s => (s.idx.txn.db .keys).nloops
    if rc.1 = 1 ∧ nloops = 0 then do
      let key ← readKey env rc.2
      require env
      let old ← Prog.gets fun s => s.slab (key.vno % c.blockCount)
      if old.key = k then do
        let gone := { old with exp := edTimeDelete }
        Prog.when (c.keepold = false) (Prog.modify fun s =>
          { s with slab := update s.slab (key.vno % c.blockCount) gone })
        pure true
      else do
        let rc ← onIdx (edBptNext env.idx env.geom .keys)
        upsertLoop k fuel rc
    else pure false

/-- `obj_upsert`. When the new entry of the blocks tree is refused it returns 1, which is no error
code; then the keys tree is left alone. -/
def objUpsert (k : List UInt8) (h : UInt64) (vno nblcks exp : Nat) : CM Unit := do
  let xid ← Prog.gets fun s => s.idx.txn.xid
  let block : EdEntryBlock := ⟨UInt64.ofNat (vno % c.blockCount), nblcks % 2 ^ 32, xid⟩
  let _ ← onIdx (edBptFind env.idx env.geom .blocks (vno % c.blockCount))
  let rc ← Prog.attempt (onIdx (edBptSet env.idx env.geom .blocks (.block block) true))
  match rc with
  | .error _ => pure ()
  | .ok _ => do
    let rc ← onIdx (edBptFind env.idx env.geom .keys h.toNat)
    let replace ← upsertLoop env c k env.fuel rc
    onIdx (edBptSet env.idx env.geom .keys (.key ⟨h, vno, nblcks % 2 ^ 32, exp⟩) replace)

/-- The part of `ed_close` for a complete object, up to the unlock of its region. -/
def closeObject (o : EdObject) (h : UInt64) : CM Unit := do
  onIdx (edTxnOpen env.idx false)
  objUpsert env c o.newkey h o.vno o.nblcks o.exp
  Prog.modify fun s =>
    { s with
      slab := update s.slab o.no
        { s.slab o.no with exp := o.exp, xid := s.idx.txn.xid }
      held := s.held.unlock o.range }

/-- The end of `ed_close` after an error: the transaction is closed if it is still open. -/
def closeTxn : CM Unit := do
  let t ← Prog.gets fun s => s.idx.txn
  Prog.when (t.state = .open) (txnClose env)

/-- `ed_close`. -/
def edClose (o : EdObject) : CM Unit := do
  let h ← Prog.gets fun s => (s.slab o.no).keyhash
  if o.rdonly then edFlckUn o.range else
  if o.datalen ≠ o.dataseek then do
    edFlckUn o.range
    closeTxn env
    Prog.throw .eobjectTooSmall
  else do
    let rc ← Prog.attempt (closeObject env c o h)
    match rc with
    | .error e => do
      edFlckUn o.range
      closeTxn env
      Prog.throw e
    | .ok _ => do
      let rc ← Prog.attempt (onIdx (edTxnCommit env.idx true))
      match rc with
      | .ok _ => pure ()
      | .error e => do
        closeTxn env
        Prog.throw e

/-- `ed_discard`. -/
def edDiscard (o : EdObject) : CM Unit := edFlckUn o.range

end Eddy
