import Eddy.Lib.Run
import Eddy.Index.Conn
import Eddy.Index.Geometry
import Eddy.Index.Modify

/-!
# Eddy — the processes that share an index

The index file and the lock tables of the operating system are shared by any number of processes.
Each process owns one connection slot and has transaction objects: the one of its cache handle
(number `0`), opened read-only or for writing and reused, and those of its lists, which are only
opened read-only.

A step of the system is one call of a process on one of its transaction objects, or one of the
other things that can happen to the shared state:

* `attach`, `detach`: a process opens and closes the index (`conn_acquire`, `conn_release`);
* `call`: `ed_txn_new`, `ed_txn_open`, a call on a tree of an open transaction, `ed_txn_commit` or
  `ed_txn_close`, run on what the process sees of the system (`Sys.view`). A fault point may kill
  the process in the middle of the call;
* `kill`: a process dies between two calls. Its locks go away, the shared bytes stay;
* `xmin`: the scan of the slots that `ed_alloc` starts with, by the process that holds the write
  lock;
* `statAcquire`, `statRelease`: the snapshot of `ed_stat_new`. It takes the write lock for the copy of
  the roots and gives it back before the trees are read; a process that has the lock cannot call it,
  because of the lock between its threads.

Undefined behaviour in a call has no next state.
-/

namespace Eddy

open Outcome Function

/-- A transaction object. `acq` records the xid that its last `ed_txn_open` stored in the
connection slot. -/
structure TxnObj where
  txn : EdTxn
  acq : Nat

/-- A live process: its slot, the number of slots it scans and its transaction objects. -/
structure Proc where
  slot : Nat
  scan : Nat
  objs : Nat → Option TxnObj

/-- The shared state. `slotLck i` is the process that holds the lock on the bytes of slot `i`,
`writer` the one that holds the write lock. `lost` is the record of `St`. -/
structure Sys (E : Type) where
  pages : Nat → EdBpt E
  hdr : EdPgIdx
  nconns : Nat
  slots : Nat → ConnSlot
  slotLck : Nat → Option Nat
  writer : Option Nat
  procs : Nat → Option Proc
  lost : List Nat
  tick : Nat

/-- The calls on a transaction object. -/
inductive Call (E : Type) where
  | new
  | open (rdonly : Bool)
  | find (d : EdDb) (k : Nat)
  | first (d : EdDb)
  | last (d : EdDb)
  | next (d : EdDb)
  | prev (d : EdDb)
  | set (d : EdDb) (e : E) (replace : Bool)
  | del (d : EdDb)
  | commit (reset : Bool)
  | close (reset : Bool)

/-- What can happen. A call brings its environment and the time it stores in the slot, if any. -/
inductive Event (E : Type) where
  | attach (p scan : Nat)
  | detach (p : Nat)
  | call (p tid : Nat) (env : Env E) (c : Call E) (stamp : Option Nat)
  | kill (p : Nat)
  | xmin (p now : Nat)
  | statAcquire (p : Nat)
  | statRelease (p : Nat)

variable {E : Type}

/-! ## Calls -/

/-- The calls on a tree, which are made on open transactions only. -/
def Call.onTree : Call E → Bool
  | .new | .open _ | .commit _ | .close _ => false
  | _ => true

/-- The program of a call. -/
def Call.run [EdEntry E] (env : Env E) (g : Geom) : Call E → M E Unit
  | .new => edTxnNew env
  | .open rdonly => edTxnOpen env rdonly
  | .find d k => do let _ ← edBptFind env g d k; pure ()
  | .first d => do let _ ← edBptFirst env d; pure ()
  | .last d => do let _ ← edBptLast env g d; pure ()
  | .next d => do let _ ← edBptNext env g d; pure ()
  | .prev d => do let _ ← edBptPrev env g d; pure ()
  | .set d e replace => edBptSet env g d e replace
  | .del d => do let _ ← edBptDel env g d; pure ()
  | .commit reset => edTxnCommit env reset
  | .close reset => edTxnClose env reset

/-- The object a call works on, when the call can be made: a new object, or an existing one. List
transactions are opened read-only, trees are used between an open and a close. -/
def Proc.target (P : Proc) (tid : Nat) (c : Call E) : Option TxnObj :=
  match c, P.objs tid with
  | .new, none => some ⟨EdTxn.blank, 0⟩
  | .new, some _ => none
  | .open rdonly, some o => if tid = 0 ∨ rdonly = true then some o else none
  | .commit _, some o => some o
  | .close _, some o => some o
  | _, some o => if o.txn.state = .open then some o else none
  | _, none => none

/-- The object after a call: `ed_txn_close` without a reset, a commit that gets to it and a failed
`ed_txn_new` free it. -/
def TxnObj.after (o : TxnObj) (c : Call E) (ok : Bool) (xid : Nat) (t : EdTxn) : Option TxnObj :=
  match c with
  | .new => if ok then some ⟨t, 0⟩ else none
  | .open _ => some ⟨t, if ok then xid else o.acq⟩
  | .close reset => if reset then some ⟨t, o.acq⟩ else none
  | .commit reset =>
    if reset = true ∨ o.txn.state = .closed then some ⟨t, o.acq⟩ else none
  | _ => some ⟨t, o.acq⟩

/-! ## The view of a process -/

/-- What a process sees of the system while it runs a call on a transaction object. -/
def Sys.view (σ : Sys E) (p : Nat) (P : Proc) (t : EdTxn) : St E where
  pages := σ.pages
  hdr := σ.hdr
  conn := (σ.slots P.slot).toEdConn
  txn := t
  lck := decide (σ.writer = some p)
  busy := decide (σ.writer ≠ none ∧ σ.writer ≠ some p)
  lost := σ.lost
  tick := σ.tick

/-- The holder of the write lock after a call of the process `p`. -/
def writerAfter (writer : Option Nat) (p : Nat) (lck : Bool) : Option Nat :=
  if lck then some p else if writer = some p then none else writer

/-- The slot after a call. -/
def ConnSlot.after (c : ConnSlot) (conn : EdConn) (stamp : Option Nat) : ConnSlot where
  xid := conn.xid
  pending := conn.pending
  pid := c.pid
  active := stamp.getD c.active

/-- The system after a call of the process `p` that ended in the state `s`. -/
def Sys.put (σ : Sys E) (p : Nat) (P : Proc) (tid : Nat) (o : Option TxnObj) (s : St E)
    (stamp : Option Nat) : Sys E where
  pages := s.pages
  hdr := s.hdr
  nconns := σ.nconns
  slots := update σ.slots P.slot ((σ.slots P.slot).after s.conn stamp)
  slotLck := σ.slotLck
  writer := writerAfter σ.writer p s.lck
  procs := update σ.procs p (some { P with objs := update P.objs tid o })
  lost := s.lost
  tick := s.tick

/-- The process `p` is gone, with its locks. -/
def Sys.drop (σ : Sys E) (p : Nat) (P : Proc) : Sys E :=
  { σ with
    slotLck := update σ.slotLck P.slot none
    writer := if σ.writer = some p then none else σ.writer
    procs := update σ.procs p none }

/-- A change of one connection slot. -/
def Sys.modSlot (σ : Sys E) (i : Nat) (f : ConnSlot → ConnSlot) : Sys E :=
  { σ with slots := update σ.slots i (f (σ.slots i)) }

/-! ## Steps -/

/-- What a lock call of the process `p` on the bytes of a slot answers. -/
def Sys.flck (σ : Sys E) (p i : Nat) : FlckRc :=
  if σ.slotLck i = none ∨ σ.slotLck i = some p then .ok else .again

/-- The xid below which `ed_idx_open` doubts a slot. -/
def openDoubt (xid : Nat) : Nat := if xid > 16 then xid - 16 else 0

/-- A process opens the index. -/
def Sys.attach (σ : Sys E) (p scan : Nat) : Option (Sys E) :=
  if p = 0 then none
  else match σ.procs p with
  | some _ => none
  | none =>
    match connAcquire σ.slots (fun _ => σ.flck p) (openDoubt σ.hdr.xid) σ.nconns with
    | .slot i => some { σ with
        slots := update σ.slots i (connTake (σ.slots i) p)
        slotLck := update σ.slotLck i (some p)
        procs := update σ.procs p (some ⟨i, scan, fun _ => none⟩) }
    | _ => none

/-- A call of a live process on one of its transaction objects. -/
def Sys.call [EdEntry E] (g : Geom) (σ : Sys E) (p tid : Nat) (env : Env E) (c : Call E)
    (stamp : Option Nat) : Option (Sys E) :=
  match σ.procs p with
  | none => none
  | some P =>
    match P.target tid c with
    | none => none
    | some o =>
      match c.run env g (σ.view p P o.txn) with
      | .ok _ s => some (σ.put p P tid (o.after c true σ.hdr.xid s.txn) s stamp)
      | .err _ s => some (σ.put p P tid (o.after c false σ.hdr.xid s.txn) s stamp)
      | .halt _ s => some ((σ.put p P tid none s stamp).drop p P)
      | .stuck => none

/-- One step of the system. -/
def Sys.step [EdEntry E] (g : Geom) (σ : Sys E) : Event E → Option (Sys E)
  | .attach p scan => σ.attach p scan
  | .detach p =>
    match σ.procs p with
    | some P => if (P.objs 0).isSome then none else some ((σ.modSlot P.slot connRelease).drop p P)
    | none => none
  | .call p tid env c stamp => σ.call g p tid env c stamp
  | .kill p => (σ.procs p).map fun P => σ.drop p P
  | .xmin p now =>
    match σ.procs p with
    | some P =>
      if σ.writer = some p then
        some { σ with slots := (edIdxXmin σ.hdr.xid now P.slot P.scan (σ.flck p) σ.slots).1 }
      else none
    | none => none
  | .statAcquire p =>
    match σ.procs p with
    | some P =>
      if σ.writer = none then some (σ.modSlot P.slot fun c => { c with xid := σ.hdr.xid })
      else none
    | none => none
  | .statRelease p => (σ.procs p).map fun P => σ.modSlot P.slot fun c => { c with xid := 0 }

/-- The header of a new index. -/
def EdPgIdx.create (maxConns : Nat) : EdPgIdx where
  xid := 1
  vno := 0
  tree := fun _ => none
  active := []
  gcs := [pgRootGc]
  tailStart := (createIdx maxConns).tailStart
  tailCount := (createIdx maxConns).tailCount

/-- A new index that no process has open. Its pages hold arbitrary bytes. -/
def Sys.create (maxConns : Nat) (pages : Nat → EdBpt E) : Sys E where
  pages := pages
  hdr := EdPgIdx.create maxConns
  nconns := (createIdx maxConns).nconns
  slots := fun _ => ConnSlot.blank
  slotLck := fun _ => none
  writer := none
  procs := fun _ => none
  lost := []
  tick := 0

/-- The connection slots end before the root GC page. -/
def Sys.SlotsApart (σ : Sys E) : Prop := edIdxPages σ.nconns ≤ pgRootGc

instance (σ : Sys E) : Decidable σ.SlotsApart := inferInstanceAs (Decidable (_ ≤ _))

/-! ## Runs on fixed inputs -/

/-- A call that nothing interferes with. -/
def Event.calm (p tid : Nat) (c : Call UInt64) : Event UInt64 := .call p tid Env.calm c none

/-- A new index with pages of zeroes. -/
def Sys.zero (maxConns : Nat) : Sys UInt64 := Sys.create maxConns fun _ => EdBpt.zero

end Eddy
