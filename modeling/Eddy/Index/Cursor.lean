import Eddy.Index.Bpt

/-!
# Eddy — what search and cursor moves leave alone

The functions that only read a tree map pages, wrap them into nodes, move the cursors of the
transaction and note an error code; they store nothing in the shared file.

* `edBptFind_keeps`, `edBptNext_keeps`, ...: every function that reads a tree keeps such a
  predicate, however it ends.
-/

namespace Eddy

open Outcome Slots Prog

variable {E : Type}

/-- A predicate on states that does not look at the nodes, the cursors and the error code of the
transaction, nor at the clock of the environment. -/
structure CursorInv (I : St E → Prop) : Prop where
  tick : ∀ s t, I s → I (s.atTick t)
  error : ∀ s e, I s → I (s.modTxn fun t => { t with error := some e })
  nodes : ∀ s nodes nused, I s → I (s.modTxn fun t => { t with nodes := nodes, nused := nused })
  db : ∀ s db, I s → I (s.modTxn fun t => { t with db := db })

/-- A predicate on states that the functions that read a tree keep: they map pages, move the cursors
and note error codes. -/
structure ReadInv (env : Env E) (I : St E → Prop) : Prop where
  map : ∀ no par pidx, Preserves I (edTxnMap env no par pidx)
  error : ∀ s e, I s → I (s.modTxn fun t => { t with error := some e })
  db : ∀ s db, I s → I (s.modTxn fun t => { t with db := db })

variable (g : Geom) {I : St E → Prop}

/-! ## Reads -/

theorem getNode_keeps (n : Nat) : Preserves I (getNode n : M E EdNode) := fun _ h => h

theorem getTree_keeps (n : Nat) : Preserves I (getTree n : M E (EdBpt E)) := fun _ h => h

theorem getDb_keeps (d : EdDb) : Preserves I (getDb d : M E EdTxnDb) := fun _ h => h

theorem readEnt_keeps (p : Option EntPtr) : Preserves I (readEnt g p : M E E) := by
  unfold readEnt
  cases p with
  | none => exact .stuck
  | some p => exact .ite (.gets _) .stuck

theorem findKmin_keeps (s : St E) (fuel n : Nat) : Preserves I (findKmin s fuel n) := by
  induction fuel generalizing n with
  | zero => exact .stuck
  | succ fuel ih =>
    rw [findKmin]
    cases (s.node n).parent with
    | none => exact .pure _
    | some p => exact .ite (.pure _) (ih p)

theorem findKmax_keeps (s : St E) (fuel n : Nat) : Preserves I (findKmax s fuel n) := by
  induction fuel generalizing n with
  | zero => exact .stuck
  | succ fuel ih =>
    rw [findKmax]
    cases (s.node n).parent with
    | none => exact .pure _
    | some p => exact .ite (.pure _) (ih p)

/-! ## Nodes and cursors -/

section Cursor

variable (env : Env E) (hI : CursorInv I)

include hI

theorem sysFails_keeps (r : EdReq) : Preserves I (sysFails env r) := fun s h => hI.tick s _ h

theorem txnError_keeps {α : Type} (e : EdErr) : Preserves I (txnError e : M E α) :=
  fun s h => hI.error s e h

theorem modNode_keeps (n : Nat) (f : EdNode → EdNode) : Preserves I (modNode n f : M E Unit) :=
  fun s h => hI.nodes s _ s.txn.nused h

theorem nodeWrap_keeps (no : Nat) (par : Option Nat) (pidx : Nat) :
    Preserves I (nodeWrap no par pidx : M E Nat) := by
  unfold nodeWrap
  exact (Preserves.gets _).bind fun _ => (modNode_keeps hI _ _).bind fun _ =>
    (Preserves.modify fun s h => hI.nodes s s.txn.nodes _ h).bind fun _ => .pure _

theorem edTxnMap_keeps (no : Nat) (par : Option Nat) (pidx : Nat) :
    Preserves I (edTxnMap env no par pidx) := by
  unfold edTxnMap
  refine (Preserves.gets _).bind fun t => ?_
  cases nodeOf t.nodes no t.nused with
  | some n => exact (modNode_keeps hI _ _).bind fun _ => .pure _
  | none =>
    exact (sysFails_keeps env hI _).bind fun _ =>
      .ite (txnError_keeps hI _) (nodeWrap_keeps hI _ _ _)

theorem CursorInv.reads : ReadInv env I := ⟨edTxnMap_keeps env hI, hI.error, hI.db⟩

end Cursor

variable {env : Env E} (hI : ReadInv env I)

include hI

theorem modDb_keeps (d : EdDb) (f : EdTxnDb → EdTxnDb) : Preserves I (modDb d f : M E Unit) :=
  fun s h => hI.db s _ h

theorem findDescend_keeps (d : EdDb) (k fuel n kmin kmax : Nat) :
    Preserves I (findDescend env g d k fuel n kmin kmax) := by
  induction fuel generalizing n kmin kmax with
  | zero => exact .stuck
  | succ fuel ih =>
    rw [findDescend]
    refine (getTree_keeps n).bind fun b => .ite (.ite ?_ .stuck) (.pure _)
    exact (hI.map _ _ _).bind fun next => (modDb_keeps hI _ _).bind fun _ => ih next _ _

/-! ## The calls -/

theorem edBptFind_keeps [EdEntry E] (d : EdDb) (k : Nat) :
    Preserves I (edBptFind env g d k) := by
  unfold edBptFind
  refine (Preserves.gets _).bind fun t => .ite (.throw _) ((modDb_keeps hI _ _).bind fun _ => ?_)
  cases (t.db d).root with
  | none => exact (modDb_keeps hI _ _).bind fun _ => .pure _
  | some root =>
    refine (Preserves.gets _).bind fun _ =>
      (findDescend_keeps g hI d k _ root 0 uint64Max).bind fun _ => Preserves.get.bind fun _ =>
      .ite ?_ .stuck
    exact (modDb_keeps hI _ _).bind fun _ => .pure _

theorem firstDescend_keeps (fuel n kmax : Nat) :
    Preserves I (firstDescend env fuel n kmax) := by
  induction fuel generalizing n kmax with
  | zero => exact .stuck
  | succ fuel ih =>
    rw [firstDescend]
    exact (getTree_keeps n).bind fun b => .ite ((hI.map _ _ _).bind fun next => ih next _) (.pure _)

theorem lastDescend_keeps (fuel n kmin : Nat) :
    Preserves I (lastDescend env g fuel n kmin) := by
  induction fuel generalizing n kmin with
  | zero => exact .stuck
  | succ fuel ih =>
    rw [lastDescend]
    exact (getTree_keeps n).bind fun b => .ite (.ite ((hI.map _ _ _).bind fun next =>
      ih next _) .stuck) (.pure _)

theorem moveFirst_keeps [EdEntry E] (d : EdDb) (src : Option Nat) (kmin kmax : Nat) :
    Preserves I (moveFirst env d src kmin kmax) := by
  unfold moveFirst
  cases src with
  | none => exact .stuck
  | some n =>
    exact (Preserves.gets _).bind fun _ =>
      (Preserves.onErr (firstDescend_keeps hI _ n kmax) fun _ s h => hI.db s _ h).bind
      fun _ => Preserves.get.bind fun _ => modDb_keeps hI _ _

theorem moveLast_keeps [EdEntry E] (d : EdDb) (src : Option Nat) (kmin kmax : Nat) :
    Preserves I (moveLast env g d src kmin kmax) := by
  unfold moveLast
  cases src with
  | none => exact .stuck
  | some n =>
    exact (Preserves.gets _).bind fun _ =>
      (Preserves.onErr (lastDescend_keeps g hI _ n kmin) fun _ s h => hI.db s _ h).bind
      fun _ => Preserves.get.bind fun _ => .ite (modDb_keeps hI _ _) .stuck

theorem climbRight_keeps (fuel n : Nat) : Preserves I (climbRight env g fuel n) := by
  induction fuel generalizing n with
  | zero => exact .stuck
  | succ fuel ih =>
    rw [climbRight]
    refine Preserves.get.bind fun s => ?_
    cases (s.node n).parent with
    | none => exact .pure _
    | some p =>
      refine .ite (.ite ?_ .stuck) (ih p)
      exact (hI.map _ _ _).bind fun sib => Preserves.get.bind fun s' =>
        (findKmax_keeps s' _ sib).bind fun _ => .pure _

theorem climbLeft_keeps (fuel n : Nat) : Preserves I (climbLeft env g fuel n) := by
  induction fuel generalizing n with
  | zero => exact .stuck
  | succ fuel ih =>
    rw [climbLeft]
    refine Preserves.get.bind fun s => ?_
    cases (s.node n).parent with
    | none => exact .pure _
    | some p =>
      refine .ite (.ite ?_ .stuck) (ih p)
      exact (hI.map _ _ _).bind fun sib => Preserves.get.bind fun s' =>
        (findKmin_keeps s' _ sib).bind fun _ => .pure _

theorem moveRight_keeps [EdEntry E] (d : EdDb) (n : Nat) :
    Preserves I (moveRight env g d n) := by
  unfold moveRight
  exact (Preserves.gets _).bind fun _ => (climbRight_keeps g hI _ n).bind fun _ =>
    moveFirst_keeps hI d _ _ _

theorem moveLeft_keeps [EdEntry E] (d : EdDb) (n : Nat) :
    Preserves I (moveLeft env g d n) := by
  unfold moveLeft
  exact (Preserves.gets _).bind fun _ => (climbLeft_keeps g hI _ n).bind fun _ =>
    moveLast_keeps g hI d _ _ _

theorem edBptFirst_keeps [EdEntry E] (d : EdDb) : Preserves I (edBptFirst env d) := by
  unfold edBptFirst
  exact (getDb_keeps d).bind fun _ => (moveFirst_keeps hI d _ _ _).bind fun _ =>
    (modDb_keeps hI _ _).bind fun _ => (getDb_keeps d).bind fun _ => .pure _

theorem edBptLast_keeps [EdEntry E] (d : EdDb) : Preserves I (edBptLast env g d) := by
  unfold edBptLast
  exact (getDb_keeps d).bind fun _ => (moveLast_keeps g hI d _ _ _).bind fun _ =>
    (modDb_keeps hI _ _).bind fun _ => (getDb_keeps d).bind fun _ => .pure _

theorem yieldEntry_keeps [EdEntry E] (d : EdDb) : Preserves I (yieldEntry g d : M E _) := by
  unfold yieldEntry
  refine (getDb_keeps d).bind fun c => (Preserves.when ((readEnt_keeps g _).bind fun _ =>
    modDb_keeps hI _ _)).bind fun _ => ?_
  exact (Preserves.when (modDb_keeps hI _ _)).bind fun _ => (modDb_keeps hI _ _).bind fun _ =>
    (getDb_keeps d).bind fun _ => .pure _

theorem entryNext_keeps [EdEntry E] (d : EdDb) : Preserves I (entryNext g d : M E Unit) := by
  unfold entryNext
  exact (modDb_keeps hI _ _).bind fun _ => (getDb_keeps d).bind fun _ =>
    (readEnt_keeps g _).bind fun _ => modDb_keeps hI _ _

theorem entryPrev_keeps [EdEntry E] (d : EdDb) : Preserves I (entryPrev g d : M E Unit) := by
  unfold entryPrev
  exact (modDb_keeps hI _ _).bind fun _ => (getDb_keeps d).bind fun _ =>
    (readEnt_keeps g _).bind fun _ => modDb_keeps hI _ _

theorem stepFailed_keeps (d : EdDb) (e : EdErr) (s : St E) (h : I s) : I (stepFailed d e s) :=
  hI.error _ e (hI.db s _ h)

theorem edBptNext_keeps [EdEntry E] (d : EdDb) : Preserves I (edBptNext env g d) := by
  unfold edBptNext
  refine (getDb_keeps d).bind fun c => .ite (.throw _) ?_
  cases c.find with
  | none => exact .pure _
  | some n =>
    exact (getTree_keeps n).bind fun _ => (Preserves.when
      (.onErr (moveRight_keeps g hI d n) (stepFailed_keeps hI d))).bind fun _ =>
      (Preserves.when (entryNext_keeps g hI d)).bind fun _ =>
      (Preserves.when (modDb_keeps hI _ _)).bind fun _ => yieldEntry_keeps g hI d

theorem edBptPrev_keeps [EdEntry E] (d : EdDb) : Preserves I (edBptPrev env g d) := by
  unfold edBptPrev
  refine (getDb_keeps d).bind fun c => .ite (.throw _) ?_
  cases c.find with
  | none => exact .pure _
  | some n =>
    exact (Preserves.when (.onErr (moveLeft_keeps g hI d n) (stepFailed_keeps hI d))).bind fun _ =>
      (Preserves.when (entryPrev_keeps g hI d)).bind fun _ => yieldEntry_keeps g hI d

end Eddy
