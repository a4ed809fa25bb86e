import Eddy.Index.Cursor
import Eddy.Index.Modify

/-!
# Eddy — what insertions and deletions keep

The functions that change a tree get new pages from `ed_txn_alloc`, give old ones up with
`ed_txn_discard`, and otherwise store into pages, nodes and cursors.

* `edBptSet_writes`, `edBptDel_writes` and one lemma for each function below them: such a predicate
  is kept, however the call ends, with no assumption on the state.
-/

namespace Eddy

open Outcome Slots Prog

variable {E : Type}

/-- A predicate on states that the functions that change a tree keep. -/
structure WriteInv (env : Env E) (I : St E → Prop) : Prop extends ReadInv env I where
  alloc : ∀ par pidx, Preserves I (edTxnAlloc env par pidx)
  discard : ∀ n, Preserves I (edTxnDiscard env n)
  unuse : ∀ s, I s → I (s.modTxn fun t => { t with npgused := t.npgused - 1 })
  node : ∀ s n f, I s → I (s.modNode n f)
  page : ∀ s p f, I s → I (s.modPage p f)

variable {env : Env E} (g : Geom) {I : St E → Prop} (hI : WriteInv env I)

include hI

/-! ## Pages and nodes -/

theorem modTree_writes (n : Nat) (f : EdBpt E → EdBpt E) : Preserves I (modTree n f) :=
  fun s h => hI.page s _ f h

theorem modNode_writes (n : Nat) (f : EdNode → EdNode) : Preserves I (modNode n f : M E Unit) :=
  fun s h => hI.node s n f h

theorem edTxnClone_writes (n : Nat) : Preserves I (edTxnClone env n) := by
  unfold edTxnClone
  refine (getNode_keeps n).bind fun _ => (hI.alloc _ _).bind fun _ =>
    (getTree_keeps _).bind fun _ => (modTree_writes hI _ _).bind fun _ =>
    (Preserves.attempt (hI.discard n)).bind fun rc => ?_
  cases rc with
  | ok _ => exact .pure _
  | error e => exact (Preserves.modify hI.unuse).bind fun _ => .throw _

theorem moveBranch_writes (dst di src si n : Nat) :
    Preserves I (moveBranch g dst di src si n : M E Unit) := by
  unfold moveBranch
  exact .ite ((getTree_keeps _).bind fun _ => modTree_writes hI _ _) .stuck

theorem branchSetPtr_writes (n idx val : Nat) :
    Preserves I (branchSetPtr g n idx val : M E Unit) := by
  unfold branchSetPtr
  exact .ite (modTree_writes hI _ _) .stuck

theorem branchSetKey_writes (n idx val : Nat) :
    Preserves I (branchSetKey g n idx val : M E Unit) := by
  unfold branchSetKey
  exact .ite (.pure _) (.ite (modTree_writes hI _ _) .stuck)

theorem ownParent_writes (n p : Nat) : Preserves I (ownParent env g n p) := by
  unfold ownParent
  exact Preserves.get.bind fun _ => .ite ((edTxnClone_writes hI p).bind fun _ =>
    (getTree_keeps _).bind fun _ => (moveBranch_writes g hI _ _ _ _ _).bind fun _ =>
      (modNode_writes hI _ _).bind fun _ => .pure _) (.pure _)

theorem linkNode_writes (n parent : Nat) : Preserves I (linkNode g n parent : M E Unit) := by
  unfold linkNode
  exact Preserves.get.bind fun _ => .when (branchSetPtr_writes g hI _ _ _)

theorem setNode_writes (d : EdDb) (fuel n : Nat) : Preserves I (setNode env g d fuel n) := by
  induction fuel generalizing n with
  | zero => exact .stuck
  | succ fuel ih =>
    rw [setNode]
    refine (getNode_keeps n).bind fun x => ?_
    cases x.parent with
    | none => exact modDb_keeps hI.toReadInv _ _
    | some p =>
      exact (ownParent_writes g hI n p).bind fun parent =>
        (linkNode_writes g hI n parent).bind fun _ => ih parent

theorem setNodeTop_writes (d : EdDb) (n : Nat) : Preserves I (setNodeTop env g d n) := by
  unfold setNodeTop
  exact (Preserves.gets _).bind fun _ => setNode_writes g hI d _ n

theorem linkRight_writes (d : EdDb) (r rkey : Nat) :
    Preserves I (linkRight env g d r rkey) := by
  unfold linkRight
  refine (getNode_keeps r).bind fun y => ?_
  cases y.parent with
  | none => exact .stuck
  | some p =>
    exact (branchSetKey_writes g hI _ _ _).bind fun _ =>
      (Preserves.attempt (setNodeTop_writes g hI d r)).bind fun _ => .pure _

theorem linkSplit_writes (d : EdDb) (branch l r rkey : Nat) :
    Preserves I (linkSplit env g d branch l r rkey) := by
  unfold linkSplit
  exact (modNode_writes hI _ _).bind fun _ => (modNode_writes hI _ _).bind fun _ =>
    (Preserves.attempt (setNodeTop_writes g hI d l)).bind fun _ => linkRight_writes g hI d r rkey

theorem storeEnt_writes (p : Option EntPtr) (e : E) : Preserves I (storeEnt g p e) := by
  unfold storeEnt
  cases p with
  | none => exact .stuck
  | some p =>
    exact .ite (.modify fun s h => hI.page s _ _ h) .stuck

theorem setLeafKey_writes [EdEntry E] (leaf : Nat) :
    Preserves I (setLeafKey g leaf : M E Unit) := by
  unfold setLeafKey
  refine Preserves.get.bind fun s => ?_
  cases (s.node leaf).parent with
  | none => exact .stuck
  | some p => exact branchSetKey_writes g hI _ _ _

theorem setLeaf_writes [EdEntry E] (d : EdDb) (leaf eidx : Nat) :
    Preserves I (setLeaf env g d leaf eidx) := by
  unfold setLeaf
  exact (Preserves.attempt (setNodeTop_writes g hI d leaf)).bind fun _ =>
    (getNode_keeps _).bind fun _ => .when (setLeafKey_writes g hI leaf)

/-! ## Insertion and deletion -/

theorem openBranchSlot_writes (branch src eidx : Nat) :
    Preserves I (openBranchSlot g branch src eidx : M E Unit) := by
  unfold openBranchSlot
  exact (getTree_keeps _).bind fun _ => .ite .stuck
    ((moveBranch_writes g hI _ _ _ _ _).bind fun _ => modTree_writes hI _ _)

theorem newRootBranch_writes : Preserves I (newRootBranch env) := by
  unfold newRootBranch
  exact (hI.alloc _ _).bind fun _ => (modTree_writes hI _ _).bind fun _ => .pure _

theorem expandBranch_writes (src eidx : Nat) :
    Preserves I (expandBranch env g src eidx) := by
  unfold expandBranch
  refine Preserves.get.bind fun _ => .ite ?_ ((openBranchSlot_writes g hI _ _ _).bind fun _ =>
    .pure _)
  exact (edTxnClone_writes hI _).bind fun _ => (moveBranch_writes g hI _ _ _ _ _).bind fun _ =>
    (openBranchSlot_writes g hI _ _ _).bind fun _ => .pure _

theorem splitLeft_writes (branch mid : Nat) :
    Preserves I (splitLeft env g branch mid) := by
  unfold splitLeft
  exact Preserves.get.bind fun _ => .ite ((edTxnClone_writes hI _).bind fun _ =>
      (moveBranch_writes g hI _ _ _ _ _).bind fun _ => .pure _) (.pure _)

theorem splitBranch_writes (branch mid : Nat) :
    Preserves I (splitBranch env g branch mid) := by
  unfold splitBranch
  exact (getNode_keeps _).bind fun _ => (hI.alloc _ _).bind fun _ =>
    (splitLeft_writes g hI _ _).bind fun _ => (getTree_keeps _).bind fun _ =>
    (modTree_writes hI _ _).bind fun _ => (modTree_writes hI _ _).bind fun _ =>
    (moveBranch_writes g hI _ _ _ _ _).bind fun _ => .pure _

theorem splitRoom_writes (l r left right mid rkey rbkey : Nat) :
    Preserves I (splitRoom g l r left right mid rkey rbkey : M E Nat) := by
  unfold splitRoom
  refine (getNode_keeps _).bind fun _ => .ite ((openBranchSlot_writes g hI _ _ _).bind fun _ =>
    .pure _) (.ite .stuck ?_)
  exact (modNode_writes hI _ _).bind fun _ => (modNode_writes hI _ _).bind fun _ =>
    (openBranchSlot_writes g hI _ _ _).bind fun _ => .pure _

theorem insertIntoParent_writes (d : EdDb) (fuel l r rkey : Nat) :
    Preserves I (insertIntoParent env g d fuel l r rkey) := by
  induction fuel generalizing l r rkey with
  | zero => exact .stuck
  | succ fuel ih =>
    rw [insertIntoParent]
    refine Preserves.get.bind fun s => ?_
    cases (s.node l).parent with
    | none =>
      exact (newRootBranch_writes hI).bind fun _ => linkSplit_writes g hI _ _ _ _ _
    | some branch =>
      refine .ite ?_ ((expandBranch_writes g hI _ _).bind fun _ => linkSplit_writes g hI _ _ _ _ _)
      exact (splitBranch_writes g hI _ _).bind fun _ =>
        (splitRoom_writes g hI _ _ _ _ _ _ _).bind fun _ => (ih _ _ _).bind fun _ =>
        linkSplit_writes g hI _ _ _ _ _

theorem moveLeaf_writes (dst di src si n : Nat) :
    Preserves I (moveLeaf g dst di src si n : M E Unit) := by
  unfold moveLeaf
  exact .ite ((getTree_keeps _).bind fun _ => modTree_writes hI _ _) .stuck

theorem splitLeafLeft_writes (leaf : Nat) : Preserves I (splitLeafLeft env leaf) := by
  unfold splitLeafLeft
  exact Preserves.get.bind fun _ => .ite (edTxnClone_writes hI _) (.pure _)

theorem splitIntoLeft_writes (d : EdDb) (leaf left right mid eidx : Nat) :
    Preserves I (splitIntoLeft g d leaf left right mid eidx : M E Unit) := by
  unfold splitIntoLeft
  exact (modDb_keeps hI.toReadInv _ _).bind fun _ => (moveLeaf_writes g hI _ _ _ _ _).bind fun _ =>
    (Preserves.when (moveLeaf_writes g hI _ _ _ _ _)).bind fun _ =>
    (moveLeaf_writes g hI _ _ _ _ _).bind fun _ => Preserves.get.bind fun _ =>
    modDb_keeps hI.toReadInv _ _

theorem splitIntoRight_writes (d : EdDb) (leaf left right mid eidx : Nat) :
    Preserves I (splitIntoRight g d leaf left right mid eidx : M E Unit) := by
  unfold splitIntoRight
  exact (Preserves.when (moveLeaf_writes g hI _ _ _ _ _)).bind fun _ =>
    (moveLeaf_writes g hI _ _ _ _ _).bind fun _ => (getTree_keeps _).bind fun _ =>
    .ite .stuck ((moveLeaf_writes g hI _ _ _ _ _).bind fun _ => Preserves.get.bind fun _ =>
      modDb_keeps hI.toReadInv _ _)

theorem splitLeafPages_writes (d : EdDb) (leaf mid eidx : Nat) :
    Preserves I (splitLeafPages env g d leaf mid eidx) := by
  unfold splitLeafPages
  refine (getNode_keeps _).bind fun _ => (hI.alloc _ _).bind fun _ =>
    (splitLeafLeft_writes hI _).bind fun _ => (getTree_keeps _).bind fun _ =>
    (modTree_writes hI _ _).bind fun _ => (modTree_writes hI _ _).bind fun _ => ?_
  exact (Preserves.when (splitIntoLeft_writes g hI d _ _ _ _ _)).bind fun _ =>
    (Preserves.when (splitIntoRight_writes g hI d _ _ _ _ _)).bind fun _ => .pure _

theorem splitLeaf_writes [EdEntry E] (d : EdDb) (leaf mid : Nat) :
    Preserves I (splitLeaf env g d leaf mid) := by
  unfold splitLeaf
  exact Preserves.get.bind fun _ => .ite .stuck ((splitLeafPages_writes g hI d _ _ _).bind fun _ =>
    (Preserves.gets _).bind fun _ => insertIntoParent_writes g hI d _ _ _ _)

theorem freshLeaf_writes (d : EdDb) : Preserves I (freshLeaf env d) := by
  unfold freshLeaf
  exact (hI.alloc _ _).bind fun _ => (modTree_writes hI _ _).bind fun _ =>
    (getNode_keeps _).bind fun _ => (modDb_keeps hI.toReadInv _ _).bind fun _ => .pure _

theorem splitFull_writes [EdEntry E] (d : EdDb) (leaf : Nat) :
    Preserves I (splitFull env g d leaf) := by
  unfold splitFull
  refine Preserves.get.bind fun s => ?_
  cases splitPoint (s.txn.db d) (s.tree leaf) with
  | none => exact .throw _
  | some mid =>
    refine (splitLeaf_writes g hI d leaf mid).bind fun _ => (getDb_keeps d).bind fun c => ?_
    cases c.find with
    | none => exact .stuck
    | some half => exact (modTree_writes hI _ _).bind fun _ => .pure _

theorem cloneLeaf_writes (d : EdDb) (src eidx : Nat) (replace : Bool) :
    Preserves I (cloneLeaf env g d src eidx replace) := by
  unfold cloneLeaf
  exact (edTxnClone_writes hI _).bind fun _ => (getNode_keeps _).bind fun _ =>
    (modDb_keeps hI.toReadInv _ _).bind fun _ => (moveLeaf_writes g hI _ _ _ _ _).bind fun _ =>
    .pure _

theorem expandLeaf_writes (d : EdDb) (src eidx : Nat) (replace : Bool) :
    Preserves I (expandLeaf env g d src eidx replace) := by
  unfold expandLeaf ownLeaf openLeafSlot
  refine (Preserves.get.bind fun _ => .ite (cloneLeaf_writes g hI d _ _ _) (.pure _)).bind fun _ =>
    (Preserves.when ((getTree_keeps _).bind fun _ => .ite .stuck ?_)).bind fun _ => .pure _
  exact (moveLeaf_writes g hI _ _ _ _ _).bind fun _ => modTree_writes hI _ _

theorem roomInLeaf_writes [EdEntry E] (d : EdDb) (replace : Bool) :
    Preserves I (roomInLeaf env g d replace) := by
  unfold roomInLeaf
  refine Preserves.get.bind fun s => ?_
  cases (s.txn.db d).find with
  | none => exact freshLeaf_writes hI d
  | some leaf =>
    exact .ite (splitFull_writes g hI d leaf) (expandLeaf_writes g hI d _ _ _)

theorem insertIntoLeaf_writes [EdEntry E] (d : EdDb) (e : E) (replace : Bool) :
    Preserves I (insertIntoLeaf env g d e replace) := by
  unfold insertIntoLeaf
  exact (getDb_keeps d).bind fun _ => (roomInLeaf_writes g hI d _).bind fun _ =>
    (getDb_keeps d).bind fun _ => (storeEnt_writes g hI _ _).bind fun _ => setLeaf_writes g hI d _ _

theorem edBptSet_writes [EdEntry E] (d : EdDb) (e : E) (replace : Bool) :
    Preserves I (edBptSet env g d e replace) := by
  unfold edBptSet
  refine (Preserves.gets _).bind fun _ => .ite (.throw _) (.ite (.throw _) (.bind ?_ fun _ =>
    modDb_keeps hI.toReadInv _ _))
  exact .onErr (insertIntoLeaf_writes g hI d e _) fun err s h => hI.error s err h

theorem ownForDel_writes (d : EdDb) (leaf eidx : Nat) :
    Preserves I (ownForDel env g d leaf eidx) := by
  unfold ownForDel
  refine Preserves.get.bind fun _ => .ite ?_ (.pure _)
  exact (edTxnClone_writes hI _).bind fun _ => (moveLeaf_writes g hI _ _ _ _ _).bind fun _ =>
    (setNodeTop_writes g hI d _).bind fun _ => (getNode_keeps _).bind fun _ =>
    (modDb_keeps hI.toReadInv _ _).bind fun _ => .pure _

theorem shiftLeft_writes (p : EntPtr) (n : Nat) :
    Preserves I (shiftLeft g p n : M E Unit) := by
  unfold shiftLeft
  exact .when (.ite (.modify fun s h => hI.page s _ _ h) .stuck)

theorem closeLeafSlot_writes (d : EdDb) (leaf eidx : Nat) :
    Preserves I (closeLeafSlot g d leaf eidx : M E Unit) := by
  unfold closeLeafSlot
  refine (getTree_keeps _).bind fun _ => (getDb_keeps d).bind fun c => ?_
  cases c.entry with
  | none => exact .stuck
  | some p => exact shiftLeft_writes g hI p _

omit hI in
theorem kmaxAfterDel_writes [EdEntry E] (d : EdDb) (leaf : Nat) :
    Preserves I (kmaxAfterDel g d leaf : M E Nat) := by
  unfold kmaxAfterDel
  exact Preserves.get.bind fun s => .ite (findKmax_keeps s _ leaf)
    ((readEnt_keeps g _).bind fun _ => .pure _)

theorem edBptDel_writes [EdEntry E] (d : EdDb) : Preserves I (edBptDel env g d) := by
  unfold edBptDel
  refine (Preserves.gets _).bind fun t => .ite (.throw _) (.ite (.throw _) (.ite (.pure _) ?_))
  cases (t.db d).find with
  | none => exact .stuck
  | some n =>
    exact (ownForDel_writes g hI d n _).bind fun _ =>
      (closeLeafSlot_writes g hI d _ _).bind fun _ => (modTree_writes hI _ _).bind fun _ =>
      (kmaxAfterDel_writes g d _).bind fun _ => (modDb_keeps hI.toReadInv _ _).bind fun _ => .pure _

end Eddy
