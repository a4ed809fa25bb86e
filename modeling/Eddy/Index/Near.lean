import Eddy.Index.Writes

/-!
# Eddy — what no call of an open transaction changes

A transaction that is open works on its pages, its nodes, its cursors and the page lists of the
header. Whatever such a call does, and however it ends, it leaves the connection slot, the locks,
the transaction's own xid, vno and mode and the header's roots, xid and vno alone, and an error
code that the transaction has stays.
-/

namespace Eddy

open Outcome Slots

variable {E : Type}

/-- The parts of the state no operation of an open transaction changes. -/
structure Fixed where
  conn : EdConn
  lck : Bool
  busy : Bool
  lost : List Nat
  txid : Nat
  tvno : Nat
  state : EdTxnState
  isrdonly : Bool
  tree : EdDb → Option Nat
  xid : Nat
  vno : Nat

def St.fixed (s : St E) : Fixed where
  conn := s.conn
  lck := s.lck
  busy := s.busy
  lost := s.lost
  txid := s.txn.xid
  tvno := s.txn.vno
  state := s.txn.state
  isrdonly := s.txn.isrdonly
  tree := s.hdr.tree
  xid := s.hdr.xid
  vno := s.hdr.vno

/-- The states before and after a call that stays inside its open transaction. -/
structure Near (s s' : St E) : Prop where
  fixed : s'.fixed = s.fixed
  error : s.txn.error ≠ none → s'.txn.error ≠ none

theorem Near.refl (s : St E) : Near s s := ⟨rfl, fun h => h⟩

theorem Near.trans {s s' s'' : St E} (a : Near s s') (b : Near s' s'') : Near s s'' :=
  ⟨b.fixed.trans a.fixed, fun h => b.error (a.error h)⟩

theorem Near.cursorInv (s0 : St E) : CursorInv (Near s0) where
  tick _ _ h := h.trans ⟨rfl, fun h => h⟩
  error _ e h := h.trans ⟨rfl, fun _ => Option.some_ne_none e⟩
  nodes _ _ _ h := h.trans ⟨rfl, fun h => h⟩
  db _ _ h := h.trans ⟨rfl, fun h => h⟩

variable (env : Env E) (g : Geom) (s0 : St E)

/-! ## Single stores -/

theorem modTxn_near {f : EdTxn → EdTxn}
    (hf : ∀ t, (f t).xid = t.xid ∧ (f t).vno = t.vno ∧ (f t).state = t.state ∧
      (f t).isrdonly = t.isrdonly ∧ (f t).error = t.error) :
    Preserves (Near s0) (modTxn f : M E Unit) := by
  intro s h
  obtain ⟨hxid, hvno, hstate, hrd, herr⟩ := hf s.txn
  exact h.trans ⟨by simp [St.fixed, hxid, hvno, hstate, hrd], by simp [herr]⟩

theorem modHdr_near {f : EdPgIdx → EdPgIdx}
    (hf : ∀ h, (f h).tree = h.tree ∧ (f h).xid = h.xid ∧ (f h).vno = h.vno) :
    Preserves (Near s0) (modHdr f : M E Unit) := by
  intro s h
  obtain ⟨htree, hxid, hvno⟩ := hf s.hdr
  exact h.trans ⟨by simp [St.fixed, htree, hxid, hvno], fun h => h⟩

theorem modTree_near (n : Nat) (f : EdBpt E → EdBpt E) : Preserves (Near s0) (modTree n f) :=
  fun _ h => h.trans ⟨rfl, fun h => h⟩

/-! ## Pages and nodes -/

theorem sysFails_near (r : EdReq) : Preserves (Near s0) (sysFails env r) :=
  sysFails_keeps env (Near.cursorInv s0) r

theorem txnError_near {α : Type} (e : EdErr) : Preserves (Near s0) (txnError e : M E α) :=
  txnError_keeps (Near.cursorInv s0) e

theorem mapEndPages_near (r : EdReq) (n : Nat) : Preserves (Near s0) (mapEndPages env r n) := by
  unfold mapEndPages
  refine .ite (.pure _) ?_
  refine .bind (modHdr_near s0 fun _ => ⟨rfl, rfl, rfl⟩) fun _ => ?_
  refine (sysFails_near env s0 r).bind fun _ => .ite (.throw _) ?_
  exact (Preserves.gets _).bind fun _ =>
    .bind (modHdr_near s0 fun _ => ⟨rfl, rfl, rfl⟩) fun _ => .pure _

theorem edAlloc_near (n : Nat) : Preserves (Near s0) (edAlloc env n) := by
  unfold edAlloc
  refine .ite (.pure _) ((sysFails_near env s0 _).bind fun _ => ?_)
  refine .ite (.throw _) (Preserves.get.bind fun _ => ?_)
  refine (mapEndPages_near env s0 _ _).bind fun _ => ?_
  exact .bind (modHdr_near s0 fun _ => ⟨rfl, rfl, rfl⟩) fun _ =>
    .bind (.modify fun _ h => h.trans ⟨rfl, fun h => h⟩) fun _ =>
    .pure _

theorem edTxnCheckWr_near : Preserves (Near s0) (edTxnCheckWr : M E Unit) := by
  unfold edTxnCheckWr
  exact (Preserves.gets _).bind fun _ => .ite (.throw _)
    (.ite (.throw _) (.pure _))

theorem edTxnGrow_near : Preserves (Near s0) (edTxnGrow env) := by
  unfold edTxnGrow
  refine (Preserves.gets _).bind fun _ =>
    (sysFails_near env s0 _).bind fun _ => .ite (txnError_near s0 _) ?_
  refine .bind (modTxn_near s0 fun _ => ⟨rfl, rfl, rfl, rfl, rfl⟩) fun _ => ?_
  refine (Preserves.attempt (edAlloc_near env s0 _)).bind fun rc => ?_
  cases rc with
  | error e => exact txnError_near s0 e
  | ok pgs =>
    exact .bind (modHdr_near s0 fun _ => ⟨rfl, rfl, rfl⟩) fun _ =>
      modTxn_near s0 fun _ => ⟨rfl, rfl, rfl, rfl, rfl⟩

theorem wrapNext_near (par : Option Nat) (pidx : Nat) :
    Preserves (Near s0) (wrapNext env par pidx) := by
  unfold wrapNext
  refine (Preserves.gets _).bind fun t =>
    (sysFails_near env s0 _).bind fun _ => .ite (txnError_near s0 _) ?_
  cases t.pg[t.npgused]? with
  | none => exact .stuck
  | some no =>
    refine (nodeWrap_keeps (Near.cursorInv s0) _ _ _).bind fun _ => ?_
    refine .bind (modTxn_near s0 fun _ => ⟨rfl, rfl, rfl, rfl, rfl⟩) fun _ => ?_
    exact (Preserves.gets _).bind fun _ =>
      (modTree_near s0 _ _).bind fun _ => .pure _

theorem edTxnAlloc_near (par : Option Nat) (pidx : Nat) :
    Preserves (Near s0) (edTxnAlloc env par pidx) := by
  unfold edTxnAlloc
  exact (edTxnCheckWr_near s0).bind fun _ => (Preserves.gets _).bind fun _ =>
    (Preserves.when (edTxnGrow_near env s0)).bind fun _ => wrapNext_near env s0 par pidx

theorem edTxnDiscard_near (n : Nat) : Preserves (Near s0) (edTxnDiscard env n) := by
  unfold edTxnDiscard
  refine (edTxnCheckWr_near s0).bind fun _ => (getNode_keeps n).bind fun _ => ?_
  refine .ite (.pure _) ((sysFails_near env s0 _).bind fun _ => ?_)
  refine .ite (txnError_near s0 _) ?_
  exact .bind (modTxn_near s0 fun _ => ⟨rfl, rfl, rfl, rfl, rfl⟩) fun _ =>
    modNode_keeps (Near.cursorInv s0) _ _

theorem Near.writeInv : WriteInv env (Near s0) where
  toReadInv := (Near.cursorInv s0).reads env
  alloc := edTxnAlloc_near env s0
  discard := edTxnDiscard_near env s0
  unuse _ h := h.trans ⟨rfl, fun h => h⟩
  node _ _ _ h := h.trans ⟨rfl, fun h => h⟩
  page _ _ _ h := h.trans ⟨rfl, fun h => h⟩

end Eddy
