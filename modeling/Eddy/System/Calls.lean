import Eddy.System.Steps

/-!
# Eddy — what one call of a process can do

The lemmas on the functions of the index, put together for the calls of the system: `Called` is
what is known about the state after a call that returned, `Call.exits` about one that failed or was
killed. A call on a tree stays inside its transaction (`Stayed`); when the transaction is read-only
it leaves the whole shared file alone.
-/

namespace Eddy

open Outcome

variable {E : Type}

/-! ## Calls on a tree -/

/-- Nothing changed that a read-only transaction does not own. -/
structure Reads (s s' : St E) : Prop where
  pages : s'.pages = s.pages
  hdr : s'.hdr = s.hdr
  pg : s'.txn.pg = s.txn.pg

theorem Reads.refl (s : St E) : Reads s s := ⟨rfl, rfl, rfl⟩

/-- A call stayed inside its transaction. -/
structure Stayed (s s' : St E) : Prop where
  near : Near s s'
  reads : s.txn.isrdonly = true → Reads s s'

theorem Stayed.refl (s : St E) : Stayed s s := ⟨Near.refl s, fun _ => Reads.refl s⟩

theorem Stayed.cursorInv (s : St E) : CursorInv (Stayed s) where
  tick _ t h := ⟨(Near.cursorInv s).tick _ t h.near, fun hr =>
    ⟨(h.reads hr).pages, (h.reads hr).hdr, (h.reads hr).pg⟩⟩
  error _ e h := ⟨(Near.cursorInv s).error _ e h.near, fun hr =>
    ⟨(h.reads hr).pages, (h.reads hr).hdr, (h.reads hr).pg⟩⟩
  nodes _ _ _ h := ⟨(Near.cursorInv s).nodes _ _ _ h.near, fun hr =>
    ⟨(h.reads hr).pages, (h.reads hr).hdr, (h.reads hr).pg⟩⟩
  db _ _ h := ⟨(Near.cursorInv s).db _ _ h.near, fun hr =>
    ⟨(h.reads hr).pages, (h.reads hr).hdr, (h.reads hr).pg⟩⟩

variable [EdEntry E] (env : Env E) (g : Geom)

/-- The exits of a call on a tree. -/
def treeExits (s : St E) : Exits EdErr EdFault (St E) where
  err _ s' := Stayed s s'
  halt _ s' := Stayed s s'
  stuck := True

omit [EdEntry E] in
theorem cursor_spec {α : Type} {x : M E α} (s : St E) (hx : Preserves (Stayed s) x) :
    wp (do let _ ← x; pure ()) (fun _ s' => Stayed s s') (treeExits s) s := by
  have h := hx.bind fun _ => .pure ()
  exact h s (Stayed.refl s)

omit [EdEntry E] in
theorem stayed_of_writes {α : Type} {x : M E α} (s : St E) (hx : Preserves (Near s) x)
    (hro : edTxnIsrdonly s.txn = true → wp x (fun _ s' => Stayed s s') (treeExits s) s) :
    wp x (fun _ s' => Stayed s s') (treeExits s) s := by
  cases hr : s.txn.isrdonly with
  | true => exact hro (by simp [edTxnIsrdonly, hr])
  | false =>
    have hno : ∀ s', s.txn.isrdonly = true → Reads s s' := by
      intro s' h
      rw [hr] at h
      cases h
    exact hx.wp (Near.refl s) (fun _ s' h => ⟨h, hno s'⟩) (fun _ s' h => ⟨h, hno s'⟩)
      (fun _ s' h => ⟨h, hno s'⟩) trivial

theorem edBptSet_stayed (d : EdDb) (e : E) (replace : Bool) (s : St E) :
    wp (edBptSet env g d e replace) (fun _ s' => Stayed s s') (treeExits s) s := by
  refine stayed_of_writes s (edBptSet_writes g (Near.writeInv env s) d e replace) fun hro => ?_
  rw [edBptSet, wp_bind, wp_gets, wp_ite]
  exact ⟨fun _ => Stayed.refl s, fun h => absurd hro h⟩

theorem edBptDel_stayed (d : EdDb) (s : St E) :
    wp (edBptDel env g d) (fun _ s' => Stayed s s') (treeExits s) s := by
  refine stayed_of_writes s (edBptDel_writes g (Near.writeInv env s) d) fun hro => ?_
  rw [edBptDel, wp_bind, wp_gets, wp_ite]
  exact ⟨fun _ => Stayed.refl s, fun h => absurd hro h⟩

/-! ## All calls -/

/-- The state after a call that returned. -/
def Called (s : St E) : Call E → St E → Prop
  | .new, s' => s' = { s with txn := s'.txn, tick := s'.tick } ∧ Blankish s'.txn
  | .open rdonly, s' => Opened env rdonly s s'
  | .commit reset, s' => s.txn.state ≠ .closed ∧ edTxnIsrdonly s.txn = false ∧
      ∃ s1 locked, Published env s s1 ∧ CloseLock s1 locked ∧ Closed env reset locked s1 s'
  | .close reset, s' => ∃ locked, CloseLock s locked ∧ Closed env reset locked s s'
  | _, s' => Stayed s s'

/-- The exits of a call. -/
def Call.exits (s : St E) : Call E → Exits EdErr EdFault (St E)
  | .new => newExits s
  | .open rdonly => openExits rdonly s
  | .commit reset => commitExits env reset s
  | .close reset => closeExits reset s
  | _ => treeExits s

theorem Call.run_spec (c : Call E) (s : St E) :
    wp (c.run env g) (fun _ s' => Called env s c s') (c.exits env s) s := by
  have hI := (Stayed.cursorInv s).reads env
  cases c with
  | new => exact edTxnNew_spec env s
  | «open» rdonly => exact edTxnOpen_spec env rdonly s
  | find d k => exact cursor_spec s (edBptFind_keeps g hI d k)
  | first d => exact cursor_spec s (edBptFirst_keeps hI d)
  | last d => exact cursor_spec s (edBptLast_keeps g hI d)
  | next d => exact cursor_spec s (edBptNext_keeps g hI d)
  | prev d => exact cursor_spec s (edBptPrev_keeps g hI d)
  | set d e replace => exact edBptSet_stayed env g d e replace s
  | del d =>
    change wp (edBptDel env g d >>= fun _ => pure ()) _ _ _
    rw [wp_bind]
    exact wp_post (edBptDel_stayed env g d s) fun _ _ h => h
  | commit reset => exact edTxnCommit_spec env reset s
  | close reset => exact edTxnClose_spec env reset s

omit [EdEntry E] in
/-- A call is made on an existing object of the process, or makes one. -/
theorem Proc.target_spec {P : Proc} {tid : Nat} {c : Call E} {o : TxnObj}
    (h : P.target tid c = some o) :
    (c = .new ∧ P.objs tid = none ∧ o = ⟨EdTxn.blank, 0⟩) ∨
      (c ≠ .new ∧ P.objs tid = some o ∧ (c.onTree = true → o.txn.state = .open)) := by
  unfold Proc.target at h
  split at h
  · rename_i hn
    cases h
    exact .inl ⟨rfl, hn, rfl⟩
  · cases h
  · rename_i ho
    split at h
    · cases h
      exact .inr ⟨nofun, ho, nofun⟩
    · cases h
  · rename_i ho
    cases h
    exact .inr ⟨nofun, ho, nofun⟩
  · rename_i ho
    cases h
    exact .inr ⟨nofun, ho, nofun⟩
  · rename_i hnew _ _ _ ho
    split at h
    · rename_i hopen
      cases h
      exact .inr ⟨hnew, ho, fun _ => hopen⟩
    · cases h
  · cases h

omit [EdEntry E] in
theorem Proc.target_tree {P : Proc} {tid : Nat} {c : Call E} {o : TxnObj}
    (h : P.target tid c = some o) (hc : c.onTree = true) : o.txn.state = .open := by
  rcases Proc.target_spec h with ⟨rfl, -⟩ | ⟨-, -, hopen⟩
  · cases hc
  · exact hopen hc

/-- The calls that run `ed_txn_close`. -/
def Call.closes : Call E → Bool
  | .commit _ | .close _ => true
  | _ => false

omit [EdEntry E] in
theorem TxnObj.after_txn {o x : TxnObj} {c : Call E} {ok : Bool} {xid : Nat} {t : EdTxn}
    (h : o.after c ok xid t = some x) : x.txn = t := by
  unfold TxnObj.after at h
  split at h
  all_goals
    first
    | split at h
      · cases h
        rfl
      · cases h
    | cases h
      rfl

end Eddy
