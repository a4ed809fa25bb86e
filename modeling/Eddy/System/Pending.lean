import Eddy.Index.Reopen
import Eddy.System.Active

/-!
# Eddy — the pending pages of a process that died

A close with a reset keeps up to eleven pages for the next write transaction and records them in
the connection slot. When the process dies the record stays in the slot. The next owner of the slot
gives the pages back when it first opens a write transaction. But `ed_idx_xmin` clears the whole
slot of a dead process that has an xid, pending pages included, and `ed_txn_open` forgets the pages
when the call that frees them fails.
-/

namespace Eddy

open Outcome Runs List Function

variable {E : Type}

/-- After the events the page `a` is still pending in the slot `i`, or it was put into the free list
on the way. -/
def PendingKept [EdEntry E] (g : Geom) (σ : Sys E) (i a : Nat) (events : List (Event E)) : Prop :=
  ∀ τ, exec (Sys.step g) events σ = some τ →
    a ∈ (τ.slots i).pending ∨ ∃ n m, exec (Sys.step g) (events.take n) σ = some m ∧ a ∈ m.hdr.gcs

/-- The process `p` dies in this step: it is killed between two calls or at a fault point of one. -/
def Dies [EdEntry E] (g : Geom) (σ : Sys E) (p : Nat) : Event E → Prop
  | .kill q => q = p
  | .call q tid env c _ => q = p ∧ ∃ P o f s, σ.procs q = some P ∧ P.target tid c = some o ∧
      c.run env g (σ.view q P o.txn) = .halt f s
  | _ => False

/-- What must not happen to a process whose slot has pending pages: that it dies while the slot has
an xid, and that the pages are refused when it opens a write transaction. -/
def PendingOk [EdEntry E] (g : Geom) (σ : Sys E) (ev : Event E) : Prop :=
  σ.SlotsApart ∧ ∀ p P, σ.procs p = some P → (σ.slots P.slot).pending ≠ [] →
    (Dies g σ p ev → (σ.slots P.slot).xid = 0) ∧
    ∀ tid env stamp, ev = .call p tid env (.open false) stamp → ¬ FreeRefused env

/-- A process none of whose transactions has pages or is open for writing. -/
def Proc.Bare (P : Proc) : Prop := ∀ tid o, P.objs tid = some o → ¬ o.txn.Writer ∧ o.txn.pg = []

/-- The page `a` is pending in the slot `i`, and the slot has no owner and no xid, or an owner that
did not take the pending pages yet. -/
structure Tracked (σ : Sys E) (i a : Nat) : Prop where
  mem : a ∈ (σ.slots i).pending
  owner : (σ.slotLck i = none ∧ (σ.slots i).xid = 0) ∨
    ∃ p P, σ.procs p = some P ∧ P.slot = i ∧ P.Bare

/-! ## Calls of the owner -/

section Call

variable {σ : Sys E} {p tid : Nat} {P : Proc} {o : TxnObj} {c : Call E} {s : St E}

theorem Proc.Bare.target (h : P.Bare) (ho : P.target tid c = some o) :
    ¬ o.txn.Writer ∧ o.txn.pg = [] := by
  rcases Proc.target_spec ho with ⟨-, -, rfl⟩ | ⟨-, hobj, -⟩
  · exact ⟨fun hw => absurd rfl hw.1, rfl⟩
  · exact h tid o hobj

theorem Proc.Bare.update (h : P.Bare) {o' : Option TxnObj}
    (hx : ∀ x, o' = some x → ¬ x.txn.Writer ∧ x.txn.pg = []) :
    Proc.Bare { P with objs := update P.objs tid o' } := by
  intro t x ht
  change Function.update P.objs tid o' t = some x at ht
  by_cases h' : t = tid
  · rw [h', update_self] at ht
    exact hx x ht
  · rw [update_of_ne h'] at ht
    exact h t x ht

theorem Call.halt_xid {env : Env E} {s' : St E} {f : EdFault} (h : (c.exits env s).halt f s')
    (hw : ¬ s.txn.Writer) (hpg : s.txn.pg = []) : s'.conn.xid = s.conn.xid := by
  have hclose : ∀ {reset : Bool}, CloseHalt reset s f s' → s'.conn.xid = s.conn.xid := by
    intro reset h
    cases h with
    | closeBegin => rfl
    | pendingBegin _ _ hl => exact absurd hl (not_closeLock hw hpg)
    | pendingFinish _ _ hl => exact absurd hl (not_closeLock hw hpg)
  cases c with
  | new =>
    have e : s' = { s with txn := s'.txn, tick := s'.tick } := h
    rw [e]
  | «open» rdonly => cases h
  | commit reset =>
    obtain ⟨hopen, ⟨-, h⟩ | ⟨hrd, -⟩⟩ := h
    · exact hclose h
    · exact absurd (writer_of_isrdonly hopen hrd) hw
  | close reset => exact hclose h
  | _ => exact (congrArg (fun f => f.conn.xid) (Stayed.near h).fixed :)

end Call

/-! ## Steps -/

namespace Tracked

variable {σ σ' : Sys E} {p tid i a : Nat} {P : Proc} {o : TxnObj} {c : Call E} {s : St E}

theorem put (hb : P.Bare) {o' : Option TxnObj} (stamp : Option Nat)
    (ha : a ∈ s.conn.pending) (hx : ∀ x, o' = some x → ¬ x.txn.Writer ∧ x.txn.pg = []) :
    Tracked (σ.put p P tid o' s stamp) P.slot a where
  mem := by
    change a ∈ (update σ.slots P.slot _ P.slot).pending
    rw [update_self]
    exact ha
  owner := .inr ⟨p, _, update_self .., rfl, hb.update hx⟩

theorem drop (hmem : a ∈ (σ.slots P.slot).pending) (hxid : (σ.slots P.slot).xid = 0) :
    Tracked (σ.drop p P) P.slot a where
  mem := hmem
  owner := .inl ⟨update_self .., hxid⟩

variable [EdEntry E] {g : Geom}

theorem step_free {ev : Event E} (hs : Stepped g σ ev σ') (hl : Locked σ)
    (hmem : a ∈ (σ.slots i).pending) (hfree : σ.slotLck i = none) (hxid : (σ.slots i).xid = 0) :
    Tracked σ' i a := by
  -- the slot of a live process is another one
  have hne : ∀ {q : Nat} {Q : Proc}, σ.procs q = some Q → i ≠ Q.slot := by
    rintro q Q hQ rfl
    rw [hl.owns q Q hQ] at hfree
    cases hfree
  have hkept : ∀ {τ : Sys E}, τ.slots i = σ.slots i → τ.slotLck i = σ.slotLck i →
      Tracked τ i a := by
    intro τ h1 h2
    exact ⟨h1 ▸ hmem, .inl ⟨h2.trans hfree, h1 ▸ hxid⟩⟩
  cases hs with
  | attach p scan j _ _ _ =>
    by_cases hj : i = j
    · subst hj
      refine ⟨?_, .inr ⟨p, _, update_self .., rfl, fun tid o h => by cases h⟩⟩
      change a ∈ (update σ.slots i _ i).pending
      rw [update_self]
      exact hmem
    · exact hkept (update_of_ne hj ..) (update_of_ne hj ..)
  | detach p P hP _ =>
    exact hkept (update_of_ne (hne hP) ..) (update_of_ne (hne hP) ..)
  | ok p tid env c stamp P o s hP _ _ => exact hkept (update_of_ne (hne hP) ..) rfl
  | err p tid env c stamp P o e s hP _ _ => exact hkept (update_of_ne (hne hP) ..) rfl
  | halt p tid env c stamp P o f s hP _ _ =>
    exact hkept (update_of_ne (hne hP) ..) (update_of_ne (hne hP) ..)
  | kill p P hP => exact hkept rfl (update_of_ne (hne hP) ..)
  | xmin p now P _ _ =>
    -- the scan passes over slots without an xid
    refine hkept (edIdxXmin_kept ?_) rfl
    rintro ⟨-, hpos, -⟩
    rw [hxid] at hpos
    exact absurd hpos (lt_irrefl 0)
  | statAcquire p P hP _ => exact hkept (update_of_ne (hne hP) ..) rfl
  | statRelease p P hP => exact hkept (update_of_ne (hne hP) ..) rfl

theorem step_owner {ev : Event E} (hs : Stepped g σ ev σ') (hl : Locked σ)
    (hP : σ.procs ev.actor = some P) (hb : P.Bare) (hmem : a ∈ (σ.slots P.slot).pending)
    (hok : PendingOk g σ ev) : Tracked σ' P.slot a ∨ a ∈ σ'.hdr.gcs := by
  obtain ⟨hdies, hfree⟩ := hok.2 _ P hP (ne_nil_of_mem hmem)
  cases hs with
  | attach p scan j hn _ _ =>
    rw [show σ.procs p = some P from hP] at hn
    cases hn
  | detach p Q hQ _ =>
    cases hQ.symm.trans hP
    refine .inl (Tracked.drop (σ := σ.modSlot P.slot connRelease) ?_ ?_)
    · change a ∈ (update σ.slots P.slot _ P.slot).pending
      rw [update_self]
      exact hmem
    · change (update σ.slots P.slot _ P.slot).xid = 0
      rw [update_self]
      rfl
  | ok p tid env c stamp Q o s hQ ho hr =>
    cases hQ.symm.trans hP
    have hc := wp_ok (Call.run_spec env g c _) hr
    obtain ⟨hw, hpg⟩ := hb.target ho
    by_cases hne : c = .open false
    · -- the pending pages go to the free list
      subst hne
      obtain ⟨-, -, -, -, inn, out, hf, -, ⟨rfl, -⟩ | ⟨-, -, hr⟩⟩ := Opened.write hc rfl
      · refine .inr (hf.gcs a (.inr (mem_append_right _ ?_)))
        rw [show (σ.view p P o.txn).txn.pg = [] from hpg, inactivePending_nil]
        exact hmem
      · exact absurd hr (hfree tid env stamp rfl)
    · have hh : Harmless (σ.view p P o.txn) s := Ended.harmless (.inl hc) hw
        (fun _ => not_closeLock hw hpg) (Proc.target_tree ho) hne
      refine .inl (Tracked.put hb stamp (hh.pending ▸ hmem) fun x hx => ⟨?_, ?_⟩)
      · exact OpenAfter.not_writer (fun hopen => hc.openAfter hx hopen) ho rfl hw hne
      · rw [TxnObj.after_txn hx]
        exact hc.pg_nil hw hpg (Proc.target_tree ho)
  | err p tid env c stamp Q o e s hQ ho hr =>
    cases hQ.symm.trans hP
    have hc := wp_err (Call.run_spec env g c _) hr
    obtain ⟨hw, hpg⟩ := hb.target ho
    by_cases hne : c = .open false
    · subst hne
      have hpend : s.conn.pending = (σ.slots P.slot).pending := OpenFailed.pending hc
      refine .inl (Tracked.put hb stamp (hpend ▸ hmem) fun x hx => ?_)
      obtain ⟨nodes, nused, db, xid, vno, ht⟩ := OpenFailed.txn hc
      rw [TxnObj.after_txn hx, ht]
      exact ⟨hw, hpg⟩
    · have hh : Harmless (σ.view p P o.txn) s := Ended.harmless (.inr (.inl ⟨e, hc⟩)) hw
        (fun _ => not_closeLock hw hpg) (Proc.target_tree ho) hne
      refine .inl (Tracked.put hb stamp (hh.pending ▸ hmem) fun x hx => ⟨?_, ?_⟩)
      · exact OpenAfter.not_writer (fun hopen => Call.err_openAfter hc rfl hx hopen) ho rfl hw hne
      · rw [TxnObj.after_txn hx]
        refine Call.err_pg_nil hc hw hpg (Proc.target_tree ho) ?_
        rintro rfl
        cases hx
  | halt p tid env c stamp Q o f s hQ ho hr =>
    cases hQ.symm.trans hP
    have hc := wp_halted (Call.run_spec env g c _) hr
    obtain ⟨hw, hpg⟩ := hb.target ho
    have hne : c ≠ .open false := by
      rintro rfl
      cases hc
    have hh : Harmless (σ.view p P o.txn) s := Ended.harmless (.inr (.inr ⟨f, hc⟩)) hw
      (fun _ => not_closeLock hw hpg) (Proc.target_tree ho) hne
    have hx0 : (σ.slots P.slot).xid = 0 := hdies ⟨rfl, P, o, f, s, hP, ho, hr⟩
    have hx : s.conn.xid = (σ.slots P.slot).xid := Call.halt_xid hc hw hpg
    refine .inl (Tracked.drop (σ := σ.put p P tid none s stamp) ?_ ?_)
    · change a ∈ (update σ.slots P.slot _ P.slot).pending
      rw [update_self]
      exact hh.pending ▸ hmem
    · change (update σ.slots P.slot _ P.slot).xid = 0
      rw [update_self]
      exact hx.trans hx0
  | kill p Q hQ =>
    cases hQ.symm.trans hP
    exact .inl (Tracked.drop hmem (hdies rfl))
  | xmin p now Q hQ _ =>
    cases hQ.symm.trans hP
    refine .inl ⟨?_, .inr ⟨p, P, hP, rfl, hb⟩⟩
    change a ∈ ((edIdxXmin _ _ _ _ _ _).1 P.slot).pending
    rw [hl.xmin_kept hQ hQ now]
    exact hmem
  | statAcquire p Q hQ _ =>
    cases hQ.symm.trans hP
    refine .inl ⟨?_, .inr ⟨p, P, hP, rfl, hb⟩⟩
    change a ∈ (update σ.slots P.slot _ P.slot).pending
    rw [update_self]
    exact hmem
  | statRelease p Q hQ =>
    cases hQ.symm.trans hP
    refine .inl ⟨?_, .inr ⟨p, P, hP, rfl, hb⟩⟩
    change a ∈ (update σ.slots P.slot _ P.slot).pending
    rw [update_self]
    exact hmem

theorem step {ev : Event E} (hs : Stepped g σ ev σ') (hl : Locked σ) (h : Tracked σ i a)
    (hok : PendingOk g σ ev) : Tracked σ' i a ∨ a ∈ σ'.hdr.gcs := by
  rcases h.owner with ⟨hfree, hxid⟩ | ⟨q, Q, hQ, rfl, hb⟩
  · exact .inl (step_free hs hl h.mem hfree hxid)
  · by_cases hq : q = ev.actor
    · subst hq
      exact step_owner hs hl hQ hb h.mem hok
    · refine .inl ⟨?_, .inr ⟨q, Q, (hs.procs_other g hq).trans hQ, rfl, hb⟩⟩
      rw [hs.slots_other g hl hQ hq]
      exact h.mem

end Tracked

variable [EdEntry E] (g : Geom)

/-- When nobody owns the slot `i` in a state that was reached from a new index (its process died),
and the slot has no xid, every page in its pending list is still there after any events that meet
the condition, or it was put into the free list. -/
theorem pendingKept_of_pendingOk {maxConns : Nat} {pages : Nat → EdBpt E} {σ : Sys E}
    (hrun : Run (Sys.step g) (fun _ _ => True) (Sys.create maxConns pages) σ) {i a : Nat}
    (hdead : σ.slotLck i = none) (hidle : (σ.slots i).xid = 0) (ha : a ∈ (σ.slots i).pending)
    {events : List (Event E)} (hok : ExecOk (Sys.step g) (PendingOk g) events σ) :
    PendingKept g σ i a events := by
  intro τ hτ
  have hl : Locked σ := hrun.invariant (fun _ _ _ hl _ hs => (Sys.stepped g hs).locked g hl)
    (Locked.create maxConns pages)
  -- the lock table is right until the page is freed
  have hstep : ∀ (s : Sys E) ev t, (Locked s ∧ Tracked s i a) → PendingOk g s ev →
      Sys.step g s ev = some t → (Locked t ∧ Tracked t i a) ∨ a ∈ t.hdr.gcs := by
    intro s ev t h hok hs
    have hst := Sys.stepped g hs
    rcases h.2.step hst h.1 hok with h' | h'
    · exact .inl ⟨hst.locked g h.1, h'⟩
    · exact .inr h'
  rcases exec_keeps_or (Q := fun t => a ∈ t.hdr.gcs) hstep hok hτ
      ⟨hl, ha, .inl ⟨hdead, hidle⟩⟩ with h | h
  · exact .inl h.2.mem
  · exact .inr h

/-- The process 1 commits an entry and keeps the page 3; then it opens a read-only transaction at
the time 100 and dies. -/
def readerDies : List (Event UInt64) :=
  [.attach 1 32, .attach 2 32, .calm 1 0 .new, .calm 2 0 .new,
    .calm 1 0 (.open false), .calm 1 0 (.find .keys 5), .calm 1 0 (.set .keys 5 false),
    .calm 1 0 (.commit true), .call 1 0 Env.calm (.open true) (some 100), .kill 1]

/-- The process 2 opens a write transaction and allocates a page at the time 105. -/
def scanSlots : List (Event UInt64) := [.calm 2 0 (.open false), .xmin 2 105]

/-- The scan clears the slot of the dead reader, and the page 3 is in no list. -/
theorem pending_reaped :
    ∃ σ, exec (Sys.step Geom.page4096) readerDies (Sys.zero 32) = some σ ∧
      σ.slotLck 0 = none ∧ 3 ∈ (σ.slots 0).pending ∧
      ¬ PendingKept Geom.page4096 σ 0 3 scanSlots := by
  have h : (exec (Sys.step Geom.page4096) readerDies (Sys.zero 32)).any
      (fun σ => decide (σ.slotLck 0 = none ∧ 3 ∈ (σ.slots 0).pending)) = true := by
    decide +kernel
  obtain ⟨σ, hσ, h⟩ := (Option.any_eq_true _ _).mp h
  obtain ⟨hdead, ha⟩ := of_decide_eq_true h
  exact ⟨σ, hσ, hdead, ha, not_keeps_or hσ (by decide +kernel) (by decide +kernel)⟩

/-- A process that dies idle leaves its pages to the next owner of the slot. -/
theorem pendingKept_idle :
    ∃ σ, exec (Sys.step Geom.page4096) (readerDies.take 8 ++ [.kill 1]) (Sys.zero 32) = some σ ∧
      PendingKept Geom.page4096 σ 0 3 [.attach 3 32] := by
  have h : (exec (Sys.step Geom.page4096) (readerDies.take 8 ++ [.kill 1]) (Sys.zero 32)).any
      (fun σ => decide (σ.slotLck 0 = none ∧ (σ.slots 0).xid = 0 ∧ 3 ∈ (σ.slots 0).pending ∧
        σ.SlotsApart)) = true := by decide +kernel
  obtain ⟨σ, hσ, h⟩ := (Option.any_eq_true _ _).mp h
  obtain ⟨hdead, hidle, ha, hslots⟩ := of_decide_eq_true h
  exact ⟨σ, hσ, pendingKept_of_pendingOk Geom.page4096 (Run.of_exec (ExecOk.trivial _ _) hσ)
    hdead hidle ha ⟨⟨hslots, fun _ _ _ _ => ⟨nofun, nofun⟩⟩, fun _ _ => trivial⟩⟩

end Eddy
