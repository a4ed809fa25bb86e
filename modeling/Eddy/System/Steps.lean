import Eddy.System.Model
import Eddy.Index.Life

/-!
# Eddy — what one step of the system can do

`Stepped` lists the steps of the system with everything their guards say, so that a proof about
runs is a case analysis over it. The lock table on the connection slots is right in every state
(`Locked`): a slot is locked exactly by the live process that owns it. From it follows that a
process never loses its own slot to another one, neither to `connAcquire` nor to `edIdxXmin`.
-/

namespace Eddy

open Outcome Runs Function

variable {E : Type} [EdEntry E] (g : Geom) {σ σ' : Sys E} {p : Nat} {ev : Event E}

/-- The steps of the system. -/
inductive Stepped (σ : Sys E) : Event E → Sys E → Prop where
  | attach (p scan i : Nat) (hn : σ.procs p = none) (hi : i < σ.nconns)
      (hfree : σ.flck p i = .ok) :
      Stepped σ (.attach p scan) { σ with
        slots := update σ.slots i (connTake (σ.slots i) p)
        slotLck := update σ.slotLck i (some p)
        procs := update σ.procs p (some ⟨i, scan, fun _ => none⟩) }
  | detach (p : Nat) (P : Proc) (hP : σ.procs p = some P) (h0 : P.objs 0 = none) :
      Stepped σ (.detach p) ((σ.modSlot P.slot connRelease).drop p P)
  | ok (p tid : Nat) (env : Env E) (c : Call E) (stamp : Option Nat) (P : Proc) (o : TxnObj)
      (s : St E) (hP : σ.procs p = some P) (ho : P.target tid c = some o)
      (hr : c.run env g (σ.view p P o.txn) = .ok () s) :
      Stepped σ (.call p tid env c stamp)
        (σ.put p P tid (o.after c true σ.hdr.xid s.txn) s stamp)
  | err (p tid : Nat) (env : Env E) (c : Call E) (stamp : Option Nat) (P : Proc) (o : TxnObj)
      (e : EdErr) (s : St E) (hP : σ.procs p = some P) (ho : P.target tid c = some o)
      (hr : c.run env g (σ.view p P o.txn) = .err e s) :
      Stepped σ (.call p tid env c stamp)
        (σ.put p P tid (o.after c false σ.hdr.xid s.txn) s stamp)
  | halt (p tid : Nat) (env : Env E) (c : Call E) (stamp : Option Nat) (P : Proc) (o : TxnObj)
      (f : EdFault) (s : St E) (hP : σ.procs p = some P) (ho : P.target tid c = some o)
      (hr : c.run env g (σ.view p P o.txn) = .halt f s) :
      Stepped σ (.call p tid env c stamp) ((σ.put p P tid none s stamp).drop p P)
  | kill (p : Nat) (P : Proc) (hP : σ.procs p = some P) : Stepped σ (.kill p) (σ.drop p P)
  | xmin (p now : Nat) (P : Proc) (hP : σ.procs p = some P) (hw : σ.writer = some p) :
      Stepped σ (.xmin p now)
        { σ with slots := (edIdxXmin σ.hdr.xid now P.slot P.scan (σ.flck p) σ.slots).1 }
  | statAcquire (p : Nat) (P : Proc) (hP : σ.procs p = some P) (hw : σ.writer = none) :
      Stepped σ (.statAcquire p) (σ.modSlot P.slot fun c => { c with xid := σ.hdr.xid })
  | statRelease (p : Nat) (P : Proc) (hP : σ.procs p = some P) :
      Stepped σ (.statRelease p) (σ.modSlot P.slot fun c => { c with xid := 0 })

theorem Sys.attach_stepped {scan : Nat} (h : σ.attach p scan = some σ') :
    Stepped g σ (.attach p scan) σ' := by
  unfold Sys.attach at h
  split at h
  · cases h
  · split at h
    · cases h
    · rename_i hn
      split at h
      · rename_i i hi
        cases h
        obtain ⟨hlt, _, hok⟩ := connAcquire_slot hi
        exact .attach p scan i hn hlt hok
      · cases h

theorem Sys.call_stepped {tid : Nat} {env : Env E} {c : Call E} {stamp : Option Nat}
    (h : σ.call g p tid env c stamp = some σ') : Stepped g σ (.call p tid env c stamp) σ' := by
  unfold Sys.call at h
  split at h
  · cases h
  · rename_i P hP
    split at h
    · cases h
    · rename_i o ho
      split at h
      · rename_i s hr
        cases h
        exact .ok p tid env c stamp P o s hP ho hr
      · rename_i e s hr
        cases h
        exact .err p tid env c stamp P o e s hP ho hr
      · rename_i f s hr
        cases h
        exact .halt p tid env c stamp P o f s hP ho hr
      · cases h

theorem Sys.stepped (h : σ.step g ev = some σ') : Stepped g σ ev σ' := by
  cases ev with
  | attach p scan => exact Sys.attach_stepped g h
  | detach p =>
    simp only [Sys.step] at h
    split at h
    · rename_i P hP
      split at h
      · cases h
      · rename_i h0
        cases h
        exact .detach p P hP (by simpa using h0)
    · cases h
  | call p tid env c stamp => exact Sys.call_stepped g h
  | kill p =>
    simp only [Sys.step, Option.map_eq_some_iff] at h
    obtain ⟨P, hP, rfl⟩ := h
    exact .kill p P hP
  | xmin p now =>
    simp only [Sys.step] at h
    split at h
    · rename_i P hP
      split at h
      · rename_i hw
        cases h
        exact .xmin p now P hP hw
      · cases h
    · cases h
  | statAcquire p =>
    simp only [Sys.step] at h
    split at h
    · rename_i P hP
      split at h
      · rename_i hw
        cases h
        exact .statAcquire p P hP hw
      · cases h
    · cases h
  | statRelease p =>
    simp only [Sys.step, Option.map_eq_some_iff] at h
    obtain ⟨P, hP, rfl⟩ := h
    exact .statRelease p P hP

/-! ## The lock table -/

/-- A slot is locked exactly by the live process that owns it. -/
structure Locked (σ : Sys E) : Prop where
  owns : ∀ p P, σ.procs p = some P → σ.slotLck P.slot = some p
  owner : ∀ i p, σ.slotLck i = some p → ∃ P, σ.procs p = some P ∧ P.slot = i

namespace Locked

variable {σ : Sys E} {p q : Nat} {P Q : Proc}

omit [EdEntry E]

variable (h : Locked σ)

include h

theorem slot_ne (hP : σ.procs p = some P) (hQ : σ.procs q = some Q) (hne : q ≠ p) :
    Q.slot ≠ P.slot := by
  intro e
  have h1 := h.owns p P hP
  have h2 := h.owns q Q hQ
  rw [e, h1] at h2
  exact hne (Option.some.inj h2).symm

theorem flck_other (hQ : σ.procs q = some Q) (hne : q ≠ p) : σ.flck p Q.slot = .again := by
  unfold Sys.flck
  rw [h.owns q Q hQ, if_neg]
  rintro (h' | h')
  · cases h'
  · exact hne (Option.some.inj h')

theorem xmin_kept (hP : σ.procs p = some P) (hQ : σ.procs q = some Q) (now : Nat) :
    (edIdxXmin σ.hdr.xid now P.slot P.scan (σ.flck p) σ.slots).1 Q.slot = σ.slots Q.slot := by
  refine edIdxXmin_kept ?_
  rintro ⟨-, -, hmine, -, hok⟩
  by_cases hqp : q = p
  · subst hqp
    rw [hP] at hQ
    cases hQ
    exact hmine rfl
  · rw [h.flck_other hQ hqp] at hok
    cases hok

theorem put (hP : σ.procs p = some P) (tid : Nat) (o : Option TxnObj) (s : St E)
    (stamp : Option Nat) : Locked (σ.put p P tid o s stamp) where
  owns q Q hQ := by
    by_cases hqp : q = p
    · subst hqp
      have hQ' : some { P with objs := update P.objs tid o } = some Q := by
        simpa [Sys.put] using hQ
      cases hQ'
      exact h.owns q P hP
    · exact h.owns q Q (by simpa [Sys.put, update_of_ne hqp] using hQ)
  owner i q hq := by
    obtain ⟨Q, hQ, rfl⟩ := h.owner i q hq
    by_cases hqp : q = p
    · subst hqp
      rw [hP] at hQ
      cases hQ
      exact ⟨{ P with objs := update P.objs tid o }, update_self .., rfl⟩
    · exact ⟨Q, by simpa [Sys.put, update_of_ne hqp] using hQ, rfl⟩

theorem drop (hP : σ.procs p = some P) : Locked (σ.drop p P) where
  owns q Q hQ := by
    by_cases hqp : q = p
    · subst hqp
      simp [Sys.drop] at hQ
    · have hQ' : σ.procs q = some Q := by simpa [Sys.drop, update_of_ne hqp] using hQ
      change update σ.slotLck P.slot none Q.slot = some q
      rw [update_of_ne (h.slot_ne hP hQ' hqp)]
      exact h.owns q Q hQ'
  owner i q hq := by
    change update σ.slotLck P.slot none i = some q at hq
    by_cases hi : i = P.slot
    · rw [hi, update_self] at hq
      cases hq
    · rw [update_of_ne hi] at hq
      obtain ⟨Q, hQ, rfl⟩ := h.owner i q hq
      have hqp : q ≠ p := by
        rintro rfl
        rw [hP] at hQ
        cases hQ
        exact hi rfl
      exact ⟨Q, by simpa [Sys.drop, update_of_ne hqp] using hQ, rfl⟩

theorem attach {scan i : Nat} (hn : σ.procs p = none) (hfree : σ.flck p i = .ok) :
    Locked { σ with
      slots := update σ.slots i (connTake (σ.slots i) p)
      slotLck := update σ.slotLck i (some p)
      procs := update σ.procs p (some ⟨i, scan, fun _ => none⟩) } where
  owns q Q hQ := by
    change update σ.procs p _ q = some Q at hQ
    change update σ.slotLck i (some p) Q.slot = some q
    by_cases hqp : q = p
    · subst hqp
      rw [update_self] at hQ
      cases hQ
      exact update_self ..
    · rw [update_of_ne hqp] at hQ
      have hi : Q.slot ≠ i := by
        rintro rfl
        rw [h.flck_other hQ hqp] at hfree
        cases hfree
      rw [update_of_ne hi]
      exact h.owns q Q hQ
  owner j q hq := by
    change update σ.slotLck i (some p) j = some q at hq
    by_cases hj : j = i
    · subst hj
      rw [update_self] at hq
      cases hq
      exact ⟨_, update_self .., rfl⟩
    · rw [update_of_ne hj] at hq
      obtain ⟨Q, hQ, rfl⟩ := h.owner j q hq
      have hqp : q ≠ p := by
        rintro rfl
        rw [hn] at hQ
        cases hQ
      exact ⟨Q, (update_of_ne hqp ..).trans hQ, rfl⟩

end Locked

theorem Stepped.locked (h : Stepped g σ ev σ') (hl : Locked σ) : Locked σ' := by
  cases h with
  | attach p scan i hn _ hfree => exact hl.attach hn hfree
  | detach p P hP _ => exact Locked.drop ⟨hl.owns, hl.owner⟩ hP
  | ok p tid env c stamp P o s hP _ _ => exact hl.put hP tid _ s stamp
  | err p tid env c stamp P o e s hP _ _ => exact hl.put hP tid _ s stamp
  | halt p tid env c stamp P o f s hP _ _ =>
    have h1 := hl.put hP tid none s stamp
    exact Locked.drop (P := { P with objs := update P.objs tid none }) h1
      (update_self ..)
  | kill p P hP => exact hl.drop hP
  | xmin p now P _ _ => exact ⟨hl.owns, hl.owner⟩
  | statAcquire p P _ _ => exact ⟨hl.owns, hl.owner⟩
  | statRelease p P _ => exact ⟨hl.owns, hl.owner⟩

omit [EdEntry E] in
theorem Locked.create (maxConns : Nat) (pages : Nat → EdBpt E) :
    Locked (Sys.create maxConns pages) where
  owns _ _ h := by cases h
  owner _ _ h := by cases h

/-! ## Who a step is about -/

/-- The process that does something. -/
def Event.actor : Event E → Nat
  | .attach p _ | .detach p | .call p _ _ _ _ | .kill p | .xmin p _ | .statAcquire p
  | .statRelease p => p

theorem Stepped.procs_other (h : Stepped g σ ev σ') {q : Nat} (hq : q ≠ ev.actor) :
    σ'.procs q = σ.procs q := by
  cases h with
  | xmin => rfl
  | statAcquire => rfl
  | statRelease => rfl
  | halt p tid env c stamp P o f s _ _ _ =>
    exact (update_of_ne hq ..).trans (update_of_ne hq ..)
  | _ => exact update_of_ne hq ..

theorem Stepped.slots_other (h : Stepped g σ ev σ') (hl : Locked σ) {q : Nat} {Q : Proc}
    (hQ : σ.procs q = some Q) (hq : q ≠ ev.actor) : σ'.slots Q.slot = σ.slots Q.slot := by
  cases h with
  | attach p scan i _ _ hfree =>
    refine update_of_ne ?_ ..
    rintro rfl
    have hbusy : σ.flck p Q.slot = .again := hl.flck_other hQ hq
    rw [hbusy] at hfree
    cases hfree
  | detach p P hP _ => exact update_of_ne (hl.slot_ne hP hQ hq) ..
  | ok p tid env c stamp P o s hP _ _ => exact update_of_ne (hl.slot_ne hP hQ hq) ..
  | err p tid env c stamp P o e s hP _ _ => exact update_of_ne (hl.slot_ne hP hQ hq) ..
  | halt p tid env c stamp P o f s hP _ _ => exact update_of_ne (hl.slot_ne hP hQ hq) ..
  | kill => rfl
  | xmin p now P hP _ => exact hl.xmin_kept hP hQ now
  | statAcquire p P hP _ => exact update_of_ne (hl.slot_ne hP hQ hq) ..
  | statRelease p P hP => exact update_of_ne (hl.slot_ne hP hQ hq) ..

section Objs

variable {tid t q scan i : Nat} {P Q : Proc} {o : Option TxnObj} {s : St E} {stamp : Option Nat}
  {x : TxnObj}

omit [EdEntry E]

theorem Sys.attach_objs (hQ : update σ.procs p (some ⟨i, scan, fun _ => none⟩) q = some Q)
    (hx : Q.objs t = some x) : σ.procs q = some Q := by
  by_cases hq : q = p
  · subst hq
    cases (update_self ..).symm.trans hQ
    cases hx
  · exact (update_of_ne hq ..).symm.trans hQ

theorem Sys.drop_procs (hQ : (σ.drop p P).procs q = some Q) : q ≠ p ∧ σ.procs q = some Q := by
  by_cases hq : q = p
  · subst hq
    cases (update_self ..).symm.trans hQ
  · exact ⟨hq, (update_of_ne hq ..).symm.trans hQ⟩

theorem Sys.put_objs (hQ : (σ.put p P tid o s stamp).procs p = some Q)
    (hx : Q.objs t = some x) :
    Q.slot = P.slot ∧ ((t = tid ∧ o = some x) ∨ (t ≠ tid ∧ P.objs t = some x)) := by
  change update σ.procs p _ p = some Q at hQ
  rw [update_self] at hQ
  cases hQ
  change update P.objs tid o t = some x at hx
  refine ⟨rfl, ?_⟩
  by_cases ht : t = tid
  · subst ht
    rw [update_self] at hx
    exact .inl ⟨rfl, hx⟩
  · rw [update_of_ne ht] at hx
    exact .inr ⟨ht, hx⟩

theorem Sys.put_old (hP : σ.procs p = some P) (hQ : (σ.put p P tid o s stamp).procs q = some Q)
    (hx : Q.objs t = some x) :
    (t = tid ∧ o = some x) ∨ ∃ Q', σ.procs q = some Q' ∧ Q'.objs t = some x := by
  by_cases hq : q = p
  · subst hq
    rcases (Sys.put_objs hQ hx).2 with h | ⟨-, hx'⟩
    · exact .inl h
    · exact .inr ⟨P, hP, hx'⟩
  · exact .inr ⟨Q, (update_of_ne hq ..).symm.trans hQ, hx⟩

end Objs

end Eddy
