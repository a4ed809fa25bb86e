import Eddy.Index.Life
import Eddy.Index.Start

/-!
# Eddy — opening a transaction after the last one

A transaction object keeps up to eleven pages when it is closed with a reset, and the connection
lists the same pages as pending. The next open for writing compares the two: a pending page that the
object still has stays with it, any other pending page goes back to the free list.
-/

namespace Eddy

open Outcome List

variable {E : Type} {env : Env E}

/-! ## The pages passed to the free list -/

/-- Between two states exactly the pages `pgs` were passed to `ed_free_pgno`: each of them is in the
free list, or is lost because the call failed. -/
def PassedOn (s s' : St E) (pgs : List Nat) : Prop :=
  (s'.hdr.free ++ s'.lost).Perm (s.hdr.free ++ s.lost ++ pgs ++ grown s.hdr s'.hdr)

theorem PassedOn.count_eq {s s' : St E} {pgs pgs' : List Nat} (h : PassedOn s s' pgs)
    (h' : PassedOn s s' pgs') (p : Nat) : pgs.count p = pgs'.count p := by
  have hp := h.symm.trans h' |>.count_eq p
  simp only [count_append] at hp
  omega

theorem Opened.passedOn {s s' : St E} (h : Opened env false s s') :
    PassedOn s s' (s.hdr.active ++ inactivePending s.conn.pending s.txn.pg) := by
  obtain ⟨-, -, -, -, inn, out, hf, hlost, hcases⟩ := h.write rfl
  have hperm := hf.moves.perm
  unfold PassedOn
  rw [hlost, perm_iff_count]
  intro p
  have hp := hperm.count_eq p
  rcases hcases with ⟨rfl, rfl⟩ | ⟨rfl, rfl, -⟩ <;>
  · simp only [count_append, count_nil] at hp ⊢
    omega

/-! ## The comparison of the two lists -/

/-- What an open for writing does with the pages left by the last transaction: the object's pages
are noted as active, the other pending pages go to the free list once, and no page of the object
does. -/
structure PendingSplit (s s' : St E) : Prop where
  active : ∀ p ∈ s.txn.pg, p ∈ s'.hdr.active
  back : ∃ back, PassedOn s s' (s.hdr.active ++ back) ∧
    (∀ p ∈ s.conn.pending, p ∉ s.txn.pg → back.count p = 1) ∧
    ∀ p ∈ s.txn.pg, p ∉ s.hdr.active ++ back

/-- The lists that are split as they should be: the object has no pages, or it has every pending
page. Pages of an abandoned transaction are not the object's. -/
structure Splittable (pending pg active : List Nat) : Prop where
  lists : (pg = [] ∧ pending.Nodup) ∨ ∀ p ∈ pending, p ∈ pg
  apart : ∀ p ∈ active, p ∉ pg

theorem inactivePending_cons (pending : List Nat) (q : Nat) (pg : List Nat) :
    inactivePending pending (q :: pg) = [] := by
  unfold inactivePending
  rw [filter_eq_nil_iff]
  intro p _
  by_cases h : p = q <;> simp [pendingIndex, h]

theorem inactivePending_nil (pending : List Nat) : inactivePending pending [] = pending := by
  unfold inactivePending
  rw [filter_eq_self]
  intro p _
  rfl

theorem count_inactivePending_iff (pending pg : List Nat) :
    (∀ p ∈ pending, p ∉ pg → (inactivePending pending pg).count p = 1) ↔
      (pg = [] ∧ pending.Nodup) ∨ ∀ p ∈ pending, p ∈ pg := by
  cases pg with
  | nil =>
    rw [inactivePending_nil]
    constructor
    · intro h
      refine .inl ⟨rfl, nodup_iff_count_le_one.mpr fun p => ?_⟩
      by_cases hp : p ∈ pending
      · exact (h p hp not_mem_nil).le
      · rw [count_eq_zero.mpr hp]
        exact Nat.zero_le 1
    · intro h p hp _
      rcases h with ⟨-, hnd⟩ | hsub
      · exact count_eq_one_of_mem hnd hp
      · exact absurd (hsub p hp) not_mem_nil
  | cons q pg =>
    rw [inactivePending_cons]
    constructor
    · intro h
      refine .inr fun p hp => ?_
      by_contra hnot
      exact absurd (h p hp hnot) (by simp)
    · intro h p hp hnot
      rcases h with ⟨hnil, -⟩ | hsub
      · cases hnil
      · exact absurd (hsub p hp) hnot

theorem not_mem_inactivePending {pending pg : List Nat} {p : Nat} (hp : p ∈ pg) :
    p ∉ inactivePending pending pg := by
  cases pg with
  | nil => exact absurd hp not_mem_nil
  | cons q pg =>
    rw [inactivePending_cons]
    exact not_mem_nil

/-- A successful open for writing splits the pending pages exactly when the object has none of the
pages or all of them. -/
theorem edTxnOpen_splits_iff {s s' : St E} (hrun : edTxnOpen env false s = .ok () s') :
    PendingSplit s s' ↔ Splittable s.conn.pending s.txn.pg s.hdr.active := by
  have hopen : Opened env false s s' := wp_ok (edTxnOpen_spec env false s) hrun
  obtain ⟨-, -, -, hact, -⟩ := hopen.write rfl
  have hpassed := hopen.passedOn
  constructor
  · rintro ⟨-, back, hback, hpend, hown⟩
    -- The list `back` of the specification and that of the code have the same pages.
    have hcount : ∀ p, back.count p = (inactivePending s.conn.pending s.txn.pg).count p := by
      intro p
      have hp := hback.count_eq hpassed p
      simp only [count_append] at hp
      omega
    refine ⟨(count_inactivePending_iff _ _).mp fun p hp hnot => ?_, fun p hp hpg => ?_⟩
    · rw [← hcount]
      exact hpend p hp hnot
    · exact hown p hpg (mem_append_left _ hp)
  · intro h
    refine ⟨fun p hp => by rwa [hact], _, hpassed, (count_inactivePending_iff _ _).mpr h.lists, ?_⟩
    intro p hp hmem
    rcases mem_append.mp hmem with ha | hi
    · exact h.apart p ha hp
    · exact not_mem_inactivePending hp hi

/-! ## Two small states -/

/-- An index without trees, and a closed transaction object that has the pages `pg`. -/
def closedSt (pending pg : List Nat) : St UInt64 where
  pages _ := EdBpt.zero
  hdr := {
    xid := 1, vno := 0, tree := fun _ => none, active := [], gcs := []
    tailStart := 12, tailCount := 4 }
  conn := { xid := 0, pending := pending }
  txn := { EdTxn.blank with pg := pg, npgslot := pg.length }
  lck := false
  busy := false
  lost := []
  tick := 0

/-- The object has both pending pages. -/
theorem edTxnOpen_splits_both : PendingSplit (closedSt [2, 3] [2, 3])
    (Prog.after (edTxnOpen Env.calm false) (closedSt [2, 3] [2, 3])) := by
  obtain ⟨⟨⟩, hrun, -⟩ := ok_of_returns
    (show Prog.returns (edTxnOpen Env.calm false) (fun _ => true) (closedSt [2, 3] [2, 3]) = true by
      decide +kernel)
  exact (edTxnOpen_splits_iff hrun).mpr ⟨.inr (by decide), by decide⟩

/-- The object has one page and another page is pending: the pending one is in no list after the
open. -/
theorem edTxnOpen_loses_pending :
    ∃ s', edTxnOpen Env.calm false (closedSt [3] [2]) = .ok () s' ∧
      ¬ PendingSplit (closedSt [3] [2]) s' ∧
      3 ∉ s'.hdr.free ++ s'.hdr.active ++ s'.conn.pending ++ s'.txn.pg := by
  obtain ⟨⟨⟩, hrun, -⟩ := ok_of_returns
    (show Prog.returns (edTxnOpen Env.calm false) (fun _ => true) (closedSt [3] [2]) = true by
      decide +kernel)
  refine ⟨_, hrun, ?_, by decide +kernel⟩
  rintro ⟨-, back, hback, hpend, -⟩
  have hnone : PassedOn (closedSt [3] [2])
      (Prog.after (edTxnOpen Env.calm false) (closedSt [3] [2])) ([] ++ []) := by
    unfold PassedOn
    rw [show (Prog.after (edTxnOpen Env.calm false) (closedSt [3] [2])).lost = [] by
      decide +kernel]
    decide +kernel
  have hcount := hback.count_eq hnone 3
  have hone : back.count 3 = 1 := hpend 3 (by decide) (by decide)
  rw [count_append, hone] at hcount
  simp at hcount

end Eddy
