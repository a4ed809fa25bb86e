import Eddy.System.Isolated

/-!
# Eddy — a write transaction on two multimaps

A write transaction modifies both trees of the index. Seen from outside, it replaces two sorted
lists at once or not at all.
-/

namespace Eddy

open Outcome

variable {E : Type} [EdEntry E] {env : Env E} {g : Geom}

variable (g) in
/-- A transaction that is opened on the file of `s`, by whatever process, reads the lists `L`. -/
def ReadsAs (L : EdDb → List E) (s : St E) : Prop :=
  ∀ env rdonly s3 s4, s3.pages = s.pages → s3.hdr = s.hdr → edTxnOpen env rdonly s3 = .ok () s4 →
    ∃ hs, Holds g L s4.pages (rootNo s4) hs

variable {P : EdDb → Mod E → Prop} {L : EdDb → List E} {s s0 s1 : St E} {hs : EdDb → Nat}

theorem Shows.readsAs {S : Nat → EdBpt E} {tree : EdDb → Option Nat} (h : Shows S tree hs s)
    (hL : Holds g L S tree hs) : ReadsAs g L s := by
  intro env rdonly s3 s4 hpages hhdr hopen
  refine ⟨hs, fun d => ?_⟩
  obtain ⟨hroot, hS⟩ := h env rdonly s3 s4 hpages hhdr hopen d
  rw [hroot]
  exact ⟨(hL d).1.congr hS, (treeEnts_congr hS).trans (hL d).2⟩

/-- A write transaction on an index with any history. During it and after its close, every transaction
that is opened reads the old lists, also when a modification failed. After a commit it reads what the
modifications make of both lists. A commit that fails leaves the old lists, one that is killed both
old or both new ones. -/
theorem txn_atomic (hg : g.leafOrder < 2 ^ 16) (hcalm : ¬ Refused env) (h : Served g P L s)
    (hopen : edTxnOpen env false s = .ok () s0) (ms : List (EdDb × Mod E))
    (hrun : runMods env g ms s0 = .ok () s1 ∨ ∃ e, runMods env g ms s0 = .err e s1) (reset : Bool) :
    ReadsAs g L s1 ∧
    wp (edTxnClose env reset) (fun _ s2 => ReadsAs g L s2)
      ⟨fun _ _ => False, fun _ s2 => ReadsAs g L s2, False⟩ s1 ∧
    (runMods env g ms s0 = .ok () s1 →
      wp (edTxnCommit env reset) (fun _ s2 => ReadsAs g (applyMods L ms) s2)
        ⟨fun _ s2 => ReadsAs g L s2, fun _ s2 => ReadsAs g L s2 ∨ ReadsAs g (applyMods L ms) s2,
          False⟩ s1) := by
  obtain ⟨T, hs, hr, hL⟩ := h.stored hg
  have hst := (hr.opened hopen).1
  have hstep : Step s0 s1 := by
    have hspec : wp (runMods env g ms) _ _ s0 := runMods_step hst.ready ms
    rcases hrun with h | ⟨e, h⟩
    · exact wp_ok hspec h
    · exact wp_err hspec h
  have hd := hr.during hopen hstep
  have hold : ∀ s2, Unpublished T s s2 → ReadsAs g L s2 := fun s2 hun =>
    (hun.shows hr.standing).readsAs hL.1
  have hsame : ∀ s2 : St E, s2.pages = s1.pages ∧ s2.hdr.tree = s1.hdr.tree ∧
      s2.hdr.xid = s1.hdr.xid ∧ s2.hdr.vno = s1.hdr.vno → ReadsAs g L s2 := fun s2 h =>
    hold s2 (hd.unpublished.of_same h)
  refine ⟨hold s1 hd.unpublished, ?_, fun hok => ?_⟩
  · exact (ended_spec hd.isOpen hsame (fun _ _ _ => trivial) reset).1
  · obtain ⟨-, hs1, -, hL1⟩ := h.modified hg hcalm hopen hok
    refine (ended_spec hd.isOpen hsame (fun s2 hp ht => ?_) reset).2
    exact Shows.readsAs (shows_of_same ht fun d p _ => by rw [hp]) hL1

/-- An insertion into each tree. -/
def bothMods : List (EdDb × Mod UInt64) := [(.keys, .set 5 false), (.blocks, .set 8 false)]

theorem txn_atomic_both : ∃ s0 s1, edTxnOpen Env.calm false firstSt = .ok () s0 ∧
    runMods Env.calm .page4096 bothMods s0 = .ok () s1 ∧
    ReadsAs .page4096 (fun d => if d = .keys then [9] else [7]) s1 ∧
    wp (edTxnCommit Env.calm true)
      (fun _ s2 => ReadsAs .page4096 (fun d => if d = .keys then [5, 9] else [7, 8]) s2)
      Prog.free s1 := by
  obtain ⟨⟨⟩, hboth, -⟩ := ok_of_returns (show Prog.returns (do
      edTxnOpen Env.calm false
      runMods Env.calm .page4096 bothMods) (fun _ => true) firstSt = true by decide +kernel)
  obtain ⟨⟨⟩, s0, hopen, hrun⟩ := ok_bind hboth
  generalize Prog.after _ firstSt = s1 at hrun
  obtain ⟨hold, -, hcommit⟩ := txn_atomic (by decide) calm_grants firstSt_served hopen bothMods
    (.inl hrun) true
  have hfirst : applyMods (fun _ => []) firstTxn.mods =
      fun d => if d = .keys then ([9] : List UInt64) else [7] := by
    funext d
    cases d <;> rfl
  have hboth : applyMods (applyMods (fun _ => []) firstTxn.mods) bothMods =
      fun d => if d = .keys then [5, 9] else [7, 8] := by
    funext d
    cases d <;> rfl
  exact ⟨s0, s1, hopen, hrun, hfirst ▸ hold, wp_free (hcommit hrun) fun _ _ h => hboth ▸ h⟩

end Eddy
