import Eddy.System.Writers

/-!
# Eddy — the pages of a writer that was killed

A write transaction notes its pages in `hdr->active`. When its process dies they stay there, and
the next transaction that is opened for writing puts them into the free list. But `ed_txn_close`
clears `hdr->active` whenever it has the write lock, and it takes that lock for every transaction
that still has pages from before, also for a read-only one: then the pages of the dead writer are
in no list any more.
-/

namespace Eddy

open Outcome Runs List Function

variable {E : Type}

/-- After the events the page `a` is still in `hdr->active`, or it was put into the free list on
the way. -/
def KeptOrFreed [EdEntry E] (g : Geom) (σ : Sys E) (a : Nat) (events : List (Event E)) : Prop :=
  ∀ τ, exec (Sys.step g) events σ = some τ →
    a ∈ τ.hdr.active ∨ ∃ n m, exec (Sys.step g) (events.take n) σ = some m ∧ a ∈ m.hdr.gcs

/-- While `hdr->active` has pages, no transaction that is not an open write transaction is closed
with cached pages by a process that can get the write lock. -/
def NoCachedClose (σ : Sys E) (ev : Event E) : Prop :=
  σ.SlotsApart ∧ match ev with
  | .call p tid _ c _ => c.closes = true → σ.hdr.active ≠ [] →
      (σ.writer = none ∨ σ.writer = some p) → ∀ P o, σ.procs p = some P → P.objs tid = some o →
      o.txn.Writer ∨ o.txn.pg = []
  | _ => True

/-- No write transaction is open. -/
def NoWriter (σ : Sys E) : Prop :=
  ∀ p P tid o, σ.procs p = some P → P.objs tid = some o → ¬ o.txn.Writer

theorem WriterLck.noWriter {σ : Sys E} (h : WriterLck σ) (hw : σ.writer = none) : NoWriter σ := by
  intro p P tid o hP ho hwr
  have hlck := (h.lck p P tid o hP ho hwr).1
  rw [hw] at hlck
  cases hlck

/-! ## Steps -/

namespace NoWriter

variable {σ σ' : Sys E} {p tid : Nat} {P : Proc} {o : TxnObj} {c : Call E} {s : St E}

theorem target (h : NoWriter σ) (hP : σ.procs p = some P) (ho : P.target tid c = some o) :
    ¬ o.txn.Writer := by
  rcases Proc.target_spec ho with ⟨-, -, rfl⟩ | ⟨-, hobj, -⟩
  · intro hw
    exact absurd rfl hw.1
  · exact h p P tid o hP hobj

theorem drop (h : NoWriter σ) (p : Nat) (P : Proc) : NoWriter (σ.drop p P) :=
  fun q Q t x hQ hx => h q Q t x (Sys.drop_procs hQ).2 hx

theorem put (h : NoWriter σ) (hP : σ.procs p = some P) {o' : Option TxnObj} (stamp : Option Nat)
    (hobj : ∀ x, o' = some x → ¬ x.txn.Writer) : NoWriter (σ.put p P tid o' s stamp) := by
  intro q Q t x hQ hx
  rcases Sys.put_old hP hQ hx with ⟨-, e⟩ | ⟨Q', hQ', hx'⟩
  · exact hobj x e
  · exact h q Q' t x hQ' hx'

theorem hdr_kept (h : NoWriter σ) (hP : σ.procs p = some P) (ho : P.target tid c = some o)
    (hne : c ≠ .open false) {env : Env E} {stamp : Option Nat}
    (hend : Ended env c (σ.view p P o.txn) s) (hact : σ.hdr.active ≠ [])
    (hok : NoCachedClose σ (.call p tid env c stamp)) : s.hdr = σ.hdr := by
  have hw := h.target hP ho
  refine (hend.harmless hw (fun hcl hl => ?_) (Proc.target_tree ho) hne).hdr
  -- a close under the lock is one with cached pages
  rcases hl.yes rfl with hw' | ⟨hpg, hbusy⟩
  · exact hw hw'
  · have hfree : σ.writer = none ∨ σ.writer = some p := by
      simpa [Sys.view, Classical.or_iff_not_imp_left] using hbusy
    rcases Proc.target_spec ho with ⟨rfl, -⟩ | ⟨-, hobj, -⟩
    · cases hcl
    · rcases hok.2 hcl hact hfree P o hP hobj with hw' | hpg'
      · exact hw hw'
      · exact hpg hpg'

variable [EdEntry E] {g : Geom} {a : Nat}

/-- A step keeps an abandoned page in `hdr->active` or puts it into the free list. -/
theorem step {ev : Event E} (hs : Stepped g σ ev σ') (h : NoWriter σ) (ha : a ∈ σ.hdr.active)
    (hok : NoCachedClose σ ev) :
    (NoWriter σ' ∧ a ∈ σ'.hdr.active) ∨ a ∈ σ'.hdr.gcs := by
  have hact : σ.hdr.active ≠ [] := ne_nil_of_mem ha
  cases hs with
  | attach p scan i _ _ _ =>
    exact .inl ⟨fun q Q t x hQ hx => h q Q t x (Sys.attach_objs hQ hx) hx, ha⟩
  | detach p P hP _ =>
    have h' : NoWriter (σ.modSlot P.slot connRelease) := h
    exact .inl ⟨h'.drop p P, ha⟩
  | ok p tid env c stamp P o s hP ho hr =>
    have hc := wp_ok (Call.run_spec env g c _) hr
    by_cases hne : c = .open false
    · -- the new writer puts the abandoned pages into the free list
      subst hne
      obtain ⟨-, -, -, -, inn, out, hf, -, -⟩ := Opened.write hc rfl
      exact .inr (hf.gcs a (.inr (mem_append_left inn ha)))
    · refine .inl ⟨h.put hP stamp fun x hx => OpenAfter.not_writer (fun hopen =>
        hc.openAfter hx hopen) ho rfl (h.target hP ho) hne, ?_⟩
      exact (h.hdr_kept hP ho hne (.inl hc) hact hok).symm ▸ ha
  | err p tid env c stamp P o e s hP ho hr =>
    have hc := wp_err (Call.run_spec env g c _) hr
    by_cases hne : c = .open false
    · subst hne
      have hactive : s.hdr.active = σ.hdr.active := OpenFailed.active hc
      refine .inl ⟨h.put hP stamp fun x hx hw => ?_, hactive ▸ ha⟩
      obtain ⟨nodes, nused, db, xid, vno, ht⟩ := OpenFailed.txn hc
      rw [TxnObj.after_txn hx, ht] at hw
      exact h.target hP ho hw
    · refine .inl ⟨h.put hP stamp fun x hx => OpenAfter.not_writer (fun hopen =>
        Call.err_openAfter hc rfl hx hopen) ho rfl (h.target hP ho) hne, ?_⟩
      exact (h.hdr_kept hP ho hne (.inr (.inl ⟨e, hc⟩)) hact hok).symm ▸ ha
  | halt p tid env c stamp P o f s hP ho hr =>
    have hc := wp_halted (Call.run_spec env g c _) hr
    have hne : c ≠ .open false := by
      rintro rfl
      cases hc
    have h' : NoWriter (σ.put p P tid none s stamp) := h.put hP stamp (by rintro x ⟨⟩)
    refine .inl ⟨h'.drop p P, ?_⟩
    show a ∈ s.hdr.active
    exact (h.hdr_kept hP ho hne (.inr (.inr ⟨f, hc⟩)) hact hok).symm ▸ ha
  | kill p P _ => exact .inl ⟨h.drop p P, ha⟩
  | xmin => exact .inl ⟨h, ha⟩
  | statAcquire => exact .inl ⟨h, ha⟩
  | statRelease => exact .inl ⟨h, ha⟩

end NoWriter

variable [EdEntry E] (g : Geom)

/-- When nobody has the write lock in a state that was reached from a new index (the writer was
killed), every page in `hdr->active` is still there after any events that meet the condition, or
it was put into the free list. -/
theorem keptOrFreed_of_noCachedClose {maxConns : Nat} {pages : Nat → EdBpt E} {σ : Sys E}
    (hrun : Run (Sys.step g) (fun _ _ => True) (Sys.create maxConns pages) σ)
    (hkilled : σ.writer = none) {a : Nat} (ha : a ∈ σ.hdr.active) {events : List (Event E)}
    (hok : ExecOk (Sys.step g) NoCachedClose events σ) : KeptOrFreed g σ a events := by
  intro τ hτ
  have hw : NoWriter σ := (WriterLck.of_run hrun).noWriter hkilled
  rcases exec_keeps_or (P := fun σ => NoWriter σ ∧ a ∈ σ.hdr.active)
      (Q := fun σ => a ∈ σ.hdr.gcs)
      (fun _ _ _ h hok hs => NoWriter.step (Sys.stepped g hs) h.1 h.2 hok) hok hτ ⟨hw, ha⟩ with h | h
  · exact .inl h.2
  · exact .inr h

/-- The process 1 commits an entry and keeps a page for its next transaction; then the process 2
is killed in the middle of a write transaction. -/
def writerKilled : List (Event UInt64) :=
  [.attach 1 32, .attach 2 32, .calm 1 0 .new, .calm 2 0 .new,
    .calm 1 0 (.open false), .calm 1 0 (.find .keys 5), .calm 1 0 (.set .keys 5 false),
    .calm 1 0 (.commit true),
    .calm 2 0 (.open false), .calm 2 0 (.find .keys 7), .calm 2 0 (.set .keys 7 false), .kill 2]

/-- The process 1 looks up a key. -/
def lookup : List (Event UInt64) := [.calm 1 0 (.open true), .calm 1 0 (.close true)]

/-- The state after the kill: nobody has the write lock and the page 5 of the killed writer is in
`hdr->active`. -/
theorem writerKilled_state : ∃ σ, exec (Sys.step Geom.page4096) writerKilled (Sys.zero 32) = some σ ∧
    σ.writer = none ∧ 5 ∈ σ.hdr.active ∧ σ.SlotsApart := by
  have h : (exec (Sys.step Geom.page4096) writerKilled (Sys.zero 32)).any (fun σ => decide
      (σ.writer = none ∧ 5 ∈ σ.hdr.active ∧ σ.SlotsApart)) = true := by
    decide +kernel
  obtain ⟨σ, hσ, h⟩ := (Option.any_eq_true _ _).mp h
  exact ⟨σ, hσ, of_decide_eq_true h⟩

/-- After the lookup that page is neither in `hdr->active` nor was it ever put into the free list. -/
theorem abandoned_lost :
    ∃ σ, exec (Sys.step Geom.page4096) writerKilled (Sys.zero 32) = some σ ∧
      σ.writer = none ∧ 5 ∈ σ.hdr.active ∧ ¬ KeptOrFreed Geom.page4096 σ 5 lookup := by
  obtain ⟨σ, hσ, hw, ha, -⟩ := writerKilled_state
  exact ⟨σ, hσ, hw, ha, not_keeps_or hσ (by decide +kernel) (by decide +kernel)⟩

/-- The next writer puts the page into the free list. -/
theorem keptOrFreed_open :
    ∃ σ, exec (Sys.step Geom.page4096) writerKilled (Sys.zero 32) = some σ ∧
      KeptOrFreed Geom.page4096 σ 5 [.calm 1 0 (.open false)] := by
  obtain ⟨σ, hσ, hw, ha, hslots⟩ := writerKilled_state
  exact ⟨σ, hσ, keptOrFreed_of_noCachedClose Geom.page4096
    (Run.of_exec (ExecOk.trivial _ _) hσ) hw ha ⟨⟨hslots, nofun⟩, fun _ _ => trivial⟩⟩

end Eddy
