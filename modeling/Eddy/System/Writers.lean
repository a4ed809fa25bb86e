import Eddy.System.Xid

/-!
# Eddy — who holds the write lock

Only the transaction of a handle is ever opened for writing, and its process holds the write lock
as long as it is open. The transactions of lists have no pages of their own.
-/

namespace Eddy

open Outcome Runs Function

variable {E : Type} {reset : Bool} {s : St E} {P : Proc} {env : Env E}

/-! ## Calls that change no page list -/

/-- The pages, the page lists and the locks are as before. -/
structure Harmless (s s' : St E) : Prop where
  pages : s'.pages = s.pages
  hdr : s'.hdr = s.hdr
  pending : s'.conn.pending = s.conn.pending
  lck : s'.lck = s.lck
  lost : s'.lost = s.lost

section Call

variable {env : Env E} {c : Call E} {s s' : St E}

theorem not_closeLock (hw : ¬ s.txn.Writer) (hpg : s.txn.pg = []) : ¬ CloseLock s true := by
  intro h
  rcases h.yes rfl with h | ⟨h, -⟩
  · exact hw h
  · exact h hpg

theorem not_closeLock_busy (hw : ¬ s.txn.Writer) (hbusy : s.busy = true) :
    ¬ CloseLock s true := by
  intro h
  rcases h.yes rfl with h | ⟨-, h⟩
  · exact hw h
  · rw [hbusy] at h
    cases h

theorem Closed.harmless {locked : Bool} (hl : CloseLock s locked) (h : Closed env reset locked s s')
    (hno : ¬ CloseLock s true) : Harmless s s' := by
  cases locked with
  | true => exact absurd hl hno
  | false =>
    obtain ⟨hhdr, hpend, hlck, hlost⟩ := h.unlocked rfl
    exact ⟨h.pages, hhdr, hpend, hlck, hlost⟩

theorem CloseHalt.harmless {f : EdFault} (h : CloseHalt reset s f s') (hno : ¬ CloseLock s true) :
    Harmless s s' := by
  cases h with
  | closeBegin => exact ⟨rfl, rfl, rfl, rfl, rfl⟩
  | pendingBegin _ _ hl => exact absurd hl hno
  | pendingFinish _ _ hl => exact absurd hl hno

theorem Stayed.harmless (h : Stayed s s') (hrd : s.txn.isrdonly = true) : Harmless s s' where
  pages := (h.reads hrd).pages
  hdr := (h.reads hrd).hdr
  pending := (congrArg (fun f => f.conn.pending) h.near.fixed :)
  lck := (congrArg Fixed.lck h.near.fixed :)
  lost := (congrArg Fixed.lost h.near.fixed :)

theorem Ended.new_eq (h : Ended env .new s s') :
    ∃ xid, s' = { s with txn := s'.txn, tick := s'.tick, conn := { s.conn with xid := xid } } := by
  rcases h with ⟨h, -⟩ | ⟨_, h⟩ | ⟨_, h⟩
  · exact ⟨s.conn.xid, h⟩
  · exact ⟨0, h⟩
  · exact ⟨s.conn.xid, h⟩

theorem isrdonly_of_not_writer {t : EdTxn} (hw : ¬ t.Writer) (hopen : t.state = .open) :
    t.isrdonly = true := by
  by_contra hrd
  refine hw ⟨?_, by simpa using hrd⟩
  rw [hopen]
  decide

/-- A call on a transaction that is not a writer, other than to open it for writing or to close it
under the lock. -/
theorem Ended.harmless (h : Ended env c s s') (hw : ¬ s.txn.Writer)
    (hno : c.closes = true → ¬ CloseLock s true) (htree : c.onTree = true → s.txn.state = .open)
    (ho : c ≠ .open false) : Harmless s s' := by
  cases c with
  | new =>
    obtain ⟨xid, e⟩ := h.new_eq
    rw [e]
    exact ⟨rfl, rfl, rfl, rfl, rfl⟩
  | «open» rdonly =>
    cases rdonly with
    | false => exact absurd rfl ho
    | true =>
      rcases h with h | ⟨_, h⟩ | ⟨_, h⟩
      · obtain ⟨hhdr, hpend, hlck, hlost⟩ := Opened.read h rfl
        exact ⟨Opened.pages h, hhdr, hpend, hlck, hlost⟩
      · exact ⟨OpenFailed.pages h, OpenFailed.read h rfl, OpenFailed.pending h,
          OpenFailed.lck h (.inl rfl), OpenFailed.lost h⟩
      · cases h
  | commit reset =>
    rcases h with ⟨hopen, hrd, -⟩ | ⟨_, h⟩ | ⟨f, hopen, h⟩
    · exact absurd (writer_of_isrdonly hopen hrd) hw
    · rcases h with ⟨-, rfl⟩ | ⟨-, -, locked, hl, hc⟩
      · exact ⟨rfl, rfl, rfl, rfl, rfl⟩
      · exact hc.harmless hl (hno rfl)
    · rcases h with ⟨-, h⟩ | ⟨hrd, -⟩
      · exact h.harmless (hno rfl)
      · exact absurd (writer_of_isrdonly hopen hrd) hw
  | close reset =>
    rcases h with ⟨locked, hl, hc⟩ | ⟨_, h⟩ | ⟨f, h⟩
    · exact hc.harmless hl (hno rfl)
    · cases h
    · exact CloseHalt.harmless h (hno rfl)
  | _ =>
    have hrd := isrdonly_of_not_writer hw (htree rfl)
    rcases h with h | ⟨_, h⟩ | ⟨_, h⟩
    · exact Stayed.harmless h hrd
    · exact Stayed.harmless h hrd
    · exact Stayed.harmless h hrd

theorem Ended.lck_busy (h : Ended env c s s') (hw : ¬ s.txn.Writer) (hbusy : s.busy = true)
    (htree : c.onTree = true → s.txn.state = .open) : s'.lck = s.lck := by
  by_cases ho : c = .open false
  · subst ho
    rcases h with h | ⟨_, h⟩ | ⟨_, h⟩
    · rw [(Opened.write h rfl).1] at hbusy
      cases hbusy
    · exact OpenFailed.lck h (.inr hbusy)
    · cases h
  · exact (h.harmless hw (fun _ => not_closeLock_busy hw hbusy) htree ho).lck

theorem pg_nil_of_closed {locked : Bool} (hl : CloseLock s locked)
    (h : Closed env reset locked s s') (hw : ¬ s.txn.Writer) (hpg : s.txn.pg = []) :
    s'.txn.pg = [] := by
  cases locked with
  | true => exact absurd hl (not_closeLock hw hpg)
  | false =>
    rw [h.txn]
    cases reset with
    | true => exact hpg
    | false => rfl

theorem Called.pg_nil (h : Called env s c s') (hw : ¬ s.txn.Writer) (hpg : s.txn.pg = [])
    (htree : c.onTree = true → s.txn.state = .open) : s'.txn.pg = [] := by
  cases c with
  | new => exact h.2.pg
  | «open» rdonly =>
    obtain ⟨nodes, nused, db, ht⟩ := Opened.txn h
    rw [ht]
    exact hpg
  | commit reset => exact absurd (writer_of_isrdonly h.1 h.2.1) hw
  | close reset =>
    obtain ⟨locked, hl, hc⟩ := h
    exact pg_nil_of_closed hl hc hw hpg
  | _ => exact (Stayed.reads h (isrdonly_of_not_writer hw (htree rfl))).pg.trans hpg

theorem Call.err_pg_nil {e : EdErr} (h : (c.exits env s).err e s') (hw : ¬ s.txn.Writer)
    (hpg : s.txn.pg = []) (htree : c.onTree = true → s.txn.state = .open) (hc : c ≠ .new) :
    s'.txn.pg = [] := by
  cases c with
  | new => exact absurd rfl hc
  | «open» rdonly =>
    obtain ⟨nodes, nused, db, xid, vno, ht⟩ := OpenFailed.txn h
    rw [ht]
    exact hpg
  | commit reset =>
    rcases h with ⟨-, rfl⟩ | ⟨-, -, locked, hl, hc⟩
    · exact hpg
    · exact pg_nil_of_closed hl hc hw hpg
  | close reset => cases h
  | _ => exact (Stayed.reads h (isrdonly_of_not_writer hw (htree rfl))).pg.trans hpg

end Call

/-- A call other than one to open a write transaction makes no writer of a transaction that is
none. -/
theorem OpenAfter.not_writer {c : Call E} {s' : St E} {tid : Nat} {o x : TxnObj}
    (h : x.txn.state ≠ .closed → OpenAfter c s s' o x) (ho : P.target tid c = some o)
    (hs : s.txn = o.txn) (hw : ¬ o.txn.Writer) (hne : c ≠ .open false) : ¬ x.txn.Writer := by
  intro hxw
  rcases (h hxw.1).target ho with ⟨-, -, hopened⟩ | ⟨-, hst, htxn, -⟩
  · exact hne (hopened hxw).2.2
  · have hstate : s'.txn.state = s.txn.state := (congrArg Fixed.state hst.near.fixed :)
    have hrd : s'.txn.isrdonly = s.txn.isrdonly := (congrArg Fixed.isrdonly hst.near.fixed :)
    rw [hs] at hstate hrd
    rw [htxn] at hxw
    exact hw ⟨hstate ▸ hxw.1, hrd ▸ hxw.2⟩

/-! ## The write lock -/

/-- Only the transaction of a handle is opened for writing, and then its process has the write
lock; the other transactions have no pages. -/
structure WriterLck (σ : Sys E) : Prop where
  lck : ∀ p P tid o, σ.procs p = some P → P.objs tid = some o → o.txn.Writer →
    σ.writer = some p ∧ tid = 0
  lists : ∀ p P tid o, σ.procs p = some P → P.objs tid = some o → tid ≠ 0 → o.txn.pg = []

theorem Proc.target_write {tid : Nat} {o : TxnObj}
    (h : P.target tid (.open false : Call E) = some o) : tid = 0 := by
  unfold Proc.target at h
  by_contra hne
  cases ho : P.objs tid with
  | none => simp [ho] at h
  | some x => simp [ho, hne] at h

namespace WriterLck

variable {σ σ' : Sys E} {p tid : Nat} {P : Proc} {o : TxnObj} {c : Call E}

theorem target (h : WriterLck σ) (hP : σ.procs p = some P) (ho : P.target tid c = some o) :
    (o.txn.Writer → σ.writer = some p ∧ tid = 0) ∧ (tid ≠ 0 → o.txn.pg = []) := by
  rcases Proc.target_spec ho with ⟨-, -, rfl⟩ | ⟨-, hobj, -⟩
  · exact ⟨fun hw => absurd rfl hw.1, fun _ => rfl⟩
  · exact ⟨h.lck p P tid o hP hobj, h.lists p P tid o hP hobj⟩

theorem harmless (h : WriterLck σ) (hP : σ.procs p = some P) (ho : P.target tid c = some o)
    (htid : tid ≠ 0) (hend : Ended env c (σ.view p P o.txn) s) : Harmless (σ.view p P o.txn) s := by
  obtain ⟨hw, hpg⟩ := h.target hP ho
  have hw' : ¬ o.txn.Writer := fun h => htid (hw h).2
  refine hend.harmless hw' (fun _ => not_closeLock hw' (hpg htid)) (Proc.target_tree ho) ?_
  rintro rfl
  exact htid (Proc.target_write ho)

/-- The lock after a call, as the open write transactions see it. -/
theorem put_lck (h : WriterLck σ) (hP : σ.procs p = some P) (ho : P.target tid c = some o)
    {o' : Option TxnObj} (stamp : Option Nat) (hend : Ended env c (σ.view p P o.txn) s)
    (hobj : ∀ x, o' = some x → x.txn.state ≠ .closed → OpenAfter c (σ.view p P o.txn) s o x)
    (q : Nat) (Q : Proc) (t : Nat) (x : TxnObj) (hQ : (σ.put p P tid o' s stamp).procs q = some Q)
    (hx : Q.objs t = some x) (hxw : x.txn.Writer) :
    (σ.put p P tid o' s stamp).writer = some q ∧ t = 0 := by
  change writerAfter σ.writer p s.lck = some q ∧ t = 0
  obtain ⟨hw, hpg⟩ := h.target hP ho
  by_cases hq : q = p
  · subst hq
    have hown : s.lck = true → writerAfter σ.writer q s.lck = some q := by
      intro hl
      rw [hl]
      rfl
    rcases (Sys.put_objs hQ hx).2 with ⟨rfl, e⟩ | ⟨ht, hx'⟩
    · rcases (hobj x e hxw.1).target ho with ⟨-, -, hopened⟩ | ⟨hobj', hs, htxn, -⟩
      · obtain ⟨-, hl, rfl⟩ := hopened hxw
        exact ⟨hown hl, Proc.target_write ho⟩
      · -- the transaction was a writer before
        have hstate : s.txn.state = o.txn.state := (congrArg Fixed.state hs.near.fixed :)
        have hrd : s.txn.isrdonly = o.txn.isrdonly := (congrArg Fixed.isrdonly hs.near.fixed :)
        rw [htxn] at hxw
        obtain ⟨hwr, h0⟩ := hw ⟨hstate ▸ hxw.1, hrd ▸ hxw.2⟩
        have hl : s.lck = decide (σ.writer = some q) := (congrArg Fixed.lck hs.near.fixed :)
        exact ⟨hown (by simp [hl, hwr]), h0⟩
    · obtain ⟨hwr, rfl⟩ := h.lck q P t x hP hx' hxw
      have hl : s.lck = decide (σ.writer = some q) := (h.harmless hP ho (Ne.symm ht) hend).lck
      exact ⟨hown (by simp [hl, hwr]), rfl⟩
  · -- another process has the lock, so this call does not get it
    have hQ' : σ.procs q = some Q := (update_of_ne hq ..).symm.trans hQ
    obtain ⟨hwr, h0⟩ := h.lck q Q t x hQ' hx hxw
    have hne : σ.writer ≠ some p := by
      rw [hwr]
      intro e
      exact hq (Option.some.inj e)
    have hl : s.lck = decide (σ.writer = some p) :=
      hend.lck_busy (fun hw' => hne (hw hw').1) (by simp [Sys.view, hwr, hq])
        (Proc.target_tree ho)
    refine ⟨?_, h0⟩
    rw [hl, writerAfter, decide_eq_false hne, if_neg (by decide), if_neg hne, hwr]

theorem call (h : WriterLck σ) (hP : σ.procs p = some P) (ho : P.target tid c = some o)
    {o' : Option TxnObj} (stamp : Option Nat) (hend : Ended env c (σ.view p P o.txn) s)
    (hobj : ∀ x, o' = some x → x.txn.state ≠ .closed → OpenAfter c (σ.view p P o.txn) s o x)
    (hnil : ∀ x, o' = some x → ¬ o.txn.Writer → o.txn.pg = [] → x.txn.pg = []) :
    WriterLck (σ.put p P tid o' s stamp) where
  lck := h.put_lck hP ho stamp hend hobj
  lists q Q t x hQ hx ht := by
    rcases Sys.put_old hP hQ hx with ⟨rfl, e⟩ | ⟨Q', hQ', hx'⟩
    · obtain ⟨hw, hpg⟩ := h.target hP ho
      exact hnil x e (fun hw' => ht (hw hw').2) (hpg ht)
    · exact h.lists q Q' t x hQ' hx' ht

theorem drop (h : WriterLck σ) (p : Nat) (P : Proc) : WriterLck (σ.drop p P) := by
  refine ⟨fun q Q t x hQ hx hxw => ?_, fun q Q t x hQ hx => ?_⟩
  · obtain ⟨hq, hQ'⟩ := Sys.drop_procs hQ
    obtain ⟨hwr, h0⟩ := h.lck q Q t x hQ' hx hxw
    refine ⟨?_, h0⟩
    change (if σ.writer = some p then none else σ.writer) = some q
    rw [hwr, if_neg fun e => hq (Option.some.inj e)]
  · exact h.lists q Q t x (Sys.drop_procs hQ).2 hx

variable [EdEntry E] {g : Geom}

theorem step {ev : Event E} (h : WriterLck σ) (hs : Stepped g σ ev σ') : WriterLck σ' := by
  cases hs with
  | attach p scan i hn _ _ =>
    -- the new process has no objects
    exact ⟨fun q Q t x hQ hx => h.lck q Q t x (Sys.attach_objs hQ hx) hx,
      fun q Q t x hQ hx => h.lists q Q t x (Sys.attach_objs hQ hx) hx⟩
  | detach p P hP _ =>
    have h' : WriterLck (σ.modSlot P.slot connRelease) := ⟨h.lck, h.lists⟩
    exact h'.drop p P
  | ok p tid env c stamp P o s hP ho hr =>
    have hc := wp_ok (Call.run_spec env g c _) hr
    refine h.call hP ho stamp (.inl hc) (fun x hx hopen => hc.openAfter hx hopen) ?_
    intro x hx hw hpg
    rw [TxnObj.after_txn hx]
    exact hc.pg_nil hw hpg (Proc.target_tree ho)
  | err p tid env c stamp P o e s hP ho hr =>
    have hc := wp_err (Call.run_spec env g c _) hr
    refine h.call hP ho stamp (.inr (.inl ⟨e, hc⟩))
      (fun x hx hopen => Call.err_openAfter hc rfl hx hopen) ?_
    intro x hx hw hpg
    rw [TxnObj.after_txn hx]
    refine Call.err_pg_nil hc hw hpg (Proc.target_tree ho) ?_
    rintro rfl
    cases hx
  | halt p tid env c stamp P o f s hP ho hr =>
    have hc := wp_halted (Call.run_spec env g c _) hr
    exact drop (h.call hP ho stamp (.inr (.inr ⟨f, hc⟩)) (by rintro x ⟨⟩) (by rintro x ⟨⟩)) p P
  | kill p P _ => exact drop h p P
  | xmin => exact ⟨h.lck, h.lists⟩
  | statAcquire => exact ⟨h.lck, h.lists⟩
  | statRelease => exact ⟨h.lck, h.lists⟩

omit [EdEntry E] in
theorem create (maxConns : Nat) (pages : Nat → EdBpt E) :
    WriterLck (Sys.create maxConns pages) where
  lck _ _ _ _ h := by cases h
  lists _ _ _ _ h := by cases h

theorem of_run {ok : Sys E → Event E → Prop} {maxConns : Nat} {pages : Nat → EdBpt E}
    (h : Run (Sys.step g) ok (Sys.create maxConns pages) σ) : WriterLck σ :=
  h.invariant (fun _ _ _ hw _ hs => hw.step (Sys.stepped g hs)) (create maxConns pages)

end WriterLck

/-- In every run of a new index, with processes that come, go and are killed, at most one write
transaction is open, and its process has the write lock. Live processes have different slots. -/
theorem one_writer [EdEntry E] (g : Geom) (maxConns : Nat) (pages : Nat → EdBpt E) {σ : Sys E}
    (hrun : Run (Sys.step g) (fun _ _ => True) (Sys.create maxConns pages) σ) {p q : Nat} {P Q : Proc}
    (hP : σ.procs p = some P) (hQ : σ.procs q = some Q) :
    (P.slot = Q.slot → p = q) ∧
    ∀ i j x y, P.objs i = some x → Q.objs j = some y → x.txn.Writer → y.txn.Writer →
      p = q ∧ i = j ∧ σ.writer = some p := by
  have hl : Locked σ := hrun.invariant (fun _ _ _ hl _ hs => (Sys.stepped g hs).locked g hl)
    (Locked.create maxConns pages)
  have hw := WriterLck.of_run hrun
  refine ⟨fun hslot => ?_, fun i j x y hx hy hwx hwy => ?_⟩
  · by_contra hne
    exact hl.slot_ne hQ hP hne hslot
  · obtain ⟨hp, rfl⟩ := hw.lck p P i x hP hx hwx
    obtain ⟨hq, rfl⟩ := hw.lck q Q j y hQ hy hwy
    exact ⟨Option.some.inj (hp.symm.trans hq), rfl, hp⟩

/-- Two processes, one of which writes. -/
theorem one_writer_first : ∃ σ, exec (Sys.step Geom.page4096)
      [.attach 1 32, .attach 2 32, .calm 1 0 .new, .calm 1 0 (.open false)] (Sys.zero 32) = some σ ∧
    (∃ P x, σ.procs 1 = some P ∧ P.objs 0 = some x ∧ x.txn.Writer) ∧
    ∃ Q, σ.procs 2 = some Q ∧ ∀ j y, Q.objs j = some y → ¬ y.txn.Writer := by
  refine ⟨_, rfl, ⟨_, _, rfl, rfl, by decide, rfl⟩, _, rfl, fun j y hy hw => ?_⟩
  have hruns : ∀ σ P Q, exec (Sys.step Geom.page4096)
      [.attach 1 32, .attach 2 32, .calm 1 0 .new, .calm 1 0 (.open false)] (Sys.zero 32) = some σ →
      σ.procs 1 = some P → σ.procs 2 = some Q → _ := fun σ P Q hσ hP hQ =>
    one_writer Geom.page4096 32 (fun _ => EdBpt.zero) (Run.of_exec (ExecOk.trivial _ _) hσ) hP hQ
  exact absurd ((hruns _ _ _ rfl rfl rfl).2 0 j _ y rfl hy ⟨by decide, rfl⟩ hw).1 (by decide)

end Eddy
