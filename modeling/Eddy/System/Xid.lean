import Eddy.System.Calls

/-!
# Eddy — the xid in a connection slot

A process shows in its connection slot which snapshot it still reads. The slot has room for one
xid, but the handle of a cache has several transactions: its own and one for each list. Every
`ed_txn_open` stores the current xid in the slot and every `ed_txn_close` clears it, whatever the
other transactions of the handle are doing.
-/

namespace Eddy

open Outcome Runs Function

variable {E : Type} {env : Env E} {c : Call E} {s s' : St E} {o x : TxnObj} {o' : Option TxnObj}

/-- As long as a transaction of the process `p` is open, its slot has an xid that is not greater
than the one the transaction acquired. -/
def XidCovers (σ : Sys E) (p : Nat) : Prop :=
  ∀ P tid o, σ.procs p = some P → P.objs tid = some o → o.txn.state ≠ .closed →
    (σ.slots P.slot).xid ≠ 0 ∧ (σ.slots P.slot).xid ≤ o.acq

/-- Every transaction of the process is closed, except those in `except`. -/
def Proc.AllClosed (P : Proc) (except : Nat → Prop) : Prop :=
  ∀ tid o, ¬ except tid → P.objs tid = some o → o.txn.state = .closed

/-- No transaction of the process `p` is made, opened, committed or closed while another one of the
same process is open, and none is open when it takes or releases the snapshot of a stat. -/
def Apart (p : Nat) (σ : Sys E) (ev : Event E) : Prop :=
  σ.SlotsApart ∧ match ev with
  | .call q tid _ c _ => q = p → c.onTree = false → ∀ P, σ.procs p = some P →
      P.AllClosed (· = tid)
  | .statAcquire q => q = p → ∀ P, σ.procs p = some P → P.AllClosed fun _ => False
  | .statRelease q => q = p → ∀ P, σ.procs p = some P → P.AllClosed fun _ => False
  | _ => True

/-! ## Transaction ids are not zero -/

/-- The header's xid, and that of every write transaction, is not zero. -/
structure XidPos (σ : Sys E) : Prop where
  hdr : 0 < σ.hdr.xid
  txn : ∀ p P tid o, σ.procs p = some P → P.objs tid = some o → o.txn.Writer → 0 < o.txn.xid

section Call

variable {env : Env E} {s s' s1 : St E}

theorem Closed.hdr_xid {reset locked : Bool} (h : Closed env reset locked s s') :
    s'.hdr.xid = s.hdr.xid := by
  cases locked with
  | false => rw [(h.unlocked rfl).1]
  | true =>
    obtain ⟨-, -, -, _, _, hf, -, -⟩ := h.locked rfl
    exact hf.xid

theorem CloseHalt.hdr_xid {reset : Bool} {f : EdFault} (h : CloseHalt reset s f s') :
    s'.hdr.xid = s.hdr.xid := by
  cases h <;> rfl

theorem Published.hdr_xid (h : Published env s s1) : s1.hdr.xid = s.txn.xid := by
  obtain ⟨_, _, hf, -, -⟩ := h.freed
  exact hf.xid

theorem CommitHalt.hdr_xid {f : EdFault} (h : CommitHalt s f s') : s'.hdr.xid = s.hdr.xid := by
  cases h <;> rfl

theorem Opened.hdr_xid {rdonly : Bool} (h : Opened env rdonly s s') :
    s'.hdr.xid = s.hdr.xid := by
  cases rdonly with
  | true => rw [(h.read rfl).1]
  | false =>
    obtain ⟨-, -, -, -, _, _, hf, -, -⟩ := h.write rfl
    exact hf.xid

theorem Stayed.hdr_xid (h : Stayed s s') : s'.hdr.xid = s.hdr.xid :=
  (congrArg Fixed.xid h.near.fixed :)

theorem writer_of_isrdonly {t : EdTxn} (hopen : t.state ≠ .closed)
    (hrd : edTxnIsrdonly t = false) : t.Writer := by
  refine ⟨hopen, ?_⟩
  simp only [edTxnIsrdonly, Bool.or_eq_false_iff] at hrd
  exact hrd.2

end Call

/-- The state after a call, however it ended. -/
def Ended (env : Env E) (c : Call E) (s s' : St E) : Prop :=
  Called env s c s' ∨ (∃ e, (c.exits env s).err e s') ∨ ∃ f, (c.exits env s).halt f s'

theorem Ended.hdr_pos (h : Ended env c s s') (hpos : 0 < s.hdr.xid)
    (hw : s.txn.Writer → 0 < s.txn.xid) : 0 < s'.hdr.xid := by
  have hstay : Stayed s s' → 0 < s'.hdr.xid := fun h => h.hdr_xid ▸ hpos
  cases c with
  | new =>
    rcases h with ⟨h, -⟩ | ⟨_, h⟩ | ⟨_, h⟩
    · rw [h]; exact hpos
    · have h' : s' = { s with txn := s'.txn, tick := s'.tick, conn := { s.conn with xid := 0 } } := h
      rw [h']; exact hpos
    · have h' : s' = { s with txn := s'.txn, tick := s'.tick } := h
      rw [h']; exact hpos
  | «open» rdonly =>
    rcases h with h | ⟨_, h⟩ | ⟨_, h⟩
    · exact (Opened.hdr_xid h) ▸ hpos
    · exact (OpenFailed.hdr h).xid ▸ hpos
    · cases h
  | commit reset =>
    rcases h with ⟨hopen, hrd, s1, locked, hp, -, hc⟩ | ⟨_, h⟩ | ⟨f, hopen, h⟩
    · rw [hc.hdr_xid, hp.hdr_xid]
      exact hw (writer_of_isrdonly hopen hrd)
    · rcases h with ⟨-, rfl⟩ | ⟨-, -, locked, -, hc⟩
      · exact hpos
      · exact hc.hdr_xid ▸ hpos
    · rcases h with ⟨-, h⟩ | ⟨hrd, h | ⟨s1, hp, h⟩⟩
      · exact h.hdr_xid ▸ hpos
      · exact h.hdr_xid ▸ hpos
      · rw [h.hdr_xid, hp.hdr_xid]
        exact hw (writer_of_isrdonly hopen hrd)
  | close reset =>
    rcases h with ⟨locked, -, hc⟩ | ⟨_, h⟩ | ⟨f, h⟩
    · exact hc.hdr_xid ▸ hpos
    · cases h
    · exact (CloseHalt.hdr_xid h) ▸ hpos
  | _ =>
    rcases h with h | ⟨_, h⟩ | ⟨_, h⟩
    · exact hstay h
    · exact hstay h
    · exact hstay h

/-! ## An open object after a call -/

/-- How the object `x` that a call on the object `o` left behind can be open: the call opened it, or
it was open before and the call stayed inside the transaction. -/
inductive OpenAfter (c : Call E) (s s' : St E) (o x : TxnObj) : Prop where
  | opened (hacq : x.acq = s.hdr.xid) (hconn : s'.conn.xid = s.hdr.xid)
      (hw : x.txn.Writer → x.txn.xid = s.hdr.xid + 1 ∧ s'.lck = true ∧ c = .open false)
  | kept (hc : c ≠ .new) (hs : Stayed s s') (htxn : x.txn = s'.txn) (hacq : x.acq = o.acq)

theorem Closed.txn_closed {locked : Bool} (h : Closed env true locked s s') :
    s'.txn.state = .closed := by
  rw [h.txn]
  rfl

theorem Called.openAfter (h : Called env s c s') (hx : o.after c true s.hdr.xid s'.txn = some x)
    (hopen : x.txn.state ≠ .closed) : OpenAfter c s s' o x := by
  cases c with
  | new =>
    cases hx
    exact absurd h.2.state hopen
  | «open» rdonly =>
    cases hx
    refine .opened rfl (Opened.xid h) fun hw => ?_
    obtain ⟨nodes, nused, db, ht⟩ := Opened.txn h
    have hrd : s'.txn.isrdonly = false := hw.2
    rw [ht] at hrd ⊢
    have hrd' : rdonly = false := hrd
    subst hrd'
    exact ⟨rfl, (Opened.write h rfl).2.1, rfl⟩
  | commit reset =>
    obtain ⟨hne, -, s1, locked, -, -, hc⟩ := h
    simp only [TxnObj.after] at hx
    cases reset with
    | true =>
      cases hx
      exact absurd hc.txn_closed hopen
    | false =>
      split at hx
      · rename_i hclosed
        cases hx
        rw [show s'.txn = EdTxn.blank from hc.txn] at hopen
        exact absurd rfl hopen
      · cases hx
  | close reset =>
    obtain ⟨locked, -, hc⟩ := h
    simp only [TxnObj.after] at hx
    cases reset with
    | true =>
      cases hx
      exact absurd hc.txn_closed hopen
    | false => cases hx
  | _ =>
    cases hx
    exact .kept nofun h rfl rfl

theorem Call.err_openAfter {e : EdErr} (h : (c.exits env s).err e s') (hs : s.txn = o.txn)
    (hx : o.after c false s.hdr.xid s'.txn = some x) (hopen : x.txn.state ≠ .closed) :
    OpenAfter c s s' o x := by
  cases c with
  | new => cases hx
  | «open» rdonly =>
    cases hx
    rcases OpenFailed.same h with e | hclosed
    · refine .kept nofun ?_ rfl rfl
      rw [e]
      exact ⟨⟨rfl, fun h => h⟩, fun _ => ⟨rfl, rfl, rfl⟩⟩
    · obtain ⟨nodes, nused, db, xid, vno, ht⟩ := OpenFailed.txn h
      change s'.txn.state ≠ .closed at hopen
      rw [ht] at hopen
      exact absurd hclosed hopen
  | commit reset =>
    simp only [TxnObj.after] at hx
    rcases h with ⟨hclosed, rfl⟩ | ⟨hne, -, locked, -, hc⟩
    · rw [if_pos (.inr (hs ▸ hclosed))] at hx
      cases hx
      exact absurd hclosed hopen
    · cases reset with
      | true =>
        cases hx
        exact absurd hc.txn_closed hopen
      | false =>
        rw [if_neg (by simpa [← hs] using hne)] at hx
        cases hx
  | close reset => cases h
  | _ =>
    cases hx
    exact .kept nofun h rfl rfl

theorem OpenAfter.target {P : Proc} {tid : Nat} (h : OpenAfter c s s' o x)
    (ht : P.target tid c = some o) :
    (x.acq = s.hdr.xid ∧ s'.conn.xid = s.hdr.xid ∧
        (x.txn.Writer → x.txn.xid = s.hdr.xid + 1 ∧ s'.lck = true ∧ c = .open false)) ∨
      (P.objs tid = some o ∧ Stayed s s' ∧ x.txn = s'.txn ∧ x.acq = o.acq) := by
  cases h with
  | opened hacq hconn hw => exact .inl ⟨hacq, hconn, hw⟩
  | kept hc hs htxn hacq =>
    rcases Proc.target_spec ht with ⟨hnew, -⟩ | ⟨-, ho, -⟩
    · exact absurd hnew hc
    · exact .inr ⟨ho, hs, htxn, hacq⟩

/-! ## Steps -/

namespace XidPos

variable {σ σ' : Sys E} {p tid : Nat} {P : Proc} {o : TxnObj}

theorem target (h : XidPos σ) (hP : σ.procs p = some P) (ho : P.target tid c = some o) :
    o.txn.Writer → 0 < o.txn.xid := by
  rcases Proc.target_spec ho with ⟨-, -, rfl⟩ | ⟨-, hobj, -⟩
  · intro hw
    exact absurd rfl hw.1
  · exact h.txn p P tid o hP hobj

theorem put (h : XidPos σ) (hP : σ.procs p = some P) (stamp : Option Nat) (hdr : 0 < s.hdr.xid)
    (hobj : ∀ x, o' = some x → x.txn.Writer → 0 < x.txn.xid) :
    XidPos (σ.put p P tid o' s stamp) where
  hdr := hdr
  txn q Q t x hQ hx := by
    rcases Sys.put_old hP hQ hx with ⟨-, e⟩ | ⟨Q', hQ', hx'⟩
    · exact hobj x e
    · exact h.txn q Q' t x hQ' hx'

theorem drop (h : XidPos σ) (p : Nat) (P : Proc) : XidPos (σ.drop p P) where
  hdr := h.hdr
  txn q Q t x hQ hx := h.txn q Q t x (Sys.drop_procs hQ).2 hx

theorem call (h : XidPos σ) (hP : σ.procs p = some P) (ho : P.target tid c = some o)
    (stamp : Option Nat) (hend : Ended env c (σ.view p P o.txn) s)
    (hobj : ∀ x, o' = some x → x.txn.state ≠ .closed → OpenAfter c (σ.view p P o.txn) s o x) :
    XidPos (σ.put p P tid o' s stamp) := by
  have hw := h.target hP ho
  refine h.put hP stamp (hend.hdr_pos h.hdr hw) fun x hx hxw => ?_
  rcases (hobj x hx hxw.1).target ho with ⟨-, -, hxid⟩ | ⟨-, hs, htxn, -⟩
  · rw [(hxid hxw).1]
    exact Nat.succ_pos _
  · -- the transaction keeps its mode and its xid
    have hfix := hs.near.fixed
    have hxid : s.txn.xid = o.txn.xid := (congrArg Fixed.txid hfix :)
    have hstate : s.txn.state = o.txn.state := (congrArg Fixed.state hfix :)
    have hrd : s.txn.isrdonly = o.txn.isrdonly := (congrArg Fixed.isrdonly hfix :)
    rw [htxn] at hxw ⊢
    rw [hxid]
    exact hw ⟨hstate ▸ hxw.1, hrd ▸ hxw.2⟩

variable [EdEntry E] {g : Geom}

theorem step {ev : Event E} (h : XidPos σ) (hs : Stepped g σ ev σ') : XidPos σ' := by
  cases hs with
  | attach p scan i hn _ _ =>
    exact ⟨h.hdr, fun q Q t x hQ hx => h.txn q Q t x (Sys.attach_objs hQ hx) hx⟩
  | detach p P hP _ =>
    have h' : XidPos (σ.modSlot P.slot connRelease) := ⟨h.hdr, h.txn⟩
    exact h'.drop p P
  | ok p tid env c stamp P o s hP ho hr =>
    have hc := wp_ok (Call.run_spec env g c _) hr
    exact h.call hP ho stamp (.inl hc) fun x hx hopen => hc.openAfter hx hopen
  | err p tid env c stamp P o e s hP ho hr =>
    have hc := wp_err (Call.run_spec env g c _) hr
    exact h.call hP ho stamp (.inr (.inl ⟨e, hc⟩)) fun x hx hopen =>
      Call.err_openAfter hc rfl hx hopen
  | halt p tid env c stamp P o f s hP ho hr =>
    have hc := wp_halted (Call.run_spec env g c _) hr
    exact drop (h.call hP ho stamp (.inr (.inr ⟨f, hc⟩)) (by rintro x ⟨⟩)) p P
  | kill p P _ => exact drop h p P
  | xmin => exact ⟨h.hdr, h.txn⟩
  | statAcquire => exact ⟨h.hdr, h.txn⟩
  | statRelease => exact ⟨h.hdr, h.txn⟩

end XidPos

theorem XidPos.create (maxConns : Nat) (pages : Nat → EdBpt E) :
    XidPos (Sys.create maxConns pages) where
  hdr := Nat.one_pos
  txn _ _ _ _ h := by cases h

/-! ## The slot covers the open transactions -/

namespace XidCovers

variable {σ σ' : Sys E} {p tid : Nat} {P : Proc} {o : TxnObj}

theorem of_none (h : σ.procs p = none) : XidCovers σ p := by
  intro Q tid o hQ
  rw [h] at hQ
  cases hQ

theorem of_allClosed (hP : σ.procs p = some P) (h : P.AllClosed fun _ => False) :
    XidCovers σ p := by
  intro Q tid o hQ hx hopen
  rw [hP] at hQ
  cases hQ
  exact absurd (h tid o id hx) hopen

/-- A call that the process survives. The other transactions are closed, unless the call is one on
a tree, which leaves the slot alone. -/
theorem call (h : XidCovers σ p) (hpos : 0 < σ.hdr.xid) (hP : σ.procs p = some P)
    (ho : P.target tid c = some o) (stamp : Option Nat)
    (hrest : c.onTree = false → P.AllClosed (· = tid))
    (htree : c.onTree = true → Stayed (σ.view p P o.txn) s)
    (hobj : ∀ x, o' = some x → x.txn.state ≠ .closed → OpenAfter c (σ.view p P o.txn) s o x) :
    XidCovers (σ.put p P tid o' s stamp) p := by
  intro Q t x hQ hx hopen
  obtain ⟨hslot, hcase⟩ := Sys.put_objs hQ hx
  have hnew : ((σ.put p P tid o' s stamp).slots Q.slot).xid = s.conn.xid := by
    rw [hslot]
    change (update σ.slots P.slot _ P.slot).xid = _
    rw [update_self]
    rfl
  rw [hnew]
  -- a call inside a transaction keeps the xid of the slot
  have hkept : Stayed (σ.view p P o.txn) s → s.conn.xid = (σ.slots P.slot).xid := fun hs =>
    (congrArg (fun f => f.conn.xid) hs.near.fixed :)
  rcases hcase with ⟨-, e⟩ | ⟨ht, hx'⟩
  · rcases (hobj x e hopen).target ho with ⟨hacq, hconn, -⟩ | ⟨hobj', hs, htxn, hacq⟩
    · rw [hconn, hacq]
      exact ⟨Nat.pos_iff_ne_zero.mp hpos, le_refl _⟩
    · have hstate : s.txn.state = o.txn.state := (congrArg Fixed.state hs.near.fixed :)
      rw [htxn, hstate] at hopen
      rw [hkept hs, hacq]
      exact h P tid o hP hobj' hopen
  · cases hc : c.onTree with
    | false => exact absurd (hrest hc t x ht hx') hopen
    | true =>
      rw [hkept (htree hc)]
      exact h P t x hP hx' hopen

theorem drop (σ : Sys E) (p : Nat) (P : Proc) : XidCovers (σ.drop p P) p :=
  of_none (update_self ..)

variable [EdEntry E] {g : Geom}

theorem step {ev : Event E} (hs : Stepped g σ ev σ') (hl : Locked σ) (hpos : XidPos σ)
    (h : XidCovers σ p) (hok : Apart p σ ev) : XidCovers σ' p := by
  by_cases hact : p = ev.actor
  · cases hs with
    | attach q scan i _ _ _ =>
      subst hact
      intro Q tid o hQ hx _
      cases (update_self ..).symm.trans hQ
      cases hx
    | detach q P _ _ =>
      subst hact
      exact drop _ _ P
    | ok q tid env c stamp P o s hP ho hr =>
      subst hact
      have hc := wp_ok (Call.run_spec env g c _) hr
      refine h.call hpos.hdr hP ho stamp (fun hc => hok.2 rfl hc P hP) (fun htree => ?_)
        fun x hx hopen => hc.openAfter hx hopen
      cases c <;> first | exact hc | cases htree
    | err q tid env c stamp P o e s hP ho hr =>
      subst hact
      have hc := wp_err (Call.run_spec env g c _) hr
      refine h.call hpos.hdr hP ho stamp (fun hc => hok.2 rfl hc P hP) (fun htree => ?_)
        fun x hx hopen => Call.err_openAfter hc rfl hx hopen
      cases c <;> first | exact hc | cases htree
    | halt q tid env c stamp P o f s _ _ _ =>
      subst hact
      exact drop _ _ P
    | kill q P _ =>
      subst hact
      exact drop _ _ P
    | xmin q now P hP _ =>
      subst hact
      intro Q tid o hQ hx hopen
      -- the scan passes over the slot of its own process
      rw [show ({ σ with slots := _ } : Sys E).slots Q.slot = σ.slots Q.slot from
        hl.xmin_kept hP hQ now]
      exact h Q tid o hQ hx hopen
    | statAcquire q P hP _ =>
      subst hact
      exact of_allClosed (P := P) hP (hok.2 rfl P hP)
    | statRelease q P hP =>
      subst hact
      exact of_allClosed (P := P) hP (hok.2 rfl P hP)
  · intro Q tid o hQ hx hopen
    rw [hs.procs_other g hact] at hQ
    rw [hs.slots_other g hl hQ hact]
    exact h Q tid o hQ hx hopen

end XidCovers

variable [EdEntry E] (g : Geom)

/-- In every run of a new index in which the process `p` opens and closes its transactions one at a
time, its slot covers the transaction that is open. -/
theorem xidCovers_of_apart (maxConns : Nat) (pages : Nat → EdBpt E) (p : Nat) {σ : Sys E}
    (h : Run (Sys.step g) (Apart p) (Sys.create maxConns pages) σ) : XidCovers σ p := by
  have hinv : Locked σ ∧ XidPos σ ∧ XidCovers σ p := by
    refine h.invariant (I := fun σ => Locked σ ∧ XidPos σ ∧ XidCovers σ p) ?_
      ⟨Locked.create maxConns pages, XidPos.create maxConns pages, XidCovers.of_none rfl⟩
    rintro τ ev τ' ⟨hl, hpos, hc⟩ hok hstep
    have hs := Sys.stepped g hstep
    exact ⟨hs.locked g hl, hpos.step hs, XidCovers.step hs hl hpos hc hok⟩
  exact hinv.2.2

/-- A process opens a list and then looks up a key: `ed_list_open` makes a transaction and opens it,
`ed_open` opens and closes the one of the handle. -/
def listThenLookup : List (Event UInt64) :=
  [.attach 1 32, .calm 1 0 .new, .calm 1 1 .new, .calm 1 1 (.open true), .calm 1 0 (.open true),
    .calm 1 0 (.close true)]

/-- The list is still open, and the slot has no xid. -/
theorem xid_cleared :
    ∃ σ, exec (Sys.step Geom.page4096) listThenLookup (Sys.zero 32) = some σ ∧
      ¬ XidCovers σ 1 := by
  refine ⟨_, rfl, fun h => ?_⟩
  exact (h _ 1 _ rfl rfl (by decide)).1 rfl

theorem update_closed {objs : Nat → Option TxnObj} {t tid : Nat} (hx : x.txn.state = .closed)
    (hobjs : objs tid = some o → o.txn.state = .closed) (h : update objs t (some x) tid = some o) :
    o.txn.state = .closed := by
  by_cases ht : tid = t
  · subst ht
    cases (update_self ..).symm.trans h
    exact hx
  · exact hobjs ((update_of_ne ht ..).symm.trans h)

/-- A process opens a list while the transaction of its handle is closed. -/
theorem xidCovers_list :
    ∃ σ, exec (Sys.step Geom.page4096) [.attach 1 32, .calm 1 0 .new, .calm 1 1 .new,
      .calm 1 1 (.open true)] (Sys.zero 32) = some σ ∧ XidCovers σ 1 := by
  have hslots : edIdxPages 32 ≤ pgRootGc := by decide
  refine ⟨_, rfl, xidCovers_of_apart Geom.page4096 32 (fun _ => EdBpt.zero) 1 ?_⟩
  refine .tail (.calm 1 1 (.open true)) (.tail (.calm 1 1 .new) (.tail (.calm 1 0 .new)
    (.single (a := .attach 1 32) ⟨hslots, trivial⟩ rfl) ⟨hslots, ?_⟩ rfl) ⟨hslots, ?_⟩ rfl)
    ⟨hslots, ?_⟩ rfl
  · intro _ _ P hP tid o _ ho
    cases hP
    cases ho
  · intro _ _ P hP tid o _ ho
    cases hP
    exact update_closed rfl (fun h => by cases h) ho
  · intro _ _ P hP tid o hne ho
    cases hP
    exact update_closed rfl (fun h => by cases h) ((update_of_ne hne ..).symm.trans ho)

end Eddy
