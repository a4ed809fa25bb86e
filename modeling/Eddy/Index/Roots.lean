import Eddy.Index.Reopen

/-!
# Eddy — the mapped roots of a transaction object, and the failing paths of an open

Between two transactions the object keeps the root pages of the last one mapped (`txn->roots`).
`ed_idx_acquire_snapshot` maps those that changed, one after the other, so the second mapping can
fail after the first one has been made. `edTxnOpen` takes the snapshot as one request; here the
pointers are part of the state and each root is loaded by its own `ed_pg_load`.

A failed open leaves something behind on three paths: a failed mapping under the write lock keeps the
lock, a failure at the second root unmaps the first one and keeps the pointer, and a failure to free
the pages of an abandoned transaction keeps the connection's xid.
-/

namespace Eddy

open Outcome

variable {E : Type} (env : Env E)

/-! ## The pointers -/

/-- One of the pointers `txn->roots`; `dangling` is one whose page was unmapped. -/
inductive RootPtr where
  | null
  | mapped (no : Nat)
  | dangling
  deriving DecidableEq

/-- The pointer after the page was unmapped (`if (trees[i]) { ed_pg_unmap(trees[i], 1); }`). -/
def RootPtr.unmap : RootPtr → RootPtr
  | .null => .null
  | _ => .dangling

/-- The pointer to a root that is mapped when there is one. -/
def RootPtr.of : Option Nat → RootPtr
  | none => .null
  | some no => .mapped no

/-- The state of a process together with the root pointers of its transaction object. -/
structure RootSt (E : Type) where
  st : St E
  roots : EdDb → RootPtr

/-- The same state with another root pointer. -/
def RootSt.setRoot (w : RootSt E) (d : EdDb) (r : RootPtr) : RootSt E :=
  { w with roots := fun e => if e = d then r else w.roots e }

/-- A call on the part of the state that has no pointers. -/
def onSt {α : Type} (x : M E α) : Prog EdErr EdFault (RootSt E) α :=
  Prog.zoom RootSt.st (fun w s => { w with st := s }) x

/-- `ed_pg_load` of one root. The number of the mapped page is read through the pointer. -/
def edPgLoad (d : EdDb) : Prog EdErr EdFault (RootSt E) Unit := do
  let w ← Prog.get
  if w.roots d = .dangling then Prog.stuck else
  match w.st.hdr.tree d with
  | none => Prog.modify fun w => w.setRoot d .null
  | some no =>
    if w.roots d = .mapped no then pure () else do
    let failed ← onSt (sysFails env .page)
    if failed then do
      Prog.modify fun w => w.setRoot d .null
      Prog.throw .sys
    else Prog.modify fun w => w.setRoot d (.mapped no)

/-- The way out of a failed snapshot: unmap the roots loaded so far and release the xid. -/
def RootSt.unwind (w : RootSt E) (ds : List EdDb) : RootSt E where
  st := w.st.modConn fun c => { c with xid := 0 }
  roots d := if d ∈ ds then (w.roots d).unmap else w.roots d

/-- `ed_idx_acquire_snapshot`, root by root. -/
def acquireSnapshot : Prog EdErr EdFault (RootSt E) Unit := do
  onSt (do
    let s ← Prog.get
    modConn fun c => { c with xid := s.hdr.xid })
  Prog.onErr (edPgLoad env .keys) fun _ w => w.unwind [.keys]
  Prog.onErr (edPgLoad env .blocks) fun _ w => w.unwind [.blocks, .keys]

/-- Hand one loaded root over to a node. -/
def takeRoot (d : EdDb) : Prog EdErr EdFault (RootSt E) Unit := do
  let w ← Prog.get
  match w.roots d with
  | .mapped no => onSt (do
      let n ← nodeWrap no none 0
      modDb d fun c => { c with root := some n, find := some n })
  | _ => onSt (modDb d fun c => { c with root := none, find := none })
  Prog.modify fun w => w.setRoot d .null

/-- `ed_txn_open` with the root pointers. -/
def edTxnOpenRoots (rdonly : Bool) : Prog EdErr EdFault (RootSt E) Unit := do
  let t ← Prog.gets fun w => w.st.txn
  if t.state ≠ .closed then Prog.throw .einval else
  Prog.when (rdonly = false) (onSt (edLck env))
  acquireSnapshot env
  takeRoot .keys
  takeRoot .blocks
  onSt (do
    Prog.when (rdonly = false) (openWrite env)
    modTxn fun t => { t with isrdonly := rdonly, state := .open })

/-! ## The requests that can be refused -/

/-- The steps of an open that can fail. -/
inductive OpenStep where
  | lock
  | root (d : EdDb)
  | free
  deriving DecidableEq

/-- Whether the root of `d` has to be mapped. -/
def RootSt.wants (w : RootSt E) (d : EdDb) : Bool :=
  match w.st.hdr.tree d with
  | none => false
  | some no => decide (w.roots d ≠ .mapped no)

/-- The same state at another time of the environment's clock. -/
def RootSt.atTick (w : RootSt E) (k : Nat) : RootSt E := { w with st := w.st.atTick k }

/-- The first root whose mapping is refused. -/
def refusedRoot (w : RootSt E) : Option EdDb :=
  if w.wants .keys && env.fails .page w.st.tick then some .keys
  else if w.wants .blocks && env.fails .page (w.st.tick + (w.wants .keys).toNat) then some .blocks
  else none

/-- The step of a failing open that is refused. -/
def refusedStep (rdonly : Bool) (w : RootSt E) : OpenStep :=
  if rdonly = false ∧ (w.st.busy = true ∨ env.fails .lock w.st.tick = true) then .lock
  else match refusedRoot env (w.atTick (w.st.tick + (!rdonly).toNat)) with
    | some d => .root d
    | none => .free

/-! ## Loading the roots -/

variable {w w' : RootSt E} {rdonly : Bool}

theorem RootSt.setRoot_self {d : EdDb} {r : RootPtr} (h : w.roots d = r) : w.setRoot d r = w := by
  have hroots : (fun e => if e = d then r else w.roots e) = w.roots := by
    funext e
    by_cases he : e = d
    · rw [if_pos he, he, h]
    · rw [if_neg he]
  unfold RootSt.setRoot
  rw [hroots]

theorem edPgLoad_spec (d : EdDb) (w : RootSt E) (hd : w.roots d ≠ .dangling) :
    wp (edPgLoad env d)
      (fun _ w' => (w.wants d && env.fails .page w.st.tick) = false ∧
        w' = (w.atTick (w.st.tick + (w.wants d).toNat)).setRoot d (.of (w.st.hdr.tree d)))
      ⟨fun _ w' => (w.wants d && env.fails .page w.st.tick) = true ∧
        w' = (w.atTick (w.st.tick + 1)).setRoot d .null, fun _ _ => False, False⟩ w := by
  unfold edPgLoad RootSt.wants
  rw [wp_bind, wp_get, wp_ite]
  refine ⟨fun h => absurd h hd, fun _ => ?_⟩
  cases htree : w.st.hdr.tree d with
  | none => exact ⟨rfl, rfl⟩
  | some no =>
    rw [wp_ite]
    constructor
    · intro hsame
      rw [wp_pure']
      have hwants : decide (w.roots d ≠ .mapped no) = false := decide_eq_false (not_not.mpr hsame)
      simp only [hwants]
      exact ⟨rfl, (RootSt.setRoot_self hsame).symm⟩
    · intro hdiff
      have hwants : decide (w.roots d ≠ .mapped no) = true := decide_eq_true hdiff
      simp only [hwants, Bool.true_and, onSt, wp_bind, wp_zoom, wp_sysFails, wp_ite,
        wp_modify, wp_throw]
      exact ⟨fun h => ⟨h, rfl⟩, fun h => ⟨by simpa using h, rfl⟩⟩

/-- The root pointers after the mapping of `d` was refused. -/
def RootSt.unwound (w : RootSt E) : EdDb → EdDb → RootPtr
  | .keys => fun e => if e = .keys then .null else w.roots e
  | .blocks => fun e => if e = .keys then (RootPtr.of (w.st.hdr.tree .keys)).unmap else .null

/-- The snapshot: both roots are mapped and the slot has the current xid, or the xid is released
and the first root may be left unmapped behind its pointer. -/
theorem acquireSnapshot_spec (w : RootSt E) (hd : ∀ d, w.roots d ≠ .dangling) :
    wp (acquireSnapshot env)
      (fun _ w' => refusedRoot env w = none ∧ ∃ k, w' =
        { st := (w.st.modConn fun c => { c with xid := w.st.hdr.xid }).atTick k
          roots := fun d => .of (w.st.hdr.tree d) })
      ⟨fun _ w' => ∃ d k, refusedRoot env w = some d ∧ w' =
        { st := (w.st.modConn fun c => { c with xid := 0 }).atTick k, roots := w.unwound d },
        fun _ _ => False, False⟩ w := by
  unfold acquireSnapshot refusedRoot
  simp only [onSt, wp_bind, wp_zoom, wp_get, wp_modConn, wp_onErr]
  refine wp_mono (edPgLoad_spec env .keys _ (hd .keys)) ?_ ?_ (fun _ _ h => h) id
  · rintro _ w1 ⟨hkeys, rfl⟩
    -- The first root is mapped, the second one is still what it was.
    have hk : (w.wants .keys && env.fails .page w.st.tick) = false := hkeys
    refine wp_mono (edPgLoad_spec env .blocks _ (hd .blocks)) ?_ ?_ (fun _ _ h => h) id
    · rintro _ w2 ⟨hblocks, rfl⟩
      have hb : (w.wants .blocks && env.fails .page (w.st.tick + (w.wants .keys).toNat)) = false :=
        hblocks
      refine ⟨?_, w.st.tick + (w.wants .keys).toNat + (w.wants .blocks).toNat, ?_⟩
      · rw [hk, hb]
        rfl
      · show RootSt.mk _ _ = RootSt.mk _ _
        congr 1
        funext d
        cases d <;> rfl
    · rintro _ w2 ⟨hblocks, rfl⟩
      have hb : (w.wants .blocks && env.fails .page (w.st.tick + (w.wants .keys).toNat)) = true :=
        hblocks
      refine ⟨.blocks, w.st.tick + (w.wants .keys).toNat + 1, ?_, ?_⟩
      · rw [hk, hb]
        rfl
      · show RootSt.mk _ _ = RootSt.mk _ _
        congr 1
        funext d
        cases d <;> rfl
  · rintro _ w1 ⟨hkeys, rfl⟩
    refine ⟨.keys, w.st.tick + 1, if_pos hkeys, ?_⟩
    show RootSt.mk _ _ = RootSt.mk _ _
    congr 1
    funext d
    cases d <;> rfl

theorem takeRoot_spec (d : EdDb) (w : RootSt E) (X : Exits EdErr EdFault (RootSt E)) :
    wp (takeRoot d) (fun _ w' => ∃ nodes nused db, w' = ({ w with
      st := w.st.modTxn fun t => { t with nodes := nodes, nused := nused, db := db } } :
        RootSt E).setRoot d .null) X w := by
  unfold takeRoot
  rw [wp_bind, wp_get]
  cases w.roots d with
  | mapped no => exact ⟨_, _, _, rfl⟩
  | null => exact ⟨_, _, _, rfl⟩
  | dangling => exact ⟨_, _, _, rfl⟩

/-! ## The free list of a failed open -/

/-- The free lists and the start of the tail are the same; the file may have grown. -/
structure SameFree (h h' : EdPgIdx) : Prop where
  gcs : h'.gcs = h.gcs
  start : h'.tailStart = h.tailStart
  count : h.tailCount ≤ h'.tailCount

/-- The exits of a call that can only fail because of `ed_free_pgno`, and then with the free list
unchanged. -/
def sameFreeExits (s : St E) : Exits EdErr EdFault (St E) where
  err _ s' := SameFree s.hdr s'.hdr ∧ FreeRefused env
  halt _ _ := False
  stuck := False

theorem mapEndPages_sameFree (n : Nat) (s : St E) :
    wp (mapEndPages env .free n) (fun _ _ => True) (sameFreeExits env s) s := by
  unfold mapEndPages
  simp only [wp_ite, wp_pure', wp_bind, wp_modHdr, wp_sysFails, wp_throw,
    wp_gets]
  refine ⟨fun _ => trivial, fun _ => ⟨fun hfail => ⟨⟨rfl, rfl, ?_⟩, _, hfail⟩, fun _ => trivial⟩⟩
  show s.hdr.tailCount ≤ if n > s.hdr.tailCount then s.hdr.tailCount + edAlignSize n edAllocCount
    else s.hdr.tailCount
  split <;> omega

theorem edFreePgno_sameFree (xid : Nat) (pg : List Nat) (s : St E) :
    wp (edFreePgno env xid pg) (fun _ _ => True) (sameFreeExits env s) s := by
  unfold edFreePgno
  simp only [wp_ite, wp_pure', wp_bind, wp_sysFails, wp_throw, wp_gets]
  refine ⟨fun _ => trivial, fun _ => ⟨fun hfail => ⟨⟨rfl, rfl, le_rfl⟩, _, hfail⟩, fun _ => ?_⟩⟩
  exact wp_post (mapEndPages_sameFree env _ _) fun _ _ _ => trivial

theorem freeAbandoned_sameFree (s : St E) :
    wp (freeAbandoned env) (fun _ _ => True) (sameFreeExits env s) s := by
  unfold freeAbandoned
  rw [wp_bind, wp_gets, wp_ite]
  refine ⟨fun _ => trivial, fun _ => ?_⟩
  rw [wp_bind, wp_modHdr, wp_bind, wp_attempt]
  refine wp_mono (edFreePgno_sameFree env 0 s.hdr.active _) (fun _ _ _ => trivial) ?_
    (fun _ _ h => h) id
  rintro _ s' ⟨h, hrefused⟩
  exact ⟨⟨h.gcs, h.start, h.count⟩, hrefused⟩

theorem openWrite_sameFree (s : St E) :
    wp (openWrite env) (fun _ _ => True) (sameFreeExits env s) s := by
  unfold openWrite
  rw [wp_bind, wp_gets, wp_bind, wp_modTxn, wp_bind]
  refine wp_post (freeAbandoned_sameFree env _) ?_
  intro _ s1 _
  exact wp_post (takePending_spec env s1 _) fun _ _ _ => trivial

theorem openRest_sameFree (rdonly : Bool) (s : St E) :
    wp (do
        Prog.when (rdonly = false) (openWrite env)
        modTxn fun t => { t with isrdonly := rdonly, state := .open })
      (fun _ _ => True) (sameFreeExits env s) s := by
  rw [wp_bind, wp_when]
  refine ⟨fun _ => ?_, fun _ => trivial⟩
  exact wp_post (openWrite_sameFree env s) fun _ _ _ => trivial

/-! ## The whole call -/

/-- What a failing open leaves behind, by the step that was refused. -/
def LeftBy (rdonly : Bool) (w w' : RootSt E) : OpenStep → Prop
  | .lock => rdonly = false ∧ ∃ k, w' = w.atTick k
  | .root d => ∃ k, w' =
      { st := { w.st with
          conn := { w.st.conn with xid := 0 }
          lck := if rdonly then w.st.lck else true, tick := k }
        roots := w.unwound d }
  | .free => rdonly = false ∧ OpenFailed rdonly w.st w'.st ∧ SameFree w.st.hdr w'.st.hdr ∧
      w'.st.lck = false ∧ w'.st.conn = { w.st.conn with xid := w.st.hdr.xid } ∧
      ∀ d, w'.roots d = .null

/-- The exits of an open of a closed transaction. -/
def leftExits (rdonly : Bool) (w : RootSt E) : Exits EdErr EdFault (RootSt E) where
  err _ w' := LeftBy rdonly w w' (refusedStep env rdonly w) ∧
    (refusedStep env rdonly w = .free → FreeRefused env)
  halt _ _ := False
  stuck := False

theorem edLck_answer (s : St E) :
    wp (edLck env)
      (fun _ s' => ¬ (s.busy = true ∨ env.fails .lock s.tick = true) ∧
        s' = { s.atTick (s.tick + 1) with lck := true })
      ⟨fun _ s' => (s.busy = true ∨ env.fails .lock s.tick = true) ∧ ∃ k, s' = s.atTick k,
        fun _ _ => False, False⟩ s := by
  unfold edLck
  simp only [wp_bind, wp_get, wp_ite, wp_throw, wp_sysFails, wp_modify]
  refine ⟨fun hbusy => ⟨.inl hbusy, s.tick, rfl⟩, fun hbusy => ⟨fun hfail => ?_, fun hfail => ?_⟩⟩
  · exact ⟨.inr hfail, s.tick + 1, rfl⟩
  · exact ⟨fun h => h.elim hbusy hfail, trivial⟩

/-- `edTxnOpenRoots` after the lock call, which left the lock as `l`. -/
theorem openRoots_locked (rdonly : Bool) (hclosed : w.st.txn.state = .closed)
    (hd : ∀ d, w.roots d ≠ .dangling) {l : Bool} (hrd : rdonly = true → l = w.st.lck)
    (hwr : rdonly = false → w.st.busy = false ∧ l = true) (hstep : refusedStep env rdonly w =
      match refusedRoot env (w.atTick (w.st.tick + (!rdonly).toNat)) with
      | some d => .root d
      | none => .free) :
    wp (do
        acquireSnapshot env
        takeRoot .keys
        takeRoot .blocks
        onSt (do
          Prog.when (rdonly = false) (openWrite env)
          modTxn fun t => { t with isrdonly := rdonly, state := .open }))
      (fun _ w' => Opened env rdonly w.st w'.st) (leftExits env rdonly w)
      { w with st := { w.st.atTick (w.st.tick + (!rdonly).toNat) with lck := l } } := by
  rw [wp_bind]
  refine wp_mono (acquireSnapshot_spec env _ hd) ?_ ?_ (fun _ _ h => h) id
  · rintro _ w1 ⟨hnone, k, rfl⟩
    have hfree : refusedStep env rdonly w = .free := by
      rw [hstep, show refusedRoot env (w.atTick (w.st.tick + (!rdonly).toNat)) = none from hnone]
    rw [wp_bind]
    refine wp_post (takeRoot_spec .keys _ _) ?_
    rintro _ w2 ⟨nodes1, nused1, db1, rfl⟩
    rw [wp_bind]
    refine wp_post (takeRoot_spec .blocks _ _) ?_
    rintro _ w3 ⟨nodes, nused, db, rfl⟩
    unfold onSt
    rw [wp_zoom]
    refine wp_mono (wp_and (openRest_spec env rdonly hclosed k hrd hwr nodes nused db)
      (openRest_sameFree env rdonly _)) (fun _ _ h => h.1) ?_ (fun _ _ h => h.1) fun h => h.1
    rintro _ s' ⟨⟨hfail, hw, hlck, hconn⟩, hsame, hrefused⟩
    refine ⟨?_, fun _ => hrefused⟩
    rw [hfree]
    refine ⟨hw, hfail, hsame, hlck, hconn, fun d => ?_⟩
    cases d <;> rfl
  · rintro _ w1 ⟨d, k, hsome, rfl⟩
    have hroot : refusedStep env rdonly w = .root d := by
      rw [hstep, show refusedRoot env (w.atTick (w.st.tick + (!rdonly).toNat)) = some d from hsome]
    refine ⟨?_, fun h => absurd (hroot.symm.trans h) (by simp)⟩
    rw [hroot]
    refine ⟨k, ?_⟩
    cases rdonly with
    | true =>
      rw [hrd rfl]
      cases d <;> rfl
    | false =>
      rw [(hwr rfl).2]
      cases d <;> rfl

/-- `ed_txn_open` of a closed transaction whose root pointers are good. -/
theorem edTxnOpenRoots_spec (rdonly : Bool) (hclosed : w.st.txn.state = .closed)
    (hd : ∀ d, w.roots d ≠ .dangling) :
    wp (edTxnOpenRoots env rdonly) (fun _ w' => Opened env rdonly w.st w'.st)
      (leftExits env rdonly w) w := by
  unfold edTxnOpenRoots
  rw [wp_bind, wp_gets, wp_ite]
  refine ⟨fun h => absurd hclosed h, fun _ => ?_⟩
  rw [wp_bind, wp_when]
  cases rdonly with
  | true =>
    refine ⟨fun h => absurd h (by decide), fun _ => ?_⟩
    exact openRoots_locked env true hclosed hd (fun _ => rfl) (fun h => absurd h (by decide))
      (if_neg (by simp))
  | false =>
    refine ⟨fun _ => ?_, fun h => absurd rfl h⟩
    unfold onSt
    rw [wp_zoom]
    refine wp_mono (edLck_answer env w.st) ?_ ?_ (fun _ _ h => h) id
    · rintro _ s1 ⟨hgrant, rfl⟩
      have hb : w.st.busy = false := by
        cases hbusy : w.st.busy with
        | false => rfl
        | true => exact absurd (.inl hbusy) hgrant
      exact openRoots_locked env false hclosed hd (fun h => absurd h (by decide))
        (fun _ => ⟨hb, rfl⟩) (if_neg fun h => hgrant h.2)
    · rintro _ s1 ⟨hrefused, k, rfl⟩
      have hlock : refusedStep env false w = .lock := if_pos ⟨rfl, hrefused⟩
      refine ⟨?_, fun h => absurd (hlock.symm.trans h) (by simp)⟩
      rw [hlock]
      exact ⟨rfl, k, rfl⟩

/-- Whatever was refused, the parts of the state without pointers are as the coarser model of the
call says. -/
theorem LeftBy.openFailed {step : OpenStep} (hclosed : w.st.txn.state = .closed)
    (h : LeftBy rdonly w w' step) (hbusy : w.st.busy = true → step = .lock ∨ rdonly = true) :
    OpenFailed rdonly w.st w'.st := by
  cases step with
  | lock =>
    obtain ⟨-, k, rfl⟩ := h
    exact OpenFailed.of_tick rdonly w.st k
  | root d =>
    obtain ⟨k, rfl⟩ := h
    refine ⟨⟨_, _, _, _, _, rfl⟩, rfl, rfl, rfl, rfl, HdrFreed.refl _, rfl, .inr hclosed,
      fun _ => rfl, fun hl => ?_⟩
    have hrd : rdonly = true := hl.elim id fun hb => (hbusy hb).resolve_left (by simp)
    subst hrd
    rfl
  | free => exact h.2.1

theorem edTxnOpenRoots_contract (rdonly : Bool) (hclosed : w.st.txn.state = .closed)
    (hd : ∀ d, w.roots d ≠ .dangling) :
    wp (edTxnOpenRoots env rdonly) (fun _ w' => Opened env rdonly w.st w'.st)
      ⟨fun _ w' => OpenFailed rdonly w.st w'.st, fun _ _ => False, False⟩ w := by
  refine wp_mono (edTxnOpenRoots_spec env rdonly hclosed hd) (fun _ _ h => h) ?_
    (fun _ _ h => h) id
  rintro _ w' ⟨hleft, -⟩
  refine hleft.openFailed hclosed fun hbusy => ?_
  cases rdonly with
  | true => exact .inr rfl
  | false => exact .inl (if_pos ⟨rfl, .inl hbusy⟩)

/-! ## Which failures are undone -/

/-- No transaction of the connection is running and nothing is left of a failed call. -/
structure RootSt.Idle (w : RootSt E) : Prop where
  closed : w.st.txn.state = .closed
  xid : w.st.conn.xid = 0
  lck : w.st.lck = false
  roots : ∀ d, w.roots d ≠ .dangling

/-- A later open of the same kind can succeed, once no other process has the write lock. -/
def Reopens (rdonly : Bool) (w : RootSt E) : Prop :=
  ∃ (env : Env E) (w' : RootSt E),
    edTxnOpenRoots env rdonly { w with st := { w.st with busy := false } } = .ok () w'

/-- A failed open left the system as it found it. -/
structure Undone (rdonly : Bool) (w w' : RootSt E) : Prop where
  lck : w'.st.lck = false
  xid : w'.st.conn.xid = 0
  active : w'.st.hdr.active = w.st.hdr.active
  pending : w'.st.conn.pending = w.st.conn.pending
  free : SameFree w.st.hdr w'.st.hdr
  reopens : Reopens rdonly w'

theorem reopens_of_roots (env : Env E) (rdonly : Bool) (hclosed : w.st.txn.state = .closed)
    (hd : ∀ d, w.roots d ≠ .dangling) : Reopens rdonly w := by
  let grant : Env E := { env with fails := fun _ _ => false }
  let w0 : RootSt E := { w with st := { w.st with busy := false } }
  have hroot : ∀ v : RootSt E, refusedRoot grant v = none := by
    intro v
    unfold refusedRoot
    rw [show grant.fails .page = fun _ => false from rfl, Bool.and_false, Bool.and_false]
    rfl
  have hstep : refusedStep grant rdonly w0 = .free := by
    unfold refusedStep
    rw [if_neg (by simp [grant, w0]), hroot]
  obtain ⟨⟨⟩, w', hrun, -⟩ := ok_of_wp (edTxnOpenRoots_spec grant rdonly (w := w0) hclosed hd)
    (fun _ _ h => by
      obtain ⟨t, ht⟩ := h.2 hstep
      cases ht) (fun _ _ h => h) id
  exact ⟨grant, w', hrun⟩

theorem not_reopens_of_dangling (h : w.roots .keys = .dangling) : ¬ Reopens true w := by
  rintro ⟨env, w', hrun⟩
  have hnever : wp (edTxnOpenRoots env true) (fun _ _ => False) Prog.free
      { w with st := { w.st with busy := false } } := by
    unfold edTxnOpenRoots acquireSnapshot edPgLoad
    simp [onSt, h, Prog.free]
  exact wp_ok hnever hrun

/-- The failing paths after which nothing is left: the lock was refused; a read-only open could not
map the first root, or the second one when there is no first; the pages of an abandoned transaction
could not be freed in an index without a committed transaction. -/
def Undoes (rdonly : Bool) (w : RootSt E) : OpenStep → Prop
  | .lock => True
  | .root .keys => rdonly = true
  | .root .blocks => rdonly = true ∧ w.st.hdr.tree .keys = none
  | .free => w.st.hdr.xid = 0

/-- A failed snapshot left nothing behind exactly when no lock was taken for it and no root had
been mapped before the one that failed. -/
theorem undone_root_iff (hidle : w.Idle) (d : EdDb) (h : LeftBy rdonly w w' (.root d))
    (env : Env E) : Undone rdonly w w' ↔ Undoes rdonly w (.root d) := by
  obtain ⟨k, rfl⟩ := h
  have hsame : SameFree w.st.hdr w.st.hdr := ⟨rfl, rfl, le_rfl⟩
  cases rdonly with
  | false =>
    -- The lock is still held.
    refine ⟨fun hu => absurd (show true = false from hu.lck) (by decide), fun hu => ?_⟩
    cases d with
    | keys => exact absurd (show false = true from hu) (by decide)
    | blocks => exact absurd hu.1 (by decide)
  | true =>
    cases d with
    | keys =>
      refine ⟨fun _ => rfl, fun _ => ⟨hidle.lck, rfl, rfl, rfl, hsame, ?_⟩⟩
      refine reopens_of_roots env true hidle.closed fun e => ?_
      cases e with
      | keys => exact nofun
      | blocks => exact hidle.roots .blocks
    | blocks =>
      cases htree : w.st.hdr.tree .keys with
      | none =>
        refine ⟨fun _ => ⟨rfl, htree⟩, fun _ => ⟨hidle.lck, rfl, rfl, rfl, hsame, ?_⟩⟩
        refine reopens_of_roots env true hidle.closed fun e => ?_
        cases e with
        | keys =>
          show (RootPtr.of (w.st.hdr.tree .keys)).unmap ≠ .dangling
          rw [htree]
          exact nofun
        | blocks => exact nofun
      | some no =>
        refine ⟨fun hu => absurd hu.reopens (not_reopens_of_dangling ?_), fun hu => ?_⟩
        · show (RootPtr.of (w.st.hdr.tree .keys)).unmap = .dangling
          rw [htree]
          rfl
        · exact absurd (htree.symm.trans hu.2) (by simp)

/-- An idle index with both trees and the pages of an abandoned transaction. -/
def abandonedSt : RootSt UInt64 where
  st := { closedSt [] [] with hdr := { (closedSt [] []).hdr with
    tree := fun d => some (if d = .keys then 2 else 3), active := [4, 5] } }
  roots _ := .null

/-- An environment that refuses one request. -/
def Env.refusing (r : EdReq) (t : Nat) : Env UInt64 :=
  { Env.calm with fails := fun q k => q = r ∧ k = t }

end Eddy
