import Eddy.Index.Alloc
import Eddy.Index.Near

/-!
# Eddy — what opening, committing and closing a transaction does to the shared state

The functions of `txn.c` around a transaction move pages between the header's `active` list, the
connection's `pending` list, the free list and the transaction's own page array, and they set the
connection's xid. Every lemma here says for one function which parts of the state it replaces,
as an equation between the states before and after, and what it puts there.
-/

namespace Eddy

open Outcome List

variable {E : Type} (env : Env E)

/-! ## Giving pages back -/

/-- The header after the pages `pg` were put into the free list. -/
structure HdrFreed (h h' : EdPgIdx) (pg : List Nat) : Prop where
  moves : Moves h h' [] pg
  gcs : ∀ p, p ∈ h.gcs ∨ p ∈ pg → p ∈ h'.gcs
  tree : h'.tree = h.tree
  xid : h'.xid = h.xid
  vno : h'.vno = h.vno

theorem HdrFreed.refl (h : EdPgIdx) : HdrFreed h h [] where
  moves := Moves.refl h
  gcs _ hp := hp.resolve_right (not_mem_nil)
  tree := rfl
  xid := rfl
  vno := rfl

theorem HdrFreed.setActive {h h' : EdPgIdx} {pg : List Nat} (hf : HdrFreed h h' pg)
    (a b : List Nat) : HdrFreed { h with active := a } { h' with active := b } pg where
  moves := ⟨hf.moves.no_le, hf.moves.perm⟩
  gcs := hf.gcs
  tree := hf.tree
  xid := hf.xid
  vno := hf.vno

theorem HdrFreed.trans {h h' h'' : EdPgIdx} {pg pg' : List Nat} (a : HdrFreed h h' pg)
    (b : HdrFreed h' h'' pg') : HdrFreed h h'' (pg ++ pg') where
  moves := a.moves.trans b.moves
  gcs p hp := by
    rw [mem_append] at hp
    rcases hp with hp | hp | hp
    · exact b.gcs p (.inl (a.gcs p (.inl hp)))
    · exact b.gcs p (.inl (a.gcs p (.inr hp)))
    · exact b.gcs p (.inr hp)
  tree := b.tree.trans a.tree
  xid := b.xid.trans a.xid
  vno := b.vno.trans a.vno

/-- A call put the pages `pg` into the free list and did nothing else. -/
structure Freed (s s' : St E) (pg : List Nat) : Prop where
  eq : s' = { s with hdr := s'.hdr, tick := s'.tick }
  active : s'.hdr.active = s.hdr.active
  hdr : HdrFreed s.hdr s'.hdr pg

/-- Some request of a call that frees pages is refused. -/
def FreeRefused : Prop := ∃ t, env.fails .free t = true

theorem mapEndPages_gcs (n : Nat) (s : St E) :
    wp (mapEndPages env .free n) (fun _ s' => s'.hdr.gcs = s.hdr.gcs)
      ⟨fun _ s' => s'.hdr.gcs = s.hdr.gcs ∧ FreeRefused env, fun _ _ => False, False⟩ s := by
  unfold mapEndPages
  simp only [wp_ite, wp_pure', wp_bind, wp_modHdr, wp_sysFails, wp_throw,
    wp_gets]
  exact ⟨fun _ => trivial, fun _ => ⟨fun h => ⟨rfl, _, h⟩, fun _ => rfl⟩⟩

theorem edFreePgno_gcs (xid : Nat) (pg : List Nat) (s : St E) :
    wp (edFreePgno env xid pg) (fun _ s' => ∀ p, p ∈ s.hdr.gcs ∨ p ∈ pg → p ∈ s'.hdr.gcs)
      ⟨fun _ s' => s'.hdr.gcs = s.hdr.gcs ∧ FreeRefused env, fun _ _ => False, False⟩ s := by
  unfold edFreePgno
  simp only [wp_ite, wp_pure', wp_bind, wp_sysFails, wp_throw, wp_gets]
  refine ⟨fun h p hp => ?_, fun _ => ⟨fun h => ⟨rfl, _, h⟩, fun _ => ?_⟩⟩
  · subst h
    exact hp.resolve_right (not_mem_nil)
  · refine wp_post (mapEndPages_gcs env _ _) ?_
    intro fresh s' h p hp
    have h' : s'.hdr.gcs = s.hdr.gcs := h
    simp only [St.modHdr, h', mem_append]
    tauto

theorem edFreePgno_freed (xid : Nat) (pg : List Nat) (s : St E) :
    wp (edFreePgno env xid pg) (fun _ s' => Freed s s' pg)
      ⟨fun _ s' => Freed s s' [] ∧ FreeRefused env, fun _ _ => False, False⟩ s := by
  refine wp_mono (wp_and (edFreePgno_spec env xid pg s) (edFreePgno_gcs env xid pg s))
    ?_ ?_ (fun _ _ h => h.1) fun h => h.1
  · rintro _ s' ⟨⟨hp, h⟩, hg⟩
    refine ⟨?_, h.active, ⟨h.moves, hg, h.tree, h.xid, h.vno⟩⟩
    rw [← h.txn, ← h.conn, ← h.lck, ← h.busy, ← h.lost, ← hp]
  · rintro _ s' ⟨⟨hp, h⟩, hg, hr⟩
    refine ⟨⟨?_, h.active, ⟨h.moves, fun p hp => ?_, h.tree, h.xid, h.vno⟩⟩, hr⟩
    · rw [← h.txn, ← h.conn, ← h.lck, ← h.busy, ← h.lost, ← hp]
    · rw [hg]
      exact hp.resolve_right (not_mem_nil)

/-- The pages `pg` were given back: `inn` reached the free list, `out` was leaked because the call
that frees them failed. -/
structure GaveBack (s s' : St E) (pg inn out : List Nat) : Prop where
  eq : s' = { s with hdr := s'.hdr, tick := s'.tick, lost := s'.lost }
  active : s'.hdr.active = s.hdr.active
  hdr : HdrFreed s.hdr s'.hdr inn
  lost : s'.lost = s.lost ++ out
  cases : (inn = pg ∧ out = []) ∨ (inn = [] ∧ out = pg ∧ FreeRefused env)

theorem freeOrLose_gaveBack (xid : Nat) (pg : List Nat) (s : St E)
    (X : Exits EdErr EdFault (St E)) :
    wp (freeOrLose env xid pg) (fun _ s' => ∃ inn out, GaveBack env s s' pg inn out) X s := by
  unfold freeOrLose
  rw [wp_bind, wp_attempt]
  refine wp_mono (edFreePgno_freed env xid pg s) ?_ ?_ (fun _ _ h => h.elim) False.elim
  · intro _ s' h
    refine ⟨pg, [], ?_, h.active, h.hdr, ?_, .inl ⟨rfl, rfl⟩⟩
    · have e := h.eq
      rw [e]
    · have e := congrArg St.lost h.eq
      simpa using e
  · rintro _ s' ⟨h, hr⟩
    refine ⟨[], pg, ?_, h.active, h.hdr, ?_, .inr ⟨rfl, rfl, hr⟩⟩
    · have e := h.eq
      rw [e]
    · have e := congrArg St.lost h.eq
      simpa using e

/-! ## Opening -/

/-- The pages of an abandoned transaction go to the free list, or stay where they are and the
write lock is released. -/
theorem freeAbandoned_spec (s : St E) :
    wp (freeAbandoned env)
      (fun _ s' => s' = { s with hdr := s'.hdr, tick := s'.tick } ∧ s'.hdr.active = [] ∧
        HdrFreed s.hdr s'.hdr s.hdr.active)
      ⟨fun _ s' => s' = { s with hdr := s'.hdr, tick := s'.tick, lck := false } ∧
        s'.hdr.active = s.hdr.active ∧ HdrFreed s.hdr s'.hdr [], fun _ _ => False, False⟩ s := by
  unfold freeAbandoned
  rw [wp_bind, wp_gets, wp_ite]
  refine ⟨fun h => ?_, fun _ => ?_⟩
  · rw [wp_pure']
    refine ⟨rfl, h, ?_⟩
    rw [h]
    exact HdrFreed.refl s.hdr
  · rw [wp_bind, wp_modHdr, wp_bind, wp_attempt]
    refine wp_mono (edFreePgno_freed env 0 s.hdr.active _) ?_ ?_ (fun _ _ h => h) id
    · intro _ s' h
      have e := h.eq
      exact ⟨by rw [e]; rfl, h.active, h.hdr.setActive s.hdr.active s'.hdr.active⟩
    · rintro _ s' ⟨h, -⟩
      have e := h.eq
      refine ⟨?_, rfl, h.hdr.setActive s.hdr.active s.hdr.active⟩
      change ({ s'.modHdr (fun h => { h with active := s.hdr.active }) with lck := false } : St E)
        = _
      rw [e]
      rfl

/-- The pending pages that the transaction does not have itself are given back, and its own pages
are noted as active. -/
theorem takePending_spec (s : St E) (X : Exits EdErr EdFault (St E)) :
    wp (takePending env)
      (fun _ s' => s' = { s with
          hdr := s'.hdr, tick := s'.tick, lost := s'.lost, conn := { s.conn with pending := [] } } ∧
        s'.hdr.active = s.txn.pg ∧
        ∃ inn out, HdrFreed s.hdr s'.hdr inn ∧ s'.lost = s.lost ++ out ∧
          ((inn = inactivePending s.conn.pending s.txn.pg ∧ out = []) ∨
            (inn = [] ∧ out = inactivePending s.conn.pending s.txn.pg ∧ FreeRefused env))) X s := by
  unfold takePending
  rw [wp_bind, wp_get, wp_bind, wp_modConn, wp_bind]
  refine wp_post (freeOrLose_gaveBack env 0 _ _ X) ?_
  rintro _ s' ⟨inn, out, h⟩
  rw [wp_modHdr]
  have e := h.eq
  refine ⟨?_, rfl, inn, out, h.hdr.setActive s.hdr.active s.txn.pg, h.lost, h.cases⟩
  rw [e]
  rfl

theorem wrapRoot_spec (d : EdDb) (s : St E) (X : Exits EdErr EdFault (St E)) :
    wp (wrapRoot d) (fun _ s' => ∃ nodes nused db,
      s' = s.modTxn fun t => { t with nodes := nodes, nused := nused, db := db }) X s := by
  unfold wrapRoot
  rw [wp_bind, wp_get]
  cases s.hdr.tree d with
  | none => exact ⟨_, _, _, rfl⟩
  | some no => exact ⟨_, _, _, rfl⟩

/-- A transaction was opened. -/
structure Opened (rdonly : Bool) (s s' : St E) : Prop where
  closed : s.txn.state = .closed
  txn : ∃ nodes nused db, s'.txn = { s.txn with
    nodes := nodes, nused := nused, db := db, isrdonly := rdonly, state := .open
    xid := if rdonly then s.txn.xid else s.hdr.xid + 1
    vno := if rdonly then s.txn.vno else s.hdr.vno }
  pages : s'.pages = s.pages
  busy : s'.busy = s.busy
  xid : s'.conn.xid = s.hdr.xid
  read : rdonly = true → s'.hdr = s.hdr ∧ s'.conn.pending = s.conn.pending ∧ s'.lck = s.lck ∧
    s'.lost = s.lost
  write : rdonly = false → s.busy = false ∧ s'.lck = true ∧ s'.conn.pending = [] ∧
    s'.hdr.active = s.txn.pg ∧ ∃ inn out, HdrFreed s.hdr s'.hdr (s.hdr.active ++ inn) ∧
      s'.lost = s.lost ++ out ∧
      ((inn = inactivePending s.conn.pending s.txn.pg ∧ out = []) ∨
        (inn = [] ∧ out = inactivePending s.conn.pending s.txn.pg ∧ FreeRefused env))

/-- An attempt to open a transaction failed: it stays as it was, with its pages, and no list of
pages changed. The connection may have a new xid only when the transaction was closed. -/
structure OpenFailed (rdonly : Bool) (s s' : St E) : Prop where
  txn : ∃ nodes nused db xid vno, s'.txn = { s.txn with
    nodes := nodes, nused := nused, db := db, xid := xid, vno := vno }
  pages : s'.pages = s.pages
  busy : s'.busy = s.busy
  lost : s'.lost = s.lost
  pending : s'.conn.pending = s.conn.pending
  hdr : HdrFreed s.hdr s'.hdr []
  active : s'.hdr.active = s.hdr.active
  same : s' = { s with tick := s'.tick } ∨ s.txn.state = .closed
  read : rdonly = true → s'.hdr = s.hdr
  lck : (rdonly = true ∨ s.busy = true) → s'.lck = s.lck

theorem OpenFailed.of_tick (rdonly : Bool) (s : St E) (k : Nat) :
    OpenFailed rdonly s (s.atTick k) where
  txn := ⟨_, _, _, _, _, rfl⟩
  pages := rfl
  busy := rfl
  lost := rfl
  pending := rfl
  hdr := HdrFreed.refl _
  active := rfl
  same := .inl rfl
  read _ := rfl
  lck _ := rfl

/-- The exits of `ed_txn_open`. It has no fault point. -/
def openExits (rdonly : Bool) (s : St E) : Exits EdErr EdFault (St E) where
  err _ s' := OpenFailed rdonly s s'
  halt _ _ := False
  stuck := False

theorem edIdxAcquireSnapshot_spec (s : St E) :
    wp (edIdxAcquireSnapshot env)
      (fun _ s' => s' = (s.modConn fun c => { c with xid := s.hdr.xid }).atTick (s.tick + 1))
      ⟨fun _ s' => s' = (s.modConn fun c => { c with xid := 0 }).atTick (s.tick + 1),
        fun _ _ => False, False⟩ s := by
  unfold edIdxAcquireSnapshot
  simp only [wp_bind, wp_get, wp_modConn, wp_sysFails, wp_ite, wp_throw,
    wp_pure']
  exact ⟨fun _ => rfl, fun _ => rfl⟩

theorem openWrite_spec (s : St E) :
    wp (openWrite env)
      (fun _ s' => s' = { s with
          txn := { s.txn with xid := s.hdr.xid + 1, vno := s.hdr.vno }
          conn := { s.conn with pending := [] }
          hdr := s'.hdr, lost := s'.lost, tick := s'.tick } ∧
        s'.hdr.active = s.txn.pg ∧ ∃ inn out, HdrFreed s.hdr s'.hdr (s.hdr.active ++ inn) ∧
          s'.lost = s.lost ++ out ∧
          ((inn = inactivePending s.conn.pending s.txn.pg ∧ out = []) ∨
            (inn = [] ∧ out = inactivePending s.conn.pending s.txn.pg ∧ FreeRefused env)))
      ⟨fun _ s' => s' = { s with
          txn := { s.txn with xid := s.hdr.xid + 1, vno := s.hdr.vno }
          hdr := s'.hdr, tick := s'.tick, lck := false } ∧
        s'.hdr.active = s.hdr.active ∧ HdrFreed s.hdr s'.hdr [], fun _ _ => False, False⟩ s := by
  unfold openWrite
  rw [wp_bind, wp_gets, wp_bind, wp_modTxn, wp_bind]
  refine wp_post (freeAbandoned_spec env _) ?_
  rintro _ s1 ⟨e1, hact, hf⟩
  have htxn : s1.txn = { s.txn with xid := s.hdr.xid + 1, vno := s.hdr.vno } :=
    (congrArg St.txn e1 :)
  have hconn : s1.conn = s.conn := (congrArg St.conn e1 :)
  have hlost : s1.lost = s.lost := (congrArg St.lost e1 :)
  refine wp_post (takePending_spec env s1 _) ?_
  rintro _ s' ⟨e', hact', inn, out, hf', hl, hc⟩
  rw [htxn, hconn] at hc
  refine ⟨?_, by rw [hact', htxn], inn, out, hf.trans hf', by rw [hl, hlost], hc⟩
  rw [e', e1]
  rfl

theorem edLck_spec (s : St E) :
    wp (edLck env)
      (fun _ s' => s.busy = false ∧ s' = { s.atTick (s.tick + 1) with lck := true })
      ⟨fun _ s' => ∃ k, s' = s.atTick k, fun _ _ => False, False⟩ s := by
  unfold edLck
  simp only [wp_bind, wp_get, wp_ite, wp_throw, wp_sysFails, wp_modify]
  exact ⟨fun _ => ⟨s.tick, rfl⟩, fun hbusy => ⟨fun _ => ⟨s.tick + 1, rfl⟩, fun _ =>
    ⟨by simpa using hbusy, trivial⟩⟩⟩

/-- The end of `ed_txn_open`, after the snapshot was taken under the lock `l` and the roots were
wrapped. Only the pages of an abandoned transaction can make it fail, and then the lock is released
and the xid is not. -/
theorem openRest_spec (rdonly : Bool) {s : St E} (hclosed : s.txn.state = .closed) (k : Nat)
    {l : Bool} (hrd : rdonly = true → l = s.lck) (hwr : rdonly = false → s.busy = false ∧ l = true)
    (nodes : Nat → EdNode) (nused : Nat) (db : EdDb → EdTxnDb) :
    wp (do
        Prog.when (rdonly = false) (openWrite env)
        modTxn fun t => { t with isrdonly := rdonly, state := .open })
      (fun _ s' => Opened env rdonly s s')
      ⟨fun _ s' => OpenFailed rdonly s s' ∧ rdonly = false ∧ s'.lck = false ∧
        s'.conn = { s.conn with xid := s.hdr.xid }, fun _ _ => False, False⟩
      { s with
        txn := { s.txn with nodes := nodes, nused := nused, db := db }
        conn := { s.conn with xid := s.hdr.xid }, lck := l, tick := k } := by
  rw [wp_bind, wp_when]
  refine ⟨fun h => ?_, fun h => ?_⟩
  · subst h
    obtain ⟨hbusy, rfl⟩ := hwr rfl
    refine wp_mono (openWrite_spec env _) ?_ ?_ (fun _ _ h => h) id
    · rintro _ s4 ⟨e, hact, inn, out, hf, hl, hc⟩
      rw [wp_modTxn]
      refine ⟨hclosed, ⟨nodes, nused, db, ?_⟩, (congrArg St.pages e :), (congrArg St.busy e :),
        (congrArg (fun x => x.conn.xid) e :), fun h => absurd h (by decide), fun _ =>
        ⟨hbusy, (congrArg St.lck e :), (congrArg (fun x => x.conn.pending) e :), hact, inn, out,
          hf, hl, hc⟩⟩
      change { s4.txn with isrdonly := false, state := EdTxnState.open } = _
      rw [e]
      rfl
    · rintro _ s4 ⟨e, hact, hf⟩
      refine ⟨⟨⟨nodes, nused, db, s.hdr.xid + 1, s.hdr.vno, ?_⟩, (congrArg St.pages e :),
        (congrArg St.busy e :), (congrArg St.lost e :), (congrArg (fun x => x.conn.pending) e :),
        hf, hact, .inr hclosed, (fun h => absurd h (by decide)), fun h => ?_⟩, rfl,
        (congrArg St.lck e :), (congrArg St.conn e :)⟩
      · rw [e]
      · rw [hbusy] at h
        exact absurd h (by decide)
  · have hrd' : rdonly = true := by simpa using h
    subst hrd'
    rw [wp_modTxn]
    exact ⟨hclosed, ⟨nodes, nused, db, rfl⟩, rfl, rfl, rfl, fun _ => ⟨rfl, rfl, hrd rfl, rfl⟩,
      fun h => absurd h (by decide)⟩

theorem openLocked_spec (rdonly : Bool) {s : St E} (hclosed : s.txn.state = .closed) (k : Nat)
    {l : Bool} (hrd : rdonly = true → l = s.lck) (hwr : rdonly = false → s.busy = false ∧ l = true) :
    wp (do
        edIdxAcquireSnapshot env
        wrapRoot .keys
        wrapRoot .blocks
        Prog.when (rdonly = false) (openWrite env)
        modTxn fun t => { t with isrdonly := rdonly, state := .open })
      (fun _ s' => Opened env rdonly s s') (openExits rdonly s) { s.atTick k with lck := l } := by
  rw [wp_bind]
  refine wp_mono (edIdxAcquireSnapshot_spec env _) ?_ ?_ (fun _ _ h => h) id
  · rintro _ s1 rfl
    rw [wp_bind]
    refine wp_post (wrapRoot_spec .keys _ _) ?_
    rintro _ s2 ⟨nodes1, nused1, db1, rfl⟩
    rw [wp_bind]
    refine wp_post (wrapRoot_spec .blocks _ _) ?_
    rintro _ s3 ⟨nodes, nused, db, rfl⟩
    exact wp_mono (openRest_spec env rdonly hclosed (k + 1) hrd hwr nodes nused db)
      (fun _ _ h => h) (fun _ _ h => h.1) (fun _ _ h => h) id
  · rintro _ s1 rfl
    refine ⟨⟨_, _, _, _, _, rfl⟩, rfl, rfl, rfl, rfl, HdrFreed.refl _, rfl, .inr hclosed,
      (fun _ => rfl), fun h => ?_⟩
    cases rdonly with
    | true => exact hrd rfl
    | false =>
      rw [(hwr rfl).1] at h
      exact absurd h (by decide)

theorem edTxnOpen_spec (rdonly : Bool) (s : St E) :
    wp (edTxnOpen env rdonly) (fun _ s' => Opened env rdonly s s') (openExits rdonly s) s := by
  unfold edTxnOpen
  rw [wp_bind, wp_gets, wp_ite]
  refine ⟨fun _ => OpenFailed.of_tick rdonly s s.tick, fun hopen => ?_⟩
  have hclosed : s.txn.state = .closed := not_not.mp hopen
  rw [wp_bind, wp_when]
  refine ⟨fun h => ?_, fun h => ?_⟩
  · subst h
    refine wp_mono (edLck_spec env s) ?_ ?_ (fun _ _ h => h) id
    · rintro _ s1 ⟨hbusy, rfl⟩
      exact openLocked_spec env false hclosed _ (fun h => absurd h (by decide)) fun _ =>
        ⟨hbusy, rfl⟩
    · rintro _ s1 ⟨k, rfl⟩
      exact OpenFailed.of_tick false s k
  · have hrd : rdonly = true := by simpa using h
    subst hrd
    exact openLocked_spec env true hclosed s.tick (fun _ => rfl) fun h => absurd h (by decide)

/-! ## Closing -/

/-- The transaction at the start of a close: an open one is cancelled. -/
def St.cancelled (s : St E) : St E :=
  s.modTxn fun t => { t with state := if t.state = .open then .cancelled else t.state }

/-- The transaction is or was open for writing, so that its process has the write lock. -/
def EdTxn.Writer (t : EdTxn) : Prop := t.state ≠ .closed ∧ t.isrdonly = false

/-- The connection's xid after a close. -/
def closedXid (reset : Bool) (s : St E) : Nat :=
  if reset = false ∨ s.txn.state ≠ .closed then 0 else s.conn.xid

/-- Whether a close works on the page lists: a writer always does, any other transaction only when
it has pages and gets the write lock. -/
structure CloseLock (s : St E) (locked : Bool) : Prop where
  yes : locked = true → s.txn.Writer ∨ (s.txn.pg ≠ [] ∧ s.busy = false)
  no : locked = false → ¬ s.txn.Writer

/-- A close returned. -/
structure Closed (reset locked : Bool) (s s' : St E) : Prop where
  txn : s'.txn = if reset then
      ({ s.txn with pg := if locked then s.txn.pg.take (keepCount reset) else s.txn.pg } : EdTxn).afterReset
    else EdTxn.blank
  pages : s'.pages = s.pages
  busy : s'.busy = s.busy
  xid : s'.conn.xid = closedXid reset s
  unlocked : locked = false → s'.hdr = s.hdr ∧ s'.conn.pending = s.conn.pending ∧
    s'.lck = s.lck ∧ s'.lost = s.lost
  locked : locked = true → s'.hdr.active = [] ∧
    s'.conn.pending = s.txn.pg.take (keepCount reset) ∧ s'.lck = false ∧
    ∃ inn out, HdrFreed s.hdr s'.hdr inn ∧ s'.lost = s.lost ++ out ∧
      ((inn = s.txn.pg.drop (keepCount reset) ∧ out = []) ∨
        (inn = [] ∧ out = s.txn.pg.drop (keepCount reset) ∧ FreeRefused env))

/-- Where a close can be killed, and what it has done by then. -/
inductive CloseHalt (reset : Bool) (s : St E) : EdFault → St E → Prop where
  | closeBegin : CloseHalt reset s .closeBegin s.cancelled
  | pendingBegin (k : Nat) (l : Bool) (hl : CloseLock s true) :
      CloseHalt reset s .pendingBegin { s.cancelled with
        hdr := { s.hdr with active := [] }
        conn := { s.conn with xid := closedXid reset s }
        lck := l, tick := k }
  | pendingFinish (k : Nat) (l : Bool) (hl : CloseLock s true) :
      CloseHalt reset s .pendingFinish { s with
        hdr := { s.hdr with active := [] }
        conn := ⟨closedXid reset s, s.txn.pg.take (keepCount reset)⟩
        txn := { s.cancelled.txn with pg := s.txn.pg.take (keepCount reset) }
        lck := l, tick := k }

/-- The exits of `ed_txn_close`, which returns no error code. -/
def closeExits (reset : Bool) (s : St E) : Exits EdErr EdFault (St E) where
  err _ _ := False
  halt f s' := CloseHalt reset s f s'
  stuck := False

theorem cancelled_writer (s : St E) : s.cancelled.txn.Writer ↔ s.txn.Writer := by
  change (if s.txn.state = .open then EdTxnState.cancelled else s.txn.state) ≠ .closed ∧ _ ↔ _
  unfold EdTxn.Writer
  split
  · rename_i h
    rw [h]
    simp [St.cancelled]
  · rfl

theorem closeLock_spec (s : St E) (X : Exits EdErr EdFault (St E)) :
    wp (closeLock env s.cancelled.txn)
      (fun locked s' => CloseLock s locked ∧ ∃ k l, s' = { s.cancelled with tick := k, lck := l } ∧
        (locked = false → l = s.lck)) X s.cancelled := by
  have hpg : s.cancelled.txn.pg = s.txn.pg := rfl
  unfold closeLock
  split
  · rename_i h
    exact ⟨⟨fun _ => .inl ((cancelled_writer s).mp h), fun h => absurd h (by decide)⟩, s.tick, s.lck,
      rfl, fun _ => rfl⟩
  · rename_i hw
    have hw' : ¬ s.txn.Writer := fun h => hw ((cancelled_writer s).mpr h)
    split
    · exact ⟨⟨fun h => absurd h (by decide), fun _ => hw'⟩, s.tick, s.lck, rfl, fun _ => rfl⟩
    · rename_i hne
      rw [wp_bind, wp_attempt]
      refine wp_mono (edLck_spec env _) ?_ ?_ (fun _ _ h => h.elim) False.elim
      · rintro _ s1 ⟨hbusy, rfl⟩
        exact ⟨⟨fun _ => .inr ⟨hne, hbusy⟩, fun h => nomatch h⟩, _, true, rfl, fun h => nomatch h⟩
      · rintro _ s1 ⟨k, rfl⟩
        exact ⟨⟨(fun h => nomatch h), fun _ => hw'⟩, k, s.lck, rfl, fun _ => rfl⟩

theorem closePending_spec (reset : Bool) (s : St E) :
    wp (closePending env reset)
      (fun _ s' => s' = { s with
          txn := { s.txn with pg := s.txn.pg.take (keepCount reset) }
          conn := { s.conn with pending := s.txn.pg.take (keepCount reset) }
          lck := false, hdr := s'.hdr, lost := s'.lost, tick := s'.tick } ∧
        s'.hdr.active = [] ∧ ∃ inn out, HdrFreed s.hdr s'.hdr inn ∧ s'.lost = s.lost ++ out ∧
          ((inn = s.txn.pg.drop (keepCount reset) ∧ out = []) ∨
            (inn = [] ∧ out = s.txn.pg.drop (keepCount reset) ∧ FreeRefused env)))
      ⟨fun _ _ => False, fun f s' =>
        (f = .pendingBegin ∧ s' = { s with hdr := { s.hdr with active := [] }, tick := s'.tick }) ∨
        (f = .pendingFinish ∧ s' = { s with
          hdr := { s.hdr with active := [] }
          txn := { s.txn with pg := s.txn.pg.take (keepCount reset) }
          conn := { s.conn with pending := s.txn.pg.take (keepCount reset) }
          tick := s'.tick }), False⟩ s := by
  unfold closePending flushActive
  rw [wp_bind, wp_modHdr, wp_bind, wp_edFaultTrigger]
  refine ⟨fun _ => .inl ⟨rfl, rfl⟩, fun _ => ?_⟩
  simp only [wp_bind, wp_gets, wp_modConn, wp_modTxn]
  rw [wp_edFaultTrigger]
  refine ⟨fun _ => .inr ⟨rfl, rfl⟩, fun _ => ?_⟩
  refine wp_post (freeOrLose_gaveBack env 0 _ _ _) ?_
  rintro _ s' ⟨inn, out, h⟩
  have e := h.eq
  refine ⟨?_, h.active, inn, out, h.hdr.setActive s.hdr.active s'.hdr.active, h.lost, h.cases⟩
  rw [e]
  rfl

theorem edTxnClose_spec (reset : Bool) (s : St E) :
    wp (edTxnClose env reset)
      (fun _ s' => ∃ locked, CloseLock s locked ∧ Closed env reset locked s s')
      (closeExits reset s) s := by
  unfold edTxnClose
  rw [wp_bind, wp_modTxn, wp_bind, wp_edFaultTrigger]
  refine ⟨fun _ => .closeBegin, fun _ => ?_⟩
  rw [wp_bind, wp_gets, wp_bind]
  refine wp_post (closeLock_spec env (s.atTick (s.tick + 1)) _) ?_
  rintro locked s1 ⟨hl, k, l, rfl, hfree⟩
  have hl' : CloseLock s locked := ⟨hl.yes, hl.no⟩
  -- the xid of the connection
  have hstate : (s.cancelled.txn.state ≠ .closed) = (s.txn.state ≠ .closed) := by
    change ((if s.txn.state = .open then EdTxnState.cancelled else s.txn.state) ≠ .closed) = _
    split
    · rename_i h
      rw [h]
      decide
    · rfl
  set s2 : St E := { s.cancelled with
    conn := { s.conn with xid := closedXid reset s }, tick := k, lck := l } with hs2
  have hxid : wp (Prog.when (reset = false ∨ s.cancelled.txn.state ≠ .closed)
      (modConn fun c => { c with xid := 0 }))
      (fun _ s' => s' = s2) (closeExits reset s)
      { (s.atTick (s.tick + 1)).cancelled with tick := k, lck := l } := by
    rw [wp_when, hstate]
    refine ⟨fun h => ?_, fun h => ?_⟩
    · rw [wp_modConn, hs2, closedXid, if_pos h]
      rfl
    · rw [hs2, closedXid, if_neg h]
      rfl
  rw [wp_bind]
  refine wp_post hxid ?_
  rintro _ _ rfl
  rw [wp_bind, wp_when]
  refine ⟨fun hlocked => ?_, fun hlocked => ?_⟩
  · subst hlocked
    refine wp_mono (closePending_spec env reset s2) ?_ (fun _ _ h => h.elim) ?_ False.elim
    · rintro _ s3 ⟨e, hact, inn, out, hf, hlost, hc⟩
      rw [wp_modTxn]
      refine ⟨true, hl', ?_, (congrArg St.pages e :), (congrArg St.busy e :),
        (congrArg (fun x => x.conn.xid) e :), (fun h => nomatch h), fun _ =>
        ⟨hact, (congrArg (fun x => x.conn.pending) e :), (congrArg St.lck e :), inn, out, hf, hlost,
          hc⟩⟩
      change (if reset then s3.txn.afterReset else EdTxn.blank) = _
      rw [e]
      rfl
    · rintro f s3 (⟨rfl, e⟩ | ⟨rfl, e⟩)
      · rw [e]
        exact .pendingBegin _ _ hl'
      · rw [e]
        exact .pendingFinish _ _ hl'
  · have hno : locked = false := by simpa using hlocked
    subst hno
    rw [wp_modTxn]
    refine ⟨false, hl', ?_, rfl, rfl, rfl, fun _ => ⟨rfl, rfl, hfree rfl, rfl⟩, fun h => nomatch h⟩
    change (if reset then s2.txn.afterReset else EdTxn.blank) = _
    rfl

/-! ## Committing -/

/-- The header with the roots of the transaction, before and after it gets the new xid. -/
def St.rooted (s : St E) : EdPgIdx := { s.hdr with active := [], tree := rootNo s }

/-- The transaction published its roots, its xid and its vno and gave the replaced pages back. -/
structure Published (s s' : St E) : Prop where
  eq : s' = { s with
    hdr := s'.hdr, lost := s'.lost, tick := s'.tick
    txn := { s.txn with
      pg := s.txn.pg.drop s.txn.npgused, npgused := 0, gc := [], state := .committed } }
  active : s'.hdr.active = []
  freed : ∃ inn out, HdrFreed { s.rooted with xid := s.txn.xid, vno := s.txn.vno } s'.hdr inn ∧
    s'.lost = s.lost ++ out ∧
    ((inn = s.txn.gc ∧ out = []) ∨ (inn = [] ∧ out = s.txn.gc ∧ FreeRefused env))

/-- Where a commit can be killed before it closes the transaction. -/
inductive CommitHalt (s : St E) : EdFault → St E → Prop where
  | commitBegin : CommitHalt s .commitBegin s
  | activeCleared (k : Nat) :
      CommitHalt s .activeCleared { s with hdr := { s.hdr with active := [] }, tick := k }
  | updateTree (k : Nat) :
      CommitHalt s .updateTree { s with
        hdr := s.rooted, tick := k
        txn := { s.txn with pg := s.txn.pg.drop s.txn.npgused, npgused := 0 } }

/-- The exits of `ed_txn_commit`. A closed transaction is refused; a read-only one and one with an
error code are closed. -/
def commitExits (reset : Bool) (s : St E) : Exits EdErr EdFault (St E) where
  err _ s' := (s.txn.state = .closed ∧ s' = s) ∨ (s.txn.state ≠ .closed ∧ edTxnIsrdonly s.txn = true ∧
    ∃ locked, CloseLock s locked ∧ Closed env reset locked s s')
  halt f s' := s.txn.state ≠ .closed ∧
    ((edTxnIsrdonly s.txn = true ∧ CloseHalt reset s f s') ∨
      (edTxnIsrdonly s.txn = false ∧
        (CommitHalt s f s' ∨ ∃ s1, Published env s s1 ∧ CloseHalt reset s1 f s')))
  stuck := False

theorem edTxnCommit_spec (reset : Bool) (s : St E) :
    wp (edTxnCommit env reset)
      (fun _ s' => s.txn.state ≠ .closed ∧ edTxnIsrdonly s.txn = false ∧
        ∃ s1 locked, Published env s s1 ∧ CloseLock s1 locked ∧ Closed env reset locked s1 s')
      (commitExits env reset s) s := by
  unfold edTxnCommit
  rw [wp_bind, wp_gets, wp_ite]
  refine ⟨fun h => .inl ⟨h, rfl⟩, fun hopen => ?_⟩
  rw [wp_ite]
  refine ⟨fun hrd => ?_, fun hrd => ?_⟩
  · rw [wp_bind]
    refine wp_mono (edTxnClose_spec env reset s) ?_ (fun _ _ h => h.elim) ?_ False.elim
    · intro _ s' h
      exact .inr ⟨hopen, hrd, h⟩
    · intro f s' h
      exact ⟨hopen, .inl ⟨hrd, h⟩⟩
  · have hwr : edTxnIsrdonly s.txn = false := by simpa using hrd
    have hhalt : ∀ f s', CommitHalt s f s' → (commitExits env reset s).halt f s' :=
      fun f s' h => ⟨hopen, .inr ⟨hwr, .inl h⟩⟩
    rw [wp_bind, wp_edFaultTrigger]
    refine ⟨fun _ => hhalt _ _ .commitBegin, fun _ => ?_⟩
    unfold flushActive
    rw [wp_bind, wp_modHdr, wp_bind, wp_edFaultTrigger]
    refine ⟨fun _ => hhalt _ _ (.activeCleared _), fun _ => ?_⟩
    rw [wp_bind, wp_modTxn, wp_bind, wp_get, wp_bind, wp_modHdr, wp_bind,
      wp_edFaultTrigger]
    refine ⟨fun _ => hhalt _ _ (.updateTree _), fun _ => ?_⟩
    rw [wp_bind, wp_modHdr, wp_bind]
    refine wp_post (freeOrLose_gaveBack env s.txn.xid s.txn.gc _ _) ?_
    rintro _ s1 ⟨inn, out, h⟩
    have e := h.eq
    rw [wp_bind, wp_modTxn]
    set s2 := s1.modTxn fun t => { t with gc := [], state := .committed } with hs2
    have hpub : Published env s s2 := by
      refine ⟨?_, h.active, inn, out, h.hdr.setActive [] _, h.lost, h.cases⟩
      rw [hs2, e]
      rfl
    refine wp_mono (edTxnClose_spec env reset s2) ?_ (fun _ _ h => h.elim) ?_ False.elim
    · rintro _ s' ⟨locked, hl, hc⟩
      exact ⟨hopen, hwr, s2, locked, hpub, hl, hc⟩
    · intro f s' h
      exact ⟨hopen, .inr ⟨hwr, .inr ⟨s2, hpub, h⟩⟩⟩

/-! ## A new transaction object -/

/-- The transaction object is a closed one without pages. -/
structure Blankish (t : EdTxn) : Prop where
  state : t.state = .closed
  pg : t.pg = []
  npgused : t.npgused = 0
  gc : t.gc = []
  isrdonly : t.isrdonly = false

theorem newRoot_spec (d : EdDb) (s : St E) (hb : Blankish s.txn) :
    wp (newRoot env d)
      (fun _ s' => s' = { s with txn := s'.txn, tick := s'.tick } ∧ Blankish s'.txn)
      ⟨fun _ s' => s' = { s with txn := s'.txn, tick := s'.tick } ∧ Blankish s'.txn,
        fun _ _ => False, False⟩ s := by
  unfold newRoot
  rw [wp_bind, wp_get]
  cases s.hdr.tree d with
  | none => exact ⟨rfl, hb⟩
  | some no =>
    unfold edTxnMap
    rw [wp_bind, wp_bind, wp_gets]
    cases nodeOf s.txn.nodes no s.txn.nused with
    | some n => exact ⟨rfl, hb.state, hb.pg, hb.npgused, hb.gc, hb.isrdonly⟩
    | none =>
      rw [wp_bind, wp_sysFails, wp_ite]
      exact ⟨fun _ => ⟨rfl, hb.state, hb.pg, hb.npgused, hb.gc, hb.isrdonly⟩,
        fun _ => ⟨rfl, hb.state, hb.pg, hb.npgused, hb.gc, hb.isrdonly⟩⟩

theorem edTxnClose_blankish (s : St E) (hb : Blankish s.txn) :
    wp (edTxnClose env false)
      (fun _ s' => s' = { s with txn := s'.txn, tick := s'.tick, conn := { s.conn with xid := 0 } })
      ⟨fun _ _ => False, fun _ s' => s' = { s with txn := s'.txn, tick := s'.tick }, False⟩ s := by
  have hlock : ¬ CloseLock s true := by
    intro h
    rcases h.yes rfl with hw | ⟨hpg, -⟩
    · exact hw.1 hb.state
    · exact hpg hb.pg
  refine wp_mono (edTxnClose_spec env false s) ?_ (fun _ _ h => h) ?_ id
  · rintro _ s' ⟨locked, hl, hc⟩
    cases locked with
    | true => exact absurd hl hlock
    | false =>
      obtain ⟨hh, hp, hk, hlo⟩ := hc.unlocked rfl
      have hconn : s'.conn = { s.conn with xid := 0 } := by
        have hx : s'.conn.xid = 0 := hc.xid
        change s'.conn = ⟨0, s.conn.pending⟩
        rw [← hp, ← hx]
      rw [← hconn, ← hh, ← hk, ← hlo, ← hc.pages, ← hc.busy]
  · intro f s' h
    cases h with
    | closeBegin => rfl
    | pendingBegin _ _ hl => exact absurd hl hlock
    | pendingFinish _ _ hl => exact absurd hl hlock

/-- The exits of `ed_txn_new`: the object is gone, and the connection has no xid when the call
returned. -/
def newExits (s : St E) : Exits EdErr EdFault (St E) where
  err _ s' := s' = { s with txn := s'.txn, tick := s'.tick, conn := { s.conn with xid := 0 } }
  halt _ s' := s' = { s with txn := s'.txn, tick := s'.tick }
  stuck := False

/-- `ed_txn_new` changes nothing but the transaction object; when it fails the connection loses its
xid. -/
theorem edTxnNew_spec (s : St E) :
    wp (edTxnNew env)
      (fun _ s' => s' = { s with txn := s'.txn, tick := s'.tick } ∧ Blankish s'.txn)
      (newExits s) s := by
  have hfail : ∀ s1 : St E, s1 = { s with txn := s1.txn, tick := s1.tick } → Blankish s1.txn →
      wp (edTxnClose env false) (fun _ s' => (newExits s).err .sys s') (newExits s) s1 := by
    intro s1 e1 hb
    refine wp_mono (edTxnClose_blankish env s1 hb) ?_ (fun _ _ h => h.elim) ?_ False.elim
    · intro _ s' h
      change s' = _
      rw [h, e1]
    · intro _ s' h
      change s' = _
      rw [h, e1]
  have hblank : Blankish EdTxn.blank := ⟨rfl, rfl, rfl, rfl, rfl⟩
  unfold edTxnNew
  rw [wp_bind, wp_modTxn, wp_bind, wp_attempt, wp_bind]
  refine wp_mono (newRoot_spec env .keys _ hblank) ?_ ?_ (fun _ _ h => h.elim) False.elim
  · rintro _ s1 ⟨e1, hb1⟩
    refine wp_mono (newRoot_spec env .blocks s1 hb1) ?_ ?_ (fun _ _ h => h.elim) False.elim
    · rintro _ s2 ⟨e2, hb2⟩
      exact ⟨by rw [e2, e1]; rfl, hb2⟩
    · rintro e s2 ⟨e2, hb2⟩
      change wp (edTxnClose env false >>= fun _ => Prog.throw e) _ _ _
      rw [wp_bind]
      exact hfail s2 (by rw [e2, e1]; rfl) hb2
  · rintro e s1 ⟨e1, hb1⟩
    change wp (edTxnClose env false >>= fun _ => Prog.throw e) _ _ _
    rw [wp_bind]
    exact hfail s1 (by rw [e1]; rfl) hb1

end Eddy
