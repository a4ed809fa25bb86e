import Eddy.Index.Mods
import Eddy.Index.Reopen
import Eddy.System.Failing

/-!
# Eddy — the index as a store of two multimaps

One process after another works on the index. It opens a transaction for writing, modifies both trees
and commits, or closes the transaction; it may die between two calls or at a fault point. Between two
transactions the index rests: the pages of the committed trees, those of the page lists and the free
ones are distinct, and no committed page is newer than `hdr->xid`. An open for writing starts from
there, a commit and a close lead back, and so does the death of the process, except between the stores
of `hdr->vtree` and `hdr->xid`.
-/

namespace Eddy

open Outcome PageTree List Function

variable {E : Type} {S : Nat → EdBpt E} {h : EdPgIdx} {t : EdTxn} {rdonly reset : Bool}
  {f : EdFault} {ms : List (EdDb × Mod E)}

/-! ## Between two transactions -/

/-- The committed trees have the pages `T` and the heights `hs`, and none of the pages is newer than
the xid of the header. -/
structure Standing (g : Geom) (S : Nat → EdBpt E) (h : EdPgIdx) (T : List Nat) (hs : EdDb → Nat) :
    Prop where
  shaped : ∀ d, Shaped S (h.tree d) (hs d) g
  account : (treePages S (h.tree .keys) (hs .keys) ++ treePages S (h.tree .blocks) (hs .blocks)).Perm T
  old : ∀ p ∈ T, (S p).xid ≤ h.xid

/-- The nodes are roots, and no cursor was used. -/
structure Wrapped (t : EdTxn) : Prop where
  node : ∀ n < t.nused, (t.nodes n).parent = none ∧ (t.nodes n).pindex = 0 ∧ (t.nodes n).gc = false
  db : ∀ d, ∃ root hasentry, t.db d = EdTxnDb.reset root hasentry ∧ ∀ r, root = some r → r < t.nused

/-- The index between two transactions of the process. The pages that an abandoned transaction has
left in `hdr->active` and the pending pages that the next open gives back are in no other place. -/
structure Rests (g : Geom) (s : St E) (T : List Nat) (hs : EdDb → Nat) : Prop where
  standing : Standing g s.pages s.hdr T hs
  sound : Sound s (T ++ (s.hdr.active ++ inactivePending s.conn.pending s.txn.pg))
  pgOk : PgOk s.txn
  wrapped : Wrapped s.txn
  unused : s.txn.npgused = 0
  gc : s.txn.gc = []
  kept : ∀ p, s.conn.pending.count p ≤
    (inactivePending s.conn.pending s.txn.pg ++ s.txn.pg).count p

section Rest

variable {env : Env E} {g : Geom} {s s' : St E} {R R' T inn : List Nat} {hs : EdDb → Nat} {d : EdDb}

theorem Standing.mem (hf : Standing g S h T hs) {p : Nat} (hp : p ∈ treePages S (h.tree d) (hs d)) :
    p ∈ T := by
  apply hf.account.subset
  cases d with
  | keys => exact mem_append_left _ hp
  | blocks => exact mem_append_right _ hp

theorem Standing.congr {S' : Nat → EdBpt E} {h' : EdPgIdx} (hf : Standing g S h T hs)
    (htree : h'.tree = h.tree) (hxid : h'.xid = h.xid) (hS : ∀ p ∈ T, S' p = S p) :
    Standing g S' h' T hs := by
  have hd : ∀ d, ∀ p ∈ treePages S (h.tree d) (hs d), S' p = S p := fun d p hp => hS p (hf.mem hp)
  refine ⟨fun d => ?_, ?_, fun p hp => ?_⟩
  · rw [htree]
    exact (hf.shaped d).congr (hd d)
  · rw [htree, treePages_congr (hd .keys), treePages_congr (hd .blocks)]
    exact hf.account
  · rw [hS p hp, hxid]
    exact hf.old p hp

theorem Sound.of_moves (h : Sound s R) (hm : Moves s.hdr s'.hdr [] inn)
    (hle : ∀ p, (R' ++ s'.txn.pg ++ inn).count p ≤ (R ++ s.txn.pg).count p) : Sound s' R' := by
  have hno := hm.no_le
  have hsub : (R' ++ s'.txn.pg ++ s'.hdr.free).Subperm
      (R ++ s.txn.pg ++ s.hdr.free ++ grown s.hdr s'.hdr) := by
    rw [subperm_ext_iff]
    intro p _
    have h1 := hm.perm.count_eq p
    have h2 := hle p
    simp only [count_append, count_nil] at h1 h2 ⊢
    omega
  have hnd : (R ++ s.txn.pg ++ s.hdr.free ++ grown s.hdr s'.hdr).Nodup := by
    refine nodup_append.mpr ⟨h.nodup, nodup_range', fun a ha b hb => ?_⟩
    -- the file grows behind every page that it had
    have := h.lt a ha
    simp only [grown, mem_range'_1] at hb
    omega
  constructor
  · obtain ⟨l, hl, hl'⟩ := hsub
    exact hl.nodup_iff.mp (hl'.nodup hnd)
  · intro p hp
    rcases mem_append.mp (hsub.subset hp) with h1 | h1
    · exact (h.lt p h1).trans_le hno
    · simp only [grown, mem_range'_1] at h1
      omega

/-! ## The open -/

theorem Wrapped.cursor (h : Wrapped t) (d : EdDb) :
    (∀ r, (t.db d).root = some r → r < t.nused) ∧ (t.db d).find = (t.db d).root ∧
      (t.db d).entry = none ∧ (t.db d).hasfind = false := by
  obtain ⟨root, b, hdb, hlt⟩ := h.db d
  rw [hdb]
  exact ⟨hlt, rfl, rfl, rfl⟩

theorem Wrapped.set {t' : EdTxn} (h : Wrapped t) (d : EdDb) {root : Option Nat}
    (hnode : ∀ n < t'.nused,
      (t'.nodes n).parent = none ∧ (t'.nodes n).pindex = 0 ∧ (t'.nodes n).gc = false)
    (hle : t.nused ≤ t'.nused) (hroot : ∀ r, root = some r → r < t'.nused)
    (hself : t'.db d = { t.db d with root := root, find := root })
    (hother : ∀ e, e ≠ d → t'.db e = t.db e) : Wrapped t' := by
  refine ⟨hnode, fun e => ?_⟩
  obtain ⟨old, b, hdb, hold⟩ := h.db e
  rcases eq_or_ne e d with rfl | he
  · rw [hdb] at hself
    exact ⟨root, b, hself, hroot⟩
  · exact ⟨old, b, (hother e he).trans hdb, fun r hr => (hold r hr).trans_le hle⟩

theorem wrapRoot_root (d : EdDb) (s : St E) (X : Exits EdErr EdFault (St E)) :
    wp (wrapRoot d) (fun _ s' => s'.hdr = s.hdr ∧ rootNo s' d = s.hdr.tree d ∧
        (∀ r, (s'.txn.db d).root = some r → r < s'.txn.nused) ∧
        ((∀ r, (s.txn.db d.other).root = some r → r < s.txn.nused) →
          rootNo s' d.other = rootNo s d.other) ∧ (Wrapped s.txn → Wrapped s'.txn)) X s := by
  unfold wrapRoot
  rw [wp_bind, wp_get]
  cases ht : s.hdr.tree d with
  | none =>
    rw [wp_modDb]
    have hd : ∀ f, (s.modDb d f).txn.db d = f (s.txn.db d) := fun f => St.modDb_db_self ..
    refine ⟨rfl, by rw [rootNo, hd]; rfl, fun r hr => ?_, fun _ => ?_, fun h => ?_⟩
    · rw [hd] at hr
      cases hr
    · rw [rootNo, St.modDb_db_of_ne _ _ d.other_ne]
      rfl
    · refine h.set d h.node le_rfl ?_ (hd _) fun e he => St.modDb_db_of_ne _ _ he
      intro r hr
      cases hr
  | some no =>
    simp only [nodeWrap, wp_bind, wp_gets, wp_modNode, wp_modTxn, wp_pure', wp_modDb]
    refine ⟨rfl, ?_, fun r hr => ?_, fun hlt => ?_, fun h => ?_⟩
    · rw [rootNo, St.modDb_db_self]
      show some (update s.txn.nodes s.txn.nused _ s.txn.nused).page = some no
      rw [update_self]
    · rw [St.modDb_db_self] at hr
      cases hr
      exact Nat.lt_succ_self _
    · rw [rootNo, St.modDb_db_of_ne _ _ d.other_ne]
      refine Option.map_congr fun r hr => ?_
      show ((s.modNode s.txn.nused fun _ => (⟨no, none, 0, false⟩ : EdNode)).node r).page = _
      rw [St.modNode_node_of_ne _ _ (hlt r hr).ne]
    · refine h.set d (fun n hn => ?_) (Nat.le_succ _) ?_ (St.modDb_db_self ..)
        fun e he => St.modDb_db_of_ne _ _ he
      · rcases Nat.lt_succ_iff_lt_or_eq.mp hn with hlt | rfl
        · have hne : n ≠ s.txn.nused := Nat.ne_of_lt hlt
          simpa [St.modDb, St.modNode, St.modTxn, hne] using h.node n hlt
        · simp [St.modDb, St.modNode, St.modTxn]
      · rintro r ⟨⟩
        exact Nat.lt_succ_self _

/-- What an open for `s` does to the nodes when it fails. -/
def wrapExits (s : St E) : Exits EdErr EdFault (St E) where
  err _ s' := Wrapped s.txn → Wrapped s'.txn
  halt _ _ := True
  stuck := True

variable (env) in
/-- An open takes its roots from the header. -/
theorem edTxnOpen_roots (rdonly : Bool) (s : St E) :
    wp (edTxnOpen env rdonly)
      (fun _ s' => (∀ d, rootNo s' d = s.hdr.tree d) ∧ (Wrapped s.txn → Wrapped s'.txn))
      (wrapExits s) s := by
  -- after the lock and the snapshot the header is the same
  have hrest : ∀ s1 : St E, s1.hdr = s.hdr → s1.txn = s.txn →
      wp (do
          edIdxAcquireSnapshot env
          wrapRoot .keys
          wrapRoot .blocks
          Prog.when (rdonly = false) (openWrite env)
          modTxn fun t => { t with isrdonly := rdonly, state := .open })
        (fun _ s' => (∀ d, rootNo s' d = s.hdr.tree d) ∧ (Wrapped s.txn → Wrapped s'.txn))
        (wrapExits s) s1 := by
    intro s1 h1 ht1
    rw [wp_bind]
    refine wp_mono (edIdxAcquireSnapshot_spec env s1) ?_ ?_ (fun _ _ _ => trivial) fun _ => trivial
    rotate_left
    · rintro _ s2 rfl hw
      exact ht1 ▸ hw
    rintro _ s2 rfl
    rw [wp_bind]
    refine wp_post (wrapRoot_root .keys _ _) ?_
    rintro _ s3 ⟨h3, hkeys, hlt, -, hw3⟩
    rw [wp_bind]
    refine wp_post (wrapRoot_root .blocks _ _) ?_
    rintro _ s4 ⟨-, hblocks, -, hother, hw4⟩
    have hw : Wrapped s.txn → Wrapped s4.txn := fun h => hw4 (hw3 (ht1 ▸ h))
    have h4 : ∀ d, rootNo s4 d = s.hdr.tree d := by
      rw [← h1]
      intro d
      cases d with
      | keys => exact (hother hlt).trans hkeys
      | blocks => exact hblocks.trans (congrFun (congrArg EdPgIdx.tree h3) .blocks)
    rw [wp_bind, wp_when]
    refine ⟨fun _ => ?_, fun _ => ⟨h4, fun h => ⟨(hw h).node, (hw h).db⟩⟩⟩
    refine wp_mono (openWrite_spec env s4) ?_ ?_ (fun _ _ _ => trivial) fun _ => trivial
    all_goals
      rintro _ s5 ⟨h5, -⟩
      rw [h5]
    · exact ⟨h4, fun h => ⟨(hw h).node, (hw h).db⟩⟩
    · exact fun h => ⟨(hw h).node, (hw h).db⟩
  unfold edTxnOpen
  rw [wp_bind, wp_gets, wp_ite, wp_bind, wp_when]
  refine ⟨fun _ h => h, fun _ => ⟨fun _ => ?_, fun _ => hrest s rfl rfl⟩⟩
  refine wp_mono (edLck_spec env s) ?_ ?_ (fun _ _ _ => trivial) fun _ => trivial
  · rintro _ s1 ⟨-, rfl⟩
    exact hrest _ rfl rfl
  · rintro _ s1 ⟨k, rfl⟩ h
    exact h

/-- An open for writing starts a transaction on the committed trees. -/
theorem Rests.opened (h : Rests g s T hs) (hrun : edTxnOpen env false s = .ok () s') :
    Started g s' T T hs ∧ s'.pages = s.pages ∧ Unpublished T s s' ∧ rootNo s' = s.hdr.tree := by
  have hopen := wp_ok (edTxnOpen_spec env false s) hrun
  obtain ⟨hr, hwr⟩ := wp_ok (edTxnOpen_roots env false s) hrun
  have hw := hwr h.wrapped
  obtain ⟨nodes, nused, db, htxn⟩ := hopen.txn
  obtain ⟨-, -, -, -, inn, out, hfr, -, hcases⟩ := hopen.write rfl
  have hinn : ∀ p, inn.count p ≤ (inactivePending s.conn.pending s.txn.pg).count p := by
    intro p
    rcases hcases with ⟨rfl, -⟩ | ⟨rfl, -⟩
    · exact le_rfl
    · exact Nat.zero_le _
  have hf : Standing g s'.pages s'.hdr T hs :=
    h.standing.congr hfr.tree hfr.xid fun p _ => by rw [hopen.pages]
  have hroots : rootNo s' = s'.hdr.tree := hfr.tree ▸ funext hr
  refine ⟨?_, hopen.pages, ⟨hfr.tree, hfr.xid, hfr.vno, fun p _ => by rw [hopen.pages]⟩, funext hr⟩
  exact {
    writing := ⟨by rw [htxn], by rw [htxn]⟩
    pgOk := by rw [htxn]; exact ⟨h.pgOk.used_le, h.pgOk.slot_ge⟩
    sound := h.sound.of_moves hfr.moves fun p => by
      have := hinn p
      rw [htxn]
      simp only [count_append]
      omega
    unused := by rw [htxn]; exact h.unused
    gc := by rw [htxn]; exact h.gc
    node := hw.node
    root := fun d => (hw.cursor d).1
    find := fun d => (hw.cursor d).2.1
    entry := fun d => (hw.cursor d).2.2.1
    hasfind := fun d => (hw.cursor d).2.2.2
    shaped := by rw [hroots]; exact hf.shaped
    account := by unfold ownPages; rw [hroots]; exact hf.account
    sub := List.Subperm.refl _
    old := fun p hp => by
      have hx : s'.txn.xid = s'.hdr.xid + 1 := by rw [htxn, hfr.xid]; rfl
      rw [hx]
      exact Nat.lt_succ_of_le (hf.old p hp) }

theorem Rests.openFailed (h : Rests g s T hs) (hfail : OpenFailed rdonly s s')
    (hw : Wrapped s'.txn) : Rests g s' T hs := by
  obtain ⟨nodes, nused, db, xid, vno, htxn⟩ := hfail.txn
  have hpg : s'.txn.pg = s.txn.pg := by rw [htxn]
  refine ⟨h.standing.congr hfail.hdr.tree hfail.hdr.xid fun p _ => by rw [hfail.pages], ?_, ?_, hw, ?_,
    ?_, ?_⟩
  · rw [hfail.active, hfail.pending, hpg]
    exact h.sound.of_moves hfail.hdr.moves fun p => by rw [hpg, append_nil]
  · rw [htxn]
    exact ⟨h.pgOk.used_le, h.pgOk.slot_ge⟩
  · rw [htxn]
    exact h.unused
  · rw [htxn]
    exact h.gc
  · rw [hfail.pending, hpg]
    exact h.kept

/-- A transaction that is opened, for reading or for writing, can be walked. -/
theorem Rests.walk [EdEntry E] (h : Rests g s T hs) {r : Nat}
    (hrun : edTxnOpen env rdonly s = .ok () s') (hr : (s'.txn.db d).root = some r)
    (ho : TreeOk g s.pages (s.hdr.tree d) (hs d)) :
    Walk g s' d r (hs d) ∧ s.hdr.tree d = some (s'.node r).page := by
  have hopen := wp_ok (edTxnOpen_spec env rdonly s) hrun
  obtain ⟨hroots, hwr⟩ := wp_ok (edTxnOpen_roots env rdonly s) hrun
  have hw := hwr h.wrapped
  have hroot : s.hdr.tree d = some (s'.node r).page := by
    rw [← hroots d, rootNo, hr]
    rfl
  have hlt := (hw.cursor d).1 r hr
  have hsh := h.standing.shaped d
  have hmem : ∀ p ∈ treePages s.pages (s.hdr.tree d) (hs d), p ∈ T := fun p => h.standing.mem
  have hnd : (treePages s.pages (s.hdr.tree d) (hs d)).Nodup := by
    have hT := (nodup_append.mp (nodup_append.mp (nodup_append.mp h.sound.nodup).1).1).1
    have := nodup_append.mp (h.standing.account.nodup_iff.mpr hT)
    cases d with
    | keys => exact this.1
    | blocks => exact this.2.1
  have hno : s.hdr.no ≤ s'.hdr.no := by
    cases rdonly with
    | true => rw [(hopen.read rfl).1]
    | false =>
      obtain ⟨-, -, -, -, _, _, hfr, -⟩ := hopen.write rfl
      exact hfr.moves.no_le
  rw [hroot] at hsh hnd hmem ho
  refine ⟨{
    isOpen := by
      obtain ⟨_, _, _, htxn⟩ := hopen.txn
      rw [htxn]
    root := hr
    below := ⟨⟨⟨(hw.node r hlt).1, (hw.node r hlt).2.1⟩, hlt, by simp, rfl, rfl⟩, hlt,
      by rw [hopen.pages]; exact hsh, by rw [hopen.pages]; exact hnd⟩
    high := ?_
    room := fun q hq => by
      rw [hopen.pages] at hq ⊢
      exact ho.room hq }, hroot⟩
  refine (height_lt_of_nodup hnd fun q hq => ?_).trans_le hno
  exact h.sound.lt q (mem_append_left _ (mem_append_left _ (mem_append_left _
    (hmem q hq))))

/-! ## The close and the commit -/

theorem CloseLock.eq_true {locked : Bool} (h : CloseLock s locked) (hw : s.txn.Writer) :
    locked = true := by
  cases locked with
  | true => rfl
  | false => exact absurd hw (h.no rfl)

theorem inactivePending_self (pg : List Nat) : inactivePending pg pg = [] := by
  cases pg with
  | nil => rfl
  | cons q pg => exact inactivePending_cons ..

theorem Wrapped.of_reset (h : t.nused = 0) (hdb : ∀ d, ∃ b, t.db d = EdTxnDb.reset none b) :
    Wrapped t := by
  refine ⟨fun n hn => ?_, fun d => ?_⟩
  · rw [h] at hn
    cases hn
  · obtain ⟨b, hb⟩ := hdb d
    exact ⟨none, b, hb, nofun⟩

theorem CloseHalt.same (h : CloseHalt reset s f s') :
    s'.pages = s.pages ∧ s'.hdr.tree = s.hdr.tree ∧ s'.hdr.xid = s.hdr.xid ∧
      s'.hdr.vno = s.hdr.vno := by
  cases h <;> exact ⟨rfl, rfl, rfl, rfl⟩

theorem Published.shown (h : Published env s s') :
    s'.pages = s.pages ∧ s'.hdr.tree = rootNo s := by
  obtain ⟨inn, out, hf, -⟩ := h.freed
  exact ⟨(congrArg St.pages h.eq :), hf.tree⟩

theorem Closed.rests (hc : Closed env reset true s s') (hf : Standing g s.pages s.hdr T hs)
    (hsound : Sound s T) (hpg : PgOk s.txn) : Rests g s' T hs := by
  obtain ⟨hact, hpend, -, inn, out, hfr, -, hcases⟩ := hc.locked rfl
  have hkept : s'.txn.pg = s.txn.pg.take (keepCount reset) := by
    rw [hc.txn]
    cases reset <;> rfl
  have hinact : inactivePending s'.conn.pending s'.txn.pg = [] := by
    rw [hpend, hkept]
    exact inactivePending_self _
  obtain ⟨hpages, htree, hxid, -⟩ := hc.same
  have hgiven : ∀ p, inn.count p ≤ (s.txn.pg.drop (keepCount reset)).count p := by
    intro p
    rcases hcases with ⟨rfl, -⟩ | ⟨rfl, -⟩
    · exact le_rfl
    · exact Nat.zero_le _
  refine ⟨hf.congr htree hxid fun p _ => by rw [hpages], ?_, ?_, ?_, ?_, ?_, ?_⟩
  · rw [hact, hinact, append_nil, append_nil]
    refine hsound.of_moves hfr.moves fun p => ?_
    have hsplit := congrArg (List.count p) (take_append_drop (keepCount reset) s.txn.pg)
    have := hgiven p
    rw [hkept]
    simp only [count_append] at hsplit ⊢
    omega
  · rw [hc.txn]
    cases reset with
    | false => exact ⟨le_rfl, le_rfl⟩
    | true => exact ⟨Nat.zero_le _, (length_take_le' ..).trans hpg.slot_ge⟩
  · rw [hc.txn]
    cases reset <;> exact .of_reset rfl fun _ => ⟨_, rfl⟩
  · rw [hc.txn]
    cases reset <;> rfl
  · rw [hc.txn]
    cases reset <;> rfl
  · intro p
    rw [hinact, hpend, hkept, nil_append]

/-- A commit makes the trees of the transaction the committed ones. -/
theorem Published.standing (hp : Published env s s') (h : TxnOk g s T T hs) :
    Standing g s'.pages s'.hdr (ownPages s hs .keys ++ ownPages s hs .blocks) hs ∧
      Sound s' (ownPages s hs .keys ++ ownPages s hs .blocks) ∧ PgOk s'.txn ∧ s'.txn.Writer := by
  obtain ⟨inn, out, hfr, -, hcases⟩ := hp.freed
  obtain ⟨hpages, htree⟩ := hp.shown
  have htxn := congrArg St.txn hp.eq
  have hused : ∀ p, s.txn.used.count p + (s.txn.pg.drop s.txn.npgused).count p = s.txn.pg.count p := by
    intro p
    rw [← count_append]
    exact congrArg (List.count p) (take_append_drop ..)
  refine ⟨?_, h.base.sound.of_moves ⟨hfr.moves.no_le, hfr.moves.perm⟩ fun p => ?_, ?_, ?_⟩
  · refine ⟨?_, ?_, fun p hpT => ?_⟩
    all_goals rw [hpages]
    · exact htree ▸ h.shaped
    · rw [htree]
      exact List.Perm.refl _
    · -- a page of a tree is an old one or one that the transaction took
      have hmem : p ∈ T ++ s.txn.used := h.account.subset (mem_append_left _ hpT)
      rw [show s'.hdr.xid = s.txn.xid from hfr.xid]
      rcases mem_append.mp hmem with hT | hown
      · exact (h.old p hT).le
      · exact (h.own p hown).le
  · have hacc := h.account.count_eq p
    have hpg := hused p
    have hinn : inn.count p ≤ s.txn.gc.count p := by
      rcases hcases with ⟨rfl, -⟩ | ⟨rfl, -⟩
      · exact le_rfl
      · exact Nat.zero_le _
    rw [htxn]
    simp only [count_append] at hacc ⊢
    omega
  · rw [htxn]
    exact ⟨Nat.zero_le _, (drop_sublist ..).length_le.trans h.base.pgOk.slot_ge⟩
  · rw [htxn]
    exact ⟨nofun, h.base.writing.wr⟩

/-! ## The death of a process -/

/-- The next process works on the file that `s` has left: it takes over the connection slot with its
pending pages, or it has a slot without any. -/
structure Takeover (s s' : St E) : Prop where
  pages : s'.pages = s.pages
  hdr : s'.hdr = s.hdr
  txn : s'.txn = EdTxn.blank
  pending : s'.conn.pending = s.conn.pending ∨ s'.conn.pending = []

/-- What the lists of an open write transaction have: its pages may be in `hdr->active`. -/
structure Underway (s : St E) : Prop where
  pending : s.conn.pending = []
  active : ∀ p, s.hdr.active.count p ≤ s.txn.pg.count p

theorem Underway.step (h : Underway s) (hstep : Step s s') : Underway s' := by
  obtain ⟨new, hpg, -, hact⟩ := hstep.reserve
  refine ⟨?_, fun p => (hact.count_le p).trans ?_⟩
  · rw [show s'.conn = s.conn from congrArg Fixed.conn hstep.fixed]
    exact h.pending
  · rw [hpg, count_append, count_append]
    exact Nat.add_le_add_right (h.active p) _

/-- The index rests when the listed pages `R` of `s` include all that the dead process has left. -/
theorem Takeover.rests {s1 : St E} (ht : Takeover s1 s') (hf : Standing g s1.pages s1.hdr T hs)
    (hsound : Sound s R) (hm : Moves s.hdr s1.hdr [] [])
    (hle : ∀ p, (T ++ (s1.hdr.active ++ s1.conn.pending)).count p ≤ (R ++ s.txn.pg).count p) :
    Rests g s' T hs := by
  have hpg : s'.txn.pg = [] := by rw [ht.txn]; rfl
  have hpend : ∀ p, s'.conn.pending.count p ≤ s1.conn.pending.count p := by
    intro p
    rcases ht.pending with h | h <;> rw [h]
    exact Nat.zero_le _
  refine ⟨by rw [ht.pages, ht.hdr]; exact hf, ?_, ?_, ?_, ?_, ?_, fun p => ?_⟩
  · rw [hpg, inactivePending_nil, ht.hdr]
    refine hsound.of_moves (by rw [ht.hdr]; exact hm) fun p => ?_
    have h1 := hle p
    have h2 := hpend p
    rw [hpg]
    simp only [count_append, count_nil] at h1 h2 ⊢
    omega
  · rw [ht.txn]
    exact ⟨le_rfl, le_rfl⟩
  · rw [ht.txn]
    exact .of_reset rfl fun _ => ⟨_, rfl⟩
  · rw [ht.txn]
    rfl
  · rw [ht.txn]
    rfl
  · rw [hpg, inactivePending_nil, append_nil]

/-- What a process that dies in a write transaction leaves behind: some of the pages of the transaction
are in `hdr->active` or pending. -/
structure LeftBehind (s s1 : St E) : Prop where
  pages : s1.pages = s.pages
  hdr : s1.hdr = { s.hdr with active := s1.hdr.active }
  listed : ∀ p, (s1.hdr.active ++ s1.conn.pending).count p ≤ s.txn.pg.count p

theorem Underway.left (h : Underway s) : LeftBehind s s := by
  refine ⟨rfl, rfl, fun p => ?_⟩
  rw [h.pending, append_nil]
  exact h.active p

theorem CloseHalt.left (hc : CloseHalt reset s f s') (hu : Underway s) : LeftBehind s s' := by
  cases hc with
  | closeBegin => exact ⟨rfl, rfl, hu.left.listed⟩
  | pendingBegin k l hl =>
    refine ⟨rfl, rfl, fun p => ?_⟩
    show ([] ++ s.conn.pending).count p ≤ _
    rw [hu.pending]
    exact Nat.zero_le _
  | pendingFinish k l hl => exact ⟨rfl, rfl, fun p => (take_sublist ..).count_le p⟩

theorem CommitHalt.left (hc : CommitHalt s f s') (hu : Underway s) (hf : f ≠ .updateTree) :
    LeftBehind s s' := by
  cases hc with
  | commitBegin => exact hu.left
  | activeCleared k =>
    refine ⟨rfl, rfl, fun p => ?_⟩
    show ([] ++ s.conn.pending).count p ≤ _
    rw [hu.pending]
    exact Nat.zero_le _
  | updateTree k => exact absurd rfl hf

theorem Takeover.rests_of_open {s1 : St E} (ht : Takeover s1 s')
    (hf : Standing g s.pages s.hdr T hs) (hsound : Sound s T) (hl : LeftBehind s s1) :
    Rests g s' T hs := by
  have hm := Moves.refl s.hdr
  refine ht.rests ?_ hsound ?_ fun p => ?_
  · rw [hl.pages, hl.hdr]
    exact hf.congr rfl rfl fun _ _ => rfl
  · rw [hl.hdr]
    exact ⟨hm.no_le, hm.perm⟩
  · have := hl.listed p
    simp only [count_append] at this ⊢
    omega

end Rest

/-! ## Clients -/

variable [EdEntry E] (env : Env E) (g : Geom)

/-- A transaction of a client. -/
structure Txn (E : Type) where
  mods : List (EdDb × Mod E)
  commit : Bool
  reset : Bool

/-- The calls of a transaction, and whether it was committed. -/
def Txn.run (t : Txn E) : M E Bool := do
  edTxnOpen env false
  let rc ← Prog.attempt (runMods env g t.mods)
  if rc.isOk && t.commit then do
    let rc ← Prog.attempt (edTxnCommit env t.reset)
    pure rc.isOk
  else do
    edTxnClose env t.reset
    pure false

/-- The modifications of the transaction are such as `P` admits. When it is to be committed, no request
for pages is refused. -/
structure Txn.Admitted (P : EdDb → Mod E → Prop) (env : Env E) (t : Txn E) : Prop where
  mods : ∀ x ∈ t.mods, P x.1 x.2
  calm : t.commit = true → ¬ Refused env

/-- The index rests, and its trees hold the lists `L`. -/
def AtRest (P : EdDb → Mod E → Prop) (L : EdDb → List E) (s : St E) : Prop :=
  ∃ T hs, Rests g s T hs ∧ Serves g P L s.pages s.hdr.tree hs

section Txns

variable {env g} {P : EdDb → Mod E → Prop} {L : EdDb → List E} {s s0 s1 s2 s' : St E} {T : List Nat}
  {hs : EdDb → Nat} {t : Txn E}

theorem Serves.congr {S' : Nat → EdBpt E} {root : EdDb → Option Nat} (hL : Serves g P L S h.tree hs)
    (hf : Standing g S h T hs) (hroot : root = h.tree) (hS : ∀ p ∈ T, S' p = S p) :
    Serves g P L S' root hs := by
  subst hroot
  have hd : ∀ d, ∀ p ∈ treePages S (h.tree d) (hs d), S' p = S p := fun d p hp => hS p (hf.mem hp)
  refine ⟨fun d => ⟨(hL.1 d).1.congr (hd d), (treeEnts_congr (hd d)).trans (hL.1 d).2⟩, fun d hP => ?_⟩
  refine (hL.2 d hP).keep fun h' hsh q hq => hd d q ?_
  have hsh' := hf.shaped d
  cases hr : h.tree d with
  | none =>
    rw [hr] at hq
    exact absurd hq not_mem_nil
  | some p =>
    rw [hr] at hq hsh hsh'
    rw [hsh'.height_eq hsh]
    exact hq

variable (g) in
/-- A write transaction that was opened in `s` has come to `s1`, and nothing of it was published. -/
structure During (s s1 : St E) (T : List Nat) (hs : EdDb → Nat) : Prop where
  standing : Standing g s1.pages s1.hdr T hs
  sound : Sound s1 T
  pgOk : PgOk s1.txn
  writing : Writing s1
  underway : Underway s1
  unpublished : Unpublished T s s1
  txid : s1.txn.xid = s.hdr.xid + 1

omit [EdEntry E] in
theorem Rests.during (h : Rests g s T hs) (hrun : edTxnOpen env false s = .ok () s0)
    (hstep : Step s0 s1) : During g s s1 T hs := by
  obtain ⟨hst, -, hun0, -⟩ := h.opened hrun
  have hun := hun0.trans (hst.unpublished hstep)
  have hopen := wp_ok (edTxnOpen_spec env false s) hrun
  obtain ⟨nodes, nused, db, htxn⟩ := hopen.txn
  obtain ⟨-, -, hpend, hact, -⟩ := hopen.write rfl
  exact {
    standing := h.standing.congr hun.tree hun.xid hun.pages
    sound := hst.sound.step hstep
    pgOk := hstep.pgOk hst.pgOk
    writing := hstep.writing hst.writing
    underway := Underway.step ⟨hpend, fun p => by rw [hact, htxn]⟩ hstep
    unpublished := hun
    txid := by rw [show s1.txn.xid = s0.txn.xid from congrArg Fixed.txid hstep.fixed, htxn]; rfl }

theorem During.closed (hd : During g s s1 T hs) (hL : Serves g P L s.pages s.hdr.tree hs)
    (hf : Standing g s.pages s.hdr T hs) {locked : Bool} (hl : CloseLock s1 locked)
    (hc : Closed env reset locked s1 s') : AtRest g P L s' := by
  obtain rfl := hl.eq_true ⟨by rw [hd.writing.isOpen]; decide, hd.writing.wr⟩
  have hun := hd.unpublished.of_same hc.same
  exact ⟨T, hs, hc.rests hd.standing hd.sound hd.pgOk, hL.congr hf hun.tree hun.pages⟩

theorem During.takeover (hd : During g s s1 T hs) (hL : Serves g P L s.pages s.hdr.tree hs)
    (hf : Standing g s.pages s.hdr T hs) (hl : LeftBehind s1 s2) (ht : Takeover s2 s') :
    AtRest g P L s' := by
  refine ⟨T, hs, ht.rests_of_open hd.standing hd.sound hl, hL.congr hf ?_ fun p hp => ?_⟩
  · rw [ht.hdr, hl.hdr]
    exact hd.unpublished.tree
  · rw [ht.pages, hl.pages, hd.unpublished.pages p hp]

/-- What can become of a transaction with the modifications `ms` that was opened in `s`: it returns, or
its process is killed and the next one takes over. -/
def Ends (g : Geom) (P : EdDb → Mod E → Prop) (L : EdDb → List E) (ms : List (EdDb × Mod E)) (s : St E) :
    Exits EdErr EdFault (St E) where
  err _ s' := AtRest g P L s'
  halt f s' := f ≠ .updateTree → ∀ s'', Takeover s' s'' →
    AtRest g P (if s'.hdr.xid = s.hdr.xid then L else applyMods L ms) s''
  stuck := True

theorem During.close_spec (hd : During g s s1 T hs) (hL : Serves g P L s.pages s.hdr.tree hs)
    (hf : Standing g s.pages s.hdr T hs) (ms : List (EdDb × Mod E)) (reset : Bool) :
    wp (edTxnClose env reset) (fun _ s' => AtRest g P L s') (Ends g P L ms s) s1 := by
  refine wp_mono (edTxnClose_spec env reset s1) ?_ (fun _ _ h => h.elim) ?_ fun _ => trivial
  · rintro _ s' ⟨locked, hl, hc⟩
    exact hd.closed hL hf hl hc
  · intro f s' hc _ s'' ht
    rw [if_pos (hc.same.2.2.1.trans hd.unpublished.xid)]
    exact hd.takeover hL hf (hc.left hd.underway) ht

/-- A commit puts the lists of the transaction in place of the committed ones, or changes nothing. -/
theorem During.commit_spec (hd : During g s s1 T hs) (hL : Serves g P L s.pages s.hdr.tree hs)
    (hf : Standing g s.pages s.hdr T hs) {hs1 : EdDb → Nat} (h1 : TxnOk g s1 T T hs1)
    (hL1 : Serves g P (applyMods L ms) s1.pages (rootNo s1) hs1) (reset : Bool) :
    wp (edTxnCommit env reset) (fun _ s' => AtRest g P (applyMods L ms) s') (Ends g P L ms s) s1 := by
  refine wp_mono (edTxnCommit_spec env reset s1) ?_ ?_ ?_ fun _ => trivial
  · rintro _ s' ⟨-, -, s2, locked, hp, hl, hc⟩
    obtain ⟨hf2, hsound, hpg, hw⟩ := hp.standing h1
    obtain rfl := hl.eq_true hw
    obtain ⟨hpages, htree, -⟩ := hc.same
    refine ⟨_, hs1, hc.rests hf2 hsound hpg, ?_⟩
    rw [hpages, htree, hp.shown.1, hp.shown.2]
    exact hL1
  · rintro _ s' (⟨hcl, -⟩ | ⟨-, -, locked, hl, hc⟩)
    · rw [hd.writing.isOpen] at hcl
      cases hcl
    · exact hd.closed hL hf hl hc
  · rintro f s' ⟨-, ⟨-, hc⟩ | ⟨-, hc | ⟨s2, hp, hc⟩⟩⟩ hne s'' ht
    · rw [if_pos (hc.same.2.2.1.trans hd.unpublished.xid)]
      exact hd.takeover hL hf (hc.left hd.underway) ht
    · have hl := hc.left hd.underway hne
      rw [if_pos (by rw [hl.hdr]; exact hd.unpublished.xid)]
      exact hd.takeover hL hf hl ht
    · -- the new roots and the new xid are in place
      obtain ⟨hf2, hsound, hpg, hw⟩ := hp.standing h1
      obtain ⟨inn, out, hfr, -⟩ := hp.freed
      have hx : s'.hdr.xid = s.hdr.xid + 1 := hc.same.2.2.1.trans (hfr.xid.trans hd.txid)
      rw [if_neg (by omega)]
      have hu : Underway s2 := by
        refine ⟨?_, fun p => ?_⟩
        · rw [hp.eq]
          exact hd.underway.pending
        · rw [hp.active]
          exact Nat.zero_le _
      refine ⟨_, hs1, ht.rests_of_open hf2 hsound (hc.left hu), ?_⟩
      rw [ht.pages, ht.hdr, hc.same.1, hc.same.2.1, hp.shown.1, hp.shown.2]
      exact hL1

theorem Txn.run_spec (hg : g.leafOrder < 2 ^ 16) (ht : t.Admitted P env) (h : AtRest g P L s) :
    wp (t.run env g) (fun done s' => AtRest g P (if done then applyMods L t.mods else L) s')
      (Ends g P L t.mods s) s := by
  obtain ⟨T, hs, hr, hL⟩ := h
  rw [Txn.run, wp_bind]
  refine wp_mono (wp_and (wp_run (edTxnOpen env false) s)
    (wp_and (edTxnOpen_spec env false s) (edTxnOpen_roots env false s))) ?_ ?_ (fun _ _ h => h.2.1.elim)
    fun h => h.2.1.elim
  rotate_left
  · rintro _ s' ⟨-, hfail, hw⟩
    exact ⟨T, hs, hr.openFailed hfail (hw hr.wrapped), hL.congr hr.standing hfail.hdr.tree
      fun p _ => by rw [hfail.pages]⟩
  rintro _ s0 ⟨hopen, -⟩
  obtain ⟨hst, hpages, -, hroots⟩ := hr.opened hopen
  have hclose : ∀ s1, Step s0 s1 → wp (edTxnClose env t.reset >>= fun _ => pure false)
      (fun done s' => AtRest g P (if done then applyMods L t.mods else L) s')
      (Ends g P L t.mods s) s1 := by
    intro s1 hstep
    rw [wp_bind]
    exact (hr.during hopen hstep).close_spec hL hr.standing t.mods t.reset
  rw [wp_bind, wp_attempt]
  refine wp_mono (wp_and (wp_run (runMods env g t.mods) s0) (runMods_step hst.ready t.mods)) ?_ ?_
    (fun _ _ h => h.2.elim) fun _ => trivial
  · rintro _ s1 ⟨hrun, hstep⟩
    rw [wp_ite]
    refine ⟨fun hc => ?_, fun _ => hclose s1 hstep⟩
    have hcalm := ht.calm ((Bool.and_eq_true _ _).mp hc).2
    obtain ⟨hs1, h1, hL1⟩ := wp_ok (runMods_serves hg hcalm hst.txnOk
      (hL.congr hr.standing hroots fun p _ => by rw [hpages]) ht.mods) hrun
    rw [wp_bind, wp_attempt]
    exact wp_mono ((hr.during hopen hstep).commit_spec hL hr.standing h1 hL1 t.reset)
      (fun _ _ h => h) (fun _ _ h => h) (fun _ _ h => h) id
  · rintro _ s1 ⟨-, hstep⟩
    exact hclose s1 hstep

/-! ## The histories of an index -/

/-- An index that was just created, and the process that works on it. -/
structure NewIndex (s : St E) : Prop where
  tree : ∀ d, s.hdr.tree d = none
  active : s.hdr.active = []
  gcs : s.hdr.gcs = []
  pending : s.conn.pending = []
  txn : s.txn = EdTxn.blank

variable (g P) in
/-- A history of an index and the lists that it makes. A transaction returns, cannot be opened, or its
process dies: at a fault point other than `UPDATE_TREE`, or between two calls. The death of a process
that has stored the new `hdr->xid` comes too late for the old lists. -/
inductive Served : (EdDb → List E) → St E → Prop
  | created {s : St E} : NewIndex s → Served (fun _ => []) s
  | txn {L : EdDb → List E} {s s' : St E} {env : Env E} {t : Txn E} {done : Bool} : Served L s →
      t.Admitted P env → t.run env g s = .ok done s' →
      Served (if done then applyMods L t.mods else L) s'
  | refused {L : EdDb → List E} {s s' : St E} {env : Env E} {t : Txn E} {e : EdErr} : Served L s →
      t.Admitted P env → t.run env g s = .err e s' → Served L s'
  | killed {L : EdDb → List E} {s s1 s' : St E} {env : Env E} {t : Txn E} {f : EdFault} : Served L s →
      t.Admitted P env → t.run env g s = .halt f s1 → f ≠ .updateTree → Takeover s1 s' →
      Served (if s1.hdr.xid = s.hdr.xid then L else applyMods L t.mods) s'
  | died {L : EdDb → List E} {s s0 s1 s' : St E} {env : Env E} {ms : List (EdDb × Mod E)} :
      Served L s → edTxnOpen env false s = .ok () s0 →
      (runMods env g ms s0 = .ok () s1 ∨ ∃ e, runMods env g ms s0 = .err e s1) → Takeover s1 s' →
      Served L s'
  | process {L : EdDb → List E} {s s' : St E} : Served L s → Takeover s s' → Served L s'

theorem NewIndex.stored (h : NewIndex s) : AtRest g P (fun _ => []) s := by
  have htree : s.hdr.tree = fun _ => none := funext h.tree
  refine ⟨[], fun _ => 0, ⟨⟨fun d => ?_, ?_, by simp⟩, ?_, ?_, ?_, ?_, ?_, ?_⟩, fun d => ?_, fun d _ => ?_⟩
  · rw [htree]
    exact .none ..
  · rw [htree]
    exact List.Perm.refl _
  · rw [h.active, h.pending, h.txn]
    have hfree : s.hdr.free = List.range' s.hdr.tailStart s.hdr.tailCount := by
      rw [EdPgIdx.free, h.gcs, nil_append]
      rfl
    constructor
    · rw [hfree, h.txn]
      exact nodup_range'
    · rw [hfree, h.txn]
      intro p hp
      exact (mem_range'_1.mp hp).2
  · rw [h.txn]
    exact ⟨le_rfl, le_rfl⟩
  · rw [h.txn]
    exact .of_reset rfl fun _ => ⟨_, rfl⟩
  · rw [h.txn]
    rfl
  · rw [h.txn]
    rfl
  · rw [h.pending]
    exact fun p => Nat.zero_le _
  · rw [htree]
    exact ⟨by rintro p ⟨⟩, rfl⟩
  · rw [htree]
    exact .empty _

/-- After every history the index rests and holds the lists. -/
theorem Served.stored (hg : g.leafOrder < 2 ^ 16) (h : Served g P L s) : AtRest g P L s := by
  induction h with
  | created h => exact h.stored
  | txn _ ht hrun ih => exact wp_ok (Txn.run_spec hg ht ih) hrun
  | refused _ ht hrun ih => exact wp_err (Txn.run_spec hg ht ih) hrun
  | killed _ ht hrun hf htake ih => exact wp_halted (Txn.run_spec hg ht ih) hrun hf _ htake
  | @died L s s0 s1 s' env ms _ hopen hrun htake ih =>
    obtain ⟨T, hs, hr, hL⟩ := ih
    obtain ⟨hst, -⟩ := hr.opened hopen
    have hstep : Step s0 s1 := by
      have hspec : wp (runMods env g ms) _ _ s0 := runMods_step hst.ready ms
      rcases hrun with h | ⟨e, h⟩
      · exact wp_ok hspec h
      · exact wp_err hspec h
    have hd := hr.during hopen hstep
    exact hd.takeover hL hr.standing hd.underway.left htake
  | process _ htake ih =>
    obtain ⟨T, hs, hr, hL⟩ := ih
    refine ⟨T, hs, htake.rests hr.standing hr.sound (Moves.refl _) fun p => ?_, ?_⟩
    · have := hr.kept p
      simp only [count_append] at this ⊢
      omega
    · rw [htake.pages, htake.hdr]
      exact hL

/-- An open transaction of an index, after modifications: its trees hold what they make of the lists. -/
theorem Served.modified (hg : g.leafOrder < 2 ^ 16) (hcalm : ¬ Refused env) (h : Served g P L s)
    (hopen : edTxnOpen env false s = .ok () s0) (hrun : runMods env g ms s0 = .ok () s1) :
    ∃ T hs, TxnOk g s1 T T hs ∧ Holds g (applyMods L ms) s1.pages (rootNo s1) hs := by
  obtain ⟨T, hs, hr, hL⟩ := h.stored hg
  obtain ⟨hst, hpages, -, hroots⟩ := hr.opened hopen
  have hany : Serves g (fun _ _ => True) L s0.pages (rootNo s0) hs := by
    refine ⟨?_, fun d hP => ?_⟩
    · rw [hpages, hroots]
      exact hL.1
    · obtain ⟨e, he⟩ := hP (.del 0) trivial
      cases he
  obtain ⟨hs1, h1, hL1⟩ :=
    wp_ok (runMods_serves hg hcalm hst.txnOk hany fun _ _ => trivial) hrun
  exact ⟨T, hs1, h1, hL1.1⟩

/-- A tree that insertions alone have built can be walked in circles, once it is opened. -/
theorem Served.walk (hg : g.leafOrder < 2 ^ 16) (h : Served g P L s) {d : EdDb}
    (hP : OnlyInserts P d) (hrun : edTxnOpen env rdonly s = .ok () s') {r : Nat}
    (hr : (s'.txn.db d).root = some r) :
    ∃ H, Walk g s' d r H ∧ Built g s'.pages (some (s'.node r).page) ∧
      treeEnts s'.pages (some (s'.node r).page) H = L d := by
  obtain ⟨T, hs, hrest, hL⟩ := h.stored hg
  obtain ⟨hw, hroot⟩ := hrest.walk hrun hr (hL.1 d).1
  have hpages := (wp_ok (edTxnOpen_spec env rdonly s) hrun).pages
  rw [hpages, ← hroot]
  exact ⟨hs d, hw, hL.2 d hP, (hL.1 d).2⟩

variable (g) in
/-- A tree with the entries `l`: they are sorted, all leaves have the same depth, the separators of a
branch increase and fence in its children. -/
structure TreeOf (l : List E) (S : Nat → EdBpt E) (root : Option Nat) (h : Nat) : Prop where
  ents : treeEnts S root h = l
  sorted : Multimap.Sorted fetch64 l
  shaped : Shaped S root h g
  order : TreeOk g S root h

/-- After every history the committed trees hold what its transactions make of two sorted lists, each
of them whole or not at all. In the next transaction, after any modifications, the trees hold what
those make of the lists, and a search returns 1 exactly when its key is present and yields the first
entry with the key. -/
theorem store_refines (hg : g.leafOrder < 2 ^ 16) (h : Served g P L s) :
    (∃ hs : EdDb → Nat, ∀ d, TreeOf g (L d) s.pages (s.hdr.tree d) (hs d)) ∧
    ∀ (env : Env E) (ms : List (EdDb × Mod E)) (s0 s1 : St E), ¬ Refused env →
      edTxnOpen env false s = .ok () s0 → runMods env g ms s0 = .ok () s1 →
      ∃ hs : EdDb → Nat, ∀ d, TreeOf g (applyMods L ms d) s1.pages (rootNo s1 d) (hs d) ∧
        ∀ k : UInt64, ∃ res s2, edBptFind env g d k.toNat s1 = .ok res s2 ∧
          (res.1 = 1 ↔ ∃ e ∈ applyMods L ms d, fetch64 e = k.toNat) ∧
          res.2.map (entAt s1.pages) = Multimap.first fetch64 k.toNat (applyMods L ms d) := by
  constructor
  · obtain ⟨T, hs, hr, hL⟩ := h.stored hg
    refine ⟨hs, fun d => ⟨(hL.1 d).2, ?_, hr.standing.shaped d, (hL.1 d).1⟩⟩
    rw [← (hL.1 d).2]
    exact (hL.1 d).1.sorted
  · intro env ms s0 s1 hcalm hopen hrun
    obtain ⟨T, hs, h1, hL⟩ := h.modified hg hcalm hopen hrun
    refine ⟨hs, fun d => ?_⟩
    obtain ⟨ho, hents⟩ := hL d
    refine ⟨⟨hents, hents ▸ ho.sorted, h1.shaped d, ho⟩, fun k => ?_⟩
    obtain ⟨res, s2, hfind, hse⟩ := edBptFind_returns hcalm h1 ho k.toNat
    obtain ⟨hone, hfirst, -⟩ := hse.first_eq h1.good ho k.toNat_lt
    rw [hents] at hone hfirst
    refine ⟨res, s2, hfind, hone.trans ?_, hfirst⟩
    simp [Multimap.first, List.find?_isSome]

/-- The check accepts the trees of the next transaction, whatever it has inserted, replaced and
deleted. -/
theorem store_verified (hg : g.leafOrder < 2 ^ 16) (hcalm : ¬ Refused env) (h : Served g P L s)
    (hopen : edTxnOpen env false s = .ok () s0) (hrun : runMods env g ms s0 = .ok () s1)
    (d : EdDb) : ∃ s2, edBptVerify env g (rootNo s1 d) s1 = .ok true s2 := by
  obtain ⟨T, hs, h1, hL⟩ := h.modified hg hcalm hopen hrun
  obtain ⟨ho, -⟩ := hL d
  have hspec : wp (edBptVerify env g (rootNo s1 d)) _ _ s1 :=
    edBptVerify_spec (U := False) h1 fun q hq hno => hno (ho.room hq)
  obtain ⟨ok, s2, hver, hiff⟩ := ok_of_wp hspec (fun _ _ hx => hcalm hx) (fun _ _ hx => hx) id
  obtain rfl : ok = true := hiff.mpr fun p hp => ho.verified hp
  exact ⟨s2, hver⟩

end Txns

section Small

/-- A system that kills a process at the fault point `f`. -/
def Env.killing (f : EdFault) : Env UInt64 := { Env.calm with kills := fun _ f' => f' == f }

theorem killing_grants (f : EdFault) : ¬ Refused (Env.killing f) := fun ⟨_, h⟩ => by cases h

/-- Insertions into both trees. -/
def firstTxn : Txn UInt64 := ⟨[(.keys, .set 9 false), (.blocks, .set 7 false)], true, true⟩

/-- An insertion and a replacement. -/
def secondTxn : Txn UInt64 := ⟨[(.keys, .set 5 false), (.blocks, .set 7 true)], true, false⟩

/-- A search and a deletion. -/
def lastMods : List (EdDb × Mod UInt64) := [(.keys, .del 9), (.blocks, .del 8)]

theorem closedSt_new : NewIndex (closedSt [] []) := ⟨fun _ => rfl, rfl, rfl, rfl, rfl⟩

/-- The index after the first transaction. -/
@[irreducible] def firstSt : St UInt64 := (firstTxn.run Env.calm .page4096).after (closedSt [] [])

theorem firstSt_served : Served .page4096 (fun _ _ => True) (applyMods (fun _ => []) firstTxn.mods)
    firstSt := by
  obtain ⟨done, hrun, hdone⟩ := ok_of_returns
    (show (firstTxn.run Env.calm .page4096).returns (· = true) (closedSt [] []) = true by
      decide +kernel)
  unfold firstSt
  have h0 : Served .page4096 (fun _ _ => True) (fun _ => []) _ := .created closedSt_new
  have h1 := h0.txn ⟨fun _ _ => trivial, fun _ => calm_grants⟩ hrun
  rwa [of_decide_eq_true hdone] at h1

/-- The process of the second transaction is killed when its commit has published the roots and the
xid. The next process opens the index and modifies it. -/
theorem served_killed : ∃ s s0 s1,
    Served .page4096 (fun _ _ => True) (fun d => if d = .keys then [5, 9] else [7]) s ∧
    edTxnOpen Env.calm false s = .ok () s0 ∧
    runMods Env.calm .page4096 lastMods s0 = .ok () s1 := by
  obtain ⟨f, s2, hkill, htest⟩ := halt_of_halts
    (show (secondTxn.run (Env.killing .pendingBegin) .page4096).halts
      (fun f s2 => f = .pendingBegin && s2.hdr.xid = 3 && (do
        edTxnOpen Env.calm false
        runMods Env.calm .page4096 lastMods).returns (fun _ => true) { s2 with txn := EdTxn.blank })
      firstSt = true by decide +kernel)
  have hxid : firstSt.hdr.xid = 2 := by decide +kernel
  simp only [Bool.and_eq_true, decide_eq_true_eq] at htest
  obtain ⟨⟨rfl, hx⟩, hnext⟩ := htest
  obtain ⟨⟨⟩, hnext, -⟩ := ok_of_returns hnext
  obtain ⟨⟨⟩, s0, hopen, hmods⟩ := ok_bind hnext
  have htake : Takeover s2 { s2 with txn := EdTxn.blank } := ⟨rfl, rfl, rfl, .inl rfl⟩
  have h := firstSt_served.killed ⟨fun _ _ => trivial, fun _ => killing_grants _⟩ hkill nofun htake
  rw [if_neg (by omega)] at h
  refine ⟨_, s0, _, ?_, hopen, hmods⟩
  convert h using 1
  funext d
  cases d <;> rfl

/-- The deletion takes the second of two keys. -/
theorem store_refines_killed : ∃ s s0 s1 hs,
    Served .page4096 (fun _ _ => True) (fun d => if d = .keys then [5, 9] else [7]) s ∧
    edTxnOpen Env.calm false s = .ok () s0 ∧ runMods Env.calm .page4096 lastMods s0 = .ok () s1 ∧
    TreeOf .page4096 [5] s1.pages (rootNo s1 .keys) hs ∧
    ∃ res s2, edBptFind Env.calm .page4096 .keys 5 s1 = .ok res s2 ∧ res.1 = 1 := by
  obtain ⟨s, s0, s1, h, hopen, hrun⟩ := served_killed
  obtain ⟨-, hnext⟩ := store_refines (by decide) h
  obtain ⟨hs, hd⟩ := hnext Env.calm lastMods s0 s1 calm_grants hopen hrun
  obtain ⟨hkeys, hfind⟩ := hd .keys
  obtain ⟨res, s2, hres, hone, -⟩ := hfind 5
  exact ⟨s, s0, s1, hs .keys, h, hopen, hrun, hkeys, res, s2, hres, hone.mpr ⟨5, by decide, rfl⟩⟩

theorem store_verified_killed : ∃ s s0 s1 s2,
    Served .page4096 (fun _ _ => True) (fun d => if d = .keys then [5, 9] else [7]) s ∧
    edTxnOpen Env.calm false s = .ok () s0 ∧ runMods Env.calm .page4096 lastMods s0 = .ok () s1 ∧
    edBptVerify Env.calm .page4096 (rootNo s1 .keys) s1 = .ok true s2 := by
  obtain ⟨s, s0, s1, h, hopen, hrun⟩ := served_killed
  obtain ⟨s2, hver⟩ := store_verified (by decide) calm_grants h hopen hrun .keys
  exact ⟨s, s0, s1, s2, h, hopen, hrun, hver⟩

end Small

end Eddy
