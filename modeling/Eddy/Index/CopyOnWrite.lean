import Eddy.Index.Frame

/-!
# Eddy — copy-on-write of insertions and deletions

Each function that changes pages is followed once: from a `Ready` state it reaches a `Good` one
by a `Step`, whether it succeeds or fails. The store of a function is always guarded by a test of
the page's xid, or goes to a page the function just allocated; `CanWrite` records this for the
nodes it returns.
-/

namespace Eddy

open Outcome Slots

variable {E : Type} (env : Env E) (g : Geom) {s : St E} {n dst left right : Nat}

/-! ## New pages -/

theorem AllocFailed.failed {s' : St E} (h : AllocFailed s s') (hg : Good s) : Failed s s' := by
  obtain ⟨new, hgrow⟩ := h.grow
  have hnodes : s'.txn.nodes = s.txn.nodes := (congrArg EdTxn.nodes hgrow.txn :)
  refine ⟨Keeps.of_parents (hgrow.step fun _ => h.error) (hg.congr hnodes
    (congrArg EdTxn.nused hgrow.txn :) (congrArg EdTxn.db hgrow.txn :)) (fun m _ => ?_)
    fun d => ?_, h.error⟩
  · simp [St.node, hnodes]
  · rw [(congrArg EdTxn.db hgrow.txn :)]
    rfl

section Taken

variable {s s' : St E} {new : List Nat} {p : Nat} {par : Option Nat} {pidx : Nat}

theorem Taken.step (h : Taken s s' new p par pidx) : Step s s' := by
  obtain ⟨s1, hgrow, herr, hs⟩ := h.grow
  have hmem : p ∈ s1.txn.pg := by
    have h1 : s'.txn.pg = s1.txn.pg := (congrArg (fun t : St E => t.txn.pg) hs :)
    rw [← h1]
    exact h.mem_pg
  have hst : Step s s1 := hgrow.step (by rw [herr]; exact id)
  have hok : PgOk s'.txn := h.pgOk
  refine hst.trans ?_
  rw [hs] at hok ⊢
  refine { Step.refl s1 with
    fixed := rfl
    pages := fun q _ hq => ?_
    xids := fun q hx hq => ?_
    pgOk := fun _ => hok
    nused := Nat.le_succ _
    node := fun n hn => ?_ }
  · have hqp : q ≠ p := fun e => hq (e ▸ hmem)
    simp [St.takePage, hqp]
  · have hqp : q ≠ p := fun e => hq (e ▸ hmem)
    simpa [St.takePage, hqp] using hx
  · simp [St.takePage, St.node, hn.ne]

theorem Taken.good (h : Taken s s' new p par pidx) (hg : Good s)
    (hpar : ∀ q, par = some q → q < s.txn.nused) : Good s' := by
  refine hg.addNode (x := ⟨p, par, pidx, false⟩) (fun m => ?_) (congrArg EdTxn.nused h.txn :)
    (congrArg EdTxn.db h.txn :) hpar
  by_cases hm : m = s.txn.nused
  · rw [hm, h.node_new, if_pos rfl]
  · rw [h.node_old hm, if_neg hm]

theorem Taken.canWrite (h : Taken s s' new p par pidx) : CanWrite s' s.txn.nused := by
  refine ⟨?_, .inr ?_⟩
  · rw [(congrArg EdTxn.nused h.txn :)]
    exact Nat.lt_succ_self _
  · rw [h.node_new]
    exact h.mem_pg

end Taken

theorem Taken.keeps {s' : St E} {new : List Nat} {p : Nat} {par : Option Nat} {pidx : Nat}
    (h : Taken s s' new p par pidx) (hg : Good s) (hpar : ∀ q, par = some q → q < s.txn.nused) :
    Keeps s s' :=
  Keeps.of_parents h.step (h.good hg hpar) (fun m hm => by rw [h.node_old hm.ne])
    fun d => by rw [(congrArg EdTxn.db h.txn :)]; rfl

/-- What a function that returns a node of its own leaves behind. -/
structure Owns (s s' : St E) (n : Nat) : Prop extends Keeps s s' where
  can : CanWrite s' n

theorem edTxnAlloc_keep (s : St E) (hr : Ready s) (par : Option Nat) (pidx : Nat)
    (hpar : ∀ p, par = some p → p < s.txn.nused) :
    wp (edTxnAlloc env par pidx) (fun n s' => Owns s s' n ∧ s.txn.nused ≤ n)
      (keepExits s) s := by
  refine wp_mono (edTxnAlloc_spec env s hr.writing hr.pgOk par pidx) ?_
    (fun _ _ h => h.failed hr.good) (fun _ _ h => h) (fun _ => trivial)
  rintro n s' ⟨rfl, new, p, ht⟩
  exact ⟨⟨ht.keeps hr.good hpar, ht.canWrite⟩, le_refl _⟩

theorem St.discarded_step (s : St E) (n : Nat) : Step s (s.discarded n) := by
  unfold St.discarded
  split
  · exact Step.refl s
  · refine Step.modTxn s _ rfl rfl rfl rfl rfl (fun h => ⟨h.used_le, h.slot_ge⟩) (le_refl _) ?_ id
    intro m _
    by_cases hm : m = n
    · simp [hm]
    · simp [hm]

theorem St.discarded_parent (s : St E) (n m : Nat) :
    ((s.discarded n).node m).parent = (s.node m).parent := by
  unfold St.discarded
  split
  · rfl
  · by_cases hm : m = n
    · simp [St.node, hm]
    · simp [St.node, hm]

theorem St.discarded_db (s : St E) (n : Nat) : (s.discarded n).txn.db = s.txn.db := by
  unfold St.discarded
  split <;> rfl

theorem Good.discarded (hg : Good s) (n : Nat) : Good (s.discarded n) := by
  unfold St.discarded
  split
  · exact hg
  · exact (hg.modNode n (fun x => { x with gc := true }) rfl (hg.parent n)).congr rfl rfl rfl

theorem Taken.copiedHeader_keeps {s1 : St E} {new : List Nat} {p pidx : Nat} {par : Option Nat}
    (ht : Taken s s1 new p par pidx) (hg : Good s1) (n : Nat) : Keeps s1 (s1.copiedHeader n p) :=
  Keeps.of_parents (Step.modPage s1 p _ (.inr ht.mem_pg) fun _ => rfl) (hg.congr rfl rfl rfl)
    (fun _ _ => rfl) fun _ => rfl

theorem edTxnClone_keep (s : St E) (hr : Ready s) (n : Nat) (hn : n < s.txn.nused) :
    wp (edTxnClone env n) (fun copy s' => Owns s s' copy ∧ s.txn.nused ≤ copy)
      (keepExits s) s := by
  have hpar := hr.good.parent n hn
  refine wp_mono (edTxnClone_spec env s hr.writing hr.pgOk n) ?_ ?_ (fun _ _ h => h)
    (fun _ => trivial)
  · rintro copy s' ⟨rfl, new, p, s1, ht, hs'⟩
    have hk1 := ht.keeps hr.good hpar
    have hk2 := ht.copiedHeader_keeps hk1.good n
    have hk3 : Keeps (s1.copiedHeader n p) s' := by
      rw [hs']
      exact Keeps.of_parents ((St.discarded_step _ n).trans (Step.atTick _ _))
        ((hk2.good.discarded n).congr rfl rfl rfl) (fun m _ => St.discarded_parent _ n m)
        fun d => by rw [St.atTick_txn, St.discarded_db]
    exact ⟨⟨hk1.trans (hk2.trans hk3), ht.canWrite.mono (hk2.trans hk3).step⟩, le_refl _⟩
  · rintro e s' (h | ⟨s1, new, p, ht, herr, hs'⟩)
    · exact h.failed hr.good
    · have hk1 := ht.keeps hr.good hpar
      have hk2 := ht.copiedHeader_keeps hk1.good n
      refine ⟨hk1.trans (hk2.trans ?_), herr⟩
      rw [hs']
      refine Keeps.of_parents ((Step.modTxn _ _ rfl rfl rfl rfl rfl (fun h => ?_) (le_refl _)
        (fun _ _ => rfl) fun _ => herr).trans (Step.atTick _ _)) (hk2.good.congr rfl rfl rfl)
        (fun _ _ => rfl) fun _ => rfl
      exact ⟨(Nat.sub_le _ _).trans h.used_le, h.slot_ge⟩

/-! ## Stores into pages -/

theorem CanWrite.store (h : CanWrite s n) (hg : Good s) (f : EdBpt E → EdBpt E)
    (hf : ∀ b, (f b).xid = b.xid) : Keeps s (s.modPage (s.node n).page f) :=
  Keeps.of_parents (Step.modPage s _ f h.page hf) (hg.congr rfl rfl rfl) (fun _ _ => rfl)
    fun _ => rfl

theorem St.modDb_find (s : St E) (d : EdDb) (f : EdTxnDb → EdTxnDb)
    (hfind : (f (s.txn.db d)).find = (s.txn.db d).find) (e : EdDb) :
    ((s.modDb d f).txn.db e).find = (s.txn.db e).find := by
  by_cases he : e = d
  · rw [he, St.modDb_db_self, hfind]
  · rw [St.modDb_db_of_ne s f he]

theorem Keeps.modDb_same (hg : Good s) (d : EdDb) (f : EdTxnDb → EdTxnDb)
    (hroot : (f (s.txn.db d)).root = (s.txn.db d).root)
    (hfind : (f (s.txn.db d)).find = (s.txn.db d).find)
    (hentry : (f (s.txn.db d)).entry = (s.txn.db d).entry) : Keeps s (s.modDb d f) :=
  Keeps.of_parents (Step.modDb s d f) (hg.modDb_same d f hroot hfind hentry) (fun _ _ => rfl)
    (St.modDb_find s d f hfind)

theorem Good.modDb_leaf (hg : Good s) (d : EdDb) (f : EdTxnDb → EdTxnDb) (hn : n < s.txn.nused)
    (hroot : (f (s.txn.db d)).root = (s.txn.db d).root) (hfind : (f (s.txn.db d)).find = some n)
    (hentry : ∀ e, (f (s.txn.db d)).entry = some e → e.page = (s.node n).page) :
    Good (s.modDb d f) := by
  refine hg.modDb d f ?_ ?_ ?_
  · rw [hroot]; exact hg.root d
  · intro m hm
    rw [hfind] at hm
    cases hm
    exact hn
  · intro e he
    exact ⟨n, hfind, hentry e he⟩

theorem Keeps.modDb_leaf (hg : Good s) (d : EdDb) (f : EdTxnDb → EdTxnDb) (hn : CanWrite s n)
    (hroot : (f (s.txn.db d)).root = (s.txn.db d).root) (hfind : (f (s.txn.db d)).find = some n)
    (hentry : ∀ e, (f (s.txn.db d)).entry = some e → e.page = (s.node n).page) :
    Keeps s (s.modDb d f) := by
  have hs := Step.modDb s d f
  refine ⟨hs, hg.modDb_leaf d f hn.lt hroot hfind hentry, fun m _ ho p hp => (ho p hp).mono hs,
    fun e ho m hm => ?_⟩
  by_cases he : e = d
  · rw [he, St.modDb_db_self, hfind] at hm
    cases hm
    exact hn.mono hs
  · rw [St.modDb_db_of_ne s f he] at hm
    exact (ho m hm).mono hs

theorem Keeps.modNode (hg : Good s) (n : Nat) (f : EdNode → EdNode)
    (hpage : (f (s.node n)).page = (s.node n).page)
    (hpar : ∀ p, (f (s.node n)).parent = some p → CanWrite s p) : Keeps s (s.modNode n f) := by
  have hs := Step.modNode s n f hpage
  refine ⟨hs, hg.modNode n f hpage fun _ p hp => (hpar p hp).lt, fun m _ ho p hp => ?_,
    fun d ho m hm => (ho m hm).mono hs⟩
  by_cases hm : m = n
  · rw [hm, St.modNode_node_self] at hp
    exact (hpar p hp).mono hs
  · rw [St.modNode_node_of_ne s f hm] at hp
    exact (ho p hp).mono hs

theorem moveBranch_keep (hg : Good s) (hd : CanWrite s dst) (di src si n : Nat) :
    wp (moveBranch g dst di src si n) (fun _ s' => Keeps s s') silentExits s := by
  unfold moveBranch
  simp only [wp_ite, wp_bind, wp_getTree, wp_modTree, wp_stuck]
  exact ⟨fun _ => hd.store hg _ fun _ => rfl, fun _ => trivial⟩

theorem moveLeaf_keep (hg : Good s) (hd : CanWrite s dst) (di src si n : Nat) :
    wp (moveLeaf g dst di src si n) (fun _ s' => Keeps s s') silentExits s := by
  unfold moveLeaf
  simp only [wp_ite, wp_bind, wp_getTree, wp_modTree, wp_stuck]
  exact ⟨fun _ => hd.store hg _ fun _ => rfl, fun _ => trivial⟩

theorem branchSetKey_keep (hg : Good s) (hn : CanWrite s n) (idx val : Nat) :
    wp (branchSetKey g n idx val) (fun _ s' => Keeps s s') silentExits s := by
  unfold branchSetKey
  simp only [wp_ite, wp_modTree, wp_stuck, wp_pure']
  exact ⟨fun _ => Keeps.refl hg, fun _ => ⟨fun _ => hn.store hg _ fun _ => rfl, fun _ => trivial⟩⟩

theorem wp_silent {α : Type} {x : M E α} {s1 : St E} {Q Q' : α → St E → Prop}
    (h : wp x Q silentExits s1) (hQ : ∀ a s', Q a s' → Q' a s') : wp x Q' (keepExits s) s1 :=
  wp_mono h hQ (fun _ _ hf => hf.elim) (fun _ _ hf => hf) id

/-! ## Putting a node into its ancestors -/

theorem ownParent_keep (s : St E) (hr : Ready s) (n p : Nat) (hn : n < s.txn.nused)
    (hp : (s.node n).parent = some p) :
    wp (ownParent env g n p) (fun q s' => Owns s s' q ∧ (s'.node n).parent = some q)
      (keepExits s) s := by
  have hlt := hr.good.parent n hn p hp
  unfold ownParent
  simp only [wp_bind, wp_get, wp_ite, wp_getTree, wp_modNode, wp_pure']
  refine ⟨fun _ => ?_, fun hx => ⟨⟨Keeps.refl hr.good, ⟨hlt, .inl (Nat.not_lt.mp hx)⟩⟩, hp⟩⟩
  refine wp_keep (edTxnClone_keep env s hr p hlt) (Keeps.refl hr.good) ?_
  rintro copy s1 ⟨ho, -⟩
  refine wp_silent (moveBranch_keep g ho.good ho.can _ _ _ _) ?_
  rintro _ s2 hk
  have hcan : CanWrite s2 copy := ho.can.mono hk.step
  have hk' : Keeps s2 (s2.modNode n fun x => { x with parent := some copy }) := by
    refine Keeps.modNode hk.good n _ rfl ?_
    rintro q ⟨⟩
    exact hcan
  exact ⟨⟨(ho.toKeeps.trans hk).trans hk', hcan.mono hk'.step⟩, by rw [St.modNode_node_self]⟩

theorem linkNode_keep (hg : Good s) {parent : Nat} (hp : CanWrite s parent) (n : Nat) :
    wp (linkNode g n parent) (fun _ s' => Keeps s s' ∧ s'.txn = s.txn) silentExits s := by
  unfold linkNode branchSetPtr
  simp only [wp_bind, wp_get, wp_when, wp_ite, wp_modTree, wp_stuck]
  exact ⟨fun _ => ⟨fun _ => ⟨hp.store hg _ fun _ => rfl, rfl⟩, fun _ => trivial⟩,
    fun _ => ⟨Keeps.refl hg, trivial⟩⟩

theorem setNode_keep (d : EdDb) (fuel : Nat) :
    ∀ (s : St E) (n : Nat), Ready s → n < s.txn.nused →
      wp (setNode env g d fuel n) (fun _ s' => Keeps s s' ∧ ParentOwned s' n)
        (keepExits s) s := by
  induction fuel with
  | zero => intro s n _ _; exact trivial
  | succ fuel ih =>
    intro s n hr hn
    rw [setNode, wp_bind, wp_getNode]
    cases hp : (s.node n).parent with
    | none =>
      refine ⟨Keeps.of_parents (Step.modDb s d _)
        (hr.good.modDb d _ (some_lt hn) (hr.good.find d) (hr.good.entry d)) (fun _ _ => rfl)
        (St.modDb_find s d _ rfl), ?_⟩
      intro q hq
      rw [St.modDb_node, hp] at hq
      cases hq
    | some p =>
      rw [wp_bind]
      refine wp_keep (ownParent_keep env g s hr n p hn hp) (Keeps.refl hr.good) ?_
      rintro q s1 ⟨ho, hq⟩
      rw [wp_bind]
      refine wp_silent (linkNode_keep g ho.good ho.can n) ?_
      rintro _ s2 ⟨hk, htxn⟩
      have hk2 : Keeps s s2 := ho.toKeeps.trans hk
      have hown : ParentOwned s2 n := by
        intro q' hq'
        have : (s2.node n).parent = some q := by rw [St.node, htxn]; exact hq
        rw [this] at hq'
        cases hq'
        exact ho.can.mono hk.step
      refine wp_keep (ih s2 q (hr.keeps hk2) (ho.can.mono hk.step).lt) hk2 ?_
      rintro _ s3 ⟨hk3, -⟩
      exact ⟨hk2.trans hk3, hk3.owned n (hn.trans_le hk2.step.nused) hown⟩

theorem setNodeTop_keep (s : St E) (hr : Ready s) (d : EdDb) (n : Nat) (hn : n < s.txn.nused) :
    wp (setNodeTop env g d n) (fun _ s' => Keeps s s' ∧ ParentOwned s' n)
      (keepExits s) s := by
  unfold setNodeTop
  rw [wp_bind, wp_gets]
  exact setNode_keep env g d _ s n hr hn

theorem attemptSetNode_keep (s : St E) (hr : Ready s) (d : EdDb) (n : Nat) (hn : n < s.txn.nused) :
    wp (Prog.attempt (setNodeTop env g d n))
      (fun rc s' => Keeps s s' ∧ (rc.isOk = true → ParentOwned s' n)) silentExits s := by
  rw [wp_attempt]
  exact wp_mono (setNodeTop_keep env g s hr d n hn) (fun _ _ h => ⟨h.1, fun _ => h.2⟩)
    (fun _ _ h => ⟨h.toKeeps, fun hok => by cases hok⟩) (fun _ _ h => h) id

/-! ## Splitting branches -/

theorem newRootBranch_keep (s : St E) (hr : Ready s) :
    wp (newRootBranch env) (fun n s' => Owns s s' n) (keepExits s) s := by
  unfold newRootBranch
  simp only [wp_bind, wp_modTree, wp_pure']
  refine wp_keep (edTxnAlloc_keep env s hr none 0 (by simp)) (Keeps.refl hr.good) ?_
  rintro n s1 ⟨ho, -⟩
  have hk := ho.can.store ho.good (fun b => { b with type := .branch, nkeys := 1 }) fun _ => rfl
  exact ⟨ho.toKeeps.trans hk, ho.can.mono hk.step⟩

theorem openBranchSlot_keep (hg : Good s) {branch : Nat} (hb : CanWrite s branch) (src eidx : Nat) :
    wp (openBranchSlot g branch src eidx) (fun _ s' => Keeps s s') silentExits s := by
  unfold openBranchSlot
  simp only [wp_bind, wp_getTree, wp_ite, wp_stuck, wp_modTree]
  refine ⟨fun _ => trivial, fun _ => ?_⟩
  refine wp_post (moveBranch_keep g hg hb _ _ _ _) fun _ s1 hk => ?_
  exact hk.trans ((hb.mono hk.step).store hk.good _ fun _ => rfl)

theorem expandBranch_keep (s : St E) (hr : Ready s) (src eidx : Nat) (hs : src < s.txn.nused) :
    wp (expandBranch env g src eidx) (fun n s' => Owns s s' n) (keepExits s) s := by
  unfold expandBranch
  simp only [wp_bind, wp_get, wp_ite, wp_pure']
  refine ⟨fun _ => ?_, fun hx => ?_⟩
  · refine wp_keep (edTxnClone_keep env s hr src hs) (Keeps.refl hr.good) ?_
    rintro copy s1 ⟨ho, -⟩
    refine wp_silent (moveBranch_keep g ho.good ho.can _ _ _ _) fun _ s2 hk => ?_
    refine wp_silent (openBranchSlot_keep g hk.good (ho.can.mono hk.step) _ _) fun _ s3 hk' => ?_
    exact ⟨(ho.toKeeps.trans hk).trans hk', ho.can.mono (hk.trans hk').step⟩
  · have hcan : CanWrite s src := ⟨hs, .inl (Nat.not_lt.mp hx)⟩
    refine wp_silent (openBranchSlot_keep g hr.good hcan _ _) fun _ s1 hk => ?_
    exact ⟨hk, hcan.mono hk.step⟩

theorem splitLeft_keep (s : St E) (hr : Ready s) (branch mid : Nat) (hb : branch < s.txn.nused) :
    wp (splitLeft env g branch mid) (fun n s' => Owns s s' n) (keepExits s) s := by
  unfold splitLeft
  simp only [wp_bind, wp_get, wp_ite, wp_pure']
  refine ⟨fun _ => ?_, fun hx => ⟨Keeps.refl hr.good, ⟨hb, .inl (Nat.not_lt.mp hx)⟩⟩⟩
  refine wp_keep (edTxnClone_keep env s hr branch hb) (Keeps.refl hr.good) ?_
  rintro copy s1 ⟨ho, -⟩
  refine wp_silent (moveBranch_keep g ho.good ho.can _ _ _ _) fun _ s2 hk => ?_
  exact ⟨ho.toKeeps.trans hk, ho.can.mono hk.step⟩

theorem splitBranch_keep (s : St E) (hr : Ready s) (branch mid : Nat) (hb : branch < s.txn.nused) :
    wp (splitBranch env g branch mid)
      (fun lr s' => Keeps s s' ∧ CanWrite s' lr.1 ∧ CanWrite s' lr.2) (keepExits s) s := by
  unfold splitBranch
  simp only [wp_bind, wp_getNode, wp_getTree, wp_modTree, wp_pure']
  refine wp_keep (edTxnAlloc_keep env s hr _ _ (hr.good.parent branch hb)) (Keeps.refl hr.good) ?_
  rintro right s1 ⟨ho, -⟩
  have hr1 := hr.keeps ho.toKeeps
  refine wp_keep (splitLeft_keep env g s1 hr1 branch mid (hb.trans_le ho.step.nused))
    ho.toKeeps fun left s2 hl => ?_
  have hright : CanWrite s2 right := ho.can.mono hl.step
  set f : EdBpt E → EdBpt E := fun c =>
    { c with type := .branch, nkeys := (s2.tree branch).nkeys - mid } with hf
  have hk1 := hright.store hl.good f fun _ => rfl
  set s3 := s2.modPage (s2.node right).page f with hs3
  have hk2 := (hl.can.mono hk1.step).store hk1.good (fun c => { c with nkeys := mid - 1 })
    fun _ => rfl
  have hk12 := hk1.trans hk2
  refine wp_silent (moveBranch_keep g hk2.good (hright.mono hk12.step) _ _ _ _) fun _ s4 hk3 => ?_
  exact ⟨(ho.toKeeps.trans hl.toKeeps).trans (hk12.trans hk3),
    hl.can.mono (hk12.trans hk3).step, hright.mono (hk12.trans hk3).step⟩

theorem Keeps.modPindex (hg : Good s) (n : Nat) (f : EdNode → EdNode)
    (hpage : (f (s.node n)).page = (s.node n).page)
    (hpar : (f (s.node n)).parent = (s.node n).parent) : Keeps s (s.modNode n f) := by
  refine Keeps.of_parents (Step.modNode s n f hpage) (hg.modNode n f hpage ?_) (fun m _ => ?_)
    fun _ => rfl
  · rw [hpar]
    exact hg.parent n
  · by_cases hm : m = n
    · rw [hm, St.modNode_node_self, hpar]
    · rw [St.modNode_node_of_ne s f hm]

theorem splitRoom_keep (hg : Good s) (hl : CanWrite s left) (hr : CanWrite s right)
    (l r mid rkey rbkey : Nat) :
    wp (splitRoom g l r left right mid rkey rbkey) (fun n s' => Owns s s' n) silentExits s := by
  unfold splitRoom
  simp only [wp_bind, wp_getNode, wp_ite, wp_stuck, wp_modNode, wp_pure']
  refine ⟨fun _ => ?_, fun _ => ⟨fun _ => trivial, fun _ => ?_⟩⟩
  · refine wp_post (openBranchSlot_keep g hg hl _ _) fun _ s1 hk => ?_
    exact ⟨hk, hl.mono hk.step⟩
  · have hk1 := Keeps.modPindex hg l (fun x => { x with pindex := x.pindex - mid }) rfl rfl
    have hk2 := Keeps.modPindex hk1.good r
      (fun y => { y with pindex := (s.node l).pindex - mid + 1 }) rfl rfl
    have hk12 := hk1.trans hk2
    refine wp_post (openBranchSlot_keep g hk2.good (hr.mono hk12.step) _ _) fun _ s3 hk => ?_
    exact ⟨hk12.trans hk, hr.mono (hk12.trans hk).step⟩

theorem linkSplit_keep (s : St E) (hr : Ready s) (d : EdDb) {branch l r : Nat} (rkey : Nat)
    (hb : CanWrite s branch) (hl : l < s.txn.nused) (hrlt : r < s.txn.nused) :
    wp (linkSplit env g d branch l r rkey) (fun _ s' => Keeps s s') (keepExits s) s := by
  have howned : ∀ (s1 : St E), CanWrite s1 branch → ∀ p, some branch = some p → CanWrite s1 p := by
    rintro s1 h p ⟨⟩
    exact h
  unfold linkSplit
  simp only [wp_bind, wp_modNode]
  have hk1 := Keeps.modNode hr.good l (fun x => { x with parent := some branch }) rfl (howned s hb)
  set s1 := s.modNode l (fun x => { x with parent := some branch }) with hs1
  have hk2 := Keeps.modNode hk1.good r (fun x => { x with parent := some branch }) rfl
    (howned s1 (hb.mono hk1.step))
  set s2 := s1.modNode r (fun x => { x with parent := some branch }) with hs2
  have hk12 := hk1.trans hk2
  have hrown : ParentOwned s2 r := by
    intro p hp
    rw [hs2, St.modNode_node_self] at hp
    exact howned s2 (hb.mono hk12.step) p hp
  refine wp_silent (attemptSetNode_keep env g s2 (hr.keeps hk12) d l
    (hl.trans_le hk12.step.nused)) ?_
  rintro _ s3 ⟨hk3, -⟩
  have hk123 := hk12.trans hk3
  have hrown3 := hk3.owned r (hrlt.trans_le hk12.step.nused) hrown
  unfold linkRight
  rw [wp_bind, wp_getNode]
  cases hp : (s3.node r).parent with
  | none => exact trivial
  | some p =>
    simp only [wp_bind, wp_pure']
    refine wp_silent (branchSetKey_keep g hk3.good (hrown3 p hp) _ _) fun _ s4 hk4 => ?_
    have hk1234 := hk123.trans hk4
    refine wp_silent (attemptSetNode_keep env g s4 (hr.keeps hk1234) d r
      (hrlt.trans_le hk1234.step.nused)) ?_
    rintro _ s5 ⟨hk5, -⟩
    exact hk1234.trans hk5

/-- The recursion goes up by one branch and stores only into the branches it owns. -/
theorem insertIntoParent_keep (d : EdDb) (fuel : Nat) :
    ∀ (s : St E) (l r rkey : Nat), Ready s → l < s.txn.nused → r < s.txn.nused →
      wp (insertIntoParent env g d fuel l r rkey) (fun _ s' => Keeps s s')
        (keepExits s) s := by
  induction fuel with
  | zero => intro s l r rkey _ _ _; exact trivial
  | succ fuel ih =>
    intro s l r rkey hr hl hrlt
    rw [insertIntoParent, wp_bind, wp_get]
    cases hp : (s.node l).parent with
    | none =>
      rw [wp_bind]
      refine wp_keep (newRootBranch_keep env s hr) (Keeps.refl hr.good) fun branch s1 ho => ?_
      exact wp_keep (linkSplit_keep env g s1 (hr.keeps ho.toKeeps) d rkey ho.can
        (hl.trans_le ho.step.nused) (hrlt.trans_le ho.step.nused)) ho.toKeeps
        fun _ _ h => ho.toKeeps.trans h
    | some branch =>
      have hb : branch < s.txn.nused := hr.good.parent l hl branch hp
      simp only [wp_ite, wp_bind]
      refine ⟨fun _ => ?_, fun _ => ?_⟩
      · refine wp_keep (splitBranch_keep env g s hr branch _ hb) (Keeps.refl hr.good) ?_
        rintro lr s1 ⟨hk1, hcl, hcr⟩
        refine wp_silent (splitRoom_keep g hk1.good hcl hcr l r _ _ _) fun half s2 ho => ?_
        have hk2 := hk1.trans ho.toKeeps
        refine wp_keep (ih s2 lr.1 lr.2 _ (hr.keeps hk2) (hcl.mono ho.step).lt
          (hcr.mono ho.step).lt) hk2 fun _ s3 hk3 => ?_
        have hk23 := hk2.trans hk3
        exact wp_keep (linkSplit_keep env g s3 (hr.keeps hk23) d rkey (ho.can.mono hk3.step)
          (hl.trans_le hk23.step.nused) (hrlt.trans_le hk23.step.nused)) hk23
          fun _ _ h => hk23.trans h
      · refine wp_keep (expandBranch_keep env g s hr branch _ hb) (Keeps.refl hr.good)
          fun b s1 ho => ?_
        exact wp_keep (linkSplit_keep env g s1 (hr.keeps ho.toKeeps) d rkey ho.can
          (hl.trans_le ho.step.nused) (hrlt.trans_le ho.step.nused)) ho.toKeeps
          fun _ _ h => ho.toKeeps.trans h

/-! ## Splitting leaves -/

theorem moveLeaf_step (hd : CanWrite s dst) (di src si n : Nat) :
    wp (moveLeaf g dst di src si n) (fun _ s' => Step s s' ∧ s'.txn = s.txn)
      silentExits s := by
  unfold moveLeaf
  simp only [wp_ite, wp_bind, wp_getTree, wp_modTree, wp_stuck]
  exact ⟨fun _ => ⟨Step.modPage s _ _ hd.page fun _ => rfl, rfl⟩, fun _ => trivial⟩

theorem splitLeafLeft_keep (s : St E) (hr : Ready s) (leaf : Nat) (hl : leaf < s.txn.nused) :
    wp (splitLeafLeft env leaf) (fun n s' => Owns s s' n) (keepExits s) s := by
  unfold splitLeafLeft
  simp only [wp_bind, wp_get, wp_ite, wp_pure']
  refine ⟨fun _ => ?_, fun hx => ⟨Keeps.refl hr.good, ⟨hl, .inl (Nat.not_lt.mp hx)⟩⟩⟩
  exact wp_keep (edTxnClone_keep env s hr leaf hl) (Keeps.refl hr.good) fun _ _ h => h.1

/-- The cursor is moved in two stores, with the entries moved in between. -/
theorem splitIntoLeft_keep (hg : Good s) (d : EdDb) {leaf : Nat} (hl : CanWrite s left)
    (hr : CanWrite s right) (mid eidx : Nat) :
    wp (splitIntoLeft g d leaf left right mid eidx)
      (fun _ s' => Keeps s s' ∧ FindOwned s' d) silentExits s := by
  unfold splitIntoLeft
  simp only [wp_bind, wp_modDb, wp_when, wp_get]
  have hst := Step.modDb s d (fun c => { c with find := some left })
  set s1 := s.modDb d (fun c => { c with find := some left }) with hs1
  have last : ∀ s2 : St E, Step s1 s2 → s2.txn = s1.txn →
      wp (moveLeaf g left (eidx + 1) leaf eidx (mid - eidx))
        (fun _ s' =>
          Keeps s (s'.modDb d fun c => { c with entry := some ⟨(s'.node left).page, eidx⟩ }) ∧
          FindOwned (s'.modDb d fun c => { c with entry := some ⟨(s'.node left).page, eidx⟩ }) d)
        silentExits s2 := by
    intro s2 hst2 htxn2
    have hcan := hl.mono (hst.trans hst2)
    refine wp_post (moveLeaf_step g hcan _ _ _ _) ?_
    rintro _ s3 ⟨hst3, htxn3⟩
    have htxn : s3.txn = s1.txn := htxn3.trans htxn2
    have hnode : ∀ m, s3.node m = s.node m := fun m => by rw [St.node, htxn]; rfl
    have hst13 := hst.trans (hst2.trans hst3)
    -- the cursor is the one a single move to the left half would give
    have hk' := Keeps.modDb_leaf hg d (fun c => { c with
      find := some left, entry := some ⟨(s.node left).page, eidx⟩ }) hl rfl rfl
      (by rintro e ⟨⟩; rfl)
    have hdb : (s3.modDb d fun c => { c with
        entry := some ⟨(s3.node left).page, eidx⟩ }).txn.db
        = (s.modDb d fun c => { c with
          find := some left, entry := some ⟨(s.node left).page, eidx⟩ }).txn.db := by
      funext e
      simp only [St.modDb, St.modTxn_txn, htxn, hs1, hnode]
      by_cases he : e = d <;> simp [he]
    have hstep := hst13.trans (Step.modDb s3 d fun c => { c with
      entry := some ⟨(s3.node left).page, eidx⟩ })
    have hown : FindOwned (s3.modDb d fun c => { c with
        entry := some ⟨(s3.node left).page, eidx⟩ }) d := by
      intro m hm
      rw [hdb, St.modDb_db_self] at hm
      cases hm
      exact hl.mono hstep
    refine ⟨⟨hstep, hk'.good.congr (congrArg EdTxn.nodes htxn :) (congrArg EdTxn.nused htxn :) hdb,
      fun m _ ho p hp => ?_, fun e ho m hm => ?_⟩, hown⟩
    · rw [St.modDb_node, hnode] at hp
      exact (ho p hp).mono hstep
    · by_cases he : e = d
      · subst he
        exact hown m hm
      · rw [hdb, St.modDb_db_of_ne s _ he] at hm
        exact (ho m hm).mono hstep
  refine wp_post (moveLeaf_step g (hr.mono hst) _ _ _ _) ?_
  rintro _ s2 ⟨hst2, htxn2⟩
  refine ⟨fun _ => ?_, fun _ => last s2 hst2 htxn2⟩
  refine wp_post (moveLeaf_step g (hl.mono (hst.trans hst2)) _ _ _ _) ?_
  rintro _ s3 ⟨hst3, htxn3⟩
  exact last s3 (hst2.trans hst3) (htxn3.trans htxn2)

theorem splitIntoRight_keep (hg : Good s) (d : EdDb) {leaf : Nat} (hl : CanWrite s left)
    (hr : CanWrite s right) (mid eidx : Nat) :
    wp (splitIntoRight g d leaf left right mid eidx)
      (fun _ s' => Keeps s s' ∧ FindOwned s' d) silentExits s := by
  unfold splitIntoRight
  simp only [wp_bind, wp_modDb, wp_when, wp_get, wp_getTree, wp_ite,
    wp_stuck]
  have last : ∀ s1 : St E, Keeps s s1 →
      wp (moveLeaf g right 0 leaf mid eidx)
        (fun _ s2 => ((s2.tree right).nkeys < eidx → (silentExits (E := E)).stuck) ∧
          (¬ (s2.tree right).nkeys < eidx →
            wp (moveLeaf g right (eidx + 1) leaf (mid + eidx) ((s2.tree right).nkeys - eidx))
              (fun _ s' =>
                Keeps s (s'.modDb d fun c => { c with
                  entryIndex := eidx
                  find := some right
                  entry := some ⟨(s'.node right).page, eidx⟩ }) ∧
                FindOwned (s'.modDb d fun c => { c with
                  entryIndex := eidx
                  find := some right
                  entry := some ⟨(s'.node right).page, eidx⟩ }) d) silentExits s2)) silentExits s1 := by
    intro s1 hk1
    refine wp_post (moveLeaf_keep g hk1.good (hr.mono hk1.step) _ _ _ _) fun _ s2 hk2 => ?_
    have hk12 := hk1.trans hk2
    refine ⟨fun _ => trivial, fun _ => ?_⟩
    refine wp_post (moveLeaf_keep g hk2.good (hr.mono hk12.step) _ _ _ _) fun _ s3 hk3 => ?_
    have hk := hk12.trans hk3
    have hleaf := Keeps.modDb_leaf hk.good d (fun c => { c with
      entryIndex := eidx
      find := some right
      entry := some ⟨(s3.node right).page, eidx⟩ }) (hr.mono hk.step) rfl rfl
      (by rintro e ⟨⟩; rfl)
    refine ⟨hk.trans hleaf, fun m hm => ?_⟩
    rw [St.modDb_db_self] at hm
    cases hm
    exact hr.mono (hk.trans hleaf).step
  refine ⟨fun _ => ?_, fun _ => last s (Keeps.refl hg)⟩
  exact wp_post (moveLeaf_keep g hg hl _ _ _ _) fun _ s1 hk => last s1 hk

theorem splitLeafPages_keep (s : St E) (hr : Ready s) (d : EdDb) (leaf mid eidx : Nat)
    (hl : leaf < s.txn.nused) :
    wp (splitLeafPages env g d leaf mid eidx)
      (fun lr s' => Keeps s s' ∧ CanWrite s' lr.1 ∧ CanWrite s' lr.2 ∧ FindOwned s' d)
      (keepExits s) s := by
  unfold splitLeafPages
  simp only [wp_bind, wp_getNode, wp_getTree, wp_modTree, wp_when, wp_pure']
  refine wp_keep (edTxnAlloc_keep env s hr _ _ (hr.good.parent leaf hl)) (Keeps.refl hr.good) ?_
  rintro right s1 ⟨ho, -⟩
  refine wp_keep (splitLeafLeft_keep env s1 (hr.keeps ho.toKeeps) leaf
    (hl.trans_le ho.step.nused)) ho.toKeeps fun left s2 hleft => ?_
  have hright : CanWrite s2 right := ho.can.mono hleft.step
  have hk1 := hright.store hleft.good
    (fun c => { c with type := .leaf, nkeys := (s2.tree leaf).nkeys - mid }) fun _ => rfl
  set s3 := s2.modPage (s2.node right).page
    (fun c => { c with type := .leaf, nkeys := (s2.tree leaf).nkeys - mid }) with hs3
  have hk2 := (hleft.can.mono hk1.step).store hk1.good (fun c => { c with nkeys := mid })
    fun _ => rfl
  have hk12 := hk1.trans hk2
  set s4 := s3.modPage (s3.node left).page (fun c => { c with nkeys := mid }) with hs4
  have hk : Keeps s s4 := (ho.toKeeps.trans hleft.toKeeps).trans hk12
  have hcl : CanWrite s4 left := hleft.can.mono hk12.step
  have hcr : CanWrite s4 right := hright.mono hk12.step
  refine ⟨fun hlt => ?_, fun hge => ⟨fun _ => ?_, fun h => absurd (Nat.not_lt.mp hge) h⟩⟩
  · refine wp_silent (splitIntoLeft_keep g hk.good d hcl hcr mid eidx) ?_
    rintro _ s5 ⟨hk5, hown⟩
    exact ⟨fun h => absurd hlt (Nat.not_lt.mpr h), fun _ =>
      ⟨hk.trans hk5, hcl.mono hk5.step, hcr.mono hk5.step, hown⟩⟩
  · refine wp_silent (splitIntoRight_keep g hk.good d hcl hcr mid (eidx - mid)) ?_
    rintro _ s5 ⟨hk5, hown⟩
    exact ⟨hk.trans hk5, hcl.mono hk5.step, hcr.mono hk5.step, hown⟩

variable [EdEntry E]

theorem splitLeaf_keep (s : St E) (hr : Ready s) (d : EdDb) (leaf mid : Nat)
    (hl : leaf < s.txn.nused) :
    wp (splitLeaf env g d leaf mid) (fun _ s' => Keeps s s' ∧ FindOwned s' d)
      (keepExits s) s := by
  unfold splitLeaf
  simp only [wp_bind, wp_get, wp_ite, wp_stuck, wp_gets]
  refine ⟨fun _ => trivial, fun _ => ?_⟩
  refine wp_keep (splitLeafPages_keep env g s hr d leaf mid _ hl) (Keeps.refl hr.good) ?_
  rintro lr s1 ⟨hk, hcl, hcr, hown⟩
  exact wp_keep (insertIntoParent_keep env g d _ s1 _ _ _ (hr.keeps hk) hcl.lt hcr.lt) hk
    fun _ _ h => ⟨hk.trans h, h.found d hown⟩

/-! ## Insertion into a leaf -/

/-- The leaf that takes the new entry: it may be changed, and the cursor is on it. -/
structure Room (d : EdDb) (s s' : St E) (n : Nat) : Prop extends Owns s s' n where
  find : (s'.txn.db d).find = some n

omit [EdEntry E] in
theorem freshLeaf_keep (s : St E) (hr : Ready s) (d : EdDb) :
    wp (freshLeaf env d) (fun n s' => Room d s s' n) (keepExits s) s := by
  unfold freshLeaf
  simp only [wp_bind, wp_modTree, wp_getNode, wp_modDb, wp_pure']
  refine wp_keep (edTxnAlloc_keep env s hr none 0 (by simp)) (Keeps.refl hr.good) ?_
  rintro n s1 ⟨ho, -⟩
  have hk1 := ho.can.store ho.good (fun b => { b with type := .leaf, nkeys := 1 }) fun _ => rfl
  set s2 := s1.modPage (s1.node n).page (fun b => { b with type := .leaf, nkeys := 1 }) with hs2
  have hk2 := Keeps.modDb_leaf hk1.good d (fun c => { c with
    entry := some ⟨(s2.node n).page, 0⟩, entryIndex := 0, find := some n }) (ho.can.mono hk1.step)
    rfl rfl (by rintro e ⟨⟩; rfl)
  refine ⟨⟨ho.toKeeps.trans (hk1.trans hk2), ho.can.mono (hk1.trans hk2).step⟩, ?_⟩
  rw [St.modDb_db_self]

/-- A failed insertion; a leaf full of one key leaves no error code behind by itself. -/
def insertExits (s : St E) : Exits EdErr EdFault (St E) where
  err _ s' := Keeps s s'
  halt _ _ := False
  stuck := True

omit [EdEntry E] in
theorem wp_insert {α : Type} {x : M E α} {Q : α → St E → Prop} (h : wp x Q (keepExits s) s) :
    wp x Q (insertExits s) s :=
  wp_mono h (fun _ _ hq => hq) (fun _ _ hf => hf.toKeeps) (fun _ _ hf => hf) id

theorem splitFull_keep (s : St E) (hr : Ready s) (d : EdDb) (leaf : Nat) (hl : leaf < s.txn.nused) :
    wp (splitFull env g d leaf) (fun n s' => Room d s s' n) (insertExits s) s := by
  unfold splitFull
  rw [wp_bind, wp_get]
  cases splitPoint (s.txn.db d) (s.tree leaf) with
  | none => exact Keeps.refl hr.good
  | some mid =>
    simp only [wp_bind, wp_getDb]
    refine wp_post (wp_insert (splitLeaf_keep env g s hr d leaf mid hl)) ?_
    rintro _ s1 ⟨hk, hown⟩
    cases hf : (s1.txn.db d).find with
    | none => exact trivial
    | some half =>
      simp only [wp_bind, wp_modTree, wp_pure']
      have hcan := hown half hf
      have hk1 := hcan.store hk.good (fun b => { b with nkeys := b.nkeys + 1 }) fun _ => rfl
      exact ⟨⟨hk.trans hk1, hcan.mono hk1.step⟩, hf⟩

omit [EdEntry E] in
theorem ownLeaf_keep (s : St E) (hr : Ready s) (d : EdDb) (src eidx : Nat) (replace : Bool)
    (hf : (s.txn.db d).find = some src) :
    wp (ownLeaf env g d src eidx replace) (fun n s' => Room d s s' n) (keepExits s) s := by
  have hs := hr.good.find d src hf
  unfold ownLeaf cloneLeaf
  simp only [wp_bind, wp_get, wp_ite, wp_getNode, wp_modDb, wp_pure']
  refine ⟨fun _ => ?_, fun hx => ⟨⟨Keeps.refl hr.good, ⟨hs, .inl (Nat.not_lt.mp hx)⟩⟩, hf⟩⟩
  refine wp_keep (edTxnClone_keep env s hr src hs) (Keeps.refl hr.good) ?_
  rintro copy s1 ⟨ho, -⟩
  have hk1 := Keeps.modDb_leaf ho.good d (fun c => { c with
    find := some copy, entry := some ⟨(s1.node copy).page, eidx⟩ }) ho.can rfl rfl
    (by rintro e ⟨⟩; rfl)
  set s2 := s1.modDb d (fun c => { c with
    find := some copy, entry := some ⟨(s1.node copy).page, eidx⟩ }) with hs2
  have hcan2 := ho.can.mono hk1.step
  unfold moveLeaf
  simp only [wp_ite, wp_bind, wp_getTree, wp_modTree, wp_stuck]
  refine ⟨fun _ => ?_, fun _ => trivial⟩
  have hk2 := hcan2.store hk1.good (fun c => { c with
    ent := blit c.ent 0 (s2.tree src).ent 0 (if replace then g.leafOrder else eidx) }) fun _ => rfl
  refine ⟨⟨ho.toKeeps.trans (hk1.trans hk2), hcan2.mono hk2.step⟩, ?_⟩
  rw [St.modPage_txn, hs2, St.modDb_db_self]

omit [EdEntry E] in
theorem expandLeaf_keep (s : St E) (hr : Ready s) (d : EdDb) (src eidx : Nat) (replace : Bool)
    (hf : (s.txn.db d).find = some src) :
    wp (expandLeaf env g d src eidx replace) (fun n s' => Room d s s' n) (keepExits s) s := by
  unfold expandLeaf openLeafSlot moveLeaf
  simp only [wp_bind, wp_when, wp_getTree, wp_ite, wp_stuck, wp_modTree,
    wp_pure']
  refine wp_keep (ownLeaf_keep env g s hr d src eidx replace hf) (Keeps.refl hr.good)
    fun n s1 ho => ⟨fun _ => ?_, fun _ => ho⟩
  refine ⟨fun _ => trivial, fun _ => ⟨fun _ => ?_, fun _ => trivial⟩⟩
  set f : EdBpt E → EdBpt E := fun c => { c with
    ent := blit c.ent (eidx + 1) (s1.tree src).ent eidx ((s1.tree src).nkeys - eidx) } with hfdef
  have hk1 := ho.can.store ho.good f fun _ => rfl
  set s2 := s1.modPage (s1.node n).page f with hs2
  have hk2 := (ho.can.mono hk1.step).store hk1.good (fun c => { c with nkeys := c.nkeys + 1 })
    fun _ => rfl
  exact ⟨⟨ho.toKeeps.trans (hk1.trans hk2), ho.can.mono (hk1.trans hk2).step⟩, ho.find⟩

theorem roomInLeaf_keep (s : St E) (hr : Ready s) (d : EdDb) (replace : Bool) :
    wp (roomInLeaf env g d replace) (fun n s' => Room d s s' n) (insertExits s) s := by
  unfold roomInLeaf
  rw [wp_bind, wp_get]
  cases hf : (s.txn.db d).find with
  | none => exact wp_insert (freshLeaf_keep env s hr d)
  | some leaf =>
    rw [wp_ite]
    exact ⟨fun _ => splitFull_keep env g s hr d leaf (hr.good.find d leaf hf),
      fun _ => wp_insert (expandLeaf_keep env g s hr d leaf _ replace hf)⟩

omit [EdEntry E] in
theorem storeEnt_keep (hg : Good s) (d : EdDb) (hown : FindOwned s d) (e : E) :
    wp (storeEnt g (s.txn.db d).entry e) (fun _ s' => Keeps s s') silentExits s := by
  unfold storeEnt
  cases hp : (s.txn.db d).entry with
  | none => exact trivial
  | some p =>
    obtain ⟨n, hn, hpage⟩ := hg.entry d p hp
    rw [wp_ite]
    refine ⟨fun _ => ?_, fun _ => trivial⟩
    rw [wp_modify, hpage]
    exact (hown n hn).store hg _ fun _ => rfl

theorem setLeaf_keep (s : St E) (hr : Ready s) (d : EdDb) (leaf eidx : Nat)
    (hl : leaf < s.txn.nused) :
    wp (setLeaf env g d leaf eidx) (fun _ s' => Keeps s s') silentExits s := by
  unfold setLeaf setLeafKey
  simp only [wp_bind, wp_getNode, wp_when, wp_get]
  refine wp_post (attemptSetNode_keep env g s hr d leaf hl) ?_
  rintro rc s1 ⟨hk, hown⟩
  refine ⟨fun hc => ?_, fun _ => hk⟩
  cases hp : (s1.node leaf).parent with
  | none => exact trivial
  | some p =>
    refine wp_post (branchSetKey_keep g hk.good (hown hc.1 p hp) _ _) fun _ s2 hk2 => ?_
    exact hk.trans hk2

theorem insertIntoLeaf_keep (s : St E) (hr : Ready s) (d : EdDb) (e : E) (replace : Bool) :
    wp (insertIntoLeaf env g d e replace) (fun _ s' => Keeps s s') (insertExits s) s := by
  unfold insertIntoLeaf
  simp only [wp_bind, wp_getDb]
  refine wp_post (roomInLeaf_keep env g s hr d replace) fun leaf s1 ho => ?_
  have hown : FindOwned s1 d := by
    intro n hn
    rw [ho.find] at hn
    cases hn
    exact ho.can
  refine wp_mono (storeEnt_keep g ho.good d hown e) ?_ (fun _ _ h => h.elim)
    (fun _ _ h => h) id
  intro _ s2 hk
  have hk2 := ho.toKeeps.trans hk
  refine wp_mono (setLeaf_keep env g s2 (hr.keeps hk2) d leaf _ (ho.can.mono hk.step).lt) ?_
    (fun _ _ h => h.elim) (fun _ _ h => h) id
  intro _ s3 hk3
  exact hk2.trans hk3

/-- The result of a public operation that changes a tree: it succeeds, or it did nothing, or it
left an error in the transaction. -/
def modifyExits (s : St E) : Exits EdErr EdFault (St E) where
  err _ s' := Keeps s s' ∧ (s' = s ∨ s'.txn.error ≠ none)
  halt _ _ := False
  stuck := True

theorem edBptSet_keep (s : St E) (hr : Ready s) (d : EdDb) (e : E) (replace : Bool) :
    wp (edBptSet env g d e replace) (fun _ s' => Keeps s s') (modifyExits s) s := by
  unfold edBptSet
  simp only [wp_bind, wp_gets, wp_ite, wp_throw, wp_onErr, wp_modDb]
  refine ⟨fun _ => ⟨Keeps.refl hr.good, .inl rfl⟩, fun _ =>
    ⟨fun _ => ⟨Keeps.refl hr.good, .inl rfl⟩, fun _ => ?_⟩⟩
  refine wp_mono (insertIntoLeaf_keep env g s hr d e _) ?_ ?_ (fun _ _ h => h) id
  · intro _ s1 hk
    exact hk.trans (Keeps.modDb_same hk.good d _ rfl rfl rfl)
  · intro err s1 hk
    refine ⟨hk.trans ?_, .inr (by simp)⟩
    exact Keeps.of_parents (Step.modTxn s1 _ rfl rfl rfl rfl rfl
      (fun h => ⟨h.used_le, h.slot_ge⟩) (le_refl _) (fun _ _ => rfl) fun _ => by simp)
      (hk.good.congr rfl rfl rfl) (fun _ _ => rfl) fun _ => rfl

/-! ## Deletion -/

omit [EdEntry E] in
theorem ownForDel_keep (s : St E) (hr : Ready s) (d : EdDb) (leaf eidx : Nat)
    (hf : (s.txn.db d).find = some leaf) :
    wp (ownForDel env g d leaf eidx) (fun n s' => Room d s s' n) (keepExits s) s := by
  have hl := hr.good.find d leaf hf
  unfold ownForDel
  simp only [wp_bind, wp_get, wp_ite, wp_getNode, wp_modDb, wp_pure']
  refine ⟨fun _ => ?_, fun hx => ⟨⟨Keeps.refl hr.good, ⟨hl, .inl (Nat.not_lt.mp hx)⟩⟩, hf⟩⟩
  refine wp_keep (edTxnClone_keep env s hr leaf hl) (Keeps.refl hr.good) ?_
  rintro copy s1 ⟨ho, -⟩
  refine wp_silent (moveLeaf_keep g ho.good ho.can _ _ _ _) fun _ s2 hk2 => ?_
  have hk12 := ho.toKeeps.trans hk2
  have hcan2 := ho.can.mono hk2.step
  refine wp_keep (setNodeTop_keep env g s2 (hr.keeps hk12) d copy hcan2.lt) hk12 ?_
  rintro _ s3 ⟨hk3, -⟩
  have hk13 := hk12.trans hk3
  have hcan3 := hcan2.mono hk3.step
  have hk4 := Keeps.modDb_leaf hk3.good d (fun c => { c with
    entry := some ⟨(s3.node copy).page, eidx⟩, find := some copy }) hcan3 rfl rfl
    (by rintro e ⟨⟩; rfl)
  refine ⟨⟨hk13.trans hk4, hcan3.mono hk4.step⟩, ?_⟩
  rw [St.modDb_db_self]

omit [EdEntry E] in
theorem shiftLeft_keep (hg : Good s) {m : Nat} (hm : CanWrite s m) {p : EntPtr}
    (hp : p.page = (s.node m).page) (n : Nat) :
    wp (shiftLeft g p n) (fun _ s' => Keeps s s' ∧ s'.txn = s.txn) silentExits s := by
  unfold shiftLeft
  simp only [wp_when, wp_ite, wp_modify, wp_stuck]
  refine ⟨fun _ => ⟨fun _ => ?_, fun _ => trivial⟩, fun _ => ⟨Keeps.refl hg, trivial⟩⟩
  rw [hp]
  exact ⟨hm.store hg _ fun _ => rfl, rfl⟩

omit [EdEntry E] in
theorem closeLeafSlot_keep (hg : Good s) (d : EdDb) (hown : FindOwned s d) (leaf eidx : Nat) :
    wp (closeLeafSlot g d leaf eidx) (fun _ s' => Keeps s s' ∧ s'.txn = s.txn)
      silentExits s := by
  have hshift : ∀ p, (s.txn.db d).entry = some p → ∀ k,
      wp (shiftLeft g p k) (fun _ s' => Keeps s s' ∧ s'.txn = s.txn) silentExits s := by
    intro p hp k
    obtain ⟨n, hn, hpage⟩ := hg.entry d p hp
    exact shiftLeft_keep g hg (hown n hn) hpage k
  unfold closeLeafSlot
  simp only [wp_bind, wp_getTree, wp_getDb]
  cases hp : (s.txn.db d).entry with
  | none => exact trivial
  | some p => exact hshift p hp _

theorem kmaxAfterDel_quiet (s : St E) (d : EdDb) (leaf : Nat) (X : Exits EdErr EdFault (St E))
    (hX : X.stuck) : wp (kmaxAfterDel g d leaf) (fun _ s' => s = s') X s := by
  unfold kmaxAfterDel
  simp only [wp_bind, wp_get, wp_ite, wp_pure']
  exact ⟨fun _ => findKmax_quiet s s _ _ X hX, fun _ => readEnt_quiet g s _ X hX⟩

theorem edBptDel_keep (s : St E) (hr : Ready s) (d : EdDb) :
    wp (edBptDel env g d) (fun _ s' => Keeps s s') (modifyExits s) s := by
  unfold edBptDel
  simp only [wp_bind, wp_gets, wp_ite, wp_throw]
  refine ⟨fun _ => ⟨Keeps.refl hr.good, .inl rfl⟩, fun _ =>
    ⟨fun _ => ⟨Keeps.refl hr.good, .inl rfl⟩, fun _ => ⟨fun _ => Keeps.refl hr.good, fun _ => ?_⟩⟩⟩
  cases hf : (s.txn.db d).find with
  | none => exact trivial
  | some n =>
    simp only [wp_bind, wp_modTree, wp_modDb, wp_pure']
    refine wp_mono (ownForDel_keep env g s hr d n _ hf) ?_
      (fun _ _ h => ⟨h.toKeeps, .inr h.error⟩) (fun _ _ h => h) id
    intro leaf s1 ho
    have hown : FindOwned s1 d := by
      intro m hm
      rw [ho.find] at hm
      cases hm
      exact ho.can
    refine wp_mono (closeLeafSlot_keep g ho.good d hown leaf _) ?_ (fun _ _ h => h.elim)
      (fun _ _ h => h) id
    rintro _ s2 ⟨hk2, htxn⟩
    have hcan2 := ho.can.mono hk2.step
    have hk3 := hcan2.store hk2.good (fun b => { b with nkeys := nkeysAfterDel b.nkeys })
      fun _ => rfl
    have hk13 := ho.toKeeps.trans (hk2.trans hk3)
    refine wp_post (kmaxAfterDel_quiet g _ d leaf (modifyExits s) trivial) ?_
    rintro kmax s4 rfl
    exact hk13.trans (Keeps.modDb_same hk3.good d _ rfl rfl rfl)

end Eddy
