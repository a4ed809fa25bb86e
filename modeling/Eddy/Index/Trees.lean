import Eddy.Index.InsertParent

/-!
# Eddy — the trees of a write transaction

A write transaction works on two trees. Their pages are pages of the committed trees or pages the
transaction took itself; a page that it took out of a tree is noted for removal.
-/

namespace Eddy

open Outcome Slots PageTree List

variable {E : Type} {s : St E} {n r p : Nat} {up : List (Nat × Nat)} {hs : EdDb → Nat} {d : EdDb}

/-! ## A tree in its pages -/

section Pages

variable (S : Nat → EdBpt E) (root : Option Nat) (h : Nat)

/-- The branches of a tree. -/
def treeInner : List Nat := root.elim [] (layout.inner S h)

/-- The leaves of a tree. -/
def treeLeaves : List Nat := root.elim [] (layout.leaves S h)

/-- All pages of a tree. -/
def treePages : List Nat := treeInner S root h ++ treeLeaves S root h

/-- The entries of a tree, from left to right. -/
def treeEnts : List E := (treeLeaves S root h).flatMap fun p => (S p).ents

/-- No leaf of the tree is empty. -/
def NoEmpty : Prop := ∀ q ∈ treeLeaves S root h, 0 < (S q).nkeys

/-- All leaves have the same depth, and the branches above them are well formed. -/
structure Shaped (g : Geom) : Prop where
  branch : ∀ q ∈ treeInner S root h, BranchOk g (S q)
  leaf : ∀ q ∈ treeLeaves S root h, (S q).type = .leaf

variable {S root h} {S' : Nat → EdBpt E} {g : Geom}

@[simp] theorem treePages_none : treePages S none h = [] := rfl

@[simp] theorem treePages_some (p : Nat) : treePages S (some p) h = layout.pages S h p := rfl

section

variable (hS : ∀ q ∈ treePages S root h, S' q = S q)

include hS

theorem treeInner_congr : treeInner S' root h = treeInner S root h := by
  cases root with
  | none => rfl
  | some p => exact layout.inner_congr fun q hq => by rw [hS q (mem_append_left _ hq)]

theorem treeLeaves_congr : treeLeaves S' root h = treeLeaves S root h := by
  cases root with
  | none => rfl
  | some p => exact layout.leaves_congr fun q hq => by rw [hS q (mem_append_left _ hq)]

theorem treePages_congr : treePages S' root h = treePages S root h := by
  unfold treePages
  rw [treeInner_congr hS, treeLeaves_congr hS]

theorem treeEnts_congr : treeEnts S' root h = treeEnts S root h := by
  unfold treeEnts
  rw [treeLeaves_congr hS]
  exact flatMap_congr fun q hq => by rw [hS q (mem_append_right _ hq)]

end

theorem Shaped.none (S : Nat → EdBpt E) (h : Nat) (g : Geom) : Shaped S none h g :=
  ⟨fun _ hq => absurd hq not_mem_nil, fun _ hq => absurd hq not_mem_nil⟩

theorem Shaped.congr (hs : Shaped S root h g) (hS : ∀ q ∈ treePages S root h, S' q = S q) :
    Shaped S' root h g := by
  constructor
  · intro q hq
    rw [treeInner_congr hS] at hq
    rw [hS q (mem_append_left _ hq)]
    exact hs.branch q hq
  · intro q hq
    rw [treeLeaves_congr hS] at hq
    rw [hS q (mem_append_right _ hq)]
    exact hs.leaf q hq

end Pages

/-! ## Nodes in a tree -/

/-- The node `n` stands below the ancestors `up` in the tree with the root node `r`. -/
structure Stands (s : St E) (n : Nat) (up : List (Nat × Nat)) (r : Nat) : Prop where
  chain : NChain s n up
  lt : n < s.txn.nused
  ltUp : ∀ x ∈ up, x.1 < s.txn.nused
  top : topNode n up = r
  link : layout.OnPath s.pages (s.node n).page (pagePath s up) (s.node r).page

/-- The node of a cursor stands in its tree, at a leaf when there was a search. -/
structure CursorOk (s : St E) (d : EdDb) (h : Nat) : Prop where
  empty : (s.txn.db d).root = none → (s.txn.db d).find = none
  stands : ∀ r, (s.txn.db d).root = some r → ∃ n up, (s.txn.db d).find = some n ∧
    Stands s n up r ∧ up.length ≤ h ∧ ((s.txn.db d).hasfind = true → up.length = h)

theorem Stands.congr {s' : St E} (h : Stands s n up r) (hle : s.txn.nused ≤ s'.txn.nused)
    (hr : r < s.txn.nused) (hpage : ∀ m, m < s.txn.nused → (s'.node m).page = (s.node m).page)
    (hn : (s'.node n).parent = (s.node n).parent ∧ (s'.node n).pindex = (s.node n).pindex)
    (hup : ∀ x ∈ up, (s'.node x.1).parent = (s.node x.1).parent ∧
      (s'.node x.1).pindex = (s.node x.1).pindex)
    (hkids : ∀ x ∈ up, (s'.pages (s.node x.1).page).kids = (s.tree x.1).kids) :
    Stands s' n up r where
  chain := h.chain.congr hn hup
  lt := h.lt.trans_le hle
  ltUp x hx := (h.ltUp x hx).trans_le hle
  top := h.top
  link := by
    rw [hpage n h.lt, hpage r hr, pagePath_congr fun x hx => hpage x.1 (h.ltUp x hx)]
    have key : ∀ (path : List (Nat × Nat)) (p : Nat), (∀ x ∈ path,
        (s'.pages x.1).kids = (s.pages x.1).kids) →
        layout.OnPath s.pages p path (s.node r).page →
        layout.OnPath s'.pages p path (s.node r).page := by
      intro path
      induction path with
      | nil => exact fun _ _ hp => hp
      | cons x rest ih =>
        intro p hk hp
        exact ⟨by rw [layout_kids, hk x (by simp)]; exact hp.1,
          ih x.1 (fun y hy => hk y (by simp [hy])) hp.2⟩
    refine key _ _ (fun x hx => ?_) h.link
    obtain ⟨y, hy, rfl⟩ := mem_map.mp hx
    exact hkids y hy

theorem topNode_lt (hn : n < s.txn.nused) (hup : ∀ x ∈ up, x.1 < s.txn.nused) :
    topNode n up < s.txn.nused := by
  rcases (topNode_mem : topNode n up = n ∨ _) with h1 | ⟨x, hx, h1⟩
  · rw [h1]
    exact hn
  · rw [h1]
    exact hup x hx

theorem Stands.root (h : Stands s n up r) :
    Stands s r [] r where
  chain := h.top ▸ h.chain.top
  lt := h.top ▸ topNode_lt h.lt h.ltUp
  ltUp := by simp
  top := rfl
  link := rfl

/-- The pages of one tree of a transaction. -/
def ownPages (s : St E) (hs : EdDb → Nat) (d : EdDb) : List Nat :=
  treePages s.pages (rootNo s d) (hs d)

theorem Stands.pages_perm {h0 : Nat} (hst : Stands s n up r) (hr : (s.txn.db d).root = some r)
    (hh : h0 + up.length = hs d) :
    (ownPages s hs d).Perm (layout.pages s.pages h0 (s.node n).page ++ upPages s up
      ++ layout.beside s.pages h0 (pagePath s up)) := by
  have hroot : rootNo s d = some (s.node r).page := by simp [rootNo, hr]
  unfold ownPages
  rw [hroot, treePages_some]
  have hlen : (pagePath s up).length = up.length := by simp [pagePath]
  have := layout.pages_of_onPath s.pages (h := h0) hst.link
  rw [hlen, hh] at this
  rwa [show (pagePath s up).map Prod.fst = upPages s up by
    simp [pagePath, upPages, Function.comp_def]] at this

theorem mem_pages (hr : (s.txn.db d).root = some r) (hst : Stands s n up r)
    (hh : up.length ≤ hs d) :
    (s.node n).page ∈ ownPages s hs d ∧ ∀ x ∈ up, (s.node x.1).page ∈ ownPages s hs d := by
  have hp := (hst.pages_perm hr (Nat.sub_add_cancel hh)).symm.subset
  refine ⟨hp ?_, fun x hx => hp ?_⟩
  · exact mem_append_left _ (mem_append_left _ (layout.mem_pages_self s.pages))
  · exact mem_append_left _ (mem_append_right _ (mem_upPages hx))

theorem CursorOk.congr {s' : St E} (hc : CursorOk s d (hs d)) (hg : Good s)
    (hle : s.txn.nused ≤ s'.txn.nused)
    (hpage : ∀ m, m < s.txn.nused → (s'.node m).page = (s.node m).page)
    (hpages : ∀ p ∈ ownPages s hs d, s'.pages p = s.pages p) (hdb : s'.txn.db d = s.txn.db d)
    (hnodes : ∀ n, n < s.txn.nused → (s.node n).page ∈ ownPages s hs d →
      (s'.node n).parent = (s.node n).parent ∧ (s'.node n).pindex = (s.node n).pindex) :
    CursorOk s' d (hs d) := by
  constructor
  · rw [hdb]
    exact hc.empty
  · intro r hr
    rw [hdb] at hr ⊢
    obtain ⟨n, up, hf, hst, hle', heq⟩ := hc.stands r hr
    refine ⟨n, up, hf, ?_, hle', heq⟩
    obtain ⟨hn, hup⟩ := mem_pages hr hst hle'
    refine hst.congr hle (hg.root _ _ hr) hpage (hnodes n hst.lt hn)
      (fun x hx => hnodes x.1 (hst.ltUp x hx) (hup x hx)) fun x hx => ?_
    rw [hpages _ (hup x hx)]
    rfl

/-! ## The invariant -/

/-- The other tree. -/
def EdDb.other : EdDb → EdDb
  | .keys => .blocks
  | .blocks => .keys

theorem EdDb.other_ne (d : EdDb) : d.other ≠ d := by cases d <;> decide

theorem EdDb.eq_or_other (d e : EdDb) : e = d ∨ e = d.other := by cases d <;> cases e <;> decide

/-- The invariant of an open write transaction. `R` are the pages of the file outside of it, among
them the pages `T` of the committed trees, and `hs` are the heights of its trees. -/
structure TxnOk (g : Geom) (s : St E) (R T : List Nat) (hs : EdDb → Nat) : Prop where
  base : Base s R
  good : Good s
  shaped : ∀ d, Shaped s.pages (rootNo s d) (hs d) g
  cursor : ∀ d, CursorOk s d (hs d)
  account : (ownPages s hs .keys ++ ownPages s hs .blocks ++ s.txn.gc).Perm (T ++ s.txn.used)
  sub : T.Subperm R
  old : ∀ p ∈ T, (s.pages p).xid < s.txn.xid
  own : ∀ p ∈ s.txn.used, (s.pages p).xid = s.txn.xid

namespace TxnOk

variable {g : Geom} {s s' : St E} {R T fresh dead W : List Nat} {hs : EdDb → Nat} {d : EdDb}

variable (h : TxnOk g s R T hs)

include h

theorem account_of (d : EdDb) :
    (ownPages s hs d ++ ownPages s hs d.other ++ s.txn.gc).Perm (T ++ s.txn.used) := by
  cases d with
  | keys => exact h.account
  | blocks => exact (perm_append_comm.append_right _).trans h.account

theorem nodup (d : EdDb) : (ownPages s hs d ++ ownPages s hs d.other ++ s.txn.gc).Nodup := by
  have h1 : (R ++ s.txn.used).Nodup := by
    have := (nodup_append.mp h.base.sound.nodup).1
    exact this.sublist ((take_sublist _ _).append_left R)
  refine (h.account_of d).nodup_iff.mpr ?_
  obtain ⟨l, hl, hsub⟩ := h.sub
  exact ((hl.append_right _).nodup_iff.mp ((h1.sublist (hsub.append_right _))))

theorem known_of_mem (hp : p ∈ T ++ s.txn.used) : Known s R p := by
  rcases mem_append.mp hp with hp | hp
  · exact .inl (h.sub.subset hp)
  · exact .inr hp

theorem mem_own (hp : p ∈ ownPages s hs d) : p ∈ T ++ s.txn.used :=
  (h.account_of d).subset (mem_append_left _ (mem_append_left _ hp))

theorem known (hp : p ∈ ownPages s hs d) : Known s R p :=
  h.known_of_mem (h.mem_own hp)

theorem live (hp : p ∈ ownPages s hs d) : p ∉ s.txn.gc :=
  fun hg => (nodup_append.mp (h.nodup d)).2.2 p (mem_append_left _ hp) p hg rfl

theorem disjoint (hp : p ∈ ownPages s hs d) : p ∉ ownPages s hs d.other :=
  fun ho => (nodup_append.mp (nodup_append.mp (h.nodup d)).1).2.2 p hp p ho rfl

theorem xid_le (hp : p ∈ ownPages s hs d) : (s.pages p).xid ≤ s.txn.xid := by
  rcases mem_append.mp (h.mem_own hp) with hp | hp
  · exact (h.old p hp).le
  · exact (h.own p hp).le

theorem wayOk (hr : (s.txn.db d).root = some r) (hst : Stands s n up r) (hh : up.length ≤ hs d) :
    WayOk g s R n up := by
  obtain ⟨hn, hup⟩ := mem_pages hr hst hh
  have hperm := hst.pages_perm hr (Nat.sub_add_cancel hh)
  have hnd : (ownPages s hs d).Nodup :=
    (nodup_append.mp (nodup_append.mp (h.nodup d)).1).1
  have hroot : rootNo s d = some (s.node r).page := by simp [rootNo, hr]
  have hbr : ∀ x ∈ up, BranchOk g (s.tree x.1) := by
    intro x hx
    refine (h.shaped d).branch _ ?_
    rw [hroot, ← Nat.sub_add_cancel hh, show up.length = (pagePath s up).length by simp [pagePath]]
    refine (layout.inner_of_onPath s.pages hst.link).symm.subset ?_
    refine mem_append_left _ (mem_append_right _ ?_)
    exact mem_map.mpr ⟨((s.node x.1).page, x.2), mem_map_of_mem hx, rfl⟩
  have hidx : ∀ x ∈ up, x.2 ≤ (s.tree x.1).nkeys := by
    intro x hx
    obtain ⟨c, hc⟩ := hst.link.kid (mem_map_of_mem hx)
    have := (List.getElem?_eq_some_iff.mp hc).1
    rw [layout_kids, length_kids] at this
    exact Nat.lt_succ_iff.mp this
  exact {
    chain := hst.chain
    lt := hst.lt
    ltUp := hst.ltUp
    known := h.known hn
    knownUp := fun x hx => h.known (hup x hx)
    live := fun x hx => h.live (hup x hx)
    nodup := by
      have h1 := (nodup_append.mp (hperm.nodup_iff.mp hnd)).1
      refine h1.sublist ?_
      rw [← singleton_append]
      exact (singleton_sublist.mpr (layout.mem_pages_self s.pages)).append_right _
    branch := fun x hx => ⟨hbr x hx, hidx x hx, h.xid_le (hup x hx)⟩ }

/-! ### Changing one tree -/

theorem other_page (he : Eff s s' fresh dead W) (hW : ∀ p ∈ W, p ∈ ownPages s hs d) :
    ∀ p ∈ ownPages s hs d.other, s'.pages p = s.pages p :=
  fun _ hp => he.page h.base (h.known hp) fun hw => h.disjoint (hW _ hw) hp

theorem other_root (he : Eff s s' fresh dead W) (hdb : s'.txn.db d.other = s.txn.db d.other) :
    rootNo s' d.other = rootNo s d.other := by
  unfold rootNo
  rw [hdb]
  cases hr : (s.txn.db d.other).root with
  | none => rfl
  | some r => simp [he.step.node r (h.good.root _ _ hr)]

theorem other_pages (he : Eff s s' fresh dead W) (hW : ∀ p ∈ W, p ∈ ownPages s hs d)
    (hdb : s'.txn.db d.other = s.txn.db d.other) (hs' : EdDb → Nat)
    (hh : hs' d.other = hs d.other) : ownPages s' hs' d.other = ownPages s hs d.other := by
  unfold ownPages
  rw [h.other_root he hdb, hh]
  exact treePages_congr (h.other_page he hW)

theorem other_cursor (he : Eff s s' fresh dead W) (hW : ∀ p ∈ W, p ∈ ownPages s hs d)
    (hdb : s'.txn.db d.other = s.txn.db d.other)
    (hnodes : ∀ n, n < s.txn.nused → (s.node n).page ∉ ownPages s hs d →
      (s'.node n).parent = (s.node n).parent ∧ (s'.node n).pindex = (s.node n).pindex) :
    CursorOk s' d.other (hs d.other) :=
  (h.cursor d.other).congr h.good he.step.nused (fun m hm => he.step.node m hm)
    (h.other_page he hW) hdb fun n hn hp => hnodes n hn fun hd => h.disjoint hd hp

/-- A change to one tree that accounts for its pages keeps the invariant. -/
theorem changed (he : Eff s s' fresh dead W) (hg : Good s') (hW : ∀ p ∈ W, p ∈ ownPages s hs d)
    (hdb : s'.txn.db d.other = s.txn.db d.other)
    (hnodes : ∀ n, n < s.txn.nused → (s.node n).page ∉ ownPages s hs d →
      (s'.node n).parent = (s.node n).parent ∧ (s'.node n).pindex = (s.node n).pindex)
    {hs' : EdDb → Nat} (hh : hs' d.other = hs d.other)
    (hperm : (ownPages s' hs' d ++ dead).Perm (ownPages s hs d ++ fresh))
    (hshape : Shaped s'.pages (rootNo s' d) (hs' d) g) (hcur : CursorOk s' d (hs' d)) :
    TxnOk g s' R T hs' := by
  have hother := h.other_pages he hW hdb hs' hh
  have hdead : ∀ p ∈ dead, Known s' R p := by
    intro p hp
    rcases mem_append.mp (hperm.subset (mem_append_right _ hp)) with h1 | h1
    · exact he.known (h.known h1)
    · exact he.known_fresh h1
  have hacc : (ownPages s' hs' d ++ ownPages s' hs' d.other ++ s'.txn.gc).Perm
      (T ++ s'.txn.used) := by
    have h1 := h.account_of d
    rw [perm_iff_count] at h1 hperm ⊢
    intro a
    have h1 := h1 a
    have h2 := hperm a
    rw [hother, he.gc, he.used]
    simp only [count_append] at h1 h2 ⊢
    omega
  refine {
    base := he.base h.base hdead
    good := hg
    shaped := fun e => ?_
    cursor := fun e => ?_
    account := ?_
    sub := h.sub
    old := fun p hp => ?_
    own := fun p hp => ?_ }
  · rcases d.eq_or_other e with rfl | rfl
    · exact hshape
    · rw [h.other_root he hdb, hh]
      exact (h.shaped d.other).congr (h.other_page he hW)
  · rcases d.eq_or_other e with rfl | rfl
    · exact hcur
    · rw [hh]
      exact h.other_cursor he hW hdb hnodes
  · cases d with
    | keys => exact hacc
    | blocks => exact (perm_append_comm.append_right _).trans hacc
  · rw [he.xid h.base (.inl (h.sub.subset hp)), he.step.txid]
    exact h.old p hp
  · rw [he.step.txid]
    rw [he.used] at hp
    rcases mem_append.mp hp with hp | hp
    · rw [he.xid h.base (.inr hp)]
      exact h.own p hp
    · exact he.freshXid p hp

/-- A search or a cursor move in one tree keeps the invariant. -/
theorem quiet (hq : Quiet s s') (hg : Good s') (hdb : s'.txn.db d.other = s.txn.db d.other)
    (hnodes : ∀ n, n < s.txn.nused → (s.node n).page ∉ ownPages s hs d →
      (s'.node n).parent = (s.node n).parent ∧ (s'.node n).pindex = (s.node n).pindex)
    (hcur : CursorOk s' d (hs d)) : TxnOk g s' R T hs := by
  have hpg : s'.txn.pg = s.txn.pg := (congrArg EdTxn.pg hq.txn :)
  have hgc : s'.txn.gc = s.txn.gc := (congrArg EdTxn.gc hq.txn :)
  have hnp : s'.txn.npgused = s.txn.npgused := (congrArg EdTxn.npgused hq.txn :)
  have hx : s'.txn.xid = s.txn.xid := (congrArg EdTxn.xid hq.txn :)
  have hused : s'.txn.used = s.txn.used := by rw [EdTxn.used, EdTxn.used, hpg, hnp]
  have hroot : ∀ e, rootNo s' e = rootNo s e := by
    intro e
    unfold rootNo
    rw [hq.root e]
    cases hr : (s.txn.db e).root with
    | none => rfl
    | some r => simp [(hq.node r (h.good.root _ _ hr)).1]
  have hown : ∀ e, ownPages s' hs e = ownPages s hs e := fun e => by
    unfold ownPages
    rw [hroot e, hq.pages]
  refine {
    base := {
      writing := hq.step.writing h.base.writing
      pgOk := hq.step.pgOk h.base.pgOk
      sound := h.base.sound.step hq.step
      flag := fun n hn hg => ?_
      gcKnown := fun p hp => ?_ }
    good := hg
    shaped := fun e => by rw [hroot e, hq.pages]; exact h.shaped e
    cursor := fun e => ?_
    account := by rw [hown, hown, hgc, hused]; exact h.account
    sub := h.sub
    old := by rw [hq.pages, hx]; exact h.old
    own := by rw [hq.pages, hx, hused]; exact h.own }
  · rcases Nat.lt_or_ge n s.txn.nused with hlt | hge
    · obtain ⟨h1, h2⟩ := hq.node n hlt
      rw [h1, hgc]
      exact h.base.flag n hlt (h2 ▸ hg)
    · rw [hq.fresh n hge hn] at hg
      cases hg
  · rw [Known, hused]
    exact h.base.gcKnown p (hgc ▸ hp)
  · rcases d.eq_or_other e with rfl | rfl
    · exact hcur
    · exact (h.cursor d.other).congr h.good hq.nused (fun m hm => (hq.node m hm).1)
        (fun p _ => by rw [hq.pages]) hdb fun n hn hp => hnodes n hn fun hd => h.disjoint hd hp

end TxnOk

end Eddy
