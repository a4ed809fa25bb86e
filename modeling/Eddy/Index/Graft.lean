import Eddy.Index.Trees

/-!
# Eddy — a leaf is replaced and the way above it rebuilt

Every modification takes the leaf of the cursor, puts one or two pages in its place and rebuilds
the way up. `Grafted` says this without regard to what the leaves hold; it is put together from what
is known about `set_node` and `insert_into_parent`.
-/

namespace Eddy

open Outcome Slots PageTree Layout List Function

variable {E : Type} (g : Geom)

/-- The forest `F` took the place of the leaf of `n`; the node `c` now stands on a leaf of it, below
the ancestors `up'`. -/
structure Grafted (s s' : St E) (n : Nat) (up : List (Nat × Nat)) (F : Forest Nat) (c : Nat)
    (up' : List (Nat × Nat)) (fresh dead built : List Nat) (tall : Bool) : Prop where
  eff : Eff s s' fresh dead ((s.node n).page :: upPages s up)
  grown : layout.Grown s.pages s'.pages F (pagePath s up) (s'.node (topNode c up')).page built tall
  perm : ((s.node n).page :: (upPages s up ++ fresh)).Perm (F.pages ++ built ++ dead)
  ok : ∀ q ∈ built, BranchOk g (s'.pages q)
  stands : Stands s' c up' (topNode c up')
  mem : (s'.node c).page ∈ F.pages
  sub : ∀ x ∈ up', (s'.node x.1).page ∈ built
  length : up'.length = up.length + tallness tall
  parents : ∀ j, j < s.txn.nused → j ≠ n → (∀ x ∈ up, j ≠ x.1) →
    (s'.node j).parent = (s.node j).parent ∧ (s'.node j).pindex = (s.node j).pindex

section Parts

variable {g} {s s1 s2 s' : St E} {R fresh dead fresh' dead' built W : List Nat} {d : EdDb}
  {n c l r k b i : Nat} {up up' : List (Nat × Nat)} {F : Forest Nat} {tall : Bool}

theorem WayOk.stands (hw : WayOk g s R n up)
    (hl : layout.OnPath s.pages (s.node n).page (pagePath s up) (s.node (topNode n up)).page) :
    Stands s n up (topNode n up) :=
  ⟨hw.chain, hw.lt, hw.ltUp, rfl, hl⟩

theorem Grafted.nodup (h : Grafted g s s' n up F c up' fresh dead built tall) (hb : Base s R)
    (hw : WayOk g s R n up) : (F.pages ++ built ++ dead).Nodup := by
  refine h.perm.nodup_iff.mp ?_
  rw [← cons_append]
  refine nodup_append.mpr ⟨hw.nodup, h.eff.fresh_nodup hb, fun p hp q hq e => ?_⟩
  refine h.eff.fresh_not_known hb hq (e ▸ ?_)
  rcases mem_cons.mp hp with rfl | hp
  · exact hw.known
  · obtain ⟨x, hx, rfl⟩ := mem_map.mp hp
    exact hw.knownUp x hx

theorem Grafted.self (hw : WayOk g s R n up)
    (hst : Stands s n up (topNode n up)) :
    Grafted g s s n up (.one (s.node n).page) n up [] [] (upPages s up) false where
  eff := (Eff.refl s).mono (by simp)
  grown := by
    have := Grown.of_onPath (L := layout (E := E)) hst.link fun x _ => by simp
    rwa [show (pagePath s up).map Prod.fst = upPages s up by
      simp [pagePath, upPages, Function.comp_def]] at this
  perm := by simp [Forest.pages]
  ok q hq := by
    obtain ⟨x, hx, rfl⟩ := mem_map.mp hq
    exact (hw.branch x hx).1
  stands := hst
  mem := by simp [Forest.pages]
  sub x hx := mem_upPages hx
  length := by simp [tallness]
  parents _ _ _ _ := ⟨rfl, rfl⟩

/-- What is stored in the new leaves does not matter. -/
theorem Grafted.content (h : Grafted g s s1 n up F c up' fresh dead built tall) (hb : Base s R)
    (hw : WayOk g s R n up) (he : Eff s1 s2 [] [] W) (hW : ∀ p ∈ W, p ∈ F.pages)
    (hnode : ∀ m, s2.node m = s1.node m) :
    Grafted g s s2 n up F c up' fresh dead built tall := by
  have hnd := h.nodup hb hw
  have hFb : ∀ p ∈ built, p ∉ F.pages := fun p hp hF =>
    (nodup_append.mp (nodup_append.mp hnd).1).2.2 p hF p hp rfl
  have hsub : ∀ p ∈ F.pages ++ built ++ dead, p ∈ upPages s up ∨ p = (s.node n).page ∨ p ∈ fresh := by
    intro p hp
    have := h.perm.symm.subset hp
    rw [mem_cons, mem_append] at this
    rcases this with h1 | h1 | h1
    · exact .inr (.inl h1)
    · exact .inl h1
    · exact .inr (.inr h1)
  have hkn : ∀ p ∈ F.pages ++ built ++ dead, Known s1 R p := by
    intro p hp
    rcases hsub p hp with h1 | rfl | h1
    · obtain ⟨x, hx, rfl⟩ := mem_map.mp h1
      exact h.eff.known (hw.knownUp x hx)
    · exact h.eff.known hw.known
    · exact h.eff.known_fresh h1
  have hb1 : Base s1 R := h.eff.base hb fun p hp => hkn p (mem_append_right _ hp)
  have hbuilt : ∀ p ∈ built, s2.pages p = s1.pages p := fun p hp =>
    he.page hb1 (hkn p (mem_append_left _ (mem_append_right _ hp)))
      fun hw' => hFb p hp (hW p hw')
  exact {
    eff := by
      have := h.eff.trans he hb
      simp only [append_nil] at this
      refine this.trim hb.pgOk fun p hp => ?_
      rcases mem_append.mp hp with hp | hp
      · exact .inl hp
      · rcases hsub p (mem_append_left _ (mem_append_left _ (hW p hp))) with h1 | h1 | h1
        · exact .inl (mem_cons_of_mem _ h1)
        · exact .inl (h1 ▸ mem_cons_self)
        · exact .inr h1
    grown := by
      rw [hnode]
      exact h.grown.congr (fun _ _ => rfl) hbuilt
    perm := h.perm
    ok := fun q hq => by rw [hbuilt q hq]; exact h.ok q hq
    stands := by
      refine h.stands.congr he.step.nused ?_ (fun m _ => by rw [hnode])
        ⟨by rw [hnode], by rw [hnode]⟩ (fun x _ => ⟨by rw [hnode], by rw [hnode]⟩) fun x hx => ?_
      · exact topNode_lt h.stands.lt h.stands.ltUp
      · rw [hbuilt _ (h.sub x hx)]
        rfl
    mem := by rw [hnode]; exact h.mem
    sub := fun x hx => by rw [hnode]; exact h.sub x hx
    length := h.length
    parents := fun j hj h1 h2 => by rw [hnode]; exact h.parents j hj h1 h2 }

/-- One leaf takes the place of the old one and is put into the tree by `set_node`. -/
theorem Grafted.of_hung (hb : Base s R) (hw : WayOk g s R n up)
    (hr : Replaced g s s1 R n up c fresh dead) (he : Eff s1 s2 [] [] [(s1.node c).page])
    (hnode : ∀ m, s2.node m = s1.node m) (hh : Hung g s2 s' R d c up up' fresh' dead') :
    Grafted g s s' n up (.one (s1.node c).page) c up' (fresh ++ fresh') (dead ++ dead')
      (upPages s' up') false := by
  have hb1 := hr.base hb hw.known
  have hb2 : Base s2 R := he.base hb1 (by simp)
  have hup : ∀ x ∈ up, (s2.node x.1).page = (s.node x.1).page := fun x hx => by
    rw [hnode, hr.eff.step.node x.1 (hw.ltUp x hx)]
  have hpc : (s'.node c).page = (s1.node c).page := by
    rw [hh.eff.step.node c (hr.way.lt.trans_le he.step.nused), hnode]
  have hc := hr.page_cases
  refine {
    eff := ?_
    grown := ?_
    perm := ?_
    ok := fun q hq => ?_
    stands := hh.way.stands hh.linked
    mem := by simp [Forest.pages, hpc]
    sub := fun x hx => mem_upPages hx
    length := by simp [tallness, hh.length]
    parents := fun j hj hjn hju => ?_ }
  · have := hr.eff.trans (he.trans hh.eff hb1) hb
    simp only [nil_append, upPages_congr hup] at this
    refine this.trim hb.pgOk fun q hq => ?_
    simp only [mem_append, mem_cons, not_mem_nil, or_false] at hq ⊢
    rcases hq with rfl | rfl | hq
    · exact .inl (.inl rfl)
    · rcases hc with h1 | h1
      · exact .inl (.inl h1)
      · exact .inr (.inl h1)
    · exact .inl (.inr hq)
  · have h1 := hh.grown.congr (T := s.pages) (fun x hx => ?_) (fun _ _ => rfl)
    · rwa [pagePath_congr hup, hnode] at h1
    · obtain ⟨y, hy, rfl⟩ := mem_map.mp hx
      have hk := hw.knownUp y hy
      have hne := hw.page_ne hy
      simp only [hup y hy]
      rw [he.page hb1 (hr.eff.known hk) (by simpa using (hr.page_ne hb hk hne).symm),
        hr.page_known hb hk hne]
  · have h1 := hr.perm
    have h2 := hh.perm
    rw [upPages_congr hup] at h2
    rw [perm_iff_count] at h1 h2 ⊢
    intro a
    have h1 := h1 a
    have h2 := h2 a
    simp only [Forest.pages, count_append, count_cons, count_nil] at h1 h2 ⊢
    omega
  · obtain ⟨x, hx, rfl⟩ := mem_map.mp hq
    exact (hh.way.branch x hx).1
  · have hj1 := hj.trans_le hr.eff.step.nused
    have hj2 := hj1.trans_le he.step.nused
    have hjc : j ≠ c := by
      rintro rfl
      rcases hr.id with h1 | h1
      · exact hjn h1
      · omega
    rw [hh.pindex j hj2, hh.parents j hj2 hjc hju, hnode]
    exact ⟨hr.parent j hj, hr.pindex j hj⟩

/-- The leaf was split and both halves were put into the tree by `insert_into_parent`. -/
theorem Grafted.of_inserted (hb : Base s R) (hw : WayOk g s R n up)
    (hp : PageSplit g s s1 R n up l r fresh dead)
    (hi : Inserted g s1 s' R d l r k up b i up' fresh' dead' built tall) {c j : Nat}
    (hc : (c = l ∧ j = i) ∨ (c = r ∧ j = i + 1)) :
    Grafted g s s' n up (.two (s1.node l).page k (s1.node r).page) c ((b, j) :: up')
      (fresh ++ fresh') (dead ++ dead') built tall := by
  have hb1 := hp.base hb hw.known
  have hup : ∀ x ∈ up, (s1.node x.1).page = (s.node x.1).page := fun x hx =>
    hp.eff.step.node x.1 (hw.ltUp x hx)
  have hpl : (s'.node l).page = (s1.node l).page := hi.eff.step.node l hp.halves.way.lt
  have hpr : (s'.node r).page = (s1.node r).page := hi.eff.step.node r hp.halves.ltR
  have htop : topNode c ((b, j) :: up') = topNode b up' := rfl
  refine {
    eff := ?_
    grown := ?_
    perm := ?_
    ok := fun q hq => (hi.ok q hq).1
    stands := ?_
    mem := ?_
    sub := fun x hx => ?_
    length := by rw [length_cons]; exact hi.length
    parents := fun m hm hmn hmu => ?_ }
  · have := hp.eff.trans hi.eff hb
    rwa [upPages_congr hup] at this
  · have h1 := hi.grown.congr (T := s.pages) (fun x hx => ?_) (fun _ _ => rfl)
    · rwa [pagePath_congr hup] at h1
    · obtain ⟨y, hy, rfl⟩ := mem_map.mp hx
      simp only [hup y hy]
      exact (hp.eff.page hb (hw.knownUp y hy) (by simpa using hw.page_ne hy)).symm
  · have h1 := hp.perm
    have h2 := hi.perm
    rw [upPages_congr hup] at h2
    rw [perm_iff_count] at h1 h2 ⊢
    intro a
    have h1 := h1 a
    have h2 := h2 a
    simp only [Forest.pages, count_append, count_cons, count_nil] at h1 h2 ⊢
    omega
  · rcases hc with ⟨rfl, rfl⟩ | ⟨rfl, rfl⟩
    · exact hi.wayL.stands hi.linkL
    · exact hi.wayR.stands hi.linkR
  · rcases hc with ⟨rfl, rfl⟩ | ⟨rfl, rfl⟩
    · simp [Forest.pages, hpl]
    · simp [Forest.pages, hpr]
  · rcases mem_cons.mp hx with rfl | hx
    · exact hi.sub (b, i) (by simp)
    · exact hi.sub x (by simp [hx])
  · obtain ⟨h1, h2⟩ := hp.id_ne hm hmn
    obtain ⟨h3, h4⟩ := hi.parents m (hm.trans_le hp.eff.step.nused) h1 h2 hmu
    exact ⟨h3.trans (hp.parent m hm), h4.trans (hp.pindex m hm)⟩

end Parts

/-! ## The tree after a graft -/

section Tree

variable {g} {s s' : St E} {R T fresh dead built : List Nat} {hs : EdDb → Nat} {d : EdDb}
  {n c r : Nat} {up up' : List (Nat × Nat)} {F : Forest Nat} {tall : Bool}

section

variable (hg : Grafted g s s' n up F c up' fresh dead built tall)

include hg

theorem Grafted.beside (h : TxnOk g s R T hs) (hr : (s.txn.db d).root = some r)
    (hst : Stands s n up r) (hlen : up.length = hs d) :
    ∀ p ∈ layout.beside s.pages 0 (pagePath s up), s'.pages p = s.pages p := by
  intro p hp
  have hperm := hst.pages_perm hr (show 0 + up.length = hs d by omega)
  have hnd : (ownPages s hs d).Nodup :=
    (nodup_append.mp (nodup_append.mp (h.nodup d)).1).1
  have hmem : p ∈ ownPages s hs d := hperm.symm.subset (mem_append_right _ hp)
  refine hg.eff.page h.base (h.known hmem) fun hW => ?_
  refine (nodup_append.mp (hperm.nodup_iff.mp hnd)).2.2 p ?_ p hp rfl
  rcases mem_cons.mp hW with rfl | hW
  · exact mem_append_left _ (layout.mem_pages_self s.pages)
  · exact mem_append_right _ hW

theorem Grafted.leaves
    (hbes : ∀ p ∈ layout.beside s.pages 0 (pagePath s up), s'.pages p = s.pages p) :
    layout.leaves s'.pages (up.length + tallness tall) (s'.node (topNode c up')).page
      = layout.leftOf s.pages 0 (pagePath s up) ++ F.pages
        ++ layout.rightOf s.pages 0 (pagePath s up) := by
  have := layout.leaves_grown hg.grown 0 fun q hq => by
    rw [hbes q (mem_append_left _ hq)]
  simpa [pagePath, Layout.leaves] using this

theorem Grafted.inner
    (hbes : ∀ p ∈ layout.beside s.pages 0 (pagePath s up), s'.pages p = s.pages p) :
    (layout.inner s'.pages (up.length + tallness tall) (s'.node (topNode c up')).page).Perm
      (built ++ layout.side s.pages 0 (pagePath s up)) := by
  have := layout.inner_grown hg.grown 0 fun q hq => by
    rw [hbes q (mem_append_left _ hq)]
  rw [show F.pages.flatMap (layout.inner s'.pages 0) = [] from
    flatMap_eq_nil_iff.mpr fun _ _ => rfl] at this
  simpa [pagePath] using this

end

/-- A graft keeps the invariant of the transaction. -/
theorem TxnOk.grafted (h : TxnOk g s R T hs) (hr : (s.txn.db d).root = some r)
    (hst : Stands s n up r) (hlen : up.length = hs d)
    (hg : Grafted g s s' n up F c up' fresh dead built tall) (hgood : Good s')
    (hleaf : ∀ q ∈ F.pages, (s'.pages q).type = .leaf)
    (hdb : s'.txn.db d.other = s.txn.db d.other)
    (hroot : (s'.txn.db d).root = some (topNode c up')) (hfind : (s'.txn.db d).find = some c) :
    TxnOk g s' R T (update hs d (up.length + tallness tall)) := by
  have hbes := hg.beside h hr hst hlen
  have hrs : rootNo s d = some (s.node r).page := by simp [rootNo, hr]
  have hrs' : rootNo s' d = some (s'.node (topNode c up')).page := by simp [rootNo, hroot]
  have hleaves := hg.leaves hbes
  have hinner := hg.inner hbes
  have hold := hst.pages_perm hr (show 0 + up.length = hs d by omega)
  obtain ⟨hn, hup⟩ := mem_pages hr hst (le_of_eq hlen)
  have hpath : (pagePath s up).length = up.length := by simp [pagePath]
  refine h.changed (d := d) hg.eff hgood ?_ hdb ?_ ?_ ?_ ?_ ?_
  · intro p hp
    rcases mem_cons.mp hp with rfl | hp
    · exact hn
    · obtain ⟨x, hx, rfl⟩ := mem_map.mp hp
      exact hup x hx
  · intro m hm hnot
    refine hg.parents m hm ?_ fun x hx => ?_
    · rintro rfl
      exact hnot hn
    · rintro rfl
      exact hnot (hup x hx)
  · exact update_of_ne d.other_ne _ _
  · have h1 := hg.perm
    have h2 : (ownPages s' (update hs d (up.length + tallness tall)) d).Perm
        (built ++ layout.side s.pages 0 (pagePath s up) ++ (layout.leftOf s.pages 0 (pagePath s up)
          ++ F.pages ++ layout.rightOf s.pages 0 (pagePath s up))) := by
      unfold ownPages
      rw [hrs', update_self, treePages_some, Layout.pages, hleaves]
      exact hinner.append_right _
    rw [perm_iff_count] at h1 h2 hold ⊢
    intro a
    have h1 := h1 a
    have h2 := h2 a
    have h3 := hold a
    simp only [Layout.beside, Layout.pages, Layout.inner, Layout.leaves, count_append,
      count_cons, count_nil] at h1 h2 h3 ⊢
    omega
  · have hsh := h.shaped d
    rw [hrs, ← hlen, ← hpath] at hsh
    rw [hrs', update_self]
    constructor
    · intro q hq
      rcases mem_append.mp (hinner.subset hq) with hq | hq
      · exact hg.ok q hq
      · rw [hbes q (mem_append_left _ hq)]
        have hin := layout.inner_of_onPath s.pages (h := 0) hst.link
        rw [Nat.zero_add] at hin
        exact hsh.branch q (hin.symm.subset (mem_append_right _ hq))
    · intro q hq
      have hq' : q ∈ layout.leaves s'.pages (up.length + tallness tall)
          (s'.node (topNode c up')).page := hq
      have hmem : ∀ q ∈ layout.leftOf s.pages 0 (pagePath s up)
          ++ layout.rightOf s.pages 0 (pagePath s up), (s'.pages q).type = .leaf := by
        intro q hq
        rw [hbes q (mem_append_right _ hq)]
        refine hsh.leaf q ?_
        change q ∈ layout.leaves s.pages (pagePath s up).length (s.node r).page
        have := layout.leaves_of_onPath s.pages (h := 0) hst.link
        rw [Nat.zero_add] at this
        rw [this]
        rcases mem_append.mp hq with h1 | h1
        · exact mem_append_left _ (mem_append_left _ h1)
        · exact mem_append_right _ h1
      rw [hleaves] at hq'
      rcases mem_append.mp hq' with hq' | hq'
      · rcases mem_append.mp hq' with hq' | hq'
        · exact hmem q (mem_append_left _ hq')
        · exact hleaf q hq'
      · exact hmem q (mem_append_right _ hq')
  · rw [update_self]
    refine ⟨fun h0 => ?_, fun r' hr' => ?_⟩
    · rw [hroot] at h0
      cases h0
    · rw [hroot] at hr'
      cases hr'
      exact ⟨c, up', hfind, hg.stands, le_of_eq hg.length, fun _ => hg.length⟩

theorem treeEnts_stands (hr : (s.txn.db d).root = some r) (hst : Stands s n up r) :
    treeEnts s.pages (rootNo s d) up.length
      = (layout.leftOf s.pages 0 (pagePath s up)).flatMap (fun p => (s.pages p).ents)
        ++ (s.tree n).ents
        ++ (layout.rightOf s.pages 0 (pagePath s up)).flatMap (fun p => (s.pages p).ents) := by
  have hrs : rootNo s d = some (s.node r).page := by simp [rootNo, hr]
  have := layout.leaves_of_onPath s.pages (h := 0) hst.link
  rw [Nat.zero_add, show (pagePath s up).length = up.length by simp [pagePath]] at this
  unfold treeEnts treeLeaves
  rw [hrs, Option.elim_some, this]
  simp [Layout.leaves, tree_eq]

theorem treeEnts_grafted (hg : Grafted g s s' n up F c up' fresh dead built tall)
    (hbes : ∀ p ∈ layout.beside s.pages 0 (pagePath s up), s'.pages p = s.pages p)
    (hroot : (s'.txn.db d).root = some (topNode c up')) :
    treeEnts s'.pages (rootNo s' d) (up.length + tallness tall)
      = (layout.leftOf s.pages 0 (pagePath s up)).flatMap (fun p => (s.pages p).ents)
        ++ F.pages.flatMap (fun p => (s'.pages p).ents)
        ++ (layout.rightOf s.pages 0 (pagePath s up)).flatMap (fun p => (s.pages p).ents) := by
  have hrs' : rootNo s' d = some (s'.node (topNode c up')).page := by simp [rootNo, hroot]
  have hcongr : ∀ l : List Nat, l ⊆ layout.leftOf s.pages 0 (pagePath s up)
      ++ layout.rightOf s.pages 0 (pagePath s up) →
      l.flatMap (fun p => (s'.pages p).ents) = l.flatMap fun p => (s.pages p).ents := fun l hl =>
    flatMap_congr fun q hq => by rw [hbes q (mem_append_right _ (hl hq))]
  unfold treeEnts treeLeaves
  rw [hrs', Option.elim_some, hg.leaves hbes, flatMap_append, flatMap_append,
    hcongr _ (subset_append_left _ _), hcongr _ (subset_append_right _ _)]

end Tree

end Eddy
