import Eddy.Index.SplitBranch

/-!
# Eddy — two halves of a page in the tree

What `insert_into_parent` leaves behind, and its two simple cases.
-/

namespace Eddy

open Outcome Slots PageTree List

variable {E : Type} (env : Env E) (g : Geom) {up : List (Nat × Nat)}

/-- The new separator lies between the separators around its place, level by level. -/
def Fits (S : Nat → EdBpt E) : Nat → List (Nat × Nat) → Prop
  | _, [] => True
  | k, (q, i) :: rest =>
    (∀ j, 1 ≤ j → j ≤ i → (S q).key j ≤ k) ∧ (∀ j, i < j → j ≤ (S q).nkeys → k < (S q).key j) ∧
      ∀ j, 1 ≤ j → j ≤ (S q).nkeys → Fits S ((S q).key j) rest

/-- Both pages are in the tree, next to each other in the branch `b`. -/
structure Inserted (s s' : St E) (R : List Nat) (d : EdDb) (l r k : Nat) (up : List (Nat × Nat))
    (b i : Nat) (up' : List (Nat × Nat)) (fresh dead built : List Nat) (tall : Bool) : Prop where
  eff : Eff s s' fresh dead (upPages s up)
  grown : layout.Grown s.pages s'.pages (.two (s.node l).page k (s.node r).page) (pagePath s up)
    (s'.node (topNode b up')).page built tall
  perm : (upPages s up ++ fresh).Perm (built ++ dead)
  ok : ∀ q ∈ built, BranchOk g (s'.pages q) ∧ (s'.pages q).xid = s.txn.xid
  sub : ∀ x ∈ (b, i) :: up', (s'.node x.1).page ∈ built
  length : up'.length + 1 = up.length + Layout.tallness tall
  wayL : WayOk g s' R l ((b, i) :: up')
  wayR : WayOk g s' R r ((b, i + 1) :: up')
  owned : ∀ x ∈ (b, i) :: up', Owned s' x.1
  linkL : layout.OnPath s'.pages (s'.node l).page (pagePath s' ((b, i) :: up'))
    (s'.node (topNode b up')).page
  linkR : layout.OnPath s'.pages (s'.node r).page (pagePath s' ((b, i + 1) :: up'))
    (s'.node (topNode b up')).page
  sep : (s'.tree b).key (i + 1) = k
  db : s'.txn.db = (s.modDb d fun c => { c with root := some (topNode b up') }).txn.db
  parents : ∀ j, j < s.txn.nused → j ≠ l → j ≠ r → (∀ x ∈ up, j ≠ x.1) →
    (s'.node j).parent = (s.node j).parent ∧ (s'.node j).pindex = (s.node j).pindex

section Cases

variable {s : St E} {R : List Nat} {d : EdDb} {l r k : Nat}

/-- There is no parent: a new root is put above both nodes. -/
theorem insert_root (hb : Base s R) (hh : Halves g s R l r []) :
    wp (do let branch ← newRootBranch env; linkSplit env g d branch l r k)
      (fun _ s' => ∃ b i up' fresh dead built tall,
        Inserted g s s' R d l r k [] b i up' fresh dead built tall)
      (pageExits env False) s := by
  unfold newRootBranch
  simp only [wp_bind, wp_pure', wp_modTree]
  refine wp_post (edTxnAlloc_eff env hb none 0) ?_
  rintro c s1 ⟨p, ha⟩
  have hcp : (s1.node c).page = p := by rw [ha.node]
  rw [hcp]
  set f : EdBpt E → EdBpt E := fun b => { b with type := .branch, nkeys := 1 } with hf
  set s2 := s1.modPage p f with hs2
  have hppg : p ∈ s1.txn.pg := by
    have : p ∈ s1.txn.used := by rw [ha.eff.used]; simp
    exact mem_of_mem_take this
  have hb1 : Base s1 R := ha.eff.base hb (by simp)
  have e : Eff s s2 [p] [] [] := by
    have := ha.eff.trans (Eff.modPage s1 p f (.inr hppg) fun _ => rfl) hb
    simp only [append_nil, nil_append] at this
    exact this.trim hb.pgOk (by simp)
  have hb2 : Base s2 R := e.base hb (by simp)
  have hpnot : ¬ Known s R p := e.fresh_not_known hb (by simp)
  have hpage : ∀ n, n < s.txn.nused → (s2.node n).page = (s.node n).page := fun n hn =>
    e.step.node n hn
  have htree : ∀ n, n < s.txn.nused → Known s R (s.node n).page → s2.tree n = s.tree n := by
    intro n hn hk
    rw [tree_eq, tree_eq, hpage n hn]
    exact e.page hb hk (by simp)
  have hct : s2.tree c = f (s1.pages p) := by
    rw [tree_eq, hs2, St.modPage_node, hcp, St.modPage_pages_self]
  have hcp2 : (s2.node c).page = p := hcp
  have hL := hh.way
  have hplp : (s.node l).page ≠ p := fun h => hpnot (h ▸ hL.known)
  have hprp : (s.node r).page ≠ p := fun h => hpnot (h ▸ hh.knownR)
  have hbo : 4 ≤ g.branchOrder := g.branch_ge
  have hsib : Siblings g s2 R l r 0 c [] := {
    way := {
      chain := by
        have : s2.node c = ⟨p, none, 0, false⟩ := ha.node
        exact ⟨by rw [this], by rw [this]⟩
      lt := ha.lt
      ltUp := by simp
      known := by rw [hcp2]; exact e.known_fresh (by simp)
      knownUp := by simp
      live := by simp
      nodup := by simp [upPages]
      branch := by simp }
    branch := by
      rw [hct]
      exact ⟨rfl, le_refl _, by simp only [hf]; omega⟩
    le := by rw [hct]
    owned := by rw [Owned, tree_eq, hcp2, e.freshXid p (by simp), e.step.txid]
    live := by
      rw [hcp2, e.gc, append_nil]
      exact fun h => hpnot (hb.gcKnown p h)
    ltL := hL.lt.trans_le e.step.nused
    ltR := hh.ltR.trans_le e.step.nused
    ownL := by rw [Owned, htree l hL.lt hL.known, e.step.txid]; exact hh.ownL
    ownR := by rw [Owned, htree r hh.ltR hh.knownR, e.step.txid]; exact hh.ownR
    knownL := by rw [hpage l hL.lt]; exact e.known hL.known
    knownR := by rw [hpage r hh.ltR]; exact e.known hh.knownR
    idxL := by
      have : s2.node l = s.node l := ha.nodes l hL.lt
      rw [this]
      exact hL.chain.2
    idxR := by
      have : s2.node r = s.node r := ha.nodes r hh.ltR
      rw [this, hh.idx, hL.chain.2]
    nodup := by
      have := hh.nodup
      rw [hpage l hL.lt, hpage r hh.ltR, hcp2]
      simp only [upPages, map_nil, nodup_cons, mem_cons, not_mem_nil, or_false,
        not_or, nodup_nil, and_true, not_false_eq_true] at this ⊢
      exact ⟨⟨this, hplp⟩, hprp⟩ }
  refine wp_post (linkSplit_owned env g (d := d) hsib hb2 k (by simp) rfl) ?_
  rintro _ s' ⟨hl, -⟩
  have hcp' : (s'.node c).page = p := (hl.eff.step.node c hsib.way.lt).trans hcp2
  have hpl : (s2.node l).page = (s.node l).page := hpage l hL.lt
  have hpr : (s2.node r).page = (s.node r).page := hpage r hh.ltR
  have hpg : s'.pages p = (s2.tree c).linked 0 (s.node l).page (s.node r).page k := by
    rw [← hcp', ← tree_eq, hl.page, hpl, hpr]
  have hbr := hl.branch hsib
  refine ⟨c, 0, [], [p], [], [p], true, {
    eff := ?_
    grown := ?_
    perm := List.Perm.refl _
    ok := ?_
    sub := by simp [hcp']
    length := by simp [Layout.tallness]
    wayL := hl.wayL hsib hb2
    wayR := hl.wayR hsib hb2
    owned := by
      intro x hx
      obtain rfl : x = (c, 0) := by simpa using hx
      exact hl.ownedB hsib
    linkL := hl.linkL hsib
    linkR := hl.linkR hsib
    sep := by rw [hl.page]; simp [EdBpt.linked]
    db := ?_
    parents := fun j hj h1 h2 _ => ?_ }⟩
  · have := e.trans hl.eff hb
    simp only [append_nil, nil_append, hcp2, upPages, map_nil] at this
    exact this.trim hb.pgOk (by simp)
  · simp only [topNode, hcp']
    refine .two _ _ p k ?_ ?_
    · rw [hpg, layout_kids, EdBpt.kids]
      simp [EdBpt.linked, hct, hf, slots_succ, store]
    · rw [hpg, layout_seps, EdBpt.seps]
      simp [EdBpt.linked, hct, hf, slots_succ, store]
  · intro q hq
    obtain rfl : q = p := by simpa using hq
    rw [← hcp', ← tree_eq]
    refine ⟨hbr, (hl.ownedB hsib).trans ?_⟩
    rw [hl.eff.step.txid, e.step.txid]
  · rw [hl.db]
    have : s2.txn.db = s.txn.db := ha.db
    simp only [St.modDb, St.modTxn, this]
  · have hjc : j ≠ c := by rw [ha.id]; exact hj.ne
    have hn : s2.node j = s.node j := ha.nodes j hj
    rw [hl.parents j (hj.trans_le e.step.nused) h1 h2 hjc (by simp),
      hl.pindex j (hj.trans_le e.step.nused), hn]
    exact ⟨rfl, rfl⟩

variable {m i : Nat} {rest : List (Nat × Nat)}

namespace Halves

variable {g}

theorem neLR (h : Halves g s R l r up) :
    (s.node l).page ≠ (s.node r).page := fun e => (nodup_cons.mp h.nodup).1 (by rw [e]; simp)

theorem notR (h : Halves g s R l r up) :
    (s.node r).page ∉ upPages s up := (nodup_cons.mp (nodup_cons.mp h.nodup).2).1

theorem notL (h : Halves g s R l r up) :
    (s.node l).page ∉ upPages s up := (nodup_cons.mp h.way.nodup).1

theorem siblings (hh : Halves g s R l r ((m, i) :: rest)) (hb : Base s R) {s1 : St E} {c : Nat}
    {fresh dead : List Nat} (hr : Replaced g s s1 R m rest c fresh dead)
    (hbr : BranchOk g (s1.tree c)) (hle : i + 1 ≤ (s1.tree c).nkeys) :
    Siblings g s1 R l r i c rest := by
  have hw := hh.way
  have hL := hh.notL
  have hR := hh.notR
  rw [upPages_cons, mem_cons, not_or] at hL hR
  have hpl : (s1.node l).page = (s.node l).page := hr.eff.step.node l hw.lt
  have hpr : (s1.node r).page = (s.node r).page := hr.eff.step.node r hh.ltR
  have hup : upPages s1 rest = upPages s rest :=
    upPages_congr fun x hx => hr.eff.step.node x.1 (hw.tail.ltUp x hx)
  exact {
    way := hr.way
    branch := hbr
    le := hle
    owned := hr.owned
    live := hr.live
    ltL := hw.lt.trans_le hr.eff.step.nused
    ltR := hh.ltR.trans_le hr.eff.step.nused
    ownL := by rw [Owned, hr.tree_eq hb hw.lt hw.known hL.1, hr.eff.step.txid]; exact hh.ownL
    ownR := by rw [Owned, hr.tree_eq hb hh.ltR hh.knownR hR.1, hr.eff.step.txid]; exact hh.ownR
    knownL := by rw [hpl]; exact hr.eff.known hw.known
    knownR := by rw [hpr]; exact hr.eff.known hh.knownR
    idxL := by rw [hr.pindex l hw.lt]; exact hw.chain.2.1
    idxR := by rw [hr.pindex r hh.ltR, hh.idx, hw.chain.2.1]
    nodup := by
      rw [hpl, hpr]
      refine nodup_cons.mpr ⟨?_, nodup_cons.mpr ⟨?_, hr.way.nodup⟩⟩
      · rw [mem_cons, mem_cons, not_or, not_or, hup]
        exact ⟨hh.neLR, (hr.page_ne hb hw.known hL.1).symm, hL.2⟩
      · rw [mem_cons, not_or, hup]
        exact ⟨(hr.page_ne hb hh.knownR hR.1).symm, hR.2⟩ }

end Halves

theorem insert_expand (hb : Base s R) (hh : Halves g s R l r ((m, i) :: rest))
    (hroom : (s.tree m).nkeys ≠ g.branchOrder - 1) :
    wp (do let branch ← expandBranch env g m i; linkSplit env g d branch l r k)
      (fun _ s' => Lost env s' ∨ ∃ b j up' fresh dead built tall,
        Inserted g s s' R d l r k ((m, i) :: rest) b j up' fresh dead built tall)
      (pageExits env (Refused env)) s := by
  have hw := hh.way
  have hm := hw.tail
  obtain ⟨hmbr, hi, hx⟩ := hw.head
  rw [wp_bind]
  refine wp_mono (expandBranch_spec env g hb hm (hw.live (m, i) (by simp)) hx hmbr hi hroom)
    ?_ (fun _ _ h => h) (fun _ _ h => h) False.elim
  rintro c s1 ⟨fresh, dead, hr, hopen, hbr⟩
  have hb1 : Base s1 R := hr.base hb hm.known
  have hsib := hh.siblings hb hr hbr (by rw [hopen.nkeys]; omega)
  refine wp_post (linkSplit_spec env g (d := d) hsib hb1 k) ?_
  rintro _ s' (hd | ⟨up', fresh', dead', hl⟩)
  · exact .inl hd
  refine .inr ⟨c, i, up', fresh ++ fresh', dead ++ dead', (s'.node c).page :: upPages s' up', false, ?_⟩
  have hup : ∀ x ∈ rest, (s1.node x.1).page = (s.node x.1).page := fun x hx =>
    hr.eff.step.node x.1 (hm.ltUp x hx)
  have hpc : (s'.node c).page = (s1.node c).page := hl.eff.step.node c hr.way.lt
  have hpl : (s1.node l).page = (s.node l).page := hr.eff.step.node l hw.lt
  have hpr : (s1.node r).page = (s.node r).page := hr.eff.step.node r hh.ltR
  have hpg : s'.tree c = (s1.tree c).linked i (s.node l).page (s.node r).page k := by
    rw [hl.page, hpl, hpr]
  have htxid : s'.txn.xid = s.txn.xid := hl.eff.step.txid.trans hr.eff.step.txid
  refine {
    eff := ?_
    grown := ?_
    perm := ?_
    ok := ?_
    sub := ?_
    length := by simp [Layout.tallness, hl.length]
    wayL := hl.wayL hsib hb1
    wayR := hl.wayR hsib hb1
    owned := ?_
    linkL := hl.linkL hsib
    linkR := hl.linkR hsib
    sep := by rw [hl.page]; simp [EdBpt.linked]
    db := ?_
    parents := fun j hj h1 h2 h3 => ?_ }
  · have := hr.eff.trans hl.eff hb
    rw [upPages_congr hup] at this
    refine this.trim hb.pgOk fun q hq => ?_
    simp only [mem_append, mem_cons, not_mem_nil, or_false] at hq
    rw [upPages_cons, mem_cons, mem_append]
    rcases hq with rfl | rfl | hq
    · exact .inl (.inl rfl)
    · rcases hr.page_cases with h | h
      · exact .inl (.inl h)
      · exact .inr (.inl h)
    · exact .inl (.inr hq)
  · have hg := hl.grown.congr (T := s.pages) (U := s'.pages) (fun x hx => by
      obtain ⟨y, hy, rfl⟩ := mem_map.mp hx
      simp only [hup y hy]
      exact (hr.page_known hb (hm.knownUp y hy) (hm.page_ne hy)).symm) fun _ _ => rfl
    rw [pagePath_congr hup] at hg
    have hlev : layout.Level s.pages s'.pages (s.node m).page i
        (.two (s.node l).page k (s.node r).page) (.one (s1.node c).page) := by
      have h1 : s'.pages (s1.node c).page
          = (s1.tree c).linked i (s.node l).page (s.node r).page k := by
        rw [← hpc, ← tree_eq, hpg]
      refine ⟨?_, ?_, ?_⟩
      · simp only [Layout.forestKids, Layout.Forest.pages, flatMap_cons, flatMap_nil,
          append_nil, layout_kids, h1]
        exact hopen.kids hi
      · simp only [Layout.forestSeps, Layout.Forest.keys, layout_seps, h1]
        exact hopen.seps hi
      · intro x _
        simp
    have := Layout.Grown.level hlev hg
    simpa [Layout.Forest.pages, hpc] using this
  · have h1 := hr.perm
    have h2 := hl.perm
    rw [upPages_congr hup] at h2
    rw [upPages_cons, hpc]
    rw [perm_iff_count] at h1 h2 ⊢
    intro a
    have c1 := h1 a
    have c2 := h2 a
    simp only [count_append, count_cons, cons_append] at c1 c2 ⊢
    omega
  · intro q hq
    rcases mem_cons.mp hq with rfl | hq
    · exact ⟨hl.branch hsib, (hl.ownedB hsib).trans htxid⟩
    · obtain ⟨x, hx, rfl⟩ := mem_map.mp hq
      exact ⟨(hl.way.branch x hx).1, (hl.owned x hx).trans htxid⟩
  · intro x hx
    rcases mem_cons.mp hx with rfl | hx
    · exact mem_cons_self
    · exact mem_cons_of_mem _ (mem_upPages hx)
  · intro x hx
    rcases mem_cons.mp hx with rfl | hx
    · exact hl.ownedB hsib
    · exact hl.owned x hx
  · rw [hl.db]
    simp only [St.modDb, St.modTxn, hr.db]
  · have hjc : j ≠ c := by
      rintro rfl
      rcases hr.id with rfl | h
      · exact h3 (j, i) (by simp) rfl
      · omega
    rw [hl.parents j (hj.trans_le hr.eff.step.nused) h1 h2 hjc fun x hx => h3 x (by simp [hx]),
      hl.pindex j (hj.trans_le hr.eff.step.nused), hr.parent j hj, hr.pindex j hj]
    exact ⟨rfl, rfl⟩

end Cases

end Eddy
