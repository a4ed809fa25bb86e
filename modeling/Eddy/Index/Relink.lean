import Eddy.Index.Effects

/-!
# Eddy — `set_node`: putting a changed node into its ancestors

A cursor knows the way from its leaf to the root through the nodes' parents. `set_node` walks up
this way, clones the branches that an earlier transaction wrote, and stores the number of each new
page in the branch above it.
-/

namespace Eddy

open Outcome Slots PageTree List

variable {E : Type} (env : Env E) (g : Geom) {s : St E} {n c : Nat} {up : List (Nat × Nat)}
  {x : Nat × Nat}

/-- The way from the node `n` up to a root, as the list of its ancestors with the index of the
child below. -/
def NChain (s : St E) : Nat → List (Nat × Nat) → Prop
  | n, [] => (s.node n).parent = none ∧ (s.node n).pindex = 0
  | n, (m, i) :: rest => (s.node n).parent = some m ∧ (s.node n).pindex = i ∧ NChain s m rest

/-- The node at the upper end of a way. -/
def topNode : Nat → List (Nat × Nat) → Nat
  | n, [] => n
  | _, (m, _) :: rest => topNode m rest

/-- The pages of a way with the indices. -/
def pagePath (s : St E) (up : List (Nat × Nat)) : List (Nat × Nat) :=
  up.map fun x => ((s.node x.1).page, x.2)

/-- The pages of a way. -/
def upPages (s : St E) (up : List (Nat × Nat)) : List Nat := up.map fun x => (s.node x.1).page

/-- The page of a node was written by this transaction. -/
def Owned (s : St E) (n : Nat) : Prop := (s.tree n).xid = s.txn.xid

/-- A way that `set_node` can walk. -/
structure WayOk (s : St E) (R : List Nat) (n : Nat) (up : List (Nat × Nat)) : Prop where
  chain : NChain s n up
  lt : n < s.txn.nused
  ltUp : ∀ x ∈ up, x.1 < s.txn.nused
  known : Known s R (s.node n).page
  knownUp : ∀ x ∈ up, Known s R (s.node x.1).page
  live : ∀ x ∈ up, (s.node x.1).page ∉ s.txn.gc
  nodup : ((s.node n).page :: upPages s up).Nodup
  branch : ∀ x ∈ up, BranchOk g (s.tree x.1) ∧ x.2 ≤ (s.tree x.1).nkeys ∧
    (s.tree x.1).xid ≤ s.txn.xid

theorem NChain.congr {s' : St E} (h : NChain s n up)
    (hn : (s'.node n).parent = (s.node n).parent ∧ (s'.node n).pindex = (s.node n).pindex)
    (hup : ∀ x ∈ up, (s'.node x.1).parent = (s.node x.1).parent ∧
      (s'.node x.1).pindex = (s.node x.1).pindex) : NChain s' n up := by
  induction up generalizing n with
  | nil => exact ⟨hn.1.trans h.1, hn.2.trans h.2⟩
  | cons x rest ih =>
    obtain ⟨m, i⟩ := x
    exact ⟨hn.1.trans h.1, hn.2.trans h.2.1, ih h.2.2 (hup (m, i) (by simp))
      fun x hx => hup x (by simp [hx])⟩

theorem NChain.of_copy (h : NChain s n up) (hp : (s.node c).parent = (s.node n).parent)
    (hi : (s.node c).pindex = (s.node n).pindex) : NChain s c up := by
  cases up with
  | nil => exact ⟨hp.trans h.1, hi.trans h.2⟩
  | cons x rest => exact ⟨hp.trans h.1, hi.trans h.2.1, h.2.2⟩

theorem NChain.top (h : NChain s n up) :
    (s.node (topNode n up)).parent = none ∧ (s.node (topNode n up)).pindex = 0 := by
  induction up generalizing n with
  | nil => exact h
  | cons x rest ih => exact ih h.2.2

theorem topNode_mem : topNode n up = n ∨ ∃ x ∈ up, topNode n up = x.1 := by
  induction up generalizing n with
  | nil => exact .inl rfl
  | cons x rest ih =>
    refine .inr ?_
    rcases ih (n := x.1) with h | ⟨y, hy, h⟩
    · exact ⟨x, by simp, h⟩
    · exact ⟨y, by simp [hy], h⟩

theorem upPages_congr {t : St E} (h : ∀ x ∈ up, (t.node x.1).page = (s.node x.1).page) :
    upPages t up = upPages s up :=
  map_congr_left fun x hx => h x hx

theorem pagePath_congr {s' : St E} (h : ∀ x ∈ up, (s'.node x.1).page = (s.node x.1).page) :
    pagePath s' up = pagePath s up :=
  map_congr_left fun x hx => by rw [h x hx]

theorem mem_upPages (hx : x ∈ up) : (s.node x.1).page ∈ upPages s up := mem_map_of_mem hx

@[simp] theorem upPages_cons (s : St E) (m i : Nat) (rest : List (Nat × Nat)) :
    upPages s ((m, i) :: rest) = (s.node m).page :: upPages s rest := rfl

@[simp] theorem pagePath_cons (s : St E) (m i : Nat) (rest : List (Nat × Nat)) :
    pagePath s ((m, i) :: rest) = ((s.node m).page, i) :: pagePath s rest := rfl

theorem tree_eq (s : St E) (n : Nat) : s.tree n = s.pages (s.node n).page := rfl

namespace WayOk

variable {g} {s s' : St E} {R fresh dead W : List Nat} {n m i : Nat} {up rest : List (Nat × Nat)}

theorem tail (h : WayOk g s R n ((m, i) :: rest)) : WayOk g s R m rest where
  chain := h.chain.2.2
  lt := h.ltUp (m, i) (by simp)
  ltUp x hx := h.ltUp x (by simp [hx])
  known := h.knownUp (m, i) (by simp)
  knownUp x hx := h.knownUp x (by simp [hx])
  live x hx := h.live x (by simp [hx])
  nodup := (nodup_cons.mp h.nodup).2
  branch x hx := h.branch x (by simp [hx])

theorem head (h : WayOk g s R n ((m, i) :: rest)) :
    BranchOk g (s.tree m) ∧ i ≤ (s.tree m).nkeys ∧ (s.tree m).xid ≤ s.txn.xid :=
  h.branch (m, i) (by simp)

variable (h : WayOk g s R n up)

include h

theorem page_ne (hx : x ∈ up) : (s.node x.1).page ≠ (s.node n).page := fun e =>
  (nodup_cons.mp h.nodup).1 (e ▸ mem_upPages hx)

theorem id_ne (hx : x ∈ up) : x.1 ≠ n := fun e =>
  h.page_ne hx (by rw [e])

theorem length_lt : up.length < s.txn.nused := by
  have hnd : (n :: up.map Prod.fst).Nodup := by
    have := h.nodup
    have e : (s.node n).page :: upPages s up
        = (n :: up.map Prod.fst).map fun k => (s.node k).page := by
      simp [upPages, Function.comp_def]
    rw [e] at this
    exact List.Nodup.of_map _ this
  have hsub : n :: up.map Prod.fst ⊆ List.range s.txn.nused := by
    intro k hk
    rw [mem_range]
    rcases mem_cons.mp hk with rfl | hk
    · exact h.lt
    · obtain ⟨x, hx, rfl⟩ := mem_map.mp hk
      exact h.ltUp x hx
  have := (subperm_of_subset hnd hsub).length_le
  simp only [length_cons, length_map, length_range] at this
  omega

theorem congr (he : Eff s s' fresh dead W) (hb : Base s R)
    (hn : (s'.node n).parent = (s.node n).parent ∧ (s'.node n).pindex = (s.node n).pindex)
    (hup : ∀ x ∈ up, (s'.node x.1).parent = (s.node x.1).parent ∧
      (s'.node x.1).pindex = (s.node x.1).pindex) (hW : ∀ x ∈ up, (s.node x.1).page ∉ W)
    (hdead : ∀ x ∈ up, (s.node x.1).page ∉ dead) : WayOk g s' R n up := by
  have hpage : (s'.node n).page = (s.node n).page := he.step.node n h.lt
  have hpages : ∀ x ∈ up, (s'.node x.1).page = (s.node x.1).page := fun x hx =>
    he.step.node x.1 (h.ltUp x hx)
  have htree : ∀ x ∈ up, s'.tree x.1 = s.tree x.1 := fun x hx => by
    rw [tree_eq, tree_eq, hpages x hx]
    exact he.page hb (h.knownUp x hx) (hW x hx)
  exact {
    chain := h.chain.congr hn hup
    lt := h.lt.trans_le he.step.nused
    ltUp := fun x hx => (h.ltUp x hx).trans_le he.step.nused
    known := by rw [hpage]; exact he.known h.known
    knownUp := fun x hx => by rw [hpages x hx]; exact he.known (h.knownUp x hx)
    live := fun x hx => by
      rw [hpages x hx, he.gc, mem_append, not_or]
      exact ⟨h.live x hx, hdead x hx⟩
    nodup := by rw [hpage, upPages_congr hpages]; exact h.nodup
    branch := fun x hx => by rw [htree x hx, he.step.txid]; exact h.branch x hx }

theorem of_copy (hlt : c < s.txn.nused) (hp : (s.node c).parent = (s.node n).parent)
    (hi : (s.node c).pindex = (s.node n).pindex) (hk : Known s R (s.node c).page)
    (hnot : (s.node c).page ∉ upPages s up) : WayOk g s R c up :=
  { h with
    chain := h.chain.of_copy hp hi
    lt := hlt
    known := hk
    nodup := nodup_cons.mpr ⟨hnot, (nodup_cons.mp h.nodup).2⟩ }

end WayOk

/-! ## One level of the walk -/

/-- The node `n` was put into a branch of this transaction, the node `c`, which is the parent `m`
of `n` or its clone. -/
structure Placed (s s1 : St E) (R : List Nat) (n m i : Nat) (rest : List (Nat × Nat)) (c : Nat)
    (fresh dead : List Nat) : Prop where
  id : c = m ∨ s.txn.nused ≤ c
  eff : Eff s s1 fresh dead [(s.node m).page]
  perm : ((s.node m).page :: fresh).Perm ((s1.node c).page :: dead)
  parent : (s1.node n).parent = some c
  pindex : ∀ k, k < s.txn.nused → (s1.node k).pindex = (s.node k).pindex
  parents : ∀ k, k < s.txn.nused → k ≠ n → (s1.node k).parent = (s.node k).parent
  way : WayOk g s1 R c rest
  live : (s1.node c).page ∉ s1.txn.gc
  kids : (s1.tree c).kids
    = (s.tree m).kids.take i ++ [(s.node n).page] ++ (s.tree m).kids.drop (i + 1)
  seps : (s1.tree c).seps = (s.tree m).seps
  branch : BranchOk g (s1.tree c)
  nkeys : (s1.tree c).nkeys = (s.tree m).nkeys
  owned : Owned s1 c
  db : s1.txn.db = s.txn.db

/-- The indices of a way and the separators of its branches. -/
def pathSeps (s : St E) (up : List (Nat × Nat)) : List (Nat × List Nat) :=
  up.map fun x => (x.2, (s.tree x.1).seps)

/-- What `set_node` leaves behind. -/
structure Hung (s s' : St E) (R : List Nat) (d : EdDb) (n : Nat) (up up' : List (Nat × Nat))
    (fresh dead : List Nat) : Prop where
  eff : Eff s s' fresh dead (upPages s up)
  grown : layout.Grown s.pages s'.pages (.one (s.node n).page) (pagePath s up)
    (s'.node (topNode n up')).page (upPages s' up') false
  perm : (upPages s up ++ fresh).Perm (upPages s' up' ++ dead)
  length : up'.length = up.length
  seps : pathSeps s' up' = pathSeps s up
  way : WayOk g s' R n up'
  owned : ∀ x ∈ up', Owned s' x.1
  linked : layout.OnPath s'.pages (s'.node n).page (pagePath s' up')
    (s'.node (topNode n up')).page
  db : s'.txn.db = (s.modDb d fun c => { c with root := some (topNode n up') }).txn.db
  pindex : ∀ k, k < s.txn.nused → (s'.node k).pindex = (s.node k).pindex
  parents : ∀ k, k < s.txn.nused → k ≠ n → (∀ x ∈ up, k ≠ x.1) →
    (s'.node k).parent = (s.node k).parent

namespace Placed

variable {g} {s s1 s' : St E} {R fresh dead fresh' dead' : List Nat} {n m i c : Nat} {d : EdDb}
  {rest up' : List (Nat × Nat)}

variable (h : Placed g s s1 R n m i rest c fresh dead)

include h

theorem dead_known (hw : WayOk g s R n ((m, i) :: rest)) : ∀ p ∈ dead, Known s1 R p := by
  intro p hp
  have hmem := h.perm.symm.subset (mem_cons_of_mem _ hp)
  rcases mem_cons.mp hmem with rfl | hf
  · exact h.eff.known (hw.knownUp (m, i) (by simp))
  · exact h.eff.known_fresh hf

theorem base (hb : Base s R) (hw : WayOk g s R n ((m, i) :: rest)) :
    Base s1 R := h.eff.base hb (h.dead_known hw)

/-- One level and the rest of the walk. -/
theorem hung (hb : Base s R) (hw : WayOk g s R n ((m, i) :: rest))
    (hr : Hung g s1 s' R d c rest up' fresh' dead') :
    Hung g s s' R d n ((m, i) :: rest) ((c, i) :: up') (fresh ++ fresh') (dead ++ dead') := by
  have hb1 := h.base hb hw
  have hlt1 : ∀ k, k < s.txn.nused → k < s1.txn.nused := fun k hk => hk.trans_le h.eff.step.nused
  -- the page of `n` and of the rest of the way keep their numbers
  have hpn1 : (s1.node n).page = (s.node n).page := h.eff.step.node n hw.lt
  have hpn' : (s'.node n).page = (s.node n).page :=
    (hr.eff.step.node n (hlt1 n hw.lt)).trans hpn1
  have hrest1 : ∀ x ∈ rest, (s1.node x.1).page = (s.node x.1).page := fun x hx =>
    h.eff.step.node x.1 (hw.tail.ltUp x hx)
  have hpc' : (s'.node c).page = (s1.node c).page := hr.eff.step.node c h.way.lt
  -- the new branch is not touched again
  have hcW : (s1.node c).page ∉ upPages s1 rest := (nodup_cons.mp h.way.nodup).1
  have htree : s'.tree c = s1.tree c := by
    rw [tree_eq, tree_eq, hpc']
    exact hr.eff.page hb1 h.way.known hcW
  have hne : (s1.node c).page ≠ (s.node n).page := by
    intro e
    have hmem := h.perm.symm.subset (mem_cons_self)
    rw [e] at hmem
    rcases mem_cons.mp hmem with h1 | h1
    · exact hw.page_ne (x := (m, i)) (by simp) h1.symm
    · exact h.eff.fresh_not_known hb h1 hw.known
  have hnup : ∀ x ∈ up', (s'.node x.1).page ≠ (s.node n).page := by
    intro x hx e
    have hmem := hr.perm.symm.subset (mem_append_left _ (mem_upPages hx))
    rw [e, ← hpn1] at hmem
    rcases mem_append.mp hmem with h1 | h1
    · rw [upPages_congr hrest1, hpn1] at h1
      exact (nodup_cons.mp hw.nodup).1 (mem_cons_of_mem _ h1)
    · exact hr.eff.fresh_not_known hb1 h1 (by rw [hpn1]; exact h.eff.known hw.known)
  have hnc : n ≠ c := fun e => hne (by rw [← e, hpn1])
  have hparent : (s'.node n).parent = some c := by
    rw [hr.parents n (hlt1 n hw.lt) hnc fun x hx e =>
      hw.id_ne (x := x) (by simp [hx]) e.symm]
    exact h.parent
  have hpindex : (s'.node n).pindex = i := by
    rw [hr.pindex n (hlt1 n hw.lt), h.pindex n hw.lt]
    exact hw.chain.2.1
  have hbr := hw.head
  have hkids : (s'.tree c).kids[i]? = some (s.node n).page := by
    have hi : i ≤ (s.tree m).nkeys := hbr.2.1
    have hlen : ((s.tree m).kids.take i).length = i := by simp; omega
    rw [htree, h.kids, append_assoc, List.getElem?_append_right (by omega), hlen]
    simp
  refine {
    eff := ?_
    grown := ?_
    perm := ?_
    length := by rw [length_cons, length_cons, hr.length]
    seps := by
      have htail : pathSeps s1 rest = pathSeps s rest := map_congr_left fun x hx => by
        rw [tree_eq, tree_eq, hrest1 x hx, h.eff.page hb (hw.tail.knownUp x hx)
          (by simpa using hw.tail.page_ne hx)]
      simp only [pathSeps, map_cons, htree, h.seps]
      exact congrArg _ (hr.seps.trans htail)
    way := ?_
    owned := ?_
    linked := ⟨?_, ?_⟩
    db := ?_
    pindex := fun k hk => (hr.pindex k (hlt1 k hk)).trans (h.pindex k hk)
    parents := fun k hk hkn hkx => ?_ }
  · have := h.eff.trans hr.eff hb
    rwa [upPages_congr hrest1] at this
  · -- this level, then the rebuilt rest seen from the old store
    have hg := hr.grown.congr (T := s.pages) (U := s'.pages) (fun x hx => by
      obtain ⟨y, hy, rfl⟩ := mem_map.mp hx
      have hyp := hrest1 y hy
      simp only [hyp]
      refine (h.eff.page hb (hw.tail.knownUp y hy) ?_).symm
      simpa using hw.tail.page_ne hy) fun _ _ => rfl
    rw [pagePath_congr hrest1] at hg
    have hl : layout.Level s.pages s'.pages (s.node m).page i (.one (s.node n).page)
        (.one (s1.node c).page) := by
      refine ⟨?_, ?_, ?_⟩
      · have := h.kids
        rw [← htree, tree_eq, hpc'] at this
        simpa [Layout.forestKids, Layout.Forest.pages, tree_eq] using this
      · have := h.seps
        rw [← htree, tree_eq, hpc'] at this
        simpa [Layout.forestSeps, Layout.Forest.keys, tree_eq] using this
      · intro x hx
        simp [Layout.Forest.pages] at hx
        subst hx
        simp
    have := Layout.Grown.level hl hg
    simpa [Layout.Forest.pages, topNode, hpc'] using this
  · have h1 := h.perm
    have h2 := hr.perm
    rw [upPages_congr hrest1] at h2
    simp only [upPages_cons, hpc']
    rw [perm_iff_count] at h1 h2 ⊢
    intro a
    have c1 := h1 a
    have c2 := h2 a
    simp only [count_append, count_cons, cons_append] at c1 c2 ⊢
    omega
  · refine {
      chain := ⟨hparent, hpindex, hr.way.chain⟩
      lt := (hlt1 n hw.lt).trans_le hr.eff.step.nused
      ltUp := ?_
      known := by rw [hpn']; exact hr.eff.known (h.eff.known hw.known)
      knownUp := ?_
      live := ?_
      nodup := ?_
      branch := ?_ }
    · rintro x hx
      rcases mem_cons.mp hx with rfl | hx
      · exact hr.way.lt
      · exact hr.way.ltUp x hx
    · rintro x hx
      rcases mem_cons.mp hx with rfl | hx
      · exact hr.way.known
      · exact hr.way.knownUp x hx
    · rintro x hx
      rcases mem_cons.mp hx with rfl | hx
      · -- the new branch was live and is not dropped later
        rw [hpc', hr.eff.gc, mem_append, not_or]
        refine ⟨h.live, fun hd => ?_⟩
        rcases mem_append.mp (hr.perm.symm.subset (mem_append_right _ hd)) with h1 | h1
        · exact hcW h1
        · exact hr.eff.fresh_not_known hb1 h1 h.way.known
      · exact hr.way.live x hx
    · rw [hpn', nodup_cons, upPages_cons]
      refine ⟨?_, hr.way.nodup⟩
      rw [hpc', mem_cons, not_or]
      refine ⟨hne.symm, fun hmem => ?_⟩
      obtain ⟨x, hx, hx'⟩ := mem_map.mp hmem
      exact hnup x hx hx'
    · rintro x hx
      rcases mem_cons.mp hx with rfl | hx
      · simp only [htree, hr.eff.step.txid]
        refine ⟨h.branch, ?_, le_of_eq h.owned⟩
        rw [h.nkeys]
        exact hbr.2.1
      · exact hr.way.branch x hx
  · rintro x hx
    rcases mem_cons.mp hx with rfl | hx
    · simp only [Owned, htree, hr.eff.step.txid]
      exact h.owned
    · exact hr.owned x hx
  · rw [hpn']
    exact hkids
  · exact hr.linked
  · rw [hr.db]
    simp only [St.modDb, St.modTxn, h.db, topNode]
  · rw [hr.parents k (hlt1 k hk) ?_ fun x hx => hkx x (by simp [hx]), h.parents k hk hkn]
    rintro rfl
    rcases h.id with rfl | hge
    · exact hkx (k, i) (by simp) rfl
    · omega

end Placed

/-! ## The walk -/

section Level

variable {s : St E} {R : List Nat} {n m i : Nat} {rest : List (Nat × Nat)}

theorem EdBpt.link_kids {b b' : EdBpt E} {p : Nat} (hi : i ≤ b.nkeys) (hn : b'.nkeys = b.nkeys)
    (hptr : ∀ j, j ≤ b.nkeys → b'.ptr j = if j = i then p else b.ptr j) :
    b'.kids = b.kids.take i ++ [p] ++ b.kids.drop (i + 1) :=
  kids_of_link hn hi (by rw [hptr i hi, if_pos rfl]) fun j hj hne => by rw [hptr j hj, if_neg hne]

/-- The parent belongs to an earlier transaction: it is cloned, and the clone takes the node. -/
theorem place_clone (hb : Base s R) (hw : WayOk g s R n ((m, i) :: rest)) {s1 : St E} {p : Nat}
    (hc : CloneOf s s1 m c p) (f f' : EdBpt E → EdBpt E) (hf : f = fun b => { b with
      ptr := blit b.ptr 0 (s.tree m).ptr 0 ((s.tree m).nkeys + 1)
      key := blit b.key 0 (s.tree m).key 0 ((s.tree m).nkeys + 1) })
    (hf' : f' = fun b => { b with ptr := store b.ptr i (s.node n).page }) :
    Placed g s (((s1.modPage p f).modNode n fun x => { x with parent := some c }).modPage p f') R
      n m i rest c [p] [(s.node m).page] := by
  set s2 := s1.modPage p f with hs2
  set s3 := s2.modNode n (fun x => { x with parent := some c }) with hs3
  set s4 := s3.modPage p f' with hs4
  have hm := hw.tail
  have hbr := hw.head
  have hppg : p ∈ s1.txn.pg := by
    have : p ∈ s1.txn.used := by rw [hc.eff.used]; simp
    exact mem_of_mem_take this
  have hpnot : ¬ Known s R p := hc.eff.fresh_not_known hb (by simp)
  have hcn : n ≠ c := by rw [hc.id]; exact hw.lt.ne
  have hpc : (s4.node c).page = p := by
    rw [hs4, St.modPage_node, hs3, St.modNode_node_of_ne _ _ hcn.symm, hs2, St.modPage_node, hc.node]
  -- the account
  have e2 : Eff s1 s2 [] [] [p] := Eff.modPage s1 p f (.inr hppg) fun b => by rw [hf]
  have e3 : Eff s2 s3 [] [] [] := Eff.modNode s2 n _ rfl rfl
  have e4 : Eff s3 s4 [] [] [p] := Eff.modPage s3 p f' (.inr hppg) fun b => by rw [hf']
  have hb1 : Base s1 R := hc.eff.base hb fun q hq => by
    rw [mem_singleton.mp hq]
    exact hc.eff.known hm.known
  have e : Eff s s4 [p] [(s.node m).page] [] := by
    have := hc.eff.trans (e2.trans (e3.trans e4 (e2.base hb1 (by simp))) hb1) hb
    simp only [append_nil, nil_append] at this
    exact this.trim hb.pgOk (by simp)
  -- the nodes
  have hpar : ∀ k, k < s.txn.nused → k ≠ n → (s4.node k).parent = (s.node k).parent := by
    intro k hk hkn
    rw [hs4, St.modPage_node, hs3, St.modNode_node_of_ne _ _ hkn, hs2, St.modPage_node]
    exact hc.parent k hk
  have hidx : ∀ k, k < s.txn.nused → (s4.node k).pindex = (s.node k).pindex := by
    intro k hk
    rw [hs4, St.modPage_node]
    by_cases hkn : k = n
    · rw [hkn, hs3, St.modNode_node_self, hs2, St.modPage_node]
      exact hc.pindex n hw.lt
    · rw [hs3, St.modNode_node_of_ne _ _ hkn, hs2, St.modPage_node]
      exact hc.pindex k hk
  have hmn : m ≠ n := hw.id_ne (x := (m, i)) (by simp)
  have hcnode : s4.node c = ⟨p, (s.node m).parent, (s.node m).pindex, false⟩ := by
    rw [hs4, St.modPage_node, hs3, St.modNode_node_of_ne _ _ hcn.symm, hs2, St.modPage_node, hc.node]
  -- the way above
  have hway : WayOk g s4 R m rest := by
    refine hm.congr e hb ⟨hpar m hm.lt hmn, hidx m hm.lt⟩ (fun x hx => ?_) (by simp) fun x hx => ?_
    · exact ⟨hpar x.1 (hm.ltUp x hx) (hw.id_ne (by simp [hx])), hidx x.1 (hm.ltUp x hx)⟩
    · simpa using hm.page_ne hx
  have hwayc : WayOk g s4 R c rest := by
    refine hway.of_copy (hc.lt.trans_le ((e2.trans (e3.trans e4 (e2.base hb1 (by simp)))
      hb1).step.nused)) ?_ ?_ ?_ ?_
    · rw [hcnode, hpar m hm.lt hmn]
    · rw [hcnode, hidx m hm.lt]
    · rw [hpc]
      exact e.known_fresh (by simp)
    · rw [hpc, upPages_congr fun x hx => e.step.node x.1 (hm.ltUp x hx)]
      intro hmem
      obtain ⟨x, hx, rfl⟩ := mem_map.mp hmem
      exact hpnot (hm.knownUp x hx)
  -- the content of the clone
  have htree : s4.tree c = f' (f (s1.pages p)) := by
    rw [tree_eq, hpc, hs4, St.modPage_pages_self, hs3, St.modNode_pages, hs2, St.modPage_pages_self]
  have hnk : (s4.tree c).nkeys = (s.tree m).nkeys := by
    rw [htree, hf', hf]
    exact hc.nkeys
  have hptr : ∀ j, j ≤ (s.tree m).nkeys →
      (s4.tree c).ptr j = if j = i then (s.node n).page else (s.tree m).ptr j := by
    intro j hj
    rw [htree, hf', hf]
    simp only [store, blit]
    split
    · rfl
    · rw [if_pos (by omega)]
      congr 1
      omega
  have hkey : ∀ j, 1 ≤ j → j ≤ (s.tree m).nkeys → (s4.tree c).key j = (s.tree m).key j := by
    intro j _ hj
    rw [htree, hf', hf]
    simp only [blit]
    rw [if_pos (by omega)]
    congr 1
    omega
  exact {
    id := .inr (le_of_eq hc.id.symm)
    eff := e.mono (by simp)
    perm := by rw [hpc]; exact List.Perm.swap _ _ _
    parent := by rw [hs4, St.modPage_node, hs3, St.modNode_node_self]
    pindex := hidx
    parents := hpar
    way := hwayc
    live := by
      rw [hpc, e.gc, mem_append, not_or]
      refine ⟨fun h => hpnot (hb.gcKnown p h), fun h => hpnot ?_⟩
      rw [mem_singleton.mp h]
      exact hm.known
    kids := EdBpt.link_kids hbr.2.1 hnk hptr
    seps := seps_of_copy hnk hkey
    branch := by
      refine ⟨?_, by rw [hnk]; exact hbr.1.pos, by rw [hnk]; exact hbr.1.lt⟩
      rw [htree, hf', hf]
      exact hc.type.trans hbr.1.type
    nkeys := hnk
    owned := by
      have h1 := e.freshXid p (by simp)
      rw [Owned, tree_eq, hpc, h1, e.step.txid]
    db := by
      have : s4.txn.db = s1.txn.db := rfl
      rw [this, hc.db] }

theorem place_own (hb : Base s R) (hw : WayOk g s R n ((m, i) :: rest)) (hown : Owned s m)
    (f : EdBpt E → EdBpt E) (hf : f = fun b => { b with ptr := store b.ptr i (s.node n).page }) :
    Placed g s (s.modPage (s.node m).page f) R n m i rest m [] [] := by
  set s1 := s.modPage (s.node m).page f with hs1
  have hm := hw.tail
  have hbr := hw.head
  have e : Eff s s1 [] [] [(s.node m).page] :=
    Eff.modPage s _ f (.inl (ge_of_eq hown)) fun b => by rw [hf]
  have htree : s1.tree m = f (s.tree m) := by
    rw [tree_eq, hs1, St.modPage_node, St.modPage_pages_self]
    rfl
  have hnk : (s1.tree m).nkeys = (s.tree m).nkeys := by rw [htree, hf]
  exact {
    id := .inl rfl
    eff := e
    perm := List.Perm.refl _
    parent := hw.chain.1
    pindex := fun _ _ => rfl
    parents := fun _ _ _ => rfl
    way := hm.congr e hb ⟨rfl, rfl⟩ (fun _ _ => ⟨rfl, rfl⟩) (fun x hx => by
      simpa using hm.page_ne hx) (by simp)
    live := hw.live (m, i) (by simp)
    kids := EdBpt.link_kids hbr.2.1 hnk fun j _ => by rw [htree, hf]; rfl
    seps := seps_of_copy hnk fun j _ _ => by rw [htree, hf]
    branch := by
      rw [htree, hf]
      exact ⟨hbr.1.type, hbr.1.pos, hbr.1.lt⟩
    nkeys := hnk
    owned := by
      rw [Owned, htree, hf]
      exact hown
    db := rfl }

theorem ownLink_spec (hb : Base s R) (hw : WayOk g s R n ((m, i) :: rest)) (hown : Owned s n) :
    wp (ownParent env g n m)
      (fun c s1 => wp (linkNode g n c)
        (fun _ s2 => ∃ fresh dead, Placed g s s2 R n m i rest c fresh dead) (pageExits env False) s1)
      (pageExits env False) s := by
  have hbr := hw.head
  have hi : i < g.branchOrder := hbr.2.1.trans_lt hbr.1.lt
  have hidx : (s.node n).pindex = i := hw.chain.2.1
  have hm := hw.tail
  unfold ownParent linkNode branchSetPtr
  simp only [wp_bind, wp_get, wp_ite, wp_pure', wp_when, wp_modTree,
    wp_stuck]
  refine ⟨fun hold => ?_, fun hnew => ⟨fun _ => ⟨fun _ => ?_, fun h => ?_⟩, fun h => ?_⟩⟩
  · refine wp_post (edTxnClone_eff env hb hm.lt hm.known (hw.live (m, i) (by simp))) ?_
    rintro c s1 ⟨p, hc⟩
    have hmt : s1.tree m = s.tree m := hc.eff.tree hb hm.lt hm.known (by simp)
    have hcp : (s1.node c).page = p := by rw [hc.node]
    have hcn : n ≠ c := by rw [hc.id]; exact hw.lt.ne
    have hnt : s1.tree n = s.tree n := hc.eff.tree hb hw.lt hw.known (by simp)
    unfold moveBranch
    simp only [wp_bind, wp_getTree, wp_ite, wp_modTree, wp_stuck, wp_modNode]
    rw [hmt, hcp]
    have hlt := hbr.1.lt
    refine ⟨fun _ => ?_, fun h => absurd (.inr ⟨by omega, by omega⟩) h⟩
    have hp := place_clone g hb hw hc _ _ rfl rfl
    -- the page of `n` is none of the stored ones
    have hnp : (s.node n).page ≠ p := fun e =>
      hc.eff.fresh_not_known hb (by simp) (e ▸ hw.known)
    simp only [St.modNode_node_self, St.modNode_node_of_ne _ _ hcn.symm, St.modPage_node, hcp,
      hc.eff.step.node n hw.lt, hc.pindex n hw.lt, hidx]
    refine ⟨fun _ => ⟨fun _ => ⟨_, _, hp⟩, fun h => h hi⟩, fun h => absurd ?_ h⟩
    rw [tree_eq, St.modNode_node_self, St.modNode_pages, St.modPage_node]
    simp only
    rw [hc.eff.step.node n hw.lt, St.modPage_pages_of_ne _ _ hnp, hc.eff.xid hb hw.known]
    exact hown.trans hc.eff.step.txid.symm
  · have hmown : Owned s m := le_antisymm hbr.2.2 (not_lt.mp hnew)
    rw [hidx]
    exact ⟨_, _, place_own g hb hw hmown _ rfl⟩
  · rw [hidx] at h
    exact h hi
  · exact absurd hown h

/-- `set_node` rebuilds the way up. -/
theorem setNode_spec (d : EdDb) {fuel : Nat} (hfuel : up.length < fuel) (hb : Base s R)
    (hw : WayOk g s R n up) (hown : Owned s n) :
    wp (setNode env g d fuel n)
      (fun _ s' => ∃ up' fresh dead, Hung g s s' R d n up up' fresh dead)
      (pageExits env False) s := by
  -- induction on the way
  induction up generalizing s n fuel with
  | nil =>
    obtain ⟨fuel, rfl⟩ : ∃ k, fuel = k + 1 := ⟨fuel - 1, by simp at hfuel; omega⟩
    rw [setNode, wp_bind, wp_getNode, hw.chain.1]
    have e := Eff.modDb s d fun c => { c with root := some n }
    exact ⟨[], [], [], {
      eff := e
      grown := .one _
      perm := List.Perm.refl _
      length := rfl
      seps := rfl
      way := hw.congr e hb ⟨rfl, rfl⟩ (by simp) (by simp) (by simp)
      owned := by simp
      linked := rfl
      db := rfl
      pindex := fun _ _ => rfl
      parents := fun _ _ _ _ => rfl }⟩
  | cons x rest ih =>
    obtain ⟨m, i⟩ := x
    obtain ⟨fuel, rfl⟩ : ∃ k, fuel = k + 1 := ⟨fuel - 1, by simp at hfuel; omega⟩
    rw [setNode, wp_bind, wp_getNode, hw.chain.1]
    simp only [wp_bind]
    refine wp_post (ownLink_spec env g hb hw hown) fun c s1 h1 => ?_
    refine wp_post h1 ?_
    rintro _ s2 ⟨fresh, dead, hp⟩
    refine wp_post (ih (by simpa using hfuel) (hp.base hb hw) hp.way hp.owned) ?_
    rintro _ s' ⟨up', fresh', dead', hr⟩
    exact ⟨_, _, _, hp.hung hb hw hr⟩

theorem setNodeTop_spec (d : EdDb) (hb : Base s R) (hw : WayOk g s R n up) (hown : Owned s n) :
    wp (setNodeTop env g d n)
      (fun _ s' => ∃ up' fresh dead, Hung g s s' R d n up up' fresh dead)
      (pageExits env False) s := by
  unfold setNodeTop
  rw [wp_bind, wp_gets]
  exact setNode_spec env g d (hw.length_lt.trans (Nat.lt_succ_self _)) hb hw hown

/-- A walk over a way that belongs to the transaction and is linked only sets the root. -/
theorem setNode_owned (d : EdDb) {fuel : Nat} (hfuel : up.length < fuel) (hw : WayOk g s R n up)
    (hown : Owned s n) (howned : ∀ x ∈ up, Owned s x.1) {r : Nat}
    (hlink : layout.OnPath s.pages (s.node n).page (pagePath s up) r) {Q : Unit → St E → Prop}
    {X : Exits EdErr EdFault (St E)}
    (hQ : Q () (s.modDb d fun c => { c with root := some (topNode n up) })) :
    wp (setNode env g d fuel n) Q X s := by
  induction up generalizing n fuel with
  | nil =>
    obtain ⟨fuel, rfl⟩ : ∃ k, fuel = k + 1 := ⟨fuel - 1, by simp at hfuel; omega⟩
    rw [setNode, wp_bind, wp_getNode, hw.chain.1]
    exact hQ
  | cons x rest ih =>
    obtain ⟨m, i⟩ := x
    obtain ⟨fuel, rfl⟩ : ∃ k, fuel = k + 1 := ⟨fuel - 1, by simp at hfuel; omega⟩
    rw [setNode, wp_bind, wp_getNode, hw.chain.1]
    have hbr := hw.head
    have hmown : Owned s m := howned (m, i) (by simp)
    have hi : i < g.branchOrder := hbr.2.1.trans_lt hbr.1.lt
    have hptr : (s.tree m).ptr i = (s.node n).page := by
      have h1 : (s.tree m).kids[i]? = some (s.node n).page := hlink.1
      rw [getElem?_kids hbr.2.1] at h1
      exact Option.some.inj h1
    have hsame : (s.modPage (s.node m).page fun b =>
        { b with ptr := store b.ptr (s.node n).pindex (s.node n).page }) = s := by
      have hfun : (fun q => if q = (s.node m).page then
          { s.pages (s.node m).page with
            ptr := store (s.pages (s.node m).page).ptr (s.node n).pindex (s.node n).page }
          else s.pages q) = s.pages := by
        funext q
        split
        · rename_i hq
          rw [hw.chain.2.1, ← hptr, tree_eq, store_same, hq]
        · rfl
      unfold St.modPage
      rw [hfun]
    unfold ownParent linkNode branchSetPtr
    simp only [wp_bind, wp_get, wp_ite, wp_pure', wp_when, wp_modTree,
      wp_stuck, hsame]
    have hrest := ih (n := m) (by simpa using hfuel) hw.tail hmown
      (fun x hx => howned x (by simp [hx])) hlink.2 hQ
    refine ⟨fun h => ?_, fun _ => ⟨fun _ => ⟨fun _ => hrest, fun h => ?_⟩, fun h => ?_⟩⟩
    · rw [hmown] at h
      omega
    · rw [hw.chain.2.1] at h
      exact absurd hi h
    · exact absurd hown h

theorem Hung.of_owned {g : Geom} (d : EdDb) (hb : Base s R) (hw : WayOk g s R n up)
    (howned : ∀ x ∈ up, Owned s x.1)
    (hlink : layout.OnPath s.pages (s.node n).page (pagePath s up) (s.node (topNode n up)).page) :
    Hung g s (s.modDb d fun c => { c with root := some (topNode n up) }) R d n up up [] [] where
  eff := (Eff.modDb s d _).mono (by simp)
  grown := by
    have := Layout.Grown.of_onPath (L := layout (E := E)) hlink fun x _ => by simp
    rwa [show (pagePath s up).map Prod.fst = upPages s up by
      simp [pagePath, upPages, Function.comp_def]] at this
  perm := List.Perm.refl _
  length := rfl
  seps := rfl
  way := hw.congr (Eff.modDb s d _) hb ⟨rfl, rfl⟩ (fun _ _ => ⟨rfl, rfl⟩) (by simp) (by simp)
  owned := howned
  linked := hlink
  db := rfl
  pindex _ _ := rfl
  parents _ _ _ _ := rfl

end Level

end Eddy
