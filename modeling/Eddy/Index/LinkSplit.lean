import Eddy.Index.Relink

/-!
# Eddy — the end of `insert_into_parent`: two nodes go into a branch

`linkSplit` stores the numbers of two sibling pages and the separator between them in a branch of
the transaction, and puts the branch into its ancestors. It calls `set_node` once for each sibling;
the second walk finds everything linked. The result of both calls is ignored: when a clone fails on
the way, the transaction is doomed.
-/

namespace Eddy

open Outcome Slots PageTree List

variable {E : Type} (env : Env E) (g : Geom) {s : St E} {n p : Nat} {Q : Unit → St E → Prop}
  {X : Exits EdErr EdFault (St E)}

/-- A branch with the children `l`, `r` and the separator `k` stored from slot `i` on. -/
def EdBpt.linked (b : EdBpt E) (i l r k : Nat) : EdBpt E :=
  { b with ptr := store (store b.ptr i l) (i + 1) r, key := store b.key (i + 1) k }

/-- Two nodes `l`, `r` for the slots `i`, `i + 1` of the branch `b`, all of this transaction. -/
structure Siblings (s : St E) (R : List Nat) (l r i b : Nat) (up : List (Nat × Nat)) : Prop where
  way : WayOk g s R b up
  branch : BranchOk g (s.tree b)
  le : i + 1 ≤ (s.tree b).nkeys
  owned : Owned s b
  live : (s.node b).page ∉ s.txn.gc
  ltL : l < s.txn.nused
  ltR : r < s.txn.nused
  ownL : Owned s l
  ownR : Owned s r
  knownL : Known s R (s.node l).page
  knownR : Known s R (s.node r).page
  idxL : (s.node l).pindex = i
  idxR : (s.node r).pindex = i + 1
  nodup : ((s.node l).page :: (s.node r).page :: (s.node b).page :: upPages s up).Nodup

/-- Both nodes are in the branch, and the branch is in its ancestors. -/
structure Linked (s s' : St E) (R : List Nat) (d : EdDb) (l r i b k : Nat)
    (up up' : List (Nat × Nat)) (fresh dead : List Nat) : Prop where
  eff : Eff s s' fresh dead ((s.node b).page :: upPages s up)
  grown : layout.Grown s.pages s'.pages (.one (s.node b).page) (pagePath s up)
    (s'.node (topNode b up')).page (upPages s' up') false
  perm : (upPages s up ++ fresh).Perm (upPages s' up' ++ dead)
  length : up'.length = up.length
  page : s'.tree b = (s.tree b).linked i (s.node l).page (s.node r).page k
  live : (s'.node b).page ∉ s'.txn.gc
  way : WayOk g s' R b up'
  owned : ∀ x ∈ up', Owned s' x.1
  linked : layout.OnPath s'.pages (s'.node b).page (pagePath s' up') (s'.node (topNode b up')).page
  parentL : (s'.node l).parent = some b
  parentR : (s'.node r).parent = some b
  db : s'.txn.db = (s.modDb d fun c => { c with root := some (topNode b up') }).txn.db
  pindex : ∀ j, j < s.txn.nused → (s'.node j).pindex = (s.node j).pindex
  parents : ∀ j, j < s.txn.nused → j ≠ l → j ≠ r → j ≠ b → (∀ x ∈ up, j ≠ x.1) →
    (s'.node j).parent = (s.node j).parent

theorem setNode_step {d : EdDb} {fuel m : Nat} (hp : (s.node n).parent = some m) (hn : Owned s n)
    (hm : Owned s m) (hi : (s.node n).pindex < g.branchOrder)
    (h : wp (setNode env g d fuel m) Q X (s.modPage (s.node m).page fun b =>
      { b with ptr := store b.ptr (s.node n).pindex (s.node n).page })) :
    wp (setNode env g d (fuel + 1) n) Q X s := by
  rw [setNode, wp_bind, wp_getNode, hp]
  unfold ownParent linkNode branchSetPtr
  simp only [wp_bind, wp_get, wp_ite, wp_pure', wp_when, wp_modTree,
    wp_stuck]
  refine ⟨fun hlt => ?_, fun _ => ⟨fun _ => ⟨fun _ => h, fun hno => absurd hi hno⟩,
    fun hno => absurd hn hno⟩⟩
  rw [hm] at hlt
  omega

theorem WayOk.modPage {g : Geom} {R : List Nat} {up : List (Nat × Nat)} (h : WayOk g s R n up)
    (hb : Base s R) (hown : Owned s n) (f : EdBpt E → EdBpt E) (hf : ∀ b, (f b).xid = b.xid) :
    WayOk g (s.modPage (s.node n).page f) R n up :=
  h.congr (Eff.modPage s _ f (.inl (ge_of_eq hown)) hf) hb ⟨rfl, rfl⟩ (fun _ _ => ⟨rfl, rfl⟩)
    (fun x hx => by simpa using h.page_ne hx) (by simp)

theorem tree_modPage_of_ne (f : EdBpt E → EdBpt E) (h : (s.node n).page ≠ p) :
    (s.modPage p f).tree n = s.tree n :=
  St.modPage_pages_of_ne s f h

theorem tree_modPage_self (f : EdBpt E → EdBpt E) :
    (s.modPage (s.node n).page f).tree n = f (s.tree n) :=
  St.modPage_pages_self s _ f

theorem onPath_modPage {q root : Nat} {path : List (Nat × Nat)} (f : EdBpt E → EdBpt E)
    (h : layout.OnPath s.pages q path root) (hp : ∀ x ∈ path, x.1 ≠ p) :
    layout.OnPath (s.modPage p f).pages q path root := by
  induction path generalizing q with
  | nil => exact h
  | cons x rest ih =>
    obtain ⟨m, i⟩ := x
    refine ⟨?_, ih h.2 fun y hy => hp y (by simp [hy])⟩
    rw [St.modPage_pages_of_ne s f (hp (m, i) (by simp))]
    exact h.1

section LinkRight

variable {s : St E} {R : List Nat} {d : EdDb} {r b i k : Nat} {up : List (Nat × Nat)}

/-- The right sibling goes into a branch whose way up is linked already. -/
theorem linkRight_spec (hb : Base s R) (hw : WayOk g s R b up) (hbr : BranchOk g (s.tree b))
    (hle : i + 1 ≤ (s.tree b).nkeys) (hown : Owned s b) (howned : ∀ x ∈ up, Owned s x.1)
    {root : Nat} (hlink : layout.OnPath s.pages (s.node b).page (pagePath s up) root)
    (hp : (s.node r).parent = some b) (hi : (s.node r).pindex = i + 1) (hr : Owned s r)
    (hne : (s.node r).page ≠ (s.node b).page)
    (hQ : Q () (((s.modPage (s.node b).page fun c => { c with key := store c.key (i + 1) k }).modPage
      (s.node b).page fun c => { c with ptr := store c.ptr (i + 1) (s.node r).page }).modDb d
        fun c => { c with root := some (topNode b up) })) : wp (linkRight env g d r k) Q X s := by
  have hlt := hbr.lt
  unfold linkRight
  rw [wp_bind, wp_getNode, hp]
  unfold branchSetKey
  simp only [wp_bind, hi, if_neg (Nat.succ_ne_zero i), wp_ite, wp_modTree, wp_stuck,
    wp_attempt, wp_pure']
  refine ⟨fun _ => ?_, fun h => absurd (by omega) h⟩
  set f1 : EdBpt E → EdBpt E := fun c => { c with key := store c.key (i + 1) k } with hf1
  set f2 : EdBpt E → EdBpt E := fun c => { c with ptr := store c.ptr (i + 1) (s.node r).page }
    with hf2
  set s1 := s.modPage (s.node b).page f1 with hs1
  have hb1 : Base s1 R :=
    (Eff.modPage s _ f1 (.inl (ge_of_eq hown)) fun _ => rfl).base hb (by simp)
  have hown1 : Owned s1 b := by
    rw [Owned, hs1, tree_modPage_self]
    exact hown
  have hr1 : Owned s1 r := by
    rw [Owned, hs1, tree_modPage_of_ne f1 hne]
    exact hr
  unfold setNodeTop
  rw [wp_bind, wp_gets]
  have hp1 : (s1.node r).parent = some b := hp
  refine setNode_step env g hp1 hr1 hown1 (by rw [hs1, St.modPage_node, hi]; omega) ?_
  have hs2 : (s1.modPage (s1.node b).page fun c =>
      { c with ptr := store c.ptr (s1.node r).pindex (s1.node r).page })
      = s1.modPage (s.node b).page f2 := by
    rw [hs1, St.modPage_node, St.modPage_node, hi]
  rw [hs2]
  have hw1 : WayOk g s1 R b up := hw.modPage hb hown f1 fun _ => rfl
  have hw2 : WayOk g (s1.modPage (s.node b).page f2) R b up := hw1.modPage hb1 hown1 f2 fun _ => rfl
  have hpath : ∀ x ∈ pagePath s up, x.1 ≠ (s.node b).page := by
    intro x hx
    obtain ⟨y, hy, rfl⟩ := mem_map.mp hx
    exact hw.page_ne hy
  refine setNode_owned env g d (hw2.length_lt) hw2 ?_ (fun x hx => ?_) (r := root) ?_ hQ
  · exact (congrArg EdBpt.xid (tree_modPage_self (s := s1) (n := b) f2)).trans hown1
  · have hx1 := hw.page_ne hx
    rw [Owned, tree_modPage_of_ne (s := s1) f2 hx1, hs1, tree_modPage_of_ne f1 hx1]
    exact howned x hx
  · exact onPath_modPage f2 (onPath_modPage f1 hlink hpath) hpath

end LinkRight

section LinkSplit

variable {s : St E} {R : List Nat} {d : EdDb} {l r b i : Nat} {up : List (Nat × Nat)}

namespace Siblings

variable {g}

section

variable (h : Siblings g s R l r i b up)

include h

theorem neLR : (s.node l).page ≠ (s.node r).page := fun e =>
  (nodup_cons.mp h.nodup).1 (by rw [e]; simp)

theorem neLB : (s.node l).page ≠ (s.node b).page := fun e =>
  (nodup_cons.mp h.nodup).1 (by rw [e]; simp)

theorem neRB : (s.node r).page ≠ (s.node b).page := fun e =>
  (nodup_cons.mp (nodup_cons.mp h.nodup).2).1 (by rw [e]; simp)

theorem neL {x : Nat × Nat} (hx : x ∈ up) : (s.node l).page ≠ (s.node x.1).page := fun e =>
  (nodup_cons.mp h.nodup).1 (by rw [e]; simp [mem_upPages hx])

theorem neR {x : Nat × Nat} (hx : x ∈ up) : (s.node r).page ≠ (s.node x.1).page := fun e =>
  (nodup_cons.mp (nodup_cons.mp h.nodup).2).1 (by rw [e]; simp [mem_upPages hx])

/-- The state in which both nodes know their parent and the left one is stored. -/
def afterLeft (s : St E) (l r b i : Nat) : St E :=
  ((s.modNode l fun x => { x with parent := some b }).modNode r
    fun x => { x with parent := some b }).modPage (s.node b).page
      fun c => { c with ptr := store c.ptr i (s.node l).page }

theorem afterLeft_eff (hb : Base s R) : Eff s (afterLeft s l r b i) [] [] [(s.node b).page] := by
  have e1 := Eff.modNode s l (fun x => { x with parent := some b }) rfl rfl
  set s1 := s.modNode l (fun x => { x with parent := some b }) with hs1
  have e2 := Eff.modNode s1 r (fun x => { x with parent := some b }) rfl rfl
  set s2 := s1.modNode r (fun x => { x with parent := some b }) with hs2
  have e3 := Eff.modPage s2 (s.node b).page
    (fun c => { c with ptr := store c.ptr i (s.node l).page }) (.inl (ge_of_eq h.owned))
    fun _ => rfl
  exact e1.trans (e2.trans e3 (e1.base hb (by simp))) hb

end

theorem afterLeft_node (n : Nat) : (afterLeft s l r b i).node n
    = if n = l ∨ n = r then { s.node n with parent := some b } else s.node n := by
  unfold afterLeft
  rw [St.modPage_node]
  by_cases h1 : n = r
  · subst h1
    rw [St.modNode_node_self, if_pos (.inr rfl)]
    by_cases h2 : n = l
    · subst h2
      rw [St.modNode_node_self]
    · rw [St.modNode_node_of_ne _ _ h2]
  · rw [St.modNode_node_of_ne _ _ h1]
    by_cases h2 : n = l
    · subst h2
      rw [St.modNode_node_self, if_pos (.inl rfl)]
    · rw [St.modNode_node_of_ne _ _ h2, if_neg (by simp [h1, h2])]

theorem afterLeft_page : ((afterLeft s l r b i).node n).page = (s.node n).page := by
  rw [afterLeft_node]
  split <;> rfl

theorem afterLeft_pindex : ((afterLeft s l r b i).node n).pindex = (s.node n).pindex := by
  rw [afterLeft_node]
  split <;> rfl

theorem afterLeft_parent :
    ((afterLeft s l r b i).node n).parent
      = if n = l ∨ n = r then some b else (s.node n).parent := by
  rw [afterLeft_node]
  split <;> rfl

theorem afterLeft_tree (n : Nat) (hn : (s.node n).page ≠ (s.node b).page) :
    (afterLeft s l r b i).tree n = s.tree n := by
  rw [tree_eq, afterLeft_page]
  exact St.modPage_pages_of_ne _ _ hn

theorem afterLeft_tree_self : (afterLeft s l r b i).tree b
    = { s.tree b with ptr := store (s.tree b).ptr i (s.node l).page } := by
  rw [tree_eq, afterLeft_page]
  exact St.modPage_pages_self _ _ _

theorem afterLeft_way (h : Siblings g s R l r i b up) (hb : Base s R) :
    WayOk g (afterLeft s l r b i) R b up := by
  have hbl : ¬ (b = l ∨ b = r) := by
    rintro (rfl | rfl)
    · exact h.neLB rfl
    · exact h.neRB rfl
  refine h.way.congr (h.afterLeft_eff hb) hb ⟨?_, afterLeft_pindex⟩
    (fun x hx => ⟨?_, afterLeft_pindex⟩) (fun x hx => by simpa using h.way.page_ne hx) (by simp)
  · rw [afterLeft_parent, if_neg hbl]
  · rw [afterLeft_parent, if_neg]
    rintro (e | e)
    · exact h.neL hx (by rw [e])
    · exact h.neR hx (by rw [e])

end Siblings

theorem linkSplit_left (h : Siblings g s R l r i b up) {k : Nat}
    (hw : ∀ fuel, up.length < fuel → wp (setNode env g d fuel b)
      (fun _ s' => wp (linkRight env g d r k) Q X s')
      ⟨fun _ s' => wp (linkRight env g d r k) Q X s', X.halt, X.stuck⟩
      (Siblings.afterLeft s l r b i)) : wp (linkSplit env g d b l r k) Q X s := by
  have hnr : l ≠ r := fun e => h.neLR (by rw [e])
  have hbl : b ≠ l := fun e => h.neLB (by rw [e])
  have hbr : b ≠ r := fun e => h.neRB (by rw [e])
  have hlt := h.branch.lt
  have hle := h.le
  unfold linkSplit setNodeTop
  simp only [wp_bind, wp_modNode, wp_attempt, wp_gets]
  refine setNode_step env g (m := b) ?_ ?_ ?_ ?_ ?_
  · rw [St.modNode_node_of_ne _ _ hnr, St.modNode_node_self]
  · rw [Owned, tree_eq, St.modNode_node_of_ne _ _ hnr, St.modNode_node_self]
    exact h.ownL
  · rw [Owned, tree_eq, St.modNode_node_of_ne _ _ hbr, St.modNode_node_of_ne _ _ hbl]
    exact h.owned
  · rw [St.modNode_node_of_ne _ _ hnr, St.modNode_node_self]
    simp only [h.idxL]
    omega
  · rw [St.modNode_node_of_ne _ _ hbr, St.modNode_node_of_ne _ _ hbl,
      St.modNode_node_of_ne _ _ hnr, St.modNode_node_self]
    simp only [h.idxL]
    exact hw _ h.way.length_lt

theorem Hung.base {g : Geom} {s' : St E} {up' : List (Nat × Nat)} {fresh dead : List Nat}
    (h : Hung g s s' R d b up up' fresh dead) (hb : Base s R) (hw : WayOk g s R b up) :
    Base s' R := by
  refine h.eff.base hb fun p hp => ?_
  rcases mem_append.mp (h.perm.symm.subset (mem_append_right _ hp)) with h1 | h1
  · obtain ⟨x, hx, rfl⟩ := mem_map.mp h1
    exact h.eff.known (hw.knownUp x hx)
  · exact h.eff.known_fresh h1

theorem linkRight_hung (h : Siblings g s R l r i b up) (hb : Base s R) {k : Nat} {s4 : St E}
    {up' : List (Nat × Nat)} {fresh dead : List Nat}
    (hu : Hung g (Siblings.afterLeft s l r b i) s4 R d b up up' fresh dead) :
    wp (linkRight env g d r k)
      (fun _ s' => Linked g s s' R d l r i b k up up' fresh dead ∧
        (∀ p, p ≠ (s.node b).page → s'.pages p = s4.pages p) ∧ ∀ n, s'.node n = s4.node n)
      X s4 := by
  set s3 := Siblings.afterLeft s l r b i with hs3
  have e3 : Eff s s3 [] [] [(s.node b).page] := h.afterLeft_eff hb
  have hb3 : Base s3 R := e3.base hb (by simp)
  have hw3 : WayOk g s3 R b up := h.afterLeft_way hb
  have hb4 : Base s4 R := hu.base hb3 hw3
  have hnused : s3.txn.nused = s.txn.nused := rfl
  have hltb : b < s.txn.nused := h.way.lt
  have hpage3 : ∀ n, (s3.node n).page = (s.node n).page := fun n => Siblings.afterLeft_page
  have hpage4 : ∀ n, n < s.txn.nused → (s4.node n).page = (s.node n).page := fun n hn =>
    (hu.eff.step.node n hn).trans (hpage3 n)
  have hup3 : upPages s3 up = upPages s up := upPages_congr fun x _ => hpage3 x.1
  have hpath3 : pagePath s3 up = pagePath s up := pagePath_congr fun x _ => hpage3 x.1
  -- the pages of the branch and of the right node after the walk
  have htree : ∀ n, n < s.txn.nused → Known s R (s.node n).page →
      (s.node n).page ∉ upPages s up → s4.tree n = s3.tree n := by
    intro n hn hk hnot
    rw [tree_eq, tree_eq, hpage4 n hn, hpage3]
    exact hu.eff.page hb3 (e3.known hk) (by rw [hup3]; exact hnot)
  have hbnot : (s.node b).page ∉ upPages s up := (nodup_cons.mp h.way.nodup).1
  have hrnot : (s.node r).page ∉ upPages s up := fun hm => by
    obtain ⟨x, hx, e⟩ := mem_map.mp hm
    exact h.neR hx e.symm
  have hbt : s4.tree b = { s.tree b with ptr := store (s.tree b).ptr i (s.node l).page } := by
    rw [htree b hltb h.way.known hbnot, hs3, Siblings.afterLeft_tree_self]
  have hrt : s4.tree r = s.tree r := by
    rw [htree r h.ltR h.knownR hrnot, hs3, Siblings.afterLeft_tree r h.neRB]
  have htxid : s4.txn.xid = s.txn.xid := hu.eff.step.txid
  have hrb : r ≠ b := fun e => h.neRB (by rw [e])
  have hlb : l ≠ b := fun e => h.neLB (by rw [e])
  have hrp : (s4.node r).parent = some b := by
    rw [hu.parents r h.ltR hrb fun x hx e => h.neR hx (by rw [e]), hs3, Siblings.afterLeft_parent,
      if_pos (.inr rfl)]
  have hlp : (s4.node l).parent = some b := by
    rw [hu.parents l h.ltL hlb fun x hx e => h.neL hx (by rw [e]), hs3, Siblings.afterLeft_parent,
      if_pos (.inl rfl)]
  have hri : (s4.node r).pindex = i + 1 := by
    rw [hu.pindex r h.ltR, hs3, Siblings.afterLeft_pindex]
    exact h.idxR
  have hown4 : Owned s4 b := by
    rw [Owned, hbt, htxid]
    exact h.owned
  have hlt := h.branch.lt
  have hle := h.le
  refine linkRight_spec env g (i := i) hb4 hu.way ?_ (by rw [hbt]; exact hle) hown4 hu.owned
    hu.linked hrp hri ?_ (by rw [hpage4 r h.ltR, hpage4 b hltb]; exact h.neRB) ?_
  · rw [hbt]
    exact ⟨h.branch.type, h.branch.pos, hlt⟩
  · rw [Owned, hrt, htxid]
    exact h.ownR
  · rw [hpage4 b hltb, hpage4 r h.ltR]
    set f1 : EdBpt E → EdBpt E := fun c => { c with key := store c.key (i + 1) k } with hf1
    set f2 : EdBpt E → EdBpt E := fun c => { c with ptr := store c.ptr (i + 1) (s.node r).page }
      with hf2
    set s5 := s4.modPage (s.node b).page f1 with hs5
    set s6 := s5.modPage (s.node b).page f2 with hs6
    have hw4 : s4.txn.xid ≤ (s4.pages (s.node b).page).xid := by
      rw [← hpage4 b hltb]
      exact ge_of_eq hown4
    have e5 : Eff s4 s5 [] [] [(s.node b).page] := Eff.modPage s4 _ f1 (.inl hw4) fun _ => rfl
    have e6 : Eff s5 s6 [] [] [(s.node b).page] :=
      Eff.modPage s5 _ f2 (.inl (by rw [e5.xids _ (by
        rw [← hpage4 b hltb]
        exact hu.way.known.not_unused hb4.sound hb4.pgOk e5.step)]; exact hw4)) fun _ => rfl
    set s7 := s6.modDb d (fun c => { c with root := some (topNode b up') }) with hs7
    have e7 : Eff s6 s7 [] [] [] := Eff.modDb s6 d _
    have hb5 := e5.base hb4 (by simp)
    have e47 : Eff s4 s7 [] [] [(s.node b).page] := by
      have := e5.trans (e6.trans e7 hb5) hb4
      exact this.mono (by simp)
    have hpage7 : ∀ n, (s7.node n).page = (s4.node n).page := fun n => rfl
    have hother : ∀ p, p ≠ (s.node b).page → s7.pages p = s4.pages p := by
      intro p hp
      rw [hs7, St.modDb_pages, hs6, St.modPage_pages_of_ne _ _ hp, hs5,
        St.modPage_pages_of_ne _ _ hp]
    have hup' : ∀ x ∈ up', (s4.node x.1).page ≠ (s.node b).page := fun x hx => by
      rw [← hpage4 b hltb]
      exact hu.way.page_ne hx
    refine ⟨{
      eff := ?_
      grown := ?_
      perm := ?_
      length := hu.length
      page := ?_
      live := ?_
      way := hu.way.congr e47 hb4 ⟨rfl, rfl⟩ (fun _ _ => ⟨rfl, rfl⟩)
        (fun x hx => by simpa using hup' x hx) (by simp)
      owned := fun x hx => ?_
      linked := ?_
      parentL := hlp
      parentR := hrp
      db := ?_
      pindex := fun j hj => (hu.pindex j hj).trans Siblings.afterLeft_pindex
      parents := fun j hj h1 h2 h3 h4 => ?_ }, hother, fun _ => rfl⟩
    · have := e3.trans (hu.eff.trans e47 hb3) hb
      simp only [nil_append, append_nil, hup3] at this
      exact this.mono (by simp; tauto)
    · have := hu.grown.congr (T := s.pages) (U := s7.pages) (fun x hx => ?_) fun q hq => ?_
      · rwa [hpage3, hpath3] at this
      · rw [hpath3] at hx
        obtain ⟨y, hy, rfl⟩ := mem_map.mp hx
        exact (e3.page hb (h.way.knownUp y hy) (by simpa using h.way.page_ne hy)).symm
      · obtain ⟨y, hy, rfl⟩ := mem_map.mp hq
        exact hother _ (hup' y hy)
    · have := hu.perm
      rwa [hup3] at this
    · rw [tree_eq, hpage7, hpage4 b hltb, hs7, St.modDb_pages, hs6, St.modPage_pages_self, hs5,
        St.modPage_pages_self, ← hpage4 b hltb, ← tree_eq, hbt]
      rfl
    · rw [hpage7, hpage4 b hltb]
      have : s7.txn.gc = s4.txn.gc := rfl
      rw [this, hu.eff.gc, mem_append, not_or]
      refine ⟨h.live, fun hd => ?_⟩
      rcases mem_append.mp (hu.perm.symm.subset (mem_append_right _ hd)) with h1 | h1
      · rw [hup3] at h1
        exact hbnot h1
      · exact hu.eff.fresh_not_known hb3 h1 (e3.known h.way.known)
    · rw [Owned, tree_eq, hpage7, hother _ (hup' x hx)]
      exact hu.owned x hx
    · refine onPath_modPage f2 (onPath_modPage f1 hu.linked ?_) ?_
      · intro x hx
        obtain ⟨y, hy, rfl⟩ := mem_map.mp hx
        exact hup' y hy
      · intro x hx
        obtain ⟨y, hy, rfl⟩ := mem_map.mp hx
        exact hup' y hy
    · have h1 : s6.txn = s4.txn := rfl
      have h2 : s3.txn.db = s.txn.db := rfl
      rw [hs7]
      simp only [St.modDb, St.modTxn, h1, hu.db, h2]
      funext e
      by_cases he : e = d
      · simp [he]
      · simp [he]
    · rw [show (s7.node j).parent = (s4.node j).parent from rfl, hu.parents j hj h3 h4, hs3,
        Siblings.afterLeft_parent, if_neg (by simp [h1, h2])]

/-- Two siblings go into a branch and the branch into its ancestors. -/
theorem linkSplit_spec (h : Siblings g s R l r i b up) (hb : Base s R) (k : Nat) :
    wp (linkSplit env g d b l r k)
      (fun _ s' => Lost env s' ∨
        ∃ up' fresh dead, Linked g s s' R d l r i b k up up' fresh dead)
      (pageExits env (Refused env)) s := by
  refine linkSplit_left env g h fun fuel hfuel => ?_
  have hb3 : Base (Siblings.afterLeft s l r b i) R := (h.afterLeft_eff hb).base hb (by simp)
  have hown : Owned (Siblings.afterLeft s l r b i) b := by
    rw [Owned, Siblings.afterLeft_tree_self]
    exact h.owned
  refine wp_mono (setNode_spec env g d hfuel hb3 (h.afterLeft_way hb) hown) ?_ ?_
    (fun _ _ hf => hf) False.elim
  · rintro _ s4 ⟨up', fresh, dead, hu⟩
    exact wp_post (linkRight_hung env g h hb hu) (fun _ _ hl => .inr ⟨_, _, _, hl.1⟩)
  · rintro _ s4 ⟨hd, hr⟩
    exact (linkRight_writes g (Near.writeInv env s4) d r k).wp (Near.refl s4)
      (fun _ _ h => .inl ⟨h.doomed hd, hr⟩) (fun _ _ h => ⟨h.doomed hd, hr⟩) (fun _ _ _ => trivial) hr

/-- When the way above the branch is linked already only the page of the branch changes. -/
theorem linkSplit_owned (h : Siblings g s R l r i b up) (hb : Base s R) (k : Nat)
    (howned : ∀ x ∈ up, Owned s x.1)
    (hlink : layout.OnPath s.pages (s.node b).page (pagePath s up) (s.node (topNode b up)).page) :
    wp (linkSplit env g d b l r k)
      (fun _ s' => Linked g s s' R d l r i b k up up [] [] ∧
        (∀ p, p ≠ (s.node b).page → s'.pages p = s.pages p) ∧
        ∀ n, n ≠ l → n ≠ r → s'.node n = s.node n) X s := by
  refine linkSplit_left env g h fun fuel hfuel => ?_
  have hb3 : Base (Siblings.afterLeft s l r b i) R := (h.afterLeft_eff hb).base hb (by simp)
  have hw3 := h.afterLeft_way hb
  have hown : Owned (Siblings.afterLeft s l r b i) b := by
    rw [Owned, Siblings.afterLeft_tree_self]
    exact h.owned
  have howned3 : ∀ x ∈ up, Owned (Siblings.afterLeft s l r b i) x.1 := by
    intro x hx
    rw [Owned, Siblings.afterLeft_tree x.1 (h.way.page_ne hx)]
    exact howned x hx
  have hlink3 : layout.OnPath (Siblings.afterLeft s l r b i).pages
      ((Siblings.afterLeft s l r b i).node b).page (pagePath (Siblings.afterLeft s l r b i) up)
      ((Siblings.afterLeft s l r b i).node (topNode b up)).page := by
    rw [Siblings.afterLeft_page, Siblings.afterLeft_page,
      pagePath_congr fun x _ => Siblings.afterLeft_page]
    refine onPath_modPage _ hlink ?_
    intro x hx
    obtain ⟨y, hy, rfl⟩ := mem_map.mp hx
    exact h.way.page_ne hy
  refine setNode_owned env g d hfuel hw3 hown howned3 hlink3 ?_
  refine wp_post (linkRight_hung env g h hb (Hung.of_owned d hb3 hw3 howned3 hlink3)) ?_
  rintro _ s' ⟨hl, hp, hn⟩
  refine ⟨hl, fun p hne => ?_, fun n h1 h2 => ?_⟩
  · rw [hp p hne, St.modDb_pages]
    exact St.modPage_pages_of_ne _ _ hne
  · rw [hn n, St.modDb_node, Siblings.afterLeft_node, if_neg (by simp [h1, h2])]

namespace Linked

variable {g} {s' : St E} {k : Nat} {up' : List (Nat × Nat)} {fresh dead : List Nat}

variable (h : Linked g s s' R d l r i b k up up' fresh dead)

include h

theorem branch (hs : Siblings g s R l r i b up) : BranchOk g (s'.tree b) := by
  rw [h.page]
  exact ⟨hs.branch.type, hs.branch.pos, hs.branch.lt⟩

theorem ownedB (hs : Siblings g s R l r i b up) : Owned s' b := by
  rw [Owned, h.page, h.eff.step.txid]
  exact hs.owned

theorem page_not_mem (hb : Base s R) (hk : Known s R p) (hp : p ∉ upPages s up) :
    p ∉ upPages s' up' := by
  intro hmem
  rcases mem_append.mp (h.perm.symm.subset (mem_append_left _ hmem)) with h1 | h1
  · exact hp h1
  · exact h.eff.fresh_not_known hb h1 hk

theorem wayOf (hs : Siblings g s R l r i b up) (hb : Base s R) {j : Nat} (hn : n < s.txn.nused)
    (hkn : Known s R (s.node n).page) (hne : (s.node n).page ≠ (s.node b).page)
    (hnot : (s.node n).page ∉ upPages s up) (hp : (s'.node n).parent = some b)
    (hi : (s.node n).pindex = j) (hj : j ≤ (s.tree b).nkeys) : WayOk g s' R n ((b, j) :: up') := by
  have hpn : (s'.node n).page = (s.node n).page := h.eff.step.node n hn
  have hpb : (s'.node b).page = (s.node b).page := h.eff.step.node b hs.way.lt
  refine {
    chain := ⟨hp, (h.pindex n hn).trans hi, h.way.chain⟩
    lt := hn.trans_le h.eff.step.nused
    ltUp := ?_
    known := by rw [hpn]; exact h.eff.known hkn
    knownUp := ?_
    live := ?_
    nodup := ?_
    branch := ?_ }
  · rintro x hx
    rcases mem_cons.mp hx with rfl | hx
    · exact h.way.lt
    · exact h.way.ltUp x hx
  · rintro x hx
    rcases mem_cons.mp hx with rfl | hx
    · exact h.way.known
    · exact h.way.knownUp x hx
  · rintro x hx
    rcases mem_cons.mp hx with rfl | hx
    · exact h.live
    · exact h.way.live x hx
  · rw [hpn, upPages_cons]
    refine nodup_cons.mpr ⟨?_, h.way.nodup⟩
    rw [mem_cons, not_or, hpb]
    exact ⟨hne, h.page_not_mem hb hkn hnot⟩
  · rintro x hx
    rcases mem_cons.mp hx with rfl | hx
    · refine ⟨h.branch hs, ?_, le_of_eq (h.ownedB hs)⟩
      rw [h.page]
      exact hj
    · exact h.way.branch x hx

theorem wayL (hs : Siblings g s R l r i b up) (hb : Base s R) : WayOk g s' R l ((b, i) :: up') := by
  have hle := hs.le
  refine h.wayOf hs hb hs.ltL hs.knownL hs.neLB (fun hm => ?_) h.parentL hs.idxL (by omega)
  obtain ⟨x, hx, e⟩ := mem_map.mp hm
  exact hs.neL hx e.symm

theorem wayR (hs : Siblings g s R l r i b up) (hb : Base s R) :
    WayOk g s' R r ((b, i + 1) :: up') := by
  refine h.wayOf hs hb hs.ltR hs.knownR hs.neRB (fun hm => ?_) h.parentR hs.idxR hs.le
  obtain ⟨x, hx, e⟩ := mem_map.mp hm
  exact hs.neR hx e.symm

theorem linkL (hs : Siblings g s R l r i b up) :
    layout.OnPath s'.pages (s'.node l).page (pagePath s' ((b, i) :: up'))
      (s'.node (topNode b up')).page := by
  have hle := hs.le
  refine ⟨?_, h.linked⟩
  have hi : i ≤ (s'.tree b).nkeys := by
    rw [h.page]
    exact (Nat.le_succ i).trans hle
  have := getElem?_kids hi
  rw [h.eff.step.node l hs.ltL]
  refine this.trans ?_
  rw [h.page]
  simp only [EdBpt.linked]
  rw [store_of_ne _ _ (by omega), store_self]

theorem linkR (hs : Siblings g s R l r i b up) :
    layout.OnPath s'.pages (s'.node r).page (pagePath s' ((b, i + 1) :: up'))
      (s'.node (topNode b up')).page := by
  refine ⟨?_, h.linked⟩
  have hi : i + 1 ≤ (s'.tree b).nkeys := by
    rw [h.page]
    exact hs.le
  have := getElem?_kids hi
  rw [h.eff.step.node r hs.ltR]
  refine this.trans ?_
  rw [h.page]
  simp only [EdBpt.linked]
  rw [store_self]

end Linked

end LinkSplit

end Eddy
