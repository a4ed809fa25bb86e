import Eddy.Index.PageSplit

/-!
# Eddy — splitting a full branch

A full branch is cut in front of the child `mid`; the separator at the cut moves up. The slot for
the two new children is then opened in the half in which they belong.

* `splitBranch_spec`: the pages after the cut (`BranchHalves`);
* `splitRoom_spec`: the half with the open slot (`HalfAt`, `Roomy`). When the separators say
  another half than the index does, the copy leaves the page.
-/

namespace Eddy

open Outcome Slots PageTree List

variable {E : Type} (env : Env E) (g : Geom)

/-! ## Splitting a branch -/

/-- The branches `bl` and `br` are the halves of the branch `b`, split in front of child `mid`. -/
structure BranchHalves (b bl br : EdBpt E) (mid : Nat) : Prop where
  typeL : bl.type = .branch
  typeR : br.type = .branch
  nkeysL : bl.nkeys = mid - 1
  nkeysR : br.nkeys = b.nkeys - mid
  ptrL : ∀ j, j < mid → bl.ptr j = b.ptr j
  keyL : ∀ j, j < mid → bl.key j = b.key j
  ptrR : ∀ j, mid + j ≤ b.nkeys → br.ptr j = b.ptr (mid + j)
  keyR : ∀ j, mid + j ≤ b.nkeys → br.key j = b.key (mid + j)

theorem St.modPage_id (s : St E) (p : Nat) : s.modPage p id = s := by
  unfold St.modPage
  have : (fun q => if q = p then id (s.pages p) else s.pages q) = s.pages := by
    funext q
    split
    · rename_i h
      rw [h]
      rfl
    · rfl
  rw [this]

section SplitBranch

variable {s : St E} {R : List Nat} {m mid : Nat} {rest : List (Nat × Nat)}

theorem splitLeft_spec (hb : Base s R) (hw : WayOk g s R m rest)
    (hlive : (s.node m).page ∉ s.txn.gc) (hx : (s.tree m).xid ≤ s.txn.xid)
    (hmid : mid ≤ g.branchOrder) :
    wp (splitLeft env g m mid)
      (fun c s1 => ∃ fresh dead, Replaced g s s1 R m rest c fresh dead ∧
        s1.tree m = s.tree m ∧ (c ≠ m → (s1.node c).page ≠ (s.node m).page) ∧
        (s1.tree c).type = (s.tree m).type ∧
        (∀ j, j < mid → (s1.tree c).ptr j = (s.tree m).ptr j) ∧
        ∀ j, j < mid → (s1.tree c).key j = (s.tree m).key j)
      (pageExits env False) s := by
  unfold splitLeft
  simp only [wp_bind, wp_get, wp_ite, wp_pure']
  refine ⟨fun hold => ?_, fun hnew => ?_⟩
  · refine wp_post (edTxnClone_eff env hb hw.lt hw.known hlive) ?_
    rintro c s1 ⟨p, hc⟩
    have hmt : s1.tree m = s.tree m := hc.eff.tree hb hw.lt hw.known (by simp)
    have hcp : (s1.node c).page = p := by rw [hc.node]
    have hmp : (s.node m).page ≠ p := fun e =>
      hc.eff.fresh_not_known hb (by simp) (e ▸ hw.known)
    unfold moveBranch
    simp only [wp_bind, wp_getTree, wp_ite, wp_modTree, wp_stuck]
    refine ⟨fun _ => ?_, fun h => absurd (.inr ⟨by omega, by omega⟩) h⟩
    rw [hcp, hmt]
    refine ⟨_, _, hc.replaced hb hw _ fun _ => rfl, ?_, ?_, ?_⟩
    · rw [tree_modPage_of_ne _ (by rw [hc.eff.step.node m hw.lt]; exact hmp), hmt]
    · intro _
      rw [St.modPage_node, hcp]
      exact hmp.symm
    · rw [tree_eq, St.modPage_node, hcp, St.modPage_pages_self]
      refine ⟨hc.type, fun j hj => ?_, fun j hj => ?_⟩
      · simp only [blit]
        rw [if_pos (by omega)]
        congr 1
        omega
      · simp only [blit]
        rw [if_pos (by omega)]
        congr 1
        omega
  · have hown : Owned s m := le_antisymm hx (not_lt.mp hnew)
    have := Replaced.self hb hw hown hlive id fun _ => rfl
    rw [St.modPage_id] at this
    exact ⟨_, _, this, by simp⟩

theorem splitBranch_spec (hb : Base s R) (hw : WayOk g s R m rest)
    (hlive : (s.node m).page ∉ s.txn.gc) (hx : (s.tree m).xid ≤ s.txn.xid)
    (hbr : BranchOk g (s.tree m)) (hmid : mid ≤ (s.tree m).nkeys) :
    wp (splitBranch env g m mid)
      (fun lr s' => ∃ fresh dead, PageSplit g s s' R m rest lr.1 lr.2 fresh dead ∧
        BranchHalves (s.tree m) (s'.tree lr.1) (s'.tree lr.2) mid ∧ s'.txn.db = s.txn.db)
      (pageExits env False) s := by
  have hlt := hbr.lt
  unfold splitBranch
  simp only [wp_bind, wp_getNode]
  refine wp_post (edTxnAlloc_eff env hb _ _) ?_
  rintro r s1 ⟨p, ha⟩
  have hb1 : Base s1 R := ha.eff.base hb (by simp)
  have hm1 : (s1.node m).page = (s.node m).page := ha.eff.step.node m hw.lt
  have hmt1 : s1.tree m = s.tree m := ha.eff.tree hb hw.lt hw.known (by simp)
  have hw1 := ha.way hb hw
  have hlive1 : (s1.node m).page ∉ s1.txn.gc := by
    rw [hm1, ha.eff.gc, append_nil]
    exact hlive
  refine wp_post (splitLeft_spec env g hb1 hw1 hlive1
    (by rw [hmt1, ha.eff.step.txid]; exact hx) (by omega)) ?_
  rintro c s2 ⟨fresh, dead, hr, hmt2, hcm, htype, hptr, hkey⟩
  obtain ⟨hb2, hm2, hrp, hpm, hcp, hppg⟩ := ha.beside hb hw hr
  -- the stores into the halves
  set b := s.tree m with hbdef
  rw [hmt1] at hmt2 htype hptr hkey
  unfold moveBranch
  simp only [wp_getTree, wp_modTree, wp_bind, wp_ite, wp_stuck, wp_pure',
    St.modPage_node, hrp]
  rw [hmt2]
  refine ⟨fun _ => ?_, fun h => absurd (.inr ⟨by omega, by omega⟩) h⟩
  set f1 : EdBpt E → EdBpt E := fun c => { c with type := .branch, nkeys := b.nkeys - mid } with hf1
  set f2 : EdBpt E → EdBpt E := fun c => { c with nkeys := mid - 1 } with hf2
  set s3 := s2.modPage p f1 with hs3
  set s4 := s3.modPage (s2.node c).page f2 with hs4
  -- the page the right half is copied from still has its slots
  have hsrc : (s4.tree m).ptr = b.ptr ∧ (s4.tree m).key = b.key := by
    have h3 : s3.tree m = b := by
      rw [hs3, tree_modPage_of_ne f1 (by rw [hm2]; exact hpm.symm), hmt2]
    by_cases hc : c = m
    · subst hc
      have : s4.tree c = f2 (s3.tree c) := tree_modPage_self (s := s3) f2
      rw [this, h3]
      exact ⟨rfl, rfl⟩
    · have hne : (s3.node m).page ≠ (s2.node c).page := by
        rw [hs3, St.modPage_node, hm2]
        have := hcm hc
        rw [hm1] at this
        exact this.symm
      have : s4.tree m = s3.tree m := tree_modPage_of_ne f2 hne
      rw [this, h3]
      exact ⟨rfl, rfl⟩
  set f3 : EdBpt E → EdBpt E := fun c => { c with
    ptr := blit c.ptr 0 (s4.tree m).ptr mid (g.branchOrder - mid)
    key := blit c.key 0 (s4.tree m).key mid (g.branchOrder - mid) } with hf3
  have e3 : Eff s2 s3 [] [] [p] := Eff.modPage s2 p f1 (.inr hppg) fun _ => rfl
  have hxid3 : s3.txn.xid ≤ (s3.pages (s2.node c).page).xid := by
    rw [hs3, St.modPage_pages_of_ne _ _ hcp]
    exact ge_of_eq hr.owned
  have e4 : Eff s3 s4 [] [] [(s2.node c).page] := Eff.modPage s3 _ f2 (.inl hxid3) fun _ => rfl
  have e5 : Eff s4 (s4.modPage p f3) [] [] [p] := Eff.modPage s4 p f3 (.inr hppg) fun _ => rfl
  have e25 : Eff s2 (s4.modPage p f3) [] [] [p, (s2.node c).page] := by
    have := e3.trans (e4.trans e5 (e3.base hb2 (by simp))) hb2
    exact this.mono (by simp)
  refine ⟨_, _, PageSplit.of_replaced hb hw ha hr e25 fun n => rfl, ?_, ?_⟩
  · have hL : (s4.modPage p f3).tree c = f2 (s2.tree c) := by
      have h1 : s4.tree c = f2 (s3.tree c) := tree_modPage_self (s := s3) f2
      rw [tree_modPage_of_ne (s := s4) f3 hcp, h1, hs3, tree_modPage_of_ne f1 hcp]
    have hR : (s4.modPage p f3).tree r = f3 (f1 (s2.pages p)) := by
      have hrp4 : ((s4.modPage p f3).node r).page = p := hrp
      rw [tree_eq, hrp4, St.modPage_pages_self, hs4, St.modPage_pages_of_ne _ _ hcp.symm, hs3,
        St.modPage_pages_self]
    rw [hL, hR]
    exact {
      typeL := htype.trans hbr.type
      typeR := rfl
      nkeysL := rfl
      nkeysR := rfl
      ptrL := hptr
      keyL := hkey
      ptrR := fun j hj => by
        simp only [hf3, blit, hsrc.1]
        rw [if_pos (by omega), Nat.sub_zero]
      keyR := fun j hj => by
        simp only [hf3, blit, hsrc.2]
        rw [if_pos (by omega), Nat.sub_zero] }
  · have h1 : (s4.modPage p f3).txn = s2.txn := rfl
    rw [h1, hr.db, ha.db]

end SplitBranch

section Level

variable {b bl br b' : EdBpt E} {i k mid pl pr : Nat}

theorem BranchHalves.drop_seps (hm : 1 ≤ mid) (hle : mid ≤ b.nkeys) :
    b.seps.drop (mid - 1) = b.key mid :: b.seps.drop mid := by
  have hlt : mid - 1 < b.seps.length := by simp; omega
  rw [drop_eq_getElem_cons hlt, Nat.sub_add_cancel hm]
  congr 1
  have := getElem?_seps (b := b) (i := mid - 1) (by omega)
  rw [Nat.sub_add_cancel hm] at this
  exact (List.getElem?_eq_some_iff.mp this).2

theorem BranchHalves.parts (h : BranchHalves b bl br mid) (hm : 1 ≤ mid) (hle : mid ≤ b.nkeys) :
    bl.kids = b.kids.take mid ∧ bl.seps = b.seps.take (mid - 1) ∧
      br.kids = b.kids.drop mid ∧ br.seps = b.seps.drop mid :=
  ⟨kids_of_take hm h.nkeysL (by omega) h.ptrL,
    seps_of_take h.nkeysL (by omega) fun j _ hj => h.keyL j hj,
    kids_of_drop h.nkeysR hle h.ptrR, seps_of_drop h.nkeysR fun j _ hj => h.keyR j hj⟩

theorem BranchHalves.left (h : BranchHalves b bl br mid) (hm : 1 ≤ mid) (hle : mid ≤ b.nkeys)
    (hi : i < mid) (ho : OpenedAt bl b' i) :
    (b'.linked i pl pr k).kids ++ br.kids = b.kids.take i ++ [pl, pr] ++ b.kids.drop (i + 1) ∧
      (b'.linked i pl pr k).seps ++ b.key mid :: br.seps
        = b.seps.take i ++ [k] ++ b.seps.drop i := by
  obtain ⟨hkL, hsL, hkR, hsR⟩ := h.parts hm hle
  have hil : i ≤ bl.nkeys := by rw [h.nkeysL]; omega
  constructor
  · rw [ho.kids hil, hkL, hkR]
    exact Layout.splice_left _ _ hi.le (by omega)
  · rw [ho.seps hil, hsL, hsR, ← BranchHalves.drop_seps hm hle]
    exact Layout.splice_left _ _ (by omega) (by omega)

theorem BranchHalves.right (h : BranchHalves b bl br mid) (hm : 1 ≤ mid) (hle : mid ≤ b.nkeys)
    (hmi : mid ≤ i) (hi : i ≤ b.nkeys) (ho : OpenedAt br b' (i - mid)) :
    bl.kids ++ (b'.linked (i - mid) pl pr k).kids
        = b.kids.take i ++ [pl, pr] ++ b.kids.drop (i + 1) ∧
      bl.seps ++ b.key mid :: (b'.linked (i - mid) pl pr k).seps
        = b.seps.take i ++ [k] ++ b.seps.drop i := by
  obtain ⟨hkL, hsL, hkR, hsR⟩ := h.parts hm hle
  have hir : i - mid ≤ br.nkeys := by rw [h.nkeysR]; omega
  constructor
  · rw [ho.kids hir, hkL, hkR, show i - mid + 1 = i + 1 - mid by omega]
    exact Layout.splice_right _ _ hmi (by omega)
  · have htake : b.seps.take (mid - 1) ++ [b.key mid] = b.seps.take mid := by
      have h1 := BranchHalves.drop_seps hm hle
      have h2 : (b.seps.drop (mid - 1)).take 1 = [b.key mid] := by rw [h1]; rfl
      rw [← h2, ← take_add, Nat.sub_add_cancel hm]
    rw [ho.seps hir, hsL, hsR, append_cons, htake]
    exact Layout.splice_right _ _ hmi hmi

end Level

/-! ## Room for the children in one of the halves -/

/-- Which half of a split branch takes the children of slot `i`, and at which index. -/
inductive HalfAt (left right mid i : Nat) : Nat → Nat → Prop
  | left (h : i < mid) : HalfAt left right mid i left i
  | right (h : mid ≤ i) : HalfAt left right mid i right (i - mid)

theorem HalfAt.cases {left right mid i half idx : Nat} (h : HalfAt left right mid i half idx) :
    half = left ∧ idx = i ∧ i < mid ∨ half = right ∧ idx = i - mid ∧ mid ≤ i := by
  cases h with
  | left h => exact .inl ⟨rfl, rfl, h⟩
  | right h => exact .inr ⟨rfl, rfl, h⟩

/-- The half has an open slot, and the children know their indices in it. -/
structure Roomy (s s' : St E) (l r half idx : Nat) : Prop where
  eff : Eff s s' [] [] [(s.node half).page]
  opened : OpenedAt (s.tree half) (s'.tree half) idx
  type : (s'.tree half).type = (s.tree half).type
  parent : ∀ j, (s'.node j).parent = (s.node j).parent
  pindex : ∀ j, j ≠ l → j ≠ r → (s'.node j).pindex = (s.node j).pindex
  idxL : (s'.node l).pindex = idx
  idxR : (s'.node r).pindex = idx + 1
  db : s'.txn.db = s.txn.db

theorem splitRoom_spec {s : St E} {R : List Nat} {l r left right i mid k q : Nat} (hb : Base s R)
    (hl : (s.node l).pindex = i) (hr : (s.node r).pindex = i + 1) (hlr : l ≠ r)
    (hownL : Owned s left) (hownR : Owned s right)
    (hnL : (s.tree left).nkeys = mid - 1) (hnR : i - mid ≤ (s.tree right).nkeys)
    (hmid : 1 ≤ mid) (hoL : mid + 1 ≤ g.branchOrder)
    (hoR : (s.tree right).nkeys + 2 ≤ g.branchOrder) :
    wp (splitRoom g l r left right mid k q)
      (fun half s' => ∃ idx, HalfAt left right mid i half idx ∧ Roomy s s' l r half idx)
      (pageExits env (¬ (k < q ↔ i < mid))) s := by
  unfold splitRoom
  simp only [wp_bind, wp_getNode, wp_ite, wp_pure', wp_stuck, hl]
  refine ⟨fun hlt => ?_, fun hge => ⟨fun him h => hge (h.mpr him), fun him => ?_⟩⟩
  · by_cases him : i < mid
    · refine wp_openBranchSlot g (by omega) (by omega) ⟨i, .left him, ?_⟩
      exact {
        eff := Eff.modPage s _ _ (.inl (ge_of_eq hownL)) fun _ => rfl
        opened := by
          rw [tree_modPage_self]
          exact EdBpt.opened_at rfl (fun _ _ => rfl) fun _ _ => rfl
        type := by rw [tree_modPage_self]; rfl
        parent := fun _ => rfl
        pindex := fun _ _ _ => rfl
        idxL := hl
        idxR := hr
        db := rfl }
    · -- the left half is shorter than the index: the copy would leave the page
      unfold openBranchSlot
      simp only [wp_bind, wp_getTree, wp_ite, wp_stuck]
      exact ⟨fun _ h => him (h.mp hlt), fun h => absurd (by omega) h⟩
  · simp only [wp_modNode]
    set s1 := s.modNode l (fun x => { x with pindex := x.pindex - mid }) with hs1
    set s2 := s1.modNode r (fun y => { y with pindex := i - mid + 1 }) with hs2
    have e1 : Eff s s1 [] [] [] := Eff.modNode s l _ rfl rfl
    have e2 : Eff s1 s2 [] [] [] := Eff.modNode s1 r _ rfl rfl
    have hnode : ∀ n, (s2.node n).page = (s.node n).page ∧
        (s2.node n).parent = (s.node n).parent := by
      intro n
      by_cases h2 : n = r
      · subst h2
        rw [hs2, St.modNode_node_self, hs1, St.modNode_node_of_ne _ _ hlr.symm]
        exact ⟨rfl, rfl⟩
      · rw [hs2, St.modNode_node_of_ne _ _ h2]
        by_cases h1 : n = l
        · subst h1
          rw [hs1, St.modNode_node_self]
          exact ⟨rfl, rfl⟩
        · rw [hs1, St.modNode_node_of_ne _ _ h1]
          exact ⟨rfl, rfl⟩
    have htree : s2.tree right = s.tree right := by
      rw [tree_eq, tree_eq, (hnode right).1]
      rfl
    refine wp_openBranchSlot g (by rw [htree]; exact hnR) (by rw [htree]; exact hoR)
      ⟨i - mid, .right (by omega), ?_⟩
    have hx : s2.txn.xid ≤ (s2.pages (s2.node right).page).xid := by
      rw [← tree_eq, htree]
      exact ge_of_eq hownR
    have e3 := Eff.modPage s2 (s2.node right).page
      (fun b => b.opened (s2.tree right) (i - mid)) (.inl hx) fun _ => rfl
    exact {
      eff := by
        have := e1.trans (e2.trans e3 (e1.base hb (by simp))) hb
        exact this.mono (by simp [(hnode right).1])
      opened := by
        rw [tree_modPage_self, htree]
        exact EdBpt.opened_at rfl (fun _ _ => rfl) fun _ _ => rfl
      type := by
        rw [tree_modPage_self, htree]
        rfl
      parent := fun j => (hnode j).2
      pindex := fun j h1 h2 => by
        rw [St.modPage_node, hs2, St.modNode_node_of_ne _ _ h2, hs1, St.modNode_node_of_ne _ _ h1]
      idxL := by
        rw [St.modPage_node, hs2, St.modNode_node_of_ne _ _ hlr, hs1, St.modNode_node_self]
        simp only [hl]
      idxR := by rw [St.modPage_node, hs2, St.modNode_node_self]
      db := rfl }

end Eddy
