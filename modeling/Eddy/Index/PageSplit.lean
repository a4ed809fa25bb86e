import Eddy.Index.LinkSplit

/-!
# Eddy — pages that are replaced or split

What the functions of `bpt.c` do with one page before they put the result into its parent.
-/

namespace Eddy

open Outcome Slots PageTree List

variable {E : Type} (env : Env E) (g : Geom)

/-- Two nodes of this transaction that take the place of the left one. -/
structure Halves (s : St E) (R : List Nat) (l r : Nat) (up : List (Nat × Nat)) : Prop where
  way : WayOk g s R l up
  ltR : r < s.txn.nused
  ownL : Owned s l
  ownR : Owned s r
  knownR : Known s R (s.node r).page
  idx : (s.node r).pindex = (s.node l).pindex + 1
  nodup : ((s.node l).page :: (s.node r).page :: upPages s up).Nodup

/-! ## Opening a slot in a branch -/

/-- A branch with the slot `eidx + 1` opened; the entries behind it come from `src`. -/
def EdBpt.opened (b src : EdBpt E) (eidx : Nat) : EdBpt E :=
  { b with
    ptr := blit b.ptr (eidx + 2) src.ptr (eidx + 1) (src.nkeys - eidx)
    key := blit b.key (eidx + 2) src.key (eidx + 1) (src.nkeys - eidx)
    nkeys := b.nkeys + 1 }

theorem St.modPage_modPage (s : St E) (p : Nat) (f f' : EdBpt E → EdBpt E) :
    (s.modPage p f).modPage p f' = s.modPage p fun b => f' (f b) := by
  unfold St.modPage
  simp only [if_true]
  congr 1
  funext q
  split <;> simp [*]

theorem wp_openBranchSlot {s : St E} {c src eidx : Nat} (hle : eidx ≤ (s.tree src).nkeys)
    (hlt : (s.tree src).nkeys + 2 ≤ g.branchOrder) {Q : Unit → St E → Prop}
    {X : Exits EdErr EdFault (St E)}
    (hQ : Q () (s.modPage (s.node c).page fun b => b.opened (s.tree src) eidx)) :
    wp (openBranchSlot g c src eidx) Q X s := by
  unfold openBranchSlot moveBranch
  simp only [wp_bind, wp_getTree, wp_ite, wp_modTree, wp_stuck]
  refine ⟨fun h => absurd hle (by omega), fun _ => ⟨fun _ => ?_, fun h => absurd ?_ h⟩⟩
  · rw [St.modPage_node, St.modPage_modPage]
    exact hQ
  · exact .inr ⟨by omega, by omega⟩

/-- A branch `b'` is the branch `b` with a free slot behind the child `i`. -/
structure OpenedAt (b b' : EdBpt E) (i : Nat) : Prop where
  nkeys : b'.nkeys = b.nkeys + 1
  ptrFront : ∀ j, j ≤ i → b'.ptr j = b.ptr j
  keyFront : ∀ j, j ≤ i → b'.key j = b.key j
  ptrBack : ∀ j, i < j → j ≤ b.nkeys → b'.ptr (j + 1) = b.ptr j
  keyBack : ∀ j, i < j → j ≤ b.nkeys → b'.key (j + 1) = b.key j

theorem EdBpt.opened_at {b c : EdBpt E} {i : Nat} (hn : c.nkeys = b.nkeys)
    (hptr : ∀ j, j ≤ i → c.ptr j = b.ptr j) (hkey : ∀ j, j ≤ i → c.key j = b.key j) :
    OpenedAt b (c.opened b i) i where
  nkeys := by simp [EdBpt.opened, hn]
  ptrFront j hj := by
    simp only [EdBpt.opened, blit]
    rw [if_neg (by omega)]
    exact hptr j hj
  keyFront j hj := by
    simp only [EdBpt.opened, blit]
    rw [if_neg (by omega)]
    exact hkey j hj
  ptrBack j hj hj' := by
    simp only [EdBpt.opened, blit]
    rw [if_pos (by omega)]
    congr 1
    omega
  keyBack j hj hj' := by
    simp only [EdBpt.opened, blit]
    rw [if_pos (by omega)]
    congr 1
    omega

theorem OpenedAt.kids {b b' : EdBpt E} {i l r k : Nat} (h : OpenedAt b b' i) (hi : i ≤ b.nkeys) :
    (b'.linked i l r k).kids = b.kids.take i ++ [l, r] ++ b.kids.drop (i + 1) := by
  refine kids_of_expand h.nkeys hi (fun j hj => ?_) ?_ ?_ fun j hj hj' => ?_
  · simp only [EdBpt.linked]
    rw [store_of_ne _ _ (by omega), store_of_ne _ _ (by omega)]
    exact h.ptrFront j hj.le
  · simp only [EdBpt.linked]
    rw [store_of_ne _ _ (by omega), store_self]
  · simp only [EdBpt.linked]
    rw [store_self]
  · simp only [EdBpt.linked]
    rw [store_of_ne _ _ (by omega), store_of_ne _ _ (by omega)]
    exact h.ptrBack j hj hj'

theorem OpenedAt.seps {b b' : EdBpt E} {i l r k : Nat} (h : OpenedAt b b' i) (hi : i ≤ b.nkeys) :
    (b'.linked i l r k).seps = b.seps.take i ++ [k] ++ b.seps.drop i := by
  refine seps_of_expand h.nkeys hi (fun j _ hj => ?_) ?_ fun j hj hj' => ?_
  · simp only [EdBpt.linked]
    rw [store_of_ne _ _ (by omega)]
    exact h.keyFront j hj
  · simp only [EdBpt.linked]
    rw [store_self]
  · simp only [EdBpt.linked]
    rw [store_of_ne _ _ (by omega)]
    exact h.keyBack j hj hj'

/-! ## Replacing a page by one of this transaction -/

/-- The node `c` of this transaction stands for the node `m`: it is its clone, or `m` itself. -/
structure Replaced (s s1 : St E) (R : List Nat) (m : Nat) (up : List (Nat × Nat)) (c : Nat)
    (fresh dead : List Nat) : Prop where
  id : c = m ∨ s.txn.nused ≤ c
  eff : Eff s s1 fresh dead [(s.node m).page]
  perm : ((s.node m).page :: fresh).Perm ((s1.node c).page :: dead)
  parent : ∀ k, k < s.txn.nused → (s1.node k).parent = (s.node k).parent
  pindex : ∀ k, k < s.txn.nused → (s1.node k).pindex = (s.node k).pindex
  way : WayOk g s1 R c up
  idx : (s1.node c).pindex = (s.node m).pindex
  live : (s1.node c).page ∉ s1.txn.gc
  owned : Owned s1 c
  db : s1.txn.db = s.txn.db

section Replaced

variable {g} {s s1 : St E} {R : List Nat} {m c p : Nat} {up : List (Nat × Nat)}

theorem CloneOf.mem_pg (hc : CloneOf s s1 m c p) : p ∈ s1.txn.pg := by
  have : p ∈ s1.txn.used := by rw [hc.eff.used]; simp
  exact mem_of_mem_take this

theorem CloneOf.base (hc : CloneOf s s1 m c p) (hb : Base s R)
    (hk : Known s R (s.node m).page) : Base s1 R :=
  hc.eff.base hb fun q hq => by
    rw [mem_singleton.mp hq]
    exact hc.eff.known hk

/-- A clone stands for the node it copies, whatever is stored in it. -/
theorem CloneOf.replaced (hc : CloneOf s s1 m c p) (hb : Base s R) (hw : WayOk g s R m up)
    (f : EdBpt E → EdBpt E) (hf : ∀ b, (f b).xid = b.xid) :
    Replaced g s (s1.modPage p f) R m up c [p] [(s.node m).page] := by
  have hb1 := hc.base hb hw.known
  have hpnot : ¬ Known s R p := hc.eff.fresh_not_known hb (by simp)
  have e : Eff s (s1.modPage p f) [p] [(s.node m).page] [] := by
    have := hc.eff.trans (Eff.modPage s1 p f (.inr hc.mem_pg) hf) hb
    simp only [append_nil, nil_append] at this
    exact this.trim hb.pgOk (by simp)
  have hpc : ((s1.modPage p f).node c).page = p := by rw [St.modPage_node, hc.node]
  have hway : WayOk g (s1.modPage p f) R m up :=
    hw.congr e hb ⟨hc.parent m hw.lt, hc.pindex m hw.lt⟩
      (fun x hx => ⟨hc.parent x.1 (hw.ltUp x hx), hc.pindex x.1 (hw.ltUp x hx)⟩) (by simp)
      fun x hx => by simpa using hw.page_ne hx
  exact {
    id := .inr (le_of_eq hc.id.symm)
    eff := e.mono (by simp)
    perm := by rw [hpc]; exact List.Perm.swap _ _ _
    parent := fun k hk => hc.parent k hk
    pindex := fun k hk => hc.pindex k hk
    way := by
      refine hway.of_copy hc.lt ?_ ?_ (by rw [hpc]; exact e.known_fresh (by simp)) ?_
      · rw [St.modPage_node, St.modPage_node, hc.node, hc.parent m hw.lt]
      · rw [St.modPage_node, St.modPage_node, hc.node, hc.pindex m hw.lt]
      · rw [hpc, upPages_congr fun x hx => e.step.node x.1 (hw.ltUp x hx)]
        intro hmem
        obtain ⟨x, hx, rfl⟩ := mem_map.mp hmem
        exact hpnot (hw.knownUp x hx)
    idx := by rw [St.modPage_node, hc.node]
    live := by
      rw [hpc, e.gc, mem_append, not_or]
      refine ⟨fun h => hpnot (hb.gcKnown p h), fun h => hpnot ?_⟩
      rw [mem_singleton.mp h]
      exact hw.known
    owned := by rw [Owned, tree_eq, hpc, e.freshXid p (by simp), e.step.txid]
    db := hc.db }

theorem Replaced.self (hb : Base s R) (hw : WayOk g s R m up) (hown : Owned s m)
    (hlive : (s.node m).page ∉ s.txn.gc) (f : EdBpt E → EdBpt E) (hf : ∀ b, (f b).xid = b.xid) :
    Replaced g s (s.modPage (s.node m).page f) R m up m [] [] where
  id := .inl rfl
  eff := Eff.modPage s _ f (.inl (ge_of_eq hown)) hf
  perm := List.Perm.refl _
  parent _ _ := rfl
  pindex _ _ := rfl
  way := hw.modPage hb hown f hf
  idx := rfl
  live := hlive
  owned := by
    rw [Owned, tree_modPage_self, hf]
    exact hown
  db := rfl

variable {fresh dead : List Nat}

variable (h : Replaced g s s1 R m up c fresh dead)

include h

theorem Replaced.base (hb : Base s R) (hk : Known s R (s.node m).page) : Base s1 R := by
  refine h.eff.base hb fun q hq => ?_
  rcases mem_cons.mp (h.perm.symm.subset (mem_cons_of_mem _ hq)) with rfl | h1
  · exact h.eff.known hk
  · exact h.eff.known_fresh h1

theorem Replaced.page_cases : (s1.node c).page = (s.node m).page ∨ (s1.node c).page ∈ fresh := by
  rcases mem_cons.mp (h.perm.symm.subset (mem_cons_self)) with h1 | h1
  · exact .inl h1
  · exact .inr h1

theorem Replaced.page_ne (hb : Base s R) {q : Nat} (hq : Known s R q) (hne : q ≠ (s.node m).page) :
    (s1.node c).page ≠ q := by
  rcases h.page_cases with h1 | h1
  · rw [h1]
    exact hne.symm
  · rintro rfl
    exact h.eff.fresh_not_known hb h1 hq

theorem Replaced.page_known {q : Nat} (hb : Base s R) (hq : Known s R q)
    (hne : q ≠ (s.node m).page) : s1.pages q = s.pages q :=
  h.eff.page hb hq (by simpa using hne)

theorem Replaced.tree_eq (hb : Base s R) {n : Nat} (hn : n < s.txn.nused)
    (hk : Known s R (s.node n).page) (hne : (s.node n).page ≠ (s.node m).page) :
    s1.tree n = s.tree n := by
  rw [Eddy.tree_eq, Eddy.tree_eq, h.eff.step.node n hn]
  exact h.page_known hb hk hne

end Replaced

/-! ## A branch with room -/

section Expand

variable {s : St E} {R : List Nat} {m i : Nat} {rest : List (Nat × Nat)}

theorem expandBranch_spec (hb : Base s R) (hw : WayOk g s R m rest)
    (hlive : (s.node m).page ∉ s.txn.gc) (hx : (s.tree m).xid ≤ s.txn.xid)
    (hbr : BranchOk g (s.tree m)) (hi : i ≤ (s.tree m).nkeys)
    (hroom : (s.tree m).nkeys ≠ g.branchOrder - 1) :
    wp (expandBranch env g m i)
      (fun c s1 => ∃ fresh dead, Replaced g s s1 R m rest c fresh dead ∧
        OpenedAt (s.tree m) (s1.tree c) i ∧ BranchOk g (s1.tree c))
      (pageExits env False) s := by
  have hlt := hbr.lt
  have hpos := hbr.pos
  unfold expandBranch
  simp only [wp_bind, wp_get, wp_ite, wp_pure']
  refine ⟨fun hold => ?_, fun hnew => ?_⟩
  · refine wp_post (edTxnClone_eff env hb hw.lt hw.known hlive) ?_
    rintro c s1 ⟨p, hc⟩
    have hmt : s1.tree m = s.tree m := hc.eff.tree hb hw.lt hw.known (by simp)
    have hcp : (s1.node c).page = p := by rw [hc.node]
    have hmp : (s1.node m).page ≠ p := by
      rw [hc.eff.step.node m hw.lt]
      intro e
      exact hc.eff.fresh_not_known hb (by simp) (e ▸ hw.known)
    unfold moveBranch
    simp only [wp_bind, wp_getTree, wp_ite, wp_modTree, wp_stuck]
    refine ⟨fun _ => ?_, fun h => absurd (.inr ⟨by omega, by omega⟩) h⟩
    rw [hmt, hcp]
    set f : EdBpt E → EdBpt E := fun b => { b with
      ptr := blit b.ptr 0 (s.tree m).ptr 0 (i + 1)
      key := blit b.key 0 (s.tree m).key 0 (i + 1) } with hf
    have hmt2 : (s1.modPage p f).tree m = s.tree m := by
      rw [tree_modPage_of_ne f hmp, hmt]
    refine wp_openBranchSlot g (by rw [hmt2]; exact hi) (by rw [hmt2]; omega) ?_
    rw [hmt2, St.modPage_node, hcp, St.modPage_modPage]
    have hrep := hc.replaced hb hw (fun b => (f b).opened (s.tree m) i) fun b => rfl
    refine ⟨_, _, hrep, ?_⟩
    have htree : (s1.modPage p fun b => (f b).opened (s.tree m) i).tree c
        = (f (s1.pages p)).opened (s.tree m) i := by
      rw [tree_eq, St.modPage_node, hcp, St.modPage_pages_self]
    have hat : OpenedAt (s.tree m) ((f (s1.pages p)).opened (s.tree m) i) i := by
      refine EdBpt.opened_at hc.nkeys (fun j hj => ?_) fun j hj => ?_
      · simp only [hf, blit]
        rw [if_pos (by omega)]
        congr 1
        omega
      · simp only [hf, blit]
        rw [if_pos (by omega)]
        congr 1
        omega
    rw [htree]
    exact ⟨hat, hc.type.trans hbr.type, by rw [hat.nkeys]; omega, by rw [hat.nkeys]; omega⟩
  · refine wp_openBranchSlot g hi (by omega) ?_
    have hown : Owned s m := le_antisymm hx (not_lt.mp hnew)
    refine ⟨_, _, Replaced.self hb hw hown hlive _ fun _ => rfl, ?_⟩
    rw [tree_modPage_self]
    have hat := EdBpt.opened_at (b := s.tree m) (c := s.tree m) (i := i) rfl (fun _ _ => rfl)
      fun _ _ => rfl
    exact ⟨hat, hbr.type, by rw [hat.nkeys]; omega, by rw [hat.nkeys]; omega⟩

end Expand

/-! ## Splitting a page -/

/-- The page of the node `m` was split: `left` stands for `m`, `right` is new. -/
structure PageSplit (s s' : St E) (R : List Nat) (m : Nat) (up : List (Nat × Nat))
    (left right : Nat) (fresh dead : List Nat) : Prop where
  idL : left = m ∨ s.txn.nused ≤ left
  idR : s.txn.nused ≤ right
  eff : Eff s s' fresh dead [(s.node m).page]
  perm : ((s.node m).page :: fresh).Perm ((s'.node left).page :: (s'.node right).page :: dead)
  parent : ∀ k, k < s.txn.nused → (s'.node k).parent = (s.node k).parent
  pindex : ∀ k, k < s.txn.nused → (s'.node k).pindex = (s.node k).pindex
  halves : Halves g s' R left right up
  liveL : (s'.node left).page ∉ s'.txn.gc
  liveR : (s'.node right).page ∉ s'.txn.gc

section PageSplit

variable {g} {s s1 s2 s3 : St E} {R fresh dead : List Nat} {m c r p : Nat}
  {up : List (Nat × Nat)}

theorem AllocOf.way {par : Option Nat} {pidx : Nat} (ha : AllocOf s s1 r p par pidx) (hb : Base s R)
    (hw : WayOk g s R m up) : WayOk g s1 R m up :=
  hw.congr ha.eff hb ⟨by rw [ha.nodes m hw.lt], by rw [ha.nodes m hw.lt]⟩
    (fun x hx => ⟨by rw [ha.nodes x.1 (hw.ltUp x hx)], by rw [ha.nodes x.1 (hw.ltUp x hx)]⟩)
    (by simp) (by simp)

/-- The page `p` for the right half of `m`, beside the page of `c`, which is for the left half. -/
structure Beside (s s2 : St E) (R : List Nat) (m c r p : Nat) : Prop where
  base : Base s2 R
  page : (s2.node m).page = (s.node m).page
  right : (s2.node r).page = p
  ne : p ≠ (s.node m).page
  neL : (s2.node c).page ≠ p
  pg : p ∈ s2.txn.pg

theorem AllocOf.beside {par : Option Nat} {pidx : Nat} (ha : AllocOf s s1 r p par pidx) (hb : Base s R)
    (hw : WayOk g s R m up) (hr : Replaced g s1 s2 R m up c fresh dead) : Beside s s2 R m c r p := by
  have hb1 : Base s1 R := ha.eff.base hb (by simp)
  have hw1 := ha.way hb hw
  have hm1 : (s1.node m).page = (s.node m).page := ha.eff.step.node m hw.lt
  have hne : p ≠ (s.node m).page := fun e => ha.eff.fresh_not_known hb (by simp) (e ▸ hw.known)
  have hmem : p ∈ s1.txn.used := by rw [ha.eff.used]; simp
  exact {
    base := hr.base hb1 hw1.known
    page := by rw [hr.eff.step.node m hw1.lt, hm1]
    right := by rw [hr.eff.step.node r ha.lt, ha.node]
    ne := hne
    neL := hr.page_ne hb1 (ha.eff.known_fresh (by simp)) (hm1 ▸ hne)
    pg := hr.eff.step.mem_pg (mem_of_mem_take hmem) }

/-- A new page for the right half, a replacement for the left half, and stores into the two. -/
theorem PageSplit.of_replaced (hb : Base s R) (hw : WayOk g s R m up)
    (ha : AllocOf s s1 r p (s.node m).parent ((s.node m).pindex + 1))
    (hr : Replaced g s1 s2 R m up c fresh dead) (he : Eff s2 s3 [] [] [p, (s2.node c).page])
    (hnode : ∀ n, s3.node n = s2.node n) :
    PageSplit g s s3 R m up c r (p :: fresh) dead := by
  have hb1 : Base s1 R := ha.eff.base hb (by simp)
  have hm1 : (s1.node m).page = (s.node m).page := ha.eff.step.node m hw.lt
  have hpnot : ¬ Known s R p := ha.eff.fresh_not_known hb (by simp)
  have hp1 : Known s1 R p := ha.eff.known_fresh (by simp)
  obtain ⟨hb2, -, hrp, hpm, hcp, -⟩ := ha.beside hb hw hr
  have hup : ∀ x ∈ up, (s2.node x.1).page = (s.node x.1).page := fun x hx => by
    have hlt := hw.ltUp x hx
    rw [hr.eff.step.node x.1 (hlt.trans_le ha.eff.step.nused), ha.eff.step.node x.1 hlt]
  have hpup : p ∉ upPages s2 up := by
    rw [upPages_congr hup]
    intro hmem
    obtain ⟨x, hx, rfl⟩ := mem_map.mp hmem
    exact hpnot (hw.knownUp x hx)
  have hway : WayOk g s3 R c up := by
    refine hr.way.congr he hb2 ⟨by rw [hnode], by rw [hnode]⟩
      (fun x _ => ⟨by rw [hnode], by rw [hnode]⟩) (fun x hx => ?_) (by simp)
    simp only [mem_cons, not_mem_nil, or_false, not_or]
    refine ⟨fun e => hpup (e ▸ mem_upPages hx), hr.way.page_ne hx⟩
  have hridx : (s2.node r).pindex = (s.node m).pindex + 1 := by
    rw [hr.pindex r ha.lt, ha.node]
  have hcidx : (s2.node c).pindex = (s.node m).pindex := by
    rw [hr.idx, ha.nodes m hw.lt]
  have hp2 : Known s2 R p := hr.eff.known hp1
  have hgc : ∀ q, q ∉ s2.txn.gc → q ∉ s3.txn.gc := fun q hq => by
    rw [he.gc, append_nil]
    exact hq
  refine {
    idL := ?_
    idR := le_of_eq ha.id.symm
    eff := ?_
    perm := ?_
    parent := fun k hk => ?_
    pindex := fun k hk => ?_
    halves := {
      way := hway
      ltR := (ha.lt.trans_le hr.eff.step.nused).trans_le he.step.nused
      ownL := ?_
      ownR := ?_
      knownR := ?_
      idx := by rw [hnode, hnode, hridx, hcidx]
      nodup := ?_ }
    liveL := by rw [hnode]; exact hgc _ hr.live
    liveR := ?_ }
  · rcases hr.id with h | h
    · exact .inl h
    · exact .inr (ha.eff.step.nused.trans h)
  · have := ha.eff.trans (hr.eff.trans he hb1) hb
    simp only [append_nil, nil_append, singleton_append, hm1] at this
    refine this.trim hb.pgOk ?_
    intro q hq
    simp only [mem_cons, not_mem_nil, or_false] at hq
    rcases hq with rfl | rfl | rfl
    · exact .inl (by simp)
    · exact .inr (by simp)
    · rcases hr.page_cases with h | h
      · exact .inl (by rw [h, hm1]; simp)
      · exact .inr (by simp [h])
  · rw [hnode, hnode, hrp, ← hm1]
    have := hr.perm
    rw [perm_iff_count] at this ⊢
    intro a
    have h1 := this a
    simp only [count_cons] at h1 ⊢
    omega
  · rw [hnode, hr.parent k (hk.trans_le ha.eff.step.nused), ha.nodes k hk]
  · rw [hnode, hr.pindex k (hk.trans_le ha.eff.step.nused), ha.nodes k hk]
  · rw [Owned, tree_eq, hnode, he.xid hb2 hr.way.known, he.step.txid]
    exact hr.owned
  · rw [Owned, tree_eq, hnode, hrp, he.xid hb2 hp2, hr.eff.xid hb1 hp1, ha.eff.freshXid p (by simp),
      he.step.txid, hr.eff.step.txid, ha.eff.step.txid]
  · rw [hnode, hrp]
    exact he.known hp2
  · rw [hnode, hnode, hrp, upPages_congr (t := s3) fun x _ => congrArg EdNode.page (hnode x.1)]
    refine nodup_cons.mpr ⟨?_, nodup_cons.mpr ⟨hpup, (nodup_cons.mp hr.way.nodup).2⟩⟩
    rw [mem_cons, not_or]
    exact ⟨hcp, (nodup_cons.mp hr.way.nodup).1⟩
  · rw [hnode, hrp]
    refine hgc p ?_
    rw [hr.eff.gc, ha.eff.gc, append_nil, mem_append, not_or]
    refine ⟨fun h => hpnot (hb.gcKnown p h), fun h => ?_⟩
    rcases mem_cons.mp (hr.perm.symm.subset (mem_cons_of_mem _ h)) with h1 | h1
    · exact hpm (h1.trans hm1)
    · exact hr.eff.fresh_not_known hb1 h1 hp1

variable (h : PageSplit g s s3 R m up c r fresh dead)

include h

theorem PageSplit.base (hb : Base s R) (hk : Known s R (s.node m).page) : Base s3 R := by
  refine h.eff.base hb fun q hq => ?_
  have := h.perm.symm.subset (mem_cons_of_mem _ (mem_cons_of_mem _ hq))
  rcases mem_cons.mp this with rfl | h1
  · exact h.eff.known hk
  · exact h.eff.known_fresh h1

theorem PageSplit.page_ne (hb : Base s R) {q : Nat} (hk : Known s R q) (hne : q ≠ (s.node m).page) :
    (s3.node c).page ≠ q ∧ (s3.node r).page ≠ q := by
  have key : ∀ x, x ∈ (s.node m).page :: fresh → x ≠ q := by
    rintro x hx rfl
    rcases mem_cons.mp hx with h1 | h1
    · exact hne h1
    · exact h.eff.fresh_not_known hb h1 hk
  exact ⟨key _ (h.perm.symm.subset (by simp)), key _ (h.perm.symm.subset (by simp))⟩

theorem PageSplit.id_ne {n : Nat} (hn : n < s.txn.nused) (hne : n ≠ m) : n ≠ c ∧ n ≠ r := by
  have hr := h.idR
  refine ⟨?_, by omega⟩
  rintro rfl
  rcases h.idL with h1 | h1
  · exact hne h1
  · omega

end PageSplit

end Eddy
