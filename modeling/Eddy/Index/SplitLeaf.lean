import Eddy.Index.LeafRoom

/-!
# Eddy — splitting a full leaf

The right half of the leaf moves to a new page, the left half stays or is cloned, and the slot for
the new entry is opened in the half in which it belongs.
-/

namespace Eddy

open Outcome Slots PageTree Layout List

variable {E : Type} (env : Env E) (g : Geom) {b : EdBpt E} {m k i : Nat}
  {X : Exits EdErr EdFault (St E)} {c : EdTxnDb}

/-! ## Halves of a leaf -/

/-- The first `m` entries of a leaf. -/
def EdBpt.leafTake (b : EdBpt E) (m : Nat) : EdBpt E := { b with nkeys := m }

/-- The entries of a leaf from slot `m` on. -/
def EdBpt.leafDrop (b : EdBpt E) (m : Nat) : EdBpt E :=
  { b with nkeys := b.nkeys - m, ent := fun j => b.ent (m + j) }

theorem ents_leafTake (h : m ≤ b.nkeys) : (b.leafTake m).ents = b.ents.take m := by
  simp [EdBpt.ents, EdBpt.leafTake, take_slots _ h]

theorem ents_leafDrop (b : EdBpt E) (m : Nat) : (b.leafDrop m).ents = b.ents.drop m := by
  simp [EdBpt.ents, EdBpt.leafDrop, drop_slots]

/-- The slot `i` is free in `b'`, the entries around it are those of `b`. -/
structure SlotFree (b b' : EdBpt E) (i : Nat) : Prop where
  front : ∀ j, j < i → b'.ent j = b.ent j
  back : ∀ j, i ≤ j → j < b.nkeys → b'.ent (j + 1) = b.ent j

/-- The entries of the two halves of a leaf that was cut at `mid`, with a free slot for the new
entry in one of them. -/
inductive HalvesAt (b bl br : EdBpt E) (mid eidx : Nat) : Prop
  | left (h : eidx < mid) (free : SlotFree (b.leafTake mid) bl eidx)
      (same : ∀ j, j < b.nkeys - mid → br.ent j = b.ent (mid + j))
  | right (h : mid ≤ eidx) (same : ∀ j, j < mid → bl.ent j = b.ent j)
      (free : SlotFree (b.leafDrop mid) br (eidx - mid))

section Split

variable {g} {s s4 s5 : St E} {R fresh dead : List Nat} {d : EdDb} {n l r mid eidx : Nat}
  {up : List (Nat × Nat)}

/-- What is stored in the halves does not matter for their place. -/
theorem PageSplit.stores (hp : PageSplit g s s4 R n up l r fresh dead) (hb : Base s R)
    (hw : WayOk g s R n up) (h : Stores s4 s5 [(s4.node l).page, (s4.node r).page]) :
    PageSplit g s s5 R n up l r fresh dead := by
  have hb4 := hp.base hb hw.known
  have hh := hp.halves
  have he : Eff s4 s5 [] [] [(s4.node l).page, (s4.node r).page] := h.eff fun p hp => by
    rcases mem_cons.mp hp with rfl | hp
    · exact ge_of_eq hh.ownL
    · rw [mem_singleton.mp hp]
      exact ge_of_eq hh.ownR
  have hgc : s5.txn.gc = s4.txn.gc := by rw [he.gc, append_nil]
  have hlt : s5.txn.nused = s4.txn.nused := by rw [h.eq]
  have hup : upPages s5 up = upPages s4 up := upPages_congr fun x _ => by rw [h.node]
  have hnd := hh.nodup
  refine {
    idL := hp.idL
    idR := hp.idR
    eff := ?_
    perm := by rw [h.node, h.node]; exact hp.perm
    parent := fun k hk => by rw [h.node]; exact hp.parent k hk
    pindex := fun k hk => by rw [h.node]; exact hp.pindex k hk
    halves := {
      way := ?_
      ltR := by rw [hlt]; exact hh.ltR
      ownL := ?_
      ownR := ?_
      knownR := by rw [h.node]; exact he.known hh.knownR
      idx := by rw [h.node, h.node]; exact hh.idx
      nodup := by rw [h.node, h.node, hup]; exact hnd }
    liveL := by rw [h.node, hgc]; exact hp.liveL
    liveR := by rw [h.node, hgc]; exact hp.liveR }
  · have := hp.eff.trans he hb
    simp only [append_nil] at this
    refine this.trim hb.pgOk fun q hq => ?_
    have hmem : q ∈ (s.node n).page :: fresh := by
      rcases mem_append.mp hq with h1 | h1
      · rw [mem_singleton.mp h1]
        exact mem_cons_self
      · refine hp.perm.symm.subset ?_
        rcases mem_cons.mp h1 with rfl | h1
        · exact mem_cons_self
        · rw [mem_singleton.mp h1]
          exact mem_cons_of_mem _ mem_cons_self
    rcases mem_cons.mp hmem with rfl | h1
    · exact .inl (by simp)
    · exact .inr h1
  · refine hh.way.congr he hb4 ⟨by rw [h.node], by rw [h.node]⟩
      (fun x _ => ⟨by rw [h.node], by rw [h.node]⟩) (fun x hx hmem => ?_) (by simp)
    have hxu : (s4.node x.1).page ∈ upPages s4 up := mem_upPages hx
    rcases mem_cons.mp hmem with h1 | h1
    · exact (nodup_cons.mp hnd).1 (mem_cons_of_mem _ (h1 ▸ hxu))
    · exact (nodup_cons.mp (nodup_cons.mp hnd).2).1 (mem_singleton.mp h1 ▸ hxu)
  · rw [Owned, tree_eq, h.node, h.xids, he.step.txid]
    exact hh.ownL
  · rw [Owned, tree_eq, h.node, h.xids, he.step.txid]
    exact hh.ownR

variable (g) in
/-- The two pages of a leaf that is split, before the entries are moved. -/
structure LeafCut (s s4 : St E) (R : List Nat) (n : Nat) (up : List (Nat × Nat)) (mid l r : Nat)
    (fresh dead : List Nat) : Prop where
  split : PageSplit g s s4 R n up l r fresh dead
  typeL : (s4.tree l).type = (s.tree n).type
  typeR : (s4.tree r).type = .leaf
  nkeysL : (s4.tree l).nkeys = mid
  nkeysR : (s4.tree r).nkeys = (s.tree n).nkeys - mid
  src : (s4.tree n).ent = (s.tree n).ent
  left_ne : l ≠ n → (s4.node l).page ≠ (s4.node n).page
  right_ne : (s4.node r).page ≠ (s4.node n).page
  db : s4.txn.db = s.txn.db

/-- The split point and the index of the new entry are such that no copy leaves a page. -/
def SplitFits (g : Geom) (b : EdBpt E) (mid eidx : Nat) : Prop :=
  eidx ≤ b.nkeys ∧ b.nkeys = g.leafOrder ∧ 1 ≤ mid ∧ mid < b.nkeys

/-- The entries of the halves after they were moved, and the cursor on the new slot. -/
structure LeafMoved (b : EdBpt E) (s4 s5 : St E) (d : EdDb) (l r mid eidx : Nat)
    (f : EdTxnDb → EdTxnDb) : Prop where
  stores : Stores s4 s5 [(s4.node l).page, (s4.node r).page]
  halves : HalvesAt b (s5.tree l) (s5.tree r) mid eidx
  header : (s5.tree l).type = (s4.tree l).type ∧ (s5.tree l).nkeys = (s4.tree l).nkeys ∧
    (s5.tree r).type = (s4.tree r).type ∧ (s5.tree r).nkeys = (s4.tree r).nkeys
  db : s5.txn.db = (s4.modDb d f).txn.db

theorem copyLeft_spec {x : St E} (hne : l ≠ n → (x.node l).page ≠ (x.node n).page)
    (hU : ¬ m ≤ g.leafOrder → X.stuck) :
    wp (Prog.when (l ≠ n) (moveLeaf g l 0 n 0 m))
      (fun _ y => Stores x y [(x.node l).page] ∧ y.txn = x.txn ∧
        (y.tree n).ent = (x.tree n).ent ∧ (y.tree l).type = (x.tree l).type ∧
        (y.tree l).nkeys = (x.tree l).nkeys ∧ ∀ j, j < m → (y.tree l).ent j = (x.tree n).ent j)
      X x := by
  rw [wp_when]
  refine ⟨fun hln => wp_moveLeaf g (fun _ hno => hU fun h => hno (by omega)) ?_, fun hln => ?_⟩
  · set f : EdBpt E → EdBpt E := fun c => c.copyEnt (x.tree n) 0 0 m with hf
    refine ⟨(Stores.refl x _).modPage (by simp) f fun _ => rfl, rfl, ?_, ?_⟩
    · rw [tree_modPage_of_ne f (hne hln).symm]
    · rw [tree_modPage_self]
      refine ⟨rfl, rfl, fun j hj => ?_⟩
      simp only [hf, EdBpt.copyEnt, blit]
      rw [if_pos (by omega)]
      congr 1
      omega
  · obtain rfl : l = n := not_not.mp hln
    exact ⟨Stores.refl x _, rfl, rfl, rfl, rfl, fun _ _ => rfl⟩

theorem splitIntoLeft_spec (hc : LeafCut g s s4 R n up mid l r fresh dead) (h : eidx < mid)
    (hfit : SplitFits g (s.tree n) mid eidx) :
    wp (splitIntoLeft g d n l r mid eidx)
      (fun _ s5 => LeafMoved (s.tree n) s4 s5 d l r mid eidx
        fun c => { c with find := some l, entry := some ⟨(s4.node l).page, eidx⟩ }) X s4 := by
  obtain ⟨hle, hfull, hpos, hlt⟩ := hfit
  have hlr : (s4.node l).page ≠ (s4.node r).page := fun e =>
    (nodup_cons.mp hc.split.halves.nodup).1 (e ▸ mem_cons_self)
  have hsrc := hc.src
  set b := s.tree n with hb
  unfold splitIntoLeft
  simp only [wp_bind, wp_modDb]
  -- the right half
  refine wp_moveLeaf g (fun _ hno => absurd ⟨by omega, by omega⟩ hno) ?_
  rw [St.modDb_node, St.modDb_tree, St.modDb_modPage]
  set fR : EdBpt E → EdBpt E := fun c => c.copyEnt (s4.tree n) 0 mid (g.leafOrder - mid) with hfR
  set fd : EdTxnDb → EdTxnDb := fun c => { c with find := some l } with hfd
  set sB := (s4.modPage (s4.node r).page fR).modDb d fd with hsB
  have hB : Stores s4 sB [(s4.node l).page, (s4.node r).page] :=
    ((Stores.refl s4 _).modPage (by simp) fR fun _ => rfl).modDb d fd
  have hnB : sB.tree n = s4.tree n := tree_modPage_of_ne fR hc.right_ne.symm
  have hlB : sB.tree l = s4.tree l := tree_modPage_of_ne fR hlr
  have hrB : sB.tree r = fR (s4.tree r) := tree_modPage_self (s := s4) fR
  -- the left half
  refine wp_post (copyLeft_spec (x := sB) (m := eidx) hc.left_ne fun hno => absurd hno ?_) ?_
  · omega
  rintro _ sC ⟨hC, hCt, hCn, hCty, hCnk, hCe⟩
  have hrC : sC.tree r = sB.tree r := by
    rw [tree_eq, tree_eq, hC.node]
    exact hC.frame _ fun hmem => hlr.symm (mem_singleton.mp hmem)
  refine wp_moveLeaf g (fun _ hno => absurd ⟨by omega, by omega⟩ hno) ?_
  have hpl : (sC.node l).page = (s4.node l).page := by rw [hC.node]; rfl
  rw [wp_get, St.modPage_node, hpl]
  set fL : EdBpt E → EdBpt E := fun c => c.copyEnt (sC.tree n) (eidx + 1) eidx (mid - eidx) with hfL
  have hlD : (sC.modPage (s4.node l).page fL).tree l = fL (sC.tree l) := by
    rw [← hpl]
    exact tree_modPage_self fL
  have hrD : (sC.modPage (s4.node l).page fL).tree r = fR (s4.tree r) := by
    rw [tree_modPage_of_ne (s := sC) fL (by rw [hC.node]; exact hlr.symm), hrC, hrB]
  have hent : (sC.tree n).ent = b.ent := by rw [hCn, hnB, hsrc]
  refine {
    stores := ?_
    halves := ?_
    header := ?_
    db := ?_ }
  · exact ((hB.trans (hC.mono (by simp [hsB]))).modPage (by simp) fL fun _ => rfl).modDb d _
  · rw [St.modDb_tree, St.modDb_tree, hlD, hrD]
    refine .left h ⟨fun j hj => ?_, fun j hj hj' => ?_⟩ fun j hj => ?_
    · simp only [hfL, EdBpt.copyEnt, blit, EdBpt.leafTake]
      rw [if_neg (by omega), hCe j hj, hnB, hsrc]
    · simp only [EdBpt.leafTake] at hj'
      simp only [hfL, EdBpt.copyEnt, blit, hent, EdBpt.leafTake]
      rw [if_pos (by omega)]
      congr 1
      omega
    · simp only [hfR, EdBpt.copyEnt, blit, hsrc]
      rw [if_pos (by omega)]
      congr 1
  · rw [St.modDb_tree, St.modDb_tree, hlD, hrD]
    exact ⟨by rw [← hlB, ← hCty]; rfl, by rw [← hlB, ← hCnk]; rfl, rfl, rfl⟩
  · funext e
    have hCdb : sC.txn.db = sB.txn.db := congrArg EdTxn.db hCt
    by_cases he : e = d
    · subst he
      rw [St.modDb_db_self, St.modDb_db_self]
      show ({ sC.txn.db e with entry := _ } : EdTxnDb) = _
      rw [hCdb, hsB, St.modDb_db_self]
      rfl
    · rw [St.modDb_db_of_ne _ _ he, St.modDb_db_of_ne _ _ he]
      show sC.txn.db e = _
      rw [hCdb, hsB, St.modDb_db_of_ne _ _ he]
      rfl

theorem splitIntoRight_spec (hc : LeafCut g s s4 R n up mid l r fresh dead) (h : mid ≤ eidx)
    (hfit : SplitFits g (s.tree n) mid eidx) :
    wp (splitIntoRight g d n l r mid (eidx - mid))
      (fun _ s5 => LeafMoved (s.tree n) s4 s5 d l r mid eidx
        fun c => { c with
          entryIndex := eidx - mid
          find := some r
          entry := some ⟨(s4.node r).page, (eidx - mid : Nat)⟩ }) X s4 := by
  obtain ⟨hle, hfull, hpos, hlt⟩ := hfit
  have hlr : (s4.node l).page ≠ (s4.node r).page := fun e =>
    (nodup_cons.mp hc.split.halves.nodup).1 (e ▸ mem_cons_self)
  have hsrc := hc.src
  have hnkR := hc.nkeysR
  set b := s.tree n with hb
  unfold splitIntoRight
  simp only [wp_bind]
  -- the left half
  refine wp_post (copyLeft_spec (x := s4) (m := mid) hc.left_ne fun hno => absurd hno ?_) ?_
  · omega
  rintro _ sB ⟨hB, hBt, hBn, hBty, hBnk, hBe⟩
  have hrB : sB.tree r = s4.tree r := by
    rw [tree_eq, tree_eq, hB.node]
    exact hB.frame _ fun hmem => hlr.symm (mem_singleton.mp hmem)
  have hpr : (sB.node r).page = (s4.node r).page := by rw [hB.node]
  have hnr : (sB.node n).page ≠ (s4.node r).page := by rw [hB.node]; exact hc.right_ne.symm
  have hlr' : (sB.node l).page ≠ (s4.node r).page := by rw [hB.node]; exact hlr
  -- the right half, in front of the free slot and behind it
  refine wp_moveLeaf g (fun _ hno => absurd ⟨by omega, by omega⟩ hno) ?_
  rw [wp_getTree, hpr]
  set f1 : EdBpt E → EdBpt E := fun c => c.copyEnt (sB.tree n) 0 mid (eidx - mid) with hf1
  have hr1 : (sB.modPage (s4.node r).page f1).tree r = f1 (s4.tree r) := by
    rw [← hpr, tree_modPage_self, hrB]
  have hn1 : (sB.modPage (s4.node r).page f1).tree n = sB.tree n := tree_modPage_of_ne f1 hnr
  have hnk1 : ((sB.modPage (s4.node r).page f1).tree r).nkeys = b.nkeys - mid := by
    rw [hr1]
    exact hnkR
  rw [wp_ite, hnk1]
  refine ⟨fun hno => absurd hno (by omega), fun _ => ?_⟩
  rw [wp_bind]
  refine wp_moveLeaf g (fun _ hno => absurd ⟨by omega, by omega⟩ hno) ?_
  rw [hn1, St.modPage_node, hpr, St.modPage_modPage]
  set f2 : EdBpt E → EdBpt E := fun c => (f1 c).copyEnt (sB.tree n) (eidx - mid + 1)
    (mid + (eidx - mid)) (b.nkeys - mid - (eidx - mid)) with hf2
  simp only [wp_bind, wp_get, wp_modDb, St.modPage_node, hpr]
  have hr2 : (sB.modPage (s4.node r).page f2).tree r = f2 (s4.tree r) := by
    rw [← hpr, tree_modPage_self, hrB]
  have hl2 : (sB.modPage (s4.node r).page f2).tree l = sB.tree l := tree_modPage_of_ne f2 hlr'
  have hent : (sB.tree n).ent = b.ent := by rw [hBn, hsrc]
  refine {
    stores := ?_
    halves := ?_
    header := ?_
    db := ?_ }
  · exact ((hB.mono (by simp)).modPage (by simp) f2 fun _ => rfl).modDb d _
  · rw [St.modDb_tree, St.modDb_tree, hl2, hr2]
    refine .right h (fun j hj => ?_) ⟨fun j hj => ?_, fun j hj hj' => ?_⟩
    · rw [hBe j hj, hsrc]
    · simp only [hf2, hf1, EdBpt.copyEnt, blit, hent, EdBpt.leafDrop]
      rw [if_neg (by omega), if_pos (by omega), Nat.sub_zero]
    · simp only [EdBpt.leafDrop] at hj'
      simp only [hf2, hf1, EdBpt.copyEnt, blit, hent, EdBpt.leafDrop]
      rw [if_pos (by omega)]
      congr 1
      omega
  · rw [St.modDb_tree, St.modDb_tree, hl2, hr2]
    exact ⟨hBty, hBnk, rfl, rfl⟩
  · funext e
    have hBdb : sB.txn.db = s4.txn.db := congrArg EdTxn.db hBt
    by_cases he : e = d
    · subst he
      rw [St.modDb_db_self, St.modDb_db_self, ← hBdb]
      rfl
    · rw [St.modDb_db_of_ne _ _ he, St.modDb_db_of_ne _ _ he, ← hBdb]
      rfl

/-- The cursor after a leaf was split: it stands on the free slot of one of the halves. -/
def splitCursor (l r pl pr mid eidx : Nat) (c : EdTxnDb) : EdTxnDb :=
  if eidx < mid then { c with find := some l, entry := some ⟨pl, eidx⟩ }
  else { c with entryIndex := eidx - mid, find := some r, entry := some ⟨pr, (eidx - mid : Nat)⟩ }

theorem splitLeafLeft_spec (hb : Base s R) (hw : WayOk g s R n up)
    (hlive : (s.node n).page ∉ s.txn.gc) (hx : (s.tree n).xid ≤ s.txn.xid) :
    wp (splitLeafLeft env n)
      (fun c s1 => ∃ fresh dead, Replaced g s s1 R n up c fresh dead ∧ s1.tree n = s.tree n ∧
        (c ≠ n → (s1.node c).page ≠ (s.node n).page) ∧ (s1.tree c).type = (s.tree n).type)
      (pageExits env False) s := by
  unfold splitLeafLeft
  simp only [wp_bind, wp_get, wp_ite, wp_pure']
  refine ⟨fun hold => ?_, fun hnew => ?_⟩
  · refine wp_post (edTxnClone_eff env hb hw.lt hw.known hlive) ?_
    rintro c s1 ⟨p, hc⟩
    have hcp : (s1.node c).page = p := by rw [hc.node]
    have hrep := hc.replaced hb hw id fun _ => rfl
    rw [St.modPage_id] at hrep
    refine ⟨_, _, hrep, ?_, fun _ => ?_, ?_⟩
    · exact hc.eff.tree hb hw.lt hw.known (by simp)
    · rw [hcp]
      rintro rfl
      exact hc.eff.fresh_not_known hb (by simp) hw.known
    · rw [tree_eq, hcp]
      exact hc.type
  · have hown : Owned s n := le_antisymm hx (not_lt.mp hnew)
    have hrep := Replaced.self hb hw hown hlive id fun _ => rfl
    rw [St.modPage_id] at hrep
    exact ⟨_, _, hrep, by simp⟩

/-- The first part of `split_leaf`: two pages, with a free slot in one of them. -/
theorem splitLeafPages_spec (hb : Base s R) (hw : WayOk g s R n up)
    (hlive : (s.node n).page ∉ s.txn.gc) (hx : (s.tree n).xid ≤ s.txn.xid)
    (hfit : SplitFits g (s.tree n) mid eidx) :
    wp (splitLeafPages env g d n mid eidx)
      (fun lr s5 => ∃ s4 fresh dead, LeafCut g s s4 R n up mid lr.1 lr.2 fresh dead ∧
        LeafMoved (s.tree n) s4 s5 d lr.1 lr.2 mid eidx
          (splitCursor lr.1 lr.2 (s4.node lr.1).page (s4.node lr.2).page mid eidx))
      (pageExits env False) s := by
  unfold splitLeafPages
  simp only [wp_bind, wp_getNode]
  refine wp_post (edTxnAlloc_eff env hb _ _) ?_
  rintro r s1 ⟨p, ha⟩
  have hb1 : Base s1 R := ha.eff.base hb (by simp)
  have hm1 : (s1.node n).page = (s.node n).page := ha.eff.step.node n hw.lt
  have hmt1 : s1.tree n = s.tree n := ha.eff.tree hb hw.lt hw.known (by simp)
  have hw1 := ha.way hb hw
  have hlive1 : (s1.node n).page ∉ s1.txn.gc := by
    rw [hm1, ha.eff.gc, append_nil]
    exact hlive
  refine wp_post (splitLeafLeft_spec env hb1 hw1 hlive1
    (by rw [hmt1, ha.eff.step.txid]; exact hx)) ?_
  rintro l s2 ⟨fresh, dead, hr, hmt2, hlm, htype⟩
  rw [hmt1] at hmt2 htype
  rw [hm1] at hlm
  obtain ⟨hb2, hm2, hrp, hpm, hlp, hppg⟩ := ha.beside hb hw hr
  -- the headers of the halves
  simp only [wp_getTree, wp_modTree, St.modPage_node, hrp, hmt2]
  set f1 : EdBpt E → EdBpt E :=
    fun c => { c with type := .leaf, nkeys := (s.tree n).nkeys - mid } with hf1
  set f2 : EdBpt E → EdBpt E := fun c => { c with nkeys := mid } with hf2
  set s3 := s2.modPage p f1 with hs3
  set s4 := s3.modPage (s2.node l).page f2 with hs4
  have h3 : s3.tree n = s.tree n := by
    rw [hs3, tree_modPage_of_ne f1 (by rw [hm2]; exact hpm.symm), hmt2]
  have e3 : Eff s2 s3 [] [] [p] := Eff.modPage s2 p f1 (.inr hppg) fun _ => rfl
  have hxid3 : s3.txn.xid ≤ (s3.pages (s2.node l).page).xid := by
    rw [hs3, St.modPage_pages_of_ne _ _ hlp]
    exact ge_of_eq hr.owned
  have e4 : Eff s3 s4 [] [] [(s2.node l).page] := Eff.modPage s3 _ f2 (.inl hxid3) fun _ => rfl
  have e24 : Eff s2 s4 [] [] [p, (s2.node l).page] := (e3.trans e4 hb2).mono (by simp)
  have hL : s4.tree l = f2 (s2.tree l) := by
    have h1 : s4.tree l = f2 (s3.tree l) := tree_modPage_self (s := s3) f2
    rw [h1, hs3, tree_modPage_of_ne f1 hlp]
  have hR : s4.tree r = f1 (s2.pages p) := by
    have hrp4 : (s4.node r).page = p := hrp
    rw [tree_eq, hrp4, hs4, St.modPage_pages_of_ne _ _ hlp.symm, hs3, St.modPage_pages_self]
  have hcut : LeafCut g s s4 R n up mid l r (p :: fresh) dead := {
    split := PageSplit.of_replaced hb hw ha hr e24 fun _ => rfl
    typeL := by rw [hL]; exact htype
    typeR := by rw [hR]
    nkeysL := by rw [hL]
    nkeysR := by rw [hR]
    src := by
      by_cases hln : l = n
      · subst hln
        have : s4.tree l = f2 (s3.tree l) := tree_modPage_self (s := s3) f2
        rw [this, h3]
      · have hne : (s3.node n).page ≠ (s2.node l).page := by
          rw [hs3, St.modPage_node, hm2]
          exact (hlm hln).symm
        have : s4.tree n = s3.tree n := tree_modPage_of_ne f2 hne
        rw [this, h3]
    left_ne := fun hln => by
      show (s2.node l).page ≠ (s2.node n).page
      rw [hm2]
      exact hlm hln
    right_ne := by
      show (s2.node r).page ≠ (s2.node n).page
      rw [hrp, hm2]
      exact hpm
    db := by
      have h1 : s4.txn = s2.txn := rfl
      rw [h1, hr.db, ha.db] }
  -- the entries
  rw [wp_when]
  refine ⟨fun hlt => ?_, fun hge => ?_⟩
  · refine wp_post (splitIntoLeft_spec hcut hlt hfit) ?_
    intro _ s5 hm
    rw [wp_when]
    refine ⟨fun hge => absurd hge (by omega), fun _ => ⟨s4, _, _, hcut, ?_⟩⟩
    have hcur : splitCursor l r (s4.node l).page (s4.node r).page mid eidx
        = fun c => { c with find := some l, entry := some ⟨(s4.node l).page, eidx⟩ } := by
      funext c
      exact if_pos hlt
    rw [hcur]
    exact hm
  · rw [wp_when]
    refine ⟨fun hle => ?_, fun h => absurd h (by omega)⟩
    refine wp_post (splitIntoRight_spec hcut hle hfit) ?_
    intro _ s5 hm
    refine ⟨s4, _, _, hcut, ?_⟩
    have hcur : splitCursor l r (s4.node l).page (s4.node r).page mid eidx = fun c => { c with
        entryIndex := eidx - mid
        find := some r
        entry := some ⟨(s4.node r).page, (eidx - mid : Nat)⟩ } := by
      funext c
      exact if_neg (by omega)
    rw [hcur]
    exact hm

end Split

/-! ## Where a leaf is split -/

section Point

variable [EdEntry E]

theorem backRun_spec (ent : Nat → E) (key m : Nat) :
    backRun ent key m ≤ m ∧ (∀ j, backRun ent key m ≤ j → j < m → fetch64 (ent j) = key) ∧
      (0 < backRun ent key m → fetch64 (ent (backRun ent key m - 1)) ≠ key) := by
  induction m with
  | zero => exact ⟨le_refl _, fun j _ hj => absurd hj (by omega), fun h => absurd h (by simp [backRun])⟩
  | succ m ih =>
    rw [backRun]
    split
    · rename_i heq
      obtain ⟨h1, h2, h3⟩ := ih
      refine ⟨by omega, fun j hj hj' => ?_, h3⟩
      rcases Nat.lt_or_ge j m with hlt | hge
      · exact h2 j hj hlt
      · obtain rfl : j = m := by omega
        exact heq
    · rename_i hne
      exact ⟨le_refl _, fun j hj hj' => absurd hj (by omega), fun _ => hne⟩

theorem foreRun_spec (ent : Nat → E) (key r i : Nat) :
    i ≤ foreRun ent key r i ∧ foreRun ent key r i ≤ i + r ∧
      (∀ j, i ≤ j → j < foreRun ent key r i → fetch64 (ent j) = key) ∧
      (foreRun ent key r i < i + r → fetch64 (ent (foreRun ent key r i)) ≠ key) := by
  induction r generalizing i with
  | zero => exact ⟨le_refl _, le_refl _, fun j h1 h2 => absurd h2 (by simp [foreRun]; omega),
      fun h => absurd h (by simp [foreRun])⟩
  | succ r ih =>
    rw [foreRun]
    split
    · rename_i heq
      obtain ⟨h1, h2, h3, h4⟩ := ih (i + 1)
      refine ⟨by omega, by omega, fun j hj hj' => ?_, fun h => h4 (by omega)⟩
      rcases Nat.lt_or_ge i j with hlt | hge
      · exact h3 j hlt hj'
      · obtain rfl : j = i := by omega
        exact heq
    · rename_i hne
      exact ⟨le_refl _, by omega, fun j h1 h2 => absurd h2 (by omega), fun _ => hne⟩

/-- The position `i` of the key `k` in a leaf that is sorted. -/
structure KeyAt (b : EdBpt E) (k i : Nat) : Prop where
  le : i ≤ b.nkeys
  sorted : ∀ j j', j ≤ j' → j' < b.nkeys → fetch64 (b.ent j) ≤ fetch64 (b.ent j')
  before : ∀ j, j < i → fetch64 (b.ent j) < k
  after : ∀ j, i ≤ j → j < b.nkeys → k ≤ fetch64 (b.ent j)

/-- The first key of the right half of a leaf that is split at `m`. -/
def rightKey (b : EdBpt E) (k i m : Nat) : Nat := if m = i then k else fetch64 (b.ent m)

/-- A split at `m` keeps the new key `k` and the others on the right side of it. -/
structure CutOk (b : EdBpt E) (k i m : Nat) : Prop where
  pos : 1 ≤ m
  lt : m < b.nkeys
  left : ∀ j, j < m → fetch64 (b.ent j) < rightKey b k i m
  right : ∀ j, m ≤ j → j < b.nkeys → rightKey b k i m ≤ fetch64 (b.ent j)
  newLeft : i < m → k < rightKey b k i m
  newRight : m ≤ i → rightKey b k i m ≤ k

theorem KeyAt.cutOk (h : KeyAt b k i) (hpos : 1 ≤ m) (hlt : m < b.nkeys)
    (hstep : fetch64 (b.ent (m - 1)) < fetch64 (b.ent m)) : CutOk b k i m := by
  by_cases hmi : m = i
  · subst hmi
    have hr : rightKey b k m m = k := if_pos rfl
    refine ⟨hpos, hlt, ?_, ?_, fun h0 => absurd h0 (by omega), fun _ => le_of_eq hr⟩
    · rw [hr]
      exact h.before
    · rw [hr]
      exact h.after
  · have hr : rightKey b k i m = fetch64 (b.ent m) := if_neg hmi
    refine ⟨hpos, hlt, fun j hj => ?_, fun j hj hj' => ?_, fun h0 => ?_, fun h0 => ?_⟩
    · rw [hr]
      exact (h.sorted j (m - 1) (by omega) (by omega)).trans_lt hstep
    · rw [hr]
      exact h.sorted m j hj hj'
    · rw [hr]
      exact (h.after (m - 1) (by omega) (by omega)).trans_lt hstep
    · rw [hr]
      exact (h.before m (by omega)).le

/-- The slots from `lo` to `hi` are the run of equal keys at the mid point of a leaf. -/
structure MidRun (b : EdBpt E) (lo hi : Nat) : Prop where
  le : lo ≤ b.nkeys / 2
  lt : b.nkeys / 2 < hi
  top : hi ≤ b.nkeys
  same : ∀ j, lo ≤ j → j < hi → fetch64 (b.ent j) = fetch64 (b.ent (b.nkeys / 2))
  front : 0 < lo → fetch64 (b.ent (lo - 1)) ≠ fetch64 (b.ent (b.nkeys / 2))
  back : hi < b.nkeys → fetch64 (b.ent hi) ≠ fetch64 (b.ent (b.nkeys / 2))

theorem midRun_exists (b : EdBpt E) (h : 1 ≤ b.nkeys) : ∃ lo hi, MidRun b lo hi := by
  set mid := b.nkeys / 2 with hmid
  obtain ⟨hb1, hb2, hb3⟩ := backRun_spec b.ent (fetch64 (b.ent mid)) mid
  obtain ⟨hf1, hf2, hf3, hf4⟩ :=
    foreRun_spec b.ent (fetch64 (b.ent mid)) (b.nkeys - (mid + 1)) (mid + 1)
  refine ⟨_, _, hb1, hf1, by omega, fun j hj hj' => ?_, hb3, fun hlt => hf4 (by omega)⟩
  rcases Nat.lt_trichotomy j mid with hlt | rfl | hgt
  · exact hb2 j hj hlt
  · rfl
  · exact hf3 j hgt hj'

section Run

variable {b : EdBpt E} {lo hi : Nat}

variable (h : MidRun b lo hi)

include h

theorem MidRun.backRun : Eddy.backRun b.ent (fetch64 (b.ent (b.nkeys / 2))) (b.nkeys / 2) = lo := by
  obtain ⟨hb1, hb2, hb3⟩ := backRun_spec b.ent (fetch64 (b.ent (b.nkeys / 2))) (b.nkeys / 2)
  have hle := h.le
  have htop := h.lt
  rcases Nat.lt_trichotomy (Eddy.backRun b.ent (fetch64 (b.ent (b.nkeys / 2))) (b.nkeys / 2)) lo
    with hlt | heq | hgt
  · exact absurd (hb2 (lo - 1) (by omega) (by omega)) (h.front (by omega))
  · exact heq
  · exact absurd (h.same _ (by omega) (by omega)) (hb3 (by omega))

theorem MidRun.foreRun :
    Eddy.foreRun b.ent (fetch64 (b.ent (b.nkeys / 2))) (b.nkeys - (b.nkeys / 2 + 1)) (b.nkeys / 2 + 1)
      = hi := by
  obtain ⟨hf1, hf2, hf3, hf4⟩ := foreRun_spec b.ent (fetch64 (b.ent (b.nkeys / 2)))
    (b.nkeys - (b.nkeys / 2 + 1)) (b.nkeys / 2 + 1)
  have hle := h.lt
  have hlo := h.le
  have htop := h.top
  rcases Nat.lt_trichotomy (Eddy.foreRun b.ent (fetch64 (b.ent (b.nkeys / 2)))
    (b.nkeys - (b.nkeys / 2 + 1)) (b.nkeys / 2 + 1)) hi with hlt | heq | hgt
  · exact absurd (h.same _ (by omega) hlt) (hf4 (by omega))
  · exact heq
  · exact absurd (hf3 hi (by omega) hgt) (h.back (by omega))

theorem MidRun.unique {lo' hi' : Nat} (h' : MidRun b lo' hi') : lo' = lo ∧ hi' = hi :=
  ⟨h'.backRun.symm.trans h.backRun, h'.foreRun.symm.trans h.foreRun⟩

theorem MidRun.start (hat : KeyAt b k i) (hk : fetch64 (b.ent (b.nkeys / 2)) = k) : i = lo := by
  have hle := h.le
  have hlt := h.lt
  have htop := h.top
  rcases Nat.lt_trichotomy i lo with hlo | heq | hlo
  · have h1 := hat.after (lo - 1) (by omega) (by omega)
    have h2 := hat.sorted (lo - 1) (b.nkeys / 2) (by omega) (by omega)
    exact absurd (by omega) (h.front (by omega))
  · exact heq
  · have h1 := hat.before lo hlo
    have h2 := h.same lo le_rfl (by omega)
    omega

/-- Where a leaf is split: at the end of the run that is nearer to the mid point. -/
def nearEnd (n lo hi : Nat) : Nat := if lo = n / 2 ∨ n ≤ lo + hi then lo else hi

theorem MidRun.step (hat : KeyAt b k i) (h2 : 2 ≤ b.nkeys) (hall : ¬ (lo = 0 ∧ hi = b.nkeys)) :
    1 ≤ nearEnd b.nkeys lo hi ∧ nearEnd b.nkeys lo hi < b.nkeys ∧
      fetch64 (b.ent (nearEnd b.nkeys lo hi - 1)) < fetch64 (b.ent (nearEnd b.nkeys lo hi)) := by
  have hle := h.le
  have hlt := h.lt
  have htop := h.top
  rw [nearEnd]
  split
  · have hpos : 1 ≤ lo := by omega
    have h1 := h.front hpos
    have h2 := h.same lo le_rfl (by omega)
    have h3 := hat.sorted (lo - 1) lo (by omega) (by omega)
    exact ⟨hpos, by omega, by omega⟩
  · have hlt' : hi < b.nkeys := by omega
    have h1 := h.back hlt'
    have h2 := h.same (hi - 1) (by omega) (by omega)
    have h3 := hat.sorted (hi - 1) hi (by omega) hlt'
    exact ⟨by omega, hlt', by omega⟩

end Run

/-- The cursor of a search as `split_point` uses it. -/
structure SearchedAt (c : EdTxnDb) (b : EdBpt E) : Prop where
  at' : KeyAt b c.key c.entryIndex
  matched : c.matched = true ↔ c.entryIndex < b.nkeys ∧ fetch64 (b.ent c.entryIndex) = c.key
  nmatches : c.nmatches = if c.matched then 1 else 0

theorem SearchedAt.back (h : SearchedAt c b) (hn : b.nkeys < 2 ^ 16) (hm : c.matched = true) :
    (sub32 c.entryIndex c.nmatches + 1) % 2 ^ 32 = c.entryIndex := by
  have hle := h.at'.le
  rw [h.nmatches, hm, sub32]
  simp only [if_true]
  omega

/-- `split_point` after a search: the nearer end of the run at the mid point, unless the run is the
whole leaf. -/
theorem splitPoint_eq {lo hi : Nat} (h : SearchedAt c b) (hn : b.nkeys < 2 ^ 16) (h2 : 2 ≤ b.nkeys)
    (hrun : MidRun b lo hi) :
    splitPoint c b = if lo = 0 ∧ hi = b.nkeys then none else some (nearEnd b.nkeys lo hi) := by
  have hat := h.at'
  have hle := hrun.le
  have hback := hrun.backRun
  have hfore := hrun.foreRun
  have hstart := hrun.start hat
  set n := b.nkeys with hnk
  set mid := n / 2 with hmid
  -- what the source does once it has the start of the run
  have hmain : ∀ r : Nat × Nat × Nat, r.1 = lo →
      (lo ≠ mid → r.2 = (mid + 1, fetch64 (b.ent mid))) →
      (if r.1 = mid then some mid else
        if r.1 = 0 ∧ Eddy.foreRun b.ent r.2.2 (n - r.2.1) r.2.1 = n then none
        else if n ≤ r.1 + Eddy.foreRun b.ent r.2.2 (n - r.2.1) r.2.1 then some r.1
        else some (Eddy.foreRun b.ent r.2.2 (n - r.2.1) r.2.1))
      = if lo = 0 ∧ hi = n then none else some (nearEnd n lo hi) := by
    rintro ⟨r1, r2⟩ rfl hr2
    dsimp only at hr2 ⊢
    by_cases hm : r1 = mid
    · rw [if_pos hm, if_neg (by omega), nearEnd, if_pos (.inl hm), hm]
    · rw [if_neg hm, hr2 hm, hfore, nearEnd]
      simp only [← hmid, hm, false_or]
      split
      · rfl
      · split <;> rfl
  -- the first test: the new entry goes to the mid point
  have hfirst : 0 < c.nmatches ∧ mid ≤ c.entryIndex ∧
      (sub32 c.entryIndex c.nmatches + 1) % 2 ^ 32 ≤ mid →
      (sub32 c.entryIndex c.nmatches + 1) % 2 ^ 32 = lo ∧ lo = mid := by
    intro hcase
    have hmat : c.matched = true := by
      by_contra hno
      rw [h.nmatches, if_neg hno] at hcase
      omega
    have hb := h.back hn hmat
    have hmi : mid = c.entryIndex := by omega
    have hk := (h.matched.mp hmat).2
    rw [← hmi] at hk
    have hlo := hstart hk
    omega
  unfold splitPoint
  simp only [← hnk, ← hmid]
  refine hmain _ ?_ ?_
  all_goals
    unfold splitRange
    by_cases hcase : 0 < c.nmatches ∧ mid ≤ c.entryIndex ∧
      (sub32 c.entryIndex c.nmatches + 1) % 2 ^ 32 ≤ mid
  · rw [if_pos hcase]
    show (sub32 c.entryIndex c.nmatches + 1) % 2 ^ 32 % 2 ^ 16 = lo
    rw [(hfirst hcase).1, Nat.mod_eq_of_lt (by omega)]
  · rw [if_neg hcase]
    by_cases hkey : fetch64 (b.ent mid) = c.key
    · -- the run is the one of the key searched for
      rw [if_pos hkey]
      have hi := hstart hkey
      have hik := hrun.same lo le_rfl (hle.trans_lt hrun.lt)
      have hmat := h.matched.mpr ⟨by omega, by rw [hi, hik]; exact hkey⟩
      show (sub32 c.entryIndex c.nmatches + 1) % 2 ^ 32 % 2 ^ 16 = lo
      rw [h.back hn hmat, hi, Nat.mod_eq_of_lt (by omega)]
    · rw [if_neg hkey]
      exact hback
  · exact fun hne => absurd (hfirst hcase).2 hne
  · intro _
    rw [if_neg hcase]
    split <;> rfl

theorem splitPoint_spec (h : SearchedAt c b) (hn : b.nkeys < 2 ^ 16) (h2 : 2 ≤ b.nkeys)
    (hm : splitPoint c b = some m) : CutOk b c.key c.entryIndex m := by
  obtain ⟨lo, hi, hrun⟩ := midRun_exists b (by omega)
  rw [splitPoint_eq h hn h2 hrun] at hm
  split at hm
  · cases hm
  · rename_i hall
    cases hm
    obtain ⟨hpos, hlt, hstep⟩ := hrun.step h.at' h2 hall
    exact h.at'.cutOk hpos hlt hstep

end Point

end Eddy
