import Eddy.Index.Insert

/-!
# Eddy — an entry goes into a full leaf

`insert_into_leaf` splits a full leaf, puts both halves into the parent, and stores the entry in the
half whose slot was opened.
-/

namespace Eddy

open Outcome Slots PageTree Layout Multimap Fencing List Function

variable {E : Type} [EdEntry E] (env : Env E) (g : Geom) {l r k b j c : Nat} {s3 : St E}

section Split

variable {g} {s s' : St E} {R T fresh dead built : List Nat} {hs : EdDb → Nat} {d : EdDb} {e : E}
  {n c r m i : Nat} {up up' : List (Nat × Nat)} {tall : Bool}

variable (g) in
/-- The leaf `n` was split at `m` into `l` and `r`, and `insert_into_parent` put both into the tree
with the separator `k` in between. -/
structure SplitIn (s s' : St E) (R : List Nat) (d : EdDb) (n : Nat) (up : List (Nat × Nat))
    (m k l r b j : Nat) (up' : List (Nat × Nat)) (fresh dead built : List Nat) (tall : Bool) : Prop where
  graft : ∀ c j', (c = l ∧ j' = j) ∨ (c = r ∧ j' = j + 1) →
    Grafted g s s' n up (.two (s'.node l).page k (s'.node r).page) c ((b, j') :: up') fresh dead built
      tall
  base : Base s' R
  wayL : WayOk g s' R l ((b, j) :: up')
  wayR : WayOk g s' R r ((b, j + 1) :: up')
  ownL : Owned s' l
  ownR : Owned s' r
  owned : ∀ x ∈ (b, j) :: up', Owned s' x.1
  ne : (s'.node l).page ≠ (s'.node r).page
  sep : (s'.tree b).key (j + 1) = k
  halves : HalvesAt (s.tree n) (s'.tree l) (s'.tree r) m (s.txn.db d).entryIndex
  headL : (s'.tree l).type = .leaf ∧ (s'.tree l).nkeys = m
  headR : (s'.tree r).type = .leaf ∧ (s'.tree r).nkeys = (s.tree n).nkeys - m
  db : s'.txn.db = (s.modDb d fun c => { splitCursor l r (s'.node l).page (s'.node r).page m
    (s.txn.db d).entryIndex c with root := some (topNode b up') }).txn.db

/-- `split_leaf` at a split point that `split_point` may return. -/
theorem splitLeaf_spec (hcalm : ¬ Refused env) (h : TxnOk g s R T hs) (hat : CursorAt s d n up r)
    (hlen : up.length = hs d) (hfull : (s.tree n).nkeys = g.leafOrder) (hpos : 1 ≤ m)
    (hlt : m < (s.tree n).nkeys)
    (hfits : Fits s.pages (rightKey (s.tree n) (s.txn.db d).key (s.txn.db d).entryIndex m)
      (pagePath s up)) :
    wp (splitLeaf env g d n m)
      (fun _ s' => ∃ l r b j up' fresh dead built tall, SplitIn g s s' R d n up m
        (rightKey (s.tree n) (s.txn.db d).key (s.txn.db d).entryIndex m) l r b j up' fresh dead built
        tall)
      (pageExits env False) s := by
  set i := (s.txn.db d).entryIndex with hi
  set k := rightKey (s.tree n) (s.txn.db d).key i m with hk
  have hb := h.base
  have hw := h.wayOk hat.root hat.stands (le_of_eq hlen)
  have hmem := (mem_pages hat.root hat.stands (le_of_eq hlen)).1
  have hleaf := hat.leaf h hlen
  unfold splitLeaf
  rw [wp_bind, wp_get, wp_ite]
  refine ⟨fun hno => absurd hno (by omega), fun _ => ?_⟩
  rw [wp_bind]
  refine wp_post (splitLeafPages_spec env (d := d) hb hw (h.live hmem) (h.xid_le hmem)
    ⟨hat.le, hfull, hpos, hlt⟩) ?_
  rintro ⟨l, r⟩ s5 ⟨s4, fresh, dead, hcut, hmv⟩
  have hps := hcut.split.stores hb hw hmv.stores
  have hb5 := hps.base hb hw.known
  have hh := hps.halves
  have hup : ∀ x ∈ up, (s5.node x.1).page = (s.node x.1).page := fun x hx =>
    hps.eff.step.node x.1 (hw.ltUp x hx)
  rw [wp_bind, wp_gets]
  refine wp_mono (insertIntoParent_spec env g (d := d) (k := k)
    (hh.way.length_lt.trans (Nat.lt_succ_self _)) hb5 hh) ?_ (fun _ _ h => h) (fun _ _ h => h) ?_
  · rintro _ s6 (hl | ⟨b, j, up', fresh', dead', built, tall, hin⟩)
    · exact absurd hl.2 hcalm
    have htl := hin.eff.tree hb5 hh.way.lt hh.way.known hh.notL
    have htr := hin.eff.tree hb5 hh.ltR hh.knownR hh.notR
    have hpl : (s6.node l).page = (s5.node l).page := hin.eff.step.node l hh.way.lt
    have hpr : (s6.node r).page = (s5.node r).page := hin.eff.step.node r hh.ltR
    obtain ⟨h1, h2, h3, h4⟩ := hmv.header
    exact ⟨l, r, b, j, up', fresh ++ fresh', dead ++ dead', built, tall, {
      graft := fun c j' hc => by
        rw [hpl, hpr]
        exact Grafted.of_inserted hb hw hps hin hc
      base := hin.base hb5 hh.way
      wayL := hin.wayL
      wayR := hin.wayR
      ownL := by rw [Owned, htl, hin.eff.step.txid]; exact hh.ownL
      ownR := by rw [Owned, htr, hin.eff.step.txid]; exact hh.ownR
      owned := hin.owned
      ne := by rw [hpl, hpr]; exact hh.neLR
      sep := hin.sep
      halves := by rw [htl, htr]; exact hmv.halves
      headL := by
        rw [htl, h1, h2, hcut.typeL, hcut.nkeysL]
        exact ⟨hleaf, rfl⟩
      headR := by
        rw [htr, h3, h4, hcut.typeR, hcut.nkeysR]
        exact ⟨rfl, rfl⟩
      db := by
        rw [hin.db, hpl, hpr, hmv.stores.node, hmv.stores.node]
        simp only [St.modDb, St.modTxn, hmv.db, hcut.db]
        funext e
        by_cases he : e = d
        · subst he
          simp
        · simp [he] }⟩
  · rintro (hrf | hno)
    · exact absurd hrf hcalm
    · refine hno ?_
      rw [pagePath_congr hup]
      refine hfits.congr fun x hx => ?_
      obtain ⟨y, hy, rfl⟩ := mem_map.mp hx
      exact hps.eff.page hb (hw.knownUp y hy) (by simpa using hw.page_ne hy)

/-! ## The entry is stored in a half -/

omit [EdEntry E] in
theorem SlotFree.ents {b b' c : EdBpt E} (hf : SlotFree b b' i) (hn : b'.nkeys = b.nkeys)
    (hle : i ≤ b.nkeys) (hc : c = { b' with nkeys := b'.nkeys + 1, ent := store b'.ent i e }) :
    c.ents = putAt b.ents i e false := by
  have hent : c.ent = store b'.ent i e := by rw [hc]
  have hnk : c.nkeys = b.nkeys + 1 := by rw [hc, ← hn]
  rw [ents_of_insert hnk hle (fun j hj => ?_) (by rw [hent, store_self]) fun j hj hj' => ?_,
    append_assoc]
  · rfl
  · rw [hent, store_of_ne _ _ (by omega)]
    exact hf.front j hj
  · rw [hent, store_of_ne _ _ (by omega)]
    exact hf.back j hj hj'

omit [EdEntry E] in
theorem putAt_left {l : List E} (h : i < m) :
    putAt (l.take m) i e false ++ l.drop m = putAt l i e false := by
  show (l.take m).take i ++ e :: (l.take m).drop i ++ l.drop m = l.take i ++ e :: l.drop i
  rw [take_take, min_eq_left h.le, append_assoc, cons_append, drop_take]
  have : l.drop m = (l.drop i).drop (m - i) := by rw [drop_drop]; congr 1; omega
  rw [this, take_append_drop]

omit [EdEntry E] in
theorem putAt_right {l : List E} (h : m ≤ i) (hm : m ≤ l.length) :
    l.take m ++ putAt (l.drop m) (i - m) e false = putAt l i e false := by
  show l.take m ++ ((l.drop m).take (i - m) ++ e :: (l.drop m).drop (i - m)) = l.take i ++ e :: l.drop i
  rw [drop_drop, Nat.add_sub_cancel' h, ← append_assoc]
  congr 1
  conv_rhs => rw [← take_append_drop m l, take_append]
  rw [take_take, length_take, min_eq_right h, min_eq_left hm]

variable (g) in
/-- The entry was stored in one of the halves `pl`, `pr` of the leaf `n`, that was split at `m`; the
separator between them is `k`. -/
structure SplitFilled (s s' : St E) (d : EdDb) (n : Nat) (up : List (Nat × Nat)) (e : E)
    (m k pl pr c : Nat) (up' : List (Nat × Nat)) (fresh dead built : List Nat) (tall : Bool) : Prop where
  filled : Filled g s s' d n up (putAt (s.tree n).ents (s.txn.db d).entryIndex e false)
    (.two pl k pr) c up' fresh dead built tall
  left : (s.txn.db d).entryIndex < m → (s'.node c).page = pl ∧
    (s'.pages pl).ents = putAt ((s.tree n).ents.take m) (s.txn.db d).entryIndex e false ∧
    (s'.pages pr).ents = (s.tree n).ents.drop m
  right : m ≤ (s.txn.db d).entryIndex → (s'.node c).page = pr ∧
    (s'.pages pl).ents = (s.tree n).ents.take m ∧
    (s'.pages pr).ents = putAt ((s.tree n).ents.drop m) ((s.txn.db d).entryIndex - m) e false
  sep : m ≤ (s.txn.db d).entryIndex → lowKey s' up' = k
  owned : ∀ x ∈ up', Owned s' x.1

variable (g) in
/-- The half `c` of a leaf that was split, with the slot `idx` for the new entry. -/
structure LeafHalf (s : St E) (R : List Nat) (d : EdDb) (l r m i c j j' idx b : Nat)
    (up' : List (Nat × Nat)) : Prop where
  side : (c = l ∧ j' = j ∧ i < m ∧ idx = i) ∨ (c = r ∧ j' = j + 1 ∧ m ≤ i ∧ idx = i - m)
  find : (s.txn.db d).find = some c
  entry : (s.txn.db d).entry = some ⟨(s.node c).page, (idx : Nat)⟩
  way : WayOk g s R c ((b, j') :: up')
  owned : Owned s c

omit [EdEntry E] in
theorem SplitIn.half (hin : SplitIn g s s' R d n up m k l r b j up' fresh dead built tall) :
    ∃ c j' idx, LeafHalf g s' R d l r m (s.txn.db d).entryIndex c j j' idx b up' := by
  have hdb : s'.txn.db d = _ := (congrFun hin.db d).trans (St.modDb_db_self ..)
  by_cases hlt : (s.txn.db d).entryIndex < m
  · simp only [splitCursor, if_pos hlt] at hdb
    exact ⟨l, j, _, .inl ⟨rfl, rfl, hlt, rfl⟩, by rw [hdb], by rw [hdb], hin.wayL, hin.ownL⟩
  · simp only [splitCursor, if_neg hlt] at hdb
    exact ⟨r, j + 1, _, .inr ⟨rfl, rfl, not_lt.mp hlt, rfl⟩, by rw [hdb], by rw [hdb], hin.wayR,
      hin.ownR⟩

omit [EdEntry E] in
/-- A half with the new entry stored in it: both halves are in the tree. -/
theorem SplitIn.filled {idx j' : Nat}
    (hin : SplitIn g s s' R d n up m k l r b j up' fresh dead built tall)
    (hc : LeafHalf g s' R d l r m (s.txn.db d).entryIndex c j j' idx b up') (hb : Base s R)
    (hw : WayOk g s R n up) (hle : (s.txn.db d).entryIndex ≤ (s.tree n).nkeys)
    (hm : m ≤ (s.tree n).nkeys) (hs3 : s3 = (s'.modPage (s'.node c).page fun b =>
      { b with nkeys := b.nkeys + 1, ent := store b.ent idx e }).modDb d fun x =>
        { x with root := some (topNode c ((b, j') :: up')) }) :
    SplitFilled g s s3 d n up e m k (s'.node l).page (s'.node r).page c ((b, j') :: up') fresh dead
      built tall := by
  set i := (s.txn.db d).entryIndex with hi
  set pc := (s'.node c).page with hpc
  set f : EdBpt E → EdBpt E := fun b => { b with nkeys := b.nkeys + 1, ent := store b.ent idx e }
    with hf
  have hnode : ∀ x, s3.node x = s'.node x := fun x => by rw [hs3]; rfl
  have hself : s3.pages pc = f (s'.tree c) := by
    rw [hs3]
    exact St.modPage_pages_self s' pc f
  have hother : ∀ q, q ≠ pc → s3.pages q = s'.pages q := fun q hq => by
    rw [hs3]
    exact St.modPage_pages_of_ne s' f hq
  have hmemF : pc ∈ [(s'.node l).page, (s'.node r).page] := by
    rcases hc.side with ⟨rfl, -⟩ | ⟨rfl, -⟩ <;> simp [hpc]
  have heff : Eff s' s3 [] [] [pc] := by
    have h1 := Eff.modPage s' pc f (.inl (ge_of_eq hc.owned)) fun _ => rfl
    have h2 := h1.trans (Eff.modDb (s'.modPage pc f) d fun x =>
      { x with root := some (topNode c ((b, j') :: up')) }) hin.base
    rw [← hs3] at h2
    simpa using h2
  have hgraft := (hin.graft c j' (by
    rcases hc.side with ⟨h1, h2, -⟩ | ⟨h1, h2, -⟩
    · exact .inl ⟨h1, h2⟩
    · exact .inr ⟨h1, h2⟩)).content hb hw heff (by simpa [Forest.pages] using hmemF) hnode
  -- the entries of the two halves
  have hlen : (s.tree n).ents.length = (s.tree n).nkeys := length_ents
  have htypes : (s3.pages (s'.node l).page).type = .leaf ∧ (s3.pages (s'.node r).page).type = .leaf := by
    have hty : ∀ x, (s'.tree x).type = .leaf → (s3.pages (s'.node x).page).type = .leaf := by
      intro x hx
      by_cases hq : (s'.node x).page = pc
      · rw [hq, hself]
        show (s'.tree c).type = .leaf
        rw [tree_eq, ← hpc, ← hq]
        exact hx
      · rw [hother _ hq]
        exact hx
    exact ⟨hty l hin.headL.1, hty r hin.headR.1⟩
  have hleft : i < m → pc = (s'.node l).page ∧
      (s3.pages (s'.node l).page).ents = putAt ((s.tree n).ents.take m) i e false ∧
      (s3.pages (s'.node r).page).ents = (s.tree n).ents.drop m := by
    intro hlt
    obtain ⟨rfl, -, -, rfl⟩ := hc.side.resolve_right fun h => absurd h.2.2.1 (by omega)
    cases hin.halves with
    | right h _ _ => exact absurd h (by omega)
    | left _ hfree hsame =>
      refine ⟨rfl, ?_, ?_⟩
      · rw [hself, ← ents_leafTake hm]
        exact hfree.ents (by rw [hin.headL.2]; rfl) hlt.le rfl
      · rw [hother _ hin.ne.symm, ← ents_leafDrop]
        exact ents_of_copy hin.headR.2 hsame
  have hright : m ≤ i → pc = (s'.node r).page ∧
      (s3.pages (s'.node l).page).ents = (s.tree n).ents.take m ∧
      (s3.pages (s'.node r).page).ents = putAt ((s.tree n).ents.drop m) (i - m) e false := by
    intro hge
    obtain ⟨rfl, -, -, rfl⟩ := hc.side.resolve_left fun h => absurd h.2.2.1 (by omega)
    cases hin.halves with
    | left h _ _ => exact absurd h (by omega)
    | right _ hsame hfree =>
      refine ⟨rfl, ?_, ?_⟩
      · rw [hother _ hin.ne, ← ents_leafTake hm]
        refine ents_of_copy hin.headL.2 fun j hj => hsame j ?_
        exact hj
      · rw [hself, ← ents_leafDrop]
        refine hfree.ents (by rw [hin.headR.2]; rfl) ?_ rfl
        show i - m ≤ (s.tree n).nkeys - m
        omega
  refine {
    filled := {
      graft := hgraft
      type := fun q hq => ?_
      ents := ?_
      root := by rw [hs3, St.modDb_db_self]
      find := by
        rw [hs3, St.modDb_db_self]
        exact hc.find
      other := by
        rw [hs3, St.modDb_db_of_ne _ _ d.other_ne]
        show s'.txn.db d.other = _
        rw [hin.db, St.modDb_db_of_ne _ _ d.other_ne] }
    left := fun hlt => by rw [hnode]; exact hleft hlt
    right := fun hge => by rw [hnode]; exact hright hge
    sep := fun hge => ?_
    owned := fun x hx => ?_ }
  · simp only [Forest.pages, mem_cons, not_mem_nil, or_false] at hq
    rcases hq with rfl | rfl
    · exact htypes.1
    · exact htypes.2
  · simp only [Forest.pages, flatMap_cons, flatMap_nil, append_nil]
    rcases Nat.lt_or_ge i m with hlt | hge
    · rw [(hleft hlt).2.1, (hleft hlt).2.2, putAt_left hlt]
    · rw [(hright hge).2.1, (hright hge).2.2, putAt_right hge (by omega)]
  · obtain ⟨-, rfl, -, -⟩ := hc.side.resolve_left fun h => absurd h.2.2.1 (by omega)
    rw [lowKey, if_neg (Nat.succ_ne_zero j), tree_eq, hnode, hother _ ?_]
    · exact hin.sep
    · exact hc.way.page_ne (x := (b, j + 1)) (by simp)
  · have hx' : Owned s' x.1 := by
      rcases mem_cons.mp hx with rfl | hx
      · exact hin.owned (b, j) (by simp)
      · exact hin.owned x (by simp [hx])
    rw [Owned, tree_eq, hnode, hother _ (hc.way.page_ne hx), heff.step.txid]
    exact hx'

/-- `insert_into_leaf` at a full leaf that is split at `m`. -/
theorem insertIntoLeaf_full (hcalm : ¬ Refused env) (h : TxnOk g s R T hs) (hat : CursorAt s d n up r)
    (hlen : up.length = hs d) (hfull : (s.tree n).nkeys = g.leafOrder)
    (hpoint : splitPoint (s.txn.db d) (s.tree n) = some m) (hpos : 1 ≤ m) (hlt : m < (s.tree n).nkeys)
    (hfits : Fits s.pages (rightKey (s.tree n) (s.txn.db d).key (s.txn.db d).entryIndex m)
      (pagePath s up)) :
    wp (insertIntoLeaf env g d e false)
      (fun _ s' => Good s' ∧ ∃ s3 pl pr c up' fresh dead built tall,
        SplitFilled g s s3 d n up e m
          (rightKey (s.tree n) (s.txn.db d).key (s.txn.db d).entryIndex m) pl pr c up' fresh dead built
          tall ∧
        Raised s3 s' c (s.txn.db d).entryIndex up')
      (pageExits env False) s := by
  have hready : Ready s := ⟨h.base.writing, h.base.pgOk, h.good⟩
  refine wp_mono (wp_and (insertIntoLeaf_keep env g s hready d e false) ?_)
    (fun _ _ hp => ⟨hp.1.good, hp.2⟩) (fun _ _ hp => hp.2) (fun _ _ hp => hp.2) fun hp => hp.2
  set i := (s.txn.db d).entryIndex with hi
  have hb := h.base
  have hw := h.wayOk hat.root hat.stands (le_of_eq hlen)
  have hle := hat.le
  unfold insertIntoLeaf roomInLeaf splitFull
  simp only [wp_bind, wp_getDb, wp_get]
  rw [hat.find]
  simp only [wp_ite]
  refine ⟨fun _ => ?_, fun hno => absurd ⟨trivial, hfull⟩ hno⟩
  rw [wp_bind, wp_get, hpoint]
  simp only [wp_bind, wp_getDb]
  refine wp_post (splitLeaf_spec env hcalm h hat hlen hfull hpos hlt hfits) ?_
  rintro _ s6 ⟨l, r', b, j, up', fresh, dead, built, tall, hin⟩
  obtain ⟨c, j', idx, hc⟩ := hin.half
  rw [hc.find]
  simp only [wp_bind, wp_modTree, wp_pure']
  rw [show ((s6.modPage (s6.node c).page fun b => { b with nkeys := b.nkeys + 1 }).txn.db d).entry
    = some ⟨(s6.node c).page, (idx : Nat)⟩ from hc.entry]
  have hidx : idx < g.leafOrder := by
    rcases hc.side with ⟨-, -, h1, h2⟩ | ⟨-, -, h1, h2⟩ <;> omega
  refine wp_storeEnt hidx ?_
  rw [St.modPage_modPage]
  set f : EdBpt E → EdBpt E := fun b => { b with nkeys := b.nkeys + 1, ent := store b.ent idx e }
    with hf
  set s7 := s6.modPage (s6.node c).page f with hs7
  have heff : Eff s6 s7 [] [] [(s6.node c).page] :=
    Eff.modPage s6 _ f (.inl (ge_of_eq hc.owned)) fun _ => rfl
  have hw7 : WayOk g s7 R c ((b, j') :: up') := by
    refine hc.way.congr heff hin.base ⟨rfl, rfl⟩ (fun _ _ => ⟨rfl, rfl⟩) (fun x hx => ?_) (by simp)
    rw [mem_singleton]
    exact hc.way.page_ne hx
  have hpages : ∀ x ∈ (b, j') :: up', s7.tree x.1 = s6.tree x.1 := fun x hx =>
    tree_modPage_of_ne f (hc.way.page_ne hx)
  have hstands : Stands s6 c ((b, j') :: up') (topNode c ((b, j') :: up')) := by
    refine (hin.graft c j' ?_).stands
    rcases hc.side with ⟨h1, h2, -⟩ | ⟨h1, h2, -⟩
    · exact .inl ⟨h1, h2⟩
    · exact .inr ⟨h1, h2⟩
  have hlink : layout.OnPath s7.pages (s7.node c).page (pagePath s7 ((b, j') :: up'))
      (s6.node (topNode c ((b, j') :: up'))).page := by
    refine onPath_modPage f hstands.link fun x hx => ?_
    obtain ⟨y, hy, rfl⟩ := mem_map.mp hx
    exact hc.way.page_ne hy
  refine wp_post (setLeaf_owned env g (heff.base hin.base (by simp)) hw7 ?_ (fun x hx => ?_) hlink)
    ?_
  · rw [Owned, hs7, tree_modPage_self]
    exact hc.owned
  · rw [Owned, hpages x hx]
    rcases mem_cons.mp hx with rfl | hx
    · exact hin.owned (b, j) (by simp)
    · exact hin.owned x (by simp [hx])
  · intro _ s' hra
    exact ⟨_, _, _, c, _, _, _, _, _, hin.filled hc hb hw hle hlt.le rfl, hra⟩

/-! ## The order of the halves -/

theorem LeafOk.putAt {b b' : EdBpt E} {lo hi : Nat} (h : LeafOk g lo hi b)
    (hat : GapAt b (fetch64 e) i) (hents : b'.ents = Eddy.putAt b.ents i e false)
    (hroom : b.nkeys < g.leafOrder) (hlo : lo ≤ fetch64 e) (hhi : fetch64 e < hi) :
    LeafOk g lo hi b' := by
  refine h.insert (m := 0) hat hents ?_ hlo hhi
  have hlen := congrArg List.length hents
  rw [Eddy.putAt, if_neg Bool.false_ne_true, length_append, length_cons, length_take,
    length_drop, length_ents, length_ents] at hlen
  omega

/-- Both halves are in order with the new entry in one of them. When the leaf is split where the
entry goes in, the separator is the key of the cursor, which the entry must not be below. -/
theorem SplitFilled.fence {k0 pl pr a : Nat}
    (hf : SplitFilled g s s3 d n up e m (rightKey (s.tree n) k0 (s.txn.db d).entryIndex m) pl pr c up'
      fresh dead built tall) (hat : InsertAt g s d (fetch64 e) n up r a b)
    (hcut : CutOk (s.tree n) k0 (s.txn.db d).entryIndex m)
    (hnew : m = (s.txn.db d).entryIndex → k0 ≤ fetch64 e) :
    Fence (layout.Ordered (LeafOk g) s3.pages 0) a
      [rightKey (s.tree n) k0 (s.txn.db d).entryIndex m] [pl, pr] b := by
  have hpos := hcut.pos
  have hlt := hcut.lt
  have hroom := hat.leaf.room
  have hgap := hat.gap
  set i := (s.txn.db d).entryIndex with hi
  set k := rightKey (s.tree n) k0 i m with hk
  obtain ⟨hL, hR⟩ := hcut.leafOk hat.leaf (ents_leafTake hlt.le) (ents_leafDrop _ m)
  have hak : a < k := ((hat.leaf.range 0 (by omega)).1).trans_lt (hcut.left 0 (by omega))
  have hkb : k < b := (hcut.right m le_rfl hlt).trans_lt (hat.leaf.range m hlt).2
  show a < k ∧ LeafOk g a k (s3.pages pl) ∧ k < b ∧ LeafOk g k b (s3.pages pr)
  have hcopy : ∀ {lo hi : Nat} {x y : EdBpt E}, LeafOk g lo hi x → y.ents = x.ents → LeafOk g lo hi y := by
    intro lo hi x y hx hxy
    refine .of_list ?_ (by rw [hxy]; exact hx.sortedEnts) fun z hz => ?_
    · rw [← length_ents, hxy, length_ents]
      exact hx.room
    · rw [hxy] at hz
      exact hx.mem_range hz
  rcases Nat.lt_or_ge i m with him | him
  · obtain ⟨-, hl, hr⟩ := hf.left him
    refine ⟨hak, ?_, hkb, hcopy hR (hr.trans (ents_leafDrop _ m).symm)⟩
    refine hL.putAt (i := i) ⟨him.le, hgap.before, fun j hj hj' => ?_⟩ ?_ ?_ hat.lo ?_
    · have hj'' : j < m := hj'
      exact hgap.after j hj (by omega)
    · rw [ents_leafTake hlt.le]
      exact hl
    · show m < g.leafOrder
      omega
    · exact (hgap.after i le_rfl (by omega)).trans_lt (hcut.left i him)
  · obtain ⟨-, hl, hr⟩ := hf.right him
    refine ⟨hak, hcopy hL (hl.trans (ents_leafTake hlt.le).symm), hkb, ?_⟩
    refine hR.putAt (i := i - m) ⟨?_, fun j hj => ?_, fun j hj hj' => ?_⟩ ?_ ?_ ?_ hat.hi
    · show i - m ≤ (s.tree n).nkeys - m
      exact Nat.sub_le_sub_right hgap.le m
    · exact hgap.before (m + j) (by omega)
    · have hj'' : j < (s.tree n).nkeys - m := hj'
      exact hgap.after (m + j) (by omega) (by omega)
    · rw [ents_leafDrop]
      exact hr
    · show (s.tree n).nkeys - m < g.leafOrder
      omega
    · rcases Nat.lt_or_ge m i with hmi | hmi
      · rw [rightKey, if_neg (by omega)]
        exact hgap.before m hmi
      · have hmi' : m = i := by omega
        rw [rightKey, if_pos hmi']
        exact hnew hmi'

theorem SplitFilled.entered {k0 pl pr a : Nat} {s4 : St E}
    (hf : SplitFilled g s s3 d n up e m (rightKey (s.tree n) k0 (s.txn.db d).entryIndex m) pl pr c up'
      fresh dead built tall) (h : TxnOk g s R T hs) (hat : InsertAt g s d (fetch64 e) n up r a b)
    (hlen : up.length = hs d) (hcut : CutOk (s.tree n) k0 (s.txn.db d).entryIndex m)
    (hnew : m = (s.txn.db d).entryIndex → k0 ≤ fetch64 e) (hra : Raised s3 s4 c j up')
    (hgood : Good s4) :
    Entered g s s4 R T hs (update hs d (up.length + tallness tall)) d
      (entsBefore s d n up) e (entsFrom s n up (s.txn.db d).entryIndex) := by
  refine hf.filled.entered (m := 0) h hat hlen (hf.fence hat hcut hnew) rfl hf.owned ?_ hra hgood
  have hput : ∀ (l : List E) i, 0 < (Eddy.putAt l i e false).length := fun l i => by
    rw [Eddy.putAt, if_neg Bool.false_ne_true, length_append, length_cons]
    omega
  have hpos := hcut.pos
  have hlt := hcut.lt
  -- one half has the new entry, the other one a part of the old leaf
  have hboth : 0 < (s3.pages pl).ents.length ∧ 0 < (s3.pages pr).ents.length := by
    rcases Nat.lt_or_ge (s.txn.db d).entryIndex m with him | him
    · rw [(hf.left him).2.1, (hf.left him).2.2, length_drop, length_ents]
      exact ⟨hput _ _, by omega⟩
    · rw [(hf.right him).2.1, (hf.right him).2.2, length_take, length_ents]
      exact ⟨by omega, hput _ _⟩
  rw [length_ents, length_ents] at hboth
  intro q hq
  rcases mem_cons.mp hq with rfl | hq
  · exact hboth.1
  · rw [mem_singleton.mp hq]
    exact hboth.2

end Split

/-! ## The first entry of a tree -/

section Fresh

variable {g} {s : St E} {R T : List Nat} {hs : EdDb → Nat} {d : EdDb} {e : E}

omit [EdEntry E] in
theorem rootNo_none (h : (s.txn.db d).root = none) : rootNo s d = none := by simp [rootNo, h]

variable (g) in
/-- The leaf of a tree that had no root: it is on a new page `p` and holds `e`. -/
structure FreshLeaf (s s' : St E) (d : EdDb) (c p : Nat) (e : E) : Prop where
  eff : Eff s s' [p] [] []
  lt : c < s'.txn.nused
  node : s'.node c = ⟨p, none, 0, false⟩
  nodes : ∀ m, m < s.txn.nused → s'.node m = s.node m
  type : (s'.pages p).type = .leaf
  ents : (s'.pages p).ents = [e]
  db : s'.txn.db = (s.modDb d fun x => { x with
    entry := some ⟨p, 0⟩, entryIndex := 0, find := some c, root := some c }).txn.db

omit [EdEntry E] in
theorem FreshLeaf.stands {s' : St E} {p : Nat} (hf : FreshLeaf s s' d c p e) : Stands s' c [] c :=
  ⟨⟨by rw [hf.node], by rw [hf.node]⟩, hf.lt, by simp, rfl, rfl⟩

/-- A tree that consists of one leaf with one entry. -/
theorem FreshLeaf.entered {s' : St E} {p : Nat} (hf : FreshLeaf s s' d c p e) (h : TxnOk g s R T hs)
    (hroot : (s.txn.db d).root = none) (hgood : Good s') :
    Entered g s s' R T hs (update hs d 0) d [] e [] := by
  have hdb : s'.txn.db d = _ := (congrFun hf.db d).trans (St.modDb_db_self ..)
  have hother : s'.txn.db d.other = s.txn.db d.other := by
    rw [hf.db, St.modDb_db_of_ne _ _ d.other_ne]
  have hroot' : (s'.txn.db d).root = some c := by rw [hdb]
  have hrs : rootNo s' d = some p := by simp [rootNo, hroot', hf.node]
  have hnone : ownPages s hs d = [] := by rw [ownPages, rootNo_none hroot, treePages_none]
  have hnk : (s'.pages p).nkeys = 1 := by rw [← length_ents, hf.ents]; rfl
  have hself : update hs d 0 d = 0 := update_self _ _ _
  refine {
    changed := {
      ok := ?_
      height := update_of_ne d.other_ne _ _
      root := h.other_root hf.eff hother
      page := h.other_page (d := d) hf.eff (by simp)
      db := hother }
    order := ?_
    ents := ?_
    full := fun _ => ?_ }
  · refine h.changed (d := d) hf.eff hgood (by simp) hother (fun m hm _ => ?_)
      (update_of_ne d.other_ne _ _) ?_ ?_ ⟨?_, ?_⟩
    · rw [hf.nodes m hm]
      exact ⟨rfl, rfl⟩
    · rw [hnone, ownPages, hrs, hself]
      exact List.Perm.refl _
    · rw [hrs, hself]
      refine ⟨fun q hq => absurd hq (not_mem_nil), fun q hq => ?_⟩
      rw [mem_singleton.mp hq]
      exact hf.type
    · intro h0
      rw [hroot'] at h0
      cases h0
    · intro r hr
      rw [hroot'] at hr
      cases hr
      exact ⟨c, [], by rw [hdb], hf.stands, Nat.zero_le _, fun _ => hself.symm⟩
  · rw [hrs, hself]
    rintro q ⟨⟩
    refine LeafOk.of_list (by rw [hnk]; exact Nat.le_of_succ_le g.leaf_ge) ?_ fun x hx => ?_
    · rw [hf.ents]
      exact pairwise_singleton ..
    · exact ⟨Nat.zero_le _, EdEntry.fetch64_lt x⟩
  · rw [hrs, hself]
    show [p].flatMap (fun q => (s'.pages q).ents) = [e]
    rw [flatMap_cons, hf.ents]
    rfl
  · rw [hrs, hself]
    intro q hq
    rw [mem_singleton.mp hq, hnk]
    exact Nat.one_pos

theorem insertIntoLeaf_fresh (h : TxnOk g s R T hs) (hroot : (s.txn.db d).root = none)
    (replace : Bool) :
    wp (insertIntoLeaf env g d e replace)
      (fun _ s' => Good s' ∧ ∃ c p, FreshLeaf s s' d c p e) (pageExits env False) s := by
  have hready : Ready s := ⟨h.base.writing, h.base.pgOk, h.good⟩
  refine wp_mono (wp_and (insertIntoLeaf_keep env g s hready d e replace) ?_)
    (fun _ _ hp => ⟨hp.1.good, hp.2⟩) (fun _ _ hp => hp.2) (fun _ _ hp => hp.2) fun hp => hp.2
  have hb := h.base
  have hfind := (h.cursor d).empty hroot
  unfold insertIntoLeaf roomInLeaf freshLeaf
  simp only [wp_bind, wp_getDb, wp_get]
  rw [hfind]
  simp only [wp_bind]
  refine wp_post (edTxnAlloc_eff env hb none 0) ?_
  rintro c s1 ⟨p, ha⟩
  have hcp : (s1.node c).page = p := by rw [ha.node]
  simp only [wp_modTree, wp_getNode, wp_modDb, wp_pure', St.modPage_node, hcp]
  rw [St.modDb_db_self]
  refine wp_storeEnt (show 0 < g.leafOrder from Nat.lt_of_lt_of_le (by decide) g.leaf_ge) ?_
  rw [St.modDb_modPage, St.modPage_modPage]
  set f : EdBpt E → EdBpt E := fun b => { b with type := .leaf, nkeys := 1, ent := store b.ent 0 e }
    with hf
  set fd : EdTxnDb → EdTxnDb := fun x => { x with entry := some ⟨p, 0⟩, entryIndex := 0, find := some c }
    with hfd
  have hb1 : Base s1 R := ha.eff.base hb (by simp)
  have hppg : p ∈ s1.txn.pg := by
    have : p ∈ s1.txn.used := by rw [ha.eff.used]; simp
    exact mem_of_mem_take this
  have e2 : Eff s ((s1.modPage p f).modDb d fd) [p] [] [] := by
    have h1 := ha.eff.trans (Eff.modPage s1 p f (.inr hppg) fun _ => rfl) hb
    simp only [append_nil, nil_append] at h1
    have h2 : Eff s (s1.modPage p f) [p] [] [] := h1.trim hb.pgOk (by simp)
    simpa using h2.trans (Eff.modDb (s1.modPage p f) d fd) hb
  set s2 := (s1.modPage p f).modDb d fd with hs2
  have hnode2 : s2.node c = ⟨p, none, 0, false⟩ := ha.node
  have hp2 : s2.pages p = f (s1.pages p) := St.modPage_pages_self s1 p f
  have hw2 : WayOk g s2 R c [] := {
    chain := ⟨by rw [hnode2], by rw [hnode2]⟩
    lt := ha.lt
    ltUp := by simp
    known := by rw [hnode2]; exact e2.known_fresh (by simp)
    knownUp := by simp
    live := by simp
    nodup := by simp [upPages]
    branch := by simp }
  have hown2 : Owned s2 c := by
    rw [Owned, tree_eq, hnode2, e2.freshXid p (by simp), e2.step.txid]
  have hlink : layout.OnPath s2.pages (s2.node c).page (pagePath s2 []) p := by rw [hnode2]; rfl
  refine wp_post (setLeaf_owned env g (e2.base hb (by simp)) hw2 hown2 (by simp) hlink) ?_
  intro _ s' hra
  obtain rfl : s' = _ := by
    cases hra with
    | same h => exact h
  refine ⟨c, p, ?_, ha.lt, hnode2, fun m hm => ha.nodes m hm, ?_, ?_, ?_⟩
  · have := e2.trans (Eff.modDb s2 d fun x => { x with root := some (topNode c []) }) hb
    simpa using this
  · show (s2.pages p).type = .leaf
    rw [hp2]
  · show (s2.pages p).ents = [e]
    rw [hp2]
    simp [hf, EdBpt.ents, slots_succ]
  · funext x
    by_cases hx : x = d
    · subst hx
      rw [St.modDb_db_self, hs2, St.modDb_db_self, St.modDb_db_self]
      show ({ fd (s1.txn.db x) with root := _ } : EdTxnDb) = _
      rw [ha.db]
      rfl
    · rw [St.modDb_db_of_ne _ _ hx, hs2, St.modDb_db_of_ne _ _ hx, St.modDb_db_of_ne _ _ hx]
      exact congrFun ha.db x

end Fresh

end Eddy
