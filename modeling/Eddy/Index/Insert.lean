import Eddy.Index.Order

/-!
# Eddy — an entry is put into a tree

`insert_into_leaf` makes room for the new entry, stores it and puts the leaf into the tree; when the
entry is the first one of its leaf, the separator in front of the leaf is rewritten.
-/

namespace Eddy

open Outcome Slots PageTree Layout Multimap Fencing List Function

variable {E : Type} [EdEntry E] (env : Env E) (g : Geom) {i j : Nat}
  {X : Exits EdErr EdFault (St E)} {replace : Bool} {f : EdTxnDb → EdTxnDb}

/-! ## The leaf with the new entry -/

/-- The leaf `n` was replaced by the leaves of `F`. They hold the entries `es`, and the node `c`
stands on one of them. -/
structure Filled (s s' : St E) (d : EdDb) (n : Nat) (up : List (Nat × Nat)) (es : List E)
    (F : Forest Nat) (c : Nat) (up' : List (Nat × Nat)) (fresh dead built : List Nat) (tall : Bool) :
    Prop where
  graft : Grafted g s s' n up F c up' fresh dead built tall
  type : ∀ q ∈ F.pages, (s'.pages q).type = .leaf
  ents : F.pages.flatMap (fun p => (s'.pages p).ents) = es
  root : (s'.txn.db d).root = some (topNode c up')
  find : (s'.txn.db d).find = some c
  other : s'.txn.db d.other = s.txn.db d.other

/-- A change to the tree of `d` that leaves the other tree alone. -/
structure Changed (s s' : St E) (R T : List Nat) (hs hs' : EdDb → Nat) (d : EdDb) : Prop where
  ok : TxnOk g s' R T hs'
  height : hs' d.other = hs d.other
  root : rootNo s' d.other = rootNo s d.other
  page : ∀ p ∈ ownPages s hs d.other, s'.pages p = s.pages p
  db : s'.txn.db d.other = s.txn.db d.other

section Tree

variable {g} {s s' s'' : St E} {R T fresh dead built : List Nat} {hs hs' hs'' : EdDb → Nat} {d : EdDb}
  {e : E} {es : List E} {n c r i m : Nat} {up up' : List (Nat × Nat)} {F : Forest Nat} {tall : Bool}

omit [EdEntry E] in
theorem Changed.ownPages (h : Changed g s s' R T hs hs' d) :
    ownPages s' hs' d.other = ownPages s hs d.other := by
  unfold Eddy.ownPages
  rw [h.root, h.height]
  exact treePages_congr h.page

omit [EdEntry E] in
theorem Changed.trans (h : Changed g s s' R T hs hs' d) (h' : Changed g s' s'' R T hs' hs'' d) :
    Changed g s s'' R T hs hs'' d where
  ok := h'.ok
  height := h'.height.trans h.height
  root := h'.root.trans h.root
  page p hp := (h'.page p (h.ownPages ▸ hp)).trans (h.page p hp)
  db := h'.db.trans h.db

section

variable (hf : Filled g s s' d n up es F c up' fresh dead built tall)

include hf

omit [EdEntry E] in
theorem Filled.changed (h : TxnOk g s R T hs) (hat : CursorAt s d n up r) (hlen : up.length = hs d)
    (hgood : Good s') :
    Changed g s s' R T hs (update hs d (up.length + tallness tall)) d where
  ok := h.grafted hat.root hat.stands hlen hf.graft hgood hf.type hf.other hf.root hf.find
  height := update_of_ne d.other_ne _ _
  root := h.other_root hf.graft.eff hf.other
  page := h.other_page hf.graft.eff fun p hp => by
    obtain ⟨hn, hup⟩ := mem_pages hat.root hat.stands (le_of_eq hlen)
    rcases mem_cons.mp hp with rfl | hp
    · exact hn
    · obtain ⟨x, hx, rfl⟩ := mem_map.mp hp
      exact hup x hx
  db := hf.other

theorem Filled.treeOk (h : TxnOk g s R T hs) (hat : CursorAt s d n up r) (hlen : up.length = hs d)
    {a b : Nat} (hhole : layout.Hole (LeafOk g) s.pages 0 (2 ^ 64) 0 (pagePath s up) a b)
    (hfence : Fence (layout.Ordered (LeafOk g) s'.pages 0) a F.keys F.pages b) :
    TreeOk g s'.pages (rootNo s' d) (up.length + tallness tall) := by
  have hbes := hf.graft.beside h hat.root hat.stands hlen
  intro p hp
  have hroot : rootNo s' d = some (s'.node (topNode c up')).page := by simp [rootNo, hf.root]
  rw [hroot] at hp
  cases hp
  have := hhole.grown hf.graft.grown hbes hfence
  rwa [Nat.zero_add, show (pagePath s up).length = up.length by simp [pagePath]] at this

omit [EdEntry E] in
/-- The entries of the new leaves are in the tree, where those of the old leaf were. -/
theorem Filled.treeEnts (h : TxnOk g s R T hs) (hat : CursorAt s d n up r)
    (hlen : up.length = hs d) :
    treeEnts s'.pages (rootNo s' d) (up.length + tallness tall)
      = (layout.leftOf s.pages 0 (pagePath s up)).flatMap (fun p => (s.pages p).ents)
        ++ es
        ++ (layout.rightOf s.pages 0 (pagePath s up)).flatMap (fun p => (s.pages p).ents) := by
  have hbes := hf.graft.beside h hat.root hat.stands hlen
  rw [treeEnts_grafted hf.graft hbes hf.root, hf.ents]

omit [EdEntry E] in
theorem Filled.noEmpty (h : TxnOk g s R T hs) (hat : CursorAt s d n up r) (hlen : up.length = hs d)
    (hne : ∀ q ∈ F.pages, 0 < (s'.pages q).nkeys) (h0 : NoEmpty s.pages (rootNo s d) (hs d)) :
    NoEmpty s'.pages (rootNo s' d) (up.length + tallness tall) := by
  have hbes := hf.graft.beside h hat.root hat.stands hlen
  have hold : treeLeaves s.pages (rootNo s d) (hs d) = layout.leftOf s.pages 0 (pagePath s up)
      ++ [(s.node n).page] ++ layout.rightOf s.pages 0 (pagePath s up) := by
    have := layout.leaves_of_onPath s.pages (h := 0) hat.stands.link
    rw [Nat.zero_add, show (pagePath s up).length = hs d by simp [pagePath, hlen]] at this
    rw [treeLeaves, rootNo, hat.root]
    exact this
  intro q hq
  rw [rootNo, hf.root, treeLeaves, Option.map_some, Option.elim_some, hf.graft.leaves hbes] at hq
  -- the leaves beside the place are the old ones
  have hside : q ∈ layout.leftOf s.pages 0 (pagePath s up) ++ layout.rightOf s.pages 0 (pagePath s up) →
      0 < (s'.pages q).nkeys := by
    intro hside
    rw [hbes q (mem_append_right _ hside)]
    refine h0 q ?_
    rw [hold]
    rcases mem_append.mp hside with hl | hl
    · exact mem_append_left _ (mem_append_left _ hl)
    · exact mem_append_right _ hl
  rcases mem_append.mp hq with hq | hq
  · rcases mem_append.mp hq with hq | hq
    · exact hside (mem_append_left _ hq)
    · exact hne q hq
  · exact hside (mem_append_right _ hq)

end

/-! ## The separator in front of the leaf -/

omit [EdEntry E] in
theorem treePages_kids {S S' : Nat → EdBpt E} {root : Option Nat} {h : Nat}
    (hk : ∀ q, (S' q).kids = (S q).kids) : treeInner S' root h = treeInner S root h ∧
      treeLeaves S' root h = treeLeaves S root h := by
  cases root with
  | none => exact ⟨rfl, rfl⟩
  | some p => exact ⟨layout.inner_congr fun q _ => hk q, layout.leaves_congr fun q _ => hk q⟩

omit [EdEntry E] in
theorem EdBpt.withKey_kids (b : EdBpt E) (i k : Nat) : (b.withKey i k).kids = b.kids := rfl

omit [EdEntry E] in
theorem EdBpt.withKey_seps {b : EdBpt E} {k : Nat} (hi : i < b.nkeys) :
    (b.withKey (i + 1) k).seps = b.seps.set i k := by
  apply ext_getElem?
  intro j
  rw [List.getElem?_set]
  by_cases hj : j < b.nkeys
  · by_cases hij : i = j
    · subst hij
      rw [if_pos rfl, if_pos (by simpa using hj)]
      exact (getElem?_seps (b := b.withKey (i + 1) k) hj).trans (by simp [EdBpt.withKey])
    · rw [if_neg hij, getElem?_seps hj]
      refine (getElem?_seps (b := b.withKey (i + 1) k) hj).trans ?_
      simp only [EdBpt.withKey]
      rw [store_of_ne _ _ (by omega)]
  · rw [List.getElem?_eq_none (by simp [EdBpt.withKey]; omega), if_neg (by omega),
      List.getElem?_eq_none (by simp; omega)]

variable {eidx : Nat}

section

variable (h : Raised s s' c eidx up)

include h

theorem Raised.cases :
    s' = s ∨ ∃ b i rest, up = (b, i + 1) :: rest ∧
      s' = s.modPage (s.node b).page fun x => x.withKey (i + 1) (fetch64 ((s.tree c).ent 0)) := by
  cases h with
  | same h => exact .inl h
  | @key b i rest h0 h => exact .inr ⟨b, i, rest, rfl, h⟩

theorem Raised.kids (q : Nat) : (s'.pages q).kids = (s.pages q).kids := by
  rcases h.cases with rfl | ⟨b, i, rest, rfl, rfl⟩
  · rfl
  · by_cases hq : q = (s.node b).page
    · subst hq
      rw [St.modPage_pages_self, EdBpt.withKey_kids]
    · rw [St.modPage_pages_of_ne _ _ hq]

theorem Raised.txn : s'.txn = s.txn := by
  rcases h.cases with rfl | ⟨b, i, rest, rfl, rfl⟩ <;> rfl

theorem Raised.rootNo (d : EdDb) : rootNo s' d = rootNo s d := by
  unfold Eddy.rootNo
  have hnode : ∀ x, s'.node x = s.node x := fun x => congrFun (congrArg EdTxn.nodes h.txn) x
  simp only [h.txn, hnode]

end

/-- The invariant of the transaction does not depend on the separators. -/
theorem TxnOk.raised (h : TxnOk g s R T hs) (hr : (s.txn.db d).root = some r)
    (hst : Stands s c up r) (hlen : up.length = hs d) (hown : ∀ x ∈ up, Owned s x.1)
    (hra : Raised s s' c eidx up) : TxnOk g s' R T hs := by
  have hkids := hra.kids
  have hroot := hra.rootNo
  rcases hra.cases with rfl | ⟨b, i, rest, rfl, rfl⟩
  · exact h
  set f : EdBpt E → EdBpt E := fun x => x.withKey (i + 1) (fetch64 ((s.tree c).ent 0)) with hf
  have hmem := (mem_pages hr hst (le_of_eq hlen)).2 (b, i + 1) (by simp)
  have he : Eff s (s.modPage (s.node b).page f) [] [] [(s.node b).page] :=
    Eff.modPage s _ f (.inl (ge_of_eq (hown (b, i + 1) (by simp)))) fun _ => rfl
  have hpages : ownPages (s.modPage (s.node b).page f) hs d = ownPages s hs d := by
    unfold ownPages treePages
    rw [hroot d, (treePages_kids hkids).1, (treePages_kids hkids).2]
  -- a branch with another separator is as well formed as before, a leaf is not touched
  have hok : ∀ q, (f (s.pages q)).type = (s.pages q).type ∧ (f (s.pages q)).nkeys = (s.pages q).nkeys :=
    fun q => ⟨rfl, rfl⟩
  have hpg : ∀ q, ((s.modPage (s.node b).page f).pages q).type = (s.pages q).type ∧
      ((s.modPage (s.node b).page f).pages q).nkeys = (s.pages q).nkeys := by
    intro q
    by_cases hq : q = (s.node b).page
    · subst hq
      rw [St.modPage_pages_self]
      exact hok _
    · rw [St.modPage_pages_of_ne _ _ hq]
      exact ⟨rfl, rfl⟩
  refine h.changed (d := d) he (h.good.congr rfl rfl rfl) ?_ rfl (fun _ _ _ => ⟨rfl, rfl⟩) rfl ?_ ?_ ?_
  · intro p hp
    rw [mem_singleton.mp hp]
    exact hmem
  · rw [hpages]
  · have hsh := h.shaped d
    rw [hroot d]
    constructor
    · intro q hq
      rw [(treePages_kids hkids).1] at hq
      obtain ⟨h1, h2, h3⟩ := hsh.branch q hq
      exact ⟨(hpg q).1.trans h1, by rw [(hpg q).2]; exact h2, by rw [(hpg q).2]; exact h3⟩
    · intro q hq
      rw [(treePages_kids hkids).2] at hq
      exact (hpg q).1.trans (hsh.leaf q hq)
  · obtain ⟨hempty, hstands⟩ := h.cursor d
    refine ⟨hempty, fun r' hr' => ?_⟩
    obtain ⟨n', up', hfind, hst', hle, heq⟩ := hstands r' hr'
    refine ⟨n', up', hfind, ?_, hle, heq⟩
    exact hst'.congr le_rfl (h.good.root d r' hr') (fun _ _ => rfl) ⟨rfl, rfl⟩
      (fun _ _ => ⟨rfl, rfl⟩) fun x _ => hkids _

omit [EdEntry E] in
theorem TxnOk.branch_not_leaf {b : Nat} {rest : List (Nat × Nat)} (h : TxnOk g s R T hs)
    (hr : (s.txn.db d).root = some r) (hst : Stands s c ((b, j) :: rest) r)
    (hlen : rest.length + 1 = hs d) : (s.node b).page ∉ treeLeaves s.pages (rootNo s d) (hs d) := by
  intro hmem
  have hbr := (h.wayOk hr hst (le_of_eq hlen)).branch (b, j) (by simp)
  have := (h.shaped d).leaf _ hmem
  rw [show s.pages (s.node b).page = s.tree b from rfl, hbr.1.type] at this
  cases this

theorem treeEnts_raised (h : TxnOk g s R T hs) (hr : (s.txn.db d).root = some r)
    (hst : Stands s c up r) (hlen : up.length = hs d) (hra : Raised s s' c eidx up) :
    Eddy.treeEnts s'.pages (rootNo s' d) (hs d) = Eddy.treeEnts s.pages (rootNo s d) (hs d) := by
  have hkids := hra.kids
  rw [hra.rootNo d]
  rcases hra.cases with rfl | ⟨b, i, rest, rfl, rfl⟩
  · rfl
  unfold Eddy.treeEnts
  rw [(treePages_kids hkids).2]
  refine flatMap_congr fun q hq => ?_
  have hne : q ≠ (s.node b).page := fun e => h.branch_not_leaf hr hst hlen (e ▸ hq)
  rw [St.modPage_pages_of_ne _ _ hne]

theorem NoEmpty.raised {h : Nat} (h0 : NoEmpty s.pages (rootNo s d) h)
    (hra : Raised s s' c eidx up) : NoEmpty s'.pages (rootNo s' d) h := by
  have hkids := hra.kids
  rw [hra.rootNo d]
  rcases hra.cases with rfl | ⟨b, i, rest, rfl, rfl⟩
  · exact h0
  intro q hq
  rw [(treePages_kids hkids).2] at hq
  by_cases hqb : q = (s.node b).page
  · rw [hqb, St.modPage_pages_self]
    exact hqb ▸ h0 q hq
  · rw [St.modPage_pages_of_ne _ _ hqb]
    exact h0 q hq

/-- The separator may move up to the first key of the leaf. -/
theorem TreeOk.raised (h : TxnOk g s R T hs) (ho : TreeOk g s.pages (rootNo s d) (hs d))
    (hr : (s.txn.db d).root = some r) (hst : Stands s c up r) (hlen : up.length = hs d)
    (hpos : 0 < (s.tree c).nkeys) (hra : Raised s s' c eidx up) :
    TreeOk g s'.pages (rootNo s' d) (hs d) := by
  have hrs : rootNo s d = some (s.node r).page := by simp [rootNo, hr]
  rw [hra.rootNo d]
  rcases hra.cases with rfl | ⟨b, i, rest, rfl, rfl⟩
  · exact ho
  intro p hp
  rw [hrs] at hp
  cases hp
  have hord := ho _ hrs
  have hnd : (layout.pages s.pages (hs d) (s.node r).page).Nodup := by
    have := (nodup_append.mp (nodup_append.mp (h.nodup d)).1).1
    rwa [ownPages, hrs, treePages_some] at this
  have hplen : (pagePath s rest).length + 1 = hs d := by
    rw [← hlen]
    simp [pagePath]
  rw [← hplen] at hord hnd ⊢
  obtain ⟨-, hidx, -⟩ := (h.wayOk hr hst (le_of_eq hlen)).branch (b, i + 1) (by simp)
  refine Ordered.raise (k := fetch64 ((s.tree c).ent 0)) hord hst.link (by decide) hnd
    (fun x _ => by simp) (fun x hx => St.modPage_pages_of_ne _ _ hx) ?_ ?_
    (fun _ _ _ _ hl hle => hl.mono hle) fun a b hl => ?_
  · rw [St.modPage_pages_self]
    rfl
  · rw [St.modPage_pages_self]
    exact EdBpt.withKey_seps (Nat.lt_of_succ_le hidx)
  · obtain ⟨h1, h2⟩ := hl.range 0 hpos
    exact ⟨h1, h2, hl.room, hl.sorted, fun j hj => ⟨hl.sorted 0 j (Nat.zero_le _) hj,
      (hl.range j hj).2⟩⟩

end Tree

/-! ## A leaf with room -/

section Expand

variable {g} {s : St E} {R T : List Nat} {hs : EdDb → Nat} {d : EdDb} {e : E} {n r : Nat}
  {up : List (Nat × Nat)}

omit [EdEntry E] in
theorem wp_storeEnt {p : Nat} {Q : Unit → St E → Prop} (hi : i < g.leafOrder)
    (hQ : Q () (s.modPage p fun b => { b with ent := store b.ent i e })) :
    wp (storeEnt g (some ⟨p, i⟩) e) Q X s := by
  unfold storeEnt
  rw [wp_ite]
  refine ⟨fun _ => ?_, fun h => absurd ⟨by simp, by simpa using hi⟩ h⟩
  rw [wp_modify]
  exact hQ

omit [EdEntry E] in
theorem wp_readEnt {p : Nat} {Q : E → St E → Prop} (hi : i < g.leafOrder)
    (hQ : Q ((s.pages p).ent i) s) : wp (readEnt g (some ⟨p, i⟩)) Q X s := by
  unfold readEnt
  rw [wp_ite]
  exact ⟨fun _ => hQ, fun h => absurd ⟨by simp, by simpa using hi⟩ h⟩

/-- The entries of a leaf after `e` was stored at slot `i`: in the place of the entry there, if there
is one, or in front of it. -/
def putAt (l : List E) (i : Nat) (e : E) (replace : Bool) : List E :=
  if replace then l.set i e else l.take i ++ e :: l.drop i

omit [EdEntry E] in
theorem ents_stored {b b' c : EdBpt E} (hle : i ≤ b.nkeys) (hroom : b.nkeys ≤ g.leafOrder)
    (hkept : replace = true → LeafKept g b b') (hopen : replace = false → LeafOpen b b' i)
    (hc : c = { b' with ent := store b'.ent i e }) : c.ents = putAt b.ents i e replace := by
  have hent : c.ent = store b'.ent i e := by rw [hc]
  have hnk : c.nkeys = b'.nkeys := by rw [hc]
  cases replace with
  | true =>
    obtain ⟨-, hn, hsame⟩ := hkept rfl
    rw [putAt, if_pos rfl, EdBpt.ents, hent, hnk, hn, ← set_slots]
    exact congrArg (List.set · i e) (slots_congr fun j hj => hsame j (by omega))
  | false =>
    obtain ⟨-, hn, hfront, hback⟩ := hopen rfl
    have hself : c.ent i = e := by rw [hent, store_self]
    have := ents_of_insert (hnk.trans hn) hle
      (fun j hj => by
        rw [hent, store_of_ne _ _ (by omega)]
        exact hfront j hj)
      hself fun j hj hj' => by
        rw [hent, store_of_ne _ _ (by omega)]
        exact hback j hj hj'
    rw [this, append_assoc]
    rfl

omit [EdEntry E] in
theorem CursorAt.leaf (hat : CursorAt s d n up r) (h : TxnOk g s R T hs)
    (hlen : up.length = hs d) : (s.tree n).type = .leaf := by
  refine (h.shaped d).leaf _ ?_
  have hrs : rootNo s d = some (s.node r).page := by simp [rootNo, hat.root]
  have := layout.leaves_of_onPath s.pages (h := 0) hat.stands.link
  rw [Nat.zero_add, show (pagePath s up).length = hs d by simp [pagePath, hlen]] at this
  rw [hrs, treeLeaves, Option.elim_some, this]
  exact mem_append_left _ (mem_append_right _ (mem_singleton.mpr rfl))

variable (g) in
/-- The entry was stored in a leaf with room, and the leaf `c` was put into the tree. -/
structure RoomFilled (s s' : St E) (d : EdDb) (n : Nat) (up : List (Nat × Nat)) (e : E)
    (replace : Bool) (c : Nat) (up' : List (Nat × Nat)) (fresh dead built : List Nat) : Prop where
  filled : Filled g s s' d n up (putAt (s.tree n).ents (s.txn.db d).entryIndex e replace)
    (.one (s'.node c).page) c up' fresh dead built false
  ents : (s'.tree c).ents = putAt (s.tree n).ents (s.txn.db d).entryIndex e replace
  room : (s'.tree c).nkeys ≤ g.leafOrder
  owned : ∀ x ∈ up', Owned s' x.1

/-- The entry goes into a leaf with room, or takes the place of another one. -/
theorem insert_room (h : TxnOk g s R T hs) (hat : CursorAt s d n up r) (hlen : up.length = hs d)
    (hilt : (s.txn.db d).entryIndex < g.leafOrder) (hfull : (s.tree n).nkeys ≤ g.leafOrder)
    (hroom : replace = false → (s.tree n).nkeys ≠ g.leafOrder) :
    wp (do
        let leaf ← expandLeaf env g d n (s.txn.db d).entryIndex replace
        let c ← getDb d
        storeEnt g c.entry e
        setLeaf env g d leaf (s.txn.db d).entryIndex)
      (fun _ s' => Lost env s' ∨ ∃ s3 c up' fresh dead built,
        RoomFilled g s s3 d n up e replace c up' fresh dead built ∧
        Raised s3 s' c (s.txn.db d).entryIndex up')
      (pageExits env False) s := by
  have hle := hat.le
  set i := (s.txn.db d).entryIndex with hi
  have hw := h.wayOk hat.root hat.stands (le_of_eq hlen)
  have hmem := (mem_pages hat.root hat.stands (le_of_eq hlen)).1
  rw [wp_bind]
  refine wp_mono (expandLeaf_spec env g h.base hw (h.live hmem) (h.xid_le hmem) hat.find replace
    hroom) ?_ (fun _ _ h => h) (fun _ _ h => h) fun hno => hno ⟨hle, hfull⟩
  rintro c s1 ⟨s0, fresh, dead, ep, hown, hkept, hopen⟩
  have hr0 := hown.rep
  set pc := (s0.node c).page with hpc
  -- the cursor points to the slot of the new entry
  have hep : ep = some ⟨pc, i⟩ := by
    rcases hown.entry with ⟨rfl, hep⟩ | hep
    · rw [hep, hat.entry, hpc, hr0.eff.step.node c hw.lt]
    · exact hep
  have hs1 := hown.eq
  rw [hep] at hs1
  have hdb1 : (s1.txn.db d).entry = some ⟨pc, i⟩ := by rw [hs1, St.modDb_db_self]
  rw [wp_bind, wp_getDb, hdb1, wp_bind]
  refine wp_storeEnt hilt ?_
  set f : EdBpt E → EdBpt E := fun b => { b with ent := store b.ent i e } with hf
  set s2 := s1.modPage pc f with hs2
  have hst02 : Stores s0 s2 [pc] := by
    rw [hs2, hs1, St.modDb_modPage]
    exact ((Stores.refl s0 _).modPage (by simp) f fun _ => rfl).modDb d _
  have he02 : Eff s0 s2 [] [] [pc] := hst02.eff fun p hp => by
    rw [mem_singleton.mp hp]
    exact ge_of_eq hr0.owned
  have hb0 : Base s0 R := hr0.base h.base hw.known
  have hb2 : Base s2 R := he02.base hb0 (by simp)
  have hw2 : WayOk g s2 R c up := by
    refine hr0.way.congr he02 hb0 ⟨by rw [hst02.node], by rw [hst02.node]⟩
      (fun x _ => ⟨by rw [hst02.node], by rw [hst02.node]⟩) (fun x hx => ?_) (by simp)
    rw [mem_singleton]
    exact hr0.way.page_ne hx
  have hpc2 : (s2.node c).page = pc := by rw [hst02.node]
  have ht2 : s2.pages pc = f (s0.tree c) := by
    rw [hs2, St.modPage_pages_self, hs1]
    rfl
  have hown2 : Owned s2 c := by
    rw [Owned, tree_eq, hpc2, ht2, he02.step.txid]
    exact hr0.owned
  refine wp_post (setLeaf_spec env g hb2 hw2 hown2) ?_
  rintro _ s' (hl' | ⟨s3, up', fresh', dead', hh, hra⟩)
  · exact .inl hl'
  refine .inr ⟨s3, c, up', fresh ++ fresh', dead ++ dead', upPages s3 up', ?_, hra⟩
  -- the leaf is not among the branches that were rebuilt
  have hpc3 : (s3.node c).page = pc := by rw [hh.eff.step.node c hw2.lt, hpc2]
  have hp3 : s3.tree c = f (s0.tree c) := by
    rw [tree_eq, hpc3, ← ht2]
    refine hh.eff.page hb2 (hpc2 ▸ hw2.known) fun hmem => ?_
    exact (nodup_cons.mp hw2.nodup).1 (hpc2 ▸ hmem)
  have hents := ents_stored hle hfull hkept hopen hp3
  have hleaf := hat.leaf h hlen
  have hhead : (s3.tree c).type = .leaf ∧ (s3.tree c).nkeys ≤ g.leafOrder := by
    rw [hp3]
    show (s0.tree c).type = .leaf ∧ (s0.tree c).nkeys ≤ g.leafOrder
    cases replace with
    | true => exact ⟨(hkept rfl).type.trans hleaf, by rw [(hkept rfl).nkeys]; exact hfull⟩
    | false =>
      have := hroom rfl
      exact ⟨(hopen rfl).type.trans hleaf, by rw [(hopen rfl).nkeys]; omega⟩
  refine ⟨?_, hents, hhead.2, hh.owned⟩
  exact {
    graft := by
      rw [hpc3]
      exact Grafted.of_hung h.base hw hr0 he02 hst02.node hh
    type := fun q hq => by
      rw [mem_singleton.mp hq]
      exact hhead.1
    ents := by
      simp only [Forest.pages, flatMap_cons, flatMap_nil, append_nil]
      exact hents
    root := by rw [hh.db, St.modDb_db_self]
    find := by
      rw [hh.db, St.modDb_db_self, hs2]
      show (s1.txn.db d).find = some c
      rw [hs1, St.modDb_db_self]
    other := by
      rw [hh.db, St.modDb_db_of_ne _ _ d.other_ne, hs2]
      show s1.txn.db d.other = _
      rw [hs1, St.modDb_db_of_ne _ _ d.other_ne, hr0.db] }

end Expand

/-! ## The tree with the new entry -/

section Entered

variable {g} {s s' s'' : St E} {R T fresh dead built : List Nat} {hs hs' : EdDb → Nat} {d : EdDb} {e : E}
  {n c r a b i : Nat} {up up' : List (Nat × Nat)} {replace : Bool}

omit [EdEntry E] in
theorem putAt_eq {l : List E} (hlt : replace = true → i < l.length) :
    putAt l i e replace = l.take i ++ e :: l.drop (i + if replace then 1 else 0) := by
  cases replace with
  | true => rw [putAt, if_pos rfl, set_eq_take_append_cons_drop, if_pos (hlt rfl)]; rfl
  | false => rfl

variable (g) in
/-- What an insertion leaves behind: the entry `e` stands between `pre` and `suf` in a tree that is in
order. -/
structure Entered (s s' : St E) (R T : List Nat) (hs hs' : EdDb → Nat) (d : EdDb) (pre : List E) (e : E)
    (suf : List E) : Prop where
  changed : Changed g s s' R T hs hs' d
  order : TreeOk g s'.pages (rootNo s' d) (hs' d)
  ents : treeEnts s'.pages (rootNo s' d) (hs' d) = pre ++ e :: suf
  full : NoEmpty s.pages (rootNo s d) (hs d) → NoEmpty s'.pages (rootNo s' d) (hs' d)

/-- The entry `e` was put into a list, and nothing else happened to it. -/
def PutInto (l l' : List E) (e : E) : Prop := ∃ pre suf, l = pre ++ suf ∧ l' = pre ++ e :: suf

omit [EdEntry E] in
theorem PutInto.length {l l' : List E} (h : PutInto l l' e) : l'.length = l.length + 1 := by
  obtain ⟨pre, suf, rfl, rfl⟩ := h
  simp only [length_append, length_cons]
  omega

theorem Changed.raised (h : Changed g s s' R T hs hs' d) (hr : (s'.txn.db d).root = some r)
    (hst : Stands s' c up' r) (hlen : up'.length = hs' d) (hown : ∀ x ∈ up', Owned s' x.1)
    (hra : Raised s' s'' c i up') : Changed g s s'' R T hs hs' d := by
  refine h.trans {
    ok := h.ok.raised hr hst hlen hown hra
    height := rfl
    root := hra.rootNo _
    page := fun p hp => ?_
    db := by rw [hra.txn] }
  rcases hra.cases with rfl | ⟨b, j, rest, rfl, rfl⟩
  · rfl
  · have hmem := (mem_pages hr hst (le_of_eq hlen)).2 (b, j + 1) (by simp)
    refine St.modPage_pages_of_ne _ _ fun heq => ?_
    exact h.ok.disjoint hmem (heq ▸ hp)

theorem Filled.entered {es : List E} {F : Forest Nat} {tall : Bool} {m : Nat}
    (hf : Filled g s s' d n up es F c up' fresh dead built tall) (h : TxnOk g s R T hs)
    (hat : InsertAt g s d (fetch64 e) n up r a b) (hlen : up.length = hs d)
    (hfence : Fence (layout.Ordered (LeafOk g) s'.pages 0) a F.keys F.pages b)
    (hes : es = (s.tree n).ents.take (s.txn.db d).entryIndex
      ++ e :: (s.tree n).ents.drop ((s.txn.db d).entryIndex + m)) (hown : ∀ x ∈ up', Owned s' x.1)
    (hne : ∀ q ∈ F.pages, 0 < (s'.pages q).nkeys) (hra : Raised s' s'' c j up') (hgood : Good s'') :
    Entered g s s'' R T hs (update hs d (up.length + tallness tall)) d
      (entsBefore s d n up) e (entsFrom s n up ((s.txn.db d).entryIndex + m)) := by
  have hgood' : Good s' := hgood.congr (by rw [hra.txn]) (by rw [hra.txn]) (by rw [hra.txn])
  have hch := hf.changed h hat.toCursorAt hlen hgood'
  have hst := hf.graft.stands
  have hself : update hs d (up.length + tallness tall) d = up.length + tallness tall :=
    update_self _ _ _
  have hlen' : up'.length = update hs d (up.length + tallness tall) d := by
    rw [hself, hf.graft.length]
  have ho := hf.treeOk h hat.toCursorAt hlen hat.hole hfence
  rw [← hself] at ho
  refine ⟨hch.raised hf.root hst hlen' hown hra, ?_, ?_, fun h0 => ?_⟩
  · exact TreeOk.raised hch.ok ho hf.root hst hlen' (hne _ hf.graft.mem) hra
  · rw [treeEnts_raised hch.ok hf.root hst hlen' hra, hself, hf.treeEnts h hat.toCursorAt hlen, hes,
      entsBefore, entsFrom]
    simp only [append_assoc, cons_append]
  · rw [hself]
    exact (hf.noEmpty h hat.toCursorAt hlen hne h0).raised hra

theorem RoomFilled.entered (hf : RoomFilled g s s' d n up e replace c up' fresh dead built)
    (h : TxnOk g s R T hs) (hat : InsertAt g s d (fetch64 e) n up r a b) (hlen : up.length = hs d)
    (hlt : replace = true → (s.txn.db d).entryIndex < (s.tree n).nkeys)
    (hra : Raised s' s'' c j up') (hgood : Good s'') :
    Entered g s s'' R T hs hs d (entsBefore s d n up) e
      (entsFrom s n up ((s.txn.db d).entryIndex + if replace then 1 else 0)) := by
  have hput : putAt (s.tree n).ents (s.txn.db d).entryIndex e replace = _ :=
    putAt_eq fun hr => by rw [length_ents]; exact hlt hr
  have hents := hf.ents
  rw [hput] at hents
  have hpos : 0 < (s'.tree c).nkeys := by
    rw [← length_ents, hents, length_append, length_cons]
    omega
  have := hf.filled.entered h hat hlen ⟨hat.lo.trans_lt hat.hi, ?_⟩ hput hf.owned
    (fun q hq => by rw [mem_singleton.mp hq]; exact hpos) hra hgood
  · rwa [show up.length + tallness false = hs d from hlen, update_eq_self] at this
  · exact hat.leaf.insert hat.gap hents hf.room hat.lo hat.hi

end Entered

/-! ## `ed_bpt_set` around the insertion -/

section Set

variable {g} {s : St E} {R T : List Nat} {hs hs' : EdDb → Nat} {d : EdDb} {e : E}

omit [EdEntry E] in
theorem TxnOk.modCursor (h : TxnOk g s R T hs) (hroot : (f (s.txn.db d)).root = (s.txn.db d).root)
    (hfind : (f (s.txn.db d)).find = (s.txn.db d).find)
    (hentry : (f (s.txn.db d)).entry = (s.txn.db d).entry)
    (hhas : (f (s.txn.db d)).hasfind = (s.txn.db d).hasfind) : TxnOk g (s.modDb d f) R T hs := by
  refine h.quiet (Quiet.modDb s d f hroot) (h.good.modDb_same d f hroot hfind hentry)
    (St.modDb_db_of_ne s f d.other_ne) (fun _ _ _ => ⟨rfl, rfl⟩) ⟨?_, ?_⟩
  · rw [St.modDb_db_self, hroot, hfind]
    exact (h.cursor d).empty
  · intro r hr
    rw [St.modDb_db_self, hroot] at hr
    obtain ⟨n, up, h1, h2, h3⟩ := (h.cursor d).stands r hr
    refine ⟨n, up, by rw [St.modDb_db_self, hfind]; exact h1, h2.modDb d f, ?_⟩
    rw [St.modDb_db_self, hhas]
    exact h3

omit [EdEntry E] in
theorem rootNo_modDb (hroot : (f (s.txn.db d)).root = (s.txn.db d).root) (d' : EdDb) :
    rootNo (s.modDb d f) d' = rootNo s d' := by
  unfold rootNo
  by_cases hd : d' = d
  · subst hd
    rw [St.modDb_db_self, hroot]
    rfl
  · rw [St.modDb_db_of_ne _ _ hd]
    rfl

theorem Entered.modCursor {s' : St E} {pre suf : List E} (h : Entered g s s' R T hs hs' d pre e suf)
    (hroot : (f (s'.txn.db d)).root = (s'.txn.db d).root)
    (hfind : (f (s'.txn.db d)).find = (s'.txn.db d).find)
    (hentry : (f (s'.txn.db d)).entry = (s'.txn.db d).entry)
    (hhas : (f (s'.txn.db d)).hasfind = (s'.txn.db d).hasfind) :
    Entered g s (s'.modDb d f) R T hs hs' d pre e suf where
  changed := h.changed.trans {
    ok := h.changed.ok.modCursor hroot hfind hentry hhas
    height := rfl
    root := rootNo_modDb hroot _
    page := fun _ _ => rfl
    db := St.modDb_db_of_ne _ _ d.other_ne }
  order := by
    rw [rootNo_modDb hroot]
    exact h.order
  ents := by
    rw [rootNo_modDb hroot]
    exact h.ents
  full := by
    rw [rootNo_modDb hroot]
    exact h.full

theorem wp_edBptSet (hwr : s.txn.isrdonly = false) (herr : s.txn.error = none)
    (hacc : (s.txn.db d).accepts (fetch64 e)) {Q : Unit → St E → Prop}
    (h : wp (insertIntoLeaf env g d e (replace && (s.txn.db d).matched))
      (fun _ s' => Q () (s'.modDb d fun c => c.inserted (fetch64 e)))
      ⟨fun err s' => X.err err (s'.modTxn fun t => { t with error := some err }), X.halt, X.stuck⟩ s) :
    wp (edBptSet env g d e replace) Q X s := by
  unfold edBptSet
  simp only [wp_bind, wp_gets, wp_ite, wp_throw, wp_onErr, wp_modDb]
  refine ⟨fun hro => ?_, fun _ => ⟨fun hno => absurd hacc hno, fun _ => h⟩⟩
  rw [edTxnIsrdonly, herr, hwr] at hro
  cases hro

theorem insertIntoLeaf_room {n r : Nat} {up : List (Nat × Nat)} (h : TxnOk g s R T hs)
    (hat : CursorAt s d n up r) (hlen : up.length = hs d)
    (hilt : (s.txn.db d).entryIndex < g.leafOrder) (hfull : (s.tree n).nkeys ≤ g.leafOrder)
    (hroom : replace = false → (s.tree n).nkeys ≠ g.leafOrder) :
    wp (insertIntoLeaf env g d e replace)
      (fun _ s' => Good s' ∧ (Lost env s' ∨ ∃ s3 c up' fresh dead built,
        RoomFilled g s s3 d n up e replace c up' fresh dead built ∧
        Raised s3 s' c (s.txn.db d).entryIndex up'))
      (pageExits env False) s := by
  have hready : Ready s := ⟨h.base.writing, h.base.pgOk, h.good⟩
  have hmain : wp (insertIntoLeaf env g d e replace)
      (fun _ s' => Lost env s' ∨ ∃ s3 c up' fresh dead built,
        RoomFilled g s s3 d n up e replace c up' fresh dead built ∧
        Raised s3 s' c (s.txn.db d).entryIndex up')
      (pageExits env False) s := by
    have := insert_room env h hat hlen hilt hfull hroom (e := e)
    unfold insertIntoLeaf roomInLeaf
    simp only [wp_bind, wp_getDb, wp_get] at this ⊢
    rw [hat.find]
    simp only [wp_ite]
    exact ⟨fun hno => absurd hno.2 (hroom hno.1), fun _ => this⟩
  exact wp_mono (wp_and (insertIntoLeaf_keep env g s hready d e replace) hmain)
    (fun _ _ hp => ⟨hp.1.good, hp.2⟩) (fun _ _ hp => hp.2) (fun _ _ hp => hp.2) fun hp => hp.2

end Set

end Eddy
