import Eddy.Index.Insert
import Eddy.Index.Start

/-!
# Eddy — `ed_bpt_del`: the entry at the cursor is removed

The leaf is cloned when an earlier transaction wrote it, and the clone is put into the tree before
the entries behind the cursor move one slot to the left. Leaves are never merged: the last entry of
a leaf leaves an empty one behind.
-/

namespace Eddy

open Outcome Slots PageTree Layout Multimap Fencing List Function

variable {E : Type} [EdEntry E] (env : Env E) (g : Geom)

section Own

variable {g} {s s1 : St E} {R T fresh dead built : List Nat} {hs : EdDb → Nat} {d : EdDb} {n c r : Nat}
  {up up' : List (Nat × Nat)}

variable (g) in
/-- The leaf `n` was made the leaf `c` of this transaction; the tree and the cursor follow. -/
structure OwnedLeaf (s s1 : St E) (d : EdDb) (n : Nat) (up : List (Nat × Nat)) (eidx c : Nat)
    (up' : List (Nat × Nat)) (fresh dead built : List Nat) : Prop where
  graft : Grafted g s s1 n up (.one (s1.node c).page) c up' fresh dead built false
  kept : LeafKept g (s.tree n) (s1.tree c)
  owned : Owned s1 c
  seps : pathSeps s1 up' = pathSeps s up
  db : s1.txn.db = (s.modDb d fun x => { x with
    root := some (topNode c up')
    find := some c
    entry := some ⟨(s1.node c).page, eidx⟩ }).txn.db

omit [EdEntry E] in
/-- The leaf to delete from: the leaf itself, or a clone that was put into the tree. -/
theorem ownForDel_spec (h : TxnOk g s R T hs) (hat : CursorAt s d n up r) (hlen : up.length = hs d) :
    wp (ownForDel env g d n (s.txn.db d).entryIndex)
      (fun c s1 => ∃ up' fresh dead built,
        OwnedLeaf g s s1 d n up (s.txn.db d).entryIndex c up' fresh dead built)
      (pageExits env False) s := by
  set i := (s.txn.db d).entryIndex with hi
  have hb := h.base
  have hw := h.wayOk hat.root hat.stands (le_of_eq hlen)
  have hmem := (mem_pages hat.root hat.stands (le_of_eq hlen)).1
  unfold ownForDel
  simp only [wp_bind, wp_get, wp_ite, wp_pure', wp_getNode, wp_modDb]
  refine ⟨fun hold => ?_, fun hnew => ?_⟩
  · refine wp_post (edTxnClone_eff env hb hw.lt hw.known (h.live hmem)) ?_
    rintro c s1 ⟨p, hc⟩
    have hcp : (s1.node c).page = p := by rw [hc.node]
    have hmt : s1.tree n = s.tree n := hc.eff.tree hb hw.lt hw.known (by simp)
    refine wp_moveLeaf g (fun h0 hno => hno (by simp)) ?_
    rw [hcp, hmt]
    set f : EdBpt E → EdBpt E := fun b => b.copyEnt (s.tree n) 0 0 g.leafOrder with hf
    have hrep := hc.replaced hb hw f fun _ => rfl
    set s2 := s1.modPage p f with hs2
    have hb2 := hrep.base hb hw.known
    refine wp_post (setNodeTop_spec env g d hb2 hrep.way hrep.owned) ?_
    rintro _ s3 ⟨up', fresh, dead, hh⟩
    have hpc3 : (s3.node c).page = p := by
      rw [hh.eff.step.node c hrep.way.lt, hs2, St.modPage_node, hcp]
    have ht3 : s3.tree c = s2.tree c :=
      hh.eff.tree hb2 hrep.way.lt hrep.way.known (nodup_cons.mp hrep.way.nodup).1
    have ht2 : s2.tree c = f (s1.pages p) := by
      rw [tree_eq, hs2, St.modPage_node, hcp, St.modPage_pages_self]
    have hgr := Grafted.of_hung hb hw hrep ((Eff.refl s2).mono (by simp)) (fun _ => rfl) hh
    have hup2 : pathSeps s2 up = pathSeps s up := map_congr_left fun x hx => by
      rw [tree_eq, tree_eq, hrep.eff.step.node x.1 (hw.ltUp x hx),
        hrep.page_known hb (hw.knownUp x hx) (hw.page_ne hx)]
    set fd : EdTxnDb → EdTxnDb :=
      fun x => { x with entry := some ⟨(s3.node c).page, i⟩, find := some c } with hfd
    refine ⟨up', [p] ++ fresh, [(s.node n).page] ++ dead, upPages s3 up', {
      graft := ?_
      kept := ⟨?_, ?_, fun j hj => ?_⟩
      owned := ?_
      seps := ?_
      db := ?_ }⟩
    · rw [St.modDb_node, hpc3]
      have hgr' : Grafted g s s3 n up (.one p) c up' ([p] ++ fresh) ([(s.node n).page] ++ dead)
          (upPages s3 up') false := by
        rwa [hs2, St.modPage_node, hcp] at hgr
      exact hgr'.content hb hw (Eff.modDb s3 d fd) (by simp) fun _ => rfl
    · rw [St.modDb_tree, ht3, ht2]
      exact hc.type
    · rw [St.modDb_tree, ht3, ht2]
      exact hc.nkeys
    · rw [St.modDb_tree, ht3, ht2]
      simp only [hf, EdBpt.copyEnt, blit]
      rw [if_pos (by omega)]
      congr 1
      omega
    · show (s3.tree c).xid = s3.txn.xid
      rw [ht3, hh.eff.step.txid]
      exact hrep.owned
    · exact hh.seps.trans hup2
    · funext e
      by_cases he : e = d
      · subst he
        simp only [St.modDb_db_self, St.modDb_node, hh.db, hrep.db, hfd]
      · simp only [St.modDb_db_of_ne _ _ he, hh.db, hrep.db]
  · have hown : Owned s n := le_antisymm (h.xid_le hmem) (not_lt.mp hnew)
    have htop := hat.stands.top
    have hst : Stands s n up (topNode n up) := by
      rw [htop]
      exact hat.stands
    refine ⟨up, [], [], upPages s up, {
      graft := Grafted.self hw hst
      kept := ⟨rfl, rfl, fun _ _ => rfl⟩
      owned := hown
      seps := rfl
      db := ?_ }⟩
    rw [St.modDb_eq_self]
    rw [htop, ← hat.root, ← hat.find, ← hat.entry]

end Own

/-! ## Closing the slot -/

section Close

variable {g} {s : St E} {R T : List Nat} {hs : EdDb → Nat} {d : EdDb} {n r i p : Nat}
  {up : List (Nat × Nat)} {Q : Unit → St E → Prop} {X : Exits EdErr EdFault (St E)}

/-- A leaf without its slot `i`; the length is set by its own store. -/
def EdBpt.closeSlot (b : EdBpt E) (i m : Nat) : EdBpt E :=
  { b with ent := blit b.ent i b.ent (i + 1) m }

omit [EdEntry E] in
theorem wp_shiftLeft {m : Nat} (hm : i + 1 + m ≤ g.leafOrder)
    (hQ : Q () (s.modPage p fun b => b.closeSlot i m)) :
    wp (shiftLeft g ⟨p, i⟩ m) Q X s := by
  unfold shiftLeft
  rw [wp_when, wp_ite]
  refine ⟨fun _ => ⟨fun _ => ?_, fun hno => absurd ?_ hno⟩, fun h0 => ?_⟩
  · rw [wp_modify]
    exact hQ
  · show (0 : Int) ≤ i ∧ (i : Int) + 1 + m ≤ g.leafOrder
    omega
  · -- nothing is moved
    obtain rfl : m = 0 := not_not.mp h0
    have hid : (fun b : EdBpt E => b.closeSlot i 0) = id := by
      funext b
      have hblit : blit b.ent i b.ent (i + 1) 0 = b.ent := by
        funext j
        rw [blit, if_neg (by omega)]
      simp only [EdBpt.closeSlot, hblit, id_eq]
    rwa [hid, St.modPage_id] at hQ

omit [EdEntry E] in
theorem ents_closeSlot {b : EdBpt E} (hi : i < b.nkeys) (hlt : b.nkeys < 2 ^ 16) {c : EdBpt E}
    (hc : c = { b.closeSlot i (b.nkeys - i - 1) with nkeys := nkeysAfterDel b.nkeys }) :
    c.ents = b.ents.eraseIdx i := by
  have hnk : c.nkeys = b.nkeys - 1 := by
    rw [hc]
    show nkeysAfterDel b.nkeys = _
    unfold nkeysAfterDel
    split <;> omega
  have hent : c.ent = blit b.ent i b.ent (i + 1) (b.nkeys - i - 1) := by rw [hc]; rfl
  have := slots_splice b.ent c.ent [] (n := b.nkeys) (i := i) (m := 1) (by omega)
    (fun j hj => by
      rw [hent, blit, if_neg (by omega)])
    (by simp) fun j hj hj' => by
      rw [hent, blit, if_pos (by simp; omega)]
      congr 1
      simp
      omega
  rw [EdBpt.ents, hnk, EdBpt.ents, eraseIdx_eq_take_drop_succ]
  simpa using this

variable (g) in
/-- What a deletion leaves behind: the tree without the entry at the cursor, and the cursor in front
of the entry that followed, on the leaf `c`. -/
structure Deleted (s s' : St E) (d : EdDb) (n : Nat) (up : List (Nat × Nat)) (c : Nat)
    (up' : List (Nat × Nat)) (fresh dead built : List Nat) : Prop where
  filled : Filled g s s' d n up ((s.tree n).ents.eraseIdx (s.txn.db d).entryIndex)
    (.one (s'.node c).page) c up' fresh dead built false
  ents : (s'.tree c).ents = (s.tree n).ents.eraseIdx (s.txn.db d).entryIndex
  seps : pathSeps s' up' = pathSeps s up
  db : s'.txn.db d = { s.txn.db d with
    root := some (topNode c up')
    find := some c
    entry := some ⟨(s'.node c).page, (s.txn.db d).entryIndex⟩
    kmax := slotMax s' c up' (s.txn.db d).entryIndex
    nmatches := 0
    hasentry := false }

theorem kmaxAfterDel_spec {c : Nat} (hst : Stands s c up r) (hlen : up.length < s.txn.nused)
    (hentry : (s.txn.db d).entry = some ⟨(s.node c).page, (s.txn.db d).entryIndex⟩)
    (hle : (s.txn.db d).entryIndex ≤ (s.tree c).nkeys) (hroom : (s.tree c).nkeys ≤ g.leafOrder)
    {Q : Nat → St E → Prop} (hQ : Q (slotMax s c up (s.txn.db d).entryIndex) s) :
    wp (kmaxAfterDel g d c) Q X s := by
  unfold kmaxAfterDel
  rw [wp_bind, wp_get, wp_ite]
  refine ⟨fun heq => ?_, fun hne => ?_⟩
  · refine findKmax_spec hst.chain (by omega) s ?_
    rwa [slotMax, if_neg (by omega)] at hQ
  · rw [hentry, wp_bind]
    refine wp_readEnt (by omega) ?_
    rwa [slotMax, if_pos (by omega)] at hQ

/-- `ed_bpt_del` at an entry removes this entry. -/
theorem edBptDel_spec (h : TxnOk g s R T hs) (hat : CursorAt s d n up r) (hlen : up.length = hs d)
    (herr : s.txn.error = none) (hfind : (s.txn.db d).hasfind = true)
    (hentry : (s.txn.db d).hasentry = true) (hi : (s.txn.db d).entryIndex < (s.tree n).nkeys)
    (hroom : (s.tree n).nkeys ≤ g.leafOrder) (hg : g.leafOrder < 2 ^ 16) :
    wp (edBptDel env g d)
      (fun res s' => res = 1 ∧ ∃ c up' fresh dead built, Deleted g s s' d n up c up' fresh dead built)
      (pageExits env False) s := by
  have hw := h.wayOk hat.root hat.stands (le_of_eq hlen)
  unfold edBptDel
  simp only [wp_bind, wp_gets, wp_ite, wp_throw, wp_pure']
  refine ⟨fun hro => ?_, fun _ => ⟨fun hno => ?_, fun _ => ⟨fun hno => ?_, fun _ => ?_⟩⟩⟩
  · rw [edTxnIsrdonly, herr, h.base.writing.wr] at hro
    cases hro
  · rw [hfind] at hno
    cases hno
  · rw [hentry] at hno
    cases hno
  rw [hat.find]
  simp only [wp_bind, wp_modTree, wp_modDb, wp_pure']
  refine wp_post (ownForDel_spec env h hat hlen) ?_
  rintro c s1 ⟨up', fresh, dead, built, ho⟩
  set i := (s.txn.db d).entryIndex with hidx
  set p := (s1.node c).page with hp
  have hdb1 : s1.txn.db d = { s.txn.db d with
      root := some (topNode c up'), find := some c, entry := some ⟨p, i⟩ } := by
    rw [ho.db, St.modDb_db_self]
  have hnk1 := ho.kept.nkeys
  have hcount : sub32 (sub32 (s1.tree c).nkeys i) 1 = (s1.tree c).nkeys - i - 1 := by
    unfold sub32
    omega
  unfold closeLeafSlot
  rw [wp_bind, wp_getTree, wp_bind, wp_getDb, hdb1]
  simp only [hcount]
  refine wp_shiftLeft (by omega) ?_
  rw [St.modPage_node, ← hp, St.modPage_modPage]
  set F : EdBpt E → EdBpt E := fun b =>
    { b.closeSlot i ((s1.tree c).nkeys - i - 1) with nkeys := nkeysAfterDel b.nkeys } with hF
  set s2 := s1.modPage p F with hs2
  have ht2 : s2.tree c = F (s1.tree c) := tree_modPage_self F
  have hents : (s2.tree c).ents = (s.tree n).ents.eraseIdx i := by
    rw [ents_closeSlot (by omega) (by omega) ht2]
    refine congrArg (List.eraseIdx · i) ?_
    rw [EdBpt.ents, EdBpt.ents, hnk1]
    exact slots_congr fun j hj => ho.kept.ent j (by omega)
  have hnk2 : (s2.tree c).nkeys = (s.tree n).nkeys - 1 := by
    have := congrArg List.length hents
    rwa [length_ents, length_eraseIdx, length_ents, if_pos hi] at this
  -- the branches above the leaf are not touched
  have hne : ∀ x ∈ up', (s1.node x.1).page ≠ p := by
    intro x hx heq
    have hnd := ho.graft.nodup h.base hw
    exact (nodup_append.mp (nodup_append.mp hnd).1).2.2 p (by simp [Forest.pages, hp]) p
      (heq ▸ ho.graft.sub x hx) rfl
  have hseps2 : pathSeps s2 up' = pathSeps s up := by
    rw [← ho.seps]
    refine map_congr_left fun x hx => ?_
    rw [hs2, tree_modPage_of_ne F (hne x hx)]
  have hg2 : Grafted g s s2 n up (.one p) c up' fresh dead built false := by
    refine ho.graft.content h.base hw (W := [p]) ?_ (by simp [Forest.pages, hp]) fun _ => rfl
    exact Eff.modPage s1 p F (.inl (ge_of_eq ho.owned)) fun _ => rfl
  have hdb2 : s2.txn.db d = s1.txn.db d := rfl
  have hidx2 : (s2.txn.db d).entryIndex = i := by rw [hdb2, hdb1]
  have hlt2 : up'.length < s2.txn.nused := by
    have h1 := hw.length_lt
    have h2 := ho.graft.length
    have h3 := hg2.eff.step.nused
    rw [show tallness false = 0 from rfl] at h2
    omega
  refine kmaxAfterDel_spec hg2.stands hlt2 (by rw [hdb2, hdb1]; rfl) (by omega) (by omega) ?_
  rw [hidx2]
  set fd : EdTxnDb → EdTxnDb := fun x =>
    { x with kmax := slotMax s2 c up' i, nmatches := 0, hasentry := false } with hfd
  have hmax : slotMax (s2.modDb d fd) c up' i = slotMax s2 c up' i := by
    have hfen : lowKey (s2.modDb d fd) up' = lowKey s2 up' ∧
        highKey (s2.modDb d fd) up' = highKey s2 up' := fences_congr fun _ _ => rfl
    simp only [slotMax, hfen.2]
    rfl
  refine ⟨trivial, c, up', fresh, dead, built, {
    filled := {
      graft := ?_
      type := fun q hq => ?_
      ents := ?_
      root := ?_
      find := ?_
      other := ?_ }
    ents := hents
    seps := hseps2
    db := ?_ }⟩
  · exact hg2.content h.base hw (Eff.modDb s2 d fd) (by simp) fun _ => rfl
  · rw [mem_singleton.mp hq]
    show (s2.tree c).type = .leaf
    rw [ht2]
    exact ho.kept.type.trans (hat.leaf h hlen)
  · simp only [Forest.pages, flatMap_cons, flatMap_nil, append_nil]
    exact hents
  · rw [St.modDb_db_self, hdb2, hdb1]
  · rw [St.modDb_db_self, hdb2, hdb1]
  · rw [St.modDb_db_of_ne _ _ d.other_ne]
    show s1.txn.db d.other = _
    rw [ho.db, St.modDb_db_of_ne _ _ d.other_ne]
  · rw [St.modDb_db_self, hdb2, hdb1, hmax]
    rfl

end Close

/-! ## The tree without the entry -/

section Tree

variable {g} {s s' : St E} {R T fresh dead built : List Nat} {hs : EdDb → Nat} {d : EdDb} {n c r : Nat}
  {up up' : List (Nat × Nat)}

variable (hd : Deleted g s s' d n up c up' fresh dead built)

include hd

theorem Deleted.nkeys (hi : (s.txn.db d).entryIndex < (s.tree n).nkeys) :
    (s'.tree c).nkeys = (s.tree n).nkeys - 1 := by
  have := congrArg List.length hd.ents
  rwa [length_ents, length_eraseIdx, length_ents, if_pos hi] at this

theorem Deleted.cursorAt (hi : (s.txn.db d).entryIndex < (s.tree n).nkeys) :
    CursorAt s' d c up' (topNode c up') where
  root := hd.filled.root
  find := hd.filled.find
  stands := hd.filled.graft.stands
  entry := by rw [hd.db]
  le := by
    rw [hd.nkeys hi, hd.db]
    show (s.txn.db d).entryIndex ≤ _
    omega

theorem Deleted.changed (h : TxnOk g s R T hs) (hat : CursorAt s d n up r) (hlen : up.length = hs d)
    (hgood : Good s') : Changed g s s' R T hs hs d := by
  have := hd.filled.changed h hat hlen hgood
  rwa [show up.length + tallness false = hs d from hlen, update_eq_self] at this

theorem Deleted.treeOk (h : TxnOk g s R T hs) (hat : CursorAt s d n up r) (hlen : up.length = hs d)
    (ho : TreeOk g s.pages (rootNo s d) up.length) :
    TreeOk g s'.pages (rootNo s' d) up'.length := by
  obtain ⟨a, b, hab, hhole, hl⟩ := ho.hole hat.root hat.stands
  have hsub := eraseIdx_sublist (s.tree n).ents (s.txn.db d).entryIndex
  have hroom := hl.room
  rw [hd.filled.graft.length]
  refine hd.filled.treeOk h hat hlen hhole ⟨hab, ?_⟩
  show LeafOk g a b (s'.tree c)
  refine .of_list ?_ ?_ fun e he => ?_
  · have := hsub.length_le
    rw [← hd.ents, length_ents, length_ents] at this
    omega
  · rw [hd.ents]
    exact hl.sortedEnts.sublist hsub
  · rw [hd.ents] at he
    exact hl.mem_range (hsub.subset he)

theorem Deleted.treeEnts (h : TxnOk g s R T hs) (hat : CursorAt s d n up r)
    (hlen : up.length = hs d) :
    Eddy.treeEnts s'.pages (rootNo s' d) (hs d)
      = entsBefore s d n up ++ entsFrom s n up ((s.txn.db d).entryIndex + 1) := by
  have := hd.filled.treeEnts h hat hlen
  rw [show up.length + tallness false = hs d from hlen, eraseIdx_eq_take_drop_succ] at this
  rw [this, entsBefore, entsFrom]
  simp only [append_assoc]

theorem Deleted.slotMin (hle : ∀ x ∈ up, x.2 ≤ (s.tree x.1).nkeys)
    (hi : (s.txn.db d).entryIndex < (s.tree n).nkeys) :
    slotMin s' c up' (s.txn.db d).entryIndex = Eddy.slotMin s n up (s.txn.db d).entryIndex := by
  obtain ⟨hlow, -⟩ := fences_of_seps hd.seps hle
  set i := (s.txn.db d).entryIndex with hidx
  unfold Eddy.slotMin
  split
  · exact hlow
  · have hnk := hd.nkeys hi
    have h1 : (s'.tree c).ents[i - 1]? = some ((s'.tree c).ent (i - 1)) :=
      getElem?_slots _ (by omega)
    have h2 : (s.tree n).ents[i - 1]? = some ((s.tree n).ent (i - 1)) := getElem?_slots _ (by omega)
    rw [hd.ents, List.getElem?_eraseIdx_of_lt (by omega), h2] at h1
    rw [Option.some.inj h1]

end Tree

/-! ## A deletion and an insertion in its place

`ed_bpt_del` leaves `match` as the search set it, so an insertion that may replace takes the entry
that followed the deleted one for the one that was found. -/

section Again

variable {g} {s s1 s2 : St E} {R T : List Nat} {hs : EdDb → Nat} {d : EdDb} {e : E} {k : Nat}
  {p : Option EntPtr}

theorem error_of_del {v : Nat} (h : edBptDel env g d s1 = .ok v s2) : s1.txn.error = none := by
  have hwp : wp (edBptDel env g d) (fun _ _ => s1.txn.error = none) Prog.free s1 := by
    unfold edBptDel
    rw [wp_bind, wp_gets, wp_ite]
    refine ⟨fun _ => trivial, fun hro => ?_⟩
    have hnone : s1.txn.error = none := by
      rw [edTxnIsrdonly] at hro
      cases he : s1.txn.error with
      | none => rfl
      | some x => simp [he] at hro
    exact wp_free_of fun _ _ _ => hnone
  exact wp_ok hwp h

theorem atKey_of_found (h : TxnOk g s R T hs) (hfind : edBptFind env g d k s = .ok (1, p) s1) :
    TxnOk g s1 R T hs ∧ Quiet s s1 ∧ ∃ n up r, AtKey s1 d k n up r ∧ up.length = hs d ∧
      (s1.txn.db d).matched = true := by
  have hs := wp_ok (edBptFind_spec env g h k) hfind
  refine ⟨hs.ok, hs.quiet, ?_⟩
  rcases hs.place with ⟨-, hres⟩ | ⟨n, up, r, hat, hlen, hres⟩
  · cases hres
  · refine ⟨n, up, r, hat, hlen, ?_⟩
    by_contra hno
    rw [if_neg hno] at hres
    cases hres

theorem deleted_of_found (hg : g.leafOrder < 2 ^ 16) (h : TxnOk g s R T hs)
    (ho : TreeOk g s.pages (rootNo s d) (hs d)) (hfind : edBptFind env g d k s = .ok (1, p) s1)
    {v : Nat} (hdel : edBptDel env g d s1 = .ok v s2) :
    ∃ n up r c up' fresh dead built, TxnOk g s1 R T hs ∧ Quiet s s1 ∧ AtKey s1 d k n up r ∧
      up.length = hs d ∧ (s1.txn.db d).matched = true ∧ TreeOk g s1.pages (rootNo s1 d) up.length ∧
      Deleted g s1 s2 d n up c up' fresh dead built ∧ TxnOk g s2 R T hs := by
  obtain ⟨h1, hq, n, up, r, hat, hlen, hm⟩ := atKey_of_found env h hfind
  have ho1 : TreeOk g s1.pages (rootNo s1 d) up.length := by
    rw [hq.pages, hq.rootNo h.good, hlen]
    exact ho
  have hi : (s1.txn.db d).entryIndex < (s1.tree n).nkeys := (hat.matched.mp hm).1
  obtain ⟨a, b, -, hhole, hl⟩ := ho1.hole hat.root hat.stands
  have hready : Ready s1 := ⟨h1.base.writing, h1.base.pgOk, h1.good⟩
  have hgood : Good s2 := (wp_ok (edBptDel_keep env g s1 hready d) hdel).good
  obtain ⟨-, c, up', fresh, dead, built, hd⟩ := wp_ok (edBptDel_spec env h1 hat.toCursorAt hlen
    (error_of_del env hdel) hat.hasfind (hat.hasentry.trans hm) hi hl.room hg) hdel
  exact ⟨n, up, r, c, up', fresh, dead, built, h1, hq, hat, hlen, hm, ho1, hd,
    (hd.changed h1 hat.toCursorAt hlen hgood).ok⟩

/-- The place of the deleted entry, where every accepted key may go in. -/
structure AfterDel (g : Geom) (s : St E) (R T : List Nat) (hs : EdDb → Nat) (d : EdDb) (n : Nat)
    (up : List (Nat × Nat)) (r : Nat) : Prop extends CursorAt s d n up r where
  ok : TxnOk g s R T hs
  order : TreeOk g s.pages (rootNo s d) (hs d)
  length : up.length = hs d
  error : s.txn.error = none
  room : (s.tree n).nkeys < g.leafOrder
  matched : (s.txn.db d).matched = true
  insertAt : ∀ k, (s.txn.db d).accepts k → ∃ a b, InsertAt g s d k n up r a b

theorem afterDel_of_found (hg : g.leafOrder < 2 ^ 16) (h : TxnOk g s R T hs)
    (ho : TreeOk g s.pages (rootNo s d) (hs d)) (hfind : edBptFind env g d k s = .ok (1, p) s1)
    (hdel : edBptDel env g d s1 = .ok 1 s2) : ∃ n up r, AfterDel g s2 R T hs d n up r := by
  obtain ⟨n, up, r, c, up', fresh, dead, built, h1, hq, hat, hlen, hm, ho1, hd, h2⟩ :=
    deleted_of_found env hg h ho hfind hdel
  have hi : (s1.txn.db d).entryIndex < (s1.tree n).nkeys := (hat.matched.mp hm).1
  obtain ⟨a, b, -, hhole, hl⟩ := ho1.hole hat.root hat.stands
  have hcur := hd.cursorAt hi
  have hlen' : up'.length = hs d := hd.filled.graft.length.trans hlen
  have ho2 := hd.treeOk h1 hat.toCursorAt hlen ho1
  have hidx : (s2.txn.db d).entryIndex = (s1.txn.db d).entryIndex := by rw [hd.db]
  have hroom := hl.room
  have hnk := hd.nkeys hi
  refine ⟨c, up', topNode c up', {
    hcur with
    ok := h2
    order := hlen' ▸ ho2
    length := hlen'
    error := hd.filled.graft.eff.error.trans (error_of_del env hdel)
    room := by omega
    matched := by rw [hd.db]; exact hm
    insertAt := fun k' hacc => ho2.insertAt hcur ?_ ?_ }⟩
  · have hle := fun x hx => (h1.wayOk hat.root hat.stands (le_of_eq hlen)).branch x hx
    rw [hidx, hd.slotMin (fun x hx => (hle x hx).2.1) hi, ← hat.kmin]
    have := hacc.2.1
    rwa [hd.db] at this
  · have := hacc.2.2
    rw [hidx]
    rwa [hd.db] at this

theorem RoomFilled.length {s' s'' : St E} {c n r i : Nat} {up up' : List (Nat × Nat)}
    {fresh dead built : List Nat} (hf : RoomFilled g s s' d n up e true c up' fresh dead built)
    (h : TxnOk g s R T hs) (hat : CursorAt s d n up r) (hlen : up.length = hs d)
    (hra : Raised s' s'' c i up') (hgood : Good s'') :
    (treeEnts s''.pages (rootNo s'' d) (hs d)).length
      = (treeEnts s.pages (rootNo s d) (hs d)).length := by
  have hgood' : Good s' := hgood.congr (by rw [hra.txn]) (by rw [hra.txn]) (by rw [hra.txn])
  have hch := hf.filled.changed h hat hlen hgood'
  have hents := hf.filled.treeEnts h hat hlen
  rw [show up.length + tallness false = hs d from hlen] at hch hents
  rw [update_eq_self] at hch
  have hlen' : up'.length = hs d := hf.filled.graft.length.trans hlen
  rw [treeEnts_raised hch.ok hf.filled.root hf.filled.graft.stands hlen' hra, hents, ← hlen,
    treeEnts_stands hat.root hat.stands]
  simp only [putAt, if_true, length_append, length_set]

/-- After a deletion an insertion with an accepted key succeeds; it puts the entry into the tree and
leaves the other entries alone exactly when it was not asked to replace. The tree is in order then. -/
theorem putInto_after_del_iff (hg : g.leafOrder < 2 ^ 16) (hcalm : ¬ Refused env)
    (h : TxnOk g s R T hs) (ho : TreeOk g s.pages (rootNo s d) (hs d))
    (hfind : edBptFind env g d k s = .ok (1, p) s1) (hdel : edBptDel env g d s1 = .ok 1 s2)
    (hacc : (s2.txn.db d).accepts (fetch64 e)) (replace : Bool) :
    ∃ s3, edBptSet env g d e replace s2 = .ok () s3 ∧
      (PutInto (treeEnts s2.pages (rootNo s2 d) (hs d)) (treeEnts s3.pages (rootNo s3 d) (hs d)) e ↔
        replace = false) ∧
      (replace = false → TreeOk g s3.pages (rootNo s3 d) (hs d)) := by
  obtain ⟨n, up, r, ha⟩ := afterDel_of_found env hg h ho hfind hdel
  have hat := ha.toCursorAt
  obtain ⟨a, b, hins⟩ := ha.insertAt _ hacc
  have hready : Ready s2 := ⟨ha.ok.base.writing, ha.ok.base.pgOk, ha.ok.good⟩
  have hilt : (s2.txn.db d).entryIndex < g.leafOrder := hat.le.trans_lt ha.room
  have hset : wp (edBptSet env g d e replace)
      (fun _ s3 => (PutInto (treeEnts s2.pages (rootNo s2 d) (hs d))
          (treeEnts s3.pages (rootNo s3 d) (hs d)) e ↔ replace = false) ∧
        (replace = false → TreeOk g s3.pages (rootNo s3 d) (hs d)))
      ⟨fun _ _ => Refused env, fun _ _ => True, False⟩ s2 := by
    refine wp_edBptSet env ha.ok.base.writing.wr ha.error hacc ?_
    rw [ha.matched, Bool.and_true]
    refine wp_mono (insertIntoLeaf_room env ha.ok hat ha.length hilt ha.room.le
      fun _ => ha.room.ne) ?_ (fun _ _ hl => hl.2) (fun _ _ _ => trivial) False.elim
    rintro _ s3 ⟨hgood, hl | ⟨s', c, up', fresh, dead, built, hf, hra⟩⟩
    · exact absurd hl.2 hcalm
    rw [rootNo_modDb rfl]
    show (PutInto _ (treeEnts s3.pages _ _) e ↔ _) ∧ (_ → TreeOk g s3.pages _ _)
    cases replace with
    | false =>
      have hent := hf.entered ha.ok hins ha.length (fun h0 => by cases h0) hra hgood
      refine ⟨iff_of_true ⟨entsBefore s2 d n up, _, ?_, hent.ents⟩ rfl, fun _ => hent.order⟩
      rw [← ha.length]
      exact hat.ents
    | true =>
      refine ⟨iff_of_false (fun hp => ?_) (by decide), fun h0 => absurd h0 (by decide)⟩
      have h1 := hp.length
      rw [hf.length ha.ok hat ha.length hra hgood] at h1
      omega
  obtain ⟨⟨⟩, s3, hrun, hiff⟩ := ok_of_wp (wp_and hset (edBptSet_keep env g s2 hready d e _))
    (fun _ _ hx => hcalm hx.1) (fun _ _ hx => hx.2) fun hx => hx.1
  exact ⟨s3, hrun, hiff.1⟩

end Again

section Small

/-- The search for 5 in the leaf with the entries 5 and 9. -/
def foundFive : St UInt64 := (edBptFind Env.calm Geom.page4096 .keys 5).after (leafSt [5, 9])

/-- The leaf after the entry 5 was deleted. -/
def withoutFive : St UInt64 := (edBptDel Env.calm Geom.page4096 .keys).after foundFive

theorem foundFive_run :
    ∃ p, edBptFind Env.calm Geom.page4096 .keys 5 (leafSt [5, 9]) = .ok (1, p) foundFive := by
  have hret : (edBptFind Env.calm Geom.page4096 .keys 5).returns (fun r => r.1 == 1)
      (leafSt [5, 9]) = true := by decide +kernel
  obtain ⟨⟨v, p⟩, hrun, hv⟩ := ok_of_returns hret
  obtain rfl : v = 1 := by simpa using hv
  exact ⟨p, hrun⟩

theorem withoutFive_run : edBptDel Env.calm Geom.page4096 .keys foundFive = .ok 1 withoutFive := by
  have hret : (edBptDel Env.calm Geom.page4096 .keys).returns (fun r => r == 1) foundFive = true := by
    decide +kernel
  obtain ⟨v, hrun, hv⟩ := ok_of_returns hret
  obtain rfl : v = 1 := by simpa using hv
  exact hrun

theorem putInto_after_del_five :
    ∃ s3, edBptSet Env.calm Geom.page4096 .keys 7 false withoutFive = .ok () s3 ∧
      (PutInto (treeEnts withoutFive.pages (rootNo withoutFive .keys) 0)
        (treeEnts s3.pages (rootNo s3 .keys) 0) 7 ↔ false = false) ∧
      (false = false → TreeOk Geom.page4096 s3.pages (rootNo s3 .keys) 0) := by
  obtain ⟨p, hfind⟩ := foundFive_run
  exact putInto_after_del_iff Env.calm (by decide) calm_grants
    (leafSt_started _ [5, 9]).txnOk (leafSt_treeOk (by decide) (by decide)) hfind withoutFive_run
    (by decide +kernel) false

/-- The entry 9 is lost when 7 is stored with `replace` after 5 was deleted. -/
theorem following_overwritten : ∃ p s3,
    edBptFind Env.calm Geom.page4096 .keys 5 (leafSt [5, 9]) = .ok (1, p) foundFive ∧
    edBptDel Env.calm Geom.page4096 .keys foundFive = .ok 1 withoutFive ∧
    (withoutFive.txn.db .keys).accepts (fetch64 (7 : UInt64)) ∧
    edBptSet Env.calm Geom.page4096 .keys 7 true withoutFive = .ok () s3 ∧
    treeEnts withoutFive.pages (rootNo withoutFive .keys) 0 = [9] ∧
    treeEnts s3.pages (rootNo s3 .keys) 0 = [7] := by
  obtain ⟨p, hfind⟩ := foundFive_run
  have hret : (edBptSet Env.calm Geom.page4096 .keys 7 true).returns (fun _ => true) withoutFive
      = true := by decide +kernel
  obtain ⟨⟨⟩, hrun, -⟩ := ok_of_returns hret
  exact ⟨p, _, hfind, withoutFive_run, by decide +kernel, hrun, by decide +kernel, by decide +kernel⟩

end Small

end Eddy
