import Eddy.Index.SplitLeaf
import Eddy.Lib.Multimap
import Eddy.Lib.SearchTree

/-!
# Eddy — the order of the entries

The entries of a tree are sorted by their keys, and the separators of the branches fence them in.
-/

namespace Eddy

open Outcome Slots PageTree Layout Multimap Fencing List

variable {E : Type} [EdEntry E] (g : Geom) {e : E} {h a k i : Nat}

/-- The entries of a leaf are sorted, and their keys lie in the range `[lo, hi)`. -/
structure LeafOk (lo hi : Nat) (b : EdBpt E) : Prop where
  room : b.nkeys ≤ g.leafOrder
  sorted : ∀ j j', j ≤ j' → j' < b.nkeys → fetch64 (b.ent j) ≤ fetch64 (b.ent j')
  range : ∀ j, j < b.nkeys → lo ≤ fetch64 (b.ent j) ∧ fetch64 (b.ent j) < hi

/-- The separators of a tree fence in its entries. -/
def TreeOk (S : Nat → EdBpt E) (root : Option Nat) (h : Nat) : Prop :=
  ∀ p, root = some p → layout.Ordered (LeafOk g) S h 0 (2 ^ 64) p

/-- The smallest key of child `j` of a branch. -/
def EdBpt.kidMin (b : EdBpt E) (min j : Nat) : Nat := if j = 0 then min else b.key j

/-- The largest key of child `j` of a branch. -/
def EdBpt.kidMax (b : EdBpt E) (max j : Nat) : Nat :=
  if j < b.nkeys then pred64 (b.key (j + 1)) else max

/-- The keys of a leaf. -/
def EdBpt.entKeys (b : EdBpt E) : List Nat := b.ents.map fetch64

variable {g} {S : Nat → EdBpt E} {b : EdBpt E} {lo hi : Nat}

omit [EdEntry E] in
theorem mem_ents : e ∈ b.ents ↔ ∃ j, j < b.nkeys ∧ b.ent j = e := by
  unfold EdBpt.ents
  exact mem_slots

theorem LeafOk.keys (h : LeafOk g lo hi b) :
    b.entKeys.Pairwise (· ≤ ·) ∧ ∀ k ∈ b.entKeys, lo ≤ k ∧ k < hi := by
  unfold EdBpt.entKeys
  refine ⟨?_, fun k hk => ?_⟩
  · rw [pairwise_map, pairwise_iff_getElem]
    intro i j hi hj hij
    simp only [EdBpt.ents, getElem_slots]
    exact h.sorted i j hij.le (by simpa using hj)
  · obtain ⟨e, he, rfl⟩ := mem_map.mp hk
    obtain ⟨j, hj, rfl⟩ := mem_ents.mp he
    exact h.range j hj

theorem LeafOk.mono {hi' : Nat} (h : LeafOk g lo hi b) (hle : hi ≤ hi') : LeafOk g lo hi' b :=
  ⟨h.room, h.sorted, fun j hj => ⟨(h.range j hj).1, (h.range j hj).2.trans_le hle⟩⟩

theorem entKeys_flatMap (l : List Nat) :
    (l.flatMap fun q => (S q).entKeys) = (l.flatMap fun q => (S q).ents).map fetch64 := by
  rw [map_flatMap]
  rfl

theorem TreeOk.sorted {root : Option Nat} (ho : TreeOk g S root h) :
    Sorted fetch64 (treeEnts S root h) := by
  cases root with
  | none => exact List.Pairwise.nil
  | some p =>
    have := (Ordered.sorted (f := EdBpt.entKeys) (fun _ _ _ hl => hl.keys) (ho p rfl)).1
    rw [entKeys_flatMap, pairwise_map] at this
    exact this

theorem TreeOk.room {root : Option Nat} (ho : TreeOk g S root h) {q : Nat}
    (hq : q ∈ treeLeaves S root h) : (S q).nkeys ≤ g.leafOrder := by
  cases root with
  | none => cases hq
  | some p =>
    obtain ⟨a, b, hl⟩ := (ho p rfl).leaf hq
    exact hl.room

/-- A separator that lies in the range of a hole fits in between the others. -/
theorem Hole.fits {b : Nat} {path : List (Nat × Nat)}
    (hh : layout.Hole (LeafOk g) S lo hi h path a b) (ha : a ≤ k) (hb : k < b) : Fits S k path := by
  induction path generalizing h a b k with
  | nil => trivial
  | cons x rest ih =>
    obtain ⟨q, i⟩ := x
    obtain ⟨a', b', hbef, haft, hrest⟩ := hh
    have hle : i ≤ (S q).nkeys := by
      have := hbef.length
      simp only [layout_kids, layout_seps, length_take, length_kids, length_seps] at this
      omega
    have hsep : ∀ j, 1 ≤ j → j ≤ (S q).nkeys → (S q).seps[j - 1]? = some ((S q).key j) := by
      intro j h1 h2
      rw [getElem?_seps (by omega), Nat.sub_add_cancel h1]
    -- the separators in front of the hole and those behind it
    have hfront : ∀ j, 1 ≤ j → j ≤ i → (S q).key j ∈ (S q).seps.take i := fun j h1 h2 =>
      mem_of_getElem? (i := j - 1) (by
        rw [List.getElem?_take_of_lt (by omega)]
        exact hsep j h1 (by omega))
    have hback : ∀ j, i < j → j ≤ (S q).nkeys → (S q).key j ∈ (S q).seps.drop i := fun j h1 h2 =>
      mem_of_getElem? (i := j - 1 - i) (by
        rw [List.getElem?_drop, show i + (j - 1 - i) = j - 1 by omega]
        exact hsep j (by omega) h2)
    refine ⟨fun j h1 h2 => ?_, fun j h1 h2 => ?_, fun j h1 h2 => ih hrest ?_ ?_⟩
    · exact ((hbef.le.2 _ (hfront j h1 h2)).2).trans ha
    · exact hb.trans_le (haft.ge.2 _ (hback j h1 h2)).1
    · rcases Nat.lt_or_ge i j with hij | hij
      · have h3 := (haft.ge.2 _ (hback j hij h2)).1
        have h4 := hbef.le.1
        omega
      · exact (hbef.le.2 _ (hfront j h1 hij)).1.le
    · rcases Nat.lt_or_ge i j with hij | hij
      · exact (haft.ge.2 _ (hback j hij h2)).2
      · have h3 := (hbef.le.2 _ (hfront j h1 hij)).2
        have h4 := haft.ge.1
        omega

/-! ## Leaves given by their entries -/

theorem LeafOk.of_list (hr : b.nkeys ≤ g.leafOrder) (hs : Sorted fetch64 b.ents)
    (hk : ∀ e ∈ b.ents, lo ≤ fetch64 e ∧ fetch64 e < hi) : LeafOk g lo hi b where
  room := hr
  sorted j j' hj hj' := by
    rcases Nat.lt_or_ge j j' with hlt | hge
    · have := pairwise_iff_getElem.mp hs j j' (by simp; omega) (by simpa using hj') hlt
      simpa only [EdBpt.ents, getElem_slots] using this
    · obtain rfl : j = j' := by omega
      exact le_rfl
  range j hj := hk _ (mem_ents.mpr ⟨j, hj, rfl⟩)

theorem LeafOk.sortedEnts (h : LeafOk g lo hi b) : Sorted fetch64 b.ents :=
  pairwise_map.mp h.keys.1

theorem LeafOk.mem_range (h : LeafOk g lo hi b) (he : e ∈ b.ents) :
    lo ≤ fetch64 e ∧ fetch64 e < hi :=
  h.keys.2 _ (mem_map_of_mem he)

/-- The key `k` lies between the entries in front of slot `i` and those from there on. -/
structure GapAt (b : EdBpt E) (k i : Nat) : Prop where
  le : i ≤ b.nkeys
  before : ∀ j, j < i → fetch64 (b.ent j) ≤ k
  after : ∀ j, i ≤ j → j < b.nkeys → k ≤ fetch64 (b.ent j)

theorem GapAt.take (h : GapAt b k i) (he : e ∈ b.ents.take i) : fetch64 e ≤ k := by
  rw [EdBpt.ents, take_slots _ h.le] at he
  obtain ⟨j, hj, rfl⟩ := mem_slots.mp he
  exact h.before j hj

theorem GapAt.drop (h : GapAt b k i) (he : e ∈ b.ents.drop i) : k ≤ fetch64 e := by
  rw [EdBpt.ents, drop_slots] at he
  obtain ⟨j, hj, rfl⟩ := mem_slots.mp he
  exact h.after _ (Nat.le_add_right _ _) (by omega)

theorem LeafOk.insert {b' : EdBpt E} {m : Nat} (h : LeafOk g lo hi b) (hat : GapAt b (fetch64 e) i)
    (hents : b'.ents = b.ents.take i ++ e :: b.ents.drop (i + m)) (hroom : b'.nkeys ≤ g.leafOrder)
    (hlo : lo ≤ fetch64 e) (hhi : fetch64 e < hi) : LeafOk g lo hi b' := by
  have hsub : (b.ents.drop (i + m)).Sublist (b.ents.drop i) := by
    rw [← drop_drop]
    exact drop_sublist _ _
  refine .of_list hroom ?_ fun a ha => ?_
  · rw [hents]
    refine Sorted.insert (h.sortedEnts.sublist (take_sublist _ _))
      (h.sortedEnts.sublist (drop_sublist _ _)) (fun a ha => hat.take ha) fun a ha => ?_
    exact hat.drop (hsub.subset ha)
  · rw [hents] at ha
    rcases mem_append.mp ha with ha | ha
    · exact h.mem_range (mem_of_mem_take ha)
    · rcases mem_cons.mp ha with rfl | ha
      · exact ⟨hlo, hhi⟩
      · exact h.mem_range (mem_of_mem_drop ha)

theorem CutOk.leafOk {bl br : EdBpt E} {m : Nat} (hc : CutOk b k i m) (h : LeafOk g lo hi b)
    (hl : bl.ents = b.ents.take m) (hr : br.ents = b.ents.drop m) :
    LeafOk g lo (rightKey b k i m) bl ∧ LeafOk g (rightKey b k i m) hi br := by
  have hn : ∀ b' : EdBpt E, b'.nkeys = b'.ents.length := fun b' => (length_ents (b := b')).symm
  have hroom := h.room
  constructor
  · refine .of_list ?_ ?_ fun e he => ?_
    · rw [hn, hl, length_take, length_ents]
      omega
    · rw [hl]
      exact h.sortedEnts.sublist (take_sublist _ _)
    · rw [hl] at he
      refine ⟨(h.mem_range (mem_of_mem_take he)).1, ?_⟩
      rw [EdBpt.ents, take_slots _ hc.lt.le] at he
      obtain ⟨j, hj, rfl⟩ := mem_slots.mp he
      exact hc.left j hj
  · refine .of_list ?_ ?_ fun e he => ?_
    · rw [hn, hr, length_drop, length_ents]
      omega
    · rw [hr]
      exact h.sortedEnts.sublist (drop_sublist _ _)
    · rw [hr] at he
      refine ⟨?_, (h.mem_range (mem_of_mem_drop he)).2⟩
      rw [EdBpt.ents, drop_slots] at he
      obtain ⟨j, hj, rfl⟩ := mem_slots.mp he
      exact hc.right _ (Nat.le_add_right _ _) (by omega)

/-! ## The place of a key -/

variable {s : St E} {R T : List Nat} {hs : EdDb → Nat} {d : EdDb} {k n r : Nat}
  {up : List (Nat × Nat)}

/-- The search for `k` ends at the leaf with the range of `k`. -/
theorem AtKey.hole (hat : AtKey s d k n up r) (ho : TreeOk g s.pages (rootNo s d) up.length)
    (hk : k < 2 ^ 64) :
    ∃ a b, a ≤ k ∧ k < b ∧ layout.Hole (LeafOk g) s.pages 0 (2 ^ 64) 0 (pagePath s up) a b ∧
      LeafOk g a b (s.tree n) := by
  have hrs : rootNo s d = some (s.node r).page := by simp [rootNo, hat.root]
  have hord := ho _ hrs
  rw [show up.length = 0 + (pagePath s up).length by simp [pagePath]] at hord
  refine hord.hole_key hat.stands.link (Nat.zero_le k) hk fun x hx hp => ?_
  obtain ⟨y, hy, rfl⟩ := mem_map.mp hx
  rw [hat.route y hy]
  exact branchSearch_spec (s.tree y.1) k hp

theorem AtKey.keyAt (hat : AtKey s d k n up r) {b : Nat} (hl : LeafOk g a b (s.tree n)) :
    KeyAt (s.tree n) k (s.txn.db d).entryIndex where
  le := hat.le
  sorted := hl.sorted
  before := hat.before
  after _ hj hj' := (hat.after (hj.trans_lt hj')).trans (hl.sorted _ _ hj hj')

theorem AtKey.searchedAt (hat : AtKey s d k n up r) {b : Nat} (hl : LeafOk g a b (s.tree n)) :
    SearchedAt (s.txn.db d) (s.tree n) where
  at' := by rw [hat.key]; exact hat.keyAt hl
  matched := by rw [hat.key]; exact hat.matched
  nmatches := hat.nmatches

omit [EdEntry E] in
theorem before_kidMin {A : Nat → Nat → Nat → Prop} {cs : List Nat}
    (h : Before A lo (b.seps.take i) cs a) (hi : i ≤ b.nkeys) : a = b.kidMin lo i := by
  rw [h.eq_getLastD, EdBpt.kidMin]
  cases i with
  | zero => rfl
  | succ i =>
    have hlt : i < b.seps.length := by rw [length_seps]; exact hi
    rw [if_neg (Nat.succ_ne_zero i), take_succ_eq_append_getElem hlt]
    simp [EdBpt.seps, getElem_slots]

omit [EdEntry E] in
theorem after_kidMax {A : Nat → Nat → Nat → Prop} {a' max : Nat} {cs : List Nat}
    (h : After A a' (b.seps.drop i) cs (max + 1)) (hpos : 0 < a') : b.kidMax max i + 1 = a' := by
  have ha := h.eq_headD
  rw [EdBpt.kidMax]
  split
  · rename_i hi
    have hlt : i < b.seps.length := by rw [length_seps]; exact hi
    rw [drop_eq_getElem_cons hlt, headD_cons] at ha
    simp only [EdBpt.seps, getElem_slots] at ha
    rw [← ha, pred64, if_neg (by omega)]
    omega
  · rename_i hi
    rw [drop_eq_nil_of_le (by simpa using hi), headD_nil] at ha
    exact ha.symm

theorem hole_fences {b : Nat} (hh : layout.Hole (LeafOk g) s.pages 0 (2 ^ 64) h (pagePath s up) a b)
    (hab : a < b) : lowKey s up = a ∧ highKey s up + 1 = b := by
  induction up generalizing h a b with
  | nil =>
    refine ⟨hh.1.symm, ?_⟩
    rw [hh.2, highKey]
    exact uint64Max_succ
  | cons x up ih =>
    obtain ⟨q, i⟩ := x
    obtain ⟨a', b', hbef, haft, hrest⟩ := hh
    obtain ⟨hlow, hhigh⟩ := ih hrest (hbef.le.1.trans_lt (hab.trans_le haft.ge.1))
    have hle : i ≤ (s.tree q).nkeys := by
      have := hbef.length
      simp only [layout_kids, layout_seps, length_take, length_kids, length_seps] at this
      change min i ((s.tree q).nkeys + 1) = min i (s.tree q).nkeys at this
      omega
    rw [← hlow] at hbef
    rw [← hhigh] at haft
    exact ⟨(before_kidMin (b := s.tree q) hbef hle).symm,
      after_kidMax (b := s.tree q) haft (by omega)⟩

/-- The entries of the tree in front of the cursor. -/
def entsBefore (s : St E) (d : EdDb) (n : Nat) (up : List (Nat × Nat)) : List E :=
  (layout.leftOf s.pages 0 (pagePath s up)).flatMap (fun p => (s.pages p).ents)
    ++ (s.tree n).ents.take (s.txn.db d).entryIndex

/-- The entries of the tree behind the cursor, from slot `i` of its leaf on. -/
def entsFrom (s : St E) (n : Nat) (up : List (Nat × Nat)) (i : Nat) : List E :=
  (s.tree n).ents.drop i
    ++ (layout.rightOf s.pages 0 (pagePath s up)).flatMap (fun p => (s.pages p).ents)

omit [EdEntry E] in
theorem entsFrom_cons (hi : i < (s.tree n).nkeys) :
    entsFrom s n up i = (s.tree n).ent i :: entsFrom s n up (i + 1) := by
  have hlen : i < (s.tree n).ents.length := by rwa [length_ents]
  rw [entsFrom, drop_eq_getElem_cons hlen, cons_append, entsFrom]
  simp only [EdBpt.ents, getElem_slots]

omit [EdEntry E] in
theorem CursorAt.ents (hat : CursorAt s d n up r) :
    treeEnts s.pages (rootNo s d) up.length
      = entsBefore s d n up ++ entsFrom s n up (s.txn.db d).entryIndex := by
  rw [treeEnts_stands hat.root hat.stands, entsBefore, entsFrom]
  conv_lhs => rw [← take_append_drop (s.txn.db d).entryIndex (s.tree n).ents]
  simp only [append_assoc]

/-- The cursor cuts the entries of the tree at the key. -/
theorem AtKey.cut (hat : AtKey s d k n up r) (ho : TreeOk g s.pages (rootNo s d) up.length)
    (hk : k < 2 ^ 64) :
    Cut fetch64 k (entsBefore s d n up) (entsFrom s n up (s.txn.db d).entryIndex) := by
  obtain ⟨a, b, ha, hb, hhole, hl⟩ := hat.hole ho hk
  have hka := hat.keyAt hl
  obtain ⟨hleft, hright⟩ := Layout.Hole.sides (f := EdBpt.entKeys) (fun _ _ _ h => h.keys) hhole
  rw [entKeys_flatMap] at hleft hright
  constructor
  · intro e he
    rcases mem_append.mp he with he | he
    · exact (hleft _ (mem_map_of_mem he)).trans_le ha
    · rw [EdBpt.ents, take_slots _ hat.le] at he
      obtain ⟨j, hj, rfl⟩ := mem_slots.mp he
      exact hat.before j hj
  · intro e he
    rcases mem_append.mp he with he | he
    · rw [EdBpt.ents, drop_slots] at he
      obtain ⟨j, hj, rfl⟩ := mem_slots.mp he
      exact hka.after _ (Nat.le_add_right _ _) (by omega)
    · exact hb.le.trans (hright _ (mem_map_of_mem he))

/-! ## Where an entry may go in -/

variable (g) in
/-- An entry with the key `k` may go in where the cursor stands: the leaf has the range of the key,
and the key lies between the entries around the cursor. -/
structure InsertAt (s : St E) (d : EdDb) (k n : Nat) (up : List (Nat × Nat)) (r a b : Nat) : Prop
    extends CursorAt s d n up r where
  lo : a ≤ k
  hi : k < b
  hole : layout.Hole (LeafOk g) s.pages 0 (2 ^ 64) 0 (pagePath s up) a b
  leaf : LeafOk g a b (s.tree n)
  gap : GapAt (s.tree n) k (s.txn.db d).entryIndex

theorem LeafOk.gapAt {b : Nat} (hl : LeafOk g a b (s.tree n)) (hi : i ≤ (s.tree n).nkeys)
    (hlow : lowKey s up = a) (hhigh : highKey s up + 1 = b) (hmin : slotMin s n up i ≤ k)
    (hmax : k ≤ slotMax s n up i) : a ≤ k ∧ k < b ∧ GapAt (s.tree n) k i := by
  unfold slotMin at hmin
  unfold slotMax at hmax
  refine ⟨?_, ?_, hi, fun j hj => ?_, fun j hj hj' => ?_⟩
  · split at hmin
    · omega
    · exact (hl.range (i - 1) (by omega)).1.trans hmin
  · split at hmax
    · rename_i hlt
      exact hmax.trans_lt (hl.range i hlt).2
    · omega
  · rw [if_neg (by omega)] at hmin
    exact (hl.sorted j (i - 1) (by omega) (by omega)).trans hmin
  · rw [if_pos (by omega)] at hmax
    exact hmax.trans (hl.sorted i j hj hj')

theorem TreeOk.hole (ho : TreeOk g s.pages (rootNo s d) up.length) (hr : (s.txn.db d).root = some r)
    (hst : Stands s n up r) :
    ∃ a b, a < b ∧ layout.Hole (LeafOk g) s.pages 0 (2 ^ 64) 0 (pagePath s up) a b ∧
      LeafOk g a b (s.tree n) := by
  have hrs : rootNo s d = some (s.node r).page := by simp [rootNo, hr]
  have hord := ho _ hrs
  rw [show up.length = 0 + (pagePath s up).length by simp [pagePath]] at hord
  exact hord.hole hst.link (by decide)

theorem TreeOk.insertAt (ho : TreeOk g s.pages (rootNo s d) up.length) (hat : CursorAt s d n up r)
    (hmin : slotMin s n up (s.txn.db d).entryIndex ≤ k)
    (hmax : k ≤ slotMax s n up (s.txn.db d).entryIndex) : ∃ a b, InsertAt g s d k n up r a b := by
  obtain ⟨a, b, hab, hhole, hl⟩ := ho.hole hat.root hat.stands
  obtain ⟨hlow, hhigh⟩ := hole_fences hhole hab
  obtain ⟨h1, h2, h3⟩ := hl.gapAt hat.le hlow hhigh hmin hmax
  exact ⟨a, b, { hat with lo := h1, hi := h2, hole := hhole, leaf := hl, gap := h3 }⟩

/-- After a search every key that `ed_bpt_set` accepts may go in. -/
theorem AtKey.insertAt (hat : AtKey s d k n up r) (ho : TreeOk g s.pages (rootNo s d) up.length)
    {k' : Nat} (hacc : (s.txn.db d).accepts k') : ∃ a b, InsertAt g s d k' n up r a b :=
  ho.insertAt hat.toCursorAt (hat.kmin ▸ hacc.2.1) (hat.kmax ▸ hacc.2.2)

theorem AtKey.matched_of_mem (hat : AtKey s d k n up r)
    (ho : TreeOk g s.pages (rootNo s d) up.length)
    (he : e ∈ treeEnts s.pages (rootNo s d) up.length) (hk : fetch64 e = k) :
    (s.txn.db d).matched = true := by
  have hlt : k < 2 ^ 64 := hk ▸ EdEntry.fetch64_lt e
  obtain ⟨a, b, ha, hb, hhole, hl⟩ := hat.hole ho hlt
  have hright := (Layout.Hole.sides (f := EdBpt.entKeys) (fun _ _ _ h => h.keys) hhole).2
  rw [entKeys_flatMap] at hright
  rw [hat.ents] at he
  rcases mem_append.mp he with he | he
  · exact absurd ((hat.cut ho hlt).1 e he) (by omega)
  rcases mem_append.mp he with he | he
  · -- it is in the leaf, at the cursor or behind it
    rw [EdBpt.ents, drop_slots] at he
    obtain ⟨j, hj, rfl⟩ := mem_slots.mp he
    have hidx : (s.txn.db d).entryIndex < (s.tree n).nkeys := by omega
    have h1 := hat.after hidx
    have h2 := hl.sorted _ _ (Nat.le_add_right (s.txn.db d).entryIndex j) (by omega)
    exact hat.matched.mpr ⟨hidx, by omega⟩
  · exact absurd (hright _ (mem_map_of_mem he)) (by omega)

theorem edBptFind_returns {env : Env E} (hcalm : ¬ Refused env) (h : TxnOk g s R T hs)
    (ho : TreeOk g s.pages (rootNo s d) (hs d)) (k : Nat) :
    ∃ res s', edBptFind env g d k s = .ok res s' ∧ Searched g s s' R T hs d k res := by
  obtain ⟨res, s', hrun, hs'⟩ := ok_of_wp
    (wp_and (edBptFind_spec env g h k) (edBptFind_quiet env g s h.good d k))
    (fun _ _ hx => hcalm hx.1.2) (fun _ _ hx => hx.2)
    fun hx => by
      obtain ⟨q, hq, hlt⟩ := hx.1
      exact absurd (ho.room hq) (by omega)
  exact ⟨res, s', hrun, hs'.1⟩

end Eddy
