import Eddy.Index.Order

/-!
# Eddy — moves of a cursor between leaves

`move_first` and `move_last` go down from a node along its first or last children; `move_right` and
`move_left` first climb to the nearest ancestor with a sibling on that side, or to the root, where
they wrap around. On the way pages are mapped, and a page that is mapped already gets its parent and
index anew. The leaf that is reached is given by the leaves on its left or on its right.
-/

namespace Eddy

open Outcome Slots PageTree Layout List

variable {E : Type} (env : Env E) (g : Geom) {kmax kmin p : Nat}

/-! ## The way down -/

section Down

variable {g} {s : St E} {n r h H fuel : Nat} {up : List (Nat × Nat)} {d : EdDb}

/-- A child of a node is mapped, and the way down to the node stays as it is. -/
theorem Below.mapChild {i : Nat} (hb : Below g s n up r (h + 1)) (hi : i ≤ (s.tree n).nkeys)
    (hH : h + 1 + up.length = H) :
    wp (edTxnMap env ((s.tree n).ptr i) (some n) i)
      (fun m s1 => Below g s1 m ((n, i) :: up) r h ∧ Roams s s1 r H ∧ s1.txn.db = s.txn.db ∧
        pagePath s1 ((n, i) :: up) = pagePath s ((n, i) :: up))
      (walkExits env False) s := by
  refine wp_post (edTxnMap_walk env s _ _ _) ?_
  intro m s1 hm
  refine ⟨(hb.child hi hm).1, Roams.mapped hm (by rw [← hH]; exact hb.child_mem hi), hm.db, ?_⟩
  refine pagePath_congr fun y hy => ((Quiet.mapped hm).node y.1 ?_).1
  rcases mem_cons.mp hy with rfl | hy
  · exact hb.stands.lt
  · exact hb.stands.ltUp y hy

/-- `move_first` ends at the left-most leaf below a node. -/
theorem firstDescend_spec (hfuel : h < fuel) (hb : Below g s n up r h) (hH : h + up.length = H)
    (hmax : kmax = highKey s up) :
    wp (firstDescend env fuel n kmax)
      (fun res s' => Roams s s' r H ∧ s'.txn.db = s.txn.db ∧
        ∃ down, Below g s' res.1 (down ++ up) r 0 ∧ down.length = h ∧ (∀ x ∈ down, x.2 = 0) ∧
          res.2 = highKey s' (down ++ up))
      (walkExits env False) s := by
  -- induction on the height that is left
  induction h generalizing s n up kmax fuel with
  | zero =>
    obtain ⟨fuel, rfl⟩ : ∃ m, fuel = m + 1 := ⟨fuel - 1, by omega⟩
    rw [firstDescend, wp_bind, wp_getTree, if_neg (by rw [hb.leaf]; decide)]
    exact ⟨Roams.refl s r H, rfl, [], hb, rfl, by simp, hmax⟩
  | succ h ih =>
    obtain ⟨fuel, rfl⟩ : ∃ m, fuel = m + 1 := ⟨fuel - 1, by omega⟩
    have hbr := hb.branch
    rw [firstDescend, wp_bind, wp_getTree, if_pos hbr.type, wp_bind]
    refine wp_post (hb.mapChild env (Nat.zero_le _) hH) ?_
    rintro m s1 ⟨hb1, hr1, hdb1, -⟩
    have hkey : pred64 (branchKey (s.tree n) 1) = highKey s1 ((n, 0) :: up) := by
      rw [highKey, hr1.quiet.tree hb.stands.lt,
        if_pos (Nat.lt_of_lt_of_le Nat.zero_lt_one hbr.pos)]
      rfl
    refine wp_post (ih (by omega) hb1 (by rw [← hH, length_cons]; omega) hkey) ?_
    rintro res s' ⟨hro, hdb, down, hb', hlen, hzero, hres⟩
    refine ⟨hr1.trans hro hb.root, hdb.trans hdb1, down ++ [(n, 0)], ?_, by simp [hlen], ?_, ?_⟩
    · rw [append_assoc]
      exact hb'
    · intro x hx
      rcases mem_append.mp hx with hx | hx
      · exact hzero x hx
      · rw [mem_singleton.mp hx]
    · rw [append_assoc]
      exact hres

/-- `move_last` ends at the right-most leaf below a node. -/
theorem lastDescend_spec (hfuel : h < fuel) (hb : Below g s n up r h) (hH : h + up.length = H) :
    wp (lastDescend env g fuel n kmin)
      (fun res s' => Roams s s' r H ∧ s'.txn.db = s.txn.db ∧
        ∃ down, Below g s' res.1 (down ++ up) r 0 ∧ down.length = h ∧
          ∀ x ∈ down, x.2 = (s'.tree x.1).nkeys)
      (walkExits env False) s := by
  induction h generalizing s n up kmin fuel with
  | zero =>
    obtain ⟨fuel, rfl⟩ : ∃ m, fuel = m + 1 := ⟨fuel - 1, by omega⟩
    rw [lastDescend, wp_bind, wp_getTree, if_neg (by rw [hb.leaf]; decide)]
    exact ⟨Roams.refl s r H, rfl, [], hb, rfl, by simp⟩
  | succ h ih =>
    obtain ⟨fuel, rfl⟩ : ∃ m, fuel = m + 1 := ⟨fuel - 1, by omega⟩
    have hbr := hb.branch
    rw [lastDescend, wp_bind, wp_getTree, if_pos hbr.type, if_pos hbr.lt, wp_bind]
    refine wp_post (hb.mapChild env le_rfl hH) ?_
    rintro m s1 ⟨hb1, hr1, hdb1, -⟩
    refine wp_post (ih (by omega) hb1 (by rw [← hH, length_cons]; omega)) ?_
    rintro res s' ⟨hro, hdb, down, hb', hlen, hlast⟩
    refine ⟨hr1.trans hro hb.root, hdb.trans hdb1, down ++ [(n, (s.tree n).nkeys)], ?_,
      by simp [hlen], ?_⟩
    · rw [append_assoc]
      exact hb'
    · intro x hx
      rcases mem_append.mp hx with hx | hx
      · exact hlast x hx
      · rw [mem_singleton.mp hx, (hr1.quiet.trans hro.quiet).tree hb.stands.lt]

end Down

/-! ## The way up and over -/

theorem findKmin_spec {s : St E} {n fuel : Nat} {up : List (Nat × Nat)} (hc : NChain s n up)
    (hfuel : up.length < fuel) (t : St E) {Q : Nat → St E → Prop} {X : Exits EdErr EdFault (St E)}
    (hQ : ∀ k, Q k t) : wp (findKmin s fuel n) Q X t := by
  induction up generalizing n fuel with
  | nil =>
    obtain ⟨fuel, rfl⟩ : ∃ k, fuel = k + 1 := ⟨fuel - 1, by omega⟩
    rw [findKmin, hc.1]
    exact hQ 0
  | cons x up ih =>
    obtain ⟨b, i⟩ := x
    obtain ⟨fuel, rfl⟩ : ∃ k, fuel = k + 1 := ⟨fuel - 1, by omega⟩
    obtain ⟨hpar, hidx, hrest⟩ := hc
    rw [findKmin, hpar]
    simp only [hidx, wp_ite]
    exact ⟨fun _ => hQ _, fun _ => ih hrest (by simpa using hfuel)⟩

section Climb

variable {g} {s : St E} {n r h H fuel : Nat} {up : List (Nat × Nat)} {d : EdDb}

/-- The way up of `move_right`: to the sibling that follows, or to the root when there is none. The
leaves up to the end of the subtree stay the same on the way up. -/
theorem climbRight_spec (hfuel : up.length < fuel) (hb : Below g s n up r h) (hH : h + up.length = H) :
    wp (climbRight env g fuel n)
      (fun res s' => Roams s s' r H ∧ s'.txn.db = s.txn.db ∧
        ∃ up' h', Below g s' res.1 up' r h' ∧ h' + up'.length = H ∧
          res.2.1 = lowKey s' up' ∧ res.2.2 = highKey s' up' ∧
          (layout.leftOf s.pages h' (pagePath s' up')
              = layout.leftOf s.pages h (pagePath s up) ++ layout.leaves s.pages h (s.node n).page ∨
            (up' = [] ∧ layout.rightOf s.pages h (pagePath s up) = [])))
      (walkExits env False) s := by
  -- induction on the way up: the last child hands over to its parent
  induction up generalizing n h fuel with
  | nil =>
    obtain ⟨fuel, rfl⟩ : ∃ m, fuel = m + 1 := ⟨fuel - 1, by omega⟩
    rw [climbRight, wp_bind, wp_get, hb.stands.chain.1]
    exact ⟨Roams.refl s r H, rfl, [], h, hb, hH, rfl, rfl, .inr ⟨rfl, rfl⟩⟩
  | cons x up ih =>
    obtain ⟨b, i⟩ := x
    obtain ⟨fuel, rfl⟩ : ∃ m, fuel = m + 1 := ⟨fuel - 1, by omega⟩
    obtain ⟨hpar, hidx, -⟩ := hb.stands.chain
    have hbp := hb.parent
    have hbr := hbp.branch
    have hle := hb.index_le
    have hH' := (Layout.add_length_cons h (b, i) up).symm.trans hH
    rw [climbRight, wp_bind, wp_get, hpar]
    simp only [hidx, wp_ite, wp_bind]
    refine ⟨fun hlt => ⟨fun _ => ?_, fun hno => ?_⟩, fun hge => ?_⟩
    · refine wp_post (hbp.mapChild env (show i + 1 ≤ _ by omega) hH') ?_
      rintro m s1 ⟨hb1, hr1, hdb1, hpath⟩
      rw [wp_get]
      refine findKmax_spec hb1.stands.chain (hb1.length_lt.trans (Nat.lt_succ_self _)) s1 ?_
      refine ⟨hr1, hdb1, (b, i + 1) :: up, h, hb1, by rw [← hH]; rfl, ?_, rfl, .inl ?_⟩
      · rw [lowKey, if_neg (Nat.succ_ne_zero i), branchKey, if_neg (Nat.succ_ne_zero i)]
      · rw [hpath]
        exact Layout.leftOf_sibling hb.kid
    · have := hbr.lt
      omega
    · have hlast : ((s.tree b).kids).length ≤ i + 1 := by rw [length_kids]; omega
      refine wp_post (ih (by simpa using hfuel) hbp hH') ?_
      rintro res s' ⟨hro, hdb, up', h', hb', hlen, hmin, hmax, hcase⟩
      refine ⟨hro, hdb, up', h', hb', hlen, hmin, hmax, ?_⟩
      rcases hcase with hl | ⟨hnil, hright⟩
      · refine .inl (hl.trans ?_)
        exact Layout.leftOf_up hb.kid hlast
      · refine .inr ⟨hnil, ?_⟩
        rw [← hright]
        exact Layout.rightOf_up hlast

theorem climbLeft_spec (hfuel : up.length < fuel) (hb : Below g s n up r h) (hH : h + up.length = H) :
    wp (climbLeft env g fuel n)
      (fun res s' => Roams s s' r H ∧ s'.txn.db = s.txn.db ∧
        ∃ up' h', Below g s' res.1 up' r h' ∧ h' + up'.length = H ∧
          (layout.rightOf s.pages h' (pagePath s' up')
              = layout.leaves s.pages h (s.node n).page ++ layout.rightOf s.pages h (pagePath s up) ∨
            (up' = [] ∧ layout.leftOf s.pages h (pagePath s up) = [])))
      (walkExits env False) s := by
  induction up generalizing n h fuel with
  | nil =>
    obtain ⟨fuel, rfl⟩ : ∃ m, fuel = m + 1 := ⟨fuel - 1, by omega⟩
    rw [climbLeft, wp_bind, wp_get, hb.stands.chain.1]
    exact ⟨Roams.refl s r H, rfl, [], h, hb, hH, .inr ⟨rfl, rfl⟩⟩
  | cons x up ih =>
    obtain ⟨b, i⟩ := x
    obtain ⟨fuel, rfl⟩ : ∃ m, fuel = m + 1 := ⟨fuel - 1, by omega⟩
    obtain ⟨hpar, hidx, -⟩ := hb.stands.chain
    have hbp := hb.parent
    have hbr := hbp.branch
    have hle := hb.index_le
    have hH' := (Layout.add_length_cons h (b, i) up).symm.trans hH
    rw [climbLeft, wp_bind, wp_get, hpar]
    simp only [hidx, wp_ite, wp_bind]
    refine ⟨fun hpos => ⟨fun _ => ?_, fun hno => ?_⟩, fun hzero => ?_⟩
    · obtain ⟨j, rfl⟩ : ∃ j, i = j + 1 := ⟨i - 1, by omega⟩
      rw [Nat.add_sub_cancel]
      refine wp_post (hbp.mapChild env (show j ≤ _ by omega) hH') ?_
      rintro m s1 ⟨hb1, hr1, hdb1, hpath⟩
      rw [wp_get]
      refine findKmin_spec hb1.stands.chain (hb1.length_lt.trans (Nat.lt_succ_self _)) s1 fun _ => ?_
      refine ⟨hr1, hdb1, (b, j) :: up, h, hb1, by rw [← hH]; rfl, .inl ?_⟩
      rw [hpath]
      exact Layout.rightOf_sibling hb.kid
    · have := hbr.lt
      omega
    · obtain rfl : i = 0 := by omega
      refine wp_post (ih (by simpa using hfuel) hbp hH') ?_
      rintro res s' ⟨hro, hdb, up', h', hb', hlen, hcase⟩
      refine ⟨hro, hdb, up', h', hb', hlen, ?_⟩
      rcases hcase with hl | ⟨hnil, hleft⟩
      · refine .inl (hl.trans ?_)
        exact Layout.rightOf_up_first hb.kid
      · refine .inr ⟨hnil, ?_⟩
        rw [← hleft]
        exact Layout.leftOf_up_first

end Climb

/-! ## The moves -/

section Moves

variable {g} {s s' : St E} {n m r h H i : Nat} {up up' : List (Nat × Nat)} {d : EdDb}
  {kmin kmax : Nat} {e : EntPtr}

variable (g) in
/-- An open transaction, read-only or not, with a tree of height `H` below the node `r`. -/
structure Walk (s : St E) (d : EdDb) (r H : Nat) : Prop where
  isOpen : s.txn.state = .open
  root : (s.txn.db d).root = some r
  below : Below g s r [] r H
  high : H < s.hdr.no
  room : ∀ q ∈ layout.leaves s.pages H (s.node r).page, (s.pages q).nkeys ≤ g.leafOrder

theorem Walk.after (hw : Walk g s d r H) (hq : Quiet s s') (hb : Below g s' m up' r h)
    (hH : h + up'.length = H) : Walk g s' d r H := by
  have hpage := (hq.node r hw.below.root).1
  exact {
    isOpen := by rw [hq.txn]; exact hw.isOpen
    root := by rw [hq.root d]; exact hw.root
    below := ⟨hb.stands.root, hb.root, by rw [← hH]; exact hb.shaped, by rw [← hH]; exact hb.nodup⟩
    high := by rw [hq.hdr]; exact hw.high
    room := by rw [hq.pages, hpage]; exact hw.room }

variable (g) in
/-- The cursor was moved to the leaf of the node `m`. -/
structure MovedTo (s s' : St E) (d : EdDb) (r H m : Nat) (up' : List (Nat × Nat)) (kmin kmax : Nat)
    (e : EntPtr) (i : Nat) : Prop where
  roams : Roams s s' r H
  below : Below g s' m up' r 0
  height : up'.length = H
  other : s'.txn.db d.other = s.txn.db d.other
  db : s'.txn.db d = (s.txn.db d).moved m kmin kmax e i

theorem MovedTo.of_roams {s1 : St E} (hro : Roams s s1 r H) (hdb : s1.txn.db = s.txn.db)
    (hb : Below g s1 m up' r 0) (hH : up'.length = H) :
    MovedTo g s (s1.modDb d fun c => c.moved m kmin kmax e i) d r H m up' kmin kmax e i where
  roams := hro.modDb d rfl
  below := hb.modDb d _
  height := hH
  other := by rw [St.modDb_db_of_ne _ _ d.other_ne, hdb]
  db := by rw [St.modDb_db_self, hdb]

/-- The place of a leaf among the leaves of the tree. -/
def leafPos (s : St E) (up : List (Nat × Nat)) : Nat := (layout.leftOf s.pages 0 (pagePath s up)).length

theorem Below.leaves_eq (hb : Below g s n up r 0) (hH : up.length = H) :
    layout.leaves s.pages H (s.node r).page
      = layout.leftOf s.pages 0 (pagePath s up)
        ++ (s.node n).page :: layout.rightOf s.pages 0 (pagePath s up) := by
  have := layout.leaves_of_onPath s.pages (h := 0) hb.stands.link
  rw [Nat.zero_add, show (pagePath s up).length = H by simp [pagePath, hH]] at this
  rw [this, Layout.leaves, append_assoc]
  rfl

theorem Below.getElem_leaves (hb : Below g s n up r 0) (hH : up.length = H) :
    (layout.leaves s.pages H (s.node r).page)[leafPos s up]? = some (s.node n).page := by
  rw [hb.leaves_eq hH, leafPos]
  exact List.getElem?_append_right (le_refl _) |>.trans (by simp)

theorem lowKey_first {down : List (Nat × Nat)} (hz : ∀ x ∈ down, x.2 = 0) :
    lowKey s (down ++ up) = lowKey s up := by
  induction down with
  | nil => rfl
  | cons x down ih =>
    rw [cons_append, lowKey, if_pos (hz x mem_cons_self),
      ih fun y hy => hz y (mem_cons_of_mem _ hy)]

theorem pagePath_quiet (hq : Quiet s s') (hb : Below g s n up r h) :
    pagePath s' up = pagePath s up :=
  pagePath_congr fun x hx => (hq.node x.1 (hb.stands.ltUp x hx)).1

theorem fences_modDb (f : EdTxnDb → EdTxnDb) :
    lowKey (s.modDb d f) up = lowKey s up ∧ highKey (s.modDb d f) up = highKey s up :=
  fences_congr fun _ _ => rfl

theorem Lost.moveFailed {env : Env E} (h : Lost env s) : Lost env (moveFailed d s) := h

variable [EdEntry E]

theorem TxnOk.walk {R T : List Nat} {hs : EdDb → Nat} (h : TxnOk g s R T hs)
    (hr : (s.txn.db d).root = some r) (ho : TreeOk g s.pages (rootNo s d) (hs d)) :
    Walk g s d r (hs d) where
  isOpen := h.base.writing.isOpen
  root := hr
  below := h.below hr
  high := h.height_lt (by rw [rootNo, hr]; rfl)
  room := fun q hq => ho.room (by rw [rootNo, hr]; exact hq)

theorem slotMax_modDb (f : EdTxnDb → EdTxnDb) : slotMax (s.modDb d f) n up i = slotMax s n up i := by
  rw [slotMax, slotMax, (fences_modDb f).2]
  rfl

theorem moveFirst_spec (hw : Walk g s d r H) (hb : Below g s n up r h) (hH : h + up.length = H)
    (hmax : kmax = highKey s up) :
    wp (moveFirst env d (some n) kmin kmax)
      (fun _ s' => ∃ m up',
        MovedTo g s s' d r H m up' kmin (slotMax s' m up' 0) ⟨(s'.node m).page, 0⟩ 0 ∧
        layout.leftOf s'.pages 0 (pagePath s' up') = layout.leftOf s.pages h (pagePath s up) ∧
        lowKey s' up' = lowKey s up)
      (walkExits env False) s := by
  rw [moveFirst]
  simp only [wp_bind, wp_gets, wp_onErr]
  have hfuel : h < s.hdr.no + 1 := by have := hw.high; omega
  refine wp_mono (firstDescend_spec env hfuel hb hH hmax) ?_ (fun _ _ he => he.moveFailed)
    (fun _ _ h => h) id
  rintro ⟨m, k⟩ s1 ⟨hro, hdb, down, hb1, hlen, hzero, hk⟩
  simp only [wp_get, wp_modDb]
  have hkey : (if 0 < (s1.tree m).nkeys then fetch64 ((s1.tree m).ent 0) else k)
      = slotMax s1 m (down ++ up) 0 := by
    rw [slotMax, ← hk]
  rw [hkey]
  refine ⟨m, down ++ up, ?_, ?_, ?_⟩
  · rw [slotMax_modDb]
    exact MovedTo.of_roams hro hdb hb1 (by rw [length_append, hlen, hH])
  · show layout.leftOf s1.pages 0 (pagePath s1 (down ++ up)) = _
    rw [pagePath, map_append, ← pagePath, ← pagePath, Layout.leftOf_first ?_,
      pagePath_quiet hro.quiet hb, hro.quiet.pages, Nat.zero_add]
    · rw [pagePath, length_map, hlen]
    · intro x hx
      obtain ⟨y, hy, rfl⟩ := mem_map.mp hx
      exact hzero y hy
  · rw [(fences_modDb _).1, lowKey_first hzero]
    exact (fences_congr fun x hx => hro.quiet.tree (hb.stands.ltUp x hx)).1

theorem moveLast_spec (hw : Walk g s d r H) (hb : Below g s n up r h) (hH : h + up.length = H) :
    wp (moveLast env g d (some n) kmin kmax)
      (fun _ s' => ∃ m up' k,
        MovedTo g s s' d r H m up' k kmax ⟨(s'.node m).page, ((s'.tree m).nkeys : Int) - 1⟩
          (sub32 (s'.tree m).nkeys 1) ∧
        (0 < (s'.tree m).nkeys → k = fetch64 ((s'.tree m).ent ((s'.tree m).nkeys - 1))) ∧
        layout.rightOf s'.pages 0 (pagePath s' up') = layout.rightOf s.pages h (pagePath s up))
      (walkExits env False) s := by
  rw [moveLast]
  simp only [wp_bind, wp_gets, wp_onErr]
  have hfuel : h < s.hdr.no + 1 := by have := hw.high; omega
  refine wp_mono (lastDescend_spec env hfuel hb hH) ?_ (fun _ _ he => he.moveFailed)
    (fun _ _ h => h) id
  rintro ⟨m, k⟩ s1 ⟨hro, hdb, down, hb1, hlen, hlast⟩
  simp only [wp_get, wp_ite, wp_stuck, wp_modDb]
  have hH1 : (down ++ up).length = H := by rw [length_append, hlen, hH]
  refine ⟨fun _ => ⟨m, down ++ up, _, MovedTo.of_roams hro hdb hb1 hH1, fun hpos => ?_, ?_⟩,
    fun hno => hno ?_⟩
  · exact if_pos hpos
  · show layout.rightOf s1.pages 0 (pagePath s1 (down ++ up)) = _
    rw [pagePath, map_append, ← pagePath, ← pagePath, Layout.rightOf_last ?_,
      pagePath_quiet hro.quiet hb, hro.quiet.pages, Nat.zero_add]
    · rw [pagePath, length_map, hlen]
    · intro x hx
      obtain ⟨y, hy, rfl⟩ := mem_map.mp hx
      show ((s1.tree y.1).kids).length ≤ y.2 + 1
      rw [length_kids, hlast y hy]
  · have hw1 := hw.after hro.quiet hb1 (by rw [Nat.zero_add, hH1])
    refine hw1.room _ ?_
    rw [← hH1]
    exact hb1.mem_leaves

/-- `move_right` goes to the leaf that follows, or from the last leaf to the first one. -/
theorem moveRight_spec (hw : Walk g s d r H) (hb : Below g s n up r 0) (hH : up.length = H) :
    wp (moveRight env g d n)
      (fun _ s' => ∃ m up',
        MovedTo g s s' d r H m up' (lowKey s' up') (slotMax s' m up' 0) ⟨(s'.node m).page, 0⟩ 0 ∧
        leafPos s' up' = (leafPos s up + 1) % (layout.leaves s.pages H (s.node r).page).length)
      (walkExits env False) s := by
  rw [moveRight]
  simp only [wp_bind, wp_gets]
  refine wp_post (climbRight_spec env (Nat.lt_succ_of_lt hb.length_lt) hb
    (by rw [Nat.zero_add, hH])) ?_
  rintro ⟨m1, k1, k2⟩ s1 ⟨hro, hdb, up1, h1, hb1, hH1, hmin, hmax, hcase⟩
  have hw1 := hw.after hro.quiet hb1 hH1
  refine wp_post (moveFirst_spec env hw1 hb1 hH1 hmax) ?_
  rintro - s' ⟨m, up', hm, hleft, hlow⟩
  refine ⟨m, up', ⟨hro.trans hm.roams hb.root, hm.below, hm.height, ?_, ?_⟩, ?_⟩
  · rw [hm.other, hdb]
  · rw [hm.db, hdb, hlow, ← hmin]
  · have hq := hro.quiet.trans hm.roams.quiet
    have hleaves := hm.below.leaves_eq hm.height
    rw [hq.pages, (hq.node r hb.root).1] at hleaves
    rw [hq.pages, hro.quiet.pages] at hleft
    rw [leafPos, hq.pages]
    refine Layout.length_next (hb.leaves_eq hH) hleaves ?_
    rw [hleft]
    rcases hcase with hl | ⟨rfl, hright⟩
    · exact .inl hl
    · exact .inr ⟨rfl, hright⟩

/-- `move_left` goes to the leaf in front, or from the first leaf to the last one. -/
theorem moveLeft_spec (hw : Walk g s d r H) (hb : Below g s n up r 0) (hH : up.length = H) :
    wp (moveLeft env g d n)
      (fun _ s' => ∃ m up' k k',
        MovedTo g s s' d r H m up' k k' ⟨(s'.node m).page, ((s'.tree m).nkeys : Int) - 1⟩
          (sub32 (s'.tree m).nkeys 1) ∧
        leafPos s' up' = (leafPos s up + (layout.leaves s.pages H (s.node r).page).length - 1)
          % (layout.leaves s.pages H (s.node r).page).length)
      (walkExits env False) s := by
  rw [moveLeft]
  simp only [wp_bind, wp_gets]
  refine wp_post (climbLeft_spec env (Nat.lt_succ_of_lt hb.length_lt) hb
    (by rw [Nat.zero_add, hH])) ?_
  rintro ⟨m1, k1, k2⟩ s1 ⟨hro, hdb, up1, h1, hb1, hH1, hcase⟩
  have hw1 := hw.after hro.quiet hb1 hH1
  refine wp_post (moveLast_spec env hw1 hb1 hH1) ?_
  rintro - s' ⟨m, up', k, hm, -, hright⟩
  refine ⟨m, up', k, k2, ⟨hro.trans hm.roams hb.root, hm.below, hm.height, ?_, ?_⟩, ?_⟩
  · rw [hm.other, hdb]
  · rw [hm.db, hdb]
  · have hq := hro.quiet.trans hm.roams.quiet
    have hleaves := hm.below.leaves_eq hm.height
    rw [hq.pages, (hq.node r hb.root).1] at hleaves
    rw [hq.pages, hro.quiet.pages] at hright
    rw [leafPos, hq.pages]
    refine Layout.length_prev (hb.leaves_eq hH) hleaves ?_
    rw [hright]
    rcases hcase with hl | ⟨rfl, hleft⟩
    · exact .inl hl
    · exact .inr ⟨rfl, hleft⟩

end Moves

/-! ## One step of the cursor -/

section Steps

variable {g} {s s1 s' : St E} {n m r H i : Nat} {up up' : List (Nat × Nat)} {d : EdDb}

theorem sub32_succ (h : i + 1 < 2 ^ 32) : sub32 (i + 1) 1 = i := by
  unfold sub32
  omega

variable (g) in
/-- The cursor stands in front of a slot of a leaf of the tree, or behind all of them. -/
structure InLeaf (s : St E) (d : EdDb) (r H n : Nat) (up : List (Nat × Nat)) : Prop
    extends CursorAt s d n up r where
  below : Below g s n up r 0
  height : up.length = H
  hasfind : (s.txn.db d).hasfind = true

theorem InLeaf.mem_leaves (h : InLeaf g s d r H n up) :
    (s.node n).page ∈ layout.leaves s.pages H (s.node r).page := by
  rw [← h.height]
  exact h.below.mem_leaves

theorem InLeaf.room (h : InLeaf g s d r H n up) (hw : Walk g s d r H) :
    (s.tree n).nkeys ≤ g.leafOrder := hw.room _ h.mem_leaves

/-- The cursor after `ed_bpt_next` or `ed_bpt_prev` moved it to an entry with the key `k`. -/
def EdTxnDb.yielded (c : EdTxnDb) (k : Nat) : EdTxnDb :=
  { c with
    nmatches := c.nmatches + if c.haskey = true ∧ c.key = k then 1 else 0
    matched := c.haskey && decide (c.key = k)
    haskey := c.haskey && decide (c.key = k)
    nloops := c.nloops + if c.entry = c.start then 1 else 0 }

variable (g) in
/-- A step took the cursor to slot `i` of the leaf of the node `m`. -/
structure StepsTo (s s' : St E) (d : EdDb) (r H m : Nat) (up' : List (Nat × Nat)) (i : Nat) : Prop
    extends InLeaf g s' d r H m up' where
  roams : Roams s s' r H
  other : s'.txn.db d.other = s.txn.db d.other
  index : (s'.txn.db d).entryIndex = i
  hasentry : (s'.txn.db d).hasentry = true
  start : (s'.txn.db d).start = (s.txn.db d).start
  key : (s'.txn.db d).key = (s.txn.db d).key

variable [EdEntry E]

variable (g) in
/-- What a step returns, and what it counts. -/
structure StepYields (s s' : St E) (d : EdDb) (m i : Nat) (res : Nat × Option EntPtr) : Prop where
  matched : (s'.txn.db d).matched
    = ((s.txn.db d).haskey && decide ((s.txn.db d).key = fetch64 ((s'.tree m).ent i)))
  haskey : (s'.txn.db d).haskey = (s'.txn.db d).matched
  nloops : (s'.txn.db d).nloops
    = (s.txn.db d).nloops + if (s'.txn.db d).entry = (s'.txn.db d).start then 1 else 0
  res : res = (if (s'.txn.db d).matched then 1 else 0, (s'.txn.db d).entry)

theorem yieldEntry_spec {env : Env E} (hentry : (s.txn.db d).entry = some ⟨p, i⟩)
    (hi : i < g.leafOrder) :
    wp (yieldEntry g d)
      (fun res s' => s' = s.modDb d (fun c => c.yielded (fetch64 ((s.pages p).ent i))) ∧
        res = (if (s'.txn.db d).matched then 1 else 0, (s'.txn.db d).entry))
      (walkExits env False) s := by
  have hslot : (0 : Int) ≤ (i : Int) ∧ (i : Int) < g.leafOrder := ⟨Int.natCast_nonneg i, by omega⟩
  unfold yieldEntry
  rw [wp_bind, wp_getDb, wp_bind, wp_when]
  constructor
  · intro hkey
    rw [wp_bind, hentry, readEnt, if_pos hslot]
    simp only [wp_gets, wp_bind, wp_modDb, wp_when, hkey, Bool.true_eq_false,
      false_implies, true_and, not_false_eq_true, true_implies, wp_getDb, wp_pure', and_true]
    rw [St.modDb_modDb]
    refine St.modDb_congr s ?_
    by_cases hk : (s.txn.db d).key = fetch64 ((s.pages p).ent i) <;>
      by_cases hs : (s.txn.db d).entry = (s.txn.db d).start <;>
      simp [EdTxnDb.yielded, hk, hs, hkey]
  · intro hkey
    have hkey' : (s.txn.db d).haskey = false := by simpa using hkey
    simp only [wp_bind, wp_modDb, wp_when, hkey', true_implies, not_true_eq_false,
      false_implies, and_true, wp_getDb, wp_pure']
    rw [St.modDb_modDb]
    refine St.modDb_congr s ?_
    by_cases hs : (s.txn.db d).entry = (s.txn.db d).start <;>
      simp [EdTxnDb.yielded, hs, hkey']

/-- The end of `ed_bpt_next` and `ed_bpt_prev`, once the cursor is where it goes. -/
theorem StepsTo.yield {env : Env E} (h : StepsTo g s s1 d r H m up' i) (hi : i < g.leafOrder)
    (hkey : (s1.txn.db d).haskey = (s.txn.db d).haskey)
    (hloops : (s1.txn.db d).nloops = (s.txn.db d).nloops) :
    wp (yieldEntry g d)
      (fun res s' => StepsTo g s s' d r H m up' i ∧ StepYields s s' d m i res ∧
        (s'.txn.db d).nmatches
          = (s1.txn.db d).nmatches + (if (s'.txn.db d).matched then 1 else 0) ∧
        ∃ k, s' = s1.modDb d fun c => c.yielded k)
      (walkExits env False) s1 := by
  have hentry : (s1.txn.db d).entry = some ⟨(s1.node m).page, i⟩ := by rw [h.entry, h.index]
  refine wp_post (yieldEntry_spec hentry hi) ?_
  rintro res s' ⟨hs', hres⟩
  have hdb : s'.txn.db d
      = (s1.txn.db d).yielded (fetch64 ((s1.pages (s1.node m).page).ent i)) := by
    rw [hs', St.modDb_db_self]
  have htree : s'.tree m = s1.pages (s1.node m).page := by rw [hs']; rfl
  refine ⟨?_, ?_, ?_, _, hs'⟩
  · exact {
      root := by rw [hdb]; exact h.root
      find := by rw [hdb]; exact h.find
      stands := by rw [hs']; exact h.stands.modDb d _
      entry := by rw [hdb, hs']; exact h.entry
      le := by rw [hdb, hs']; exact h.le
      below := by rw [hs']; exact h.below.modDb d _
      height := h.height
      hasfind := by rw [hdb]; exact h.hasfind
      roams := by rw [hs']; exact h.roams.modDb d rfl
      other := by rw [hs', St.modDb_db_of_ne _ _ d.other_ne]; exact h.other
      index := by rw [hdb]; exact h.index
      hasentry := by rw [hdb]; exact h.hasentry
      start := by rw [hdb]; exact h.start
      key := by rw [hdb]; exact h.key }
  · exact {
      matched := by rw [hdb, htree, ← hkey, ← h.key]; rfl
      haskey := by rw [hdb]; rfl
      nloops := by rw [hdb, ← hloops]; rfl
      res := hres }
  · rw [hdb]
    simp [EdTxnDb.yielded]

/-- The cursor on slot `i` of the page `p`, in the window from `kmin` to `kmax`. -/
def EdTxnDb.onSlot (c : EdTxnDb) (p i kmin kmax : Nat) : EdTxnDb :=
  { c with entry := some ⟨p, i⟩, entryIndex := i, hasentry := true, kmin := kmin, kmax := kmax }

omit [EdEntry E] in
theorem InLeaf.onSlot (h : InLeaf g s d r H n up) (hi : i ≤ (s.tree n).nkeys) :
    StepsTo g s (s.modDb d fun c => c.onSlot (s.node n).page i kmin kmax) d r H n up i where
  root := by rw [St.modDb_db_self]; exact h.root
  find := by rw [St.modDb_db_self]; exact h.find
  stands := h.stands.modDb d _
  entry := by rw [St.modDb_db_self]; rfl
  le := by rw [St.modDb_db_self]; exact hi
  below := h.below.modDb d _
  height := h.height
  hasfind := by rw [St.modDb_db_self]; exact h.hasfind
  roams := (Roams.refl s r H).modDb d rfl
  other := St.modDb_db_of_ne s _ d.other_ne
  index := by rw [St.modDb_db_self]; rfl
  hasentry := by rw [St.modDb_db_self]; rfl
  start := by rw [St.modDb_db_self]; rfl
  key := by rw [St.modDb_db_self]; rfl

/-- The end of a step inside of a leaf. -/
theorem InLeaf.yield {env : Env E} (h : InLeaf g s d r H n up) (hi : i ≤ (s.tree n).nkeys)
    (hlt : i < g.leafOrder) :
    wp (yieldEntry g d)
      (fun res s' => StepsTo g s s' d r H n up i ∧ StepYields s s' d n i res ∧
        ((s'.txn.db d).kmin = kmin ∧ (s'.txn.db d).kmax = kmax) ∧
        (s'.txn.db d).nmatches = (s.txn.db d).nmatches + if (s'.txn.db d).matched then 1 else 0)
      (walkExits env False) (s.modDb d fun c => c.onSlot (s.node n).page i kmin kmax) := by
  refine wp_post ((h.onSlot hi).yield hlt (by rw [St.modDb_db_self]; rfl)
    (by rw [St.modDb_db_self]; rfl)) ?_
  rintro res s' ⟨hst, hy, hn, k, hs'⟩
  refine ⟨hst, hy, ⟨?_, ?_⟩, ?_⟩
  · rw [hs', St.modDb_db_self, St.modDb_db_self]
    rfl
  · rw [hs', St.modDb_db_self, St.modDb_db_self]
    rfl
  · rw [hn, St.modDb_db_self]
    rfl

theorem entryNext_spec {env : Env E} (hentry : (s.txn.db d).entry = some ⟨p, i⟩)
    (hidx : (s.txn.db d).entryIndex = i) (hent : (s.txn.db d).hasentry = true)
    (hi : i + 1 < g.leafOrder) (hmod : i + 1 < 2 ^ 32) :
    wp (entryNext g d)
      (fun _ s' => s' = s.modDb d fun c =>
        c.onSlot p (i + 1) c.kmax (fetch64 ((s.pages p).ent (i + 1))))
      (walkExits env False) s := by
  have hslot : (0 : Int) ≤ (i : Int) + 1 ∧ (i : Int) + 1 < g.leafOrder := by omega
  unfold entryNext
  simp only [wp_bind, wp_modDb, wp_getDb, St.modDb_db_self, hentry, Option.map_some, readEnt,
    if_pos hslot, wp_gets]
  rw [St.modDb_modDb]
  refine St.modDb_congr s ?_
  have hnext : (i + 1) % 2 ^ 32 = i + 1 := Nat.mod_eq_of_lt hmod
  have hslot' : ((i : Int) + 1).toNat = i + 1 := by omega
  simp only [EdTxnDb.onSlot, hentry, hidx, hent, hnext, hslot', Option.map_some]
  rfl

theorem entryPrev_spec {env : Env E} (hentry : (s.txn.db d).entry = some ⟨p, i + 1⟩)
    (hidx : (s.txn.db d).entryIndex = i + 1) (hi : i < g.leafOrder) (hmod : i + 1 < 2 ^ 32) :
    wp (entryPrev g d)
      (fun _ s' => s' = s.modDb d fun c => c.onSlot p i (fetch64 ((s.pages p).ent i)) c.kmin)
      (walkExits env False) s := by
  have hslot : (0 : Int) ≤ (i : Int) + 1 - 1 ∧ (i : Int) + 1 - 1 < g.leafOrder := by omega
  unfold entryPrev
  simp only [wp_bind, wp_modDb, wp_getDb, St.modDb_db_self, hentry, Option.map_some, readEnt,
    if_pos hslot, wp_gets]
  rw [St.modDb_modDb]
  refine St.modDb_congr s ?_
  simp [EdTxnDb.onSlot, hentry, hidx, sub32_succ hmod]

/-- The slot `ed_bpt_next` goes to when it stays in the leaf. -/
def EdTxnDb.nextIndex (c : EdTxnDb) : Nat := if c.hasentry then c.entryIndex + 1 else c.entryIndex

theorem edBptNext_inside (hg : g.leafOrder < 2 ^ 16) (hw : Walk g s d r H)
    (h : InLeaf g s d r H n up) (hlt : (s.txn.db d).nextIndex < (s.tree n).nkeys) :
    wp (edBptNext env g d)
      (fun res s' => StepsTo g s s' d r H n up (s.txn.db d).nextIndex ∧
        StepYields s s' d n (s.txn.db d).nextIndex res ∧
        ((s.txn.db d).hasentry = true → (s'.txn.db d).kmin = (s.txn.db d).kmax ∧
          (s'.txn.db d).kmax = fetch64 ((s.tree n).ent (s.txn.db d).nextIndex)) ∧
        ((s.txn.db d).hasentry = false → (s'.txn.db d).kmin = (s.txn.db d).kmin ∧
          (s'.txn.db d).kmax = (s.txn.db d).kmax) ∧
        (s'.txn.db d).nmatches = (s.txn.db d).nmatches + if (s'.txn.db d).matched then 1 else 0)
      (walkExits env False) s := by
  have hroom := h.room hw
  unfold edBptNext
  rw [wp_bind, wp_getDb, if_neg (by rw [h.hasfind]; decide), h.find]
  cases hent : (s.txn.db d).hasentry with
  | true =>
    have hidx : (s.txn.db d).nextIndex = (s.txn.db d).entryIndex + 1 := by
      rw [EdTxnDb.nextIndex, hent]; rfl
    rw [hidx] at hlt ⊢
    have hmod : (s.txn.db d).entryIndex + 1 < 2 ^ 32 := by omega
    simp only [wp_bind, wp_getTree, if_true, Nat.mod_eq_of_lt hmod, wp_when, hlt,
      Nat.not_le.mpr hlt, false_implies, not_false_eq_true, true_implies, and_true, true_and,
      Bool.true_eq_false, not_true_eq_false, and_false]
    refine wp_post (entryNext_spec h.entry rfl hent (by omega) hmod) ?_
    rintro - s1 rfl
    exact h.yield (le_of_lt hlt) (by omega)
  | false =>
    have hidx : (s.txn.db d).nextIndex = (s.txn.db d).entryIndex := by
      rw [EdTxnDb.nextIndex, hent]; rfl
    rw [hidx] at hlt ⊢
    simp only [wp_bind, wp_getTree, Bool.false_eq_true, if_false, wp_when, hlt,
      Nat.not_le.mpr hlt, false_implies, not_false_eq_true, true_implies, and_true, and_false, true_and,
      not_true_eq_false, wp_modDb]
    have hs1 : (s.modDb d fun c => { c with hasentry := true })
        = s.modDb d fun c => c.onSlot (s.node n).page (s.txn.db d).entryIndex c.kmin c.kmax := by
      refine St.modDb_congr s ?_
      simp only [EdTxnDb.onSlot, ← h.entry]
    rw [hs1]
    exact h.yield h.le (by omega)

omit [EdEntry E] in
theorem MovedTo.stepped (h : MovedTo g s s1 d r H m up' kmin kmax ⟨(s1.node m).page, i⟩ i)
    (hroot : (s.txn.db d).root = some r) (hfind : (s.txn.db d).hasfind = true)
    (hi : i ≤ (s1.tree m).nkeys) : StepsTo g s s1 d r H m up' i where
  root := by rw [h.db]; exact hroot
  find := by rw [h.db]; rfl
  stands := h.below.stands
  entry := by rw [h.db]; rfl
  le := by rw [h.db]; exact hi
  below := h.below
  height := h.height
  hasfind := by rw [h.db]; exact hfind
  roams := h.roams
  other := h.other
  index := by rw [h.db]; rfl
  hasentry := by rw [h.db]; rfl
  start := by rw [h.db]; rfl
  key := by rw [h.db]; rfl

omit [EdEntry E] in
theorem Lost.stepFailed {env : Env E} {e : EdErr} (h : Lost env s) : Lost env (stepFailed d e s) :=
  ⟨by simp [Doomed, Eddy.stepFailed, St.modTxn], h.2⟩

theorem edBptNext_over (hg : g.leafOrder < 2 ^ 16) (hw : Walk g s d r H)
    (h : InLeaf g s d r H n up) (hge : (s.tree n).nkeys ≤ (s.txn.db d).nextIndex) :
    wp (edBptNext env g d)
      (fun res s' => ∃ m up', StepsTo g s s' d r H m up' 0 ∧ StepYields s s' d m 0 res ∧
        (s'.txn.db d).kmin = lowKey s' up' ∧ (s'.txn.db d).kmax = slotMax s' m up' 0 ∧
        (s'.txn.db d).nmatches = (if (s'.txn.db d).matched then 1 else 0) ∧
        leafPos s' up' = (leafPos s up + 1) % (layout.leaves s.pages H (s.node r).page).length)
      (walkExits env False) s := by
  have hroom := h.room hw
  have hle := h.le
  have hidx : (if (s.txn.db d).hasentry then ((s.txn.db d).entryIndex + 1) % 2 ^ 32
      else (s.txn.db d).entryIndex) = (s.txn.db d).nextIndex := by
    rw [EdTxnDb.nextIndex]
    split
    · exact Nat.mod_eq_of_lt (by omega)
    · rfl
  unfold edBptNext
  rw [wp_bind, wp_getDb, if_neg (by rw [h.hasfind]; decide), h.find]
  simp only [wp_bind, wp_getTree, hidx, wp_when, hge, Nat.not_lt.mpr hge, true_implies,
    not_true_eq_false, false_implies, and_true, false_and, not_false_eq_true, true_and,
    wp_onErr]
  refine wp_mono (moveRight_spec env hw h.below h.height) ?_ (fun _ _ he => he.stepFailed)
    (fun _ _ h => h) id
  rintro - s1 ⟨m, up', hm, hcase⟩
  have hpos : 0 < g.leafOrder := by have := g.leaf_ge; omega
  refine wp_post ((hm.stepped h.root h.hasfind (Nat.zero_le _)).yield hpos
    (by rw [hm.db]; rfl) (by rw [hm.db]; rfl)) ?_
  rintro res s' ⟨hst, hy, hn, k, hs'⟩
  refine ⟨m, up', hst, hy, ?_, ?_, ?_, ?_⟩
  · rw [hs', St.modDb_db_self, (fences_modDb _).1, hm.db]
    rfl
  · rw [hs', St.modDb_db_self, slotMax_modDb, hm.db]
    rfl
  · rw [hn, hm.db]
    exact Nat.zero_add _
  · rw [hs']
    exact hcase

theorem edBptPrev_inside (hg : g.leafOrder < 2 ^ 16) (hw : Walk g s d r H)
    (h : InLeaf g s d r H n up) (hidx : (s.txn.db d).entryIndex = i + 1) :
    wp (edBptPrev env g d)
      (fun res s' => StepsTo g s s' d r H n up i ∧ StepYields s s' d n i res ∧
        (s'.txn.db d).kmin = fetch64 ((s.tree n).ent i) ∧
        (s'.txn.db d).kmax = (s.txn.db d).kmin)
      (walkExits env False) s := by
  have hroom := h.room hw
  have hle := h.le
  unfold edBptPrev
  rw [wp_bind, wp_getDb, if_neg (by rw [h.hasfind]; decide), h.find]
  simp only [wp_bind, wp_when, hidx, Nat.succ_ne_zero, false_implies, not_false_eq_true,
    true_implies, true_and, ne_eq, not_true_eq_false, and_true]
  have hentry : (s.txn.db d).entry = some ⟨(s.node n).page, i + 1⟩ := by
    rw [h.entry, hidx]
    rfl
  refine wp_post (entryPrev_spec hentry hidx (by omega) (by omega)) ?_
  rintro - s1 rfl
  refine wp_post (h.yield (show i ≤ _ by omega) (by omega)) ?_
  rintro res s' ⟨hst, hy, hwin, -⟩
  exact ⟨hst, hy, hwin⟩

/-- `ed_bpt_prev` in front of the first entry of a leaf. The leaf in front of it must not be empty:
from the last slot of an empty leaf the cursor would read slot `-1`. -/
theorem edBptPrev_over (hg : g.leafOrder < 2 ^ 16) (hw : Walk g s d r H)
    (h : InLeaf g s d r H n up) (hidx : (s.txn.db d).entryIndex = 0)
    (hfull : ∀ q, (layout.leaves s.pages H (s.node r).page)[(leafPos s up
        + (layout.leaves s.pages H (s.node r).page).length - 1)
          % (layout.leaves s.pages H (s.node r).page).length]? = some q → 0 < (s.pages q).nkeys) :
    wp (edBptPrev env g d)
      (fun res s' => ∃ m up' i, StepsTo g s s' d r H m up' i ∧ StepYields s s' d m i res ∧
        i + 1 = (s'.tree m).nkeys ∧
        leafPos s' up' = (leafPos s up + (layout.leaves s.pages H (s.node r).page).length - 1)
          % (layout.leaves s.pages H (s.node r).page).length)
      (walkExits env False) s := by
  unfold edBptPrev
  rw [wp_bind, wp_getDb, if_neg (by rw [h.hasfind]; decide), h.find]
  simp only [wp_bind, wp_when, hidx, true_implies, not_true_eq_false, false_implies,
    and_true, ne_eq, not_false_eq_true, true_and, wp_onErr]
  refine wp_mono (moveLeft_spec env hw h.below h.height) ?_ (fun _ _ he => he.stepFailed)
    (fun _ _ h => h) id
  rintro - s1 ⟨m, up', k, k', hm, hpos⟩
  have hq := hm.roams.quiet
  have hw1 := hw.after hq hm.below (by rw [Nat.zero_add, hm.height])
  have hget := hm.below.getElem_leaves hm.height
  rw [hq.pages, (hq.node r h.below.root).1, hpos] at hget
  have hne : 0 < (s1.tree m).nkeys := by
    have := hfull _ hget
    rwa [← hq.pages] at this
  obtain ⟨i, hi⟩ : ∃ i, (s1.tree m).nkeys = i + 1 := ⟨(s1.tree m).nkeys - 1, by omega⟩
  have hroom : (s1.tree m).nkeys ≤ g.leafOrder := hw1.room _ (by
    rw [← hm.height]
    exact hm.below.mem_leaves)
  have hslot : ((i + 1 : Nat) : Int) - 1 = (i : Int) := by omega
  rw [hi, hslot, sub32_succ (by omega)] at hm
  refine wp_post ((hm.stepped h.root h.hasfind (by omega)).yield (by omega)
    (by rw [hm.db]; rfl) (by rw [hm.db]; rfl)) ?_
  rintro res s' ⟨hst, hy, -, k, hs'⟩
  refine ⟨m, up', i, hst, hy, ?_, ?_⟩
  · rw [hs']
    exact hi.symm
  · rw [hs']
    exact hpos

omit [EdEntry E] in
theorem MovedTo.started (h : MovedTo g s s1 d r H m up' kmin kmax ⟨(s1.node m).page, i⟩ i)
    (hroot : (s.txn.db d).root = some r) (hi : i ≤ (s1.tree m).nkeys) :
    InLeaf g (s1.modDb d EdTxnDb.started) d r H m up' where
  root := by rw [St.modDb_db_self, h.db]; exact hroot
  find := by rw [St.modDb_db_self, h.db]; rfl
  stands := h.below.stands.modDb d _
  entry := by rw [St.modDb_db_self, h.db]; rfl
  le := by rw [St.modDb_db_self, h.db]; exact hi
  below := h.below.modDb d _
  height := h.height
  hasfind := by rw [St.modDb_db_self]; rfl

theorem edBptFirst_spec (hw : Walk g s d r H) :
    wp (edBptFirst env d)
      (fun res s' => ∃ m up', InLeaf g s' d r H m up' ∧ Roams s s' r H ∧
        s'.txn.db d.other = s.txn.db d.other ∧ res = (0, (s'.txn.db d).entry) ∧
        s'.txn.db d = ((s.txn.db d).moved m (lowKey s' up') (slotMax s' m up' 0)
          ⟨(s'.node m).page, 0⟩ 0).started ∧ leafPos s' up' = 0)
      (walkExits env False) s := by
  unfold edBptFirst
  rw [wp_bind, wp_getDb, hw.root, wp_bind]
  refine wp_post (moveFirst_spec env hw hw.below (Nat.add_zero _) rfl) ?_
  rintro - s1 ⟨m, up', hm, hleft, hlow⟩
  simp only [wp_bind, wp_modDb, wp_getDb, wp_pure']
  have hdb : (s1.modDb d EdTxnDb.started).txn.db d = (s1.txn.db d).started := by
    rw [St.modDb_db_self]
  refine ⟨m, up', hm.started hw.root (Nat.zero_le _), hm.roams.modDb d rfl, ?_, trivial, ?_, ?_⟩
  · rw [St.modDb_db_of_ne _ _ d.other_ne, hm.other]
  · rw [hdb, hm.db, (fences_modDb _).1, hlow, slotMax_modDb]
    rfl
  · show leafPos s1 up' = 0
    rw [leafPos, hleft]
    rfl

/-- `ed_bpt_last` goes to the last leaf, which must not be empty. -/
theorem edBptLast_spec (hg : g.leafOrder < 2 ^ 16) (hw : Walk g s d r H)
    (hfull : ∀ q, (layout.leaves s.pages H (s.node r).page).getLast? = some q →
      0 < (s.pages q).nkeys) :
    wp (edBptLast env g d)
      (fun res s' => ∃ m up' i, InLeaf g s' d r H m up' ∧ Roams s s' r H ∧
        s'.txn.db d.other = s.txn.db d.other ∧ res = (0, (s'.txn.db d).entry) ∧
        s'.txn.db d = ((s.txn.db d).moved m (fetch64 ((s'.tree m).ent i)) uint64Max
          ⟨(s'.node m).page, i⟩ i).started ∧ i + 1 = (s'.tree m).nkeys ∧
        leafPos s' up' + 1 = (layout.leaves s.pages H (s.node r).page).length)
      (walkExits env False) s := by
  unfold edBptLast
  rw [wp_bind, wp_getDb, hw.root, wp_bind]
  refine wp_post (moveLast_spec env hw hw.below (Nat.add_zero _)) ?_
  rintro - s1 ⟨m, up', k, hm, hk, hright⟩
  have hq := hm.roams.quiet
  have hw1 := hw.after hq hm.below (by rw [Nat.zero_add, hm.height])
  have hleaves := hm.below.leaves_eq hm.height
  rw [hright, hq.pages, (hq.node r hw.below.root).1] at hleaves
  change _ = _ ++ [(s1.node m).page] at hleaves
  have hne : 0 < (s1.tree m).nkeys := by
    have := hfull (s1.node m).page (by rw [hleaves, List.getLast?_concat])
    rwa [← hq.pages] at this
  obtain ⟨i, hi⟩ : ∃ i, (s1.tree m).nkeys = i + 1 := ⟨(s1.tree m).nkeys - 1, by omega⟩
  have hroom : (s1.tree m).nkeys ≤ g.leafOrder := hw1.room _ (by
    rw [← hm.height]
    exact hm.below.mem_leaves)
  have hslot : ((i + 1 : Nat) : Int) - 1 = (i : Int) := by omega
  rw [hi, hslot, sub32_succ (by omega), hk hne, hi, Nat.add_sub_cancel] at hm
  simp only [wp_bind, wp_modDb, wp_getDb, wp_pure']
  have hdb : (s1.modDb d EdTxnDb.started).txn.db d = (s1.txn.db d).started := by
    rw [St.modDb_db_self]
  refine ⟨m, up', i, hm.started hw.root ((Nat.le_succ i).trans hi.ge), hm.roams.modDb d rfl, ?_,
    trivial, ?_, hi.symm, ?_⟩
  · rw [St.modDb_db_of_ne _ _ d.other_ne, hm.other]
  · rw [hdb, hm.db]
    rfl
  · show leafPos s1 up' + 1 = _
    rw [hleaves, length_append, leafPos, hq.pages]
    rfl

end Steps

end Eddy
