import Eddy.Index.Graft

/-!
# Eddy — `ed_bpt_find`: the way down to a leaf

A search maps the pages on its way down; a page that is mapped already only gets its parent and
index anew. So the node table holds the way from the leaf found up to the root.
-/

namespace Eddy

open Outcome Slots PageTree Layout List

variable {E : Type} (env : Env E) (g : Geom) {s s' : St E} {n r b : Nat} {up : List (Nat × Nat)}

/-! ## The loops of a search -/

/-- The separators in front of the child found are at most the key; the one behind is greater, or
the one in front is the key itself. -/
theorem branchScan_spec (key : Nat → Nat) (k r i : Nat) :
    i ≤ branchScan key k r i ∧ branchScan key k r i ≤ i + r ∧
      (∀ j, i < j → j ≤ branchScan key k r i → key j ≤ k) ∧
      (branchScan key k r i < i + r → k < key (branchScan key k r i + 1) ∨
        (i < branchScan key k r i ∧ key (branchScan key k r i) = k)) := by
  induction r generalizing i with
  | zero => exact ⟨le_refl _, le_refl _, fun j h1 h2 => by simp [branchScan] at h2; omega,
      fun h => by simp [branchScan] at h⟩
  | succ r ih =>
    rw [branchScan]
    split
    · rename_i hlt
      exact ⟨le_refl _, by omega, fun j h1 h2 => by omega, fun _ => .inl hlt⟩
    · rename_i hge
      split
      · rename_i heq
        refine ⟨by omega, by omega, fun j h1 h2 => ?_, fun _ => .inr ⟨by omega, heq.symm⟩⟩
        obtain rfl : j = i + 1 := by omega
        omega
      · rename_i hne
        obtain ⟨h1, h2, h3, h4⟩ := ih (i + 1)
        refine ⟨by omega, by omega, fun j hj hj' => ?_, fun h => ?_⟩
        · rcases Nat.lt_or_ge (i + 1) j with hlt | hle
          · exact h3 j hlt hj'
          · obtain rfl : j = i + 1 := by omega
            omega
        · rcases h4 (by omega) with h5 | h5
          · exact .inl h5
          · exact .inr ⟨by omega, h5.2⟩

theorem branchSearch_le (b : EdBpt E) (k : Nat) : branchSearch b k ≤ b.nkeys := by
  have := (branchScan_spec b.key k b.nkeys 0).2.1
  rwa [Nat.zero_add] at this

/-- A search in a branch splits its separators at the key. -/
theorem branchSearch_spec (b : EdBpt E) (k : Nat) (hp : b.seps.Pairwise (· < ·)) :
    (∀ y ∈ b.seps.take (branchSearch b k), y ≤ k) ∧
      ∀ y ∈ b.seps.drop (branchSearch b k), k < y := by
  have hle := branchSearch_le b k
  obtain ⟨-, -, h3, h4⟩ := branchScan_spec b.key k b.nkeys 0
  change ∀ j, 0 < j → j ≤ branchSearch b k → b.key j ≤ k at h3
  change branchSearch b k < 0 + b.nkeys → k < b.key (branchSearch b k + 1) ∨
    (0 < branchSearch b k ∧ b.key (branchSearch b k) = k) at h4
  have hinc : ∀ i j, i < j → j < b.nkeys → b.key (i + 1) < b.key (j + 1) := by
    intro i j hij hj
    have h1 := pairwise_iff_getElem.mp hp i j (by simp; omega) (by simpa using hj) hij
    simpa [EdBpt.seps, getElem_slots] using h1
  refine ⟨fun y hy => ?_, fun y hy => ?_⟩
  · rw [EdBpt.seps, take_slots _ hle] at hy
    obtain ⟨j, hj, rfl⟩ := mem_slots.mp hy
    exact h3 (j + 1) (by omega) (by omega)
  · rw [EdBpt.seps, drop_slots] at hy
    obtain ⟨j, hj, rfl⟩ := mem_slots.mp hy
    have hfirst : k < b.key (branchSearch b k + 1) := by
      rcases h4 (by omega) with h5 | ⟨h5, h6⟩
      · exact h5
      · have := hinc (branchSearch b k - 1) (branchSearch b k) (by omega) (by omega)
        rw [Nat.sub_add_cancel h5, h6] at this
        exact this
    rcases Nat.eq_zero_or_pos j with rfl | hpos
    · exact hfirst
    · exact hfirst.trans (hinc (branchSearch b k) (branchSearch b k + j) (by omega) (by omega))

/-- The slot found in a leaf is the first one whose key is not below the key searched for. -/
theorem leafScan_spec [EdEntry E] (ent : Nat → E) (k r i kmin kmax : Nat) :
    let pos := leafScan ent k r i kmin kmax
    i ≤ pos.index ∧ pos.index ≤ i + r ∧ (∀ j, i ≤ j → j < pos.index → fetch64 (ent j) < k) ∧
      (pos.index < i + r → k ≤ fetch64 (ent pos.index)) ∧
      (pos.found = true ↔ pos.index < i + r ∧ fetch64 (ent pos.index) = k) := by
  induction r generalizing i kmin with
  | zero => simp [leafScan]; intro j h1 h2; omega
  | succ r ih =>
    simp only [leafScan]
    split
    · rename_i heq
      exact ⟨le_refl _, by simp, fun j h1 h2 => by simp at h2; omega, fun _ => le_of_eq heq,
        by simp [heq]⟩
    · rename_i hne
      split
      · rename_i hlt
        refine ⟨le_refl _, by simp, fun j h1 h2 => by simp at h2; omega, fun _ => hlt.le, ?_⟩
        simp
        omega
      · rename_i hge
        obtain ⟨h1, h2, h3, h4, h5⟩ := ih (i + 1) (fetch64 (ent i))
        refine ⟨by omega, by omega, fun j hj hj' => ?_, fun h => h4 (by omega), ?_⟩
        · rcases Nat.lt_or_ge i j with hlt | hle
          · exact h3 j hlt hj'
          · obtain rfl : j = i := by omega
            omega
        · rw [h5]
          constructor
          · rintro ⟨h6, h7⟩
            exact ⟨by omega, h7⟩
          · rintro ⟨h6, h7⟩
            exact ⟨by omega, h7⟩

theorem leafScan_range [EdEntry E] (ent : Nat → E) (k r i kmin kmax : Nat) :
    let pos := leafScan ent k r i kmin kmax
    pos.kmin = (if pos.index = i then kmin else fetch64 (ent (pos.index - 1))) ∧
      pos.kmax = if pos.index < i + r then fetch64 (ent pos.index) else kmax := by
  induction r generalizing i kmin with
  | zero => simp [leafScan]
  | succ r ih =>
    simp only [leafScan]
    split
    · simp
    · split
      · simp
      · -- the scan goes on behind slot `i`, whose key is the new lower bound
        obtain ⟨h1, h2⟩ := ih (i + 1) (fetch64 (ent i))
        have hle := (leafScan_spec ent k r (i + 1) (fetch64 (ent i)) kmax).1
        refine ⟨?_, ?_⟩
        · rw [h1, if_neg (show ¬ _ = i by omega)]
          split
          · rename_i heq
            rw [heq, Nat.add_sub_cancel]
          · rfl
        · rw [h2, show i + 1 + r = i + (r + 1) by omega]

theorem readEnt_ok {p : Option EntPtr} {t : St E} {e : E} (h : readEnt g p s = .ok e t) :
    t = s ∧ ∃ q, p = some q ∧ e = (s.pages q.page).ent q.slot.toNat := by
  cases p with
  | none => cases h
  | some q =>
    by_cases hq : 0 ≤ q.slot ∧ q.slot < g.leafOrder
    · have h' : readEnt g (some q) s = .ok ((s.pages q.page).ent q.slot.toNat) s := by
        simp only [readEnt, if_pos hq]
        rfl
      cases h'.symm.trans h
      exact ⟨rfl, q, rfl, rfl⟩
    · have h' : readEnt g (some q) s = .stuck := by
        simp only [readEnt, if_neg hq]
        rfl
      cases h'.symm.trans h

theorem edBptFind_match [EdEntry E] (d : EdDb) (k : Nat) (s : St E) :
    wp (edBptFind env g d k)
      (fun res s' => res.1 = 1 → ∀ e t, readEnt g res.2 s' = .ok e t → fetch64 e = k)
      ⟨fun _ _ => True, fun _ _ => True, True⟩ s := by
  unfold edBptFind
  simp only [wp_bind, wp_gets, wp_ite, wp_throw, wp_modDb]
  refine ⟨fun _ => trivial, fun _ => ?_⟩
  cases (s.txn.db d).root with
  | none => simp [wp_modDb]
  | some root =>
    simp only [wp_bind, wp_gets]
    refine wp_mono (wp_run _ _) (fun r s1 _ => ?_) (fun _ _ _ => trivial)
      (fun _ _ _ => trivial) fun _ => trivial
    simp only [wp_get, wp_ite, wp_bind, wp_modDb, wp_stuck]
    refine ⟨fun _ => ?_, fun _ => trivial⟩
    obtain ⟨-, -, -, -, hfound⟩ := leafScan_spec (s1.tree r.1).ent k (s1.tree r.1).nkeys 0 r.2.1 r.2.2
    cases hf : (leafScan (s1.tree r.1).ent k (s1.tree r.1).nkeys 0 r.2.1 r.2.2).found with
    | false =>
      intro h
      simp at h
    | true =>
      intro _ e t he
      -- the slot read is the one the scan stopped at
      obtain ⟨-, q, hq, rfl⟩ := readEnt_ok g he
      have hq' : q = ⟨(s1.node r.1).page,
          (leafScan (s1.tree r.1).ent k (s1.tree r.1).nkeys 0 r.2.1 r.2.2).index⟩ :=
        (Option.some.inj hq).symm
      rw [hq']
      exact (hfound.mp hf).2

/-! ## The way down -/

section Down

variable {s s' : St E} {n m no i r : Nat} {up : List (Nat × Nat)}

theorem Mapped.other {par : Option Nat} (h : Mapped s s' m no par i) {j : Nat} (hj : j ≠ m) :
    s'.node j = s.node j := by
  cases h with
  | known hn hpage hs =>
    subst hs
    exact St.modNode_node_of_ne s _ hj
  | fresh hn hnew hs =>
    rw [hs, St.atTick_node]
    subst hn
    simp [St.wrapped, St.node, hj]

/-- The node of a child stands below its parent. -/
theorem Mapped.stands (hm : Mapped s s' m no (some n) i) (hst : Stands s n up r)
    (hr : r < s.txn.nused) (hkid : (s.tree n).kids[i]? = some no)
    (hne : no ∉ (s.node n).page :: upPages s up) : Stands s' m ((n, i) :: up) r := by
  obtain ⟨hlt, hpage, hpar, hidx⟩ := hm.node
  have hq := Quiet.mapped hm
  have hnm : ∀ j, j < s.txn.nused → (s.node j).page ∈ (s.node n).page :: upPages s up → j ≠ m := by
    rintro j hj hmem rfl
    rw [← (hq.node j hj).1, hpage] at hmem
    exact hne hmem
  have hsame : ∀ j, j < s.txn.nused → (s.node j).page ∈ (s.node n).page :: upPages s up →
      s'.node j = s.node j := fun j hj hmem => hm.other (hnm j hj hmem)
  have hn := hsame n hst.lt (by simp)
  have hup : ∀ x ∈ up, s'.node x.1 = s.node x.1 := fun x hx =>
    hsame x.1 (hst.ltUp x hx) (mem_cons_of_mem _ (mem_upPages hx))
  have hst' : Stands s' n up r := hst.congr hq.nused hr (fun j hj => (hq.node j hj).1)
    ⟨by rw [hn], by rw [hn]⟩ (fun x hx => ⟨by rw [hup x hx], by rw [hup x hx]⟩)
    fun x _ => by rw [hq.pages]; rfl
  exact {
    chain := ⟨hpar, hidx, hst'.chain⟩
    lt := hlt
    ltUp := fun x hx => by
      rcases mem_cons.mp hx with rfl | hx
      · exact hst'.lt
      · exact hst'.ltUp x hx
    top := hst.top
    link := by
      refine ⟨?_, hst'.link⟩
      rw [hpage, hq.pages, hn]
      exact hkid }

/-- A tree in which a descent from the node `n` at height `h` is under way. -/
structure Below (s : St E) (n : Nat) (up : List (Nat × Nat)) (r h : Nat) : Prop where
  stands : Stands s n up r
  root : r < s.txn.nused
  shaped : Shaped s.pages (some (s.node r).page) (h + up.length) g
  nodup : (layout.pages s.pages (h + up.length) (s.node r).page).Nodup

variable {g} {h : Nat}

theorem Below.perm (hb : Below g s n up r h) :
    (layout.pages s.pages (h + up.length) (s.node r).page).Perm
      (layout.pages s.pages h (s.node n).page ++ upPages s up
        ++ layout.beside s.pages h (pagePath s up)) := by
  have := layout.pages_of_onPath s.pages (h := h) hb.stands.link
  rwa [show (pagePath s up).length = up.length by simp [pagePath],
    show (pagePath s up).map Prod.fst = upPages s up by
      simp [pagePath, upPages, Function.comp_def]] at this

theorem Below.branch (hb : Below g s n up r (h + 1)) : BranchOk g (s.tree n) := by
  refine hb.shaped.branch _ ?_
  have := layout.inner_of_onPath s.pages (h := h + 1) hb.stands.link
  rw [show (pagePath s up).length = up.length by simp [pagePath]] at this
  refine this.symm.subset (mem_append_left _ (mem_append_left _ ?_))
  exact mem_cons_self

theorem Below.mem_leaves (hb : Below g s n up r 0) :
    (s.node n).page ∈ layout.leaves s.pages up.length (s.node r).page := by
  have := layout.leaves_of_onPath s.pages (h := 0) hb.stands.link
  rw [Nat.zero_add, show (pagePath s up).length = up.length by simp [pagePath]] at this
  rw [this]
  exact mem_append_left _ (mem_append_right _ (mem_singleton.mpr rfl))

theorem Below.leaf (hb : Below g s n up r 0) : (s.tree n).type = .leaf := by
  refine hb.shaped.leaf _ ?_
  rw [Nat.zero_add]
  exact hb.mem_leaves

theorem Below.child (hb : Below g s n up r (h + 1)) (hi : i ≤ (s.tree n).nkeys)
    (hm : Mapped s s' m ((s.tree n).ptr i) (some n) i) :
    Below g s' m ((n, i) :: up) r h ∧ (s'.node m).page ∈ layout.pages s.pages (h + 1) (s.node n).page
    := by
  have hq := Quiet.mapped hm
  have hkid : (s.tree n).kids[i]? = some ((s.tree n).ptr i) := getElem?_kids hi
  have hmem : (s.tree n).ptr i ∈ (s.tree n).kids := mem_of_getElem? hkid
  have hbel := layout.pages_subset_below s.pages (h := h) hmem (layout.mem_pages_self s.pages)
  have hnd := (nodup_append.mp (hb.perm.nodup_iff.mp hb.nodup)).1
  rw [layout.pages_succ] at hnd ⊢
  have hne : (s.tree n).ptr i ∉ (s.node n).page :: upPages s up := by
    rw [mem_cons, not_or]
    obtain ⟨h1, -, h2⟩ := nodup_append.mp hnd
    exact ⟨fun e => (nodup_cons.mp h1).1 (e ▸ hbel),
      fun hu => h2 _ (mem_cons_of_mem _ hbel) _ hu rfl⟩
  have hrp : (s'.node r).page = (s.node r).page := (hq.node r hb.root).1
  have hlen : h + ((n, i) :: up).length = h + 1 + up.length := by simp; omega
  refine ⟨⟨hm.stands hb.stands hb.root hkid hne, hb.root.trans_le hq.nused, ?_, ?_⟩, ?_⟩
  · rw [hrp, hq.pages, hlen]
    exact hb.shaped
  · rw [hrp, hq.pages, hlen]
    exact hb.nodup
  · rw [hm.node.2.1]
    exact mem_cons_of_mem _ hbel

end Down

/-! ## Walks over the pages of a tree -/

theorem Stands.modDb (h : Stands s n up r) (d : EdDb) (f : EdTxnDb → EdTxnDb) :
    Stands (s.modDb d f) n up r :=
  ⟨h.chain.congr ⟨rfl, rfl⟩ fun _ _ => ⟨rfl, rfl⟩, h.lt, h.ltUp, h.top, h.link⟩

/-- Nodes of the tree of height `H` below `r` were mapped; the node table is otherwise as before. -/
structure Roams (s s' : St E) (r H : Nat) : Prop where
  quiet : Quiet s s'
  nodes : ∀ j, j < s.txn.nused → (s.node j).page ∉ layout.pages s.pages H (s.node r).page →
    s'.node j = s.node j

section Roams

variable {g} {s s' s'' : St E} {r H h n m i : Nat} {up : List (Nat × Nat)} {d : EdDb}

theorem Roams.refl (s : St E) (r H : Nat) : Roams s s r H := ⟨Quiet.refl s, fun _ _ _ => rfl⟩

theorem Roams.trans (h : Roams s s' r H) (h' : Roams s' s'' r H) (hr : r < s.txn.nused) :
    Roams s s'' r H := by
  refine ⟨h.quiet.trans h'.quiet, fun j hj hnot => ?_⟩
  have hj' := h.nodes j hj hnot
  rw [h'.nodes j (hj.trans_le h.quiet.nused) ?_, hj']
  rw [hj', h.quiet.pages, (h.quiet.node r hr).1]
  exact hnot

theorem Roams.modDb (h : Roams s s' r H) (d : EdDb) {f : EdTxnDb → EdTxnDb}
    (hroot : (f (s'.txn.db d)).root = (s'.txn.db d).root) : Roams s (s'.modDb d f) r H :=
  ⟨h.quiet.trans (Quiet.modDb s' d f hroot), h.nodes⟩

theorem Roams.mapped {no : Nat} {par : Option Nat} (hm : Mapped s s' m no par i)
    (hmem : no ∈ layout.pages s.pages H (s.node r).page) : Roams s s' r H := by
  refine ⟨Quiet.mapped hm, fun j hj hnot => hm.other ?_⟩
  rintro rfl
  rw [← ((Quiet.mapped hm).node j hj).1, hm.node.2.1] at hnot
  exact hnot hmem

theorem Below.parent (hb : Below g s n ((b, i) :: up) r h) : Below g s b up r (h + 1) := by
  have hlen := Layout.add_length_cons h (b, i) up
  have hst := hb.stands
  exact {
    stands := ⟨hst.chain.2.2, hst.ltUp (b, i) mem_cons_self,
      fun x hx => hst.ltUp x (mem_cons_of_mem _ hx), hst.top, hst.link.2⟩
    root := hb.root
    shaped := hlen ▸ hb.shaped
    nodup := hlen ▸ hb.nodup }

theorem Below.kid (hb : Below g s n ((b, i) :: up) r h) :
    (s.tree b).kids[i]? = some (s.node n).page := hb.stands.link.1

theorem Below.index_le (hb : Below g s n ((b, i) :: up) r h) : i ≤ (s.tree b).nkeys := by
  have := (List.getElem?_eq_some_iff.mp hb.kid).1
  rw [length_kids] at this
  omega

theorem Below.child_mem (hb : Below g s n up r (h + 1)) (hi : i ≤ (s.tree n).nkeys) :
    (s.tree n).ptr i ∈ layout.pages s.pages (h + 1 + up.length) (s.node r).page := by
  refine hb.perm.symm.subset (mem_append_left _ (mem_append_left _ ?_))
  rw [layout.pages_succ]
  refine mem_cons_of_mem _ (layout.pages_subset_below s.pages
    (mem_of_getElem? (getElem?_kids hi)) (layout.mem_pages_self s.pages))

theorem Below.length_lt (hb : Below g s n up r h) : up.length < s.txn.nused := by
  have hnd := (nodup_append.mp (hb.perm.nodup_iff.mp hb.nodup)).1
  have hpages : (((n :: up.map Prod.fst).map fun x => (s.node x).page)).Nodup := by
    rw [map_cons, map_map]
    refine nodup_cons.mpr ⟨fun hmem => ?_, (nodup_append.mp hnd).2.1⟩
    exact (nodup_append.mp hnd).2.2 _ (layout.mem_pages_self s.pages) _ hmem rfl
  have hsub : n :: up.map Prod.fst ⊆ List.range s.txn.nused := by
    intro x hx
    rw [mem_range]
    rcases mem_cons.mp hx with rfl | hx
    · exact hb.stands.lt
    · obtain ⟨y, hy, rfl⟩ := mem_map.mp hx
      exact hb.stands.ltUp y hy
  have := (subperm_of_subset hpages.of_map hsub).length_le
  rw [length_cons, length_map, length_range] at this
  omega

theorem Below.modDb (hb : Below g s n up r h) (d : EdDb) (f : EdTxnDb → EdTxnDb) :
    Below g (s.modDb d f) n up r h :=
  ⟨hb.stands.modDb d f, hb.root, hb.shaped, hb.nodup⟩

end Roams

/-! ## The fences of a place -/

/-- The separator in front of a place, `0` when there is none. -/
def lowKey (s : St E) : List (Nat × Nat) → Nat
  | [] => 0
  | (n, i) :: up => if i = 0 then lowKey s up else (s.tree n).key i

/-- The largest key in front of the separator behind a place. -/
def highKey (s : St E) : List (Nat × Nat) → Nat
  | [] => uint64Max
  | (n, i) :: up => if i < (s.tree n).nkeys then pred64 ((s.tree n).key (i + 1)) else highKey s up

theorem fences_congr (h : ∀ x ∈ up, s'.tree x.1 = s.tree x.1) :
    lowKey s' up = lowKey s up ∧ highKey s' up = highKey s up := by
  induction up with
  | nil => exact ⟨rfl, rfl⟩
  | cons x up ih =>
    obtain ⟨h1, h2⟩ := ih fun y hy => h y (mem_cons_of_mem _ hy)
    simp only [lowKey, highKey, h x mem_cons_self, h1, h2, and_self]

theorem fences_of_seps {up' : List (Nat × Nat)} (h : pathSeps s' up' = pathSeps s up)
    (hle : ∀ x ∈ up, x.2 ≤ (s.tree x.1).nkeys) :
    lowKey s' up' = lowKey s up ∧ highKey s' up' = highKey s up := by
  induction up generalizing up' with
  | nil =>
    cases up' with
    | nil => exact ⟨rfl, rfl⟩
    | cons y up' => cases h
  | cons x up ih =>
    cases up' with
    | nil => cases h
    | cons y up' =>
      obtain ⟨hhead, htail⟩ := cons_eq_cons.mp h
      obtain ⟨n, i⟩ := x
      obtain ⟨n', i'⟩ := y
      obtain ⟨rfl, hseps⟩ := Prod.mk.inj hhead
      obtain ⟨h1, h2⟩ := ih htail fun z hz => hle z (mem_cons_of_mem _ hz)
      have hi : i' ≤ (s.tree n).nkeys := hle (n, i') mem_cons_self
      have hn : (s'.tree n').nkeys = (s.tree n).nkeys := by
        simpa using congrArg List.length hseps
      have hkey : ∀ j, j < (s.tree n).nkeys → (s'.tree n').key (j + 1) = (s.tree n).key (j + 1) := by
        intro j hj
        have h3 := getElem?_seps (b := s'.tree n') (show j < _ by omega)
        rw [hseps, getElem?_seps hj] at h3
        exact (Option.some.inj h3).symm
      refine ⟨?_, ?_⟩
      · simp only [lowKey, h1]
        split
        · rfl
        · obtain ⟨j, rfl⟩ : ∃ j, i' = j + 1 := ⟨i' - 1, by omega⟩
          exact hkey j (by omega)
      · simp only [highKey, h2, hn]
        split
        · rename_i hlt
          rw [hkey i' hlt]
        · rfl

theorem findKmax_spec {fuel : Nat} (hc : NChain s n up) (hfuel : up.length < fuel) (t : St E)
    {Q : Nat → St E → Prop} {X : Exits EdErr EdFault (St E)} (hQ : Q (highKey s up) t) :
    wp (findKmax s fuel n) Q X t := by
  induction up generalizing n fuel with
  | nil =>
    obtain ⟨fuel, rfl⟩ : ∃ k, fuel = k + 1 := ⟨fuel - 1, by omega⟩
    rw [findKmax, hc.1]
    exact hQ
  | cons x up ih =>
    obtain ⟨b, i⟩ := x
    obtain ⟨fuel, rfl⟩ : ∃ k, fuel = k + 1 := ⟨fuel - 1, by omega⟩
    obtain ⟨hpar, hidx, hrest⟩ := hc
    rw [findKmax, hpar]
    simp only [hidx, wp_ite]
    refine ⟨fun hlt => ?_, fun hge => ?_⟩
    · rw [highKey, if_pos hlt] at hQ
      exact hQ
    · rw [highKey, if_neg hge] at hQ
      exact ih hrest (by simpa using hfuel) hQ

variable {R T : List Nat} {hs : EdDb → Nat} {d : EdDb} {s : St E}

theorem Quiet.tree (hq : Quiet s s') (hn : n < s.txn.nused) : s'.tree n = s.tree n := by
  rw [tree_eq, tree_eq, (hq.node n hn).1, hq.pages]

theorem Quiet.rootNo (hq : Quiet s s') (hg : Good s) (e : EdDb) : rootNo s' e = rootNo s e := by
  unfold Eddy.rootNo
  rw [hq.root e]
  cases hr : (s.txn.db e).root with
  | none => rfl
  | some r => simp [(hq.node r (hg.root _ _ hr)).1]

/-- The exits of a walk over pages: it fails only when a mapping is refused, and is undefined only
under the condition `U`. -/
def walkExits (U : Prop) : Exits EdErr EdFault (St E) where
  err _ s' := Lost env s'
  halt _ _ := False
  stuck := U

theorem edTxnMap_walk (s : St E) (no : Nat) (par : Option Nat) (pidx : Nat) :
    wp (edTxnMap env no par pidx) (fun n s' => Mapped s s' n no par pidx)
      (walkExits env False) s :=
  wp_mono (wp_and (edTxnMap_spec env s no par pidx) (edTxnMap_refused env s no par pidx))
    (fun _ _ h => h.1) (fun _ _ h => ⟨h.1.2, h.2⟩) (fun _ _ h => h.1) fun h => h.1

theorem St.modDb_find_self (h : (s.txn.db d).find = some n) :
    (s.modDb d fun c => { c with find := some n }) = s :=
  St.modDb_eq_self s (by rw [← h])

/-- The descent ends at a leaf, along the children that `branch_search` names. -/
theorem findDescend_spec (k : Nat) {h fuel : Nat} {kmin kmax : Nat} (hfuel : h < fuel)
    (hb : Below g s n up r h) (hfind : (s.txn.db d).find = some n) (hmin : kmin = lowKey s up)
    (hmax : kmax = highKey s up) :
    wp (findDescend env g d k fuel n kmin kmax)
      (fun res s' => Quiet s s' ∧
        s'.txn.db = (s.modDb d fun c => { c with find := some res.1 }).txn.db ∧
        (∃ down, Below g s' res.1 (down ++ up) r 0 ∧ down.length = h ∧
          (∀ x ∈ down, x.2 = branchSearch (s'.tree x.1) k) ∧
          res.2.1 = lowKey s' (down ++ up) ∧ res.2.2 = highKey s' (down ++ up)) ∧
        ∀ j, j < s.txn.nused → (s.node j).page ∉ layout.pages s.pages h (s.node n).page →
          s'.node j = s.node j)
      (walkExits env False) s := by
  -- induction on the height that is left
  induction h generalizing s n up kmin kmax fuel with
  | zero =>
    obtain ⟨fuel, rfl⟩ : ∃ m, fuel = m + 1 := ⟨fuel - 1, by omega⟩
    rw [findDescend, wp_bind, wp_getTree, if_neg (by rw [hb.leaf]; decide)]
    exact ⟨Quiet.refl s, by rw [St.modDb_find_self hfind], ⟨[], hb, rfl, by simp, hmin, hmax⟩,
      fun _ _ _ => rfl⟩
  | succ h ih =>
    obtain ⟨fuel, rfl⟩ : ∃ m, fuel = m + 1 := ⟨fuel - 1, by omega⟩
    have hbr := hb.branch
    rw [findDescend, wp_bind, wp_getTree, if_pos hbr.type, if_pos hbr.lt]
    simp only [wp_bind]
    refine wp_post (edTxnMap_walk env s _ _ _) ?_
    intro m s1 hm
    obtain ⟨hb1, hmem⟩ := hb.child (branchSearch_le (s.tree n) k) hm
    have hq1 := Quiet.mapped hm
    rw [wp_modDb]
    set s2 := s1.modDb d fun c => { c with find := some m } with hs2
    have hb2 : Below g s2 m ((n, branchSearch (s.tree n) k) :: up) r h :=
      ⟨hb1.stands.congr (le_refl _) hb1.root (fun _ _ => rfl) ⟨rfl, rfl⟩ (fun _ _ => ⟨rfl, rfl⟩)
        fun _ _ => rfl, hb1.root, hb1.shaped, hb1.nodup⟩
    have hq2 : Quiet s s2 := hq1.trans (Quiet.modDb s1 d _ rfl)
    have hfind2 : (s2.txn.db d).find = some m := by rw [hs2, St.modDb_db_self]
    have ht2 : s2.tree n = s.tree n := hq2.tree hb.stands.lt
    obtain ⟨hlow, hhigh⟩ := fences_congr fun x hx => hq2.tree (hb.stands.ltUp x hx)
    refine wp_post (ih (by omega) hb2 hfind2 (by rw [lowKey, ht2, hlow, hmin])
      (by rw [highKey, ht2, hhigh, hmax])) ?_
    rintro res s' ⟨hq, hdb, ⟨down, hb', hlen, hroute, hkeys⟩, hnodes⟩
    refine ⟨hq2.trans hq, ?_, ⟨down ++ [(n, branchSearch (s.tree n) k)], ?_, by simp [hlen], ?_,
      by rwa [append_assoc]⟩, ?_⟩
    · rw [hdb]
      funext e
      by_cases he : e = d
      · subst he
        simp only [St.modDb_db_self, hs2, hm.db]
      · simp only [St.modDb_db_of_ne _ _ he, hs2, hm.db]
    · rw [append_assoc]
      exact hb'
    · intro x hx
      rcases mem_append.mp hx with hx | hx
      · exact hroute x hx
      · obtain rfl : x = (n, branchSearch (s.tree n) k) := by simpa using hx
        rw [(hq2.trans hq).tree hb.stands.lt]
    · intro j hj hnot
      have hmp : (s2.node m).page = (s.tree n).ptr (branchSearch (s.tree n) k) := hm.node.2.1
      have hkid : (s.tree n).ptr (branchSearch (s.tree n) k) ∈ (s.tree n).kids :=
        mem_of_getElem? (getElem?_kids (branchSearch_le (s.tree n) k))
      have hjm : j ≠ m := by
        rintro rfl
        rw [(hq1.node j hj).1] at hmem
        exact hnot hmem
      have hsame : s2.node j = s.node j := hm.other hjm
      rw [hnodes j (hj.trans_le hq2.nused), hsame]
      rw [hsame, hq2.pages, hmp]
      intro hin
      exact hnot (mem_cons_of_mem _ (layout.pages_subset_below s.pages hkid hin))

/-! ## The cursor after a search -/

theorem height_lt_of_nodup {S : Nat → EdBpt E} {p h m : Nat} (hnd : (treePages S (some p) h).Nodup)
    (hlt : ∀ q ∈ treePages S (some p) h, q < m) : h < m := by
  have hsub : treePages S (some p) h ⊆ List.range m := fun q hq => mem_range.mpr (hlt q hq)
  have h1 := (subperm_of_subset hnd hsub).length_le
  have h2 := layout.lt_length_pages S (fun b => ne_nil_of_length_pos (by simp)) h p
  rw [treePages_some] at h1
  simp only [length_range] at h1
  omega

theorem TxnOk.height_lt {g : Geom} (h : TxnOk g s R T hs) {p : Nat} (hr : rootNo s d = some p) :
    hs d < s.hdr.no := by
  have hnd : (ownPages s hs d).Nodup :=
    (nodup_append.mp (nodup_append.mp (h.nodup d)).1).1
  rw [ownPages, hr] at hnd
  refine height_lt_of_nodup hnd fun q hq => h.base.sound.lt q (mem_append_left _ ?_)
  rcases h.known (by rw [ownPages, hr]; exact hq) with h1 | h1
  · exact mem_append_left _ h1
  · exact mem_append_right _ (mem_of_mem_take h1)

theorem TxnOk.below {g : Geom} (h : TxnOk g s R T hs) (hr : (s.txn.db d).root = some r) :
    Below g s r [] r (hs d) := by
  obtain ⟨n, up, -, hst, -⟩ := (h.cursor d).stands r hr
  have hrs : rootNo s d = some (s.node r).page := by simp [rootNo, hr]
  refine ⟨hst.root, h.good.root d r hr, ?_, ?_⟩
  · have := h.shaped d
    rwa [hrs] at this
  · have := (nodup_append.mp (nodup_append.mp (h.nodup d)).1).1
    rwa [ownPages, hrs] at this

variable [EdEntry E]

/-- The cursor stands in front of a slot of the leaf `n`, or behind all of them. -/
structure CursorAt (s : St E) (d : EdDb) (n : Nat) (up : List (Nat × Nat)) (r : Nat) : Prop where
  root : (s.txn.db d).root = some r
  find : (s.txn.db d).find = some n
  stands : Stands s n up r
  entry : (s.txn.db d).entry = some ⟨(s.node n).page, (s.txn.db d).entryIndex⟩
  le : (s.txn.db d).entryIndex ≤ (s.tree n).nkeys

/-- The smallest key that may go in front of slot `i` of the leaf `n`. -/
def slotMin (s : St E) (n : Nat) (up : List (Nat × Nat)) (i : Nat) : Nat :=
  if i = 0 then lowKey s up else fetch64 ((s.tree n).ent (i - 1))

/-- The largest key that may go in front of slot `i` of the leaf `n`. -/
def slotMax (s : St E) (n : Nat) (up : List (Nat × Nat)) (i : Nat) : Nat :=
  if i < (s.tree n).nkeys then fetch64 ((s.tree n).ent i) else highKey s up

/-- The cursor stands at the first entry of the leaf `n` whose key is not below `k`. -/
structure AtKey (s : St E) (d : EdDb) (k n : Nat) (up : List (Nat × Nat)) (r : Nat) : Prop
    extends CursorAt s d n up r where
  hasfind : (s.txn.db d).hasfind = true
  route : ∀ x ∈ up, x.2 = branchSearch (s.tree x.1) k
  key : (s.txn.db d).key = k
  kmin : (s.txn.db d).kmin = slotMin s n up (s.txn.db d).entryIndex
  kmax : (s.txn.db d).kmax = slotMax s n up (s.txn.db d).entryIndex
  before : ∀ j, j < (s.txn.db d).entryIndex → fetch64 ((s.tree n).ent j) < k
  after : (s.txn.db d).entryIndex < (s.tree n).nkeys →
    k ≤ fetch64 ((s.tree n).ent (s.txn.db d).entryIndex)
  matched : (s.txn.db d).matched = true ↔ (s.txn.db d).entryIndex < (s.tree n).nkeys ∧
    fetch64 ((s.tree n).ent (s.txn.db d).entryIndex) = k
  nmatches : (s.txn.db d).nmatches = if (s.txn.db d).matched then 1 else 0
  hasentry : (s.txn.db d).hasentry = (s.txn.db d).matched

/-- The cursor of an empty tree after a search. -/
structure AtNone (s : St E) (d : EdDb) (k : Nat) : Prop where
  root : (s.txn.db d).root = none
  find : (s.txn.db d).find = none
  hasfind : (s.txn.db d).hasfind = true
  key : (s.txn.db d).key = k
  index : (s.txn.db d).entryIndex = 0
  matched : (s.txn.db d).matched = false
  hasentry : (s.txn.db d).hasentry = false

/-- A leaf of the tree holds more entries than fit on a page. -/
def Overfull (s : St E) (hs : EdDb → Nat) (d : EdDb) : Prop :=
  ∃ q ∈ treeLeaves s.pages (rootNo s d) (hs d), g.leafOrder < (s.pages q).nkeys

/-- What a search leaves behind. -/
structure Searched (s s' : St E) (R T : List Nat) (hs : EdDb → Nat) (d : EdDb) (k : Nat)
    (res : Nat × Option EntPtr) : Prop where
  ok : TxnOk g s' R T hs
  quiet : Quiet s s'
  other : s'.txn.db d.other = s.txn.db d.other
  place : (AtNone s' d k ∧ res = (0, none)) ∨
    ∃ n up r, AtKey s' d k n up r ∧ up.length = hs d ∧
      res = if (s'.txn.db d).matched then (1, (s'.txn.db d).entry) else (0, none)

/-- What a search in the tree of height `H` below the node `r` leaves behind. -/
structure FoundAt (s s' : St E) (d : EdDb) (k r H n : Nat) (up : List (Nat × Nat))
    (res : Nat × Option EntPtr) : Prop extends AtKey s' d k n up r where
  roams : Roams s s' r H
  other : s'.txn.db d.other = s.txn.db d.other
  below : Below g s' n up r 0
  height : up.length = H
  haskey : (s'.txn.db d).haskey = true
  start : (s'.txn.db d).start = (s'.txn.db d).entry
  nloops : (s'.txn.db d).nloops = 0
  res : res = if (s'.txn.db d).matched then (1, (s'.txn.db d).entry) else (0, none)

theorem edBptFind_below {H : Nat} (hopen : s.txn.state = .open) (hroot : (s.txn.db d).root = some r)
    (hb : Below g s r [] r H) (hH : H < s.hdr.no) (k : Nat) :
    wp (edBptFind env g d k) (fun res s' => ∃ n up, FoundAt g s s' d k r H n up res)
      (walkExits env (∃ q ∈ layout.leaves s.pages H (s.node r).page, g.leafOrder < (s.pages q).nkeys))
      s := by
  unfold edBptFind
  simp only [wp_bind, wp_gets, wp_ite, wp_throw, wp_modDb]
  refine ⟨fun hne => absurd hopen hne, fun _ => ?_⟩
  set s1 := s.modDb d EdTxnDb.searchReset with hs1
  have hdb1 : s1.txn.db d = (s.txn.db d).searchReset := by rw [hs1, St.modDb_db_self]
  have hother1 : s1.txn.db d.other = s.txn.db d.other := St.modDb_db_of_ne s _ d.other_ne
  have hb1 : Below g s1 r [] r H := hb.modDb d _
  have hfind1 : (s1.txn.db d).find = some r := by rw [hdb1]; exact hroot
  simp only [hroot, wp_bind, wp_gets]
  refine wp_mono (findDescend_spec env g k (hH.trans (Nat.lt_succ_self _)) hb1 hfind1 rfl rfl)
    ?_ (fun _ _ h => h) (fun _ _ h => h) False.elim
  rintro ⟨n, kmin, kmax⟩ s2 ⟨hq2, hdb2, ⟨down, hb2, hlen, hroute, hmin, hmax⟩, hnodes⟩
  rw [append_nil] at hb2 hmin hmax
  change kmin = lowKey s2 down at hmin
  change kmax = highKey s2 down at hmax
  simp only [wp_get, wp_ite, wp_bind, wp_modDb, wp_pure', wp_stuck]
  have hdd : s2.txn.db d = { (s.txn.db d).searchReset with find := some n } := by
    rw [hdb2, St.modDb_db_self, hdb1]
  obtain ⟨-, hle, hbefore, hafter, hfound⟩ :=
    leafScan_spec (s2.tree n).ent k (s2.tree n).nkeys 0 kmin kmax
  obtain ⟨hpmin, hpmax⟩ := leafScan_range (s2.tree n).ent k (s2.tree n).nkeys 0 kmin kmax
  set pos := leafScan (s2.tree n).ent k (s2.tree n).nkeys 0 kmin kmax with hpos
  rw [Nat.zero_add] at hle hafter hfound hpmax
  refine ⟨fun _ => ⟨n, down, ?_⟩, fun hno => ?_⟩
  · set s3 := s2.modDb d fun c => c.found k pos (some ⟨(s2.node n).page, pos.index⟩) with hs3
    have hdb3 : s3.txn.db d = (s2.txn.db d).found k pos (some ⟨(s2.node n).page, pos.index⟩) := by
      rw [hs3, St.modDb_db_self]
    have hother : s3.txn.db d.other = s.txn.db d.other := by
      rw [hs3, St.modDb_db_of_ne _ _ d.other_ne, hdb2, St.modDb_db_of_ne _ _ d.other_ne, hother1]
    have hf3 : lowKey s3 down = lowKey s2 down ∧ highKey s3 down = highKey s2 down :=
      fences_congr fun _ _ => rfl
    have hroams : Roams s s2 r H := ⟨(Quiet.modDb s d _ rfl).trans hq2, hnodes⟩
    exact {
      roams := hroams.modDb d rfl
      other := hother
      below := hb2.modDb d _
      height := hlen
      haskey := by rw [hdb3]; rfl
      start := by rw [hdb3]; rfl
      nloops := by rw [hdb3]; rfl
      res := by rw [hdb3]; rfl
      root := by rw [hdb3, hdd]; exact hroot
      find := by rw [hdb3, hdd]; rfl
      hasfind := by rw [hdb3]; rfl
      stands := hb2.stands.modDb d _
      route := hroute
      key := by rw [hdb3]; rfl
      kmin := by rw [hdb3]; exact hpmin.trans (by rw [hmin, ← hf3.1]; rfl)
      kmax := by rw [hdb3]; exact hpmax.trans (by rw [hmax, ← hf3.2]; rfl)
      entry := by rw [hdb3]; rfl
      le := by rw [hdb3]; exact hle
      before := by rw [hdb3]; exact fun j hj => hbefore j (Nat.zero_le _) hj
      after := by rw [hdb3]; exact hafter
      matched := by rw [hdb3]; exact hfound
      nmatches := by rw [hdb3]; rfl
      hasentry := by rw [hdb3]; rfl }
  · refine ⟨(s2.node n).page, ?_, ?_⟩
    · have := hb2.mem_leaves
      rw [hq2.pages, (hq2.node r hb1.root).1, hlen] at this
      exact this
    · have hpages : s2.tree n = s.pages (s2.node n).page := by rw [tree_eq, hq2.pages]; rfl
      rw [← hpages]
      omega

theorem edBptFind_none (hopen : s.txn.state = .open) (hroot : (s.txn.db d).root = none) (k : Nat) :
    wp (edBptFind env g d k)
      (fun res s' => res = (0, none) ∧ s' = (s.modDb d EdTxnDb.searchReset).modDb d
        fun c => c.found k ⟨0, 0, uint64Max, false⟩ none)
      (walkExits env False) s := by
  unfold edBptFind
  simp only [wp_bind, wp_gets, wp_ite, wp_throw, wp_modDb, hroot, wp_pure']
  exact ⟨fun hne => absurd hopen hne, fun _ => ⟨trivial, trivial⟩⟩

theorem edBptFind_place (h : TxnOk g s R T hs) (k : Nat) :
    wp (edBptFind env g d k)
      (fun res s' => Quiet s s' → Good s' → Searched g s s' R T hs d k res)
      (pageExits env (Overfull g s hs d)) s := by
  cases hroot : (s.txn.db d).root with
  | none =>
    refine wp_mono (edBptFind_none env g h.base.writing.isOpen hroot k) ?_ (fun _ _ h => h)
      (fun _ _ => False.elim) False.elim
    rintro res s' ⟨rfl, hs'⟩ hq hg
    have hdb : s'.txn.db d = (s.txn.db d).searchReset.found k ⟨0, 0, uint64Max, false⟩ none := by
      rw [hs', St.modDb_db_self, St.modDb_db_self]
    have hother : s'.txn.db d.other = s.txn.db d.other := by
      rw [hs', St.modDb_db_of_ne _ _ d.other_ne, St.modDb_db_of_ne _ _ d.other_ne]
    have hroot' : (s'.txn.db d).root = none := by rw [hdb]; exact hroot
    refine ⟨h.quiet hq hg hother (fun j _ _ => ?_) ⟨?_, ?_⟩, hq, hother, .inl ⟨?_, rfl⟩⟩
    · rw [hs']
      exact ⟨rfl, rfl⟩
    · rw [hdb]
      exact fun h0 => h0
    · intro r hr
      rw [hroot'] at hr
      cases hr
    · exact {
        root := hroot'
        find := by rw [hdb]; exact hroot
        hasfind := by rw [hdb]; rfl
        key := by rw [hdb]; rfl
        index := by rw [hdb]; rfl
        matched := by rw [hdb]; rfl
        hasentry := by rw [hdb]; rfl }
  | some r =>
    have hrs : rootNo s d = some (s.node r).page := by simp [rootNo, hroot]
    refine wp_mono (edBptFind_below env g h.base.writing.isOpen hroot (h.below hroot)
      (h.height_lt hrs) k) ?_ (fun _ _ h => h) (fun _ _ => False.elim) ?_
    · rintro res s' ⟨n, up, hf⟩ hq hg
      refine ⟨h.quiet hq hg hf.other (fun j hj hnot => ?_) ⟨?_, ?_⟩, hq, hf.other,
        .inr ⟨n, up, r, hf.toAtKey, hf.height, hf.res⟩⟩
      · have := hf.roams.nodes j hj fun hin => hnot (by rw [ownPages, hrs]; exact hin)
        exact ⟨congrArg EdNode.parent this, congrArg EdNode.pindex this⟩
      · intro h0
        rw [hf.root] at h0
        cases h0
      · intro r' hr'
        rw [hf.root] at hr'
        cases hr'
        exact ⟨n, up, hf.find, hf.stands, le_of_eq hf.height, fun _ => hf.height⟩
    · rintro ⟨q, hq, hlt⟩
      exact ⟨q, by rw [hrs]; exact hq, hlt⟩

theorem edBptFind_spec (h : TxnOk g s R T hs) (k : Nat) :
    wp (edBptFind env g d k) (fun res s' => Searched g s s' R T hs d k res)
      (pageExits env (Overfull g s hs d)) s :=
  wp_mono (wp_and (edBptFind_quiet env g s h.good d k) (edBptFind_place env g h k))
    (fun _ _ hr => hr.2 hr.1.1 hr.1.2) (fun _ _ he => he.2) (fun _ _ hh => hh.2) fun hu => hu.2

end Eddy
