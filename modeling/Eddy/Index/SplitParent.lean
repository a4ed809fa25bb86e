import Eddy.Index.Inserted

/-!
# Eddy — `insert_into_parent` with a full parent

The parent is split, the slot for the children is opened in one half, the two halves go one level
up, and only then are the children stored. `SplitRun` holds the facts about these four states;
`SplitRun.siblings` shows that the children can be stored, `SplitRun.inserted` that the whole way is
rebuilt afterwards.
-/

namespace Eddy

open Outcome Slots PageTree List

variable {E : Type} (env : Env E) (g : Geom) {j' : Nat} {s4 : St E}

variable {s : St E} {R : List Nat} {d : EdDb} {l r k m i : Nat} {rest : List (Nat × Nat)}

section Split

variable {g} {s1 s2 s3 : St E} {left right half idx mid : Nat} {fresh dead : List Nat}

theorem PageSplit.halves_room (hps : PageSplit g s s1 R m rest left right fresh dead)
    (hb1 : Base s1 R) (hl : l ≠ left ∧ l ≠ right) (hr : r ≠ left ∧ r ≠ right)
    (hup : ∀ x ∈ rest, l ≠ x.1 ∧ r ≠ x.1) (hat : half = left ∨ half = right)
    (hro : Roomy s1 s2 l r half idx) : Halves g s2 R left right rest := by
  have hh := hps.halves
  have hpage : ∀ n, n < s1.txn.nused → (s2.node n).page = (s1.node n).page := fun n hn =>
    hro.eff.step.node n hn
  have hnotL := hh.notL
  have hnotR := hh.notR
  have hidx : ∀ n, n ≠ l → n ≠ r → (s2.node n).pindex = (s1.node n).pindex := hro.pindex
  have howned : ∀ n, n < s1.txn.nused → Known s1 R (s1.node n).page → Owned s1 n → Owned s2 n := by
    intro n hn hk ho
    rw [Owned, tree_eq, hpage n hn, hro.eff.xid hb1 hk, hro.eff.step.txid]
    exact ho
  exact {
    way := by
      refine hh.way.congr hro.eff hb1 ⟨hro.parent left, hidx left hl.1.symm hr.1.symm⟩
        (fun x hx => ⟨hro.parent x.1, hidx x.1 (hup x hx).1.symm (hup x hx).2.symm⟩)
        (fun x hx => ?_) (by simp)
      simp only [mem_singleton]
      rcases hat with rfl | rfl
      · exact fun e => hnotL (e ▸ mem_upPages hx)
      · exact fun e => hnotR (e ▸ mem_upPages hx)
    ltR := hh.ltR.trans_le hro.eff.step.nused
    ownL := howned left hh.way.lt hh.way.known hh.ownL
    ownR := howned right hh.ltR hh.knownR hh.ownR
    knownR := by rw [hpage right hh.ltR]; exact hro.eff.known hh.knownR
    idx := by
      rw [hidx left hl.1.symm hr.1.symm, hidx right hl.2.symm hr.2.symm]
      exact hh.idx
    nodup := by
      rw [hpage left hh.way.lt, hpage right hh.ltR,
        upPages_congr fun x hx => hpage x.1 (hh.way.ltUp x hx)]
      exact hh.nodup }

/-- The state of a child of the branch after the branch was split and its halves inserted. -/
structure ChildKept (s s3 : St E) (R : List Nat) (n : Nat) : Prop where
  lt : n < s3.txn.nused
  page : (s3.node n).page = (s.node n).page
  known : Known s3 R (s3.node n).page
  tree : s3.tree n = s.tree n

variable {k' b j : Nat} {up3 : List (Nat × Nat)} {fresh3 dead3 built : List Nat} {tall : Bool}

section

variable (hin : Inserted g s2 s3 R d left right k' rest b j up3 fresh3 dead3 built tall)

include hin

theorem Inserted.not_mem_built (hb2 : Base s2 R) {p : Nat} (hk : Known s2 R p)
    (hp : p ∉ upPages s2 rest) : p ∉ built := by
  intro hmem
  rcases mem_append.mp (hin.perm.symm.subset (mem_append_left _ hmem)) with h1 | h1
  · exact hp h1
  · exact hin.eff.fresh_not_known hb2 h1 hk

theorem Inserted.not_mem_dead (hb2 : Base s2 R) {p : Nat} (hk : Known s2 R p)
    (hp : p ∉ upPages s2 rest) : p ∉ dead3 := by
  intro hmem
  rcases mem_append.mp (hin.perm.symm.subset (mem_append_right _ hmem)) with h1 | h1
  · exact hp h1
  · exact hin.eff.fresh_not_known hb2 h1 hk

theorem Inserted.base (hb2 : Base s2 R) (hw : WayOk g s2 R left rest) : Base s3 R := by
  refine hin.eff.base hb2 fun p hp => ?_
  rcases mem_append.mp (hin.perm.symm.subset (mem_append_right _ hp)) with h1 | h1
  · obtain ⟨x, hx, rfl⟩ := mem_map.mp h1
    exact hin.eff.known (hw.knownUp x hx)
  · exact hin.eff.known_fresh h1

theorem Inserted.wayOfHalf (hat : half = left ∨ half = right) :
    ∃ j', WayOk g s3 R half ((b, j') :: up3) ∧
      layout.OnPath s3.pages (s3.node half).page (pagePath s3 ((b, j') :: up3))
        (s3.node (topNode b up3)).page := by
  rcases hat with rfl | rfl
  · exact ⟨j, hin.wayL, hin.linkL⟩
  · exact ⟨j + 1, hin.wayR, hin.linkR⟩

end

theorem childKept (hb : Base s R) (hm : WayOk g s R m rest)
    (hps : PageSplit g s s1 R m rest left right fresh dead) (hro : Roomy s1 s2 l r half idx)
    (hat : half = left ∨ half = right)
    (hin : Inserted g s2 s3 R d left right k' rest b j up3 fresh3 dead3 built tall) {n : Nat}
    (hn : n < s.txn.nused) (hk : Known s R (s.node n).page)
    (hne : (s.node n).page ≠ (s.node m).page) (hup : (s.node n).page ∉ upPages s rest) :
    ChildKept s s3 R n := by
  have hb1 := hps.base hb hm.known
  have hb2 : Base s2 R := hro.eff.base hb1 (by simp)
  have hn1 : n < s1.txn.nused := hn.trans_le hps.eff.step.nused
  have hn2 : n < s2.txn.nused := hn1.trans_le hro.eff.step.nused
  have hp1 : (s1.node n).page = (s.node n).page := hps.eff.step.node n hn
  have hp2 : (s2.node n).page = (s.node n).page := (hro.eff.step.node n hn1).trans hp1
  have hp3 : (s3.node n).page = (s.node n).page := (hin.eff.step.node n hn2).trans hp2
  have hk1 := hps.eff.known hk
  have hk2 := hro.eff.known hk1
  have hup2 : upPages s2 rest = upPages s rest := upPages_congr fun x hx => by
    have hlt := hm.ltUp x hx
    rw [hro.eff.step.node x.1 (hlt.trans_le hps.eff.step.nused), hps.eff.step.node x.1 hlt]
  refine ⟨hn2.trans_le hin.eff.step.nused, hp3, by rw [hp3]; exact hin.eff.known hk2, ?_⟩
  have hhalf : (s.node n).page ≠ (s1.node half).page := by
    have := hps.page_ne hb hk hne
    rcases hat with rfl | rfl
    · exact this.1.symm
    · exact this.2.symm
  rw [tree_eq, tree_eq, hp3, hin.eff.page hb2 hk2 (by rw [hup2]; exact hup),
    hro.eff.page hb1 hk1 (by simpa using hhalf), hps.eff.page hb hk (by simpa using hne)]

/-- A split up to the point where the children are stored: the branch was split, a slot was opened
in one half, and the halves went into the next level. -/
structure SplitRun (g : Geom) (s s1 s2 s3 : St E) (R : List Nat) (d : EdDb) (l r m i : Nat)
    (rest : List (Nat × Nat)) (mid left right half idx : Nat) (fresh dead : List Nat) (b j : Nat)
    (up3 : List (Nat × Nat)) (fresh3 dead3 built : List Nat) (tall : Bool) : Prop where
  base : Base s R
  children : Halves g s R l r ((m, i) :: rest)
  pos : 2 ≤ mid
  lt : mid < (s.tree m).nkeys
  split : PageSplit g s s1 R m rest left right fresh dead
  halves : BranchHalves (s.tree m) (s1.tree left) (s1.tree right) mid
  db : s1.txn.db = s.txn.db
  at' : HalfAt left right mid i half idx
  room : Roomy s1 s2 l r half idx
  up : Inserted g s2 s3 R d left right ((s.tree m).key mid) rest b j up3 fresh3 dead3 built tall

namespace SplitRun

variable (h : SplitRun g s s1 s2 s3 R d l r m i rest mid left right half idx fresh dead b j up3
  fresh3 dead3 built tall)

include h

theorem either : half = left ∨ half = right := by
  rcases h.at'.cases with ⟨e, -⟩ | ⟨e, -⟩
  · exact .inl e
  · exact .inr e

theorem base1 : Base s1 R := h.split.base h.base h.children.way.tail.known

theorem base2 : Base s2 R := h.room.eff.base h.base1 (by simp)

theorem way2 : WayOk g s2 R left rest := by
  have hw := h.children.way
  have hL := h.children.notL
  have hR := h.children.notR
  rw [upPages_cons, mem_cons, not_or] at hL hR
  have hlm : l ≠ m := fun e => hL.1 (by rw [e])
  have hrm : r ≠ m := fun e => hR.1 (by rw [e])
  exact (h.split.halves_room h.base1 (h.split.id_ne hw.lt hlm) (h.split.id_ne h.children.ltR hrm)
    (fun x hx => ⟨fun e => hL.2 (by rw [e]; exact mem_upPages hx),
      fun e => hR.2 (by rw [e]; exact mem_upPages hx)⟩) h.either h.room).way

theorem base3 : Base s3 R := h.up.base h.base2 h.way2

theorem left_kept : ChildKept s s3 R l := by
  have hL := h.children.notL
  rw [upPages_cons, mem_cons, not_or] at hL
  exact childKept h.base h.children.way.tail h.split h.room h.either h.up h.children.way.lt
    h.children.way.known hL.1 hL.2

theorem right_kept : ChildKept s s3 R r := by
  have hR := h.children.notR
  rw [upPages_cons, mem_cons, not_or] at hR
  exact childKept h.base h.children.way.tail h.split h.room h.either h.up h.children.ltR
    h.children.knownR hR.1 hR.2

theorem half1 : half < s1.txn.nused ∧ Known s1 R (s1.node half).page ∧ Owned s1 half ∧
    (s1.node half).page ∉ upPages s1 rest ∧ (s1.node half).page ∉ s1.txn.gc ∧
    (s1.tree half).type = .branch ∧ idx ≤ (s1.tree half).nkeys ∧
    (s1.tree half).nkeys + 1 < g.branchOrder := by
  have hh := h.split.halves
  have hbh := h.halves
  obtain ⟨hbr, hi, -⟩ := h.children.way.head
  have hlt := hbr.lt
  have hle := h.lt
  have hpos := h.pos
  rcases h.at'.cases with ⟨rfl, rfl, him⟩ | ⟨rfl, rfl, him⟩
  · exact ⟨hh.way.lt, hh.way.known, hh.ownL, hh.notL, h.split.liveL, hbh.typeL,
      by rw [hbh.nkeysL]; omega, by rw [hbh.nkeysL]; omega⟩
  · exact ⟨hh.ltR, hh.knownR, hh.ownR, hh.notR, h.split.liveR, hbh.typeR,
      by rw [hbh.nkeysR]; omega, by rw [hbh.nkeysR]; omega⟩

theorem upPages2 : upPages s2 rest = upPages s rest := upPages_congr fun x hx => by
  have hlt := h.children.way.tail.ltUp x hx
  rw [h.room.eff.step.node x.1 (hlt.trans_le h.split.eff.step.nused),
    h.split.eff.step.node x.1 hlt]

theorem half_known2 : Known s2 R (s1.node half).page := h.room.eff.known h.half1.2.1

theorem half_not_mem2 : (s1.node half).page ∉ upPages s2 rest := by
  rw [upPages_congr fun x hx => h.room.eff.step.node x.1 (h.split.halves.way.ltUp x hx)]
  exact h.half1.2.2.2.1

theorem half_lt2 : half < s2.txn.nused := h.half1.1.trans_le h.room.eff.step.nused

theorem half_page2 : (s2.node half).page = (s1.node half).page :=
  h.room.eff.step.node half h.half1.1

theorem half_page3 : (s3.node half).page = (s1.node half).page :=
  (h.up.eff.step.node half h.half_lt2).trans h.half_page2

theorem half_tree3 : s3.tree half = s2.tree half := by
  rw [tree_eq, tree_eq, h.half_page3, h.half_page2]
  exact h.up.eff.page h.base2 h.half_known2 h.half_not_mem2

theorem txid3 : s3.txn.xid = s1.txn.xid := h.up.eff.step.txid.trans h.room.eff.step.txid

theorem siblings (hw : WayOk g s3 R half ((b, j') :: up3)) :
    Siblings g s3 R l r idx half ((b, j') :: up3) := by
  obtain ⟨h1, h2, h3, h4, h5, h6, h7, h8⟩ := h.half1
  have hcw := h.children.way
  have hL := h.children.notL
  have hR := h.children.notR
  rw [upPages_cons, mem_cons, not_or] at hL hR
  have kl := h.left_kept
  have kr := h.right_kept
  have hnk : (s3.tree half).nkeys = (s1.tree half).nkeys + 1 := by
    rw [h.half_tree3, h.room.opened.nkeys]
  have htx : s3.txn.xid = s.txn.xid := h.txid3.trans h.split.eff.step.txid
  -- indices are not touched by the next level
  have hlm : l ≠ m := fun e => hL.1 (by rw [e])
  have hrm : r ≠ m := fun e => hR.1 (by rw [e])
  have hlids := h.split.id_ne hcw.lt hlm
  have hrids := h.split.id_ne h.children.ltR hrm
  have hlt2 : ∀ n, n < s.txn.nused → n < s2.txn.nused := fun n hn =>
    (hn.trans_le h.split.eff.step.nused).trans_le h.room.eff.step.nused
  have hil := (h.up.parents l (hlt2 l hcw.lt) hlids.1 hlids.2 fun x hx e =>
    hL.2 (by rw [e]; exact mem_upPages hx)).2
  have hir := (h.up.parents r (hlt2 r h.children.ltR) hrids.1 hrids.2 fun x hx e =>
    hR.2 (by rw [e]; exact mem_upPages hx)).2
  -- the pages of the children are not on the way
  have hnot : ∀ n, n < s.txn.nused → Known s R (s.node n).page →
      (s.node n).page ≠ (s.node m).page → (s.node n).page ∉ upPages s rest →
      (s.node n).page ∉ (s3.node half).page :: upPages s3 ((b, j') :: up3) := by
    intro n hn hk hne hnup hmem
    rcases mem_cons.mp hmem with e | hmem
    · rw [h.half_page3] at e
      have := h.split.page_ne h.base hk hne
      rcases h.either with rfl | rfl
      · exact this.1 e.symm
      · exact this.2 e.symm
    · refine h.up.not_mem_built h.base2 (h.room.eff.known (h.split.eff.known hk))
        (by rw [h.upPages2]; exact hnup) ?_
      rcases mem_cons.mp hmem with e | hmem
      · rw [e]
        exact h.up.sub (b, j) (by simp)
      · obtain ⟨x, hx, e⟩ := mem_map.mp hmem
        rw [← e]
        exact h.up.sub x (by simp [hx])
  exact {
    way := hw
    branch := ⟨by rw [h.half_tree3, h.room.type]; exact h6, by omega, by omega⟩
    le := by omega
    owned := by
      rw [Owned, h.half_tree3, tree_eq, h.half_page2, h.room.eff.xid h.base1 h2, h.txid3]
      exact h3
    live := by
      rw [h.half_page3, h.up.eff.gc, h.room.eff.gc, append_nil, mem_append, not_or]
      exact ⟨h5, h.up.not_mem_dead h.base2 h.half_known2 h.half_not_mem2⟩
    ltL := kl.lt
    ltR := kr.lt
    ownL := by rw [Owned, kl.tree, htx]; exact h.children.ownL
    ownR := by rw [Owned, kr.tree, htx]; exact h.children.ownR
    knownL := kl.known
    knownR := kr.known
    idxL := hil.trans h.room.idxL
    idxR := hir.trans h.room.idxR
    nodup := by
      rw [kl.page, kr.page]
      refine nodup_cons.mpr ⟨?_, nodup_cons.mpr ⟨?_, hw.nodup⟩⟩
      · rw [mem_cons, not_or]
        exact ⟨h.children.neLR, hnot l hcw.lt hcw.known hL.1 hL.2⟩
      · exact hnot r h.children.ltR h.children.knownR hR.1 hR.2 }

theorem other_tree {n : Nat} (hn : n = left ∨ n = right) (hne : n ≠ half)
    (hother : ∀ p, p ≠ (s3.node half).page → s4.pages p = s3.pages p) :
    s4.pages (s1.node n).page = s1.tree n := by
  have hh := h.split.halves
  have hone : n < s1.txn.nused ∧ Known s1 R (s1.node n).page ∧
      (s1.node n).page ∉ upPages s1 rest ∧ (s1.node n).page ≠ (s1.node half).page := by
    rcases hn with rfl | rfl
    · refine ⟨hh.way.lt, hh.way.known, hh.notL, ?_⟩
      rcases h.either with rfl | rfl
      · exact absurd rfl hne
      · exact hh.neLR
    · refine ⟨hh.ltR, hh.knownR, hh.notR, ?_⟩
      rcases h.either with rfl | rfl
      · exact hh.neLR.symm
      · exact absurd rfl hne
  obtain ⟨h1, h2, h3, h4⟩ := hone
  have hup : upPages s2 rest = upPages s1 rest :=
    upPages_congr fun x hx => h.room.eff.step.node x.1 (hh.way.ltUp x hx)
  rw [hother _ (by rw [h.half_page3]; exact h4),
    h.up.eff.page h.base2 (h.room.eff.known h2) (by rw [hup]; exact h3),
    h.room.eff.page h.base1 h2 (by simpa using h4), tree_eq]

theorem level (hl : Linked g s3 s4 R d l r idx half k ((b, j') :: up3) ((b, j') :: up3) [] [])
    (hother : ∀ p, p ≠ (s3.node half).page → s4.pages p = s3.pages p) :
    layout.Level s.pages s4.pages (s.node m).page i (.two (s.node l).page k (s.node r).page)
      (.two (s1.node left).page ((s.tree m).key mid) (s1.node right).page) := by
  have hpl : (s3.node l).page = (s.node l).page := h.left_kept.page
  have hpr : (s3.node r).page = (s.node r).page := h.right_kept.page
  have hhalf : s4.pages (s1.node half).page
      = (s2.tree half).linked idx (s.node l).page (s.node r).page k := by
    rw [← h.half_page3, ← hl.eff.step.node half (h.half_lt2.trans_le h.up.eff.step.nused),
      ← tree_eq, hl.page, hpl, hpr, h.half_tree3]
  have hLR : left ≠ right := fun e => h.split.halves.neLR (by rw [e])
  have hpos := h.pos
  have hlt := h.lt
  obtain ⟨-, hi, -⟩ := h.children.way.head
  have key : (s4.pages (s1.node left).page).kids ++ (s4.pages (s1.node right).page).kids
        = (s.tree m).kids.take i ++ [(s.node l).page, (s.node r).page]
          ++ (s.tree m).kids.drop (i + 1) ∧
      (s4.pages (s1.node left).page).seps
          ++ (s.tree m).key mid :: (s4.pages (s1.node right).page).seps
        = (s.tree m).seps.take i ++ [k] ++ (s.tree m).seps.drop i := by
    rcases h.at'.cases with ⟨rfl, rfl, him⟩ | ⟨rfl, rfl, him⟩
    · rw [hhalf, h.other_tree (.inr rfl) hLR.symm hother]
      exact h.halves.left (by omega) (by omega) him h.room.opened
    · rw [hhalf, h.other_tree (.inl rfl) hLR hother]
      exact h.halves.right (by omega) (by omega) him hi h.room.opened
  refine ⟨?_, ?_, fun x _ => by simp⟩
  · simp only [Layout.forestKids, Layout.Forest.pages, flatMap_cons, flatMap_nil,
      append_nil, layout_kids]
    exact key.1
  · simp only [Layout.forestSeps, Layout.Forest.keys, layout_seps]
    exact key.2

theorem inserted (hw : WayOk g s3 R half ((b, j') :: up3))
    (hl : Linked g s3 s4 R d l r idx half k ((b, j') :: up3) ((b, j') :: up3) [] [])
    (hother : ∀ p, p ≠ (s3.node half).page → s4.pages p = s3.pages p)
    (hnode : ∀ n, n ≠ l → n ≠ r → s4.node n = s3.node n) :
    Inserted g s s4 R d l r k ((m, i) :: rest) half idx ((b, j') :: up3) (fresh ++ fresh3)
      (dead ++ dead3) ((s1.node left).page :: (s1.node right).page :: built) tall := by
  have hsib := h.siblings hw
  have hb3 := h.base3
  have hh := h.split.halves
  have hcw := h.children.way
  have hL := h.children.notL
  have hR := h.children.notR
  rw [upPages_cons, mem_cons, not_or] at hL hR
  have hlm : l ≠ m := fun e => hL.1 (by rw [e])
  have hrm : r ≠ m := fun e => hR.1 (by rw [e])
  have hlt3 := h.half_lt2.trans_le h.up.eff.step.nused
  have hph4 : (s4.node half).page = (s1.node half).page :=
    (hl.eff.step.node half hlt3).trans h.half_page3
  have htx : s4.txn.xid = s.txn.xid :=
    (hl.eff.step.txid.trans h.txid3).trans h.split.eff.step.txid
  have hhalf_not_built : (s1.node half).page ∉ built :=
    h.up.not_mem_built h.base2 h.half_known2 h.half_not_mem2
  have hbuilt4 : ∀ q ∈ built, s4.pages q = s3.pages q := fun q hq =>
    hother q (by rw [h.half_page3]; rintro rfl; exact hhalf_not_built hq)
  have hchain : ∀ x ∈ (b, j') :: up3, (s3.node x.1).page ∈ built := by
    intro x hx
    rcases mem_cons.mp hx with rfl | hx
    · exact h.up.sub (b, j) (by simp)
    · exact h.up.sub x (by simp [hx])
  have hpos := h.pos
  have hlt := h.lt
  have hbrm := hcw.head.1
  have hltm := hbrm.lt
  refine {
    eff := ?_
    grown := ?_
    perm := ?_
    ok := ?_
    sub := ?_
    length := by
      have := h.up.length
      simp only [length_cons]
      omega
    wayL := hl.wayL hsib hb3
    wayR := hl.wayR hsib hb3
    owned := ?_
    linkL := hl.linkL hsib
    linkR := hl.linkR hsib
    sep := by rw [hl.page]; simp [EdBpt.linked]
    db := ?_
    parents := fun n hn h1 h2 h3 => ?_ }
  · have := h.split.eff.trans (h.room.eff.trans (h.up.eff.trans hl.eff h.base2) h.base1) h.base
    simp only [append_nil, nil_append] at this
    refine this.trim h.base.pgOk fun q hq => ?_
    rw [h.upPages2] at hq
    rw [upPages_cons, mem_cons, mem_append]
    have hhalf : (s1.node half).page = (s.node m).page ∨ (s1.node half).page ∈ fresh := by
      have hmem : (s1.node half).page ∈ (s.node m).page :: fresh := by
        refine h.split.perm.symm.subset ?_
        rcases h.either with rfl | rfl <;> simp
      exact mem_cons.mp hmem
    simp only [mem_append, mem_cons, not_mem_nil, or_false] at hq
    rcases hq with rfl | rfl | hq | rfl | hq
    · exact .inl (.inl rfl)
    · rcases hhalf with h1 | h1
      · exact .inl (.inl h1)
      · exact .inr (.inl h1)
    · exact .inl (.inr hq)
    · rw [h.half_page3]
      rcases hhalf with h1 | h1
      · exact .inl (.inl h1)
      · exact .inr (.inl h1)
    · obtain ⟨x, hx, rfl⟩ := mem_map.mp hq
      rcases mem_append.mp (h.up.perm.symm.subset
        (mem_append_left _ (hchain x hx))) with h1 | h1
      · rw [h.upPages2] at h1
        exact .inl (.inr h1)
      · exact .inr (.inr h1)
  · have hpath : ∀ x ∈ rest, (s2.node x.1).page = (s.node x.1).page := fun x hx => by
      have hx' := hcw.tail.ltUp x hx
      rw [h.room.eff.step.node x.1 (hx'.trans_le h.split.eff.step.nused),
        h.split.eff.step.node x.1 hx']
    have hg := h.up.grown.congr (T := s.pages) (U := s4.pages) (fun x hx => by
      obtain ⟨y, hy, rfl⟩ := mem_map.mp hx
      have hk := hcw.tail.knownUp y hy
      have hne := hcw.tail.page_ne hy
      have hnehalf : (s.node y.1).page ≠ (s1.node half).page := by
        have := h.split.page_ne h.base hk hne
        rcases h.either with rfl | rfl
        · exact this.1.symm
        · exact this.2.symm
      simp only [hpath y hy]
      rw [h.room.eff.page h.base1 (h.split.eff.known hk) (by simpa using hnehalf),
        h.split.eff.page h.base hk (by simpa using hne)]) hbuilt4
    have hpL : (s2.node left).page = (s1.node left).page := h.room.eff.step.node left hh.way.lt
    have hpR : (s2.node right).page = (s1.node right).page :=
      h.room.eff.step.node right hh.ltR
    rw [pagePath_congr hpath, hpL, hpR] at hg
    have htop : (s4.node (topNode half ((b, j') :: up3))).page = (s3.node (topNode b up3)).page := by
      refine hl.eff.step.node _ ?_
      rcases (topNode_mem : topNode half ((b, j') :: up3) = half ∨ _) with e | ⟨x, hx, e⟩
      · rw [e]
        exact hw.lt
      · rw [e]
        exact hw.ltUp x hx
    rw [htop]
    exact .level (h.level hl hother) hg
  · have h1 := h.split.perm
    have h2 := h.up.perm
    rw [h.upPages2] at h2
    rw [perm_iff_count] at h1 h2 ⊢
    intro a
    have c1 := h1 a
    have c2 := h2 a
    simp only [upPages_cons, count_append, count_cons, cons_append] at c1 c2 ⊢
    omega
  · -- both halves and the branches above are in order
    have hnode1 : ∀ n, n = left ∨ n = right → BranchOk g (s4.pages (s1.node n).page) ∧
        (s4.pages (s1.node n).page).xid = s.txn.xid := by
      intro n hn
      by_cases hnh : n = half
      · subst hnh
        rw [← hph4, ← tree_eq]
        exact ⟨hl.branch hsib, (hl.ownedB hsib).trans htx⟩
      · rw [h.other_tree hn hnh hother]
        rcases hn with rfl | rfl
        · refine ⟨⟨h.halves.typeL, ?_, ?_⟩, hh.ownL.trans h.split.eff.step.txid⟩
          · rw [h.halves.nkeysL]; omega
          · rw [h.halves.nkeysL]; omega
        · refine ⟨⟨h.halves.typeR, ?_, ?_⟩, hh.ownR.trans h.split.eff.step.txid⟩
          · rw [h.halves.nkeysR]; omega
          · rw [h.halves.nkeysR]; omega
    intro q hq
    rcases mem_cons.mp hq with rfl | hq
    · exact hnode1 left (.inl rfl)
    · rcases mem_cons.mp hq with rfl | hq
      · exact hnode1 right (.inr rfl)
      · rw [hbuilt4 q hq]
        have := h.up.ok q hq
        rw [h.room.eff.step.txid, h.split.eff.step.txid] at this
        exact this
  · intro x hx
    rcases mem_cons.mp hx with rfl | hx
    · rw [hph4]
      rcases h.either with rfl | rfl <;> simp
    · have hlt3 : x.1 < s3.txn.nused := hw.ltUp x hx
      rw [hl.eff.step.node x.1 hlt3]
      exact mem_cons_of_mem _ (mem_cons_of_mem _ (hchain x hx))
  · intro x hx
    rcases mem_cons.mp hx with rfl | hx
    · exact hl.ownedB hsib
    · exact hl.owned x hx
  · rw [hl.db]
    simp only [St.modDb, St.modTxn, topNode, h.up.db, h.room.db, h.db]
    funext e
    by_cases he : e = d
    · simp [he]
    · simp [he]
  · have hnm : n ≠ m := h3 (m, i) (by simp)
    have hids := h.split.id_ne hn hnm
    have hn1 : n < s1.txn.nused := hn.trans_le h.split.eff.step.nused
    have hn2 : n < s2.txn.nused := hn1.trans_le h.room.eff.step.nused
    have hup := h.up.parents n hn2 hids.1 hids.2 fun x hx => h3 x (by simp [hx])
    rw [hnode n h1 h2, hup.1, hup.2, h.room.parent n, h.room.pindex n h1 h2,
      h.split.parent n hn, h.split.pindex n hn]
    exact ⟨rfl, rfl⟩

end SplitRun

end Split

end Eddy
