import Eddy.Index.SplitParent

/-!
# Eddy — `insert_into_parent`

The two halves of a split page take the place of one child of a branch. There may be no branch (a
new root is made), the branch may have room, or it is full and is split itself; its halves then go
into the next branch up before the children are stored. `insertIntoParent_spec` is an induction on
the way up.
-/

namespace Eddy

open Outcome Slots PageTree List

variable {E : Type} (env : Env E) (g : Geom)

variable {s : St E} {R : List Nat} {d : EdDb} {l r k m i : Nat} {rest : List (Nat × Nat)}

theorem Fits.congr {S T : Nat → EdBpt E} {path : List (Nat × Nat)} (h : Fits S k path)
    (hS : ∀ x ∈ path, T x.1 = S x.1) : Fits T k path := by
  induction path generalizing k with
  | nil => trivial
  | cons x rest ih =>
    obtain ⟨q, i⟩ := x
    have hq : T q = S q := hS (q, i) (by simp)
    refine ⟨?_, ?_, ?_⟩
    · rw [hq]
      exact h.1
    · rw [hq]
      exact h.2.1
    · rw [hq]
      exact fun j hj hj' => ih (h.2.2 j hj hj') fun y hy => hS y (by simp [hy])

/-- The parent is full: it is split, and its halves go one level up. -/
theorem insert_split {fuel : Nat} (hb : Base s R) (hh : Halves g s R l r ((m, i) :: rest))
    (hfull : (s.tree m).nkeys = g.branchOrder - 1)
    (ih : ∀ (s2 : St E) (l' r' k' : Nat), Base s2 R → Halves g s2 R l' r' rest →
      wp (insertIntoParent env g d fuel l' r' k')
        (fun _ s' => Lost env s' ∨ ∃ b j up' fresh dead built tall,
          Inserted g s2 s' R d l' r' k' rest b j up' fresh dead built tall)
        (pageExits env (Refused env ∨ ¬ Fits s2.pages k' (pagePath s2 rest))) s2)
    {mid : Nat} (hmid : mid = ((s.tree m).nkeys + 1) / 2) :
    wp (do
        let lr ← splitBranch env g m mid
        let half ← splitRoom g l r lr.1 lr.2 mid k (branchKey (s.tree m) mid)
        insertIntoParent env g d fuel lr.1 lr.2 (branchKey (s.tree m) mid)
        linkSplit env g d half l r k)
      (fun _ s' => Lost env s' ∨ ∃ b j up' fresh dead built tall,
        Inserted g s s' R d l r k ((m, i) :: rest) b j up' fresh dead built tall)
      (pageExits env (Refused env ∨ ¬ Fits s.pages k (pagePath s ((m, i) :: rest)))) s := by
  have hbo := g.branch_ge
  have hw := hh.way
  have hm := hw.tail
  obtain ⟨hbr, hi, hx⟩ := hw.head
  have hmid2 : 2 ≤ mid ∧ mid < (s.tree m).nkeys := by omega
  have hkey : branchKey (s.tree m) mid = (s.tree m).key mid := if_neg (by omega)
  have hL := hh.notL
  have hR := hh.notR
  rw [upPages_cons, mem_cons, not_or] at hL hR
  have hlm : l ≠ m := fun e => hL.1 (by rw [e])
  have hrm : r ≠ m := fun e => hR.1 (by rw [e])
  rw [hkey]
  simp only [wp_bind]
  refine wp_mono (splitBranch_spec env g hb hm (hw.live (m, i) (by simp)) hx hbr
    (show mid ≤ (s.tree m).nkeys by omega)) ?_ (fun _ _ h => h) (fun _ _ h => h) False.elim
  rintro ⟨left, right⟩ s1 ⟨fresh, dead, hps, hbh, hdb⟩
  have hb1 := hps.base hb hm.known
  have hidl := hps.id_ne hw.lt hlm
  have hidr := hps.id_ne hh.ltR hrm
  have hlr : l ≠ r := fun e => hh.neLR (by rw [e])
  refine wp_mono (splitRoom_spec env g (k := k) (q := (s.tree m).key mid) hb1
    ((hps.pindex l hw.lt).trans hw.chain.2.1)
    (by rw [hps.pindex r hh.ltR, hh.idx, hw.chain.2.1]) hlr hps.halves.ownL hps.halves.ownR
    hbh.nkeysL (by rw [hbh.nkeysR]; omega) (by omega) (by omega) (by rw [hbh.nkeysR]; omega))
    ?_ (fun _ _ h => h) (fun _ _ h => h) ?_
  rotate_left
  · -- the separators say which half has the room
    refine fun hno => .inr fun hfit => hno ⟨fun hlt => ?_, fun him => ?_⟩
    · by_contra him
      have := hfit.1 mid (by omega) (by omega)
      exact absurd hlt (by simpa [tree_eq] using this)
    · exact hfit.2.1 mid him (show mid ≤ (s.tree m).nkeys by omega)
  rintro half s2 ⟨idx, hat, hro⟩
  have hb2 : Base s2 R := hro.eff.base hb1 (by simp)
  have heither : half = left ∨ half = right := by
    rcases hat.cases with ⟨e, -⟩ | ⟨e, -⟩
    · exact .inl e
    · exact .inr e
  have hh2 : Halves g s2 R left right rest := hps.halves_room hb1 hidl hidr (fun x hx =>
    ⟨fun e => hL.2 (by rw [e]; exact mem_upPages hx),
      fun e => hR.2 (by rw [e]; exact mem_upPages hx)⟩) heither hro
  refine wp_mono (ih s2 left right _ hb2 hh2) ?_ (fun _ _ h => h) (fun _ _ h => h) ?_
  rotate_left
  · rintro (hrf | hno)
    · exact .inl hrf
    · refine .inr fun hfit => hno ?_
      have hpath : ∀ x ∈ rest, (s2.node x.1).page = (s.node x.1).page := fun x hx => by
        have hx' := hm.ltUp x hx
        rw [hro.eff.step.node x.1 (hx'.trans_le hps.eff.step.nused), hps.eff.step.node x.1 hx']
      rw [pagePath_congr hpath]
      refine Fits.congr (hfit.2.2 mid (by omega) (show mid ≤ (s.tree m).nkeys by omega))
        fun x hx => ?_
      obtain ⟨y, hy, rfl⟩ := mem_map.mp hx
      have hk := hm.knownUp y hy
      have hne := hm.page_ne hy
      have hnehalf : (s.node y.1).page ≠ (s1.node half).page := by
        have := hps.page_ne hb hk hne
        rcases heither with rfl | rfl
        · exact this.1.symm
        · exact this.2.symm
      rw [hro.eff.page hb1 (hps.eff.known hk) (by simpa using hnehalf),
        hps.eff.page hb hk (by simpa using hne)]
  rintro _ s3 (hd | ⟨b, j, up3, fresh3, dead3, built, tall, hin⟩)
  · exact (linkSplit_writes g (Near.writeInv env s3) d half l r k).wp (Near.refl s3)
      (fun _ _ h => .inl ⟨h.doomed hd.1, hd.2⟩) (fun _ _ h => ⟨h.doomed hd.1, hd.2⟩)
      (fun _ _ _ => trivial) (.inl hd.2)
  · have hrun : SplitRun g s s1 s2 s3 R d l r m i rest mid left right half idx fresh dead b j up3
        fresh3 dead3 built tall := {
      base := hb
      children := hh
      pos := hmid2.1
      lt := hmid2.2
      split := hps
      halves := hbh
      db := hdb
      at' := hat
      room := hro
      up := hin }
    obtain ⟨j', hw', hlink⟩ := hin.wayOfHalf heither
    refine wp_post (linkSplit_owned env g (d := d) (hrun.siblings hw') hrun.base3 k ?_ hlink) ?_
    · intro x hx
      rcases mem_cons.mp hx with rfl | hx
      · exact hin.owned (b, j) (by simp)
      · exact hin.owned x (by simp [hx])
    · rintro _ s4 ⟨hl, hother, hnode⟩
      exact .inr ⟨_, _, _, _, _, _, _, hrun.inserted hw' hl hother hnode⟩

/-- `insert_into_parent` puts both halves of a page into the tree. -/
theorem insertIntoParent_spec {up : List (Nat × Nat)} {fuel : Nat} (hfuel : up.length < fuel)
    (hb : Base s R) (hh : Halves g s R l r up) :
    wp (insertIntoParent env g d fuel l r k)
      (fun _ s' => Lost env s' ∨ ∃ b j up' fresh dead built tall,
        Inserted g s s' R d l r k up b j up' fresh dead built tall)
      (pageExits env (Refused env ∨ ¬ Fits s.pages k (pagePath s up))) s := by
  -- induction on the way: a full parent hands its own halves to the next level
  induction up generalizing s l r k fuel with
  | nil =>
    obtain ⟨fuel, rfl⟩ : ∃ n, fuel = n + 1 := ⟨fuel - 1, by omega⟩
    rw [insertIntoParent, wp_bind, wp_get, hh.way.chain.1]
    exact wp_mono (insert_root env g hb hh) (fun _ _ h => .inr h) (fun _ _ h => h)
      (fun _ _ h => h) False.elim
  | cons x rest ih =>
    obtain ⟨m, i⟩ := x
    obtain ⟨fuel, rfl⟩ : ∃ n, fuel = n + 1 := ⟨fuel - 1, by omega⟩
    rw [insertIntoParent, wp_bind, wp_get, hh.way.chain.1]
    simp only [wp_ite]
    refine ⟨fun hfull => ?_, fun hroom => ?_⟩
    · exact insert_split env g hb hh hfull
        (fun s2 l' r' k' hb2 hh2 => ih (by simpa using hfuel) hb2 hh2) rfl
    · rw [hh.way.chain.2.1]
      exact wp_mono (insert_expand env g hb hh hroom) (fun _ _ h => h) (fun _ _ h => h)
        (fun _ _ h => h) .inl

end Eddy
