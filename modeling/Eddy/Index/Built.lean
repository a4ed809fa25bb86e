import Eddy.Index.Positions
import Eddy.Index.Accepted

/-!
# Eddy — trees built by insertions

An insertion is a search for the key of the new entry and a call of `ed_bpt_set` that has nothing to
replace. It never leaves a leaf empty, so in a tree that insertions alone have built a cursor is a
place in the cyclic list of the entries.
-/

namespace Eddy

open Outcome Slots PageTree Layout Blocks List

variable {E : Type} [EdEntry E] (g : Geom)

/-! ## The height of a tree -/

section Height

variable {g} {S S' : Nat → EdBpt E} {root : Option Nat} {p c h h' : Nat}

omit [EdEntry E] in
theorem Shaped.kid (hs : Shaped S (some p) (h + 1) g) (hc : c ∈ (S p).kids) :
    Shaped S (some c) h g where
  branch q hq := hs.branch q (mem_cons_of_mem _ (mem_flatMap.mpr ⟨c, hc, hq⟩))
  leaf q hq := hs.leaf q (mem_flatMap.mpr ⟨c, hc, hq⟩)

omit [EdEntry E] in
theorem Shaped.height_eq (hs : Shaped S (some p) h g) (hs' : Shaped S (some p) h' g) : h = h' := by
  -- a page of height 0 is a leaf, any other one is a branch with a first child
  induction h generalizing p h' with
  | zero =>
    cases h' with
    | zero => rfl
    | succ h' =>
      have hleaf := hs.leaf p (mem_singleton_self p)
      rw [(hs'.branch p mem_cons_self).type] at hleaf
      cases hleaf
  | succ h ih =>
    cases h' with
    | zero =>
      have hleaf := hs'.leaf p (mem_singleton_self p)
      rw [(hs.branch p mem_cons_self).type] at hleaf
      cases hleaf
    | succ h' =>
      have hlen : 0 < (S p).kids.length := by
        rw [length_kids]
        exact Nat.succ_pos _
      have hkid := getElem_mem hlen
      rw [ih (hs.kid hkid) (hs'.kid hkid)]

/-- What is known of a tree at one height is known at any height it has. -/
theorem Shaped.at_height (hs : Shaped S root h g) (hs' : Shaped S root h' g) (ho : TreeOk g S root h)
    (hn : NoEmpty S root h) : TreeOk g S root h' ∧ NoEmpty S root h' := by
  cases root with
  | none => exact ⟨fun p hp => (by cases hp), fun q hq => absurd hq not_mem_nil⟩
  | some p =>
    rw [← hs.height_eq hs']
    exact ⟨ho, hn⟩

theorem TreeOk.congr (ho : TreeOk g S root h) (hS : ∀ q ∈ treePages S root h, S' q = S q) :
    TreeOk g S' root h := by
  rintro p rfl
  exact (ho p rfl).congr hS

omit [EdEntry E] in
theorem NoEmpty.congr (hn : NoEmpty S root h) (hS : ∀ q ∈ treePages S root h, S' q = S q) :
    NoEmpty S' root h := by
  intro q hq
  rw [treeLeaves_congr hS] at hq
  rw [hS q (mem_append_right _ hq)]
  exact hn q hq

end Height

/-! ## Insertions -/

/-- An insertion of the entry `e` in an open write transaction takes the state `s` to `s'`: both calls
return without an error, and no entry is replaced. -/
structure Inserts (s s' : St E) (R T : List Nat) (hs : EdDb → Nat) (d : EdDb) (e : E) : Prop where
  txn : TxnOk g s R T hs
  run : ∃ env res s1 replace, ¬ Refused env ∧ edBptFind env g d (fetch64 e) s = .ok res s1 ∧
    (replace && (s1.txn.db d).matched) = false ∧ edBptSet env g d e replace s1 = .ok () s'

/-- The trees that insertions build from the empty tree. Between two of them the pages of the tree
stay as they are, whatever else happens: the transaction is committed and the next one is opened, or
the other tree is changed. -/
inductive Built : (Nat → EdBpt E) → Option Nat → Prop
  | empty (S : Nat → EdBpt E) : Built S none
  | insert {s s' : St E} {R T : List Nat} {hs : EdDb → Nat} {d : EdDb} {e : E} :
      Built s.pages (rootNo s d) → Inserts g s s' R T hs d e → Built s'.pages (rootNo s' d)
  | keep {S S' : Nat → EdBpt E} {root : Option Nat} :
      Built S root → (∀ h, Shaped S root h g → ∀ q ∈ treePages S root h, S' q = S q) →
      Built S' root

section Insert

variable {g} (env : Env E) {S : Nat → EdBpt E} {root : Option Nat} {s s' : St E} {R T : List Nat}
  {hs hs' : EdDb → Nat} {d : EdDb} {e : E} {r h H : Nat}

theorem Inserts.entered (hg : g.leafOrder < 2 ^ 16) (hi : Inserts g s s' R T hs d e)
    (ho : TreeOk g s.pages (rootNo s d) (hs d)) :
    ∃ s1 hs' pre suf, Quiet s s1 ∧ Entered g s1 s' R T hs hs' d pre e suf := by
  obtain ⟨h, env, res, s1, replace, hcalm, hfind, -, hset⟩ := hi
  have hse := wp_ok (edBptFind_spec env g h (fetch64 e)) hfind
  have ho1 : TreeOk g s1.pages (rootNo s1 d) (hs d) := by
    rw [hse.quiet.pages, hse.quiet.rootNo h.good]
    exact ho
  obtain ⟨hs', pre, old, suf, -, -, -, hent⟩ := hse.putAt env hg hcalm ho1 hset fun _ => le_rfl
  exact ⟨s1, hs', pre, suf, hse.quiet, hent⟩

/-- A tree that insertions have built is in order, and no leaf of it is empty. -/
theorem Built.sound (hg : g.leafOrder < 2 ^ 16) (hb : Built g S root) :
    ∃ h, Shaped S root h g ∧ TreeOk g S root h ∧ NoEmpty S root h := by
  induction hb with
  | empty S => exact ⟨0, .none .., fun p hp => (by cases hp), fun q hq => absurd hq not_mem_nil⟩
  | keep _ hS ih =>
    obtain ⟨h, hsh, ho, hne⟩ := ih
    have hS := hS h hsh
    exact ⟨h, hsh.congr hS, ho.congr hS, hne.congr hS⟩
  | @insert s s' R T hs d e _ hi ih =>
    obtain ⟨h, hsh, ho, hne⟩ := ih
    obtain ⟨ho, hne⟩ := hsh.at_height (hi.txn.shaped d) ho hne
    obtain ⟨s1, hs1, pre, suf, hq, hent⟩ := hi.entered hg ho
    refine ⟨hs1 d, hent.changed.ok.shaped d, hent.order, hent.full ?_⟩
    rw [hq.pages, hq.rootNo hi.txn.good]
    exact hne

/-! ## The circle -/

/-- In a tree built by insertions the cursor is a place in the cyclic list of the entries. A step goes
to the neighbour on its side, and a step to the other side undoes it. After the search for an absent
key the first step goes to the neighbour of the gap. An iteration that starts on an entry has made one
loop after as many steps as there are entries, and has visited each of them. -/
theorem cursor_cycle (hg : g.leafOrder < 2 ^ 16) (hw : Walk g s d r H)
    (hb : Built g s.pages (some (s.node r).page)) :
    let P := treePtrs s.pages (some (s.node r).page) H
    let ents := treeEnts s.pages (some (s.node r).page) H
    P.map (entAt s.pages) = ents ∧
    (∀ dir j, AtPlace g s d r H j true →
      wp (Dir.call env g d dir)
        (fun res s' => AtPlace g s' d r H ((j + dir.width P.length) % P.length) true ∧
          res.2 = P[(j + dir.width P.length) % P.length]?) (walkExits env False) s ∧
      wp (do let _ ← Dir.call env g d dir; Dir.call env g d dir.flip)
        (fun res s' => AtPlace g s' d r H j true ∧ res.2 = P[j]?) (walkExits env False) s) ∧
    (∀ k, k < 2 ^ 64 → (∀ e ∈ ents, fetch64 e ≠ k) →
      let j := ents.countP fun e => decide (fetch64 e < k)
      wp (do let _ ← edBptFind env g d k; edBptNext env g d)
        (fun res s' => AtPlace g s' d r H (j % P.length) true ∧ res.2 = P[j % P.length]?)
        (walkExits env False) s ∧
      wp (do let _ ← edBptFind env g d k; edBptPrev env g d)
        (fun res s' => AtPlace g s' d r H ((j + P.length - 1) % P.length) true ∧
          res.2 = P[(j + P.length - 1) % P.length]?) (walkExits env False) s) ∧
    ∀ dir st, CursorStart.Hits ents st → ∀ c,
      wp (do let _ ← CursorStart.call env g d st; Prog.times (Dir.call env g d dir) c)
        (fun out s' => edBptLoop s'.txn d = c / P.length ∧
          AtPlace g s' d r H ((st.pos ents + c * dir.width P.length) % P.length) true ∧
          out.map Prod.snd = (List.range c).map
            (fun t => P[(st.pos ents + (t + 1) * dir.width P.length) % P.length]?) ∧
          (c = P.length → (out.map Prod.snd).Perm (P.map some))) (walkExits env False) s := by
  intro P ents
  have hr := hw.below.root
  obtain ⟨h, hsh, ho, hne⟩ := hb.sound hg
  obtain rfl : H = h := Shaped.height_eq hw.below.shaped hsh
  refine ⟨map_entAt _ _, fun dir j hj => ⟨?_, ?_⟩, fun k hk habs => ?_, fun dir st hit c => ?_⟩
  · refine wp_post (Dir.call_at env hg hj hne dir) ?_
    intro res s' ht
    exact ⟨ht.toAtPlace, by rw [ht.res, ht.toAtPlace.entry_of ht.roams hr]⟩
  · rw [wp_bind]
    refine wp_post (Dir.call_at env hg hj hne dir) ?_
    intro _ s1 ht
    obtain ⟨hpages, hroot⟩ := ht.roams.tree_eq hr
    have hback := Dir.call_at env hg ht.toAtPlace (by rw [hpages, hroot]; exact hne) dir.flip
    rw [hpages, hroot, Dir.flip_width hj.lt] at hback
    refine wp_post hback ?_
    intro res s' ht'
    have hro := ht.roams.trans ht'.roams hr
    exact ⟨ht'.toAtPlace, by rw [ht'.res, ht'.toAtPlace.entry_of hro hr]⟩
  · -- the search stays in front of the gap, and the steps start from there
    have hfind := edBptFind_absent env hw ho hk habs
    refine ⟨?_, ?_⟩
    · rw [wp_bind]
      refine wp_post hfind ?_
      rintro _ s1 ⟨hro, hat⟩
      obtain ⟨hpages, hroot⟩ := hro.tree_eq hr
      have hnext := edBptNext_at env hg hat (by rw [hpages, hroot]; exact hne)
      rw [hpages, hroot] at hnext
      refine wp_post hnext ?_
      intro res s' ht
      exact ⟨ht.toAtPlace, by rw [ht.res, ht.toAtPlace.entry_of (hro.trans ht.roams hr) hr]; rfl⟩
    · rw [wp_bind]
      refine wp_post hfind ?_
      rintro _ s1 ⟨hro, hat⟩
      obtain ⟨hpages, hroot⟩ := hro.tree_eq hr
      have hprev := edBptPrev_at env hg hat (by rw [hpages, hroot]; exact hne)
      rw [hpages, hroot] at hprev
      refine wp_post hprev ?_
      intro res s' ht
      exact ⟨ht.toAtPlace, by rw [ht.res, ht.toAtPlace.entry_of (hro.trans ht.roams hr) hr]⟩
  · rw [wp_bind]
    refine wp_post (st.call_at env hg hw ho hne hit) ?_
    intro _ s1 hb
    obtain ⟨hpages, hroot⟩ := hb.roams.tree_eq hr
    have hstart : (s1.txn.db d).start = (treePtrs s1.pages (some (s1.node r).page) H)[st.pos ents]? := by
      rw [hb.start, hb.toAtPlace.entry]
    have hrun := Dir.run_at env hg hb.toAtPlace (by rw [hpages, hroot]; exact hne) hstart hb.nloops dir c
    rw [hpages, hroot] at hrun
    refine wp_post hrun ?_
    rintro out s' ⟨hround, hout⟩
    have hpos := hb.toAtPlace.lt
    rw [hpages, hroot] at hpos
    have hlp := hround.nloops
    have hat := hround.toAtPlace
    rw [hpages, hroot] at hlp hat
    refine ⟨hlp, hat, hout, fun hc => ?_⟩
    have hN : 0 < P.length := Nat.zero_lt_of_lt hpos
    rw [hout, hc]
    exact round_perm P hN (dir.coprime hN) _

end Insert

/-! ## Two insertions -/

section Small

/-- The second tree of an index, after an insertion of `e` into it. -/
@[irreducible] def withEntry (e : UInt64) (s : St UInt64) : St UInt64 :=
  (edBptSet Env.calm Geom.page4096 .blocks e false).after
    ((edBptFind Env.calm Geom.page4096 .blocks (fetch64 e)).after s)

theorem inserts_withEntry {s : St UInt64} {R T : List Nat} {hs : EdDb → Nat} {e : UInt64}
    (h : TxnOk Geom.page4096 s R T hs)
    (hf : (edBptFind Env.calm Geom.page4096 .blocks (fetch64 e)).returns (fun _ => true) s = true)
    (hset : (edBptSet Env.calm Geom.page4096 .blocks e false).returns (fun _ => true)
      ((edBptFind Env.calm Geom.page4096 .blocks (fetch64 e)).after s) = true) :
    Inserts Geom.page4096 s (withEntry e s) R T hs .blocks e := by
  unfold withEntry
  obtain ⟨res, hfind, -⟩ := ok_of_returns hf
  obtain ⟨⟨⟩, hrun, -⟩ := ok_of_returns hset
  exact ⟨h, Env.calm, res, _, false, calm_grants, hfind, rfl, hrun⟩

/-- Two steps from the first of two entries are one loop. -/
theorem cursor_cycle_two :
    wp (do
        let _ ← CursorStart.call Env.calm Geom.page4096 .blocks .first
        Prog.times (Dir.call Env.calm Geom.page4096 .blocks .next) 2)
      (fun out s' => edBptLoop s'.txn .blocks = 1 ∧
        (out.map Prod.snd).Perm [some ⟨3, 0⟩, some ⟨3, 1⟩])
      (walkExits Env.calm False) (withEntry 9 (withEntry 5 (leafSt []))) := by
  have hg : Geom.page4096.leafOrder < 2 ^ 16 := by decide
  have h0 := (leafSt_started Geom.page4096 []).txnOk
  have b0 : Built Geom.page4096 (leafSt []).pages (rootNo (leafSt []) .blocks) := .empty _
  have i0 := inserts_withEntry (e := 5) h0 (by decide +kernel) (by decide +kernel)
  obtain ⟨_, hs1, _, _, -, e1⟩ := i0.entered hg fun p hp => (by cases hp)
  have i1 := inserts_withEntry (e := 9) e1.changed.ok (by decide +kernel) (by decide +kernel)
  obtain ⟨_, hs2, _, _, -, e2⟩ := i1.entered hg e1.order
  have b2 := (b0.insert i0).insert i1
  -- the second tree is the leaf on page 3, below the node 1
  have hr : ((withEntry 9 (withEntry 5 (leafSt []))).txn.db .blocks).root = some 1 := by decide +kernel
  have hp : ((withEntry 9 (withEntry 5 (leafSt []))).node 1).page = 3 := by decide +kernel
  have hroot : rootNo (withEntry 9 (withEntry 5 (leafSt []))) .blocks = some 3 := by decide +kernel
  have hheight : hs2 .blocks = 0 := by
    have hsh := e2.changed.ok.shaped .blocks
    rw [hroot] at hsh
    refine hsh.height_eq ⟨fun q hq => absurd hq not_mem_nil, fun q hq => ?_⟩
    rw [mem_singleton.mp hq]
    decide +kernel
  have hw := e2.changed.ok.walk hr e2.order
  rw [hheight] at hw
  rw [hroot, ← hp] at b2
  refine wp_post ((cursor_cycle Env.calm hg hw b2).2.2.2 .next .first trivial 2) ?_
  rintro out s' ⟨hloops, -, -, hperm⟩
  have hptrs : treePtrs (withEntry 9 (withEntry 5 (leafSt []))).pages (some 3) 0 = [⟨3, 0⟩, ⟨3, 1⟩] := by
    decide +kernel
  rw [hp, hptrs] at hloops hperm
  exact ⟨hloops, hperm rfl⟩

end Small

end Eddy
