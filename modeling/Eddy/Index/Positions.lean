import Eddy.Lib.Blocks
import Eddy.Index.Walk
import Eddy.Index.Start

/-!
# Eddy — the cursor as a place in a cyclic list

The entries of a tree are stored in its leaves, which the moves of a cursor visit in a circle. When no
leaf is empty, the cursor is a place in the cyclic list of all entries: `ed_bpt_next` goes one place
on, `ed_bpt_prev` one place back.
-/

namespace Eddy

open Outcome Slots PageTree Layout Blocks List

variable {E : Type} (env : Env E) (g : Geom)

/-! ## The entries by their places -/

section Ptrs

variable (S : Nat → EdBpt E)

/-- The places of the entries of a leaf. -/
def leafPtrs (p : Nat) : List EntPtr := (List.range (S p).nkeys).map fun i : Nat => ⟨p, i⟩

/-- The places of the entries of a tree, in the order of the tree. -/
def treePtrs (root : Option Nat) (h : Nat) : List EntPtr := (treeLeaves S root h).flatMap (leafPtrs S)

/-- The same places, leaf by leaf. -/
def ptrBlocks (h p : Nat) : List (List EntPtr) := (layout.leaves S h p).map (leafPtrs S)

/-- What is stored at a place. -/
def entAt (q : EntPtr) : E := (S q.page).ent q.slot.toNat

variable {S}

theorem treePtrs_eq (h p : Nat) : treePtrs S (some p) h = (ptrBlocks S h p).flatten :=
  flatMap_def

@[simp] theorem length_leafPtrs (p : Nat) : (leafPtrs S p).length = (S p).nkeys := by
  simp [leafPtrs]

theorem getElem?_leafPtrs {p i : Nat} (hi : i < (S p).nkeys) : (leafPtrs S p)[i]? = some ⟨p, i⟩ := by
  simp [leafPtrs, hi]

theorem map_entAt (root : Option Nat) (h : Nat) :
    (treePtrs S root h).map (entAt S) = treeEnts S root h := by
  rw [treePtrs, treeEnts, map_flatMap]
  refine flatMap_congr fun p _ => ?_
  simp only [leafPtrs, map_map, EdBpt.ents, slots]
  rfl

theorem length_treePtrs (root : Option Nat) (h : Nat) :
    (treePtrs S root h).length = (treeEnts S root h).length := by
  rw [← map_entAt, length_map]

theorem nodup_treePtrs {root : Option Nat} {h : Nat} (hnd : (treeLeaves S root h).Nodup) :
    (treePtrs S root h).Nodup := by
  rw [treePtrs, nodup_flatMap]
  constructor
  · intro p _
    refine nodup_range.map fun i j hij => ?_
    exact Int.ofNat_inj.mp (congrArg EntPtr.slot hij)
  · refine hnd.imp fun {p q} hpq => ?_
    intro x hx hy
    obtain ⟨i, -, rfl⟩ := mem_map.mp hx
    obtain ⟨j, -, hj⟩ := mem_map.mp hy
    exact hpq (congrArg EntPtr.page hj).symm

end Ptrs

/-! ## Steps -/

section Steps

variable {g} {s s' : St E} {n m r H p i : Nat} {up up' : List (Nat × Nat)} {d : EdDb} {on : Bool}

variable (g) in
/-- The cursor is at the place `p` of the entries: on the entry, or only in front of it. -/
structure AtPlace (s : St E) (d : EdDb) (r H p : Nat) (on : Bool) : Prop where
  walk : Walk g s d r H
  hasentry : (s.txn.db d).hasentry = on
  leaf : ∃ n up, InLeaf g s d r H n up ∧
    p = rank (ptrBlocks s.pages H (s.node r).page) (leafPos s up) + (s.txn.db d).entryIndex ∧
    (on = true → (s.txn.db d).entryIndex < (s.tree n).nkeys)

theorem Roams.ptrBlocks_eq (h : Roams s s' r H) (hr : r < s.txn.nused) :
    ptrBlocks s'.pages H (s'.node r).page = ptrBlocks s.pages H (s.node r).page := by
  rw [h.quiet.pages, (h.quiet.node r hr).1]

theorem InLeaf.block (h : InLeaf g s d r H n up) :
    (ptrBlocks s.pages H (s.node r).page)[leafPos s up]? = some (leafPtrs s.pages (s.node n).page) := by
  rw [ptrBlocks, List.getElem?_map, h.below.getElem_leaves h.height]
  rfl

theorem length_ptrBlocks (S : Nat → EdBpt E) (h p : Nat) :
    (ptrBlocks S h p).length = (layout.leaves S h p).length := by
  rw [ptrBlocks, length_map]

theorem AtPlace.lt (h : AtPlace g s d r H p true) :
    p < (treePtrs s.pages (some (s.node r).page) H).length := by
  obtain ⟨-, -, n, up, hin, rfl, hlt⟩ := h
  rw [treePtrs_eq]
  exact rank_add_lt hin.block (by rw [length_leafPtrs]; exact hlt rfl)

theorem AtPlace.entry (h : AtPlace g s d r H p true) :
    (s.txn.db d).entry = (treePtrs s.pages (some (s.node r).page) H)[p]? := by
  obtain ⟨-, -, n, up, hin, rfl, hlt⟩ := h
  have hi : (s.txn.db d).entryIndex < (s.pages (s.node n).page).nkeys := hlt rfl
  rw [treePtrs_eq, getElem?_flatten hin.block (by rw [length_leafPtrs]; exact hi),
    getElem?_leafPtrs hi]
  exact hin.entry

theorem AtPlace.entry_of (h : AtPlace g s' d r H p true) (hro : Roams s s' r H)
    (hr : r < s.txn.nused) :
    (s'.txn.db d).entry = (treePtrs s.pages (some (s.node r).page) H)[p]? := by
  rw [h.entry, treePtrs_eq, treePtrs_eq, hro.ptrBlocks_eq hr]

variable (g) in
/-- A step took the cursor to the place `p`. -/
structure Turned (s s' : St E) (d : EdDb) (r H p : Nat) (res : Nat × Option EntPtr) : Prop
    extends AtPlace g s' d r H p true where
  roams : Roams s s' r H
  other : s'.txn.db d.other = s.txn.db d.other
  res : res.2 = (s'.txn.db d).entry
  start : (s'.txn.db d).start = (s.txn.db d).start
  nloops : (s'.txn.db d).nloops
    = (s.txn.db d).nloops + if (s'.txn.db d).entry = (s'.txn.db d).start then 1 else 0

variable [EdEntry E] {res : Nat × Option EntPtr}

theorem StepsTo.turned (hw : Walk g s d r H) (h : StepsTo g s s' d r H m up' i)
    (hy : StepYields s s' d m i res) (hi : i < (s'.tree m).nkeys)
    (hp : p = rank (ptrBlocks s.pages H (s.node r).page) (leafPos s' up') + i) :
    Turned g s s' d r H p res where
  walk := hw.after h.roams.quiet h.below (by rw [Nat.zero_add, h.height])
  hasentry := h.hasentry
  leaf := ⟨m, up', h.toInLeaf, by rw [h.roams.ptrBlocks_eq hw.below.root, h.index, hp],
    fun _ => by rw [h.index]; exact hi⟩
  roams := h.roams
  other := h.other
  res := by rw [hy.res]
  start := h.start
  nloops := hy.nloops

/-- One place on; a cursor that is not on an entry yet stays at its place. -/
theorem edBptNext_at (hg : g.leafOrder < 2 ^ 16) (h : AtPlace g s d r H p on)
    (hne : NoEmpty s.pages (some (s.node r).page) H) :
    wp (edBptNext env g d)
      (fun res s' => Turned g s s' d r H ((p + if on then 1 else 0)
        % (treePtrs s.pages (some (s.node r).page) H).length) res)
      (walkExits env False) s := by
  obtain ⟨hw, hent, n, up, hin, rfl, hlt⟩ := h
  have hidx : (s.txn.db d).nextIndex = (s.txn.db d).entryIndex + if on then 1 else 0 := by
    rw [EdTxnDb.nextIndex, hent]
    cases on <;> rfl
  have hnext : (s.txn.db d).nextIndex ≤ (s.tree n).nkeys := by
    rw [hidx]
    cases on with
    | true => exact hlt rfl
    | false => exact hin.le
  rw [Nat.add_assoc, ← hidx, treePtrs_eq]
  have hb := hin.block
  rcases Nat.lt_or_ge (s.txn.db d).nextIndex (s.tree n).nkeys with hin' | hover
  · refine wp_post (edBptNext_inside env hg hw hin hin') ?_
    rintro res s' ⟨hst, hy, -⟩
    have hq := hst.roams.quiet
    have hpos : leafPos s' up = leafPos s up := by
      rw [leafPos, leafPos, hq.pages, pagePath_quiet hq hin.below]
    refine hst.turned hw hy (by rw [hq.tree hin.below.stands.lt]; exact hin') ?_
    rw [hpos, Nat.mod_eq_of_lt (rank_add_lt hb (by rw [length_leafPtrs]; exact hin'))]
  · refine wp_post (edBptNext_over env hg hw hin hover) ?_
    rintro res s' ⟨m, up', hst, hy, -, -, -, hpos⟩
    have hq := hst.roams.quiet
    have hfull : 0 < (s'.tree m).nkeys := by
      have := hne (s'.node m).page (by
        have := hst.toInLeaf.mem_leaves
        rwa [hq.pages, (hq.node r hw.below.root).1] at this)
      rwa [← hq.pages] at this
    refine hst.turned hw hy hfull ?_
    have hb' := hst.toInLeaf.block
    rw [hst.roams.ptrBlocks_eq hw.below.root, hpos, ← length_ptrBlocks] at hb'
    have hkeys : (s.txn.db d).nextIndex = (leafPtrs s.pages (s.node n).page).length := by
      rw [length_leafPtrs]
      exact le_antisymm hnext hover
    rw [hpos, ← length_ptrBlocks, rank_next hb hb' (by rw [length_leafPtrs]; exact hfull), hkeys]
    rfl

theorem edBptPrev_at (hg : g.leafOrder < 2 ^ 16) (h : AtPlace g s d r H p on)
    (hne : NoEmpty s.pages (some (s.node r).page) H) :
    wp (edBptPrev env g d)
      (fun res s' => Turned g s s' d r H ((p + (treePtrs s.pages (some (s.node r).page) H).length - 1)
        % (treePtrs s.pages (some (s.node r).page) H).length) res)
      (walkExits env False) s := by
  obtain ⟨hw, hent, n, up, hin, rfl, hlt⟩ := h
  rw [treePtrs_eq]
  have hb := hin.block
  cases hidx : (s.txn.db d).entryIndex with
  | zero =>
    refine wp_post (edBptPrev_over env hg hw hin hidx
      fun q hq => hne q (mem_of_getElem? hq)) ?_
    rintro res s' ⟨m, up', i, hst, hy, hi, hpos⟩
    refine hst.turned hw hy (by omega) ?_
    have hb' := hst.toInLeaf.block
    rw [hst.roams.ptrBlocks_eq hw.below.root, hpos, ← length_ptrBlocks] at hb'
    rw [hpos, ← length_ptrBlocks, rank_prev hb hb' (by rw [length_leafPtrs]; exact hi)]
    rfl
  | succ i =>
    refine wp_post (edBptPrev_inside env hg hw hin hidx) ?_
    rintro res s' ⟨hst, hy, -⟩
    have hq := hst.roams.quiet
    have hle := hin.le
    have hi : i < (s.tree n).nkeys := by omega
    have hpos : leafPos s' up = leafPos s up := by
      rw [leafPos, leafPos, hq.pages, pagePath_quiet hq hin.below]
    refine hst.turned hw hy (by rw [hq.tree hin.below.stands.lt]; exact hi) ?_
    have hlt' := rank_add_lt hb (show i < _ by rw [length_leafPtrs]; exact hi)
    rw [hpos, show ∀ a b : Nat, a + (i + 1) + b - 1 = a + i + b by omega, Nat.add_mod_right,
      Nat.mod_eq_of_lt hlt']

/-- The two directions of a cursor. -/
inductive Dir where
  | next
  | prev

variable (g) in
/-- The call that goes one step in a direction. -/
def Dir.call (d : EdDb) : Dir → M E (Nat × Option EntPtr)
  | next => edBptNext env g d
  | prev => edBptPrev env g d

/-- A step back in a circle of `N` places as a step forwards. -/
def Dir.width (N : Nat) : Dir → Nat
  | next => 1
  | prev => N - 1

theorem Dir.coprime {N : Nat} (hN : 0 < N) (dir : Dir) : N.Coprime (dir.width N) := by
  cases dir with
  | next => exact Nat.coprime_one_right N
  | prev => exact coprime_pred hN

theorem Dir.call_at (hg : g.leafOrder < 2 ^ 16) (h : AtPlace g s d r H p true)
    (hne : NoEmpty s.pages (some (s.node r).page) H) (dir : Dir) :
    wp (dir.call env g d)
      (fun res s' => Turned g s s' d r H
        ((p + dir.width (treePtrs s.pages (some (s.node r).page) H).length)
          % (treePtrs s.pages (some (s.node r).page) H).length) res)
      (walkExits env False) s := by
  cases dir with
  | next => exact edBptNext_at env hg h hne
  | prev =>
    have hp := h.lt
    have := edBptPrev_at env hg h hne
    rwa [Nat.add_sub_assoc (by omega)] at this

/-! ## Runs -/

variable (g) in
/-- The state after `c` steps in one direction from the place `j`. -/
structure Round (s0 : St E) (d : EdDb) (r H j : Nat) (dir : Dir) (c : Nat) (s : St E) : Prop
    extends AtPlace g s d r H ((j + c * dir.width (treePtrs s0.pages (some (s0.node r).page) H).length)
      % (treePtrs s0.pages (some (s0.node r).page) H).length) true where
  roams : Roams s0 s r H
  start : (s.txn.db d).start = (treePtrs s0.pages (some (s0.node r).page) H)[j]?
  nloops : (s.txn.db d).nloops = c / (treePtrs s0.pages (some (s0.node r).page) H).length

/-- A run of steps in one direction goes round the entries, and counts the rounds. -/
theorem Dir.run_at (hg : g.leafOrder < 2 ^ 16) (h : AtPlace g s d r H p true)
    (hne : NoEmpty s.pages (some (s.node r).page) H)
    (hstart : (s.txn.db d).start = (treePtrs s.pages (some (s.node r).page) H)[p]?)
    (hloops : (s.txn.db d).nloops = 0) (dir : Dir) (c : Nat) :
    wp (Prog.times (dir.call env g d) c)
      (fun out s' => Round g s d r H p dir c s' ∧ out.map Prod.snd = (List.range c).map fun t =>
        (treePtrs s.pages (some (s.node r).page) H)[
          (p + (t + 1) * dir.width (treePtrs s.pages (some (s.node r).page) H).length)
            % (treePtrs s.pages (some (s.node r).page) H).length]?)
      (walkExits env False) s := by
  set P := treePtrs s.pages (some (s.node r).page) H with hP
  have hp : p < P.length := h.lt
  have hco : P.length.Coprime (dir.width P.length) := dir.coprime (by omega)
  have hnd : P.Nodup := nodup_treePtrs (nodup_append.mp h.walk.below.nodup).2.1
  have hzero : Round g s d r H p dir 0 s := {
    toAtPlace := by rw [Nat.zero_mul, Nat.add_zero, Nat.mod_eq_of_lt hp]; exact h
    roams := Roams.refl s r H
    start := hstart
    nloops := by rw [hloops, Nat.zero_div] }
  refine wp_times ?_ hzero c
  intro c s1 hc
  -- the pages and the root are those of the state before the run
  have hq := hc.roams.quiet
  have hpages : s1.pages = s.pages := hq.pages
  have hroot : (s1.node r).page = (s.node r).page := (hq.node r h.walk.below.root).1
  have hcall := Dir.call_at env hg hc.toAtPlace (by rw [hpages, hroot]; exact hne) dir
  rw [hpages, hroot, ← hP, step_mod] at hcall
  refine wp_post hcall ?_
  intro res s2 ht
  have hent := ht.toAtPlace.entry_of (hc.roams.trans ht.roams h.walk.below.root) h.walk.below.root
  refine ⟨⟨ht.toAtPlace, hc.roams.trans ht.roams h.walk.below.root, ?_, ?_⟩, ?_⟩
  · rw [ht.start, hc.start]
  · have hback : (s2.txn.db d).entry = (s2.txn.db d).start
        ↔ (p + (c + 1) * dir.width P.length) % P.length = p := by
      rw [hent, ht.start, hc.start, ← hP]
      have hlt := Nat.mod_lt (p + (c + 1) * dir.width P.length) (show 0 < P.length by omega)
      rw [List.getElem?_eq_getElem hlt, List.getElem?_eq_getElem hp, Option.some.injEq,
        hnd.getElem_inj_iff]
    rw [ht.nloops, hc.nloops, ← hP, div_step hp hco]
    simp only [hback]
  · rw [ht.res, hent]

/-! ## Where an iteration starts -/

omit [EdEntry E] in
theorem InLeaf.length_entsBefore (h : InLeaf g s d r H n up) :
    (entsBefore s d n up).length
      = rank (ptrBlocks s.pages H (s.node r).page) (leafPos s up) + (s.txn.db d).entryIndex := by
  have htake : (layout.leaves s.pages H (s.node r).page).take (leafPos s up)
      = layout.leftOf s.pages 0 (pagePath s up) := by
    rw [h.below.leaves_eq h.height, leafPos, take_left]
  have hle := h.le
  have hleft : ((layout.leftOf s.pages 0 (pagePath s up)).flatMap fun p => (s.pages p).ents).length
      = ((layout.leftOf s.pages 0 (pagePath s up)).map (leafPtrs s.pages)).flatten.length := by
    simp [length_flatMap, length_flatten, Function.comp_def, EdBpt.ents]
  rw [entsBefore, length_append, hleft, rank, ptrBlocks, ← map_take, htake,
    length_take, EdBpt.ents, length_slots, Nat.min_eq_left hle]

omit [EdEntry E] in
theorem InLeaf.mem_ents (h : InLeaf g s d r H n up) (hi : i < (s.tree n).nkeys) :
    (s.tree n).ent i ∈ treeEnts s.pages (some (s.node r).page) H :=
  mem_flatMap.mpr ⟨_, h.mem_leaves, Eddy.mem_ents.mpr ⟨i, hi, rfl⟩⟩

theorem FoundAt.inLeaf {k : Nat} (h : FoundAt g s s' d k r H n up res) : InLeaf g s' d r H n up :=
  ⟨h.toCursorAt, h.below, h.height, h.hasfind⟩

theorem FoundAt.atPlace {k : Nat} (hw : Walk g s d r H) (h : FoundAt g s s' d k r H n up res)
    (ho : TreeOk g s.pages (some (s.node r).page) H) (hk : k < 2 ^ 64) :
    AtPlace g s' d r H ((treeEnts s.pages (some (s.node r).page) H).countP
      fun e => decide (fetch64 e < k)) (s'.txn.db d).matched := by
  have hin := h.inLeaf
  have hq := h.roams.quiet
  have hroot : rootNo s' d = some (s.node r).page := by
    rw [rootNo, h.root, Option.map_some, (hq.node r hw.below.root).1]
  have ho' : TreeOk g s'.pages (rootNo s' d) up.length := by
    rw [hroot, hq.pages, h.height]
    exact ho
  have hcount : (treeEnts s.pages (some (s.node r).page) H).countP (fun e => decide (fetch64 e < k))
      = (entsBefore s' d n up).length := by
    rw [← (h.cut ho' hk).countP_eq, ← h.ents, hroot, hq.pages, h.height]
  exact {
    walk := hw.after hq h.below (by rw [Nat.zero_add, h.height])
    hasentry := h.hasentry
    leaf := ⟨n, up, hin, by rw [hcount, hin.length_entsBefore], fun hm => (h.matched.mp hm).1⟩ }

/-- The calls that put the cursor on an entry. -/
inductive CursorStart where
  | find (k : Nat)
  | first
  | last

namespace CursorStart

variable (g) in
def call (d : EdDb) : CursorStart → M E (Nat × Option EntPtr)
  | find k => edBptFind env g d k
  | first => edBptFirst env d
  | last => edBptLast env g d

/-- The entry the cursor is put on. -/
def pos (ents : List E) : CursorStart → Nat
  | find k => ents.countP fun e => decide (fetch64 e < k)
  | first => 0
  | last => ents.length - 1

/-- There is such an entry. -/
def Hits (ents : List E) : CursorStart → Prop
  | find k => ∃ e ∈ ents, fetch64 e = k
  | first => True
  | last => True

end CursorStart

variable (g) in
/-- An iteration starts at the place `p`. -/
structure Begun (s s' : St E) (d : EdDb) (r H p : Nat) (res : Nat × Option EntPtr) : Prop
    extends AtPlace g s' d r H p true where
  roams : Roams s s' r H
  other : s'.txn.db d.other = s.txn.db d.other
  res : res.2 = (s'.txn.db d).entry
  start : (s'.txn.db d).start = (s'.txn.db d).entry
  nloops : (s'.txn.db d).nloops = 0

theorem CursorStart.call_at (hg : g.leafOrder < 2 ^ 16) (hw : Walk g s d r H)
    (ho : TreeOk g s.pages (some (s.node r).page) H)
    (hne : NoEmpty s.pages (some (s.node r).page) H)
    (st : CursorStart) (hit : st.Hits (treeEnts s.pages (some (s.node r).page) H)) :
    wp (st.call env g d)
      (fun res s' => Begun g s s' d r H (st.pos (treeEnts s.pages (some (s.node r).page) H)) res)
      (walkExits env False) s := by
  cases st with
  | find k =>
    obtain ⟨e, he, hk⟩ := hit
    refine wp_mono (edBptFind_below env g hw.isOpen hw.root hw.below hw.high k) ?_
      (fun _ _ h => h) (fun _ _ h => h) ?_
    · rintro res s' ⟨n, up, hf⟩
      have hq := hf.roams.quiet
      have hroot : rootNo s' d = some (s.node r).page := by
        rw [rootNo, hf.root, Option.map_some, (hq.node r hw.below.root).1]
      have hm : (s'.txn.db d).matched = true := by
        refine hf.matched_of_mem (g := g) ?_ ?_ hk <;> rw [hroot, hq.pages, hf.height]
        · exact ho
        · exact he
      have hat := hf.atPlace hw ho (hk ▸ EdEntry.fetch64_lt e)
      rw [hm] at hat
      exact ⟨hat, hf.roams, hf.other, by rw [hf.res, if_pos hm], hf.start, hf.nloops⟩
    · rintro ⟨q, hq, hlt⟩
      exact absurd (hw.room q hq) (by omega)
  | first =>
    refine wp_post (edBptFirst_spec env hw) ?_
    rintro res s' ⟨m, up', hin, hro, hoth, hres, hdb, hpos⟩
    have hq := hro.quiet
    have hidx : (s'.txn.db d).entryIndex = 0 := by rw [hdb]; rfl
    have hfull : 0 < (s'.tree m).nkeys := by
      have := hne (s'.node m).page (by
        have := hin.mem_leaves
        rwa [hq.pages, (hq.node r hw.below.root).1] at this)
      rwa [← hq.pages] at this
    exact {
      walk := hw.after hq hin.below (by rw [Nat.zero_add, hin.height])
      hasentry := by rw [hdb]; rfl
      leaf := ⟨m, up', hin, by rw [hpos, hidx, rank_zero]; rfl, fun _ => by rw [hidx]; exact hfull⟩
      roams := hro
      other := hoth
      res := by rw [hres]
      start := by rw [hdb]; rfl
      nloops := by rw [hdb]; rfl }
  | last =>
    refine wp_post (edBptLast_spec env hg hw
      fun q hq => hne q (mem_of_getLast? hq)) ?_
    rintro res s' ⟨m, up', i, hin, hro, hoth, hres, hdb, hi, hpos⟩
    have hq := hro.quiet
    have hidx : (s'.txn.db d).entryIndex = i := by rw [hdb]; rfl
    have hrank := rank_succ hin.block
    rw [hro.ptrBlocks_eq hw.below.root, hpos, ← length_ptrBlocks, rank_length, ← treePtrs_eq,
      length_treePtrs, length_leafPtrs] at hrank
    have hkeys : (s'.pages (s'.node m).page).nkeys = i + 1 := hi.symm
    exact {
      walk := hw.after hq hin.below (by rw [Nat.zero_add, hin.height])
      hasentry := by rw [hdb]; rfl
      leaf := ⟨m, up', hin, by
        rw [hro.ptrBlocks_eq hw.below.root, hidx]
        show (treeEnts s.pages (some (s.node r).page) H).length - 1 = _
        omega, fun _ => by omega⟩
      roams := hro
      other := hoth
      res := by rw [hres]
      start := by rw [hdb]; rfl
      nloops := by rw [hdb]; rfl }

theorem edBptFind_absent {k : Nat} (hw : Walk g s d r H)
    (ho : TreeOk g s.pages (some (s.node r).page) H) (hk : k < 2 ^ 64)
    (habs : ∀ e ∈ treeEnts s.pages (some (s.node r).page) H, fetch64 e ≠ k) :
    wp (edBptFind env g d k)
      (fun _ s' => Roams s s' r H ∧ AtPlace g s' d r H
        ((treeEnts s.pages (some (s.node r).page) H).countP fun e => decide (fetch64 e < k)) false)
      (walkExits env False) s := by
  refine wp_mono (edBptFind_below env g hw.isOpen hw.root hw.below hw.high k) ?_
    (fun _ _ h => h) (fun _ _ h => h) ?_
  · rintro res s' ⟨n, up, hf⟩
    have hq := hf.roams.quiet
    have hm : (s'.txn.db d).matched = false := by
      refine Bool.eq_false_iff.mpr fun hm => ?_
      obtain ⟨hlt, hkey⟩ := hf.matched.mp hm
      have hmem := hf.inLeaf.mem_ents hlt
      rw [hq.pages, (hq.node r hw.below.root).1] at hmem
      exact habs _ hmem hkey
    have hat := hf.atPlace hw ho hk
    rw [hm] at hat
    exact ⟨hf.roams, hat⟩
  · rintro ⟨q, hq, hlt⟩
    exact absurd (hw.room q hq) (by omega)

/-! ## The circle -/

/-- The other direction. -/
def Dir.flip : Dir → Dir
  | next => prev
  | prev => next

theorem Dir.flip_width {N j : Nat} (hj : j < N) (dir : Dir) :
    ((j + dir.width N) % N + dir.flip.width N) % N = j := by
  have hsum : dir.width N + dir.flip.width N = N := by
    cases dir <;> simp only [Dir.width, Dir.flip] <;> omega
  rw [Nat.mod_add_mod, Nat.add_assoc, hsum, Nat.add_mod_right, Nat.mod_eq_of_lt hj]

omit [EdEntry E] in
theorem Roams.tree_eq (h : Roams s s' r H) (hr : r < s.txn.nused) :
    s'.pages = s.pages ∧ (s'.node r).page = (s.node r).page :=
  ⟨h.quiet.pages, (h.quiet.node r hr).1⟩

end Steps

end Eddy
