import Eddy.Stat.Marks
import Eddy.Index.Routed

/-!
# Eddy — marking the pages of a tree

`ed_bpt_mark` marks every page of a tree. It has to map a page to learn whether it is a branch, but
it does not map all leaves: `bpt_mark_children` gets a limit `max` that all levels share, and once
the first leaf was met, `max` is the depth of its parent, so that no child at that depth is mapped
any more. The limit is 8 before, which is as deep as the recursion goes.
-/

namespace Eddy.Stat

open Outcome Slots PageTree Layout List

variable {E : Type}

/-! ## The functions -/

/-- Which calls of `realloc` and `mmap` succeed, by their number. -/
structure MarkEnv where
  realloc : Nat → Bool
  mmap : Nat → Bool

/-- The marks with the calls of `ed_stat_mark`, the pages mapped, and the number of requests
made. -/
structure MarkSt where
  stat : EdStat
  calls : List Nat
  maps : List Nat
  tick : Nat

abbrev MarkM := Prog EdErr EdFault MarkSt

/-- `ed_stat_mark` returns an error: the page was marked before, and the array of such pages is full
and does not grow. -/
def edStatMarkFails (granted : Bool) (s : EdStat) (no : Nat) : Bool :=
  !decide (s.no < no) && bitTest s.vec no && decide (s.mult.length = s.nmultslots) && !granted

variable (env : MarkEnv) (g : Geom) (S : Nat → EdBpt E)

/-- A call of `ed_stat_mark`. -/
def callStatMark (no : Nat) : MarkM Unit := fun s =>
  let granted := env.realloc s.tick
  let s' := { s with
    stat := edStatMark granted s.stat no
    calls := s.calls ++ [no]
    tick := s.tick + 1 }
  if edStatMarkFails granted s.stat no then .err .sys s' else .ok () s'

/-- `ed_pg_map` of a tree page. -/
def mapTree (no : Nat) : MarkM (EdBpt E) := fun s =>
  if env.mmap s.tick then .ok (S no) { s with maps := s.maps ++ [no], tick := s.tick + 1 }
  else .err .sys { s with tick := s.tick + 1 }

/-- One turn of the loop of `bpt_mark_children`, with the limit after it. `children` is the
recursive call. -/
def markKid (children : EdBpt E → Nat → MarkM Nat) (depth no max : Nat) : MarkM Nat := do
  callStatMark env no
  if depth < max then do
    let chld ← mapTree env S no
    if chld.type = .leaf then pure depth else children chld max
  else pure max

/-- The loop of `bpt_mark_children`, over `r` more children from child `i` on. -/
def markKids (children : EdBpt E → Nat → MarkM Nat) (brch : EdBpt E) (depth : Nat) :
    Nat → Nat → Nat → MarkM Nat
  | 0, _, max => pure max
  | r + 1, i, max => do
    let max ← markKid env S children depth (brch.ptr i) max
    markKids children brch depth r (i + 1) max

/-- `bpt_mark_children`, which returns `*max`. The pointers of more than `branchOrder` children are
not in the page. -/
def bptMarkChildren : Nat → EdBpt E → Nat → Nat → MarkM Nat
  | 0, _, _, _ => Prog.stuck
  | fuel + 1, brch, depth, max =>
    if brch.nkeys < g.branchOrder then
      markKids env S (fun chld max => bptMarkChildren fuel chld (depth + 1) max) brch depth
        (brch.nkeys + 1) 0 max
    else Prog.stuck

/-- `ed_bpt_mark`. A call at depth 8 makes none at depth 9, so a recursion of 8 levels is enough. -/
def edBptMark (bpt : Nat) : MarkM Unit := do
  callStatMark env bpt
  if (S bpt).type = .leaf then pure () else do
    let _ ← bptMarkChildren env g S 8 (S bpt) 1 8
    pure ()

/-! ## Trees -/

/-- A tree of branches and leaves with all leaves below `h` levels of branches. -/
def UniformTree : Nat → Nat → Prop
  | 0, p => (S p).type = .leaf
  | h + 1, p =>
    (S p).type = .branch ∧ (S p).nkeys < g.branchOrder ∧
      ∀ j, j ≤ (S p).nkeys → UniformTree h ((S p).ptr j)

/-- The pages of a tree, each in front of its children. -/
def markOrder : Nat → Nat → List Nat
  | 0, p => [p]
  | h + 1, p => p :: (S p).kids.flatMap (markOrder h)

theorem markOrder_perm (h p : Nat) : (markOrder S h p).Perm (layout.pages S h p) := by
  induction h generalizing p with
  | zero => exact List.Perm.refl [p]
  | succ h ih =>
    rw [pages_succ, markOrder, below]
    refine List.Perm.cons p (List.Perm.trans ?_ (flatMap_append_perm _ _ _).symm)
    exact List.Perm.flatMap_left _ fun c _ => ih c

variable {g S} in
theorem mem_markOrder_iff {h p q : Nat} (ht : UniformTree g S h p) :
    q ∈ markOrder S h p ↔ OfTree S p q := by
  induction h generalizing p with
  | zero =>
    rw [markOrder, mem_singleton]
    constructor
    · rintro rfl
      exact .root q
    · intro hq
      cases hq with
      | root => rfl
      | kid hb => rw [ht] at hb; cases hb
  | succ h ih =>
    obtain ⟨hb, -, hkids⟩ := ht
    rw [markOrder, mem_cons, mem_flatMap]
    constructor
    · rintro (rfl | ⟨c, hc, hq⟩)
      · exact .root q
      · obtain ⟨j, hj, rfl⟩ := mem_slots.mp hc
        have hj : j ≤ (S p).nkeys := by omega
        exact .kid hb hj ((ih (hkids j hj)).mp hq)
    · intro hq
      cases hq with
      | root => exact .inl rfl
      | kid _ hj hq =>
        exact .inr ⟨_, mem_slots.mpr ⟨_, by omega, rfl⟩, (ih (hkids _ hj)).mpr hq⟩

/-! ## Calls that are made -/

/-- A request was refused. -/
def Refuses : Prop := ∃ t, env.realloc t = false ∨ env.mmap t = false

/-- The exits of a function that makes the calls `order`: it fails only when a request is refused,
after some of them. -/
def markExits (order : List Nat) (s : MarkSt) : Exits EdErr EdFault MarkSt where
  err _ s' := Refuses env ∧ ∃ done, done <+: order ∧ s'.calls = s.calls ++ done
  halt _ _ := False
  stuck := False

section Calls

variable {env} {α : Type} {x : MarkM α} {Q : α → MarkSt → Prop} {s s1 : MarkSt} {a b : List Nat}

theorem wp_markMore (h : wp x Q (markExits env a s) s1) :
    wp x Q (markExits env (a ++ b) s) s1 := by
  refine wp_mono h (fun _ _ h => h) ?_ (fun _ _ h => h) id
  rintro - s' ⟨hr, done, hpre, hcalls⟩
  exact ⟨hr, done, hpre.trans (prefix_append a b), hcalls⟩

theorem wp_markAfter (hs : s1.calls = s.calls ++ a) (h : wp x Q (markExits env b s1) s1) :
    wp x Q (markExits env (a ++ b) s) s1 := by
  refine wp_mono h (fun _ _ h => h) ?_ (fun _ _ h => h) id
  rintro - s' ⟨hr, done, hpre, hcalls⟩
  refine ⟨hr, a ++ done, prefix_append_right_inj a |>.mpr hpre, ?_⟩
  rw [hcalls, hs, append_assoc]

end Calls

/-! ## The limit -/

/-- How many leaves were mapped. -/
def leafMaps (s : MarkSt) : Nat := (s.maps.filter fun no => (S no).type = .leaf).length

/-- The limit for a tree with `L` levels of branches is the first one or `L`; before it is `L`, one
of the `k` leaves that will be mapped is still to come. -/
structure Limit (L k max : Nat) (s : MarkSt) : Prop where
  bound : max = 8 ∨ max = L
  maps : leafMaps S s + (if max = L then 0 else 1) = k

section Spec

variable {env g S} {L k h depth max c p no : Nat} {s s' : MarkSt}
  {children : EdBpt E → Nat → MarkM Nat}

theorem callStatMark_spec (hlim : Limit S L k max s) (no : Nat) :
    wp (callStatMark env no) (fun _ s' => s'.calls = s.calls ++ [no] ∧ Limit S L k max s')
      (markExits env [no] s) s := by
  unfold wp callStatMark
  by_cases hf : edStatMarkFails (env.realloc s.tick) s.stat no = true
  · simp only [if_pos hf]
    have hrefused : env.realloc s.tick = false := by
      simp only [edStatMarkFails, Bool.and_eq_true, Bool.not_eq_true'] at hf
      exact hf.2
    exact ⟨⟨s.tick, .inl hrefused⟩, [no], prefix_refl _, rfl⟩
  · simp only [if_neg hf]
    exact ⟨trivial, hlim.bound, hlim.maps⟩

theorem mapTree_spec (no : Nat) :
    wp (mapTree env S no)
      (fun b s' => b = S no ∧ s'.calls = s.calls ∧ s'.maps = s.maps ++ [no])
      (markExits env [] s) s := by
  unfold wp mapTree
  by_cases hm : env.mmap s.tick = true
  · simp only [if_pos hm]
    exact ⟨trivial, trivial, trivial⟩
  · simp only [if_neg hm]
    exact ⟨⟨s.tick, .inr (Bool.not_eq_true _ ▸ hm)⟩, [], prefix_refl _,
      (append_nil _).symm⟩

theorem leafMaps_append (hs : s'.maps = s.maps ++ [no]) :
    leafMaps S s' = leafMaps S s + if (S no).type = .leaf then 1 else 0 := by
  rw [leafMaps, leafMaps, hs, filter_append, length_append]
  by_cases ht : (S no).type = .leaf
  · simp [ht]
  · simp [ht]

theorem Limit.branch (hlim : Limit S L k max s) (hs : s'.maps = s.maps ++ [no])
    (ht : (S no).type ≠ .leaf) : Limit S L k max s' := by
  refine ⟨hlim.bound, ?_⟩
  rw [leafMaps_append hs, if_neg ht]
  exact hlim.maps

theorem Limit.leaf (hlim : Limit S L k max s) (hmax : max ≠ L) (hs : s'.maps = s.maps ++ [no])
    (ht : (S no).type = .leaf) : Limit S L k L s' := by
  refine ⟨.inr rfl, ?_⟩
  have hmaps := hlim.maps
  rw [if_neg hmax] at hmaps
  rw [leafMaps_append hs, if_pos ht, if_pos rfl]
  exact hmaps

theorem markKid_leaf (hL : L ≤ 8) (ht : (S c).type = .leaf) (hlim : Limit S L k max s) :
    wp (markKid env S children L c max)
      (fun max' s' => max' = L ∧ Limit S L k max' s' ∧ s'.calls = s.calls ++ [c])
      (markExits env [c] s) s := by
  unfold markKid
  rw [wp_bind]
  refine wp_post (callStatMark_spec hlim c) ?_
  rintro - s1 ⟨hcalls, hlim1⟩
  rw [wp_ite]
  constructor
  · intro hlt
    rw [wp_bind]
    rw [← append_nil [c]]
    refine wp_markAfter hcalls (wp_post (mapTree_spec c) ?_)
    rintro b s2 ⟨rfl, hcalls2, hmaps⟩
    rw [if_pos ht]
    exact ⟨rfl, hlim1.leaf (by omega) hmaps ht, by rw [hcalls2, hcalls]; rfl⟩
  · intro hge
    -- the limit 8 is not below `L` only when it is `L`
    have hmax : max = L := by have := hlim.bound; omega
    exact ⟨hmax, hlim1, hcalls⟩

theorem markKid_branch {order : List Nat} (hdepth : depth < max) (ht : (S c).type = .branch)
    (hlim : Limit S L k max s) (hchildren : ∀ s', Limit S L k max s' →
      wp (children (S c) max)
        (fun max' s'' => max' = L ∧ Limit S L k max' s'' ∧ s''.calls = s'.calls ++ order)
        (markExits env order s') s') :
    wp (markKid env S children depth c max)
      (fun max' s' => max' = L ∧ Limit S L k max' s' ∧ s'.calls = s.calls ++ c :: order)
      (markExits env (c :: order) s) s := by
  have hne : (S c).type ≠ .leaf := by rw [ht]; decide
  unfold markKid
  rw [wp_bind, ← singleton_append]
  refine wp_markMore (wp_post (callStatMark_spec hlim c) ?_)
  rintro - s1 ⟨hcalls, hlim1⟩
  rw [if_pos hdepth, wp_bind]
  refine wp_markAfter hcalls ?_
  refine wp_markMore (a := []) (wp_post (mapTree_spec c) ?_)
  rintro b s2 ⟨rfl, hcalls2, hmaps⟩
  rw [if_neg hne]
  refine wp_markAfter (hcalls2.trans hcalls)
    (wp_post (hchildren s2 (hlim1.branch hmaps hne)) ?_)
  rintro max' s3 ⟨hmax, hlim3, hcalls3⟩
  exact ⟨hmax, hlim3, by rw [hcalls3, hcalls2, hcalls, append_assoc]⟩

/-- The children of a branch, when `order` says which pages are marked for each. Behind the first
one the limit is `L`. -/
theorem markKids_spec {brch : EdBpt E} {order : Nat → List Nat}
    (hkid : ∀ j max' s', j ≤ brch.nkeys → Limit S L k max' s' →
      wp (markKid env S children depth (brch.ptr j) max')
        (fun max'' s'' => max'' = L ∧ Limit S L k max'' s'' ∧
          s''.calls = s'.calls ++ order (brch.ptr j))
        (markExits env (order (brch.ptr j)) s') s') {r i : Nat} (hr : i + r = brch.nkeys + 1)
    (hlim : Limit S L k max s) (hmax : r = 0 → max = L) :
    wp (markKids env S children brch depth r i max)
      (fun max' s' => max' = L ∧ Limit S L k max' s' ∧
        s'.calls = s.calls ++ ((List.range' i r).map brch.ptr).flatMap order)
      (markExits env (((List.range' i r).map brch.ptr).flatMap order) s) s := by
  induction r generalizing i max s with
  | zero => exact ⟨hmax rfl, hlim, (append_nil _).symm⟩
  | succ r ih =>
    rw [markKids, wp_bind, List.range'_succ, map_cons, flatMap_cons]
    refine wp_markMore (wp_post (hkid i max s (by omega) hlim) ?_)
    rintro max' s1 ⟨hmax1, hlim1, hcalls1⟩
    refine wp_markAfter hcalls1 (wp_post (ih (by omega) hlim1 fun _ => hmax1) ?_)
    rintro max'' s2 ⟨hmax2, hlim2, hcalls2⟩
    exact ⟨hmax2, hlim2, by rw [hcalls2, hcalls1, append_assoc]⟩

/-- `bpt_mark_children` for a branch at `depth` whose children are trees of height `h`. -/
theorem bptMarkChildren_spec (hL : L ≤ 8) {fuel : Nat} (hfuel : h < fuel) (hd : depth + h = L)
    (ht : UniformTree g S (h + 1) p) (hlim : Limit S L k max s) :
    wp (bptMarkChildren env g S fuel (S p) depth max)
      (fun max' s' => max' = L ∧ Limit S L k max' s' ∧
        s'.calls = s.calls ++ (S p).kids.flatMap (markOrder S h))
      (markExits env ((S p).kids.flatMap (markOrder S h)) s) s := by
  induction h generalizing fuel depth p max s
  all_goals
    obtain ⟨fuel, rfl⟩ : ∃ f, fuel = f + 1 := ⟨fuel - 1, by omega⟩
    obtain ⟨-, hn, hkids⟩ := ht
    rw [bptMarkChildren, if_pos hn, EdBpt.kids, slots, range_eq_range']
    refine markKids_spec (fun j max' s' hj hlim' => ?_) (by omega) hlim
      (fun h0 => absurd h0 (by omega))
  case zero =>
    obtain rfl : depth = L := hd
    exact markKid_leaf hL (hkids j hj) hlim'
  case succ h ih =>
    -- the limit is at least `L`, which is deeper than the child
    have hdepth : depth < max' := by have := hlim'.bound; omega
    exact markKid_branch hdepth (hkids j hj).1 hlim' fun s'' hlim'' =>
      ih (by omega) (by omega) (hkids j hj) hlim''

end Spec

/-! ## A whole tree -/

/-- The state when `ed_bpt_mark` is called. -/
def MarkSt.start (stat : EdStat) (tick : Nat) : MarkSt := ⟨stat, [], [], tick⟩

/-- How many leaves are mapped for a tree with `L` levels of branches: the root is mapped already,
and the children at depth 8 are not mapped. -/
def leavesMapped (L : Nat) : Nat := if 0 < L ∧ L < 8 then 1 else 0

section Whole

variable {env g S} {L p : Nat}

theorem limit_start (hL : 0 < L) (hL8 : L ≤ 8) (stat : EdStat) (tick : Nat) :
    Limit S L (leavesMapped L) 8 (.start stat tick) := by
  refine ⟨.inl rfl, ?_⟩
  show 0 + (if 8 = L then 0 else 1) = if 0 < L ∧ L < 8 then 1 else 0
  split <;> split <;> omega

theorem edBptMark_calls (hL : L ≤ 8) (ht : UniformTree g S L p) (stat : EdStat) (tick : Nat) :
    wp (edBptMark env g S p)
      (fun _ s' => s'.calls = markOrder S L p ∧ leafMaps S s' = leavesMapped L)
      (markExits env (markOrder S L p) (.start stat tick)) (.start stat tick) := by
  unfold edBptMark
  rw [wp_bind]
  cases L with
  | zero =>
    have hlim : Limit S 0 1 8 (.start stat tick) := ⟨.inl rfl, rfl⟩
    refine wp_post (callStatMark_spec hlim p) ?_
    rintro - s1 ⟨hcalls, hlim1⟩
    have htype : (S p).type = .leaf := ht
    rw [if_pos htype]
    exact ⟨hcalls, Nat.succ.inj hlim1.maps⟩
  | succ h =>
    have hne : (S p).type ≠ .leaf := by rw [ht.1]; decide
    have hlim := limit_start (S := S) (Nat.succ_pos h) hL stat tick
    rw [markOrder, ← singleton_append]
    refine wp_markMore (wp_post (callStatMark_spec hlim p) ?_)
    rintro - s1 ⟨hcalls, hlim1⟩
    rw [if_neg hne, wp_bind]
    refine wp_markAfter hcalls (wp_post
      (bptMarkChildren_spec hL (by omega) (Nat.add_comm 1 h) ht hlim1) ?_)
    rintro max s2 ⟨hmax, hlim2, hcalls2⟩
    have hmaps := hlim2.maps
    rw [if_pos hmax] at hmaps
    exact ⟨by rw [hcalls2, hcalls]; rfl, hmaps⟩

variable (env) in
/-- For a tree whose leaves are all at the same depth, below at most 8 levels of branches,
`ed_bpt_mark` calls `ed_stat_mark` once for every page that is reachable from the root, and for no
other page; it maps one leaf, or none when the root is the leaf or there are 8 levels. It fails only
when a request is refused, and then no page was marked twice. -/
theorem edBptMark_marks_once (hL : L ≤ 8) (ht : UniformTree g S L p)
    (hdistinct : (layout.pages S L p).Nodup) (stat : EdStat) (tick : Nat) :
    wp (edBptMark env g S p)
      (fun _ s' => (∀ q, OfTree S p q → s'.calls.count q = 1) ∧
        (∀ q, ¬ OfTree S p q → s'.calls.count q = 0) ∧
        leafMaps S s' = if 0 < L ∧ L < 8 then 1 else 0)
      { err := fun _ s' => Refuses env ∧ s'.calls.Nodup ∧ ∀ q ∈ s'.calls, OfTree S p q
        halt := fun _ _ => False
        stuck := False }
      (.start stat tick) := by
  have hnodup : (markOrder S L p).Nodup := (markOrder_perm S L p).nodup_iff.mpr hdistinct
  refine wp_mono (edBptMark_calls hL ht stat tick) ?_ ?_ (fun _ _ h => h) id
  · rintro - s' ⟨hcalls, hmaps⟩
    rw [hcalls]
    refine ⟨fun q hq => ?_, fun q hq => ?_, hmaps⟩
    · exact count_eq_one_of_mem hnodup ((mem_markOrder_iff ht).mpr hq)
    · exact count_eq_zero_of_not_mem fun hmem => hq ((mem_markOrder_iff ht).mp hmem)
  · rintro - s' ⟨hr, done, hpre, hcalls⟩
    show Refuses env ∧ s'.calls.Nodup ∧ ∀ q ∈ s'.calls, OfTree S p q
    rw [show s'.calls = done from hcalls]
    exact ⟨hr, hnodup.sublist hpre.sublist, fun q hq =>
      (mem_markOrder_iff ht).mp (hpre.subset hq)⟩

end Whole

/-- A tree with two levels of branches: the root 2, the branches 3 and 4 and the leaves 5 to 8. -/
def sevenPages (no : Nat) : EdBpt Unit where
  type := if no ≤ 4 then .branch else .leaf
  xid := 1
  nkeys := 1
  ptr i := 2 * no - 1 + i
  key _ := 10
  ent _ := ()

theorem sevenPages_uniform : UniformTree g sevenPages 2 2 := by
  have hg := g.branch_ge
  refine ⟨rfl, Nat.lt_of_lt_of_le (by decide : 1 < 4) hg, fun i hi => ?_⟩
  have hi : i ≤ 1 := hi
  refine ⟨?_, Nat.lt_of_lt_of_le (by decide : 1 < 4) hg, fun j hj => ?_⟩
  · show (if 3 + i ≤ 4 then EdPgType.branch else .leaf) = .branch
    rw [if_pos (by omega)]
  · have hj : j ≤ 1 := hj
    show (if 2 * (3 + i) - 1 + j ≤ 4 then EdPgType.branch else .leaf) = .leaf
    rw [if_neg (by omega)]

/-- The marks of an index with 16 pages before the first call. -/
@[irreducible] def sixteenPages : EdStat := edStatNew 16 2 9

/-- Every request is granted. -/
def grantAll : MarkEnv := ⟨fun _ => true, fun _ => true⟩

theorem not_refuses_grantAll : ¬ Refuses grantAll := by
  rintro ⟨t, h | h⟩
  · cases h
  · cases h

/-- The call returns, every page was marked once, and of the leaves 5 to 8 one was mapped. -/
theorem edBptMark_marks_seven :
    ∃ s', edBptMark grantAll .page4096 sevenPages 2 (.start sixteenPages 0) = .ok () s' ∧
      (∀ q, OfTree sevenPages 2 q → s'.calls.count q = 1) ∧
      (∀ q, ¬ OfTree sevenPages 2 q → s'.calls.count q = 0) ∧ leafMaps sevenPages s' = 1 := by
  obtain ⟨⟨⟩, s', hrun, hpost⟩ := ok_of_wp
    (edBptMark_marks_once grantAll (by decide) (sevenPages_uniform .page4096) (by decide)
      sixteenPages 0)
    (fun _ _ he => not_refuses_grantAll he.1) (fun _ _ hh => hh) id
  exact ⟨s', hrun, hpost⟩

end Eddy.Stat
