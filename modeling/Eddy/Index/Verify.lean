import Eddy.Index.Order

/-!
# Eddy — `ed_bpt_verify`

The check walks over a whole tree and compares every key with the bounds that the separators above
it give. It reads the pages through mappings of its own.
-/

namespace Eddy

open Outcome Slots PageTree Layout Fencing List

variable {E : Type} [EdEntry E] (env : Env E) (g : Geom) {node : Nat → Nat → Nat → M E Bool}
  {s' : St E} {h p : Nat}

/-! ## The check -/

/-- The loop of `verify_leaf`, over `r` more entries from slot `i` on. `last` is not read at the
first one. -/
def verifySlots (ent : Nat → E) (min max : Nat) : Nat → Nat → Nat → Bool
  | 0, _, _ => true
  | r + 1, i, last =>
    let key := fetch64 (ent i)
    if key < min ∨ max < key then false
    else if 0 < i ∧ key < last then false
    else verifySlots ent min max r (i + 1) key

/-- `verify_leaf`. -/
def verifyLeaf (b : EdBpt E) (min max : Nat) : M E Bool :=
  if b.nkeys ≤ g.leafOrder then pure (verifySlots b.ent min max b.nkeys 0 0) else Prog.stuck

/-- Map a child and check it. -/
def verifyChild (node : Nat → Nat → Nat → M E Bool) (no min max : Nat) : M E Bool := do
  let failed ← sysFails env .page
  if failed then Prog.throw .sys else node no min max

/-- The children of a branch from child `i` on, with `r` separators left. -/
def verifyKids (node : Nat → Nat → Nat → M E Bool) (b : EdBpt E) (min max : Nat) :
    Nat → Nat → Nat → M E Bool
  | 0, i, nmin => verifyChild env node (b.ptr i) nmin max
  | r + 1, i, nmin =>
    let nmax := b.key (i + 1)
    if nmax < min ∨ max < nmax then pure false else do
      let ok ← verifyChild env node (b.ptr i) nmin (pred64 nmax)
      if ok then verifyKids node b min max r (i + 1) nmax else pure false

/-- `verify_node`. A result below zero is `false`. -/
def verifyNode : Nat → Nat → Nat → Nat → M E Bool
  | 0, _, _, _ => Prog.stuck
  | fuel + 1, no, min, max => do
    let b ← Prog.gets fun s => s.pages no
    if b.type = .leaf then verifyLeaf g b min max
    else if b.nkeys < g.branchOrder then
      verifyKids env (verifyNode fuel) b min max b.nkeys 0 min
    else Prog.stuck

/-- `ed_bpt_verify`. -/
def edBptVerify (t : Option Nat) : M E Bool :=
  match t with
  | none => pure true
  | some no => do
    let fuel ← Prog.gets fun s => s.hdr.no
    verifyNode env g (fuel + 1) no 0 uint64Max

/-! ## What it requires -/

/-- The keys of a leaf are in order and within the bounds. -/
structure LeafVerified (b : EdBpt E) (min max : Nat) : Prop where
  range : ∀ j, j < b.nkeys → min ≤ fetch64 (b.ent j) ∧ fetch64 (b.ent j) ≤ max
  order : ∀ j, j + 1 < b.nkeys → fetch64 (b.ent j) ≤ fetch64 (b.ent (j + 1))

/-- What `ed_bpt_verify` requires of a tree of height `h`. The separators of a branch are compared
with the bounds of the branch, not with each other. -/
def Verified (S : Nat → EdBpt E) : Nat → Nat → Nat → Nat → Prop
  | 0, min, max, p => LeafVerified (S p) min max
  | h + 1, min, max, p =>
    (∀ j, j < (S p).nkeys → min ≤ (S p).key (j + 1) ∧ (S p).key (j + 1) ≤ max) ∧
      ∀ j, j ≤ (S p).nkeys →
        Verified S h ((S p).kidMin min j) ((S p).kidMax max j) ((S p).ptr j)

section Leaf

variable {b : EdBpt E} {min max : Nat}

theorem verifySlots_iff (ent : Nat → E) (r i last : Nat) :
    verifySlots ent min max r i last = true ↔
      (∀ j, i ≤ j → j < i + r → min ≤ fetch64 (ent j) ∧ fetch64 (ent j) ≤ max) ∧
      (∀ j, i ≤ j → j + 1 < i + r → fetch64 (ent j) ≤ fetch64 (ent (j + 1))) ∧
      (0 < i → 0 < r → last ≤ fetch64 (ent i)) := by
  induction r generalizing i last with
  | zero =>
    refine iff_of_true rfl ⟨fun j h1 h2 => ?_, fun j h1 h2 => ?_, fun _ h => absurd h (by decide)⟩
    · exact absurd h2 (by omega)
    · exact absurd h2 (by omega)
  | succ r ih =>
    rw [verifySlots]
    by_cases hr : fetch64 (ent i) < min ∨ max < fetch64 (ent i)
    · rw [if_pos hr]
      refine iff_of_false Bool.false_ne_true fun h => ?_
      have := h.1 i le_rfl (by omega)
      omega
    rw [if_neg hr]
    by_cases ho : 0 < i ∧ fetch64 (ent i) < last
    · rw [if_pos ho]
      refine iff_of_false Bool.false_ne_true fun h => ?_
      have := h.2.2 ho.1 (Nat.succ_pos r)
      omega
    rw [if_neg ho, ih]
    -- slot `i` was compared, the rest is that of the slots behind it
    constructor
    · rintro ⟨h1, h2, h3⟩
      refine ⟨fun j hj hj' => ?_, fun j hj hj' => ?_, fun hi _ => by omega⟩
      · rcases Nat.eq_or_lt_of_le hj with rfl | hlt
        · omega
        · exact h1 j hlt (by omega)
      · rcases Nat.eq_or_lt_of_le hj with rfl | hlt
        · exact h3 (Nat.succ_pos _) (by omega)
        · exact h2 j hlt (by omega)
    · rintro ⟨h1, h2, -⟩
      exact ⟨fun j hj hj' => h1 j (by omega) (by omega), fun j hj hj' => h2 j (by omega) (by omega),
        fun _ hr' => h2 i le_rfl (by omega)⟩

theorem verifyLeaf_iff : verifySlots b.ent min max b.nkeys 0 0 = true ↔ LeafVerified b min max := by
  rw [verifySlots_iff]
  constructor
  · rintro ⟨h1, h2, -⟩
    exact ⟨fun j hj => h1 j (Nat.zero_le _) (by omega), fun j hj => h2 j (Nat.zero_le _) (by omega)⟩
  · rintro ⟨h1, h2⟩
    exact ⟨fun j _ hj => h1 j (by omega), fun j _ hj => h2 j (by omega), fun h => absurd h (by decide)⟩

end Leaf

/-! ## The check accepts what is required -/

/-- The check fails when a mapping is refused, and is undefined when `U` is the case. -/
def checkExits (U : Prop) : Exits EdErr EdFault (St E) where
  err _ _ := Refused env
  halt _ _ := False
  stuck := U

section Spec

variable {env} {s : St E} {b : EdBpt E} {min max : Nat} {U : Prop}

omit [EdEntry E] in
theorem verifyChild_spec {no mn mx : Nat} {P : Prop}
    (h : ∀ s', s'.pages = s.pages → wp (node no mn mx)
      (fun ok s'' => s''.pages = s.pages ∧ (ok = true ↔ P)) (checkExits env U) s') :
    wp (verifyChild env node no mn mx)
      (fun ok s'' => s''.pages = s.pages ∧ (ok = true ↔ P)) (checkExits env U) s := by
  unfold verifyChild
  simp only [wp_bind, wp_sysFails, wp_ite, wp_throw]
  exact ⟨fun hf => ⟨_, hf⟩, fun _ => h _ rfl⟩

omit [EdEntry E] in
/-- The children from child `i` on, when `P` says what is required of each. -/
theorem verifyKids_spec {P : Nat → Nat → Nat → Prop}
    (hnode : ∀ s' j mn mx, s'.pages = s.pages → j ≤ b.nkeys → wp (node (b.ptr j) mn mx)
      (fun ok s'' => s''.pages = s.pages ∧ (ok = true ↔ P j mn mx)) (checkExits env U) s')
    {r i nmin : Nat} (hr : i + r = b.nkeys) (hs' : s'.pages = s.pages) :
    wp (verifyKids env node b min max r i nmin)
      (fun ok s'' => s''.pages = s.pages ∧ (ok = true ↔
        (∀ j, i ≤ j → j < b.nkeys → min ≤ b.key (j + 1) ∧ b.key (j + 1) ≤ max) ∧
        P i nmin (b.kidMax max i) ∧
        ∀ j, i < j → j ≤ b.nkeys → P j (b.key j) (b.kidMax max j)))
      (checkExits env U) s' := by
  have hchild : ∀ {j mn mx} {s2 : St E}, s2.pages = s.pages → j ≤ b.nkeys →
      wp (verifyChild env node (b.ptr j) mn mx)
        (fun ok s'' => s''.pages = s.pages ∧ (ok = true ↔ P j mn mx)) (checkExits env U) s2 := by
    intro j mn mx s2 h2 hj
    have := verifyChild_spec (s := s2) (P := P j mn mx) fun s3 h3 => by
      rw [h2]
      exact hnode s3 j mn mx (h3.trans h2) hj
    rwa [h2] at this
  induction r generalizing i nmin s' with
  | zero =>
    have hi : i = b.nkeys := hr
    refine wp_post (hchild hs' hi.le) ?_
    rintro ok s'' ⟨hp, hok⟩
    refine ⟨hp, hok.trans ?_⟩
    rw [EdBpt.kidMax, if_neg (by omega)]
    exact ⟨fun h => ⟨fun j h1 h2 => absurd h2 (by omega), h, fun j h1 h2 => absurd h2 (by omega)⟩,
      fun h => h.2.1⟩
  | succ r ih =>
    have hlt : i < b.nkeys := by omega
    have hmax : b.kidMax max i = pred64 (b.key (i + 1)) := if_pos hlt
    rw [verifyKids]
    simp only [wp_ite, wp_pure', wp_bind]
    refine ⟨fun hout => ⟨hs', ?_⟩, fun hin => ?_⟩
    · -- the separator is out of range
      refine iff_of_false Bool.false_ne_true fun h => ?_
      have := h.1 i le_rfl hlt
      omega
    refine wp_post (hchild hs' hlt.le) ?_
    rintro ok s2 ⟨hp2, hok⟩
    refine ⟨fun ht => ?_, fun hno => ⟨hp2, ?_⟩⟩
    · refine wp_post (ih (by omega) hp2) ?_
      rintro ok' s3 ⟨hp3, hok'⟩
      refine ⟨hp3, hok'.trans ?_⟩
      rw [hmax]
      constructor
      · rintro ⟨h1, h2, h3⟩
        refine ⟨fun j hj hj' => ?_, hok.mp ht, fun j hj hj' => ?_⟩
        · rcases Nat.eq_or_lt_of_le hj with rfl | hlt'
          · omega
          · exact h1 j hlt' hj'
        · rcases Nat.eq_or_lt_of_le hj with rfl | hlt'
          · exact h2
          · exact h3 j hlt' hj'
      · rintro ⟨h1, -, h3⟩
        exact ⟨fun j hj hj' => h1 j (by omega) hj', h3 (i + 1) (by omega) (by omega),
          fun j hj hj' => h3 j (by omega) hj'⟩
    · refine iff_of_false Bool.false_ne_true fun h => hno (hok.mpr ?_)
      rw [← hmax]
      exact h.2.1

omit [EdEntry E] in
theorem verifyKids_all {P : Nat → Nat → Nat → Prop}
    (hnode : ∀ s' j mn mx, s'.pages = s.pages → j ≤ b.nkeys → wp (node (b.ptr j) mn mx)
      (fun ok s'' => s''.pages = s.pages ∧ (ok = true ↔ P j mn mx)) (checkExits env U) s')
    (hs' : s'.pages = s.pages) :
    wp (verifyKids env node b min max b.nkeys 0 min)
      (fun ok s'' => s''.pages = s.pages ∧ (ok = true ↔
        (∀ j, j < b.nkeys → min ≤ b.key (j + 1) ∧ b.key (j + 1) ≤ max) ∧
        ∀ j, j ≤ b.nkeys → P j (b.kidMin min j) (b.kidMax max j)))
      (checkExits env U) s' := by
  refine wp_post (verifyKids_spec hnode (Nat.zero_add _) hs') ?_
  rintro ok s'' ⟨hp, hok⟩
  refine ⟨hp, hok.trans ⟨?_, ?_⟩⟩
  · rintro ⟨h1, h2, h3⟩
    refine ⟨fun j hj => h1 j (Nat.zero_le _) hj, fun j hj => ?_⟩
    rcases Nat.eq_zero_or_pos j with rfl | hpos
    · exact h2
    · rw [EdBpt.kidMin, if_neg hpos.ne']
      exact h3 j hpos hj
  · rintro ⟨h1, h2⟩
    refine ⟨fun j _ hj => h1 j hj, h2 0 (Nat.zero_le _), fun j hpos hj => ?_⟩
    have := h2 j hj
    rwa [EdBpt.kidMin, if_neg hpos.ne'] at this

theorem verifyNode_spec {fuel : Nat} (hfuel : h < fuel) (hsh : Shaped s.pages (some p) h g)
    (hroom : ∀ q ∈ treeLeaves s.pages (some p) h, ¬ (s.pages q).nkeys ≤ g.leafOrder → U)
    (hs' : s'.pages = s.pages) :
    wp (verifyNode env g fuel p min max)
      (fun ok s'' => s''.pages = s.pages ∧ (ok = true ↔ Verified s.pages h min max p))
      (checkExits env U) s' := by
  induction h generalizing fuel p min max s' with
  | zero =>
    obtain ⟨fuel, rfl⟩ : ∃ m, fuel = m + 1 := ⟨fuel - 1, by omega⟩
    have hmem : p ∈ treeLeaves s.pages (some p) 0 := mem_singleton.mpr rfl
    rw [verifyNode, wp_bind, wp_gets, hs', if_pos (hsh.leaf p hmem), verifyLeaf, wp_ite,
      wp_pure', wp_stuck]
    exact ⟨fun _ => ⟨hs', verifyLeaf_iff⟩, hroom p hmem⟩
  | succ h ih =>
    obtain ⟨fuel, rfl⟩ : ∃ m, fuel = m + 1 := ⟨fuel - 1, by omega⟩
    have hbr : BranchOk g (s.pages p) := hsh.branch p mem_cons_self
    rw [verifyNode, wp_bind, wp_gets, hs', if_neg (by rw [hbr.type]; decide), if_pos hbr.lt]
    have hkid : ∀ j, j ≤ (s.pages p).nkeys → (s.pages p).ptr j ∈ (s.pages p).kids := fun j hj =>
      mem_of_getElem? (getElem?_kids hj)
    refine verifyKids_all (s := s)
      (P := fun j mn mx => Verified s.pages h mn mx ((s.pages p).ptr j))
      (fun s2 j mn mx h2 hj => ih (by omega) ?_ ?_ h2) hs'
    · refine ⟨fun q hq => hsh.branch q ?_, fun q hq => hsh.leaf q ?_⟩
      · exact mem_cons_of_mem _ (mem_flatMap.mpr ⟨_, hkid j hj, hq⟩)
      · exact mem_flatMap.mpr ⟨_, hkid j hj, hq⟩
    · exact fun q hq => hroom q (mem_flatMap.mpr ⟨_, hkid j hj, hq⟩)

end Spec

/-! ## Trees that are accepted -/

section Tree

variable {env} {g} {s : St E} {S : Nat → EdBpt E} {R T : List Nat} {hs : EdDb → Nat} {d : EdDb}
  {U : Prop}

theorem verified_of_ordered {lo max : Nat} (ho : layout.Ordered (LeafOk g) S h lo (max + 1) p) :
    Verified S h lo max p := by
  induction h generalizing lo max p with
  | zero =>
    have hl : LeafOk g lo (max + 1) (S p) := ho
    exact ⟨fun j hj => ⟨(hl.range j hj).1, Nat.le_of_lt_succ (hl.range j hj).2⟩,
      fun j hj => hl.sorted j (j + 1) (Nat.le_succ j) hj⟩
  | succ h ih =>
    have hf : Fence (layout.Ordered (LeafOk g) S h) lo (S p).seps (S p).kids (max + 1) := ho
    refine ⟨fun j hj => ?_, fun j hj => ?_⟩
    · have := hf.keys _ (mem_of_getElem? (getElem?_seps hj))
      omega
    · obtain ⟨a, b, hab, hchild, hbef, haft⟩ := Fence.hole hf (getElem?_kids hj)
      rw [before_kidMin hbef hj] at hchild hab
      rw [← after_kidMax haft (by omega)] at hchild
      exact ih hchild

theorem TreeOk.verified {root : Option Nat} (ho : TreeOk g S root h) (hp : root = some p) :
    Verified S h 0 uint64Max p := by
  refine verified_of_ordered (g := g) ?_
  rw [uint64Max_succ]
  exact ho p hp

theorem Verified.at {n r : Nat} {up : List (Nat × Nat)}
    (hv : Verified s.pages (h + up.length) 0 uint64Max (s.node r).page)
    (hl : layout.OnPath s.pages (s.node n).page (pagePath s up) (s.node r).page) :
    Verified s.pages h (lowKey s up) (highKey s up) (s.node n).page := by
  induction up generalizing h n with
  | nil =>
    have : (s.node n).page = (s.node r).page := hl
    rw [this]
    exact hv
  | cons x up ih =>
    obtain ⟨q, i⟩ := x
    rw [length_cons, show h + (up.length + 1) = h + 1 + up.length by omega] at hv
    obtain ⟨hkid, hrest⟩ := hl
    have hi : i ≤ (s.tree q).nkeys := by
      have := (List.getElem?_eq_some_iff.mp hkid).1
      rw [layout_kids, length_kids] at this
      exact Nat.lt_succ_iff.mp this
    have hptr : (s.tree q).ptr i = (s.node n).page := by
      have := (getElem?_kids hi).symm.trans hkid
      exact Option.some.inj this
    rw [← hptr]
    exact (ih hv hrest).2 i hi

/-- `ed_bpt_verify` accepts a tree of the transaction exactly when it is as required. -/
theorem edBptVerify_spec (h : TxnOk g s R T hs)
    (hroom : ∀ q ∈ treeLeaves s.pages (rootNo s d) (hs d), ¬ (s.pages q).nkeys ≤ g.leafOrder → U) :
    wp (edBptVerify env g (rootNo s d))
      (fun ok _ => ok = true ↔ ∀ p, rootNo s d = some p → Verified s.pages (hs d) 0 uint64Max p)
      (checkExits env U) s := by
  unfold edBptVerify
  have hsh := h.shaped d
  have hlt := fun p => h.height_lt (d := d) (p := p)
  cases hr : rootNo s d with
  | none => exact iff_of_true rfl fun _ h0 => by cases h0
  | some p =>
    rw [hr] at hsh hroom
    rw [wp_bind, wp_gets]
    refine wp_post (verifyNode_spec g ((hlt p hr).trans (Nat.lt_succ_self _)) hsh hroom rfl) ?_
    rintro ok s' ⟨-, hok⟩
    exact hok.trans ⟨fun hv q hq => by cases hq; exact hv, fun hv => hv p rfl⟩

end Tree

end Eddy
