import Mathlib.Data.List.Basic
import Mathlib.Data.List.Perm.Basic
import Mathlib.Data.List.Flatten

/-!
# Search trees stored in pages

A tree of uniform height lives in a store `S : P → N` of pages. A `Layout` says how the content
of an inner page is read: its children, and the separators between them. The tree itself is
given by its root and its height; there is no tree datatype, so a lemma about a store is a lemma
about the tree in it.

* `inner`, `leaves`: the inner pages and the leaf pages of a tree, in order;
* `OnPath`: a way from a page up to the root, as the list of its ancestors with the index taken
  in each; `leftOf`, `rightOf`, `side`, `beside`: what lies beside the way;
* `Grown`: the way up is rebuilt in a new store, where one page was replaced by one or two, and
  inner pages may have been split on the way;
* `leaves_grown`, `inner_grown`: what the rebuilt tree consists of.

Nothing is said about how many children a page may have.
-/

/-- How the content of an inner page is read. -/
structure PageTree.Layout (P N : Type) where
  kids : N → List P
  seps : N → List Nat

namespace PageTree.Layout

open List

variable {P N α : Type} (L : Layout P N) (S S' : P → N) {h i : Nat} {p r root : P}
  {path : List (P × Nat)} {built : List P} {tall : Bool}

/-- The inner pages of the tree of height `h` at `p`. -/
def inner : Nat → P → List P
  | 0, _ => []
  | h + 1, p => p :: (L.kids (S p)).flatMap (inner h)

/-- The leaf pages of the tree of height `h` at `p`, from left to right. -/
def leaves : Nat → P → List P
  | 0, p => [p]
  | h + 1, p => (L.kids (S p)).flatMap (leaves h)

/-- All pages of the tree of height `h` at `p`. -/
def pages (h : Nat) (p : P) : List P := L.inner S h p ++ L.leaves S h p

theorem mem_pages_self : p ∈ L.pages S h p := by
  cases h <;> simp [pages, inner, leaves]

/-- The pages below an inner page. -/
def below (h : Nat) (p : P) : List P :=
  (L.kids (S p)).flatMap (L.inner S h) ++ (L.kids (S p)).flatMap (L.leaves S h)

theorem pages_succ (h : Nat) (p : P) : L.pages S (h + 1) p = p :: L.below S h p := rfl

theorem pages_subset_below {c : P} (hc : c ∈ L.kids (S p)) : L.pages S h c ⊆ L.below S h p := by
  intro q hq
  simp only [pages, below, mem_append, mem_flatMap] at hq ⊢
  rcases hq with hq | hq
  · exact .inl ⟨c, hc, hq⟩
  · exact .inr ⟨c, hc, hq⟩

theorem lt_length_pages (hk : ∀ n, L.kids n ≠ []) (h : Nat) (p : P) :
    h < (L.pages S h p).length := by
  induction h generalizing p with
  | zero => simp [pages, leaves]
  | succ h ih =>
    obtain ⟨c, cs, hc⟩ := exists_cons_of_ne_nil (hk (S p))
    have h1 := ih c
    rw [pages_succ, below, hc]
    simp only [pages, length_append] at h1
    simp only [length_cons, length_append, flatMap_cons]
    omega

theorem inner_congr {S S' : P → N} (hS : ∀ q ∈ L.inner S h p, L.kids (S' q) = L.kids (S q)) :
    L.inner S' h p = L.inner S h p := by
  induction h generalizing p with
  | zero => rfl
  | succ h ih =>
    have hp : L.kids (S' p) = L.kids (S p) := hS p (by simp [inner])
    simp only [inner, hp, List.cons.injEq, true_and]
    refine flatMap_congr fun c hc => ih fun q hq => hS q ?_
    simp only [inner, mem_cons, mem_flatMap]
    exact .inr ⟨c, hc, hq⟩

theorem leaves_congr {S S' : P → N} (hS : ∀ q ∈ L.inner S h p, L.kids (S' q) = L.kids (S q)) :
    L.leaves S' h p = L.leaves S h p := by
  induction h generalizing p with
  | zero => rfl
  | succ h ih =>
    have hp : L.kids (S' p) = L.kids (S p) := hS p (by simp [inner])
    simp only [leaves, hp]
    refine flatMap_congr fun c hc => ih fun q hq => hS q ?_
    simp only [inner, mem_cons, mem_flatMap]
    exact .inr ⟨c, hc, hq⟩

/-! ## The way up from a page -/

/-- The way from `p` up to the root `r`: the ancestors, nearest first, each with the index of the
child below. -/
def OnPath : P → List (P × Nat) → P → Prop
  | p, [], r => p = r
  | p, (q, i) :: rest, r => (L.kids (S q))[i]? = some p ∧ OnPath q rest r

variable {L S} in
theorem OnPath.kid (hp : L.OnPath S p path r) {x : P × Nat} (hx : x ∈ path) :
    ∃ c, (L.kids (S x.1))[x.2]? = some c := by
  induction path generalizing p with
  | nil => simp at hx
  | cons y rest ih =>
    rcases mem_cons.mp hx with rfl | hx
    · exact ⟨p, hp.1⟩
    · exact ih hp.2 hx

/-- The leaves left of a way that starts at height `h`. -/
def leftOf : Nat → List (P × Nat) → List P
  | _, [] => []
  | h, (q, i) :: rest => leftOf (h + 1) rest ++ ((L.kids (S q)).take i).flatMap (L.leaves S h)

/-- The leaves right of a way that starts at height `h`. -/
def rightOf : Nat → List (P × Nat) → List P
  | _, [] => []
  | h, (q, i) :: rest =>
    ((L.kids (S q)).drop (i + 1)).flatMap (L.leaves S h) ++ rightOf (h + 1) rest

/-- The inner pages beside a way that starts at height `h`, those on the way not included. -/
def side : Nat → List (P × Nat) → List P
  | _, [] => []
  | h, (q, i) :: rest =>
    ((L.kids (S q)).take i ++ (L.kids (S q)).drop (i + 1)).flatMap (L.inner S h) ++ side (h + 1) rest

variable {L S S'} in
theorem side_congr {q c : P} {rest : List (P × Nat)}
    (hside : ∀ x ∈ L.side S h ((q, i) :: rest), L.kids (S' x) = L.kids (S x))
    (hc : c ∈ (L.kids (S q)).take i ++ (L.kids (S q)).drop (i + 1)) :
    L.inner S' h c = L.inner S h c ∧ L.leaves S' h c = L.leaves S h c := by
  have hS : ∀ x ∈ L.inner S h c, L.kids (S' x) = L.kids (S x) := fun x hx =>
    hside x (mem_append_left _ (mem_flatMap.mpr ⟨c, hc, hx⟩))
  exact ⟨L.inner_congr hS, L.leaves_congr hS⟩

theorem add_length_cons (h : Nat) (x : α) (l : List α) :
    h + (x :: l).length = h + 1 + l.length := by
  rw [length_cons]
  omega

theorem eq_take_cons_drop {l : List α} {a : α} (h : l[i]? = some a) :
    l = l.take i ++ a :: l.drop (i + 1) := by
  obtain ⟨hi, rfl⟩ := List.getElem?_eq_some_iff.mp h
  simp

theorem splice_left (l x : List α) {j m : Nat} (hi : i ≤ m) (hj : j ≤ m) :
    (l.take m).take i ++ x ++ (l.take m).drop j ++ l.drop m = l.take i ++ x ++ l.drop j := by
  rw [take_take, Nat.min_eq_left hi, append_assoc, append_assoc, append_assoc,
    drop_take]
  congr 2
  conv_rhs => rw [← take_append_drop (m - j) (l.drop j)]
  rw [drop_drop, Nat.add_sub_of_le hj]

theorem splice_right (l x : List α) {j m : Nat} (hi : m ≤ i) (hj : m ≤ j) :
    l.take m ++ ((l.drop m).take (i - m) ++ x ++ (l.drop m).drop (j - m))
      = l.take i ++ x ++ l.drop j := by
  rw [drop_drop, Nat.add_sub_of_le hj, ← append_assoc, ← append_assoc]
  congr 2
  rw [← take_add, Nat.add_sub_of_le hi]

theorem leaves_of_onPath (hp : L.OnPath S p path r) :
    L.leaves S (h + path.length) r
      = L.leftOf S h path ++ L.leaves S h p ++ L.rightOf S h path := by
  induction path generalizing h p with
  | nil =>
    simp only [OnPath] at hp
    simp [leftOf, rightOf, hp]
  | cons x rest ih =>
    obtain ⟨q, i⟩ := x
    obtain ⟨hi, hrest⟩ := hp
    rw [add_length_cons, ih hrest]
    have hk := eq_take_cons_drop hi
    have hl : L.leaves S (h + 1) q
        = ((L.kids (S q)).take i).flatMap (L.leaves S h) ++ L.leaves S h p
          ++ ((L.kids (S q)).drop (i + 1)).flatMap (L.leaves S h) := by
      rw [leaves]
      conv_lhs => rw [hk]
      simp
    rw [hl]
    simp [leftOf, rightOf]

theorem inner_of_onPath [DecidableEq P] (hp : L.OnPath S p path r) :
    (L.inner S (h + path.length) r).Perm
      (L.inner S h p ++ path.map Prod.fst ++ L.side S h path) := by
  induction path generalizing h p with
  | nil =>
    simp only [OnPath] at hp
    simp [side, hp]
  | cons x rest ih =>
    obtain ⟨q, i⟩ := x
    obtain ⟨hi, hrest⟩ := hp
    rw [add_length_cons]
    refine (ih hrest).trans ?_
    have hk := eq_take_cons_drop hi
    have hin : L.inner S (h + 1) q = q :: (((L.kids (S q)).take i).flatMap (L.inner S h)
        ++ (L.inner S h p ++ ((L.kids (S q)).drop (i + 1)).flatMap (L.inner S h))) := by
      rw [inner]
      conv_lhs => rw [hk]
      simp
    rw [hin, perm_iff_count]
    intro a
    simp only [map_cons, side, flatMap_append, count_append, count_cons]
    omega

/-- The pages beside a way, inner pages and leaves. -/
def beside (h : Nat) (path : List (P × Nat)) : List P :=
  L.side S h path ++ (L.leftOf S h path ++ L.rightOf S h path)

variable {L S} in
theorem mem_beside_cons {q x : P} {rest : List (P × Nat)} :
    x ∈ L.beside S h ((q, i) :: rest) ↔
      (∃ c ∈ (L.kids (S q)).take i ++ (L.kids (S q)).drop (i + 1), x ∈ L.pages S h c) ∨
      x ∈ L.beside S (h + 1) rest := by
  simp only [beside, side, leftOf, rightOf, pages, mem_append, mem_flatMap]
  constructor
  · rintro ((⟨c, hc, hx⟩ | hx) | (hx | ⟨c, hc, hx⟩) | (⟨c, hc, hx⟩ | hx))
    · exact .inl ⟨c, hc, .inl hx⟩
    · exact .inr (.inl hx)
    · exact .inr (.inr (.inl hx))
    · exact .inl ⟨c, .inl hc, .inr hx⟩
    · exact .inl ⟨c, .inr hc, .inr hx⟩
    · exact .inr (.inr (.inr hx))
  · rintro (⟨c, hc, hx | hx⟩ | hx | hx | hx)
    · exact .inl (.inl ⟨c, hc, hx⟩)
    · rcases hc with hc | hc
      · exact .inr (.inl (.inr ⟨c, hc, hx⟩))
      · exact .inr (.inr (.inl ⟨c, hc, hx⟩))
    · exact .inl (.inr hx)
    · exact .inr (.inl (.inl hx))
    · exact .inr (.inr (.inr hx))

theorem pages_of_onPath [DecidableEq P] (hp : L.OnPath S p path r) :
    (L.pages S (h + path.length) r).Perm
      (L.pages S h p ++ path.map Prod.fst ++ L.beside S h path) := by
  have h1 := L.inner_of_onPath S (h := h) hp
  have h2 := L.leaves_of_onPath S (h := h) hp
  rw [perm_iff_count] at h1 ⊢
  intro a
  have := h1 a
  simp only [pages, beside, h2, count_append] at this ⊢
  omega

/-! ## Neighbours -/

section Neighbours

variable {L S} {h i : Nat} {p q : P} {rest down path : List (P × Nat)}

theorem leftOf_first (hz : ∀ x ∈ down, x.2 = 0) :
    L.leftOf S h (down ++ path) = L.leftOf S (h + down.length) path := by
  induction down generalizing h with
  | nil => rfl
  | cons x down ih =>
    obtain ⟨q, i⟩ := x
    obtain rfl : i = 0 := hz (q, i) mem_cons_self
    rw [cons_append, leftOf, take_zero, flatMap_nil, append_nil,
      ih fun x hx => hz x (mem_cons_of_mem _ hx), length_cons]
    congr 1
    omega

theorem rightOf_last (hz : ∀ x ∈ down, (L.kids (S x.1)).length ≤ x.2 + 1) :
    L.rightOf S h (down ++ path) = L.rightOf S (h + down.length) path := by
  induction down generalizing h with
  | nil => rfl
  | cons x down ih =>
    obtain ⟨q, i⟩ := x
    have hlast : (L.kids (S q)).length ≤ i + 1 := hz (q, i) mem_cons_self
    rw [cons_append, rightOf, drop_eq_nil_of_le hlast, flatMap_nil, nil_append,
      ih fun x hx => hz x (mem_cons_of_mem _ hx), length_cons]
    congr 1
    omega

theorem leftOf_sibling (hk : (L.kids (S q))[i]? = some p) :
    L.leftOf S h ((q, i + 1) :: rest) = L.leftOf S h ((q, i) :: rest) ++ L.leaves S h p := by
  obtain ⟨hi, rfl⟩ := List.getElem?_eq_some_iff.mp hk
  rw [leftOf, leftOf, take_succ_eq_append_getElem hi, flatMap_append, append_assoc]
  simp

theorem rightOf_sibling (hk : (L.kids (S q))[i + 1]? = some p) :
    L.rightOf S h ((q, i) :: rest) = L.leaves S h p ++ L.rightOf S h ((q, i + 1) :: rest) := by
  obtain ⟨hi, rfl⟩ := List.getElem?_eq_some_iff.mp hk
  rw [rightOf, rightOf, drop_eq_getElem_cons hi, flatMap_cons, append_assoc]

theorem leftOf_up (hk : (L.kids (S q))[i]? = some p) (hlast : (L.kids (S q)).length ≤ i + 1) :
    L.leftOf S (h + 1) rest ++ L.leaves S (h + 1) q
      = L.leftOf S h ((q, i) :: rest) ++ L.leaves S h p := by
  have hkids := eq_take_cons_drop hk
  rw [drop_eq_nil_of_le hlast] at hkids
  rw [leftOf, leaves, append_assoc]
  conv_lhs => rw [hkids]
  simp

theorem rightOf_up (hlast : (L.kids (S q)).length ≤ i + 1) :
    L.rightOf S h ((q, i) :: rest) = L.rightOf S (h + 1) rest := by
  rw [rightOf, drop_eq_nil_of_le hlast]
  rfl

theorem rightOf_up_first (hk : (L.kids (S q))[0]? = some p) :
    L.leaves S (h + 1) q ++ L.rightOf S (h + 1) rest
      = L.leaves S h p ++ L.rightOf S h ((q, 0) :: rest) := by
  have hkids := eq_take_cons_drop hk
  rw [take_zero, nil_append] at hkids
  rw [rightOf, leaves, ← append_assoc]
  conv_lhs => rw [hkids]
  simp

theorem leftOf_up_first : L.leftOf S h ((q, 0) :: rest) = L.leftOf S (h + 1) rest := by
  rw [leftOf, take_zero, flatMap_nil, append_nil]

theorem length_next {l left right left' right' : List P} {p' : P} (hl : l = left ++ p :: right)
    (hl' : l = left' ++ p' :: right') (h : left' = left ++ [p] ∨ (left' = [] ∧ right = [])) :
    left'.length = (left.length + 1) % l.length := by
  have hlen := congrArg List.length hl
  have hlen' := congrArg List.length hl'
  simp only [length_append, length_cons] at hlen hlen'
  rcases h with rfl | ⟨rfl, rfl⟩
  · simp only [length_append, length_singleton] at hlen' ⊢
    rw [Nat.mod_eq_of_lt (by omega)]
  · rw [hlen]
    exact (Nat.mod_self _).symm

theorem length_prev {l left right left' right' : List P} {p' : P} (hl : l = left ++ p :: right)
    (hl' : l = left' ++ p' :: right') (h : right' = p :: right ∨ (right' = [] ∧ left = [])) :
    left'.length = (left.length + l.length - 1) % l.length := by
  have hlen := congrArg List.length hl
  have hlen' := congrArg List.length hl'
  simp only [length_append, length_cons] at hlen hlen'
  rcases h with rfl | ⟨rfl, rfl⟩
  · simp only [length_cons] at hlen'
    rw [show left.length + l.length - 1 = left'.length + l.length by omega, Nat.add_mod_right,
      Nat.mod_eq_of_lt (by omega)]
  · simp only [length_nil] at hlen' ⊢
    rw [Nat.mod_eq_of_lt (by omega)]
    omega

end Neighbours

/-! ## Rebuilding the way up -/

/-- What takes the place of one child: one page, or two with the separator between them. -/
inductive Forest (P : Type) where
  | one (p : P)
  | two (l : P) (k : Nat) (r : P)

namespace Forest

def pages : Forest P → List P
  | one p => [p]
  | two l _ r => [l, r]

def keys : Forest P → List Nat
  | one _ => []
  | two _ k _ => [k]

end Forest

/-- The children of the pages of a forest. -/
def forestKids (F : Forest P) : List P := F.pages.flatMap fun q => L.kids (S q)

/-- The separators of the pages of a forest, with the one between them. -/
def forestSeps : Forest P → List Nat
  | .one p => L.seps (S p)
  | .two l k r => L.seps (S l) ++ k :: L.seps (S r)

/-- The inner page `q` was replaced by the forest `F'`, in which the forest `F` stands for the child
`i` of `q`. -/
structure Level (q : P) (i : Nat) (F F' : Forest P) : Prop where
  kids : L.forestKids S' F' = (L.kids (S q)).take i ++ F.pages ++ (L.kids (S q)).drop (i + 1)
  seps : L.forestSeps S' F' = (L.seps (S q)).take i ++ F.keys ++ (L.seps (S q)).drop i
  length : ∀ x ∈ F'.pages, (L.kids (S' x)).length = (L.seps (S' x)).length + 1

variable {L S S'} in
theorem Level.congr {T T' : P → N} {q : P} {F F' : Forest P} (hl : L.Level S S' q i F F')
    (hS : T q = S q) (hS' : ∀ x ∈ F'.pages, T' x = S' x) : L.Level T T' q i F F' := by
  have hk : L.forestKids T' F' = L.forestKids S' F' :=
    flatMap_congr fun x hx => by rw [hS' x hx]
  have hs : L.forestSeps T' F' = L.forestSeps S' F' := by
    cases F' with
    | one p => simp [forestSeps, hS' p (by simp [Forest.pages])]
    | two l k r =>
      simp [forestSeps, hS' l (by simp [Forest.pages]), hS' r (by simp [Forest.pages])]
  refine ⟨?_, ?_, fun x hx => ?_⟩
  · rw [hk, hS]
    exact hl.kids
  · rw [hs, hS]
    exact hl.seps
  · rw [hS' x hx]
    exact hl.length x hx

/-- The way up was rebuilt in the store `S'`: `F` is what takes the place of the page at its lower
end, the result is the new root with the list of the rebuilt inner pages, and `tall` says whether
a new root was put on top. -/
inductive Grown : Forest P → List (P × Nat) → P → List P → Bool → Prop
  | one (p : P) : Grown (.one p) [] p [] false
  | two (l r root : P) (k : Nat) (hk : L.kids (S' root) = [l, r]) (hs : L.seps (S' root) = [k]) :
      Grown (.two l k r) [] root [root] true
  | level {q : P} {i : Nat} {F G : Forest P} {rest : List (P × Nat)} {root : P}
      {built : List P} {tall : Bool} (hl : L.Level S S' q i F G)
      (hg : Grown G rest root built tall) :
      Grown F ((q, i) :: rest) root (G.pages ++ built) tall

/-- The height of the rebuilt tree. -/
def tallness (tall : Bool) : Nat := if tall then 1 else 0

variable {S S'}

theorem leaves_grown {F : Forest P} (hg : L.Grown S S' F path root built tall) (h : Nat)
    (hside : ∀ q ∈ L.side S h path, L.kids (S' q) = L.kids (S q)) :
    L.leaves S' (h + path.length + tallness tall) root
      = L.leftOf S h path ++ F.pages.flatMap (L.leaves S' h) ++ L.rightOf S h path := by
  induction hg generalizing h with
  | one p => simp [leftOf, rightOf, Forest.pages, tallness]
  | two l r root k hk hs =>
    simp [leftOf, rightOf, Forest.pages, tallness, leaves, hk]
  | @level q i F F' rest root built tall hl hg ih =>
    rw [add_length_cons, ih (h + 1) fun x hx => hside x (mem_append_right _ hx)]
    -- the children of the new pages are the old ones around the forest
    have hF : F'.pages.flatMap (L.leaves S' (h + 1))
        = (L.forestKids S' F').flatMap (L.leaves S' h) := by
      rw [forestKids, flatMap_assoc]
      rfl
    rw [hF, hl.kids, flatMap_append, flatMap_append,
      flatMap_congr fun c hc => (side_congr hside (mem_append_left _ hc)).2,
      flatMap_congr fun c hc => (side_congr hside (mem_append_right _ hc)).2]
    simp [leftOf, rightOf]

theorem inner_grown [DecidableEq P] {F : Forest P} (hg : L.Grown S S' F path root built tall)
    (h : Nat) (hside : ∀ q ∈ L.side S h path, L.kids (S' q) = L.kids (S q)) :
    (L.inner S' (h + path.length + tallness tall) root).Perm
      (F.pages.flatMap (L.inner S' h) ++ built ++ L.side S h path) := by
  induction hg generalizing h with
  | one p => simp [side, Forest.pages, tallness]
  | two l r root k hk hs =>
    simp only [length_nil, Nat.add_zero, tallness, if_true, inner, hk, Forest.pages, side,
      append_nil]
    exact (perm_append_comm : ([root] ++ _).Perm _)
  | @level q i F F' rest root built tall hl hg ih =>
    rw [add_length_cons]
    refine (ih (h + 1) fun x hx => hside x (mem_append_right _ hx)).trans ?_
    have hF : (F'.pages.flatMap (L.inner S' (h + 1))).Perm
        (F'.pages ++ (L.forestKids S' F').flatMap (L.inner S' h)) := by
      rw [forestKids]
      cases F' with
      | one p => simp [Forest.pages, inner]
      | two l k r =>
        rw [perm_iff_count]
        intro a
        simp only [Forest.pages, flatMap_cons, flatMap_nil, append_nil, inner,
          flatMap_append, count_append, count_cons, count_nil]
        omega
    rw [hl.kids, flatMap_append, flatMap_append,
      flatMap_congr fun c hc => (side_congr hside (mem_append_left _ hc)).1,
      flatMap_congr fun c hc => (side_congr hside (mem_append_right _ hc)).1] at hF
    rw [perm_iff_count] at hF ⊢
    intro a
    have := hF a
    simp only [side, flatMap_append, count_append] at this ⊢
    omega

variable {L} in
theorem Grown.congr {T U : P → N} {F : Forest P} (hg : L.Grown S S' F path root built tall)
    (hS : ∀ x ∈ path, T x.1 = S x.1) (hS' : ∀ q ∈ built, U q = S' q) :
    L.Grown T U F path root built tall := by
  induction hg with
  | one p => exact .one p
  | two l r root k hk hs =>
    refine .two l r root k ?_ ?_
    · rw [hS' root (by simp)]
      exact hk
    · rw [hS' root (by simp)]
      exact hs
  | @level q i F F' rest root built tall hl hg ih =>
    refine .level (hl.congr (hS (q, i) (by simp)) fun x hx => hS' x (by simp [hx]))
      (ih (fun x hx => hS x (by simp [hx])) fun x hx => hS' x (by simp [hx]))

variable {L} in
theorem Grown.of_onPath (hp : L.OnPath S p path r)
    (hl : ∀ x ∈ path, (L.kids (S x.1)).length = (L.seps (S x.1)).length + 1) :
    L.Grown S S (.one p) path r (path.map Prod.fst) false := by
  induction path generalizing p with
  | nil =>
    obtain rfl : p = r := hp
    exact .one p
  | cons x rest ih =>
    obtain ⟨q, i⟩ := x
    refine .level (G := .one q) ⟨?_, ?_, ?_⟩ (ih hp.2 fun y hy => hl y (by simp [hy]))
    · have := eq_take_cons_drop hp.1
      simpa [forestKids, Forest.pages] using this
    · simp [forestSeps, Forest.keys]
    · intro y hy
      obtain rfl : y = q := by simpa [Forest.pages] using hy
      exact hl (y, i) (by simp)

end PageTree.Layout
