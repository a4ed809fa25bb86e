import Eddy.Lib.Fence
import Eddy.Lib.PageTree

/-!
# Search trees stored in pages: the order of the keys

`Ordered leafOk S h lo hi p` says that in the tree of height `h` at `p` the separators of every
inner page fence in its children, from the range `[lo, hi)` down to the leaves, where `leafOk`
takes over.

* `Hole`: the way up from a page with everything beside it in order; `Ordered.hole` opens a tree
  at one of its pages;
* `Hole.grown`: a rebuilt way is in order when what was put into the hole is;
* `Ordered.raise`: the separator in front of a leaf may move up to the smallest key of the leaf;
* `Ordered.sorted`: the keys of the leaves, from left to right, are sorted;
* `Hole.sides`: the keys beside a hole lie on both sides of its range.
-/

namespace PageTree.Layout

open Fencing List

variable {P N : Type} (L : Layout P N) (leafOk : Nat → Nat → N → Prop) (S S' : P → N)
  {h x y a b : Nat} {p q r : P} {path : List (P × Nat)}

/-- The separators of the tree fence in its leaves. -/
def Ordered : Nat → Nat → Nat → P → Prop
  | 0, lo, hi, p => leafOk lo hi (S p)
  | h + 1, lo, hi, p => Fence (Ordered h) lo (L.seps (S p)) (L.kids (S p)) hi

/-- The way up from height `h`, with the tree beside it in order and the range `[a, b)` left open
for what stands at its lower end. -/
def Hole (lo hi : Nat) : Nat → List (P × Nat) → Nat → Nat → Prop
  | _, [], a, b => a = lo ∧ b = hi
  | h, (q, i) :: rest, a, b => ∃ a' b',
      Before (L.Ordered leafOk S h) a' ((L.seps (S q)).take i) ((L.kids (S q)).take i) a ∧
      After (L.Ordered leafOk S h) b ((L.seps (S q)).drop i) ((L.kids (S q)).drop (i + 1)) b' ∧
      Hole lo hi (h + 1) rest a' b'

variable {L leafOk S S'} {lo hi : Nat}

theorem Ordered.congr (ho : L.Ordered leafOk S h x y p) (hS : ∀ q ∈ L.pages S h p, S' q = S q) :
    L.Ordered leafOk S' h x y p := by
  induction h generalizing x y p with
  | zero =>
    simp only [Ordered] at ho ⊢
    rw [hS p (by simp [pages, inner, leaves])]
    exact ho
  | succ h ih =>
    simp only [Ordered] at ho ⊢
    rw [hS p (by simp [pages, inner])]
    refine ho.mono fun c hc x' y' hc' => ih hc' fun q hq => hS q ?_
    simp only [pages, inner, leaves, mem_append, mem_cons, mem_flatMap] at hq ⊢
    rcases hq with hq | hq
    · exact .inl (.inr ⟨c, hc, hq⟩)
    · exact .inr ⟨c, hc, hq⟩

theorem Ordered.leaf (ho : L.Ordered leafOk S h x y p) (hq : q ∈ L.leaves S h p) :
    ∃ a b, leafOk a b (S q) := by
  induction h generalizing x y p with
  | zero =>
    obtain rfl : q = p := mem_singleton.mp hq
    exact ⟨x, y, ho⟩
  | succ h ih =>
    obtain ⟨c, hc, hqc⟩ := mem_flatMap.mp hq
    obtain ⟨a, b, hcab, -⟩ := Fence.child ho c hc
    exact ih hcab hqc

theorem Ordered.hole (ho : L.Ordered leafOk S (h + path.length) lo hi r) (hp : L.OnPath S p path r)
    (hlt : lo < hi) :
    ∃ a b, a < b ∧ L.Hole leafOk S lo hi h path a b ∧ L.Ordered leafOk S h a b p := by
  induction path generalizing h p with
  | nil =>
    simp only [OnPath] at hp
    subst hp
    exact ⟨lo, hi, hlt, ⟨rfl, rfl⟩, ho⟩
  | cons x rest ih =>
    obtain ⟨q, i⟩ := x
    obtain ⟨hi', hrest⟩ := hp
    rw [add_length_cons] at ho
    obtain ⟨a', b', -, hhole, hq⟩ := ih ho hrest
    obtain ⟨a, b, hab, hpo, hbef, haft⟩ := Fence.hole hq hi'
    exact ⟨a, b, hab, ⟨a', b', hbef, haft, hhole⟩, hpo⟩

theorem Ordered.hole_key {k : Nat} (ho : L.Ordered leafOk S (h + path.length) lo hi r)
    (hp : L.OnPath S p path r) (hlo : lo ≤ k) (hhi : k < hi)
    (hk : ∀ x ∈ path, (L.seps (S x.1)).Pairwise (· < ·) →
      (∀ y ∈ (L.seps (S x.1)).take x.2, y ≤ k) ∧ ∀ y ∈ (L.seps (S x.1)).drop x.2, k < y) :
    ∃ a b, a ≤ k ∧ k < b ∧ L.Hole leafOk S lo hi h path a b ∧ L.Ordered leafOk S h a b p := by
  induction path generalizing h p with
  | nil =>
    simp only [OnPath] at hp
    subst hp
    exact ⟨lo, hi, hlo, hhi, ⟨rfl, rfl⟩, ho⟩
  | cons x rest ih =>
    obtain ⟨q, i⟩ := x
    obtain ⟨hi', hrest⟩ := hp
    rw [add_length_cons] at ho
    obtain ⟨a', b', ha', hb', hhole, hq⟩ := ih ho hrest fun x hx => hk x (by simp [hx])
    obtain ⟨h1, h2⟩ := hk (q, i) (by simp) (Fence.pairwise hq)
    obtain ⟨a, b, -, hpo, hbef, haft⟩ := Fence.hole hq hi'
    refine ⟨a, b, ?_, ?_, ⟨a', b', hbef, haft, hhole⟩, hpo⟩
    · rcases hbef.mem with rfl | hmem
      · exact ha'
      · exact h1 a hmem
    · rcases haft.mem with rfl | hmem
      · exact hb'
      · exact h2 b hmem

theorem ordered_of_beside {i : Nat} {c : P} {rest : List (P × Nat)}
    (hS : ∀ p ∈ L.beside S h ((q, i) :: rest), S' p = S p)
    (hc : c ∈ (L.kids (S q)).take i ++ (L.kids (S q)).drop (i + 1))
    (ho : L.Ordered leafOk S h x y c) : L.Ordered leafOk S' h x y c :=
  ho.congr fun p hp => hS p (mem_beside_cons.mpr (.inl ⟨c, hc, hp⟩))

theorem fence_forest {F : Forest P}
    (hl : ∀ x ∈ F.pages, (L.kids (S x)).length = (L.seps (S x)).length + 1)
    (hf : Fence (L.Ordered leafOk S h) a (L.forestSeps S F) (L.forestKids S F) b) :
    Fence (L.Ordered leafOk S (h + 1)) a F.keys F.pages b := by
  cases F with
  | one p =>
    simp only [forestSeps, forestKids, Forest.pages, flatMap_cons, flatMap_nil,
      append_nil] at hf
    exact ⟨hf.lt, hf⟩
  | two l k r =>
    simp only [forestSeps, forestKids, Forest.pages, flatMap_cons, flatMap_nil,
      append_nil] at hf
    obtain ⟨h1, h2⟩ := (fence_append (hl l (by simp [Forest.pages]))).mp hf
    exact ⟨h1.lt, h1, h2.lt, h2⟩

theorem Hole.grown {F : Forest P} {root : P} {built : List P} {tall : Bool}
    (hh : L.Hole leafOk S lo hi h path a b) (hg : L.Grown S S' F path root built tall)
    (hS : ∀ p ∈ L.beside S h path, S' p = S p)
    (hF : Fence (L.Ordered leafOk S' h) a F.keys F.pages b) :
    L.Ordered leafOk S' (h + path.length + tallness tall) lo hi root := by
  induction hg generalizing h a b with
  | one p =>
    obtain ⟨rfl, rfl⟩ := hh
    exact hF.2
  | two l r root k hk hs =>
    obtain ⟨rfl, rfl⟩ := hh
    change Fence _ _ (L.seps (S' root)) (L.kids (S' root)) _
    rw [hk, hs]
    exact hF
  | @level q i F F' rest root built tall hl hg ih =>
    obtain ⟨a', b', hbef, haft, hrest⟩ := hh
    rw [add_length_cons]
    refine ih hrest (fun p hp => hS p (mem_beside_cons.mpr (.inr hp))) ?_
    refine fence_forest hl.length ?_
    rw [hl.kids, hl.seps]
    refine Fence.fill (hbef.mono fun c hc _ _ => ?_) hF (haft.mono fun c hc _ _ => ?_)
    · exact ordered_of_beside hS (mem_append_left _ hc)
    · exact ordered_of_beside hS (mem_append_right _ hc)

theorem Ordered.raise [DecidableEq P] {k i : Nat} {rest : List (P × Nat)}
    (ho : L.Ordered leafOk S (rest.length + 1) lo hi r) (hp : L.OnPath S p ((q, i + 1) :: rest) r)
    (hlt : lo < hi) (hnd : (L.pages S (rest.length + 1) r).Nodup)
    (hlen : ∀ x ∈ rest, (L.kids (S x.1)).length = (L.seps (S x.1)).length + 1)
    (hS : ∀ x, x ≠ q → S' x = S x) (hkids : L.kids (S' q) = L.kids (S q))
    (hseps : L.seps (S' q) = (L.seps (S q)).set i k)
    (hmono : ∀ x y y' n, leafOk x y n → y ≤ y' → leafOk x y' n)
    (hk : ∀ a b, leafOk a b (S p) → a ≤ k ∧ k < b ∧ leafOk k b (S p)) :
    L.Ordered leafOk S' (rest.length + 1) lo hi r := by
  rw [Nat.add_comm] at ho hnd ⊢
  obtain ⟨a', b', -, hhole, hq⟩ := ho.hole hp.2 hlt
  obtain ⟨a, b, -, hpo, hbef, haft⟩ := Fence.hole hq hp.1
  obtain ⟨hak, hkb, hpk⟩ := hk a b hpo
  -- the branch stands nowhere else in the tree
  have hperm := (L.pages_of_onPath S (h := 1) hp.2).nodup_iff.mp hnd
  have hq1 : q ∉ (L.kids (S q)) := by
    have h1 := (nodup_append.mp (nodup_append.mp hperm).1).1
    simp only [pages, inner, leaves, cons_append, nodup_cons, mem_append] at h1
    exact fun hmem => h1.1 (.inr (by simpa using hmem))
  have hqrest : ∀ x ∈ rest, x.1 ≠ q := fun x hx e =>
    (nodup_append.mp (nodup_append.mp hperm).1).2.2 q (L.mem_pages_self S) q
      (mem_map.mpr ⟨x, hx, e⟩) rfl
  have hqbes : ∀ x ∈ L.beside S 1 rest, x ≠ q := fun x hx e =>
    (nodup_append.mp hperm).2.2 q (mem_append_left _ (L.mem_pages_self S)) q (e ▸ hx) rfl
  have hleaf : ∀ c ∈ L.kids (S q), ∀ x y, L.Ordered leafOk S 0 x y c → L.Ordered leafOk S' 0 x y c := by
    intro c hc x y ho
    have : S' c = S c := hS c fun e => hq1 (e ▸ hc)
    simpa only [Ordered, this] using ho
  have hi1 : i < (L.seps (S q)).length := by
    have h1 := (List.getElem?_eq_some_iff.mp hp.1).1
    have h2 := Fence.length hq
    omega
  have hfence : L.Ordered leafOk S' 1 a' b' q := by
    change Fence _ a' (L.seps (S' q)) (L.kids (S' q)) b'
    have hsplit : (L.seps (S q)).set i k
        = ((L.seps (S q)).take (i + 1)).dropLast ++ [k] ++ [] ++ (L.seps (S q)).drop (i + 1) := by
      rw [set_eq_take_append_cons_drop, if_pos hi1, take_succ_eq_append_getElem hi1,
        dropLast_concat]
      simp
    have hks : L.kids (S q) = (L.kids (S q)).take (i + 1) ++ [p] ++ (L.kids (S q)).drop (i + 2) := by
      simpa using eq_take_cons_drop hp.1
    rw [hkids, hseps, hsplit, hks]
    refine Fence.fill (a := k) (b := b) ?_ (show Fence _ k [] [p] b from ⟨hkb, ?_⟩) ?_
    · have hne : (L.seps (S q)).take (i + 1) ≠ [] := by
        rw [take_succ_eq_append_getElem hi1]
        exact append_ne_nil_of_right_ne_nil _ (cons_ne_nil _ _)
      refine (hbef.raise hne hak fun c _ x hx => hmono x a k _ hx hak).mono fun c hc x y hx => ?_
      exact hleaf c (mem_of_mem_take hc) x y hx
    · exact hleaf p (mem_of_getElem? hp.1) k b hpk
    · exact haft.mono fun c hc x y hx => hleaf c (mem_of_mem_drop hc) x y hx
  refine Hole.grown hhole (show L.Grown S S' (.one q) rest _ (rest.map Prod.fst) false from ?_) ?_
    ⟨?_, hfence⟩
  · refine (Grown.of_onPath hp.2 hlen).congr (fun _ _ => rfl) fun x hx => ?_
    obtain ⟨y, hy, rfl⟩ := mem_map.mp hx
    exact hS _ (hqrest y hy)
  · exact fun x hx => hS x (hqbes x hx)
  · exact Fence.lt hq

theorem Ordered.sorted {f : N → List Nat}
    (hf : ∀ x y n, leafOk x y n → (f n).Pairwise (· ≤ ·) ∧ ∀ k ∈ f n, x ≤ k ∧ k < y)
    (ho : L.Ordered leafOk S h x y p) :
    ((L.leaves S h p).flatMap fun q => f (S q)).Pairwise (· ≤ ·) ∧
      ∀ k ∈ (L.leaves S h p).flatMap fun q => f (S q), x ≤ k ∧ k < y := by
  induction h generalizing x y p with
  | zero =>
    simp only [leaves, flatMap_cons, flatMap_nil, append_nil]
    exact hf _ _ _ ho
  | succ h ih =>
    simp only [leaves, flatMap_assoc]
    exact Fence.flatMap (fun c _ x' y' hc => ih hc) ho

theorem Hole.sides {f : N → List Nat}
    (hf : ∀ x y n, leafOk x y n → (f n).Pairwise (· ≤ ·) ∧ ∀ k ∈ f n, x ≤ k ∧ k < y)
    (hh : L.Hole leafOk S lo hi h path a b) :
    (∀ k ∈ (L.leftOf S h path).flatMap fun q => f (S q), k < a) ∧
      ∀ k ∈ (L.rightOf S h path).flatMap fun q => f (S q), b ≤ k := by
  induction path generalizing h a b with
  | nil => simp [leftOf, rightOf]
  | cons x rest ih =>
    obtain ⟨q, i⟩ := x
    obtain ⟨a', b', hbef, haft, hrest⟩ := hh
    obtain ⟨hl, hr⟩ := ih hrest
    refine ⟨fun k hk => ?_, fun k hk => ?_⟩
    · rw [leftOf, flatMap_append, mem_append, flatMap_assoc] at hk
      rcases hk with hk | hk
      · exact (hl k hk).trans_le hbef.le.1
      · obtain ⟨c, hc, hk⟩ := mem_flatMap.mp hk
        obtain ⟨x, y, hA, hy⟩ := hbef.child c hc
        exact ((Ordered.sorted hf hA).2 k hk).2.trans_le hy
    · rw [rightOf, flatMap_append, mem_append, flatMap_assoc] at hk
      rcases hk with hk | hk
      · obtain ⟨c, hc, hk⟩ := mem_flatMap.mp hk
        obtain ⟨x, y, hA, hx⟩ := haft.child c hc
        exact hx.trans ((Ordered.sorted hf hA).2 k hk).1
      · exact haft.ge.1.trans (hr k hk)

end PageTree.Layout
