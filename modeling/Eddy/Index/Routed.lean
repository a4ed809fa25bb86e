import Eddy.Index.Verify
import Eddy.Index.Start

/-!
# Eddy — what an accepted tree promises to a search

`ed_bpt_verify` gives each child the bounds that the separators next to it make, and compares the
separators with the bounds of their branch, never with each other. `branch_search` stops at the
first separator that is above the key or equal to it. So a tree may be accepted although a search
takes another way than the one to the entry. The trees here have any shape: leaves at any depth,
empty leaves, separators in any order.
-/

namespace Eddy

open Outcome Slots PageTree Layout

variable {E : Type}

/-! ## Trees of any shape -/

section Shape

variable (S : Nat → EdBpt E)

/-- The page `q` is in the tree of `p`. -/
inductive OfTree : Nat → Nat → Prop
  | root (p : Nat) : OfTree p p
  | kid {p j q : Nat} (ht : (S p).type = .branch) (hj : j ≤ (S p).nkeys)
      (h : OfTree ((S p).ptr j) q) : OfTree p q

/-- A tree of branches and leaves. -/
def BranchesAndLeaves (p : Nat) : Prop :=
  ∀ q, OfTree S p q → (S q).type = .branch ∨ (S q).type = .leaf

variable [EdEntry E]

/-- The leaf has an entry with the key `k`. -/
def EdBpt.Holds (b : EdBpt E) (k : Nat) : Prop := ∃ j, j < b.nkeys ∧ fetch64 (b.ent j) = k

/-- The tree of a page has an entry with the key `k`. -/
inductive Stored (k : Nat) : Nat → Prop
  | leaf {p : Nat} (ht : (S p).type = .leaf) (h : (S p).Holds k) : Stored k p
  | kid {p j : Nat} (ht : (S p).type = .branch) (hj : j ≤ (S p).nkeys)
      (h : Stored k ((S p).ptr j)) : Stored k p

omit [EdEntry E] in
/-- The separators of a branch do not keep the key `k` away from child `j`: those in front of the
child's own separator are below the key, and the one behind the child is not `0`, unless the child's
own separator is the key itself. -/
def EdBpt.Leads (b : EdBpt E) (k j : Nat) : Prop :=
  (∀ i, 0 < i → i < j → b.key i < k) ∧
    (j < b.nkeys → b.key (j + 1) ≠ 0 ∨ (0 < j ∧ b.key j = k))

/-- The tree of a page has an entry with the key `k` from which no branch on the way keeps the key
away. -/
inductive Lined (k : Nat) : Nat → Prop
  | leaf {p : Nat} (ht : (S p).type = .leaf) (h : (S p).Holds k) : Lined k p
  | kid {p j : Nat} (ht : (S p).type = .branch) (hj : j ≤ (S p).nkeys) (hl : (S p).Leads k j)
      (h : Lined k ((S p).ptr j)) : Lined k p

end Shape

section Sub

variable {S : Nat → EdBpt E} {p j : Nat}

theorem BranchesAndLeaves.kid (h : BranchesAndLeaves S p) (ht : (S p).type = .branch)
    (hj : j ≤ (S p).nkeys) : BranchesAndLeaves S ((S p).ptr j) :=
  fun q hq => h q (.kid ht hj hq)

end Sub

/-! ## What the check requires -/

variable [EdEntry E] (env : Env E) (g : Geom)

/-- What `verify_node` requires of the tree of a page when it descends at most `f` levels. -/
def Admitted (S : Nat → EdBpt E) : Nat → Nat → Nat → Nat → Prop
  | 0, _, _, _ => False
  | f + 1, min, max, p =>
    if (S p).type = .leaf then (S p).nkeys ≤ g.leafOrder ∧ LeafVerified (S p) min max
    else (S p).nkeys < g.branchOrder ∧
      (∀ j, j < (S p).nkeys → min ≤ (S p).key (j + 1) ∧ (S p).key (j + 1) ≤ max) ∧
      ∀ j, j ≤ (S p).nkeys →
        Admitted S f ((S p).kidMin min j) ((S p).kidMax max j) ((S p).ptr j)

theorem verifyNode_admitted {s s' : St E} {f p min max : Nat} (hs' : s'.pages = s.pages) :
    wp (verifyNode env g f p min max)
      (fun ok s'' => s''.pages = s.pages ∧ (ok = true ↔ Admitted g s.pages f min max p))
      (checkExits env True) s' := by
  induction f generalizing p min max s' with
  | zero => trivial
  | succ f ih =>
    rw [verifyNode, wp_bind, wp_gets, hs', Admitted]
    by_cases ht : (s.pages p).type = .leaf
    · rw [if_pos ht, if_pos ht, verifyLeaf, wp_ite, wp_pure', wp_stuck]
      refine ⟨fun hroom => ⟨hs', verifyLeaf_iff.trans ?_⟩, fun _ => trivial⟩
      exact ⟨fun h => ⟨hroom, h⟩, fun h => h.2⟩
    rw [if_neg ht, if_neg ht, wp_ite, wp_stuck]
    refine ⟨fun hroom => ?_, fun _ => trivial⟩
    refine wp_post (verifyKids_all (s := s)
      (P := fun j mn mx => Admitted g s.pages f mn mx ((s.pages p).ptr j))
      (fun s2 j mn mx h2 _ => ih h2) hs') ?_
    rintro ok s2 ⟨hp, hok⟩
    exact ⟨hp, hok.trans ⟨fun h => ⟨hroom, h⟩, fun h => h.2⟩⟩

section Admitted

variable {g} {S : Nat → EdBpt E} {f min max p k j : Nat}

theorem Admitted.leaf (h : Admitted g S (f + 1) min max p) (ht : (S p).type = .leaf) :
    (S p).nkeys ≤ g.leafOrder ∧ LeafVerified (S p) min max := by
  rwa [Admitted, if_pos ht] at h

theorem Admitted.branch (h : Admitted g S (f + 1) min max p) (ht : (S p).type = .branch) :
    (S p).nkeys < g.branchOrder ∧
      (∀ j, j < (S p).nkeys → min ≤ (S p).key (j + 1) ∧ (S p).key (j + 1) ≤ max) ∧
      ∀ j, j ≤ (S p).nkeys →
        Admitted g S f ((S p).kidMin min j) ((S p).kidMax max j) ((S p).ptr j) := by
  rwa [Admitted, if_neg (by rw [ht]; decide)] at h

omit [EdEntry E] in
theorem kid_bounds (hs : ∀ j, j < (S p).nkeys → min ≤ (S p).key (j + 1) ∧ (S p).key (j + 1) ≤ max)
    (hj : j ≤ (S p).nkeys) (hl : (S p).Leads k j)
    (hk : (S p).kidMin min j ≤ k ∧ k ≤ (S p).kidMax max j) : min ≤ k ∧ k ≤ max := by
  have hown : 0 < j → min ≤ (S p).key j ∧ (S p).key j ≤ max := fun hpos => by
    have := hs (j - 1) (by omega)
    rwa [Nat.sub_add_cancel hpos] at this
  obtain ⟨hlo, hhi⟩ := hk
  constructor
  · rw [EdBpt.kidMin] at hlo
    split at hlo
    · exact hlo
    · have := hown (by omega)
      omega
  · rw [EdBpt.kidMax] at hhi
    split at hhi
    · rename_i hlt
      rcases hl.2 hlt with hne | ⟨hpos, heq⟩
      · rw [pred64, if_neg hne] at hhi
        have := hs j hlt
        omega
      · have := hown hpos
        omega
    · exact hhi

theorem Lined.bounds (hl : Lined S k p) (h : Admitted g S f min max p) : min ≤ k ∧ k ≤ max := by
  induction hl generalizing f min max with
  | leaf ht hk =>
    cases f with
    | zero => exact h.elim
    | succ f =>
      obtain ⟨j, hj, rfl⟩ := hk
      exact (h.leaf ht).2.range j hj
  | kid ht hj hl _ ih =>
    cases f with
    | zero => exact h.elim
    | succ f =>
      obtain ⟨-, hs, hkids⟩ := h.branch ht
      exact kid_bounds hs hj hl (ih (hkids _ hj))

end Admitted

/-! ## The way of a search -/

theorem branchScan_past (key : Nat → Nat) (k r i : Nat) :
    ∀ j, i < j → j < branchScan key k r i → key j < k := by
  induction r generalizing i with
  | zero =>
    intro j h1 h2
    rw [branchScan] at h2
    omega
  | succ r ih =>
    intro j h1 h2
    rw [branchScan] at h2
    split at h2
    · omega
    · rename_i hge
      split at h2
      · omega
      · rename_i hne
        rcases Nat.lt_or_ge (i + 1) j with hlt | hle
        · exact ih (i + 1) j hlt h2
        · obtain rfl : j = i + 1 := by omega
          omega

section Branch

variable {b : EdBpt E} {k j : Nat}

omit [EdEntry E] in
theorem leads_branchSearch (b : EdBpt E) (k : Nat) : b.Leads k (branchSearch b k) := by
  obtain ⟨-, -, -, hnext⟩ := branchScan_spec b.key k b.nkeys 0
  refine ⟨branchScan_past b.key k b.nkeys 0, fun hlt => ?_⟩
  rcases hnext (by rwa [Nat.zero_add]) with h | h
  · exact .inl (Nat.ne_of_gt (Nat.zero_lt_of_lt h))
  · exact .inr h

omit [EdEntry E] in
theorem branchSearch_eq (hj : j ≤ b.nkeys) (hl : b.Leads k j) (hown : 0 < j → b.key j ≤ k)
    (hnext : j < b.nkeys → b.key (j + 1) ≠ 0 → k < b.key (j + 1)) : branchSearch b k = j := by
  obtain ⟨-, hle, hbelow, hstop⟩ := branchScan_spec b.key k b.nkeys 0
  have hpast := branchScan_past b.key k b.nkeys 0
  change branchSearch b k ≤ 0 + b.nkeys at hle
  change ∀ j, 0 < j → j ≤ branchSearch b k → b.key j ≤ k at hbelow
  change branchSearch b k < 0 + b.nkeys → k < b.key (branchSearch b k + 1) ∨
    (0 < branchSearch b k ∧ b.key (branchSearch b k) = k) at hstop
  change ∀ j, 0 < j → j < branchSearch b k → b.key j < k at hpast
  rcases Nat.lt_trichotomy (branchSearch b k) j with hlt | heq | hgt
  · -- the search stops in front of the child
    rcases hstop (by omega) with h | ⟨hpos, h⟩
    · have hup : b.key (branchSearch b k + 1) ≤ k := by
        rcases Nat.eq_or_lt_of_le (Nat.succ_le_of_lt hlt) with he | hl'
        · rw [show branchSearch b k + 1 = j from he]
          exact hown (by omega)
        · exact (hl.1 _ (Nat.succ_pos _) hl').le
      omega
    · have := hl.1 _ hpos hlt
      omega
  · exact heq
  · -- the search goes past the child
    rcases hl.2 (by omega) with h | ⟨hpos, h⟩
    · have h1 := hnext (by omega) h
      have h2 := hbelow (j + 1) (Nat.succ_pos _) hgt
      omega
    · have := hpast j hpos hgt
      omega

end Branch

/-- The leaf a search for `k` comes to, when it descends at most `f` levels. -/
def route (S : Nat → EdBpt E) (k : Nat) : Nat → Nat → Nat
  | 0, p => p
  | f + 1, p => if (S p).type = .branch then route S k f ((S p).ptr (branchSearch (S p) k)) else p

section Route

variable {g} {S : Nat → EdBpt E} {f min max p k : Nat}

omit [EdEntry E] in
theorem route_branch (ht : (S p).type = .branch) :
    route S k (f + 1) p = route S k f ((S p).ptr (branchSearch (S p) k)) := by
  rw [route, if_pos ht]

omit [EdEntry E] in
theorem route_leaf (ht : (S p).type = .leaf) : route S k (f + 1) p = p := by
  rw [route, if_neg (by rw [ht]; decide)]

theorem Admitted.route (h : Admitted g S f min max p) (hk : BranchesAndLeaves S p) :
    (S (route S k f p)).type = .leaf ∧ (S (Eddy.route S k f p)).nkeys ≤ g.leafOrder ∧
      ∃ mn mx, LeafVerified (S (Eddy.route S k f p)) mn mx := by
  induction f generalizing min max p with
  | zero => exact h.elim
  | succ f ih =>
    rcases hk p (.root p) with ht | ht
    · have hj := branchSearch_le (S p) k
      rw [route_branch ht]
      exact ih ((h.branch ht).2.2 _ hj) (hk.kid ht hj)
    · rw [route_leaf ht]
      exact ⟨ht, (h.leaf ht).1, _, _, (h.leaf ht).2⟩

theorem Lined.route (hl : Lined S k p) (h : Admitted g S f min max p) :
    (S (route S k f p)).Holds k := by
  induction hl generalizing f min max with
  | leaf ht hk =>
    cases f with
    | zero => exact h.elim
    | succ f =>
      rw [route_leaf ht]
      exact hk
  | @kid p j ht hj hl hkid ih =>
    cases f with
    | zero => exact h.elim
    | succ f =>
      have hc := (h.branch ht).2.2 j hj
      obtain ⟨hlo, hhi⟩ := hkid.bounds hc
      have hj' : branchSearch (S p) k = j := by
        refine branchSearch_eq hj hl (fun hpos => ?_) fun hlt hne => ?_
        · rwa [EdBpt.kidMin, if_neg hpos.ne'] at hlo
        · rw [EdBpt.kidMax, if_pos hlt, pred64, if_neg hne] at hhi
          omega
      rw [route_branch ht, hj']
      exact ih hc

/-- In an accepted tree a key is in the leaf the search comes to exactly when the separators lead
to an entry with that key. -/
theorem lined_iff_route (h : Admitted g S f min max p) (hk : BranchesAndLeaves S p) :
    Lined S k p ↔ (S (route S k f p)).Holds k := by
  refine ⟨fun hl => hl.route h, fun hh => ?_⟩
  induction f generalizing min max p with
  | zero => exact h.elim
  | succ f ih =>
    rcases hk p (.root p) with ht | ht
    · have hj := branchSearch_le (S p) k
      rw [route_branch ht] at hh
      exact .kid ht hj (leads_branchSearch (S p) k)
        (ih ((h.branch ht).2.2 _ hj) (hk.kid ht hj) hh)
    · rw [route_leaf ht] at hh
      exact .leaf ht hh

end Route

/-! ## Searches in an accepted tree -/

section Leaf

variable {b : EdBpt E} {min max k : Nat}

theorem LeafVerified.mono (h : LeafVerified b min max) {i j : Nat} (hij : i ≤ j)
    (hj : j < b.nkeys) : fetch64 (b.ent i) ≤ fetch64 (b.ent j) := by
  induction j with
  | zero =>
    obtain rfl : i = 0 := by omega
    exact le_rfl
  | succ j ih =>
    rcases Nat.eq_or_lt_of_le hij with rfl | hlt
    · exact le_rfl
    · exact (ih (by omega) (by omega)).trans (h.order j hj)

theorem LeafVerified.found (h : LeafVerified b min max) (kmin kmax : Nat) :
    (leafScan b.ent k b.nkeys 0 kmin kmax).found = true ↔ b.Holds k := by
  obtain ⟨-, -, hbelow, hstop, hfound⟩ := leafScan_spec b.ent k b.nkeys 0 kmin kmax
  rw [hfound]
  constructor
  · intro hf
    exact ⟨_, by simpa using hf.1, hf.2⟩
  · rintro ⟨j, hj, hkey⟩
    -- the loop stops at the slot or in front of it, at a key that is not below
    have hle : (leafScan b.ent k b.nkeys 0 kmin kmax).index ≤ j := by
      by_contra hlt
      have := hbelow j (Nat.zero_le _) (by omega)
      omega
    have hlow := hstop (by omega)
    have hup := h.mono hle hj
    exact ⟨by omega, by omega⟩

end Leaf

section Find

variable {env} {g} {s : St E} {d : EdDb} {f min max k : Nat}

theorem findDescend_route {S : Nat → EdBpt E} {p fuel n kmin kmax : Nat}
    (h : Admitted g S f min max p) (hk : BranchesAndLeaves S p) (hf : f ≤ fuel) (hS : s.pages = S)
    (hn : (s.node n).page = p) :
    wp (findDescend env g d k fuel n kmin kmax)
      (fun res s' => s'.pages = S ∧ (s'.node res.1).page = route S k f p)
      (walkExits env False) s := by
  -- induction on the levels that were checked
  induction f generalizing s n p fuel min max kmin kmax with
  | zero => exact h.elim
  | succ f ih =>
    obtain ⟨fuel, rfl⟩ : ∃ m, fuel = m + 1 := ⟨fuel - 1, by omega⟩
    rw [findDescend, wp_bind, wp_getTree, tree_eq, hS, hn]
    rcases hk p (.root p) with ht | ht
    · have hj := branchSearch_le (S p) k
      obtain ⟨hroom, -, hkids⟩ := h.branch ht
      rw [if_pos ht, if_pos hroom, route_branch ht]
      simp only [wp_bind]
      refine wp_post (edTxnMap_walk env s _ _ _) ?_
      intro m s1 hm
      rw [wp_modDb]
      have hS1 : s1.pages = S := (Quiet.mapped hm).pages.trans hS
      exact ih (hkids _ hj) (hk.kid ht hj) (by omega) hS1 hm.node.2.1
    · rw [if_neg (by rw [ht]; decide), route_leaf ht]
      exact ⟨hS, hn⟩

theorem edBptFind_lined {r : Nat} (hcalm : ¬ Refused env) (hopen : s.txn.state = .open)
    (hroot : (s.txn.db d).root = some r) (h : Admitted g s.pages f min max (s.node r).page)
    (hk : BranchesAndLeaves s.pages (s.node r).page) (hf : f ≤ s.hdr.no + 1) :
    ∃ res s', edBptFind env g d k s = .ok res s' ∧
      (res.1 = 1 ↔ Lined s.pages k (s.node r).page) := by
  have hwp : wp (edBptFind env g d k)
      (fun res _ => res.1 = 1 ↔ Lined s.pages k (s.node r).page) (walkExits env False) s := by
    unfold edBptFind
    rw [wp_bind, wp_gets, if_neg (by rw [hopen]; decide), wp_bind, wp_modDb, hroot]
    simp only [wp_bind, wp_gets]
    refine wp_post (findDescend_route h hk hf rfl rfl) ?_
    rintro res s1 ⟨hp, hn⟩
    obtain ⟨-, hroom, mn, mx, hv⟩ := h.route (k := k) hk
    have htree : s1.tree res.1 = s.pages (route s.pages k f (s.node r).page) := by
      rw [tree_eq, hp, hn]
    rw [wp_get, htree, if_pos (.inl hroom)]
    simp only [wp_bind, wp_modDb, wp_pure']
    rw [lined_iff_route h hk, ← hv.found res.2.1 res.2.2]
    split
    · rename_i hfound
      exact iff_of_true rfl hfound
    · rename_i hnot
      exact iff_of_false (by decide) hnot
  exact ok_of_wp hwp (fun _ _ hx => hcalm hx.2) (fun _ _ hx => hx) id

end Find

/-! ## The check and the search -/

section Check

variable {env} {g} {s s1 t : St E} {d : EdDb} {p : Nat}

theorem admitted_of_verify (h : edBptVerify env g (some p) s = .ok true s1) :
    Admitted g s.pages (s.hdr.no + 1) 0 uint64Max p := by
  have hwp : wp (edBptVerify env g (some p))
      (fun ok _ => ok = true ↔ Admitted g s.pages (s.hdr.no + 1) 0 uint64Max p)
      (checkExits env True) s := by
    unfold edBptVerify
    rw [wp_bind, wp_gets]
    exact wp_post (verifyNode_admitted env g rfl) fun _ _ h => h.2
  rw [wp, h] at hwp
  exact hwp.mp rfl

/-- After a check that returned `0`, a search finds the key of every entry exactly when every stored
key has an entry to which the separators lead. The search is made in any state with the same pages
and the same tree. -/
theorem accepted_found_iff (hcalm : ¬ Refused env)
    (hver : edBptVerify env g (some p) s = .ok true s1) (hkinds : BranchesAndLeaves s.pages p)
    (hpages : t.pages = s.pages) (hno : t.hdr.no = s.hdr.no) (hopen : t.txn.state = .open)
    (hroot : rootNo t d = some p) :
    (∀ k, Stored s.pages k p → ∃ e t', edBptFind env g d k t = .ok (1, e) t') ↔
      ∀ k, Stored s.pages k p → Lined s.pages k p := by
  have had := admitted_of_verify hver
  obtain ⟨r, hr, rfl⟩ := Option.map_eq_some_iff.mp hroot
  rw [← hpages, ← hno] at had
  rw [← hpages] at hkinds ⊢
  refine forall₂_congr fun k _ => ?_
  obtain ⟨⟨n, e⟩, t', hrun, hiff⟩ := edBptFind_lined (k := k) hcalm hopen hr had hkinds le_rfl
  rw [← hiff, hrun]
  constructor
  · rintro ⟨e', t'', heq⟩
    cases heq
    rfl
  · intro hn
    obtain rfl : n = 1 := hn
    exact ⟨e, t', rfl⟩

end Check

/-- A transaction on an index whose tree of keys is a branch on page 2 with the given separators;
its children are leaves on the pages from 3 on. -/
def branchSt (seps : List Nat) (leaves : List (List UInt64)) : St UInt64 :=
  { leafSt [] with
    pages := fun p =>
      if p = 2 then
        { EdBpt.zero with
          type := .branch, nkeys := seps.length, ptr := fun i => 3 + i
          key := fun i => seps.getD (i - 1) 0 }
      else EdBpt.leafOf (leaves.getD (p - 3) []) }

theorem branchSt_kinds (seps : List Nat) (leaves : List (List UInt64)) :
    BranchesAndLeaves (branchSt seps leaves).pages 2 := by
  intro q _
  by_cases hq : q = 2
  · subst hq
    exact .inl rfl
  · right
    show (if q = 2 then _ else EdBpt.leafOf (leaves.getD (q - 3) [])).type = .leaf
    rw [if_neg hq]
    rfl

/-- Two leaves with the separator `10` between them. -/
theorem accepted_found_ten :
    (edBptVerify Env.calm Geom.page4096 (some 2)).returns id (branchSt [10] [[5], [15]]) = true ∧
    ∀ k, Stored (branchSt [10] [[5], [15]]).pages k 2 →
      ∃ e t', edBptFind Env.calm Geom.page4096 .keys k (branchSt [10] [[5], [15]])
        = .ok (1, e) t' := by
  have hcalm : ¬ Refused Env.calm := fun ⟨_, h⟩ => Bool.false_ne_true h
  have hret : (edBptVerify Env.calm Geom.page4096 (some 2)).returns id
      (branchSt [10] [[5], [15]]) = true := by decide +kernel
  obtain ⟨ok, hrun, hok⟩ := ok_of_returns hret
  obtain rfl : ok = true := hok
  refine ⟨hret, (accepted_found_iff hcalm hrun (branchSt_kinds _ _) rfl rfl rfl rfl).mpr ?_⟩
  -- both leaves are on a way that the one separator allows
  have hleaf : ∀ {k j}, j ≤ 1 → Stored (branchSt [10] [[5], [15]]).pages k (3 + j) →
      Lined (branchSt [10] [[5], [15]]).pages k (3 + j) := by
    intro k j hj h
    cases h with
    | leaf ht hk => exact .leaf ht hk
    | kid ht _ _ =>
      rcases Nat.le_one_iff_eq_zero_or_eq_one.mp hj with rfl | rfl
      · cases ht
      · cases ht
  intro k h
  cases h with
  | leaf ht _ => cases ht
  | @kid _ j ht hj h =>
    have hj1 : j ≤ 1 := hj
    refine .kid ht hj ⟨fun i hpos hi => absurd hi (by omega), fun hlt => .inl ?_⟩ (hleaf hj1 h)
    obtain rfl : j = 0 := Nat.lt_one_iff.mp hlt
    decide

/-- Separators in the wrong order are accepted: the key `15` is in the third leaf, within its bounds,
and the search goes to the first one. -/
theorem accepted_not_found :
    (edBptVerify Env.calm Geom.page4096 (some 2)).returns id (branchSt [20, 10] [[], [], [15]]) = true
      ∧
    BranchesAndLeaves (branchSt [20, 10] [[], [], [15]]).pages 2 ∧
    Stored (branchSt [20, 10] [[], [], [15]]).pages 15 2 ∧
    (edBptFind Env.calm Geom.page4096 .keys 15).returns (fun res => res.1 == 0)
      (branchSt [20, 10] [[], [], [15]]) = true := by
  refine ⟨by decide +kernel, branchSt_kinds _ _, ?_, by decide +kernel⟩
  exact .kid (j := 2) rfl (by decide) (.leaf rfl ⟨0, by decide, by decide⟩)

end Eddy
