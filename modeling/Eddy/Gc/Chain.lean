import Eddy.Gc.Lists
import Mathlib.Data.List.Nodup

/-!
# Eddy — the chain of GC pages, as lists of free pages

What the chain is for, apart from its bytes: a row of GC pages, each with lists of free pages. The
allocator takes free pages from the front (`reuse`): pages of lists that no transaction can still
see, and GC pages without lists, but never the last GC page.
-/

namespace Eddy.Gc

open Outcome Packed List

/-- A GC page and the lists that are left on it. -/
structure GcNode where
  no : Nat
  lists : List GcList
  deriving DecidableEq, Repr

/-- The pages of lists, each with the transaction that freed it. -/
def freeIn (ls : List GcList) : List (Nat × Nat) := ls.flatMap fun l => l.pages.map (l.xid, ·)

/-- The free pages of the chain, in the order of the chain. -/
def entries (c : List GcNode) : List (Nat × Nat) := c.flatMap fun n => freeIn n.lists

/-- The pages of the chain: the GC pages and the free pages. -/
def chainPages (c : List GcNode) : List Nat := c.map GcNode.no ++ (entries c).map Prod.snd

@[simp] theorem freeIn_nil : freeIn [] = [] := rfl

@[simp] theorem freeIn_cons (l : GcList) (ls : List GcList) :
    freeIn (l :: ls) = l.pages.map (l.xid, ·) ++ freeIn ls := rfl

@[simp] theorem freeIn_append (ls ls' : List GcList) : freeIn (ls ++ ls') = freeIn ls ++ freeIn ls' :=
  flatMap_append

@[simp] theorem entries_nil : entries [] = [] := rfl

@[simp] theorem entries_cons (n : GcNode) (c : List GcNode) :
    entries (n :: c) = freeIn n.lists ++ entries c := rfl

@[simp] theorem entries_append (c c' : List GcNode) : entries (c ++ c') = entries c ++ entries c' :=
  flatMap_append

/-! ## Reusing pages -/

/-- Whether a transaction may still see the pages of a list. -/
def GcList.Seen (xmin : Nat) (l : GcList) : Prop := 0 < l.xid ∧ xmin ≤ l.xid

instance (xmin : Nat) (l : GcList) : Decidable (l.Seen xmin) :=
  inferInstanceAs (Decidable (_ ∧ _))

/-- Up to `n` pages of the lists of one GC page, and the lists that are left. -/
def reuseLists (xmin : Nat) : Nat → List GcList → List (Nat × Nat) × List GcList
  | _, [] => ([], [])
  | n, l :: ls =>
    if l.Seen xmin then ([], l :: ls)
    else if n < l.pages.length then
      ((l.pages.take n).map (l.xid, ·), ⟨l.xid, l.pages.drop n⟩ :: ls)
    else
      let r := reuseLists xmin (n - l.pages.length) ls
      (l.pages.map (l.xid, ·) ++ r.1, r.2)

/-- What is taken from a chain: the GC pages, the free pages, and the chain that is left. -/
structure Reuse where
  nodes : List Nat
  taken : List (Nat × Nat)
  rest : List GcNode
  deriving Repr

/-- Up to `n` pages of a chain. A GC page that follows a recycled one and has no lists ends the
search. -/
def reuse (xmin : Nat) : Nat → List GcNode → Reuse
  | _, [] => ⟨[], [], []⟩
  | n, [t] => ⟨[], (reuseLists xmin n t.lists).1, [⟨t.no, (reuseLists xmin n t.lists).2⟩]⟩
  | n, p :: q :: c =>
    let r := reuseLists xmin n p.lists
    if r.2 ≠ [] ∨ n ≤ r.1.length then ⟨[], r.1, ⟨p.no, r.2⟩ :: q :: c⟩
    else if q.lists = [] then ⟨[p.no], r.1, q :: c⟩
    else
      let r' := reuse xmin (n - r.1.length - 1) (q :: c)
      ⟨p.no :: r'.nodes, r.1 ++ r'.taken, r'.rest⟩

/-- How many pages are reused. -/
def Reuse.count (r : Reuse) : Nat := r.taken.length + r.nodes.length

variable {xmin n no : Nat} {l : GcList} {ls : List GcList} {c : List GcNode}

theorem reuseLists_spec (xmin n : Nat) (ls : List GcList) :
    freeIn ls = (reuseLists xmin n ls).1 ++ freeIn (reuseLists xmin n ls).2 ∧
      (∀ e ∈ (reuseLists xmin n ls).1, e.1 = 0 ∨ e.1 < xmin) ∧
      (reuseLists xmin n ls).1.length ≤ n := by
  induction ls generalizing n with
  | nil => exact ⟨rfl, nofun, Nat.zero_le n⟩
  | cons l ls ih =>
    rw [reuseLists]
    by_cases hseen : l.Seen xmin
    · rw [if_pos hseen]
      exact ⟨rfl, nofun, Nat.zero_le n⟩
    · have hxid : l.xid = 0 ∨ l.xid < xmin := by
        unfold GcList.Seen at hseen
        omega
      rw [if_neg hseen]
      by_cases hn : n < l.pages.length
      · rw [if_pos hn]
        refine ⟨?_, ?_, ?_⟩
        · rw [freeIn_cons, freeIn_cons, ← append_assoc, ← map_append,
            take_append_drop]
        · intro e he
          obtain ⟨p, -, rfl⟩ := mem_map.mp he
          exact hxid
        · rw [length_map]
          exact length_take_le _ _
      · rw [if_neg hn]
        obtain ⟨h1, h2, h3⟩ := ih (n - l.pages.length)
        refine ⟨?_, ?_, ?_⟩
        · show l.pages.map (l.xid, ·) ++ freeIn ls = (l.pages.map (l.xid, ·) ++ _) ++ _
          rw [append_assoc, ← h1]
        · intro e he
          rcases mem_append.mp he with he | he
          · obtain ⟨p, -, rfl⟩ := mem_map.mp he
            exact hxid
          · exact h2 e he
        · rw [length_append, length_map]
          omega

/-- What `reuse` does to a chain. -/
structure ReuseOk (xmin n : Nat) (c : List GcNode) (r : Reuse) : Prop where
  entries : entries c = r.taken ++ entries r.rest
  nodes : c.map GcNode.no = r.nodes ++ r.rest.map GcNode.no
  unseen : ∀ e ∈ r.taken, e.1 = 0 ∨ e.1 < xmin
  count : r.count ≤ n
  rest : r.rest ≠ []
  used : Gc.entries (c.take r.nodes.length) <+: r.taken

/-- The pages taken are the first ones of the chain, no transaction sees them, and the recycled GC
pages are used up. The last GC page stays. -/
theorem reuse_ok (xmin n : Nat) (hc : c ≠ []) : ReuseOk xmin n c (reuse xmin n c) := by
  induction c generalizing n with
  | nil => exact absurd rfl hc
  | cons p c ih =>
    obtain ⟨h1, h2, h3⟩ := reuseLists_spec xmin n p.lists
    obtain ⟨R, hR⟩ : ∃ R, R = reuseLists xmin n p.lists := ⟨_, rfl⟩
    rw [← hR] at h1 h2 h3
    cases c with
    | nil =>
      rw [reuse, ← hR]
      refine ⟨?_, rfl, h2, h3, cons_ne_nil _ _, List.nil_prefix⟩
      show entries [p] = R.1 ++ entries [⟨p.no, R.2⟩]
      simp only [entries_cons, entries_nil, append_nil]
      exact h1
    | cons q c =>
      rw [reuse, ← hR]
      by_cases hstop : R.2 ≠ [] ∨ n ≤ R.1.length
      · rw [if_pos hstop]
        refine ⟨?_, rfl, h2, h3, cons_ne_nil _ _, List.nil_prefix⟩
        show entries (p :: q :: c) = R.1 ++ entries (⟨p.no, R.2⟩ :: q :: c)
        rw [entries_cons p, h1, append_assoc]
        rfl
      · rw [if_neg hstop]
        have hnil : R.2 = [] := by
          by_contra hne
          exact hstop (.inl hne)
        have hlt : R.1.length < n := by omega
        rw [hnil, freeIn_nil, append_nil] at h1
        by_cases hq : q.lists = []
        · rw [if_pos hq]
          refine ⟨?_, rfl, h2, hlt, cons_ne_nil _ _, ?_⟩
          · show entries (p :: q :: c) = R.1 ++ entries (q :: c)
            rw [entries_cons p, h1]
          · show entries [p] <+: R.1
            refine ⟨[], ?_⟩
            rw [append_nil, entries_cons, entries_nil, append_nil, h1]
        · rw [if_neg hq]
          have hr := ih (n - R.1.length - 1) (cons_ne_nil q c)
          refine ⟨?_, ?_, ?_, ?_, hr.rest, ?_⟩
          · show entries (p :: q :: c) = (R.1 ++ _) ++ _
            rw [entries_cons p, h1, hr.entries, append_assoc]
          · show p.no :: (q :: c).map GcNode.no = _
            rw [hr.nodes]
            rfl
          · intro e he
            rcases mem_append.mp he with he | he
            · exact h2 e he
            · exact hr.unseen e he
          · have hcount := hr.count
            unfold Reuse.count at hcount ⊢
            simp only [length_append, length_cons]
            omega
          · show entries (p :: (q :: c).take _) <+: R.1 ++ _
            rw [entries_cons p, h1]
            exact (prefix_append_right_inj R.1).mpr hr.used

theorem ReuseOk.perm {r : Reuse} (h : ReuseOk xmin n c r) :
    (chainPages c).Perm (r.nodes ++ r.taken.map Prod.snd ++ chainPages r.rest) := by
  rw [chainPages, chainPages, h.entries, h.nodes, map_append, append_assoc,
    append_assoc]
  refine List.Perm.append_left _ ?_
  rw [← append_assoc, ← append_assoc]
  exact perm_append_comm.append_right _

theorem reuse_cons_list (hseen : ¬ l.Seen xmin) (hn : l.pages.length ≤ n) :
    reuse xmin n (⟨no, l :: ls⟩ :: c) =
      let r := reuse xmin (n - l.pages.length) (⟨no, ls⟩ :: c)
      ⟨r.nodes, l.pages.map (l.xid, ·) ++ r.taken, r.rest⟩ := by
  have hlists : reuseLists xmin n (l :: ls) =
      (l.pages.map (l.xid, ·) ++ (reuseLists xmin (n - l.pages.length) ls).1,
        (reuseLists xmin (n - l.pages.length) ls).2) := by
    rw [reuseLists, if_neg hseen, if_neg (by omega)]
  cases c with
  | nil => simp only [reuse, hlists]
  | cons q c =>
    simp only [reuse, hlists, length_append, length_map]
    -- The same pages are missing on both sides.
    have hle : n ≤ l.pages.length + (reuseLists xmin (n - l.pages.length) ls).1.length ↔
        n - l.pages.length ≤ (reuseLists xmin (n - l.pages.length) ls).1.length := by omega
    simp only [hle, Nat.sub_add_eq]
    split
    · rfl
    · split
      · rfl
      · simp only [append_assoc]

theorem reuse_cons_stop {r : List (Nat × Nat) × List GcList} (hr : reuseLists xmin n ls = r)
    (hne : r.2 ≠ []) : reuse xmin n (⟨no, ls⟩ :: c) = ⟨[], r.1, ⟨no, r.2⟩ :: c⟩ := by
  subst hr
  cases c with
  | nil => rfl
  | cons q c => rw [reuse, if_pos (.inl hne)]

theorem reuse_zero (hls : ∀ l ∈ ls, l.pages ≠ []) :
    reuse xmin 0 (⟨no, ls⟩ :: c) = ⟨[], [], ⟨no, ls⟩ :: c⟩ := by
  have hlists : reuseLists xmin 0 ls = ([], ls) := by
    cases ls with
    | nil => rfl
    | cons l ls =>
      have hpos : 0 < l.pages.length := length_pos_of_ne_nil (hls l mem_cons_self)
      rw [reuseLists]
      by_cases hseen : l.Seen xmin
      · rw [if_pos hseen]
      · rw [if_neg hseen, if_pos hpos]
        rfl
  cases c with
  | nil => simp only [reuse, hlists]
  | cons q c =>
    rw [reuse, hlists, if_pos (.inr (Nat.zero_le _))]

theorem reuse_recycle {q : GcNode} (hn : 0 < n) (hq : q.lists ≠ []) :
    reuse xmin n (⟨no, []⟩ :: q :: c) = ⟨no :: (reuse xmin (n - 1) (q :: c)).nodes,
      (reuse xmin (n - 1) (q :: c)).taken, (reuse xmin (n - 1) (q :: c)).rest⟩ := by
  have hstop : ¬ (([] : List GcList) ≠ [] ∨ n ≤ 0) := by simp; omega
  rw [reuse, reuseLists]
  simp only [length_nil]
  rw [if_neg hstop, if_neg hq]
  rfl

theorem reuse_recycle_stop {q : GcNode} (hn : 0 < n) (hq : q.lists = []) :
    reuse xmin n (⟨no, []⟩ :: q :: c) = ⟨[no], [], q :: c⟩ := by
  have hstop : ¬ (([] : List GcList) ≠ [] ∨ n ≤ 0) := by simp; omega
  rw [reuse, reuseLists]
  simp only [length_nil]
  rw [if_neg hstop, if_pos hq]

/-! ## The chain in the pages -/

/-- The GC pages up to the page `t` hold the lists of the chain, and each leads to the next one. -/
def Chained (pages : Nat → EdPgGc) (t : Nat) : List GcNode → Prop
  | [] => False
  | [n] => n.no = t ∧ Holds (pages n.no) n.lists
  | n :: q :: c => n.no ≠ t ∧ Holds (pages n.no) n.lists ∧ (pages n.no).next = some q.no ∧
      Chained pages t (q :: c)

variable {pages pages' : Nat → EdPgGc} {t : Nat}

theorem Chained.ne_nil (h : Chained pages t c) : c ≠ [] := by
  rintro rfl
  exact h

theorem Chained.holds (h : Chained pages t c) {n : GcNode} (hn : n ∈ c) :
    Holds (pages n.no) n.lists := by
  induction c with
  | nil => cases hn
  | cons p c ih =>
    cases c with
    | nil =>
      rw [mem_singleton.mp hn]
      exact h.2
    | cons q c =>
      rcases mem_cons.mp hn with rfl | hn
      · exact h.2.1
      · exact ih h.2.2.2 hn

theorem Chained.congr (h : Chained pages t c) (heq : ∀ n ∈ c, pages' n.no = pages n.no) :
    Chained pages' t c := by
  induction c with
  | nil => exact h
  | cons p c ih =>
    have hp := heq p mem_cons_self
    cases c with
    | nil => exact ⟨h.1, hp ▸ h.2⟩
    | cons q c =>
      refine ⟨h.1, hp ▸ h.2.1, hp ▸ h.2.2.1, ih h.2.2.2 fun n hn => heq n ?_⟩
      exact mem_cons_of_mem _ hn

/-- Behind the GC page `p` the chain goes on with the GC pages `c`. -/
def Follows (pages : Nat → EdPgGc) (t p : Nat) : List GcNode → Prop
  | [] => p = t
  | q :: c => p ≠ t ∧ (pages p).next = some q.no ∧ Chained pages t (q :: c)

theorem chained_cons_iff {n : GcNode} : Chained pages t (n :: c) ↔
    Holds (pages n.no) n.lists ∧ Follows pages t n.no c := by
  cases c with
  | nil => exact and_comm
  | cons q c => exact ⟨fun ⟨h1, h2, h3⟩ => ⟨h2, h1, h3⟩, fun ⟨h2, h1, h3⟩ => ⟨h1, h2, h3⟩⟩

theorem Follows.congr {p : Nat} (h : Follows pages t p c) (hp : (pages' p).next = (pages p).next)
    (heq : ∀ q ∈ c, pages' q.no = pages q.no) : Follows pages' t p c := by
  cases c with
  | nil => exact h
  | cons q c => exact ⟨h.1, hp.trans h.2.1, h.2.2.congr heq⟩

/-- A state of the allocator and the chain it has. -/
structure Rep (s : GcSt) (c : List GcNode) : Prop where
  chained : ∃ t, s.gcTail = some t ∧ Chained s.pages t c
  head : s.gcHead = c.head?.map GcNode.no
  nodup : (chainPages c).Nodup
  below : ∀ p ∈ chainPages c, p < s.tailStart
  tail : s.tailStart + s.tailCount < 2 ^ 32
  file : s.tailStart + s.tailCount ≤ s.file

theorem rep_created (maxConns : Nat) : Rep (GcSt.created (createIdx maxConns)) [⟨pgRootGc, []⟩] := by
  have hconns : openNconns maxConns ≤ 512 := by
    unfold openNconns defaultNconns
    split
    · decide
    · split <;> omega
  have hpages : 1 ≤ edIdxPages (openNconns maxConns) ∧ edIdxPages (openNconns maxConns) ≤ 64 := by
    unfold edIdxPages edCountSize connsOffset connSize pageSize
    omega
  have hstart : (GcSt.created (createIdx maxConns)).tailStart = edIdxPages (openNconns maxConns) + 1 :=
    rfl
  have hcount : (GcSt.created (createIdx maxConns)).tailCount = 16 := rfl
  refine ⟨⟨pgRootGc, rfl, rfl, holds_zero⟩, rfl, nodup_singleton _, fun p hp => ?_, ?_,
    Nat.le_refl _⟩
  · rw [mem_singleton.mp hp, hstart]
    show 1 < _
    omega
  · rw [hstart, hcount]
    omega

end Eddy.Gc
