import Mathlib.Data.List.Basic
import Mathlib.Order.Nat

/-!
# Separator chains

`Fence A lo ks cs hi`: the separators `ks` cut the half-open range `[lo, hi)` into one range for
each of the children `cs`, strictly increasing, and every child satisfies `A` on its range.

A chain with one child taken out is a left part `Before` and a right part `After` around a hole.
`Fence.hole` opens a chain at a child, `Fence.fill` closes it again with any chain over the range
of the hole, and `fence_append` cuts a chain in two.
-/

namespace Fencing

open List

variable {P : Type} {ks' : List Nat} {cs' : List P}

/-- The separators `ks` fence in the children `cs` over the range `[lo, hi)`. -/
def Fence (A : Nat → Nat → P → Prop) : Nat → List Nat → List P → Nat → Prop
  | lo, [], [c], hi => lo < hi ∧ A lo hi c
  | lo, k :: ks, c :: cs, hi => lo < k ∧ A lo k c ∧ Fence A k ks cs hi
  | _, _, _, _ => False

/-- The part of a chain before a hole that starts at `a`. -/
def Before (A : Nat → Nat → P → Prop) : Nat → List Nat → List P → Nat → Prop
  | lo, [], [], a => lo = a
  | lo, k :: ks, c :: cs, a => lo < k ∧ A lo k c ∧ Before A k ks cs a
  | _, _, _, _ => False

/-- The part of a chain after a hole that ends at `b`. -/
def After (A : Nat → Nat → P → Prop) : Nat → List Nat → List P → Nat → Prop
  | b, [], [], hi => b = hi
  | b, k :: ks, cs, hi => b = k ∧ Fence A k ks cs hi
  | _, _, _, _ => False

variable {A B : Nat → Nat → P → Prop} {lo hi a b : Nat} {ks : List Nat} {cs : List P}

theorem Fence.lt (h : Fence A lo ks cs hi) : lo < hi := by
  induction ks generalizing lo cs with
  | nil =>
    match cs, h with
    | [_], h => exact h.1
  | cons k ks ih =>
    match cs, h with
    | _ :: _, h => exact lt_trans h.1 (ih h.2.2)

theorem Fence.length (h : Fence A lo ks cs hi) : cs.length = ks.length + 1 := by
  induction ks generalizing lo cs with
  | nil =>
    match cs, h with
    | [_], _ => rfl
  | cons k ks ih =>
    match cs, h with
    | _ :: _, h => simp [ih h.2.2]

theorem Fence.mono (h : Fence A lo ks cs hi) (hAB : ∀ c ∈ cs, ∀ x y, A x y c → B x y c) :
    Fence B lo ks cs hi := by
  induction ks generalizing lo cs with
  | nil =>
    match cs, h with
    | [c], h => exact ⟨h.1, hAB c (by simp) _ _ h.2⟩
  | cons k ks ih =>
    match cs, h with
    | c :: cs, h =>
      exact ⟨h.1, hAB c (by simp) _ _ h.2.1, ih h.2.2 fun c' hc' => hAB c' (by simp [hc'])⟩

theorem Before.mono (h : Before A lo ks cs a) (hAB : ∀ c ∈ cs, ∀ x y, A x y c → B x y c) :
    Before B lo ks cs a := by
  induction ks generalizing lo cs with
  | nil =>
    match cs, h with
    | [], h => exact h
  | cons k ks ih =>
    match cs, h with
    | c :: cs, h =>
      exact ⟨h.1, hAB c (by simp) _ _ h.2.1, ih h.2.2 fun c' hc' => hAB c' (by simp [hc'])⟩

theorem After.mono (h : After A b ks cs hi) (hAB : ∀ c ∈ cs, ∀ x y, A x y c → B x y c) :
    After B b ks cs hi := by
  match ks, cs, h with
  | [], [], h => exact h
  | k :: ks, cs, h => exact ⟨h.1, h.2.mono hAB⟩

theorem Before.length (h : Before A lo ks cs a) : cs.length = ks.length := by
  induction ks generalizing lo cs with
  | nil =>
    match cs, h with
    | [], _ => rfl
  | cons k ks ih =>
    match cs, h with
    | _ :: _, h => simp [ih h.2.2]

theorem Before.eq_getLastD (h : Before A lo ks cs a) : a = ks.getLastD lo := by
  induction ks generalizing lo cs with
  | nil =>
    match cs, h with
    | [], h => exact h.symm
  | cons k ks ih =>
    match cs, h with
    | _ :: _, h => rw [ih h.2.2, getLastD_cons]

theorem Before.mem (h : Before A lo ks cs a) : a = lo ∨ a ∈ ks := by
  rw [h.eq_getLastD]
  cases ks with
  | nil => exact .inl rfl
  | cons k ks =>
    rw [getLastD_cons, getLastD_eq_getLast?]
    cases h' : ks.getLast? with
    | none => exact .inr (by simp)
    | some x => exact .inr (mem_cons_of_mem _ (mem_of_getLast? h'))

theorem After.eq_headD (h : After A b ks cs hi) : b = ks.headD hi := by
  match ks, cs, h with
  | [], [], h => exact h
  | k :: ks, cs, h => exact h.1

theorem After.mem (h : After A b ks cs hi) : b = hi ∨ b ∈ ks := by
  match ks, cs, h with
  | [], [], h => exact .inl h
  | k :: ks, cs, h => exact .inr (by simp [h.1])

theorem Before.raise {k : Nat} (h : Before A lo ks cs a) (hne : ks ≠ []) (hak : a ≤ k)
    (hA : ∀ c ∈ cs, ∀ x, A x a c → A x k c) : Before A lo (ks.dropLast ++ [k]) cs k := by
  induction ks generalizing lo cs with
  | nil => exact absurd rfl hne
  | cons k' ks ih =>
    match cs, h with
    | c :: cs, ⟨h1, h2, h3⟩ =>
      cases ks with
      | nil =>
        match cs, h3 with
        | [], h3 =>
          subst h3
          exact ⟨h1.trans_le hak, hA c (by simp) lo h2, rfl⟩
      | cons k'' ks =>
        rw [dropLast_cons_cons, cons_append]
        exact ⟨h1, h2, ih h3 (by simp) fun c' hc' => hA c' (by simp [hc'])⟩

theorem Before.le (h : Before A lo ks cs a) : lo ≤ a ∧ ∀ k ∈ ks, lo < k ∧ k ≤ a := by
  induction ks generalizing lo cs with
  | nil =>
    match cs, h with
    | [], h => exact ⟨le_of_eq h, by simp⟩
  | cons k ks ih =>
    match cs, h with
    | _ :: _, h =>
      obtain ⟨h1, h2⟩ := ih h.2.2
      have hk := h.1
      refine ⟨by omega, fun k' hk' => ?_⟩
      rcases mem_cons.mp hk' with rfl | hmem
      · exact ⟨hk, h1⟩
      · have := h2 k' hmem
        omega

theorem Fence.keys (h : Fence A lo ks cs hi) : ∀ k ∈ ks, lo < k ∧ k < hi := by
  induction ks generalizing lo cs with
  | nil => simp
  | cons k ks ih =>
    match cs, h with
    | _ :: _, h =>
      intro k' hk'
      rcases mem_cons.mp hk' with rfl | hmem
      · exact ⟨h.1, h.2.2.lt⟩
      · have := ih h.2.2 k' hmem
        have hk := h.1
        omega

theorem After.ge (h : After A b ks cs hi) : b ≤ hi ∧ ∀ k ∈ ks, b ≤ k ∧ k < hi := by
  match ks, cs, h with
  | [], [], h => exact ⟨le_of_eq h, by simp⟩
  | k :: ks, cs, ⟨hb, h⟩ =>
    have hlt := h.lt
    refine ⟨by omega, fun k' hk' => ?_⟩
    rcases mem_cons.mp hk' with rfl | hmem
    · exact ⟨le_of_eq hb, hlt⟩
    · have := h.keys k' hmem
      omega

theorem Before.child (h : Before A lo ks cs a) : ∀ c ∈ cs, ∃ x y, A x y c ∧ y ≤ a := by
  induction ks generalizing lo cs with
  | nil =>
    match cs, h with
    | [], _ => simp
  | cons k ks ih =>
    match cs, h with
    | c :: cs, ⟨_, hc, hrest⟩ =>
      intro c' hc'
      rcases mem_cons.mp hc' with rfl | hmem
      · exact ⟨lo, k, hc, hrest.le.1⟩
      · exact ih hrest c' hmem

theorem Fence.child (h : Fence A lo ks cs hi) : ∀ c ∈ cs, ∃ x y, A x y c ∧ lo ≤ x := by
  induction ks generalizing lo cs with
  | nil =>
    match cs, h with
    | [c], ⟨_, hc⟩ =>
      intro c' hc'
      rw [mem_singleton.mp hc']
      exact ⟨lo, hi, hc, le_rfl⟩
  | cons k ks ih =>
    match cs, h with
    | c :: cs, ⟨hlt, hc, hrest⟩ =>
      intro c' hc'
      rcases mem_cons.mp hc' with rfl | hmem
      · exact ⟨lo, k, hc, le_rfl⟩
      · obtain ⟨x, y, hA, hx⟩ := ih hrest c' hmem
        exact ⟨x, y, hA, hlt.le.trans hx⟩

theorem After.child (h : After A b ks cs hi) : ∀ c ∈ cs, ∃ x y, A x y c ∧ b ≤ x := by
  match ks, cs, h with
  | [], [], _ => simp
  | k :: ks, cs, ⟨hb, h⟩ =>
    subst hb
    exact h.child

theorem Fence.pairwise (h : Fence A lo ks cs hi) : ks.Pairwise (· < ·) := by
  induction ks generalizing lo cs with
  | nil => exact List.Pairwise.nil
  | cons k ks ih =>
    match cs, h with
    | _ :: _, h => exact pairwise_cons.mpr ⟨fun k' hk' => (h.2.2.keys k' hk').1, ih h.2.2⟩

theorem fence_cons {c : P} : Fence A a ks (c :: cs) hi ↔ ∃ b, a < b ∧ A a b c ∧ After A b ks cs hi := by
  match ks, cs with
  | [], [] =>
    simp only [Fence, After]
    exact ⟨fun h => ⟨hi, h.1, h.2, rfl⟩, fun ⟨b, h1, h2, h3⟩ => h3 ▸ ⟨h1, h2⟩⟩
  | [], _ :: _ => simp [Fence, After]
  | k :: ks, cs =>
    simp only [Fence, After]
    exact ⟨fun h => ⟨k, h.1, h.2.1, rfl, h.2.2⟩,
      fun ⟨b, h1, h2, h3, h4⟩ => h3 ▸ ⟨h1, h2, h3 ▸ h4⟩⟩

theorem before_append (hl : cs.length = ks.length) :
    Fence A lo (ks ++ ks') (cs ++ cs') hi ↔ ∃ a, Before A lo ks cs a ∧ Fence A a ks' cs' hi := by
  induction ks generalizing lo cs with
  | nil =>
    match cs, hl with
    | [], _ => simp [Before]
  | cons k ks ih =>
    match cs, hl with
    | c :: cs, hl =>
      simp only [cons_append, Fence, Before]
      rw [ih (by simpa using hl)]
      exact ⟨fun ⟨h1, h2, a, h3, h4⟩ => ⟨a, ⟨h1, h2, h3⟩, h4⟩,
        fun ⟨a, ⟨h1, h2, h3⟩, h4⟩ => ⟨h1, h2, a, h3, h4⟩⟩

theorem fence_append {k : Nat} (hl : cs.length = ks.length + 1) :
    Fence A lo (ks ++ k :: ks') (cs ++ cs') hi ↔ Fence A lo ks cs k ∧ Fence A k ks' cs' hi := by
  induction ks generalizing lo cs with
  | nil =>
    match cs, hl with
    | [c], _ => simp [Fence, and_assoc]
  | cons k' ks ih =>
    match cs, hl with
    | c :: cs, hl =>
      simp only [cons_append, Fence]
      rw [ih (by simpa using hl)]
      simp only [and_assoc]

theorem Fence.append_after (h : Fence A a ks cs b) (h' : After A b ks' cs' hi) :
    Fence A a (ks ++ ks') (cs ++ cs') hi := by
  match ks', cs', h' with
  | [], [], h' =>
    rw [append_nil, append_nil]
    exact h' ▸ h
  | k :: ks', cs', ⟨hb, h'⟩ => exact (fence_append h.length).mpr ⟨hb ▸ h, h'⟩

theorem Fence.hole {i : Nat} {c : P} (h : Fence A lo ks cs hi) (hc : cs[i]? = some c) :
    ∃ a b, a < b ∧ A a b c ∧ Before A lo (ks.take i) (cs.take i) a ∧
      After A b (ks.drop i) (cs.drop (i + 1)) hi := by
  obtain ⟨hi', hci⟩ := List.getElem?_eq_some_iff.mp hc
  have hlen := h.length
  have h1 : Fence A lo (ks.take i ++ ks.drop i) (cs.take i ++ c :: cs.drop (i + 1)) hi := by
    rw [take_append_drop, ← hci, ← drop_eq_getElem_cons hi', take_append_drop]
    exact h
  obtain ⟨a, hbef, hrest⟩ := (before_append (by simp; omega)).mp h1
  obtain ⟨b, hab, hA, haft⟩ := fence_cons.mp hrest
  exact ⟨a, b, hab, hA, hbef, haft⟩

theorem Fence.fill {ks1 ks2 : List Nat} {cs1 cs2 : List P} (hbef : Before A lo ks1 cs1 a)
    (h : Fence A a ks cs b) (haft : After A b ks2 cs2 hi) :
    Fence A lo (ks1 ++ ks ++ ks2) (cs1 ++ cs ++ cs2) hi := by
  rw [append_assoc, append_assoc]
  exact (before_append hbef.length).mpr ⟨a, hbef, h.append_after haft⟩

theorem Fence.flatMap {f : P → List Nat}
    (hf : ∀ c ∈ cs, ∀ x y, A x y c → (f c).Pairwise (· ≤ ·) ∧ ∀ k ∈ f c, x ≤ k ∧ k < y)
    (h : Fence A lo ks cs hi) :
    (cs.flatMap f).Pairwise (· ≤ ·) ∧ ∀ k ∈ cs.flatMap f, lo ≤ k ∧ k < hi := by
  induction ks generalizing lo cs with
  | nil =>
    match cs, h with
    | [c], h => simpa using hf c (by simp) _ _ h.2
  | cons k ks ih =>
    match cs, h with
    | c :: cs, ⟨hlt, hA, h⟩ =>
      obtain ⟨hs, hb⟩ := hf c (by simp) _ _ hA
      obtain ⟨hs', hb'⟩ := ih (fun c' hc' => hf c' (by simp [hc'])) h
      have hk := h.lt
      refine ⟨?_, fun x hx => ?_⟩
      · rw [flatMap_cons, pairwise_append]
        refine ⟨hs, hs', fun x hx y hy => ?_⟩
        have h1 := hb x hx
        have h2 := hb' y hy
        omega
      · rw [flatMap_cons, mem_append] at hx
        rcases hx with hx | hx
        · have := hb x hx
          omega
        · have := hb' x hx
          omega

end Fencing
