import Eddy.Index.Modify
import Eddy.Lib.SearchTree

/-!
# Eddy — the lists a tree page stands for

A branch with `nkeys` separators has `nkeys + 1` children; a leaf has `nkeys` entries. The block
copies of `bpt.c` are read here as operations on these lists, one lemma for each shape of page
that an operation leaves behind: a clone (`seps_of_copy`), one child replaced (`kids_of_link`) or
replaced by two (`kids_of_expand`), the halves of a split branch (`kids_of_take`, `kids_of_drop`), and a
change in a leaf (`ents_of_insert`).
-/

namespace Eddy

open Outcome Slots

variable {E : Type}

/-- The children of a branch. -/
def EdBpt.kids (b : EdBpt E) : List Nat := slots b.ptr (b.nkeys + 1)

/-- The separators of a branch. -/
def EdBpt.seps (b : EdBpt E) : List Nat := slots (fun j => b.key (j + 1)) b.nkeys

/-- The entries of a leaf. -/
def EdBpt.ents (b : EdBpt E) : List E := slots b.ent b.nkeys

/-- How the trees of the index are laid out in pages. -/
def layout : PageTree.Layout Nat (EdBpt E) := ⟨EdBpt.kids, EdBpt.seps⟩

@[simp] theorem layout_kids : (layout (E := E)).kids = EdBpt.kids := rfl

@[simp] theorem layout_seps : (layout (E := E)).seps = EdBpt.seps := rfl

/-- A branch that the functions of `bpt.c` leave behind. -/
structure BranchOk (g : Geom) (b : EdBpt E) : Prop where
  type : b.type = .branch
  pos : 1 ≤ b.nkeys
  lt : b.nkeys < g.branchOrder

section Branch

variable {b b' : EdBpt E} {i : Nat}

@[simp] theorem length_kids : b.kids.length = b.nkeys + 1 := by simp [EdBpt.kids]

@[simp] theorem length_seps : b.seps.length = b.nkeys := by simp [EdBpt.seps]

@[simp] theorem length_ents : b.ents.length = b.nkeys := by simp [EdBpt.ents]

theorem getElem?_kids (hi : i ≤ b.nkeys) : b.kids[i]? = some (b.ptr i) :=
  getElem?_slots _ (by omega)

theorem getElem?_seps (hi : i < b.nkeys) : b.seps[i]? = some (b.key (i + 1)) :=
  getElem?_slots _ hi

theorem getElem?_ents (hi : i < b.nkeys) : b.ents[i]? = some (b.ent i) :=
  getElem?_slots _ hi

theorem seps_of_copy (hn : b'.nkeys = b.nkeys)
    (h : ∀ j, 1 ≤ j → j ≤ b.nkeys → b'.key j = b.key j) : b'.seps = b.seps := by
  unfold EdBpt.seps
  rw [hn]
  exact slots_congr fun j hj => h (j + 1) (by omega) (by omega)

theorem kids_of_link {p : Nat} (hn : b'.nkeys = b.nkeys) (hi : i ≤ b.nkeys) (hp : b'.ptr i = p)
    (h : ∀ j, j ≤ b.nkeys → j ≠ i → b'.ptr j = b.ptr j) :
    b'.kids = b.kids.take i ++ [p] ++ b.kids.drop (i + 1) := by
  have := slots_splice b.ptr b'.ptr [p] (n := b.nkeys + 1) (i := i) (m := 1) (by omega)
    (fun j hj => h j (by omega) (by omega))
    (fun j hj => by
      have : j = 0 := by simpa using hj
      simp [this, hp])
    (fun j hj hj' => by
      rw [List.length_singleton, Nat.sub_add_cancel (show 1 ≤ j by omega)]
      exact h j (by omega) (by omega))
  unfold EdBpt.kids
  rw [hn]
  simpa using this

theorem kids_of_expand {l r : Nat} (hn : b'.nkeys = b.nkeys + 1) (hi : i ≤ b.nkeys)
    (hfront : ∀ j, j < i → b'.ptr j = b.ptr j) (hl : b'.ptr i = l) (hr : b'.ptr (i + 1) = r)
    (hback : ∀ j, i < j → j ≤ b.nkeys → b'.ptr (j + 1) = b.ptr j) :
    b'.kids = b.kids.take i ++ [l, r] ++ b.kids.drop (i + 1) := by
  have := slots_splice b.ptr b'.ptr [l, r] (n := b.nkeys + 1) (i := i) (m := 1) (by omega)
    hfront
    (fun j hj => by
      have : j = 0 ∨ j = 1 := by simp at hj; omega
      rcases this with rfl | rfl
      · simp [hl]
      · simp [hr])
    (fun j hj hj' => by
      rw [show j - 1 + [l, r].length = j + 1 by simp; omega]
      exact hback j (by omega) (by omega))
  unfold EdBpt.kids
  rw [hn]
  simpa using this

theorem seps_of_expand {k : Nat} (hn : b'.nkeys = b.nkeys + 1) (hi : i ≤ b.nkeys)
    (hfront : ∀ j, 1 ≤ j → j ≤ i → b'.key j = b.key j) (hk : b'.key (i + 1) = k)
    (hback : ∀ j, i < j → j ≤ b.nkeys → b'.key (j + 1) = b.key j) :
    b'.seps = b.seps.take i ++ [k] ++ b.seps.drop i := by
  have := slots_splice (fun j => b.key (j + 1)) (fun j => b'.key (j + 1)) [k]
    (n := b.nkeys) (i := i) (m := 0) (by omega)
    (fun j hj => hfront (j + 1) (by omega) (by omega))
    (fun j hj => by
      have : j = 0 := by simpa using hj
      simp [this, hk])
    (fun j hj hj' => by simpa using hback (j + 1) (by omega) (by omega))
  unfold EdBpt.seps
  rw [hn]
  simpa using this

theorem kids_of_take {m : Nat} (hm : 1 ≤ m) (hn : b'.nkeys = m - 1) (hle : m ≤ b.nkeys + 1)
    (h : ∀ j, j < m → b'.ptr j = b.ptr j) : b'.kids = b.kids.take m := by
  unfold EdBpt.kids
  rw [take_slots _ hle, hn, Nat.sub_add_cancel hm]
  exact slots_congr h

theorem seps_of_take {m : Nat} (hn : b'.nkeys = m - 1) (hle : m ≤ b.nkeys + 1)
    (h : ∀ j, 1 ≤ j → j < m → b'.key j = b.key j) : b'.seps = b.seps.take (m - 1) := by
  unfold EdBpt.seps
  rw [take_slots _ (by omega), hn]
  exact slots_congr fun j hj => h (j + 1) (by omega) (by omega)

theorem kids_of_drop {m : Nat} (hn : b'.nkeys = b.nkeys - m) (hle : m ≤ b.nkeys)
    (h : ∀ j, m + j ≤ b.nkeys → b'.ptr j = b.ptr (m + j)) : b'.kids = b.kids.drop m := by
  unfold EdBpt.kids
  rw [drop_slots, hn, show b.nkeys + 1 - m = b.nkeys - m + 1 by omega]
  exact slots_congr fun j hj => h j (by omega)

theorem seps_of_drop {m : Nat} (hn : b'.nkeys = b.nkeys - m)
    (h : ∀ j, 1 ≤ j → m + j ≤ b.nkeys → b'.key j = b.key (m + j)) : b'.seps = b.seps.drop m := by
  unfold EdBpt.seps
  rw [drop_slots, hn]
  exact slots_congr fun j hj => by simpa [Nat.add_assoc] using h (j + 1) (by omega) (by omega)

end Branch

section Leaf

variable {b b' : EdBpt E} {i : Nat} {e : E}

theorem ents_of_copy (hn : b'.nkeys = b.nkeys) (h : ∀ j, j < b.nkeys → b'.ent j = b.ent j) :
    b'.ents = b.ents := by
  unfold EdBpt.ents
  rw [hn]
  exact slots_congr h

theorem ents_of_insert (hn : b'.nkeys = b.nkeys + 1) (hi : i ≤ b.nkeys)
    (hfront : ∀ j, j < i → b'.ent j = b.ent j) (he : b'.ent i = e)
    (hback : ∀ j, i ≤ j → j < b.nkeys → b'.ent (j + 1) = b.ent j) :
    b'.ents = b.ents.take i ++ [e] ++ b.ents.drop i := by
  have := slots_splice b.ent b'.ent [e] (n := b.nkeys) (i := i) (m := 0) (by omega) hfront
    (fun j hj => by
      have : j = 0 := by simpa using hj
      simp [this, he])
    (fun j hj hj' => by simpa using hback j (by omega) hj')
  unfold EdBpt.ents
  rw [hn]
  simpa using this

end Leaf

end Eddy
