import Mathlib.Data.List.Basic

/-!
# Loops over a buffer

A loop that consumes a buffer from its front, a fixed number of elements at a time. `Takes` says what
one turn does in terms of single elements, and the loops are then described by the same fold over
single elements, whatever the strides are.

* `strides`: as long as there are `n` elements;
* `steps`: a given number of times, one element each;
* `Takes.strides`, `Takes.steps`: what is left to do after the loop.
-/

namespace Strides

open List

variable {σ β : Type}

/-- The loop `while (len >= n) { step; p += n; len -= n; }`: the state and the rest of the buffer. -/
def strides (step : σ → List β → σ) (n : Nat) (s : σ) (bs : List β) : σ × List β :=
  if 0 < n ∧ n ≤ bs.length then strides step n (step s bs) (bs.drop n) else (s, bs)
termination_by bs.length
decreasing_by
  rw [length_drop]
  omega

/-- The loop that consumes one element `k` times. -/
def steps (step : σ → List β → σ) : Nat → σ → List β → σ × List β
  | 0, s, bs => (s, bs)
  | k + 1, s, bs => steps step k (step s bs) (bs.drop 1)

/-- One turn does for the first `n` elements what `f` does for them one by one. -/
def Takes (f : σ → β → σ) (n : Nat) (step : σ → List β → σ) : Prop :=
  ∀ s bs, n ≤ bs.length → step s bs = (bs.take n).foldl f s

variable {f : σ → β → σ} {n : Nat} {step : σ → List β → σ}

theorem Takes.foldl_drop (h : Takes f n step) {s : σ} {bs : List β} (hn : n ≤ bs.length) :
    (bs.drop n).foldl f (step s bs) = bs.foldl f s := by
  rw [h s bs hn, ← foldl_append, take_append_drop]

theorem Takes.append {m : Nat} {step' : σ → List β → σ} (h : Takes f m step)
    (h' : Takes f n step') : Takes f (m + n) fun s bs => step' (step s bs) (bs.drop m) := by
  intro s bs hlen
  have hrest : n ≤ (bs.drop m).length := by
    rw [length_drop]
    omega
  show step' (step s bs) (bs.drop m) = _
  rw [h' _ _ hrest, h s bs (Nat.le_of_add_right_le hlen), ← foldl_append, take_add]

theorem Takes.strides (h : Takes f n step) (hn : 0 < n) (s : σ) (bs : List β) :
    (strides step n s bs).2.foldl f (strides step n s bs).1 = bs.foldl f s ∧
      (strides step n s bs).2.length < n := by
  fun_induction Strides.strides step n s bs with
  | case1 s bs hlen ih =>
    obtain ⟨hfold, hlt⟩ := ih
    exact ⟨hfold.trans (h.foldl_drop hlen.2), hlt⟩
  | case2 s bs hlen => exact ⟨rfl, Nat.lt_of_not_le fun hle => hlen ⟨hn, hle⟩⟩

theorem Takes.steps (h : Takes f 1 step) {k : Nat} (s : σ) (bs : List β) (hk : k ≤ bs.length) :
    (steps step k s bs).2.foldl f (steps step k s bs).1 = bs.foldl f s := by
  induction k generalizing s bs with
  | zero => rfl
  | succ k ih =>
    have hrest : k ≤ (bs.drop 1).length := by
      rw [length_drop]
      omega
    rw [Strides.steps, ih _ _ hrest, h.foldl_drop (Nat.le_trans (Nat.le_add_left 1 k) hk)]

end Strides
