import Eddy.Protocol.Moves

/-!
# Eddy — the two roots of a snapshot

A writer stores the roots of both trees with one store of `hdr->vtree`. A reader loads them one
after the other: `ed_idx_acquire_snapshot` loads `hdr->tree[0]`, maps the page, and then loads
`hdr->tree[1]`. A commit that falls between the two loads gives the reader the old keys tree and the
new blocks tree.
-/

namespace Eddy

open Runs List Function

variable {E : Type}

/-- The roots the process `i` has loaded are the roots that one commit published, or those of the
new index. -/
def OneCommit (σ : Shm E) (i : Nat) : Prop :=
  ∀ x keys blocks, σ.phase i = .snap x keys blocks →
    ∃ t ∈ σ.hist, t .keys = keys.no ∧ t .blocks = blocks.no

/-- No writer stores `hdr->vtree` while the process `i` has loaded one root and not the other. -/
def Undisturbed (i : Nat) (σ : Shm E) : Act E → Prop
  | .publish _ _ _ _ => ∀ x keys, σ.phase i ≠ .half x keys
  | _ => True

instance (i : Nat) (σ : Shm E) (a : Act E) : Decidable (Undisturbed i σ a) :=
  match a with
  | .publish .. => match h : σ.phase i with
    | .half x keys => isFalse fun hno => hno x keys h
    | .idle | .gotXid _ | .stored _ | .snap .. => isTrue fun _ _ e => by cases h.symm.trans e
  | .attach .. | .detach _ | .readXid _ | .storeXid .. | .loadKeys _ | .loadBlocks _ | .release ..
  | .lock _ | .take _ | .scanStart | .scanSlot _ | .allocFree .. | .allocTail _ | .recycle _
  | .write .. | .discard _ | .stampXid | .freeGc | .loseGc | .give .. | .drain _ | .lose _ | .unlock
  | .kill .. | .statNew .. | .repair _ => isTrue trivial

/-- What holds on the way: the published roots are in the history, and a root loaded first is still
the published one. -/
structure Loading (σ : Shm E) (i : Nat) : Prop where
  now : σ.tree ∈ σ.hist
  half : ∀ x keys, σ.phase i = .half x keys → keys.no = σ.tree .keys
  both : OneCommit σ i

namespace Loading

variable {σ σ' : Shm E} {i : Nat}

theorem keep (h : Loading σ i) (htree : σ'.tree = σ.tree) (hhist : σ'.hist = σ.hist)
    (hph : σ'.phase i = σ.phase i) : Loading σ' i where
  now := by rw [htree, hhist]; exact h.now
  half := by rw [htree, hph]; exact h.half
  both := by
    unfold OneCommit
    rw [hph, hhist]
    exact h.both

theorem setPhase (h : Loading σ i) (htree : σ'.tree = σ.tree) (hhist : σ'.hist = σ.hist) {j : Nat}
    {ph : Phase} (hph : σ'.phase = update σ.phase j ph) (href : ph.refs = []) :
    Loading σ' i := by
  by_cases hj : i = j
  · subst hj
    have hi : σ'.phase i = ph := by rw [hph, update_self]
    refine ⟨by rw [htree, hhist]; exact h.now, fun x keys e => ?_, fun x keys blocks e => ?_⟩
    · rw [hi] at e
      rw [e] at href
      cases href
    · rw [hi] at e
      rw [e] at href
      cases href
  · exact h.keep htree hhist (by rw [hph, update_of_ne hj])

theorem step {a : Act E} (h : Loading σ i) (hok : Undisturbed i σ a) (hm : Moved σ a σ') :
    Loading σ' i := by
  cases hm with
  | attach j n _ _ => exact h.setPhase rfl rfl rfl rfl
  | readXid j _ _ => exact h.setPhase rfl rfl rfl rfl
  | storeXid j now x _ => exact h.setPhase rfl rfl rfl rfl
  | release j now x _ => exact h.setPhase rfl rfl rfl rfl
  | killHolder j keep gone w _ _ _ _ => exact h.setPhase rfl rfl rfl rfl
  | kill j keep gone _ _ => exact h.setPhase rfl rfl rfl rfl
  | loadKeys j x hph =>
    by_cases hj : i = j
    · subst hj
      refine ⟨h.now, fun x' keys e => ?_, fun x' keys blocks e => ?_⟩
      · cases (update_self ..).symm.trans e
        rfl
      · cases (update_self ..).symm.trans e
    · exact h.keep rfl rfl (update_of_ne hj ..)
  | loadBlocks j x keys hph =>
    by_cases hj : i = j
    · subst hj
      refine ⟨h.now, fun x' keys' e => ?_, fun x' keys' blocks e => ?_⟩
      · cases (update_self ..).symm.trans e
      · -- the root loaded first is still published, together with the one loaded now
        cases (update_self ..).symm.trans e
        exact ⟨σ.tree, h.now, (h.half x keys hph).symm, rfl⟩
    · exact h.keep rfl rfl (update_of_ne hj ..)
  | publish t ht used rest w _ _ _ =>
    refine ⟨mem_cons_self, fun x keys e => absurd e (hok x keys), fun x keys blocks e => ?_⟩
    obtain ⟨t', ht', hkeys⟩ := h.both x keys blocks e
    exact ⟨t', mem_cons_of_mem t ht', hkeys⟩
  | allocFree p f chain w _ _ _ => cases chain <;> exact h.keep rfl rfl rfl
  | allocTail chain w _ => cases chain <;> exact h.keep rfl rfl rfl
  | _ => exact h.keep rfl rfl rfl

end Loading

/-- In every run from a new index in which no writer stores `hdr->vtree` between the two loads of
the process `i`, the roots of `i` are those of one commit. -/
theorem oneCommit_of_undisturbed (maxConns : Nat) (pages : Nat → EdBpt E) (i : Nat) {σ : Shm E}
    (h : Run Shm.step (Undisturbed i) (Shm.create maxConns pages) σ) : OneCommit σ i := by
  have hinv : Loading σ i := by
    refine h.invariant (I := fun σ => Loading σ i) ?_ ⟨mem_singleton_self _, nofun, nofun⟩
    intro τ a τ' hl hok hs
    exact hl.step hok (Shm.moved hs)
  exact hinv.both

/-! ## A commit between the loads -/

/-- A leaf with one entry. -/
def oneEntry (e : UInt64) : EdBpt UInt64 :=
  { EdBpt.zero with type := .leaf, nkeys := 1, ent := fun _ => e }

/-- The process 0 loads the keys root of a new index; the process 1 commits an entry in each tree;
the process 0 loads the blocks root. -/
def commitBetween : List (Act UInt64) :=
  [.attach 0 2, .attach 1 2, .readXid 0, .storeXid 0 100, .loadKeys 0,
    .lock 1, .readXid 1, .storeXid 1 100, .loadKeys 1, .loadBlocks 1,
    .scanStart, .scanSlot 100, .scanSlot 100, .allocTail false, .allocTail false,
    .write 2 (oneEntry 5), .write 3 (oneEntry 7),
    .publish (fun d => some (if d = .keys then 2 else 3)) (fun _ => 0) [2, 3] [],
    .loadBlocks 0]

/-- The reader ends up with no keys tree and the new blocks tree, which no commit published. -/
theorem roots_mixed :
    ∃ σ, exec Shm.step commitBetween (Shm.create 2 fun _ => EdBpt.zero) = some σ ∧
      ¬ OneCommit σ 0 := by
  refine ⟨_, rfl, fun h => ?_⟩
  obtain ⟨t, ht, hkeys, hblocks⟩ := h _ _ _ rfl
  rcases mem_cons.mp ht with rfl | ht
  · cases hkeys
  · cases mem_singleton.mp ht
    cases hblocks

/-- One commit before the loads of the process 0, and one behind them. -/
def commitsAround : List (Act UInt64) :=
  [.attach 0 2, .attach 1 2, .lock 1, .allocTail false, .write 2 (oneEntry 5),
    .publish (fun d => if d = .keys then some 2 else none) (fun _ => 0) [2] [], .stampXid, .freeGc,
    .unlock, .readXid 0, .storeXid 0 100, .loadKeys 0, .loadBlocks 0,
    .lock 1, .allocTail false, .write 3 (oneEntry 7),
    .publish (fun d => some (if d = .keys then 2 else 3)) (fun _ => 0) [3] []]

/-- A reader whose loads no commit falls between. -/
theorem oneCommit_between :
    ∃ σ, exec Shm.step commitsAround (Shm.create 2 fun _ => EdBpt.zero) = some σ ∧
      σ.phase 0 = .snap 2 ⟨some 2, 0, 2⟩ ⟨none, 0, 2⟩ ∧ OneCommit σ 0 := by
  have hrun : (exec Shm.step commitsAround (Shm.create 2 fun _ => EdBpt.zero)).any
      (fun σ => σ.phase 0 = .snap 2 ⟨some 2, 0, 2⟩ ⟨none, 0, 2⟩) = true := by
    decide +kernel
  obtain ⟨σ, hσ, h⟩ := (Option.any_eq_true _ _).mp hrun
  exact ⟨σ, hσ, of_decide_eq_true h,
    oneCommit_of_undisturbed 2 (fun _ => EdBpt.zero) 0 (Run.of_exec (by decide +kernel) hσ)⟩

end Eddy
