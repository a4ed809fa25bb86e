import Eddy.Index.Built
import Eddy.Index.Delete

/-!
# Eddy — modifications of two multimaps

A modification is a search for a key, followed by `ed_bpt_set` of an entry with this key or, on a
match, by `ed_bpt_del`. In an open write transaction it does to the tree what the same operation does
to a sorted list, and it leaves the other tree and the committed pages alone. A list of them is made up
to the first that fails.
-/

namespace Eddy

open Outcome Slots PageTree Layout Multimap List Function

variable {E : Type} [EdEntry E] (env : Env E) (g : Geom)

/-- A modification. -/
inductive Mod (E : Type) where
  | set (e : E) (replace : Bool)
  | del (k : UInt64)

/-- The calls of a modification. -/
def Mod.run (d : EdDb) : Mod E → M E Unit
  | .set e replace => do
    let _ ← edBptFind env g d (fetch64 e)
    edBptSet env g d e replace
  | .del k => do
    let res ← edBptFind env g d k.toNat
    Prog.when (res.1 = 1) (do let _ ← edBptDel env g d)

/-- The modification of a multimap. -/
def Mod.apply (l : List E) : Mod E → List E
  | .set e replace =>
    if replace && (first fetch64 (fetch64 e) l).isSome then overwrite fetch64 e l else put fetch64 e l
  | .del k => take fetch64 k.toNat l

/-- Modifications, up to the first that fails. -/
def runMods : List (EdDb × Mod E) → M E Unit
  | [] => pure ()
  | (d, m) :: ms => do
    m.run env g d
    runMods ms

/-- The modifications of two multimaps. -/
def applyMods (L : EdDb → List E) : List (EdDb × Mod E) → EdDb → List E
  | [] => L
  | (d, m) :: ms => applyMods (update L d (m.apply (L d))) ms

/-- Trees that hold the lists `L`, in order. -/
def Holds (L : EdDb → List E) (S : Nat → EdBpt E) (root : EdDb → Option Nat) (hs : EdDb → Nat) :
    Prop :=
  ∀ d, TreeOk g S (root d) (hs d) ∧ treeEnts S (root d) (hs d) = L d

section Search

variable {g} {s s1 : St E} {R T : List Nat} {hs : EdDb → Nat} {d : EdDb} {k n r : Nat}
  {up : List (Nat × Nat)} {res : Nat × Option EntPtr}

theorem AtKey.first_eq (hat : AtKey s d k n up r) (ho : TreeOk g s.pages (rootNo s d) up.length)
    (hk : k < 2 ^ 64) : first fetch64 k (treeEnts s.pages (rootNo s d) up.length) =
      if (s.txn.db d).matched then some ((s.tree n).ent (s.txn.db d).entryIndex) else none := by
  split
  · rename_i hm
    obtain ⟨hi, hkey⟩ := hat.matched.mp hm
    rw [hat.ents, (hat.cut ho hk).first_pre, entsFrom_cons hi]
    exact List.find?_cons_of_pos (by simpa using hkey)
  · rename_i hm
    rw [first, List.find?_eq_none]
    intro e he hkey
    exact hm (hat.matched_of_mem ho he (by simpa using hkey))

theorem Searched.first_eq (hse : Searched g s s1 R T hs d k res) (hgood : Good s)
    (ho : TreeOk g s.pages (rootNo s d) (hs d)) (hk : k < 2 ^ 64) :
    (res.1 = 1 ↔ (first fetch64 k (treeEnts s.pages (rootNo s d) (hs d))).isSome) ∧
      res.2.map (entAt s.pages) = first fetch64 k (treeEnts s.pages (rootNo s d) (hs d)) ∧
      (s1.txn.db d).matched = (first fetch64 k (treeEnts s.pages (rootNo s d) (hs d))).isSome := by
  rw [← hse.quiet.pages, ← hse.quiet.rootNo hgood] at ho ⊢
  rcases hse.place with ⟨hnone, rfl⟩ | ⟨n, up, r, hat, hlen, rfl⟩
  · rw [rootNo_none hnone.root, hnone.matched]
    exact ⟨⟨nofun, nofun⟩, rfl, rfl⟩
  · rw [← hlen] at ho ⊢
    rw [hat.first_eq ho hk, hat.entry]
    cases (s1.txn.db d).matched with
    | false => exact ⟨⟨nofun, nofun⟩, rfl, rfl⟩
    | true => exact ⟨⟨fun _ => rfl, fun _ => rfl⟩, rfl, rfl⟩

end Search

section Step

variable {env g} {s s' : St E} {R T : List Nat} {hs hs' : EdDb → Nat} {d : EdDb} {L : EdDb → List E}
  {m : Mod E}

theorem Searched.changed {k : Nat} {res : Nat × Option EntPtr} (hse : Searched g s s' R T hs d k res)
    (hgood : Good s) : Changed g s s' R T hs hs d :=
  ⟨hse.ok, rfl, hse.quiet.rootNo hgood _, fun _ _ => by rw [hse.quiet.pages], hse.other⟩

theorem Mod.run_spec (hg : g.leafOrder < 2 ^ 16) (hcalm : ¬ Refused env) (h : TxnOk g s R T hs)
    (ho : TreeOk g s.pages (rootNo s d) (hs d)) :
    wp (m.run env g d) (fun _ s' => (∀ e, m = .set e false → Inserts g s s' R T hs d e) ∧
      ∃ hs', Changed g s s' R T hs hs' d ∧ TreeOk g s'.pages (rootNo s' d) (hs' d) ∧
      treeEnts s'.pages (rootNo s' d) (hs' d) = m.apply (treeEnts s.pages (rootNo s d) (hs d)))
      Prog.free s := by
  cases m with
  | set e replace =>
    rw [Mod.run, wp_bind]
    refine wp_free_of fun res s1 hfind => wp_free_of fun _ s2 hset => ⟨?_, ?_⟩
    · rintro _ ⟨⟩
      exact ⟨h, env, res, s1, false, hcalm, hfind, rfl, hset⟩
    have hse := wp_ok (edBptFind_spec env g h _) hfind
    have hlt := EdEntry.fetch64_lt e
    obtain ⟨-, -, hm⟩ := hse.first_eq h.good ho hlt
    rw [← hse.quiet.pages, ← hse.quiet.rootNo h.good] at ho hm ⊢
    obtain ⟨hs', pre, old, suf, hl, hcut, hold, hent⟩ :=
      hse.putAt env hg hcalm ho hset fun _ => le_rfl
    refine ⟨hs', (hse.changed h.good).trans hent.changed, hent.order, ?_⟩
    rw [hent.ents, Mod.apply, ← hm, hl]
    split at hold
    · rename_i hover
      obtain ⟨a, rfl, ha⟩ := hold
      rw [if_pos hover]
      exact ((hcut hlt).overwrite_eq ha).symm
    · rename_i hover
      subst hold
      rw [if_neg hover]
      exact (hcut hlt).put_eq.symm
  | del k =>
    rw [Mod.run, wp_bind]
    refine wp_free_of fun res s1 hfind => ?_
    have hse := wp_ok (edBptFind_spec env g h _) hfind
    have hch := hse.changed h.good
    obtain ⟨hone, -, -⟩ := hse.first_eq h.good ho k.toNat_lt
    rw [wp_when]
    refine ⟨fun hmatch => ?_, fun hno => ⟨nofun, hs, hch, ?_⟩⟩
    · rw [wp_bind]
      refine wp_free_of fun v s2 hdel => ⟨nofun, ?_⟩
      obtain ⟨n1, p⟩ := res
      obtain rfl : n1 = 1 := hmatch
      obtain ⟨n, up, r, c, up', fresh, dead, built, h1, hq, hat, hlen, hm, ho1, hd, h2⟩ :=
        deleted_of_found env hg h ho hfind hdel
      obtain ⟨hi, hkey⟩ := hat.matched.mp hm
      have hcut := hat.cut ho1 k.toNat_lt
      refine ⟨hs, hch.trans (hd.changed h1 hat.toCursorAt hlen h2.good), ?_, ?_⟩
      · have hlen' : up'.length = hs d := hd.filled.graft.length.trans hlen
        exact hlen' ▸ hd.treeOk h1 hat.toCursorAt hlen ho1
      · rw [hd.treeEnts h1 hat.toCursorAt hlen, Mod.apply, ← hq.pages, ← hq.rootNo h.good, ← hlen,
          hat.ents]
        rw [entsFrom_cons hi] at hcut ⊢
        exact (hcut.take_eq hkey).symm
    · -- nothing has the key, and nothing happens
      rw [hse.quiet.pages, hse.quiet.rootNo h.good]
      refine ⟨ho, (eraseP_of_forall_not fun a ha => ?_).symm⟩
      intro hkey
      refine hno (hone.mpr ?_)
      rw [first, List.find?_isSome]
      exact ⟨a, ha, hkey⟩

/-! ## The trees of a transaction -/

/-- All modifications of the tree of `d` that `P` admits insert an entry and replace none. -/
def OnlyInserts (P : EdDb → Mod E → Prop) (d : EdDb) : Prop := ∀ m, P d m → ∃ e, m = .set e false

variable (g) in
/-- Trees that hold the lists `L`, each of them built by insertions when nothing else is admitted. -/
def Serves (P : EdDb → Mod E → Prop) (L : EdDb → List E) (S : Nat → EdBpt E) (root : EdDb → Option Nat)
    (hs : EdDb → Nat) : Prop :=
  Holds g L S root hs ∧ ∀ d, OnlyInserts P d → Built g S (root d)

variable {P : EdDb → Mod E → Prop}

/-- A modification of one tree leaves the other one alone. -/
theorem Serves.modified (hg : g.leafOrder < 2 ^ 16) (hcalm : ¬ Refused env) (h : TxnOk g s R T hs)
    (hL : Serves g P L s.pages (rootNo s) hs) (hm : P d m) :
    wp (m.run env g d) (fun _ s' => ∃ hs', TxnOk g s' R T hs' ∧
      Serves g P (update L d (m.apply (L d))) s'.pages (rootNo s') hs') Prog.free s := by
  refine wp_free (Mod.run_spec hg hcalm h (hL.1 d).1) ?_
  rintro _ s' ⟨hins, hs', hch, ho, hents⟩
  refine ⟨hs', hch.ok, fun e => ?_, fun e he => ?_⟩ <;> rcases d.eq_or_other e with rfl | rfl
  · rw [(hL.1 e).2] at hents
    rw [update_self]
    exact ⟨ho, hents⟩
  · rw [hch.root, hch.height, update_of_ne d.other_ne]
    exact ⟨(hL.1 _).1.congr hch.page, (treeEnts_congr hch.page).trans (hL.1 _).2⟩
  · obtain ⟨x, hx⟩ := he m hm
    exact (hL.2 e he).insert (hins x hx)
  · rw [hch.root]
    refine (hL.2 _ he).keep fun h' hsh q hq => hch.page q ?_
    have hsh' := h.shaped d.other
    unfold ownPages
    cases hr : rootNo s d.other with
    | none =>
      rw [hr] at hq
      exact absurd hq not_mem_nil
    | some p =>
      rw [hr] at hq hsh hsh'
      rw [hsh'.height_eq hsh]
      exact hq

theorem runMods_serves (hg : g.leafOrder < 2 ^ 16) (hcalm : ¬ Refused env) (h : TxnOk g s R T hs)
    (hL : Serves g P L s.pages (rootNo s) hs) {ms : List (EdDb × Mod E)} (hms : ∀ x ∈ ms, P x.1 x.2) :
    wp (runMods env g ms) (fun _ s' => ∃ hs', TxnOk g s' R T hs' ∧
      Serves g P (applyMods L ms) s'.pages (rootNo s') hs') Prog.free s := by
  induction ms generalizing L s hs with
  | nil => exact ⟨hs, h, hL⟩
  | cons x ms ih =>
    obtain ⟨d, m⟩ := x
    rw [runMods, wp_bind]
    refine wp_post (hL.modified hg hcalm h (hms (d, m) mem_cons_self)) ?_
    rintro _ s1 ⟨hs1, h1, hL1⟩
    exact ih h1 hL1 fun x hx => hms x (mem_cons_of_mem _ hx)

/-! ## The committed pages -/

theorem Mod.run_step (hr : Ready s) (d : EdDb) (m : Mod E) :
    wp (m.run env g d) (fun _ s' => Step s s' ∧ Good s')
      ⟨fun _ s' => Step s s' ∧ Good s', fun _ _ => False, True⟩ s := by
  have hfind : ∀ (k : Nat) (f : Nat × Option EntPtr → M E Unit),
      (∀ res s1, Ready s1 → wp (f res) (fun _ s' => Keeps s1 s') (modifyExits s1) s1) →
      wp (edBptFind env g d k >>= f) (fun _ s' => Step s s' ∧ Good s')
        ⟨fun _ s' => Step s s' ∧ Good s', fun _ _ => False, True⟩ s := by
    intro k f hf
    rw [wp_bind]
    refine wp_mono (edBptFind_quiet env g s hr.good d k) ?_ ?_ (fun _ _ h => h) id
    · rintro res s1 ⟨hq, hg1⟩
      refine wp_mono (hf res s1 (hr.step hq.step hg1)) ?_ ?_ (fun _ _ h => h) id
      · exact fun _ s2 hk => ⟨hq.step.trans hk.step, hk.good⟩
      · exact fun _ s2 hk => ⟨hq.step.trans hk.1.step, hk.1.good⟩
    · exact fun _ s1 h => ⟨h.1.step, h.2.1⟩
  cases m with
  | set e replace =>
    exact hfind _ _ fun _ s1 hr1 => edBptSet_keep env g s1 hr1 d e replace
  | del k =>
    refine hfind _ _ fun res s1 hr1 => ?_
    rw [wp_when, wp_bind]
    exact ⟨fun _ => edBptDel_keep env g s1 hr1 d, fun _ => Keeps.refl hr1.good⟩

/-- Modifications leave the committed pages alone, also when one of them fails. -/
theorem runMods_step (hr : Ready s) (ms : List (EdDb × Mod E)) :
    wp (runMods env g ms) (fun _ s' => Step s s') ⟨fun _ s' => Step s s', fun _ _ => False, True⟩
      s := by
  induction ms generalizing s with
  | nil => exact Step.refl s
  | cons x ms ih =>
    obtain ⟨d, m⟩ := x
    rw [runMods, wp_bind]
    refine wp_mono (Mod.run_step hr d m) ?_ (fun _ _ h => h.1) (fun _ _ h => h) id
    rintro _ s1 ⟨h1, hg1⟩
    exact wp_mono (ih (hr.step h1 hg1)) (fun _ _ h => h1.trans h) (fun _ _ h => h1.trans h)
      (fun _ _ h => h) id

end Step

end Eddy
