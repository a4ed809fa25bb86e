import Eddy.Index.CopyOnWrite
import Eddy.Index.Doomed
import Eddy.Index.Roots
import Eddy.System.Calls

/-!
# Eddy — a transaction in which a request was refused

Several functions of `bpt.c` ignore the result of `set_node`, so a call on a tree can return
normally although a page could not be cloned or mapped. The commit must not publish such a tree.
-/

namespace Eddy

open Outcome List

variable {E : Type} [EdEntry E] (env : Env E) (g : Geom) {s s' s1 : St E} {T : List Nat}

/-! ## Calls whose results nobody looks at -/

/-- The error code of a call, if it returned one. -/
def errorOf : Except EdErr Unit → Option EdErr
  | .ok _ => none
  | .error e => some e

/-- Make calls one after the other, whatever they return. -/
def runCalls : List (Call E) → M E (List (Option EdErr))
  | [] => pure []
  | c :: cs => do
    let rc ← Prog.attempt (c.run env g)
    let rcs ← runCalls cs
    pure (errorOf rc :: rcs)

/-- Some call of the list is a set that failed with `ED_EINDEX_DUPKEY`. -/
def DupkeyIn (cs : List (Call E)) (rcs : List (Option EdErr)) : Prop :=
  ∃ (i : Nat) (d : EdDb) (e : E) (replace : Bool), cs[i]? = some (Call.set d e replace) ∧
    rcs[i]? = some (some EdErr.eindexDupkey)

/-- A request for pages was refused between two states. -/
def RefusedIn (s s' : St E) : Prop := ∃ t, s.tick ≤ t ∧ t < s'.tick ∧ env.fails .page t = true

/-- What calls on the trees of an open transaction leave behind. -/
structure TreeStep (s s' : St E) : Prop where
  step : Step s s'
  good : Good s'
  noted : Noted env s s'

omit [EdEntry E] in
theorem TreeStep.refl (hg : Good s) : TreeStep env s s :=
  ⟨Step.refl s, hg, Noted.refl env s⟩

omit [EdEntry E] in
variable {env} in
theorem TreeStep.trans {s'' : St E} (a : TreeStep env s s') (b : TreeStep env s' s'') :
    TreeStep env s s'' :=
  ⟨a.step.trans b.step, b.good, a.noted.trans b.noted⟩

/-- The exits of a call on a tree: an error leaves the same behind, and after `ED_EINDEX_DUPKEY`
from a set the transaction has an error code. -/
def stepExits (c : Call E) (s : St E) : Exits EdErr EdFault (St E) where
  err e s' := TreeStep env s s' ∧ (∀ d x r, c = .set d x r → e = .eindexDupkey → Doomed s')
  halt _ _ := False
  stuck := True

omit [EdEntry E] in
theorem cursor_treeStep {α : Type} {x : M E α} {c : Call E} (hc : ∀ d e r, c ≠ .set d e r)
    (hquiet : wp x (fun _ s' => Quiet s s' ∧ Good s') (cursorExits s) s)
    (hnoted : Preserves (Noted env s) x) :
    wp (do let _ ← x; pure ()) (fun _ s' => TreeStep env s s') (stepExits env c s) s := by
  rw [wp_bind]
  refine wp_mono (wp_and hquiet (hnoted s (Noted.refl env s))) ?_ ?_ (fun _ _ h => h.1)
    fun h => h.1
  · rintro _ s' ⟨⟨hq, hg⟩, hn⟩
    exact ⟨hq.step, hg, hn⟩
  · rintro e s' ⟨⟨hq, hg, -⟩, hn⟩
    exact ⟨⟨hq.step, hg, hn⟩, fun d x r h => absurd h (hc d x r)⟩

theorem edBptSet_dupkey (d : EdDb) (e : E) (replace : Bool) (s : St E) :
    wp (edBptSet env g d e replace) (fun _ _ => True)
      ⟨fun err s' => err = .eindexDupkey → Doomed s', fun _ _ => True, True⟩ s := by
  unfold edBptSet
  simp only [wp_bind, wp_gets, wp_ite, wp_throw, wp_onErr, wp_modDb]
  refine ⟨fun _ h => (by cases h), fun _ => ⟨fun _ h => (by cases h), fun _ => ?_⟩⟩
  exact wp_mono (wp_run _ s) (fun _ _ _ => trivial)
    (fun err s' _ _ => Option.some_ne_none err) (fun _ _ _ => trivial) fun _ => trivial

theorem Call.run_treeStep (c : Call E) (hc : c.onTree = true) (hr : Ready s) :
    wp (c.run env g) (fun _ s' => TreeStep env s s') (stepExits env c s) s := by
  have hI := Noted.writeInv env s
  cases c with
  | new => cases hc
  | «open» rdonly => cases hc
  | commit reset => cases hc
  | close reset => cases hc
  | find d k =>
    exact cursor_treeStep env nofun (edBptFind_quiet env g s hr.good d k)
      (edBptFind_keeps g hI.toReadInv d k)
  | first d =>
    exact cursor_treeStep env nofun (edBptFirst_quiet env s hr.good d)
      (edBptFirst_keeps hI.toReadInv d)
  | last d =>
    exact cursor_treeStep env nofun (edBptLast_quiet env g s hr.good d)
      (edBptLast_keeps g hI.toReadInv d)
  | next d =>
    exact cursor_treeStep env nofun (edBptNext_quiet env g s hr.good d)
      (edBptNext_keeps g hI.toReadInv d)
  | prev d =>
    exact cursor_treeStep env nofun (edBptPrev_quiet env g s hr.good d)
      (edBptPrev_keeps g hI.toReadInv d)
  | set d e replace =>
    refine wp_mono (wp_and (edBptSet_dupkey env g d e replace s)
      (wp_and (edBptSet_keep env g s hr d e replace)
        (edBptSet_writes g hI d e replace s (Noted.refl env s)))) ?_ ?_ (fun _ _ h => h.2.1)
      fun h => h.2.1
    · rintro _ s' ⟨-, hk, hn⟩
      exact ⟨hk.step, hk.good, hn⟩
    · rintro err s' ⟨hdup, ⟨hk, -⟩, hn⟩
      exact ⟨⟨hk.step, hk.good, hn⟩, fun _ _ _ _ h => hdup h⟩
  | del d =>
    change wp (edBptDel env g d >>= fun _ => pure ()) _ _ _
    rw [wp_bind]
    refine wp_mono (wp_and (edBptDel_keep env g s hr d)
      (edBptDel_writes g hI d s (Noted.refl env s))) ?_ ?_ (fun _ _ h => h.1) fun h => h.1
    · rintro _ s' ⟨hk, hn⟩
      exact ⟨hk.step, hk.good, hn⟩
    · rintro err s' ⟨⟨hk, -⟩, hn⟩
      exact ⟨⟨hk.step, hk.good, hn⟩, nofun⟩

theorem runCalls_spec (cs : List (Call E)) (hcs : ∀ c ∈ cs, c.onTree = true) (hr : Ready s) :
    wp (runCalls env g cs)
      (fun rcs s' => TreeStep env s s' ∧ (DupkeyIn cs rcs → Doomed s'))
      ⟨fun _ _ => False, fun _ _ => False, True⟩ s := by
  induction cs generalizing s with
  | nil =>
    refine ⟨TreeStep.refl env hr.good, ?_⟩
    rintro ⟨i, d, e, r, h, -⟩
    cases h
  | cons c cs ih =>
    have hcs' : ∀ c' ∈ cs, c'.onTree = true := fun c' h => hcs c' (mem_cons_of_mem c h)
    -- After one call the rest starts from a state that is ready again.
    have hrest : ∀ rc s1, TreeStep env s s1 →
        ((∃ d e r, c = .set d e r) → errorOf rc = some .eindexDupkey → Doomed s1) →
        wp (runCalls env g cs >>= fun rcs => pure (errorOf rc :: rcs))
          (fun rcs s' => TreeStep env s s' ∧ (DupkeyIn (c :: cs) rcs → Doomed s'))
          ⟨fun _ _ => False, fun _ _ => False, True⟩ s1 := by
      intro rc s1 h1 hdup
      rw [wp_bind]
      refine wp_post (ih hcs' (hr.step h1.step h1.good)) ?_
      rintro rcs s2 ⟨h2, hdup2⟩
      refine ⟨h1.trans h2, ?_⟩
      rintro ⟨i, d, e, r, hc, hrc⟩
      cases i with
      | zero => exact h2.noted.error (hdup ⟨d, e, r, Option.some.inj hc⟩ (Option.some.inj hrc))
      | succ i => exact hdup2 ⟨i, d, e, r, hc, hrc⟩
    rw [runCalls, wp_bind, wp_attempt]
    refine wp_mono (c.run_treeStep env g (hcs c mem_cons_self) hr) ?_ ?_
      (fun _ _ h => h) id
    · intro u s1 h1
      exact hrest (.ok u) s1 h1 nofun
    · rintro err s1 ⟨h1, hdup⟩
      refine hrest (.error err) s1 h1 ?_
      rintro ⟨d, e, r, hc⟩ he
      exact hdup d e r hc (Option.some.inj he)

/-! ## The close frees pages or loses them -/

section Close

omit [EdEntry E]

/-- Whether a call of `ed_free_pgno` that starts at the time `t` is refused. -/
def freeRefusedAt (t : Nat) : Bool :=
  env.fails .free t || (env.gcPages (t + 1) != 0 && env.fails .free (t + 1))

theorem edFreePgno_answer (xid : Nat) (pg : List Nat) (s : St E) :
    wp (edFreePgno env xid pg)
      (fun _ s' => s'.lost = s.lost ∧ ¬ (pg ≠ [] ∧ freeRefusedAt env s.tick = true))
      ⟨fun _ s' => s'.lost = s.lost ∧ pg ≠ [] ∧ freeRefusedAt env s.tick = true,
        fun _ _ => False, False⟩ s := by
  unfold edFreePgno mapEndPages freeRefusedAt
  simp only [wp_ite, wp_pure', wp_bind, wp_sysFails, wp_throw, wp_gets,
    wp_modHdr]
  refine ⟨fun h => ⟨trivial, fun h' => h'.1 h⟩, fun hpg => ⟨fun h => ⟨rfl, hpg, by simp [h]⟩, ?_⟩⟩
  intro hfirst
  refine ⟨fun hnone => ⟨rfl, ?_⟩, fun hsome => ⟨fun h => ⟨rfl, hpg, ?_⟩, fun h => ⟨rfl, ?_⟩⟩⟩
  · have hnone' : env.gcPages (s.tick + 1) = 0 := hnone
    simp [hfirst, hnone']
  · have h' : env.fails .free (s.tick + 1) = true := h
    have hsome' : ¬ env.gcPages (s.tick + 1) = 0 := hsome
    simp [h', hsome']
  · have h' : ¬ env.fails .free (s.tick + 1) = true := h
    simp [hfirst, h']

/-- The pages a close loses: those it does not keep, when the call that frees them is refused. -/
def lostByClose (reset : Bool) (s : St E) : List Nat :=
  if freeRefusedAt env (s.tick + 3) = true then s.txn.pg.drop (keepCount reset) else []

/-- A close of a write transaction returns unless the process is killed. -/
theorem edTxnClose_lost (hlive : ∀ t f, env.kills t f = false) (reset : Bool) (hw : Writing s) :
    wp (edTxnClose env reset) (fun _ s' => s'.lost = s.lost ++ lostByClose env reset s)
      ⟨fun _ _ => False, fun _ _ => False, False⟩ s := by
  have hkill : ∀ (f : EdFault) (Q : Unit → St E → Prop) (X : Exits EdErr EdFault (St E)) (s' : St E),
      Q () (s'.atTick (s'.tick + 1)) → wp (edFaultTrigger env f) Q X s' := by
    intro f Q X s' h
    rw [wp_edFaultTrigger]
    exact ⟨fun hk => absurd hk (by simp [hlive]), fun _ => h⟩
  unfold edTxnClose
  rw [wp_bind, wp_modTxn, wp_bind]
  refine hkill _ _ _ _ ?_
  have hlock : closeLock env { s.txn with state := .cancelled } = (pure true : M E Bool) :=
    if_pos ⟨nofun, hw.wr⟩
  simp only [wp_bind, wp_gets, St.atTick_txn, St.modTxn_txn, hw.isOpen, if_true, hlock,
    wp_pure', wp_when]
  refine ⟨fun _ => ⟨fun _ => ?_, fun h => absurd trivial h⟩, fun h => absurd (.inr nofun) h⟩
  unfold closePending flushActive freeOrLose edLckUn
  rw [wp_bind, wp_modHdr, wp_bind]
  refine hkill _ _ _ _ ?_
  simp only [wp_bind, wp_gets, wp_modConn, wp_modTxn]
  refine hkill _ _ _ _ ?_
  -- The pages that are not kept are freed at the third tick of the close.
  rw [wp_attempt]
  refine wp_mono (edFreePgno_answer env 0 _ _) ?_ ?_ (fun _ _ h => h) id
  · rintro _ s' ⟨hlost, hgrant⟩
    show s'.lost = s.lost ++ lostByClose env reset s
    rw [hlost]
    unfold lostByClose
    split
    · rename_i hrefused
      have hnil : s.txn.pg.drop (keepCount reset) = [] := by
        by_contra hne
        exact hgrant ⟨hne, hrefused⟩
      rw [hnil, append_nil]
      rfl
    · rw [append_nil]
      rfl
  · rintro _ s' ⟨hlost, -, hrefused⟩
    show s'.lost ++ s.txn.pg.drop (keepCount reset) = s.lost ++ lostByClose env reset s
    have hrefused' : freeRefusedAt env (s.tick + 3) = true := hrefused
    rw [hlost, lostByClose, if_pos hrefused']
    rfl

end Close

/-! ## The commit -/

/-- A commit published nothing: the header and the pages `T` of the committed trees are those from
before the transaction. -/
structure Unpublished (T : List Nat) (s s' : St E) : Prop where
  tree : s'.hdr.tree = s.hdr.tree
  xid : s'.hdr.xid = s.hdr.xid
  vno : s'.hdr.vno = s.hdr.vno
  pages : ∀ p ∈ T, s'.pages p = s.pages p

omit [EdEntry E] in
theorem Unpublished.of_same {s2 : St E} (h : Unpublished T s s1)
    (hs : s2.pages = s1.pages ∧ s2.hdr.tree = s1.hdr.tree ∧ s2.hdr.xid = s1.hdr.xid ∧
      s2.hdr.vno = s1.hdr.vno) : Unpublished T s s2 := by
  obtain ⟨hp, ht, hx, hv⟩ := hs
  exact ⟨ht.trans h.tree, hx.trans h.xid, hv.trans h.vno, fun p hT => by rw [hp]; exact h.pages p hT⟩

omit [EdEntry E] in
theorem Unpublished.trans {s2 : St E} (h : Unpublished T s s1) (h' : Unpublished T s1 s2) :
    Unpublished T s s2 :=
  ⟨h'.tree.trans h.tree, h'.xid.trans h.xid, h'.vno.trans h.vno,
    fun p hp => (h'.pages p hp).trans (h.pages p hp)⟩

/-- Every page in `pg` is pending or free. -/
def Accounted (pg : List Nat) (s : St E) : Prop := ∀ p ∈ pg, p ∈ s.conn.pending ∨ p ∈ s.hdr.free

variable {env} {g}

omit [EdEntry E] in
theorem Closed.same {reset locked : Bool} (h : Closed env reset locked s s') :
    s'.pages = s.pages ∧ s'.hdr.tree = s.hdr.tree ∧ s'.hdr.xid = s.hdr.xid ∧
      s'.hdr.vno = s.hdr.vno := by
  refine ⟨h.pages, ?_⟩
  cases locked with
  | false => rw [(h.unlocked rfl).1]; exact ⟨rfl, rfl, rfl⟩
  | true =>
    obtain ⟨-, -, -, _, _, hf, -⟩ := h.locked rfl
    exact ⟨hf.tree, hf.xid, hf.vno⟩

omit [EdEntry E] in
theorem Started.unpublished {R : List Nat} {hs : EdDb → Nat} (hst : Started g s R T hs)
    (h : Step s s1) : Unpublished T s s1 where
  tree := (congrArg Fixed.tree h.fixed :)
  xid := (congrArg Fixed.xid h.fixed :)
  vno := (congrArg Fixed.vno h.fixed :)
  pages p hp := by
    -- a committed page is none of the pages the transaction reserved
    have hnot : p ∉ s1.txn.pg := by
      intro hpg
      have hnd := (nodup_append.mp (hst.sound.step h).nodup).1
      exact (nodup_append.mp hnd).2.2 p (hst.sub.subset hp) p hpg rfl
    exact h.pages p (hst.old p hp) hnot

omit [EdEntry E] in
/-- Which pages of a transaction are accounted for after its close. -/
theorem Closed.accounted_iff {reset : Bool} {R : List Nat} (hs : Sound s R)
    (h : Closed env reset true s s') (hlost : s'.lost = s.lost ++ lostByClose env reset s) :
    Accounted s.txn.pg s' ↔
      s.txn.pg.length ≤ keepCount reset ∨ freeRefusedAt env (s.tick + 3) = false := by
  obtain ⟨-, hpend, -, inn, out, hf, hl, hcases⟩ := h.locked rfl
  have hout : out = lostByClose env reset s := append_cancel_left (hl.symm.trans hlost)
  have hsplit : s.txn.pg.take (keepCount reset) ++ s.txn.pg.drop (keepCount reset) = s.txn.pg :=
    take_append_drop _ _
  have hmem : ∀ p, p ∈ s'.hdr.free ↔ p ∈ s.hdr.free ∨ p ∈ inn ∨ p ∈ grown s.hdr s'.hdr := by
    intro p
    have hp := hf.moves.perm.mem_iff (a := p)
    simp only [append_nil, mem_append, or_assoc] at hp
    exact hp
  have hall : inn = s.txn.pg.drop (keepCount reset) → Accounted s.txn.pg s' := by
    intro hinn p hp
    rw [← hsplit, mem_append, ← hpend, ← hinn] at hp
    exact hp.imp id fun hp' => (hmem p).mpr (.inr (.inl hp'))
  constructor
  · intro hacc
    by_contra hnot
    rw [not_or, Nat.not_le, Bool.not_eq_false] at hnot
    obtain ⟨hlong, hrefused⟩ := hnot
    -- The first page that is not kept is in none of the lists.
    have hdrop : s.txn.pg.drop (keepCount reset) ≠ [] := by
      rw [Ne, drop_eq_nil_iff, Nat.not_le]
      exact hlong
    rw [lostByClose, if_pos hrefused] at hout
    have hinn : inn = [] := by
      rcases hcases with ⟨-, h0⟩ | ⟨h0, -⟩
      · exact absurd (hout.symm.trans h0) hdrop
      · exact h0
    obtain ⟨q, hq⟩ := exists_mem_of_ne_nil _ hdrop
    have hqpg : q ∈ s.txn.pg := mem_of_mem_drop hq
    rcases hacc q hqpg with hq' | hq'
    · rw [hpend] at hq'
      have hnd := hs.pg_nodup
      rw [← hsplit, nodup_append] at hnd
      exact hnd.2.2 q hq' q hq rfl
    · have hqfree : q ∉ s.hdr.free := by
        intro hfree
        exact (nodup_append.mp hs.nodup).2.2 q (mem_append_right _ hqpg) q hfree rfl
      have hqlt : q < s.hdr.no :=
        hs.lt q (mem_append_left _ (mem_append_right _ hqpg))
      rcases (hmem q).mp hq' with h1 | h1 | h1
      · exact hqfree h1
      · rw [hinn] at h1
        cases h1
      · rw [grown, mem_range'_1] at h1
        omega
  · intro hor
    rcases hcases with ⟨hinn, -⟩ | ⟨hinn, h0, -⟩
    · exact hall hinn
    · -- Nothing is lost, so there was nothing to free.
      refine hall (hinn.trans ?_)
      rw [h0, lostByClose] at hout
      rcases hor with hle | hgrant
      · exact (drop_eq_nil_of_le hle).symm
      · rw [hgrant, if_neg (by decide)] at hout
        exact hout.symm

end Eddy
