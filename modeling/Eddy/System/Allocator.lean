import Eddy.Gc.Tags
import Eddy.Protocol.Model
import Eddy.System.Model

/-!
# Eddy — the allocator and its contract

The models of the transactions and of the snapshot protocol take the allocator at its contract. The header
of a transaction has one list of the pages in the GC chain, from which the environment picks; the shared
memory of the protocol has the free pages with their transactions, and a guard that compares these with
the result of the scan. The functions of `pg.c` on the bytes of their pages are an instance of both.
-/

namespace Eddy.Gc

open Outcome Runs List

variable {E : Type} {s s' : GcSt} {c c' : List GcNode} {xmin npg m : Nat} {out recycled : List Nat}
  {taken : List (Nat × Nat)}

/-! ## The lists of the header -/

/-- The header lists the pages of the chain, and has the tail of the allocator. -/
structure Lists (h : EdPgIdx) (s : GcSt) (c : List GcNode) : Prop where
  gcs : h.gcs.Perm (chainPages c)
  start : h.tailStart = s.tailStart

theorem lists_created (maxConns : Nat) :
    Lists (EdPgIdx.create maxConns) (GcSt.created (createIdx maxConns)) [⟨pgRootGc, []⟩] :=
  ⟨Perm.refl _, rfl⟩

/-- An environment that grants every request, picks these free pages and makes `n` GC pages. -/
def granting (env : Env E) (picks : List Nat) (n : Nat) : Env E :=
  { env with fails := fun _ _ => false, reuse := fun _ _ => picks, gcPages := fun _ => n }

/-- A call that can only return. -/
def noExits {σ : Type} : Exits EdErr EdFault σ := ⟨fun _ _ => False, fun _ _ => False, False⟩

theorem mapEndPages_granted (env : Env E) (picks : List Nat) (k n : Nat) (r : EdReq) (w : St E) :
    wp (Eddy.mapEndPages (granting env picks k) r n)
      (fun ps w' => ps = range' w.hdr.tailStart n ∧ w'.hdr.gcs = w.hdr.gcs ∧
        w'.hdr.tailStart = w.hdr.tailStart + n) noExits w := by
  unfold Eddy.mapEndPages
  simp only [wp_ite, wp_pure', wp_bind, wp_modHdr, wp_sysFails, wp_throw, wp_gets]
  refine ⟨?_, fun _ => ⟨fun h => absurd h (by simp [granting]), fun _ => ⟨rfl, rfl, rfl⟩⟩⟩
  rintro rfl
  exact ⟨rfl, trivial, rfl⟩

/-- `ed_alloc` of a transaction hands out the pages that the chain gives. -/
theorem Handed.edAlloc (h : Handed xmin npg s c out s' recycled taken m c') (env : Env E) {w : St E}
    (hl : Lists w.hdr s c) :
    ∃ env' w', Eddy.edAlloc env' npg w = .ok out w' ∧ Lists w'.hdr s' c' := by
  obtain ⟨sorted, hsorted, -, hout⟩ := h.out
  obtain ⟨picks, hpicks⟩ : ∃ picks, picks = recycled ++ sorted := ⟨_, rfl⟩
  rw [← hpicks] at hout
  have hgcs : w.hdr.gcs.Perm (picks ++ chainPages c') := by
    refine hl.gcs.trans (perm_iff_count.mpr fun y => ?_)
    have hsort := hsorted.count_eq y
    simp only [chainPages, h.nodes, h.entries, hpicks, map_append, count_append] at hsort ⊢
    omega
  have hlen := h.length
  have hnd := h.nodup
  rw [hout] at hlen hnd
  rw [length_append, length_range'] at hlen
  have hpick : pickFree picks w.hdr.gcs npg = picks := by
    rw [pickFree, filter_eq_self.mpr fun p hp => by simpa using hgcs.mem_iff.mpr (mem_append_left _ hp),
      hnd.of_append_left.dedup, take_of_length_le (by omega)]
  have hrun : wp (Eddy.edAlloc (granting env picks 0) npg)
      (fun ps w' => ps = out ∧ Lists w'.hdr s' c') noExits w := by
    unfold Eddy.edAlloc
    simp only [wp_ite, wp_pure', wp_bind, wp_sysFails, wp_throw, wp_get, wp_modHdr, wp_modify]
    refine ⟨fun h0 => ?_, fun _ => ⟨fun hf => absurd hf (by simp [granting]), fun _ => ?_⟩⟩
    · obtain rfl : picks = [] := length_eq_zero_iff.mp (by omega)
      obtain rfl : m = 0 := by omega
      exact ⟨hout.symm, hgcs, hl.start.trans h.start.symm⟩
    · refine wp_post (mapEndPages_granted env picks 0 _ _ _) ?_
      rintro fresh w' ⟨rfl, hg, hs⟩
      have hpick' : pickFree ((granting env picks 0).reuse (w.atTick (w.tick + 1)).tick
          (w.atTick (w.tick + 1)).hdr.gcs) (w.atTick (w.tick + 1)).hdr.gcs npg = picks := hpick
      rw [hpick'] at hs ⊢
      have hm : npg - picks.length = m := by omega
      rw [hm] at hs ⊢
      have hdiff : (picks ++ w.hdr.gcs.diff picks).Perm w.hdr.gcs :=
        subperm_append_diff_self_of_count_le fun y _ => by rw [hgcs.count_eq y, count_append]; omega
      refine ⟨?_, ?_, ?_⟩
      · rw [hout, ← hl.start]
        rfl
      · show (w'.hdr.gcs.diff picks).Perm _
        rw [hg]
        exact (perm_append_left_iff picks).mp (hdiff.trans hgcs)
      · exact hs.trans ((congrArg (· + m) hl.start).trans h.start.symm)
  obtain ⟨_, w', hok, rfl, hl'⟩ := ok_of_wp hrun (fun _ _ h => h) (fun _ _ h => h) id
  exact ⟨_, w', hok, hl'⟩

/-- `ed_free_pgno` of a transaction puts the pages into the chain. -/
theorem Freed.edFreePgno {xid : Nat} {pg new : List Nat} {c1 : List GcNode}
    (h : Freed xmin xid s c pg s' new c1 c') (env : Env E) {w : St E} (hpg : pg ≠ [])
    (hl : Lists w.hdr s c) :
    ∃ env' w', Eddy.edFreePgno env' xid pg w = .ok () w' ∧ Lists w'.hdr s' c' := by
  obtain ⟨m, hm, hchain⟩ := h.chain
  have hrun : wp (Eddy.edFreePgno (granting env [] m) xid pg) (fun _ w' => Lists w'.hdr s' c')
      noExits w := by
    unfold Eddy.edFreePgno
    simp only [wp_ite, wp_pure', wp_bind, wp_sysFails, wp_throw, wp_gets, wp_modHdr]
    refine ⟨fun h0 => absurd h0 hpg, fun _ => ⟨fun hf => absurd hf (by simp [granting]), fun _ => ?_⟩⟩
    refine wp_post (mapEndPages_granted env [] m _ _ _) ?_
    rintro fresh w' ⟨rfl, hg, hs⟩
    refine ⟨?_, hs.trans ((congrArg (· + m) hl.start).trans hm.symm)⟩
    show (w'.hdr.gcs ++ pg ++ range' w.hdr.tailStart m).Perm _
    rw [hg, hl.start]
    exact ((hl.gcs.append_right pg).append_right _).trans hchain.symm
  obtain ⟨_, w', hok, hl'⟩ := ok_of_wp hrun (fun _ _ h => h) (fun _ _ h => h) id
  exact ⟨_, w', hok, hl'⟩

/-- The call of a transaction that a call of the allocator stands for. -/
def GcCall.onIdx (env : Env E) : GcCall → M E (List Nat)
  | .alloc _ npg => Eddy.edAlloc env npg
  | .free _ xid pg => do
    Eddy.edFreePgno env xid pg
    pure []

/-- Every call of the allocator that returns is a call of its contract, in some environment. -/
theorem Sound.onIdx {sys : Sys} {used : List Nat} {call : GcCall} (h : Sound s used c)
    (hlegal : call.Legal used) (hmeets : call.Meets s c) (hrun : call.run sys s = .ok out s')
    (env : Env E) {w : St E} (hl : Lists w.hdr s c) :
    ∃ env' w' c', call.onIdx env' w = .ok out w' ∧ Rep s' c' ∧ Lists w'.hdr s' c' := by
  cases call with
  | alloc xmin npg =>
    by_cases hmax : npg ≤ 1024
    · obtain ⟨recycled, taken, m, hh⟩ :=
        (wp_ok (edAlloc_spec h.rep hmax (hmeets hmax)) hrun).handed h.rep
      obtain ⟨env', w', hok, hl'⟩ := hh.edAlloc env hl
      exact ⟨env', w', _, hok, hh.rep, hl'⟩
    · rw [GcCall.run, edAlloc_too_many hmax] at hrun
      cases hrun
  | free xmin xid pg =>
    obtain ⟨_, s1, hfree, hpure⟩ := ok_bind hrun
    obtain ⟨rfl, rfl⟩ := Out.ok.inj hpure
    by_cases hpg : pg = []
    · subst hpg
      rw [edFreePgno, if_pos (by decide)] at hfree
      obtain rfl : s = s1 := (Out.ok.inj hfree).2
      exact ⟨env, w, c, rfl, h.rep, hl⟩
    obtain ⟨c0, ⟨p, ls⟩, rfl⟩ := (eq_nil_or_concat' c).resolve_left h.rep.ne_nil
    obtain ⟨hopen, hends, hfit⟩ := hmeets c0 p ls rfl
    obtain ⟨⟨new, c1, c', hfreed, -⟩, -, -⟩ :=
      wp_ok (edFreePgno_spec (h.ready hlegal hopen) hpg hfit hends) hfree
    obtain ⟨env', w', hok, hl'⟩ := hfreed.edFreePgno env hpg hl
    refine ⟨env', w', c', ?_, hfreed.rep, hl'⟩
    show Prog.bind (Eddy.edFreePgno env' xid pg) (fun _ => pure []) w = _
    rw [Prog.bind, hok]
    rfl

/-! ## The free pages of the shared memory -/

/-- The shared memory lists the GC pages and the free pages. A page may be in a list of a newer
transaction than the one that freed it. -/
structure Mirrors (σ : Shm E) (s : GcSt) (c : List GcNode) : Prop where
  chain : σ.chain.Perm (c.map GcNode.no)
  free : ∃ l, l.Perm σ.free ∧ Forall₂ (fun f e => f.1 = e.2 ∧ f.2 ≤ e.1) l (entries c)
  tail : σ.tail = s.tailStart

section Steps

variable {σ : Shm E} {w : Holder}

theorem exec_recycle (rs rest : List Nat) (hw : σ.holder = some w) (hc : σ.chain.Perm (rs ++ rest)) :
    ∃ σ', exec Shm.step (rs.map .recycle) σ = some σ' ∧ σ'.chain.Perm rest ∧ σ'.free = σ.free ∧
      σ'.tail = σ.tail ∧ σ'.holder = some { w with own := rs.reverse ++ w.own } := by
  induction rs generalizing σ w with
  | nil => exact ⟨σ, rfl, hc, rfl, rfl, hw⟩
  | cons r rs ih =>
    have hr : r ∈ σ.chain := hc.mem_iff.mpr mem_cons_self
    have hrest : (σ.chain.erase r).Perm (rs ++ rest) := by
      have := hc.erase r
      rwa [cons_append, erase_cons_head] at this
    obtain ⟨σ', hrun, hchain, hfree, htail, hown⟩ := ih
      (σ := { σ with chain := σ.chain.erase r }.setHolder { w with own := r :: w.own }) rfl hrest
    refine ⟨σ', ?_, hchain, hfree, htail, ?_⟩
    · rw [map_cons, exec, Shm.step, hw, Option.bind_some, Shm.recycle, if_pos hr]
      exact hrun
    · rw [hown, reverse_cons, append_assoc]
      rfl

theorem exec_allocFree (l rest : List (Nat × Nat)) (hw : σ.holder = some w)
    (hscan : w.scan = some ([], xmin)) (hf : σ.free.Perm (l ++ rest))
    (hl : ∀ f ∈ l, f.2 = 0 ∨ f.2 < xmin) :
    ∃ σ', exec Shm.step (l.map fun f => .allocFree f.1 f.2 false) σ = some σ' ∧ σ'.free.Perm rest ∧
      σ'.chain = σ.chain ∧ σ'.tail = σ.tail ∧
      σ'.holder = some { w with own := (l.map Prod.fst).reverse ++ w.own } := by
  induction l generalizing σ w with
  | nil => exact ⟨σ, rfl, hf, rfl, rfl, hw⟩
  | cons f l ih =>
    have hmem : (f.1, f.2) ∈ σ.free := hf.mem_iff.mpr mem_cons_self
    have hguard : Shm.Reusable w f.2 := ⟨xmin, hscan, hl f mem_cons_self⟩
    have hrest : (σ.free.erase f).Perm (l ++ rest) := by
      have := hf.erase f
      rwa [cons_append, erase_cons_head] at this
    obtain ⟨σ', hrun, hfree, hchain, htail, hown⟩ := ih
      (σ := { σ with free := σ.free.erase f }.setHolder { w with own := f.1 :: w.own })
      (w := { w with own := f.1 :: w.own }) rfl hscan hrest fun x hx => hl x (mem_cons_of_mem _ hx)
    refine ⟨σ', ?_, hfree, hchain, htail, ?_⟩
    · rw [map_cons, exec, Shm.step, hw, Option.bind_some, Shm.allocFree, if_pos ⟨hmem, hguard⟩]
      exact hrun
    · rw [hown, map_cons, reverse_cons, append_assoc]
      rfl

theorem exec_allocTail (m : Nat) (hw : σ.holder = some w) :
    ∃ σ', exec Shm.step (replicate m (.allocTail false)) σ = some σ' ∧ σ'.free = σ.free ∧
      σ'.chain = σ.chain ∧ σ'.tail = σ.tail + m ∧
      σ'.holder = some { w with own := (range' σ.tail m).reverse ++ w.own } := by
  induction m generalizing σ w with
  | zero => exact ⟨σ, rfl, rfl, rfl, rfl, hw⟩
  | succ m ih =>
    obtain ⟨σ', hrun, hfree, hchain, htail, hown⟩ := ih
      (σ := { σ with tail := σ.tail + 1 }.setHolder { w with own := σ.tail :: w.own }) rfl
    refine ⟨σ', ?_, hfree, hchain, htail.trans (Nat.succ_add_eq_add_succ ..), ?_⟩
    · rw [replicate_succ, exec, Shm.step, hw]
      exact hrun
    · rw [hown, range'_succ, reverse_cons, append_assoc]
      rfl

/-- What `ed_alloc` takes from the chain, the guard of the protocol lets it take: a scan that ended with
`xmin` allows one step for each page. -/
theorem Handed.steps (h : Handed xmin npg s c out s' recycled taken m c') (hm : Mirrors σ s c)
    (hw : σ.holder = some w) (hscan : w.scan = some ([], xmin)) :
    ∃ (l : List (Nat × Nat)) (σ' : Shm E), exec Shm.step (recycled.map .recycle ++
        ((l.map fun f => .allocFree f.1 f.2 false) ++ replicate m (.allocTail false))) σ = some σ' ∧
      Mirrors σ' s' c' ∧ ∃ own, σ'.holder = some { w with own := own } ∧ own.Perm (out ++ w.own) := by
  obtain ⟨sorted, hsorted, -, hout⟩ := h.out
  obtain ⟨all, hall, hfor⟩ := hm.free
  rw [h.entries] at hfor
  have htaken := forall₂_take_append _ _ _ hfor
  have hrest := forall₂_drop_append _ _ _ hfor
  rw [← take_append_drop taken.length all] at hall
  generalize all.take taken.length = l, all.drop taken.length = rest at htaken hrest hall
  have hnos : l.map Prod.fst = taken.map Prod.snd :=
    forall₂_eq_eq_eq ▸ (forall₂_map_left_iff.mpr (forall₂_map_right_iff.mpr (htaken.imp fun _ _ h => h.1)))
  have hguard : ∀ f ∈ l, f.2 = 0 ∨ f.2 < xmin := by
    intro f hf
    obtain ⟨i, hi, rfl⟩ := mem_iff_getElem.mp hf
    obtain ⟨hlen, hget⟩ := forall₂_iff_get.mp htaken
    have hle := (hget i hi (hlen ▸ hi)).2
    have hun := h.unseen _ (get_mem taken ⟨i, hlen ▸ hi⟩)
    simp only [get_eq_getElem] at hle hun
    omega
  obtain ⟨σ1, hrun1, hchain1, hfree1, htail1, hown1⟩ :=
    exec_recycle recycled _ hw (hm.chain.trans (Perm.of_eq h.nodes))
  obtain ⟨σ2, hrun2, hfree2, hchain2, htail2, hown2⟩ :=
    exec_allocFree l rest hown1 hscan (hfree1 ▸ hall.symm) hguard
  obtain ⟨σ3, hrun3, hfree3, hchain3, htail3, hown3⟩ := exec_allocTail m hown2
  refine ⟨l, σ3, ?_, ⟨?_, ⟨rest, ?_, hrest⟩, ?_⟩, _, hown3, ?_⟩
  · rw [exec_append, hrun1, Option.bind_some, exec_append, hrun2, Option.bind_some, hrun3]
  · rw [hchain3, hchain2]
    exact hchain1
  · rw [hfree3]
    exact hfree2.symm
  · rw [htail3, htail2, htail1, hm.tail, h.start]
  · rw [htail2, htail1, hm.tail, hnos, hout, perm_iff_count]
    intro y
    have hsort := hsorted.count_eq y
    simp only [count_append, count_reverse] at hsort ⊢
    omega

/-- What a transaction has accounted for, the guard of the protocol lets it publish. -/
theorem accounts_of_txnOk {g : Geom} {t : St E} {R T : List Nat} {hs : EdDb → Nat}
    (h : TxnOk g t R T hs) (hpages : σ.pages = t.pages) (htree : σ.treeList.Perm T)
    (hgc : w.gc = t.txn.gc) (hown : w.own.Perm t.txn.pg) :
    σ.Accounts w (rootNo t) hs t.txn.used (t.txn.pg.drop t.txn.npgused) := by
  refine ⟨?_, hown.trans (Perm.of_eq (take_append_drop ..).symm)⟩
  rw [hpages, hgc]
  exact h.account.trans (htree.symm.append_right _)

end Steps

end Eddy.Gc
