import Eddy.Protocol.Clock

/-!
# Eddy — where the pages are while readers read

Every page of the index is in a published tree, in one of the stocks (the pages of the writer, those
kept for later, the GC chain, the free list), among the pages a commit has replaced and not yet
freed, or nowhere. No page that a reader can still reach is in a stock, except in the free list with
a transaction id greater than the number of the reader's tree.
-/

namespace Eddy

open List Function

variable {E : Type} {p f : Nat} {free : List (Nat × Nat)}

/-- No reader can reach the page. -/
def Unread (σ : Shm E) (p : Nat) : Prop := ∀ i, ∀ r ∈ (σ.phase i).refs, p ∉ σ.reach r

/-- The pages of the writer, those kept for later and the GC chain. -/
def Shm.kept (σ : Shm E) : List Nat := σ.own ++ (σ.pool ++ σ.chain)

/-- The invariant of the page lists. -/
structure Stock (σ : Shm E) : Prop where
  nodup : σ.stocks.Nodup
  lt : ∀ p ∈ σ.stocks, p < σ.tail
  treeNodup : σ.treeList.Nodup
  tree : ∀ p ∈ σ.treeList, p < σ.tail ∧ p ∉ σ.stocks
  working : ∀ w, σ.holder = some w → w.stage = .working →
    w.gc.Nodup ∧ ∀ p ∈ w.gc, p ∈ σ.treeList
  late : ∀ w, σ.holder = some w → w.stage ≠ .working → w.gc.Nodup ∧ ∀ p ∈ w.gc,
    p < σ.tail ∧ p ∉ σ.stocks ∧ p ∉ σ.treeList ∧
      ∀ i, ∀ r ∈ (σ.phase i).refs, p ∈ σ.reach r → r.ver < σ.ver
  unread : ∀ p ∈ σ.kept, Unread σ p
  reach : ∀ i, ∀ r ∈ (σ.phase i).refs, ∀ p ∈ σ.reach r, p < σ.tail ∧
    ∀ f, (p, f) ∈ σ.free → r.ver < f

namespace Stock

variable {σ σ' : Shm E}

theorem mem_stocks_of_kept (h : p ∈ σ.kept) : p ∈ σ.stocks := by
  simp only [Shm.kept, Shm.stocks, mem_append] at h ⊢
  tauto

theorem mem_stocks_of_free (h : (p, f) ∈ σ.free) : p ∈ σ.stocks := by
  have hp : p ∈ σ.freePages := mem_map_of_mem (f := Prod.fst) h
  simp only [Shm.stocks, mem_append]
  tauto

theorem reusable (h : Stock σ) (hc : Clock σ.ids) {w : Holder} (hw : σ.holder = some w)
    (hp : (p, f) ∈ σ.free) (hf : Shm.Reusable w f) : Unread σ p := by
  intro i r hr hmem
  have hlt := (h.reach i r hr p hmem).2 f hp
  obtain ⟨m, hscan, hm⟩ := hf
  have hle : m ≤ r.ver := hc.scanned (Clock.holder_ids hw) hscan hr
  omega

theorem unread_of_tail (h : Stock σ) (hp : σ.tail ≤ p) : Unread σ p := by
  intro i r hr hmem
  exact absurd (h.reach i r hr p hmem).1 (by omega)

/-- Pages go from one stock to another; those that come to the writer, to the pages kept for later
or to the GC chain are not read by anybody, nor are those that come to the free list. -/
theorem move (h : Stock σ) (hpages : σ'.pages = σ.pages) (htree : σ'.tree = σ.tree)
    (hheight : σ'.height = σ.height) (hver : σ'.ver = σ.ver)
    (hphase : ∀ i, ∀ r ∈ (σ'.phase i).refs, r ∈ (σ.phase i).refs) (htail : σ.tail ≤ σ'.tail)
    (hholder : ∀ w', σ'.holder = some w' → w'.gc = [] ∨ ∃ w, σ.holder = some w ∧ w'.gc = w.gc ∧
      (w'.stage = .working ↔ w.stage = .working))
    (hnodup : σ'.stocks.Nodup) (hlt : ∀ p ∈ σ'.stocks, p < σ'.tail)
    (hold : ∀ p ∈ σ'.stocks, p ∈ σ.stocks ∨ σ.tail ≤ p)
    (hkept : ∀ p ∈ σ'.kept, Unread σ p)
    (hfree : ∀ p f, (p, f) ∈ σ'.free → (p, f) ∈ σ.free ∨ Unread σ p) : Stock σ' := by
  have hlist : σ'.treeList = σ.treeList := by
    unfold Shm.treeList
    rw [hpages, htree, hheight]
  have hreach : ∀ r, σ'.reach r = σ.reach r := fun r => by
    unfold Shm.reach
    rw [hpages]
  -- a page that is in no stock and below the end stays so
  have hout : ∀ p, p < σ.tail → p ∉ σ.stocks → p < σ'.tail ∧ p ∉ σ'.stocks := fun p hp hno =>
    ⟨by omega, fun hin => (hold p hin).elim hno (by omega)⟩
  refine ⟨hnodup, hlt, hlist ▸ h.treeNodup, fun p hp => ?_, fun w' hw' hs => ?_,
    fun w' hw' hs => ?_, fun p hp i r hr => ?_, fun i r hr p hp => ?_⟩
  · rw [hlist] at hp
    exact hout p (h.tree p hp).1 (h.tree p hp).2
  · rcases hholder w' hw' with hgc | ⟨w, hw, hgc, hstage⟩
    · rw [hgc]
      exact ⟨nodup_nil, nofun⟩
    · rw [hgc, hlist]
      exact h.working w hw (hstage.mp hs)
  · rcases hholder w' hw' with hgc | ⟨w, hw, hgc, hstage⟩
    · rw [hgc]
      exact ⟨nodup_nil, nofun⟩
    · obtain ⟨hnd, hl⟩ := h.late w hw fun e => hs (hstage.mpr e)
      rw [hgc, hlist, hver]
      refine ⟨hnd, fun p hp => ?_⟩
      obtain ⟨h1, h2, h3, h4⟩ := hl p hp
      refine ⟨(hout p h1 h2).1, (hout p h1 h2).2, h3, fun i r hr hmem => ?_⟩
      rw [hreach] at hmem
      exact h4 i r (hphase i r hr) hmem
  · rw [hreach]
    exact hkept p hp i r (hphase i r hr)
  · rw [hreach] at hp
    obtain ⟨h1, h2⟩ := h.reach i r (hphase i r hr) p hp
    refine ⟨by omega, fun f hf => ?_⟩
    rcases hfree p f hf with h' | h'
    · exact h2 f h'
    · exact absurd hp (h' i r (hphase i r hr))

theorem shift (h : Stock σ) (hpages : σ'.pages = σ.pages) (htree : σ'.tree = σ.tree)
    (hheight : σ'.height = σ.height) (hver : σ'.ver = σ.ver)
    (hphase : ∀ i, ∀ r ∈ (σ'.phase i).refs, r ∈ (σ.phase i).refs) (htail : σ'.tail = σ.tail)
    (hholder : ∀ w', σ'.holder = some w' → w'.gc = [] ∨ ∃ w, σ.holder = some w ∧ w'.gc = w.gc ∧
      (w'.stage = .working ↔ w.stage = .working))
    (gone : List Nat) (hperm : (σ'.stocks ++ gone).Perm σ.stocks)
    (hkept : ∀ p ∈ σ'.kept, Unread σ p)
    (hfree : ∀ p f, (p, f) ∈ σ'.free → (p, f) ∈ σ.free ∨ Unread σ p) : Stock σ' := by
  have hsub : ∀ p ∈ σ'.stocks, p ∈ σ.stocks := fun p hp =>
    hperm.subset (mem_append_left gone hp)
  refine h.move hpages htree hheight hver hphase htail.ge hholder ?_ ?_ (fun p hp => .inl (hsub p hp))
    hkept hfree
  · exact (nodup_append.mp (hperm.nodup_iff.mpr h.nodup)).1
  · intro p hp
    rw [htail]
    exact h.lt p (hsub p hp)

theorem refs_idle {ph : Nat → Phase} {i : Nat} (j : Nat) {r : RootRef}
    (hr : r ∈ (update ph i .idle j).refs) : r ∈ (ph j).refs := by
  by_cases e : j = i
  · rw [e, update_self] at hr
    cases hr
  · rwa [update_of_ne e] at hr

theorem restock (h : Stock σ) {pool chain : List Nat} (gone : List Nat)
    (hperm : (pool ++ (chain ++ free.map Prod.fst) ++ gone).Perm
      (σ.pool ++ (σ.chain ++ σ.free.map Prod.fst)))
    (hkept : ∀ q ∈ pool ++ chain, q ∈ σ.kept ∨ Unread σ q)
    (hfree : ∀ q f, (q, f) ∈ free → (q, f) ∈ σ.free ∨ Unread σ q) :
    Stock { σ with pool := pool, chain := chain, free := free } := by
  refine h.shift rfl rfl rfl rfl (fun _ _ hr => hr) rfl (fun w e => .inr ⟨w, e, rfl, Iff.rfl⟩) gone ?_
    (fun q hq => ?_) hfree
  · show (σ.own ++ (pool ++ (chain ++ free.map Prod.fst)) ++ gone).Perm
      (σ.own ++ (σ.pool ++ (σ.chain ++ σ.free.map Prod.fst)))
    rw [append_assoc]
    exact hperm.append_left σ.own
  · rcases mem_append.mp hq with hq | hq
    · exact h.unread q (mem_append_left _ hq)
    · exact (hkept q hq).elim (h.unread q) id

section Holder

variable {w : Holder} {p : Nat}

theorem own_of_holder (hw : σ.holder = some w) : σ.own = w.own := by
  unfold Shm.own
  rw [hw]
  rfl

theorem stocks_of_holder (hw : σ.holder = some w) :
    σ.stocks = w.own ++ (σ.pool ++ (σ.chain ++ σ.free.map Prod.fst)) := by
  unfold Shm.stocks
  rw [own_of_holder hw]
  rfl

theorem mem_kept_of_holder (hw : σ.holder = some w) :
    σ.kept = w.own ++ (σ.pool ++ σ.chain) := by
  unfold Shm.kept
  rw [own_of_holder hw]

theorem rearrange (h : Stock σ) (hw : σ.holder = some w) {own pool chain : List Nat}
    (gone : List Nat) (hperm : (own ++ (pool ++ (chain ++ free.map Prod.fst)) ++ gone).Perm
      (w.own ++ (σ.pool ++ (σ.chain ++ σ.free.map Prod.fst))))
    (hkept : ∀ q ∈ own ++ (pool ++ chain), q ∈ σ.kept ∨ Unread σ q)
    (hfree : ∀ q f, (q, f) ∈ free → (q, f) ∈ σ.free ∨ Unread σ q) :
    Stock { σ with
      holder := some { w with own := own }
      pool := pool
      chain := chain
      free := free } := by
  refine h.shift rfl rfl rfl rfl (fun _ _ hr => hr) rfl (fun w' e => ?_) gone ?_ (fun q hq => ?_) hfree
  · cases e
    exact .inr ⟨w, hw, rfl, Iff.rfl⟩
  · rw [stocks_of_holder hw]
    exact hperm
  · exact (hkept q hq).elim (h.unread q) id

theorem reorder (h : Stock σ) (hw : σ.holder = some w) {own pool chain : List Nat}
    (hperm : (own ++ (pool ++ chain)).Perm (w.own ++ (σ.pool ++ σ.chain))) :
    Stock { σ with holder := some { w with own := own }, pool := pool, chain := chain } := by
  refine h.rearrange hw [] ?_ (fun q hq => .inl ?_) fun _ _ hf => .inl hf
  · simpa only [append_assoc, append_nil] using hperm.append_right (σ.free.map Prod.fst)
  · rw [mem_kept_of_holder hw]
    exact hperm.subset hq

theorem map_fst_erase (hp : (p, f) ∈ free) :
    (free.map Prod.fst).Perm (p :: (free.erase (p, f)).map Prod.fst) :=
  (perm_cons_erase hp).map Prod.fst

variable (h : Stock σ)

include h

theorem take (hw : σ.holder = some w) (hp : p ∈ σ.pool) :
    Stock ({ σ with pool := σ.pool.erase p }.setHolder { w with own := p :: w.own }) := by
  refine h.reorder hw (perm_iff_count.mpr fun x => ?_)
  have hc := (perm_cons_erase hp).count_eq x
  simp only [count_append, count_cons] at hc ⊢
  omega

theorem recycle (hw : σ.holder = some w) (hp : p ∈ σ.chain) :
    Stock ({ σ with chain := σ.chain.erase p }.setHolder { w with own := p :: w.own }) := by
  refine h.reorder hw (perm_iff_count.mpr fun x => ?_)
  have hc := (perm_cons_erase hp).count_eq x
  simp only [count_append, count_cons] at hc ⊢
  omega

theorem allocFree (hw : σ.holder = some w) (hp : (p, f) ∈ σ.free) (hu : Unread σ p) (chain : Bool) :
    Stock ({ σ with free := σ.free.erase (p, f) }.grant w p chain) := by
  have hc := fun x => (map_fst_erase hp).count_eq x
  have hkept : ∀ q, q = p ∨ q ∈ σ.kept → q ∈ σ.kept ∨ Unread σ q := by
    rintro q (rfl | hq)
    · exact .inr hu
    · exact .inl hq
  rw [mem_kept_of_holder hw] at hkept
  cases chain with
  | true =>
    refine h.restock [] (perm_iff_count.mpr fun x => ?_) (fun q hq => ?_)
      fun _ _ hf => .inl (mem_of_mem_erase hf)
    · have := hc x
      simp only [count_append, count_cons, count_nil] at this ⊢
      omega
    · rw [mem_kept_of_holder hw]
      refine hkept q ?_
      simp only [mem_append, mem_cons] at hq ⊢
      tauto
  | false =>
    refine h.rearrange hw [] (perm_iff_count.mpr fun x => ?_) (fun q hq => ?_)
      fun _ _ hf => .inl (mem_of_mem_erase hf)
    · have := hc x
      simp only [count_append, count_cons, count_nil] at this ⊢
      omega
    · rw [mem_kept_of_holder hw]
      refine hkept q ?_
      simp only [mem_append, mem_cons] at hq ⊢
      tauto

theorem allocTail (hw : σ.holder = some w) (chain : Bool) :
    Stock ({ σ with tail := σ.tail + 1 }.grant w σ.tail chain) := by
  have hnew : σ.tail ∉ σ.stocks := fun hin => (h.lt _ hin).false
  have hperm : ({ σ with tail := σ.tail + 1, free := (σ.tail, 0) :: σ.free } : Shm E).stocks.Perm
      (σ.tail :: σ.stocks) := by
    refine perm_iff_count.mpr fun x => ?_
    simp only [Shm.stocks, Shm.own, Shm.freePages, map_cons, count_append,
      count_cons]
    omega
  have h' : Stock { σ with tail := σ.tail + 1, free := (σ.tail, 0) :: σ.free } := by
    refine h.move rfl rfl rfl rfl (fun _ _ hr => hr) (Nat.le_succ _)
      (fun w e => .inr ⟨w, e, rfl, Iff.rfl⟩)
      (hperm.nodup_iff.mpr (nodup_cons.mpr ⟨hnew, h.nodup⟩)) (fun p hp => ?_) (fun p hp => ?_)
      h.unread fun p f hf => ?_
    · rcases mem_cons.mp (hperm.subset hp) with rfl | hp
      · exact Nat.lt_succ_self _
      · exact (h.lt p hp).trans (Nat.lt_succ_self _)
    · rcases mem_cons.mp (hperm.subset hp) with rfl | hp
      · exact .inr le_rfl
      · exact .inl hp
    · rcases mem_cons.mp hf with e | hf
      · cases e
        exact .inr (h.unread_of_tail le_rfl)
      · exact .inl hf
  have h2 := h'.allocFree hw (p := σ.tail) (f := 0) (mem_cons_self ..)
    (h.unread_of_tail le_rfl) chain
  rwa [show List.erase ((σ.tail, 0) :: σ.free) (σ.tail, 0) = σ.free from
    erase_cons_head ..] at h2

theorem giveFree (hw : σ.holder = some w) (hp : p ∈ w.own) :
    Stock ({ σ with free := σ.free ++ [(p, 0)] }.setHolder { w with own := w.own.erase p }) := by
  have hunread : Unread σ p := h.unread p (mem_append_left _ (own_of_holder hw ▸ hp))
  refine h.rearrange hw [] (perm_iff_count.mpr fun x => ?_) (fun q hq => .inl ?_)
    fun q f hf => ?_
  · have hc := (perm_cons_erase hp).count_eq x
    simp only [map_append, map_cons, map_nil, count_append, count_cons,
      count_nil] at hc ⊢
    omega
  · rw [mem_kept_of_holder hw]
    simp only [mem_append] at hq ⊢
    exact hq.imp_left mem_of_mem_erase
  · rcases mem_append.mp hf with hf | hf
    · exact .inl hf
    · cases mem_singleton.mp hf
      exact .inr hunread

theorem giveKeep (hw : σ.holder = some w) (hp : p ∈ w.own) :
    Stock ({ σ with pool := p :: σ.pool }.setHolder { w with own := w.own.erase p }) := by
  refine h.reorder hw (perm_iff_count.mpr fun x => ?_)
  have hc := (perm_cons_erase hp).count_eq x
  simp only [count_append, count_cons] at hc ⊢
  omega

end Holder

/-! ## The pool -/

theorem drain (h : Stock σ) (hp : p ∈ σ.pool) :
    Stock { σ with pool := σ.pool.erase p, free := σ.free ++ [(p, 0)] } := by
  have hin : ∀ q ∈ σ.pool, q ∈ σ.kept := fun q hq =>
    mem_append_right _ (mem_append_left _ hq)
  refine h.restock [] (perm_iff_count.mpr fun x => ?_) (fun q hq => .inl ?_) fun q f hf => ?_
  · have hc := (perm_cons_erase hp).count_eq x
    simp only [map_append, map_cons, map_nil, count_append, count_cons,
      count_nil] at hc ⊢
    omega
  · rcases mem_append.mp hq with hq | hq
    · exact hin q (mem_of_mem_erase hq)
    · exact mem_append_right _ (mem_append_right _ hq)
  · rcases mem_append.mp hf with hf | hf
    · exact .inl hf
    · cases mem_singleton.mp hf
      exact .inr (h.unread _ (hin _ hp))

theorem lose (h : Stock σ) (hp : p ∈ σ.pool) : Stock { σ with pool := σ.pool.erase p } := by
  refine h.restock [p] (perm_iff_count.mpr fun x => ?_) (fun q hq => .inl ?_)
    fun _ _ hf => .inl hf
  · have hc := (perm_cons_erase hp).count_eq x
    simp only [count_append, count_cons, count_nil] at hc ⊢
    omega
  · refine mem_append_right _ (mem_append.mpr ?_)
    exact (mem_append.mp hq).imp_left mem_of_mem_erase

/-! ## The trees -/

theorem treeList_write (h : Stock σ) (hp : p ∈ σ.kept) (b : EdBpt E) :
    ({ σ with pages := update σ.pages p b } : Shm E).treeList = σ.treeList := by
  have hout : p ∉ σ.treeList := fun hin => (h.tree p hin).2 (mem_stocks_of_kept hp)
  have hpages : ∀ q, q ≠ p → update σ.pages p b q = σ.pages q := fun q hq =>
    update_of_ne hq ..
  unfold Shm.treeList at hout ⊢
  rw [mem_append, not_or] at hout
  rw [treePages_congr fun q hq => hpages q fun e => hout.1 (e ▸ hq),
    treePages_congr fun q hq => hpages q fun e => hout.2 (e ▸ hq)]

theorem reach_write (h : Stock σ) (hp : p ∈ σ.kept) (b : EdBpt E) {i : Nat} {r : RootRef}
    (hr : r ∈ (σ.phase i).refs) :
    ({ σ with pages := update σ.pages p b } : Shm E).reach r = σ.reach r := by
  refine treePages_congr fun q hq => update_of_ne (fun e => ?_) ..
  exact h.unread p hp i r hr (e ▸ hq)

theorem write (h : Stock σ) (hp : p ∈ σ.kept) (b : EdBpt E) :
    Stock { σ with pages := update σ.pages p b } := by
  have hlist := h.treeList_write hp b
  refine ⟨h.nodup, h.lt, hlist ▸ h.treeNodup, hlist ▸ h.tree, hlist ▸ h.working,
    fun w hw hs => ?_, fun q hq i r hr => ?_, fun i r hr => ?_⟩
  · obtain ⟨h1, h2⟩ := h.late w hw hs
    refine ⟨h1, fun q hq => ?_⟩
    rw [hlist]
    obtain ⟨h3, h4, h5, h6⟩ := h2 q hq
    exact ⟨h3, h4, h5, fun i r hr => h.reach_write hp b hr ▸ h6 i r hr⟩
  · rw [h.reach_write hp b hr]
    exact h.unread q hq i r hr
  · rw [h.reach_write hp b hr]
    exact h.reach i r hr

theorem reach_root (d : EdDb) (hp : p ∈ σ.reach (σ.root d)) : p ∈ σ.treeList := by
  cases d with
  | keys => exact mem_append_left _ hp
  | blocks => exact mem_append_right _ hp

theorem load (h : Stock σ) (i : Nat) (ph : Phase)
    (hrefs : ∀ r ∈ ph.refs, r ∈ (σ.phase i).refs ∨ ∃ d, r = σ.root d) :
    Stock (σ.setPhase i ph) := by
  -- a new root of a process is a published one
  have hnew : ∀ j, ∀ r ∈ (update σ.phase i ph j).refs,
      r ∈ (σ.phase j).refs ∨ ∃ d, r = σ.root d := by
    intro j r hr
    by_cases e : j = i
    · rw [e, update_self] at hr
      rw [e]
      exact hrefs r hr
    · rw [update_of_ne e] at hr
      exact .inl hr
  refine ⟨h.nodup, h.lt, h.treeNodup, h.tree, h.working, fun w hw hs => ?_, fun p hp j r hr => ?_,
    fun j r hr p hp => ?_⟩
  · obtain ⟨h1, h2⟩ := h.late w hw hs
    refine ⟨h1, fun q hq => ?_⟩
    obtain ⟨h3, h4, h5, h6⟩ := h2 q hq
    refine ⟨h3, h4, h5, fun j r hr hmem => ?_⟩
    rcases hnew j r hr with hr | ⟨d, rfl⟩
    · exact h6 j r hr hmem
    · exact absurd (reach_root d hmem) h5
  · rcases hnew j r hr with hr | ⟨d, rfl⟩
    · exact h.unread p hp j r hr
    · exact fun hmem => (h.tree p (reach_root d hmem)).2 (mem_stocks_of_kept hp)
  · rcases hnew j r hr with hr | ⟨d, rfl⟩
    · exact h.reach j r hr p hp
    · obtain ⟨h1, h2⟩ := h.tree p (reach_root d hp)
      exact ⟨h1, fun f hf => absurd (mem_stocks_of_free hf) h2⟩

/-! ## The commit -/

section Commit

variable {w : Holder}

theorem discard (h : Stock σ) (hw : σ.holder = some w) (hs : w.stage = .working)
    (hp : p ∈ σ.treeList) (hgc : p ∉ w.gc) : Stock (σ.setHolder { w with gc := p :: w.gc }) := by
  have hown : (σ.setHolder { w with gc := p :: w.gc }).own = σ.own := (own_of_holder hw).symm
  have hstocks : (σ.setHolder { w with gc := p :: w.gc }).stocks = σ.stocks := by
    unfold Shm.stocks
    rw [hown]
    rfl
  have hkept : (σ.setHolder { w with gc := p :: w.gc }).kept = σ.kept := by
    unfold Shm.kept
    rw [hown]
    rfl
  obtain ⟨h1, h2⟩ := h.working w hw hs
  refine ⟨hstocks ▸ h.nodup, hstocks ▸ h.lt, h.treeNodup, hstocks ▸ h.tree, fun w' e _ => ?_,
    fun w' e hs' => ?_, hkept ▸ h.unread, h.reach⟩
  · cases e
    refine ⟨nodup_cons.mpr ⟨hgc, h1⟩, fun q hq => ?_⟩
    rcases mem_cons.mp hq with rfl | hq
    · exact hp
    · exact h2 q hq
  · cases e
    exact absurd hs hs'

/-- The store of `hdr->vtree`. The replaced pages leave the published trees, and only readers of older
trees reach them; the used pages leave the stocks. -/
theorem publish (h : Stock σ) (hc : Clock σ.ids) (hw : σ.holder = some w) (hs : w.stage = .working)
    {t : EdDb → Option Nat} {ht : EdDb → Nat} {used rest : List Nat}
    (hacc : σ.Accounts w t ht used rest) :
    Stock ({ σ with tree := t, height := ht, ver := σ.xid + 1, hist := t :: σ.hist
      }.setHolder { w with own := rest, stage := .published }) := by
  obtain ⟨htrees, hown⟩ := hacc
  generalize hnew : treePages σ.pages (t .keys) (ht .keys) ++
    treePages σ.pages (t .blocks) (ht .blocks) = new at htrees
  have hperm : σ.stocks.Perm (used ++ (rest ++ (σ.pool ++ (σ.chain ++ σ.free.map Prod.fst)))) := by
    rw [stocks_of_holder hw, ← append_assoc used]
    exact hown.append_right _
  have hnd := hperm.nodup_iff.mp h.nodup
  have husedIn : ∀ p ∈ used, p ∈ σ.stocks := fun p hp => hperm.symm.subset (mem_append_left _ hp)
  have hrestIn : ∀ p ∈ rest ++ (σ.pool ++ (σ.chain ++ σ.free.map Prod.fst)), p ∈ σ.stocks :=
    fun p hp => hperm.symm.subset (mem_append_right _ hp)
  have hkeptIn : ∀ p ∈ rest ++ (σ.pool ++ σ.chain), p ∈ σ.kept := fun p hp => by
    rw [mem_kept_of_holder hw, mem_append]
    exact (mem_append.mp hp).imp_left fun hp =>
      hown.symm.subset (mem_append_right _ hp)
  -- the new trees and the replaced pages are made of the old trees and the used pages
  have hall : (new ++ w.gc).Nodup := by
    refine htrees.nodup_iff.mpr (nodup_append.mpr ⟨h.treeNodup,
      (nodup_append.mp hnd).1, fun p hp q hq e => ?_⟩)
    exact (h.tree p hp).2 (husedIn p (e ▸ hq))
  obtain ⟨hnewNd, hgcNd, hdisj⟩ := nodup_append.mp hall
  obtain ⟨-, hgc⟩ := h.working w hw hs
  have hver : σ.ver = σ.xid := hc.ver fun v hv => by
    cases (Clock.holder_ids hw).symm.trans hv
    show w.stage ≠ .published
    rw [hs]
    decide
  refine ⟨(nodup_append.mp hnd).2.1, fun p hp => h.lt p (hrestIn p hp), ?_, fun p hp => ?_,
    fun w' e hs' => ?_, fun w' e _ => ?_, fun p hp => h.unread p (hkeptIn p hp), fun i r hr p hp => ?_⟩
  · exact (congrArg List.Nodup hnew).mpr hnewNd
  · have hp' : p ∈ new := (congrArg (p ∈ ·) hnew).mp hp
    rcases mem_append.mp (htrees.subset (mem_append_left _ hp')) with hp | hp
    · exact ⟨(h.tree p hp).1, fun hin => (h.tree p hp).2 (hrestIn p hin)⟩
    · exact ⟨h.lt p (husedIn p hp), fun hin => (nodup_append.mp hnd).2.2 p hp p hin rfl⟩
  · cases e
    cases hs'
  · cases e
    refine ⟨hgcNd, fun p hp => ⟨(h.tree p (hgc p hp)).1, fun hin =>
      (h.tree p (hgc p hp)).2 (hrestIn p hin), fun hin => ?_, fun i r hr _ => ?_⟩⟩
    · have hin' : p ∈ new := (congrArg (p ∈ ·) hnew).mp hin
      exact hdisj p hin' p hp rfl
    · have hle : r.ver ≤ σ.ver := ((hc.procs i).refs r hr).2
      show r.ver < σ.xid + 1
      omega
  · exact h.reach i r hr p hp

/-- Pages that are in no list come to the free list, with a transaction id greater than the number of
any tree in which a reader reaches them. -/
theorem addFree (h : Stock σ) {l : List Nat} (hnd : l.Nodup)
    (hl : ∀ p ∈ l, p < σ.tail ∧ p ∉ σ.stocks ∧ p ∉ σ.treeList ∧
      ∀ i, ∀ r ∈ (σ.phase i).refs, p ∈ σ.reach r → r.ver < f)
    (hgc : ∀ v, σ.holder = some v → ∀ p ∈ v.gc, p ∉ l) :
    Stock { σ with free := σ.free ++ l.map (fun p => (p, f)) } := by
  have hstocks : ({ σ with free := σ.free ++ l.map (fun p => (p, f)) } : Shm E).stocks =
      σ.stocks ++ l := by
    simp [Shm.stocks, Shm.freePages, Shm.own, Function.comp_def]
  refine ⟨?_, fun p hp => ?_, h.treeNodup, fun p hp => ?_, h.working, fun v hv hs => ?_, h.unread,
    fun i r hr p hp => ?_⟩
  · rw [hstocks]
    exact nodup_append.mpr ⟨h.nodup, hnd, fun p hp q hq e => (hl q hq).2.1 (e ▸ hp)⟩
  · rw [hstocks] at hp
    exact (mem_append.mp hp).elim (h.lt p) fun hp => (hl p hp).1
  · rw [hstocks]
    exact ⟨(h.tree p hp).1, fun hin => (mem_append.mp hin).elim (h.tree p hp).2 fun hin =>
      (hl p hin).2.2.1 hp⟩
  · obtain ⟨h1, h2⟩ := h.late v hv hs
    refine ⟨h1, fun p hp => ?_⟩
    rw [hstocks]
    obtain ⟨h3, h4, h5⟩ := h2 p hp
    exact ⟨h3, fun hin => (mem_append.mp hin).elim h4 (hgc v hv p hp), h5⟩
  · obtain ⟨h1, h2⟩ := h.reach i r hr p hp
    refine ⟨h1, fun g hg => ?_⟩
    rcases mem_append.mp hg with hg | hg
    · exact h2 g hg
    · obtain ⟨q, hq, e⟩ := mem_map.mp hg
      cases e
      exact (hl p hq).2.2.2 i r hr hp

theorem loseGc (h : Stock σ) (hw : σ.holder = some w) :
    Stock (σ.setHolder { w with gc := [], stage := .done }) := by
  refine h.shift rfl rfl rfl rfl (fun _ _ hr => hr) rfl (fun v e => .inl ?_) [] ?_ ?_
    fun _ _ hf => .inl hf
  · cases e
    rfl
  · rw [append_nil, stocks_of_holder hw, stocks_of_holder rfl]
    rfl
  · intro p hp
    refine h.unread p ?_
    rw [mem_kept_of_holder hw]
    exact hp

theorem freeGc (h : Stock σ) (hc : Clock σ.ids) (hw : σ.holder = some w) (hs : w.stage = .stamped) :
    Stock ({ σ with free := σ.free ++ w.gc.map (fun p => (p, σ.xid))
      }.setHolder { w with gc := [], stage := .done }) := by
  obtain ⟨hnd, hgc⟩ := h.late w hw (by rw [hs]; decide)
  have hver : σ.ver = σ.xid := hc.ver fun v hv => by
    cases (Clock.holder_ids hw).symm.trans hv
    show w.stage ≠ .published
    rw [hs]
    decide
  refine (h.loseGc hw).addFree hnd (fun p hp => ?_) fun v e q hq => ?_
  · obtain ⟨h1, h2, h3, h4⟩ := hgc p hp
    refine ⟨h1, ?_, h3, hver ▸ h4⟩
    rwa [stocks_of_holder hw] at h2
  · cases e
    cases hq

end Commit

/-- The page is in no list, and no reader can reach it. -/
structure Stray (σ : Shm E) (p : Nat) : Prop where
  lt : p < σ.tail
  stocks : p ∉ σ.stocks
  tree : p ∉ σ.treeList
  gc : ∀ w, σ.holder = some w → p ∉ w.gc
  unread : Unread σ p

theorem repair (h : Stock σ) {leaks : List Nat} (hnd : leaks.Nodup)
    (hstray : ∀ p ∈ leaks, Stray σ p) :
    Stock { σ with free := σ.free ++ leaks.map (fun p => (p, 0)) } :=
  h.addFree hnd
    (fun p hp => ⟨(hstray p hp).lt, (hstray p hp).stocks, (hstray p hp).tree, fun i r hr hmem =>
      absurd hmem ((hstray p hp).unread i r hr)⟩)
    fun v hv p hp hin => (hstray p hin).gc v hv hp

/-! ## All steps -/

theorem same (h : Stock σ) (hpages : σ'.pages = σ.pages) (htree : σ'.tree = σ.tree)
    (hheight : σ'.height = σ.height) (hver : σ'.ver = σ.ver)
    (hphase : ∀ i, ∀ r ∈ (σ'.phase i).refs, r ∈ (σ.phase i).refs) (htail : σ'.tail = σ.tail)
    (hholder : ∀ w', σ'.holder = some w' → w'.gc = [] ∨ ∃ w, σ.holder = some w ∧ w'.gc = w.gc ∧
      (w'.stage = .working ↔ w.stage = .working))
    (hown : σ'.own = σ.own) (hpool : σ'.pool = σ.pool) (hchain : σ'.chain = σ.chain)
    (hfree : σ'.free = σ.free) : Stock σ' := by
  have hstocks : σ'.stocks = σ.stocks := by
    unfold Shm.stocks Shm.freePages
    rw [hown, hpool, hchain, hfree]
  refine h.shift hpages htree hheight hver hphase htail hholder [] ?_ (fun p hp => h.unread p ?_)
    fun _ _ hf => .inl (hfree ▸ hf)
  · rw [append_nil, hstocks]
  · unfold Shm.kept at hp ⊢
    rwa [hown, hpool, hchain] at hp

theorem setSlot (h : Stock σ) (i : Nat) (s : ConnSlot) : Stock (σ.setSlot i s) :=
  h.same rfl rfl rfl rfl (fun _ _ hr => hr) rfl (fun w hw => .inr ⟨w, hw, rfl, Iff.rfl⟩) rfl rfl rfl
    rfl

/-- Every step keeps the invariant, if a repair frees pages only that are in no list. -/
theorem step {a : Act E} (h : Stock σ) (hc : Clock σ.ids) (hm : Moved σ a σ')
    (hrep : ∀ granted w st b, a = .repair granted → σ.holder = some w →
      σ.stat w.conn = some st → st.repair granted = some b →
      b.freed.Nodup ∧ ∀ p ∈ b.freed, Stray σ p) : Stock σ' := by
  have hself : ∀ w', σ.holder = some w' → w'.gc = [] ∨ ∃ w, σ.holder = some w ∧ w'.gc = w.gc ∧
      (w'.stage = .working ↔ w.stage = .working) := fun w hw => .inr ⟨w, hw, rfl, Iff.rfl⟩
  cases hm with
  | attach i n _ _ =>
    exact h.same rfl rfl rfl rfl (fun j _ hr => refs_idle j hr) rfl hself rfl rfl rfl rfl
  | detach i _ _ _ =>
    exact h.same rfl rfl rfl rfl (fun _ _ hr => hr) rfl hself rfl rfl rfl rfl
  | readXid i _ _ => exact h.load i _ nofun
  | storeXid i now x _ => exact (h.setSlot i _).load i _ nofun
  | loadKeys i x _ =>
    refine h.load i _ fun r hr => .inr ⟨.keys, ?_⟩
    exact mem_singleton.mp hr
  | loadBlocks i x keys hph =>
    refine h.load i _ fun r hr => ?_
    rcases mem_cons.mp hr with rfl | hr
    · refine .inl ?_
      rw [hph]
      exact mem_singleton_self r
    · exact .inr ⟨.blocks, mem_singleton.mp hr⟩
  | release i now x _ => exact (h.setSlot i _).load i _ nofun
  | lock i _ hw =>
    refine h.same rfl rfl rfl rfl (fun _ _ hr => hr) rfl (fun w e => .inl ?_) ?_ rfl rfl rfl
    · cases e
      rfl
    · unfold Shm.own
      rw [hw]
      rfl
  | take p w hw hp => exact h.take hw hp
  | scanStart w hw =>
    refine h.same rfl rfl rfl rfl (fun _ _ hr => hr) rfl (fun v e => .inr ⟨w, hw, ?_⟩) ?_ rfl rfl rfl
    · cases e
      exact ⟨rfl, Iff.rfl⟩
    · rw [own_of_holder hw]
      rfl
  | scanSlot now w i rest acc hw _ v _ =>
    refine h.same rfl rfl rfl rfl (fun _ _ hr => hr) rfl (fun v e => .inr ⟨w, hw, ?_⟩) ?_ rfl rfl rfl
    · cases e
      exact ⟨rfl, Iff.rfl⟩
    · rw [own_of_holder hw]
      rfl
  | allocFree p f chain w hw hp hf => exact h.allocFree hw hp (h.reusable hc hw hp hf) chain
  | allocTail chain w hw => exact h.allocTail hw chain
  | recycle p w hw hp => exact h.recycle hw hp
  | write p b w hw hp =>
    refine h.write ?_ b
    rw [mem_kept_of_holder hw]
    simp only [mem_append]
    tauto
  | discard p w hw hs hp hgc => exact h.discard hw hs hp hgc
  | publish t ht used rest w hw hs hacc => exact h.publish hc hw hs hacc
  | stampXid w hw hs =>
    refine h.same rfl rfl rfl rfl (fun _ _ hr => hr) rfl (fun v e => .inr ⟨w, hw, ?_⟩) ?_ rfl rfl rfl
    · cases e
      refine ⟨rfl, ?_⟩
      show Stage.stamped = .working ↔ w.stage = .working
      rw [hs]
      decide
    · rw [own_of_holder hw]
      rfl
  | freeGc w hw hs => exact h.freeGc hc hw hs
  | loseGc w hw _ => exact h.loseGc hw
  | giveFree p w hw hp => exact h.giveFree hw hp
  | giveKeep p w hw hp => exact h.giveKeep hw hp
  | drain p w _ hp => exact h.drain hp
  | lose p hp => exact h.lose hp
  | unlock w hw hown _ =>
    refine h.same rfl rfl rfl rfl (fun _ _ hr => hr) rfl nofun ?_ rfl rfl rfl
    rw [own_of_holder hw, hown]
    rfl
  | killHolder i keep gone w _ hw _ hown =>
    have hc' := fun x => hown.count_eq x
    refine h.shift rfl rfl rfl rfl (fun j _ hr => refs_idle j hr) rfl nofun gone ?_ (fun p hp => ?_)
      fun _ _ hf => .inl hf
    · rw [stocks_of_holder hw]
      refine perm_iff_count.mpr fun x => ?_
      have := hc' x
      simp only [Shm.stocks, Shm.own, Shm.freePages, Option.elim_none, count_append,
        count_nil] at this ⊢
      omega
    · refine h.unread p ?_
      rw [mem_kept_of_holder hw]
      have hin : p ∈ keep → p ∈ w.own := fun hp => hown.symm.subset (mem_append_left _ hp)
      simp only [Shm.kept, Shm.own, Option.elim_none, nil_append, mem_append] at hp ⊢
      tauto
  | kill i keep gone _ _ =>
    exact h.same rfl rfl rfl rfl (fun j _ hr => refs_idle j hr) rfl hself rfl rfl rfl rfl
  | statNew i now count seen _ _ _ _ =>
    exact h.same rfl rfl rfl rfl (fun _ _ hr => hr) rfl hself rfl rfl rfl rfl
  | repair granted w st b hw hstat hb =>
    obtain ⟨hnd, hstray⟩ := hrep granted w st b rfl hw hstat hb
    have h' := h.repair hnd hstray
    exact h'.same rfl rfl rfl rfl (fun _ _ hr => hr) rfl hself rfl rfl rfl rfl

theorem create (maxConns : Nat) (pages : Nat → EdBpt E) : Stock (Shm.create maxConns pages) := by
  refine ⟨nodup_singleton _, fun p hp => ?_, nodup_nil, nofun, nofun, nofun, nofun, nofun⟩
  have htail : pgRootGc < (createIdx maxConns).tailStart := by
    have h := edIdxPages_eq (openNconns maxConns)
    show 1 < edIdxPages (openNconns maxConns) + 1
    omega
  cases mem_singleton.mp hp
  exact htail

end Stock

end Eddy
