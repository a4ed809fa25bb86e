import Eddy.Gc.Alloc
import Eddy.Gc.Insert

/-!
# Eddy — `ed_free_pgno` on the pages of the GC

`ed_free_pgno` counts how many new GC pages it needs, allocates them with `ed_alloc`, which may take
pages of the same lists, and then adds the pages. The count and the loop agree as long as the last GC
page has a list before and after that allocation, or has plenty of room.
-/

namespace Eddy.Gc

open Outcome Packed List

variable {sys : Sys} {s s' : GcSt} {pgc : EdPgGc} {ls : List GcList} {c0 c c1 c' : List GcNode}
  {p xid xmin n : Nat} {pg extra new : List Nat} {old : List RemainCall}

/-! ## Compaction -/

/-- The header behind the last list is inside the data area and zero. -/
def BlankEnd (pgc : EdPgGc) : Prop := BlankAt pgc (endOf pgc.data pgc.state)

theorem BlankAt.compact {o : Nat} (h : BlankAt pgc o) (ho : pgc.state.head ≤ o)
    (halign : pgc.state.head % 8 = 0) : BlankAt pgc.compact (o - pgc.state.head) := by
  have hin := h.inside
  have hword : (o - pgc.state.head) / 4 + pgc.state.head / 4 = o / 4 := by omega
  refine ⟨by omega, ?_, ?_, ?_⟩
  · rw [compact_data_of_lt (by omega), hword]
    exact h.lo
  · rw [compact_data_of_lt (by omega), Nat.add_right_comm, hword]
    exact h.hi
  · rw [compact_data_of_lt (by omega), Nat.add_right_comm, hword]
    exact h.npages

theorem Open.compact (h : Open pgc ls) : Open pgc.compact ls := by
  refine ⟨h.holds.compact, fun hnil => ?_⟩
  have htail := h.holds.empty hnil
  have hb := h.blank hnil
  rw [htail] at hb
  subst hnil
  have hblank := hb.compact (Nat.le_refl _) h.holds.nil.aligned
  rw [compact_tail, htail, Nat.sub_self]
  rw [Nat.sub_self] at hblank
  exact hblank

theorem BlankEnd.compact (hh : Holds pgc ls) (h : BlankEnd pgc) : BlankEnd pgc.compact := by
  obtain ⟨raw, hp, -⟩ := hh.staged.packs
  have halign := hp.aligned
  have hend := hp.endOf_eq
  have hend' := hp.compact.endOf_eq
  rw [compact_head, Nat.zero_div] at hend'
  have hpast : past GcList.stride (pgc.state.head / 4) raw
      = past GcList.stride 0 raw + pgc.state.head / 4 := by
    rw [← past_add, Nat.zero_add]
  have hsub : endOf pgc.compact.data pgc.compact.state
      = endOf pgc.data pgc.state - pgc.state.head := by omega
  rw [BlankEnd, hsub]
  exact BlankAt.compact h (by omega) halign

theorem allocPages_step (hpgc : s.pages p = pgc) (h : Open pgc ls) (xid n fuel : Nat) :
    allocPages (some p) xid n (fuel + 1) s =
      if pagesNeeded n (availFor pgc xid) = 1 ∧ edGcData / 2 ≤ pgc.state.head then
        allocPages (some p) xid n fuel
          ((s.note ⟨pgc, pgc.state.tail⟩).setPage p EdPgGc.compact)
      else .ok (pagesNeeded n (availFor pgc xid)) (s.note ⟨pgc, pgc.state.tail⟩) := by
  have hcount : gcListNpagesFor (some p) xid s = _ := gcListNpagesFor_eq hpgc h
  subst hpgc
  rw [allocPages]
  simp only [bind, Prog.bind, hcount, Prog.gets, pagesNeeded]
  show (if edCountSize (n - availFor (s.pages p) xid) edGcListMax = 1 ∧
    edGcData / 2 ≤ (s.pages p).state.head then _ else _ : GM Nat) _ = _
  by_cases hhalf : edCountSize (n - availFor (s.pages p) xid) edGcListMax = 1 ∧
      edGcData / 2 ≤ (s.pages p).state.head
  · rw [if_pos hhalf]
    exact (if_pos hhalf).symm
  · rw [if_neg hhalf]
    exact (if_neg hhalf).symm

/-- The page that the GC pages are counted on: the lists are moved when that may save one. -/
def recount (pgc : EdPgGc) (xid n : Nat) : EdPgGc :=
  if pagesNeeded n (availFor pgc xid) = 1 ∧ edGcData / 2 ≤ pgc.state.head then pgc.compact else pgc

/-- How many new GC pages `ed_free_pgno` allocates for `n` pages. -/
def gcPagesFor (pgc : EdPgGc) (xid n : Nat) : Nat :=
  pagesNeeded n (availFor (recount pgc xid n) xid)

theorem Open.recount (h : Open pgc ls) (xid n : Nat) : Open (recount pgc xid n) ls := by
  rw [Gc.recount]
  split
  · exact h.compact
  · exact h

theorem BlankEnd.recount (hh : Holds pgc ls) (h : BlankEnd pgc) (xid n : Nat) :
    BlankEnd (recount pgc xid n) := by
  rw [Gc.recount]
  split
  · exact h.compact hh
  · exact h

/-- The count of `ed_free_pgno`: only the compaction changes the page. -/
theorem allocPages_spec (h : Ready old s c0 p ls extra) (xid n : Nat) :
    ∃ s', allocPages (some p) xid n 2 s = .ok (gcPagesFor (s.pages p) xid n) s' ∧
      Put s s' p (recount (s.pages p) xid n) := by
  rw [allocPages_step rfl h.isOpen, gcPagesFor, recount]
  by_cases hhalf : pagesNeeded n (availFor (s.pages p) xid) = 1 ∧
      edGcData / 2 ≤ (s.pages p).state.head
  · -- The lists are moved and counted again.
    have hpage : ((s.note ⟨s.pages p, (s.pages p).state.tail⟩).setPage p EdPgGc.compact).pages p
        = (s.pages p).compact := if_pos rfl
    have hfront : ¬ (pagesNeeded n (availFor (s.pages p).compact xid) = 1 ∧
        edGcData / 2 ≤ (s.pages p).compact.state.head) := by
      rw [compact_head]
      exact fun hc => absurd hc.2 (by decide)
    rw [if_pos hhalf, if_pos hhalf, allocPages_step hpage h.isOpen.compact, if_neg hfront]
    refine ⟨_, rfl, hpage, fun q hq => if_neg hq, rfl, rfl, rfl, rfl, rfl, fun y hy => ?_⟩
    rcases mem_cons.mp hy with rfl | hy
    · exact .inr h.isOpen.compact.fine
    · rcases mem_cons.mp hy with rfl | hy
      · exact .inr h.isOpen.fine
      · exact .inl hy
  · rw [if_neg hhalf, if_neg hhalf]
    refine ⟨_, rfl, rfl, fun _ _ => rfl, rfl, rfl, rfl, rfl, rfl, fun y hy => ?_⟩
    rcases mem_cons.mp hy with rfl | hy
    · exact .inr h.isOpen.fine
    · exact .inl hy

/-! ## The new GC pages -/

theorem Open.roomFor_eq (h : Open pgc ls) (hne : ls ≠ []) : roomFor pgc xid = availFor pgc xid := by
  have hpos : pgc.state.nlists ≠ 0 := by
    rw [h.holds.staged.nlists]
    exact fun hz => hne (eq_nil_of_length_eq_zero hz)
  rw [roomFor, if_pos hpos]

/-- The pages that a first list at the offset `o` has room for. -/
def blankRoom (o : Nat) : Nat :=
  if 4060 - o < edPgGcListSizeof then 0 else (4060 - o) / edGcListPageSize

theorem Open.roomFor_nil (h : Open pgc []) : roomFor pgc xid = blankRoom pgc.state.tail := by
  have hzero : pgc.state.nlists = 0 := h.holds.nil.nlists
  have htail := h.holds.empty rfl
  have hrem : remainOf pgc = 4060 - pgc.state.tail := by
    rw [remainOf, (h.blank rfl).npages_eq]
    omega
  rw [roomFor, if_neg (not_not.mpr hzero), hrem, ← htail, blankRoom]

theorem availFor_congr {pgc' : EdPgGc} (hdata : pgc'.data = pgc.data)
    (htail : pgc'.state.tail = pgc.state.tail) : availFor pgc' xid = availFor pgc xid := by
  have hxid : pgc'.xid pgc'.state.tail = pgc.xid pgc.state.tail := by
    rw [EdPgGc.xid, EdPgGc.xid, hdata, htail]
  have hrem : remainOf pgc' = remainOf pgc := by
    rw [remainOf, remainOf, EdPgGc.npages, EdPgGc.npages, hdata, htail]
  rw [availFor, availFor, hxid, hrem]

/-- `ed_alloc` leaves a chain that pages can be added to, when the last GC page keeps a list or has
zeros behind its lists. -/
theorem Ready.alloc {k : Nat} {out : List Nat} (h : Ready old s c0 p ls pg) (xid : Nat)
    (ha : Allocated xmin k s (c0 ++ [⟨p, ls⟩]) out s')
    (hlast : ∀ n', (reuse xmin k (c0 ++ [⟨p, ls⟩])).rest.getLast? = some n' →
      n'.lists ≠ [] ∨ BlankEnd (s.pages p)) :
    ∃ c0' ls', (reuse xmin k (c0 ++ [⟨p, ls⟩])).rest = c0' ++ [⟨p, ls'⟩] ∧
      Ready old s' c0' p ls' (out ++ pg) ∧
      roomFor (s'.pages p) xid = if ls' = [] then blankRoom (endOf (s.pages p).data (s.pages p).state)
        else availFor (s.pages p) xid := by
  obtain ⟨r, hr⟩ : ∃ r, r = reuse xmin k (c0 ++ [⟨p, ls⟩]) := ⟨_, rfl⟩
  have hok := reuse_ok xmin k h.rep.ne_nil
  have hout := ha.out
  have hstart := ha.start
  have hrep := ha.rep
  have htails := ha.tails
  rw [← hr] at hok hout hstart hrep htails hlast ⊢
  -- The last GC page is still `p`.
  obtain ⟨t, ht, hch⟩ := hrep.chained
  obtain ⟨c0', n', hrest⟩ := (eq_nil_or_concat' r.rest).resolve_left hok.rest
  rw [hrest] at hch hlast hrep htails
  have hp : n'.no = p := by
    have h1 := hch.last_no
    have h2 := h.gcTail
    rw [ha.gcTail, h2] at ht
    rw [h1]
    exact (Option.some.inj ht).symm
  obtain ⟨no, ls'⟩ := n'
  subst hp
  have hmem : GcNode.mk no ls' ∈ c0' ++ [GcNode.mk no ls'] :=
    mem_append_right _ (mem_singleton_self _)
  have hholds : Holds (s'.pages no) ls' := hch.holds hmem
  have hbelow : no < s.tailStart := h.rep.below no (by simp [chainPages])
  have hdata := ha.data no hbelow
  have hend := htails ⟨no, ls'⟩ hmem
  -- A page that was used up ends where it ended before.
  have htail : ls' = [] →
      (s'.pages no).state.tail = endOf (s.pages no).data (s.pages no).state := by
    intro hnil
    rcases hend with hsame | ⟨-, htail⟩
    · have hzero : (s'.pages no).state.nlists = 0 := by
        rw [hholds.staged.nlists, hnil]
        rfl
      have h1 := hsame.endOf
      rw [endOf, if_pos hzero] at h1
      rw [hholds.empty hnil, h1]
    · exact htail
  have hopen : Open (s'.pages no) ls' := by
    refine ⟨hholds, fun hnil => ?_⟩
    have hblank : BlankEnd (s.pages no) :=
      (hlast ⟨no, ls'⟩ (by simp)).resolve_left (fun hne => hne hnil)
    rw [htail hnil]
    exact ⟨hblank.inside, by rw [hdata]; exact hblank.lo, by rw [hdata]; exact hblank.hi,
      by rw [hdata]; exact hblank.npages⟩
  have hperm : (chainPages r.rest ++ (out ++ pg)).Perm
      ((chainPages (c0 ++ [GcNode.mk no ls]) ++ pg) ++ List.range' s.tailStart (k - r.count)) := by
    rw [perm_iff_count]
    intro y
    have h1 := hok.perm.count_eq y
    have h2 := (perm_insertionSort (· ≤ ·) (r.taken.map Prod.snd)).count_eq y
    rw [hout]
    simp only [count_append] at h1 h2 ⊢
    omega
  have hall : ∀ y ∈ chainPages (c0 ++ [GcNode.mk no ls]) ++ pg, y < s.tailStart := by
    intro y hy
    rcases mem_append.mp hy with hy | hy
    · exact h.rep.below y hy
    · exact h.below y hy
  have hnodup : (chainPages r.rest ++ (out ++ pg)).Nodup := by
    refine hperm.nodup_iff.mpr (nodup_append.mpr ⟨h.nodup, nodup_range', ?_⟩)
    intro y hy z hz heq
    have h1 := hall y hy
    have h2 := (mem_range'_1.mp hz).1
    omega
  refine ⟨c0', ls', hrest, ⟨hrep, hopen, by rw [← hrest]; exact hnodup, fun y hy => ?_, ?_⟩, ?_⟩
  · rw [hstart]
    rcases mem_append.mp (hperm.mem_iff.mp (mem_append_right _ hy)) with hy | hy
    · have := hall y hy
      omega
    · have := (mem_range'_1.mp hy).2
      omega
  · rw [Logged, ha.remains]
    exact h.log
  · by_cases hnil : ls' = []
    · subst hnil
      rw [if_pos rfl, hopen.roomFor_nil, htail rfl]
    · have hsame := hend.resolve_right fun h => hnil h.1
      rw [if_neg hnil, hopen.roomFor_eq hnil]
      exact availFor_congr hdata hsame.tail

/-! ## The call -/

/-- What `ed_free_pgno` does: the pages `new` were allocated, which left the chain `c1`, and were all
linked to it; the pages `pg` were added to the lists. -/
structure Freed (xmin xid : Nat) (s : GcSt) (c : List GcNode) (pg : List Nat) (s' : GcSt)
    (new : List Nat) (c1 c' : List GcNode) : Prop where
  rep : Rep s' c'
  handed : ∃ s1 recycled taken m, Handed xmin new.length s c new s1 recycled taken m c1 ∧
    s'.tailStart = s1.tailStart ∧ s'.tailCount = s1.tailCount
  nodes : c'.map GcNode.no = c1.map GcNode.no ++ new
  entries : ∃ added, entries c' = entries c1 ++ added ∧ added.map Prod.snd = pg ∧
    ∀ e ∈ added, xid ≤ e.1

/-- A call that failed: the chain and the front of the tail are as before. -/
structure Unfreed (s : GcSt) (c : List GcNode) (s' : GcSt) : Prop where
  rep : Rep s' c
  gcHead : s'.gcHead = s.gcHead
  gcTail : s'.gcTail = s.gcTail
  start : s'.tailStart = s.tailStart
  tail : s.tailStart + s.tailCount ≤ s'.tailStart + s'.tailCount

/-- The last GC page has a list when `k` pages were taken from the front of the chain. -/
def Keeps (xmin k : Nat) (c : List GcNode) : Prop :=
  ∀ n, (reuse xmin k c).rest.getLast? = some n → n.lists ≠ []

/-- The new GC pages that are counted are those that are needed: the last GC page keeps a list, or a
first list behind its used-up lists makes no difference to the count. -/
def Agrees (xmin xid : Nat) (pgc : EdPgGc) (c : List GcNode) (n : Nat) : Prop :=
  Keeps xmin (gcPagesFor pgc xid n) c ∨ gcPagesFor pgc xid n =
    pagesNeeded n (blankRoom (endOf (recount pgc xid n).data (recount pgc xid n).state))

/-- The exits of `ed_free_pgno`. -/
def freeExits (old : List RemainCall) (s : GcSt) (c : List GcNode) (refused agrees : Prop) :
    Exits EdErr GcFault GcSt where
  err _ s' := refused ∧ Unfreed s c s' ∧ Logged old s'
  halt f s' := (f = .newPage ∨ f = .usedPages) ∧ ¬ agrees ∧ Logged old s'
  stuck := False

theorem insertPages_spec {ls1 : List GcList} {s1 : GcSt} {refused agrees : Prop}
    (h : Ready old s1 c1 p ls1 (new ++ pg)) (hpg : pg ≠ []) {recycled : List Nat}
    {taken : List (Nat × Nat)} {m : Nat}
    (hh : Handed xmin new.length s c new s1 recycled taken m (c1 ++ [⟨p, ls1⟩]))
    (hcount : pagesNeeded pg.length (roomFor (s1.pages p) xid) = new.length ↔ agrees) :
    wp (insertPages xid (some p) new pg)
      (fun _ s' => (∃ c1 c', Freed xmin xid s c pg s' new c1 c') ∧ agrees ∧ Logged old s')
      (freeExits old s c refused agrees) s1 := by
  rw [insertPages, wp_bind]
  refine wp_mono (insertLoop_spec h hpg (Nat.le_refl _)) ?_ (fun _ _ => False.elim) ?_ id
  · rintro unused s2 ⟨hun, hle, c0', p', ls', hready, hins⟩
    rw [wp_ite]
    refine ⟨fun hnil => ?_, fun hne => ⟨.inr rfl, fun hc => hne ?_, hready.log⟩⟩
    · -- All new GC pages were used.
      rw [hnil] at hun
      have hlen := drop_eq_nil_iff.mp hun.symm
      refine ⟨⟨_, _, hready.rep, ⟨s1, recycled, taken, m, hh, hins.tailStart,
        hins.tailCount⟩, ?_, hins.entries⟩, hcount.mp (by omega), hready.log⟩
      rw [hins.nodes, take_of_length_le hlen]
    · rw [hun, hcount.mpr hc, drop_length]
  · rintro f s2 ⟨hf, hlt, hlog⟩
    refine ⟨.inl hf, fun hc => ?_, hlog⟩
    rw [hcount.mpr hc] at hlt
    exact lt_irrefl _ hlt

theorem newGcPages_eq (sys : Sys) (xmin k : Nat) : newGcPages sys xmin k = edAlloc sys xmin k := by
  rw [newGcPages]
  split
  · rfl
  · rw [edAlloc, if_pos (by omega)]

theorem Handed.congr {k m : Nat} {out recycled : List Nat} {s1 : GcSt} {taken : List (Nat × Nat)}
    (h : Handed xmin k s1 c out s' recycled taken m c') (hgcTail : s1.gcTail = s.gcTail)
    (hstart : s1.tailStart = s.tailStart) (hcount : s1.tailCount = s.tailCount) :
    Handed xmin k s c out s' recycled taken m c' where
  length := h.length
  nodup := h.nodup
  out := hstart ▸ h.out
  nodes := h.nodes
  used := h.used
  entries := h.entries
  unseen := h.unseen
  rep := h.rep
  gcTail := h.gcTail.trans hgcTail
  start := hstart ▸ h.start
  tail := hstart ▸ hcount ▸ h.tail

theorem Ready.ticked (h : Ready old s c0 p ls extra) (k : Nat) :
    Ready old { s with tick := k } c0 p ls extra :=
  h.put ⟨rfl, fun _ _ => rfl, rfl, rfl, rfl, rfl, rfl, fun _ hx => .inl hx⟩ h.isOpen (.refl _)

theorem Ready.pgno (h : Ready old s c0 p ls pg) : edPgNone ∉ pg := by
  intro hmem
  have hlt := h.below _ hmem
  have htail := h.rep.tail
  rw [edPgNone] at hlt
  omega

/-- The first part of `ed_free_pgno`: the new GC pages that `ed_alloc` returns to it. -/
def freeAlloc (sys : Sys) (xmin xid : Nat) (pg : List Nat) : GM (List Nat) := do
  let tail ← Prog.gets GcSt.gcTail
  edPgLoad sys tail
  let alloc ← allocPages tail xid pg.length 2
  newGcPages sys xmin alloc

theorem wp_freeAlloc {Q : List Nat → GcSt → Prop} {ex : Exits EdErr GcFault GcSt}
    (h : Ready old s c0 p ls pg)
    (herr : ∀ e s1, Refused sys → Unfreed s (c0 ++ [⟨p, ls⟩]) s1 → Logged old s1 → ex.err e s1)
    (hrest : ∀ s1, Put s s1 p (recount (s.pages p) xid pg.length) → Ready old s1 c0 p ls pg →
      wp (edAlloc sys xmin (gcPagesFor (s.pages p) xid pg.length)) Q ex s1) :
    wp (freeAlloc sys xmin xid pg) Q ex s := by
  rw [freeAlloc, wp_bind, wp_gets, h.gcTail, wp_bind]
  refine wp_mono (edPgLoad_spec sys _ s) ?_ ?_ (fun _ _ => False.elim) False.elim
  · rintro _ _ ⟨k, rfl⟩
    obtain ⟨s1, hcount, hput⟩ := allocPages_spec (h.ticked k) xid pg.length
    rw [wp_bind, wp_eq_ok hcount, newGcPages_eq]
    exact hrest s1 ⟨hput.page, hput.other, hput.gcHead, hput.gcTail, hput.tailStart, hput.tailCount,
      hput.file, hput.log⟩ ((h.ticked k).put hput (h.isOpen.recount xid pg.length) (.refl _))
  · rintro e _ ⟨href, k, rfl⟩
    exact herr e _ href ⟨(h.ticked k).rep, rfl, rfl, rfl, Nat.le_refl _⟩ h.log

/-- A rule for `ed_free_pgno`: what is left to show is about the allocation of the new GC pages and
the insertion. -/
theorem wp_edFreePgno {Q : Unit → GcSt → Prop} {ex : Exits EdErr GcFault GcSt}
    (h : Ready old s c0 p ls pg) (hpg : pg ≠ [])
    (herr : ∀ e s1, Refused sys → Unfreed s (c0 ++ [⟨p, ls⟩]) s1 → Logged old s1 → ex.err e s1)
    (hrest : ∀ s1, Put s s1 p (recount (s.pages p) xid pg.length) → Ready old s1 c0 p ls pg →
      wp (edAlloc sys xmin (gcPagesFor (s.pages p) xid pg.length))
        (fun new s2 => freeAlloc sys xmin xid pg s = .ok new s2 →
          wp (insertPages xid (some p) new pg) Q ex s2) ex s1) :
    wp (edFreePgno sys xmin xid pg) Q ex s := by
  have hlen : ¬ pg.length < 1 := by
    have := length_pos_iff.mpr hpg
    omega
  have hnew := wp_mono (wp_and (wp_run _ _) (wp_freeAlloc h herr hrest))
    (fun new s2 hx => hx.2 hx.1) (fun _ _ hx => hx.2) (fun _ _ hx => hx.2) fun hx => hx.2
  rw [edFreePgno, if_neg hlen, if_neg h.pgno]
  rw [freeAlloc] at hnew
  simp only [wp_bind, wp_gets, h.gcTail] at hnew ⊢
  exact hnew

/-- `ed_free_pgno` adds the pages, or fails and leaves the chain as it was. Its asserts fail exactly
when the count of the new GC pages is wrong. -/
theorem edFreePgno_spec (h : Ready old s c0 p ls pg) (hpg : pg ≠ [])
    (hfit : gcPagesFor (s.pages p) xid pg.length ≤ 1024 →
      Fits s (gcPagesFor (s.pages p) xid pg.length -
        (reuse xmin (gcPagesFor (s.pages p) xid pg.length) (c0 ++ [⟨p, ls⟩])).count))
    (hends : Keeps xmin (gcPagesFor (s.pages p) xid pg.length) (c0 ++ [⟨p, ls⟩]) ∨
      BlankEnd (s.pages p)) :
    wp (edFreePgno sys xmin xid pg)
      (fun _ s' => (∃ new c1 c', Freed xmin xid s (c0 ++ [⟨p, ls⟩]) pg s' new c1 c' ∧
          ∃ s1, freeAlloc sys xmin xid pg s = .ok new s1) ∧
        (1024 < gcPagesFor (s.pages p) xid pg.length ∨
          Agrees xmin xid (s.pages p) (c0 ++ [⟨p, ls⟩]) pg.length) ∧ Logged old s')
      (freeExits old s (c0 ++ [⟨p, ls⟩])
        (Refused sys ∨ 1024 < gcPagesFor (s.pages p) xid pg.length)
        (1024 < gcPagesFor (s.pages p) xid pg.length ∨
          Agrees xmin xid (s.pages p) (c0 ++ [⟨p, ls⟩]) pg.length)) s := by
  refine wp_edFreePgno h hpg (fun _ _ href hun hlog => ⟨.inl href, hun, hlog⟩) ?_
  intro s1 hput h1
  obtain ⟨need, hneed⟩ : ∃ need, need = gcPagesFor (s.pages p) xid pg.length := ⟨_, rfl⟩
  rw [Agrees, ← hneed]
  rw [← hneed] at hfit hends
  by_cases hmax : 1024 < need
  · -- More pages than one call of `ed_alloc` returns.
    rw [edAlloc, if_neg (by omega), if_pos hmax, wp_throw]
    exact ⟨.inr hmax, ⟨h1.rep, hput.gcHead, hput.gcTail, hput.tailStart,
      by rw [hput.tailStart, hput.tailCount]⟩, h1.log⟩
  have hfit1 : Fits s1 (need - (reuse xmin need (c0 ++ [⟨p, ls⟩])).count) := by
    rw [Fits, hput.tailStart, hput.tailCount]
    exact hfit (by omega)
  refine wp_mono (edAlloc_spec h1.rep (by omega) hfit1) ?_ ?_ (fun _ _ => False.elim) False.elim
  · intro new s2 ha hrun
    have hkeeps : ∀ n', (reuse xmin need (c0 ++ [⟨p, ls⟩])).rest.getLast? = some n' →
        n'.lists ≠ [] ∨ BlankEnd (s1.pages p) := by
      intro n' hn'
      rw [hput.page]
      exact hends.imp (fun hk => hk n' hn') fun hb => hb.recount h.isOpen.holds xid pg.length
    obtain ⟨c1, ls1, hrest, hready, hroom⟩ := h1.alloc xid ha hkeeps
    obtain ⟨recycled, taken, m, hh⟩ := ha.handed h1.rep
    have hnew := hh.length
    rw [hrest, ← hnew] at hh
    refine wp_post (insertPages_spec hready hpg
      (hh.congr hput.gcTail hput.tailStart hput.tailCount) ?_) fun _ s' h' =>
      ⟨h'.1.elim fun c2 hc2 => hc2.elim fun c' hfreed => ⟨new, c2, c', hfreed, s2, hrun⟩, h'.2⟩
    -- Whether the last GC page keeps a list decides which room `gc_list_next` finds.
    have hlast : Keeps xmin need (c0 ++ [⟨p, ls⟩]) ↔ ls1 ≠ [] := by
      rw [Keeps, hrest, List.getLast?_concat]
      exact ⟨fun hk => hk _ rfl, fun hne n' hn' => (Option.some.inj hn') ▸ hne⟩
    rw [hroom, hput.page, hlast, hnew, or_iff_right hmax]
    by_cases hnil : ls1 = []
    · rw [if_pos hnil]
      exact ⟨fun heq => .inr heq.symm, fun hor => (hor.resolve_left (not_not.mpr hnil)).symm⟩
    · rw [if_neg hnil]
      exact ⟨fun _ => .inl hnil, fun _ => hneed.symm⟩
  · rintro _ s2 ⟨href, hg⟩
    refine ⟨.inl href, ⟨h1.rep.grown hg, hg.gcHead.trans hput.gcHead, hg.gcTail.trans hput.gcTail,
      hg.start.trans hput.tailStart, ?_⟩, ?_⟩
    · have hcount := hg.count
      rw [hput.tailStart, hput.tailCount] at hcount
      exact hcount
    · rw [Logged, hg.remains]
      exact h1.log

theorem edFreePgno_stuck (h : Ready old s c0 p ls pg) (hpg : pg ≠ [])
    (hmax : gcPagesFor (s.pages p) xid pg.length ≤ 1024)
    (hfit : ¬ Fits s (gcPagesFor (s.pages p) xid pg.length -
      (reuse xmin (gcPagesFor (s.pages p) xid pg.length) (c0 ++ [⟨p, ls⟩])).count)) :
    wp (edFreePgno sys xmin xid pg) (fun _ _ => False)
      ⟨fun _ _ => Refused sys, fun _ _ => False, True⟩ s := by
  refine wp_edFreePgno h hpg (fun _ _ href _ _ => href) fun s1 hput h1 => ?_
  refine wp_mono (edAlloc_stuck h1.rep hmax ?_) (fun _ _ => False.elim) (fun _ _ href => href)
    (fun _ _ => False.elim) id
  rw [Fits, hput.tailStart, hput.tailCount]
  exact hfit

/-! ## No page is lost or duplicated -/

theorem Freed.chain (h : Freed xmin xid s c pg s' new c1 c') : ∃ m, s'.tailStart = s.tailStart + m ∧
      (chainPages c').Perm (chainPages c ++ pg ++ List.range' s.tailStart m) := by
  obtain ⟨s1, recycled, taken, m, hh, hstart, -⟩ := h.handed
  obtain ⟨added, hadded, hpg, -⟩ := h.entries
  refine ⟨m, hstart.trans hh.start, perm_iff_count.mpr fun y => ?_⟩
  have hy := hh.perm.count_eq y
  simp only [chainPages, h.nodes, hadded, hpg, map_append, count_append] at hy ⊢
  omega

theorem Freed.perm (h : Freed xmin xid s c pg s' new c1 c') :
    (chainPages c' ++ List.range' s'.tailStart s'.tailCount).Perm (chainPages c ++ pg ++
      List.range' s.tailStart (s'.tailStart + s'.tailCount - s.tailStart)) := by
  obtain ⟨m, hm, hchain⟩ := h.chain
  have hsum : s'.tailStart + s'.tailCount - s.tailStart = m + s'.tailCount := by omega
  rw [hsum, ← List.range'_append_1, ← hm, ← append_assoc]
  exact hchain.append_right _

/-- What a call of `ed_free_pgno` has to do. -/
def FreeContract (sys : Sys) (xmin xid : Nat) (s : GcSt) (c : List GcNode) (pg : List Nat) : Prop :=
  wp (edFreePgno sys xmin xid pg)
    (fun _ s' => ∃ new c1 c', Freed xmin xid s c pg s' new c1 c' ∧
      (chainPages c' ++ List.range' s'.tailStart s'.tailCount).Perm (chainPages c ++ pg ++
        List.range' s.tailStart (s'.tailStart + s'.tailCount - s.tailStart)))
    ⟨fun _ s' => Unfreed s c s', fun _ _ => False, False⟩ s

theorem freeContract_nil (h : Rep s c0) : FreeContract sys xmin xid s c0 [] := by
  rw [FreeContract, edFreePgno, if_pos (by decide), wp_pure']
  have hh : Handed xmin 0 s c0 [] s [] [] 0 c0 := ⟨rfl, nodup_nil, ⟨[], .nil, .nil, rfl⟩, rfl,
    List.nil_prefix, rfl, nofun, h, rfl, rfl, Nat.le_refl _⟩
  have hfreed : Freed xmin xid s c0 [] s [] c0 c0 := ⟨h, ⟨s, [], [], 0, hh, rfl, rfl⟩,
    (append_nil _).symm, [], (append_nil _).symm, rfl, nofun⟩
  exact ⟨[], c0, c0, hfreed, hfreed.perm⟩

/-- An index whose only GC page holds the page 5. -/
def oneSt : GcSt := { hugeSt with tailStart := 2000, tailCount := 4, file := 2004 }

theorem rep_oneSt : Rep oneSt [⟨1, [⟨9, [5]⟩]⟩] :=
  ⟨⟨1, rfl, rfl, holds_freedPage 9 5 none⟩, rfl, by decide, by decide, by decide, by decide⟩

/-- The pages 100 to 1111 need one GC page more. -/
theorem gcPagesFor_oneSt : gcPagesFor (oneSt.pages 1) 12 (List.range' 100 1012).length = 1 := by
  rw [length_range']
  decide +kernel

theorem keeps_oneSt (k : Nat) : Keeps 5 k ([] ++ [⟨1, [⟨9, [5]⟩]⟩]) := by
  intro n hn
  have hlast : (reuse 5 k ([] ++ [⟨1, [⟨9, [5]⟩]⟩])).rest.getLast? = some ⟨1, [⟨9, [5]⟩]⟩ := rfl
  rw [hlast] at hn
  rw [← Option.some.inj hn]
  exact cons_ne_nil _ _

end Eddy.Gc
