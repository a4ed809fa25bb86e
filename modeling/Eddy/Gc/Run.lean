import Eddy.Gc.Free

/-!
# Eddy — runs of `ed_alloc` and `ed_free_pgno`

A run starts at a new index and makes calls of `ed_alloc` and `ed_free_pgno` in any order. Between the
calls the clients write the pages that they were handed, and they free only such pages. As long as
the header behind the last list is blank wherever `ed_free_pgno` reads it, and the file does not reach
2^32 pages, the lists of every GC page stay inside its data area, and `gc_list_remain` is only called
with headers of lists, or blank ones. `Sound` is what every call keeps.
-/

namespace Eddy.Gc

open Outcome Packed List

variable {sys : Sys} {s s' : GcSt} {pgc : EdPgGc} {ls : List GcList} {c c' : List GcNode}
  {used pg : List Nat} {xmin npg xid : Nat}

/-! ## Calls -/

/-- A call on the pages of an index. -/
inductive GcCall where
  | alloc (xmin npg : Nat)
  | free (xmin xid : Nat) (pg : List Nat)
  deriving DecidableEq, Repr

/-- The pages that a call hands back. -/
def GcCall.gives : GcCall → List Nat
  | .alloc _ _ => []
  | .free _ _ pg => pg

/-- A call returns the pages that it hands out. -/
def GcCall.run (sys : Sys) : GcCall → GM (List Nat)
  | .alloc xmin npg => edAlloc sys xmin npg
  | .free xmin xid pg => do
    edFreePgno sys xmin xid pg
    pure []

/-- A client hands back pages that it was handed, each once. -/
structure GcCall.Legal (call : GcCall) (used : List Nat) : Prop where
  nodup : call.gives.Nodup
  used : ∀ x ∈ call.gives, x ∈ used

/-- The call reads only blank headers behind the lists of the last GC page, and the file is large
enough for it. -/
def GcCall.Meets (s : GcSt) (c : List GcNode) : GcCall → Prop
  | .alloc xmin npg => npg ≤ 1024 → Fits s (npg - (reuse xmin npg c).count)
  | .free xmin xid pg => ∀ c0 p ls, c = c0 ++ [⟨p, ls⟩] →
      (ls = [] → BlankAt (s.pages p) (s.pages p).state.tail) ∧
      (Keeps xmin (gcPagesFor (s.pages p) xid pg.length) c ∨ BlankEnd (s.pages p)) ∧
      (gcPagesFor (s.pages p) xid pg.length ≤ 1024 →
        Fits s (gcPagesFor (s.pages p) xid pg.length -
          (reuse xmin (gcPagesFor (s.pages p) xid pg.length) c).count))

/-- The states of the runs, with the pages that clients use. The connection slots of the new index leave
its GC page alone. -/
inductive Reach (maxConns : Nat) : GcSt → List Nat → Prop where
  | created (hslots : edIdxPages (openNconns maxConns) ≤ pgRootGc) :
      Reach maxConns (GcSt.created (createIdx maxConns)) []
  | call {s s' : GcSt} {used : List Nat} (h : Reach maxConns s used) {call : GcCall}
      (hlegal : call.Legal used) (hmeets : ∀ c, Rep s c → call.Meets s c) {sys : Sys} {out : List Nat}
      (hrun : call.run sys s = .ok out s') : Reach maxConns s' (used.diff call.gives ++ out)
  | fail {s s' : GcSt} {used : List Nat} (h : Reach maxConns s used) {call : GcCall}
      (hlegal : call.Legal used) (hmeets : ∀ c, Rep s c → call.Meets s c) {sys : Sys} {e : EdErr}
      (hrun : call.run sys s = .err e s') : Reach maxConns s' used
  | write {s : GcSt} {used : List Nat} (h : Reach maxConns s used) {q : Nat} (hq : q ∈ used)
      (f : EdPgGc → EdPgGc) : Reach maxConns (s.setPage q f) used

/-! ## What one call keeps -/

/-- The pages in use are in no list, and every call of `gc_list_remain` was fine. -/
structure Sound (s : GcSt) (used : List Nat) (c : List GcNode) : Prop where
  rep : Rep s c
  nodup : (chainPages c ++ used).Nodup
  below : ∀ x ∈ used, x < s.tailStart
  log : Logged [] s

theorem Sound.of_perm {used' : List Nat} (h : Sound s used c) (hrep : Rep s' c') (tail : List Nat)
    (m : Nat) (hperm : (chainPages c' ++ used' ++ tail).Perm
      (chainPages c ++ used ++ List.range' s.tailStart m))
    (hbelow : ∀ x ∈ used', x < s'.tailStart) (hlog : Logged [] s') : Sound s' used' c' := by
  refine ⟨hrep, List.Nodup.of_append_left (hperm.nodup_iff.mpr ?_), hbelow, hlog⟩
  refine nodup_append.mpr ⟨h.nodup, nodup_range', fun x hx y hy heq => ?_⟩
  have hlt : x < s.tailStart := by
    rcases mem_append.mp hx with hx | hx
    · exact h.rep.below x hx
    · exact h.below x hx
  have hge := (mem_range'_1.mp hy).1
  omega

theorem GcCall.Legal.perm {call : GcCall} (h : call.Legal used) :
    (call.gives ++ used.diff call.gives).Perm used := by
  refine subperm_append_diff_self_of_count_le fun x hx => ?_
  have hone := nodup_iff_count_le_one.mp h.nodup x
  have hpos := count_pos_iff.mpr (h.used x hx)
  omega

/-- The exits of a call: an error changes nothing, and the asserts that can fail are those on the count
of the new GC pages. -/
def callExits (used : List Nat) : Exits EdErr GcFault GcSt where
  err _ s' := ∃ c', Sound s' used c'
  halt f s' := (f = .newPage ∨ f = .usedPages) ∧ Logged [] s'
  stuck := False

theorem Sound.alloc (h : Sound s used c) (hmeets : (GcCall.alloc xmin npg).Meets s c) :
    wp (edAlloc sys xmin npg) (fun out s' => ∃ c', Sound s' (used ++ out) c') (callExits used)
      s := by
  by_cases hmax : npg ≤ 1024
  swap
  · rw [edAlloc, if_neg (by omega), if_pos (by omega), wp_throw]
    exact ⟨c, h⟩
  refine wp_mono (edAlloc_spec h.rep hmax (hmeets hmax)) ?_ ?_ (fun _ _ => False.elim) id
  · intro out s' ha
    obtain ⟨recycled, taken, m, hh⟩ := ha.handed h.rep
    have hperm := hh.perm
    refine ⟨_, h.of_perm hh.rep [] m ?_ (fun x hx => ?_) ?_⟩
    · rw [perm_iff_count] at hperm ⊢
      intro y
      have hy := hperm y
      simp only [count_append, append_nil] at hy ⊢
      omega
    · -- A page that was handed out is below the new start of the tail.
      rw [hh.start]
      rcases mem_append.mp hx with hx | hx
      · have := h.below x hx
        omega
      · rcases mem_append.mp (hperm.mem_iff.mp (mem_append_right _ hx)) with hx | hx
        · have := h.rep.below x hx
          omega
        · exact (mem_range'_1.mp hx).2
    · rw [Logged, ha.remains]
      exact h.log
  · rintro _ s' ⟨-, hg⟩
    refine ⟨c, h.rep.grown hg, h.nodup, fun x hx => ?_, ?_⟩
    · rw [hg.start]
      exact h.below x hx
    · rw [Logged, hg.remains]
      exact h.log

theorem Sound.ready {p : Nat} {c0 : List GcNode} (h : Sound s used (c0 ++ [⟨p, ls⟩]))
    (hlegal : (GcCall.free xmin xid pg).Legal used)
    (hopen : ls = [] → BlankAt (s.pages p) (s.pages p).state.tail) : Ready [] s c0 p ls pg := by
  obtain ⟨t, ht, hch⟩ := h.rep.chained
  have hholds : Holds (s.pages p) ls :=
    hch.holds (mem_append_right c0 (mem_singleton_self (GcNode.mk p ls)))
  have hnodup : (chainPages (c0 ++ [⟨p, ls⟩]) ++ pg).Nodup := by
    have hall := (hlegal.perm.append_left (chainPages (c0 ++ [⟨p, ls⟩]))).nodup_iff.mpr h.nodup
    rw [← append_assoc] at hall
    exact hall.of_append_left
  exact ⟨h.rep, ⟨hholds, hopen⟩, hnodup, fun x hx => h.below x (hlegal.used x hx), h.log⟩

theorem Sound.free (h : Sound s used c) (hlegal : (GcCall.free xmin xid pg).Legal used)
    (hmeets : (GcCall.free xmin xid pg).Meets s c) :
    wp (edFreePgno sys xmin xid pg) (fun _ s' => ∃ c', Sound s' (used.diff pg) c')
      (callExits used) s := by
  by_cases hpg : pg = []
  · subst hpg
    rw [edFreePgno, if_pos (by decide), diff_nil, wp_pure']
    exact ⟨c, h⟩
  obtain ⟨c0, ⟨p, ls⟩, rfl⟩ := (eq_nil_or_concat' c).resolve_left h.rep.ne_nil
  obtain ⟨hopen, hends, hfit⟩ := hmeets c0 p ls rfl
  have hused := hlegal.perm
  have hready := h.ready hlegal hopen
  refine wp_mono (edFreePgno_spec hready hpg hfit hends) ?_ ?_ ?_ id
  · rintro _ s' ⟨⟨new, c1, c', hfreed, -⟩, -, hlog⟩
    have hperm := hfreed.perm
    refine ⟨c', h.of_perm hfreed.rep (List.range' s'.tailStart s'.tailCount)
      (s'.tailStart + s'.tailCount - s.tailStart) ?_ (fun x hx => ?_) hlog⟩
    · rw [perm_iff_count] at hperm hused ⊢
      intro y
      have h1 := hperm y
      have h2 := hused y
      simp only [GcCall.gives, count_append] at h1 h2 ⊢
      omega
    · obtain ⟨s1, _, _, m, hh, hstart, -⟩ := hfreed.handed
      have hlt := h.below x (hused.mem_iff.mp (mem_append_right _ hx))
      have hle := hh.start
      omega
  · rintro _ s' ⟨-, hun, hlog⟩
    refine ⟨_, hun.rep, h.nodup, fun x hx => ?_, hlog⟩
    rw [hun.start]
    exact h.below x hx
  · rintro f s' ⟨hf, -, hlog⟩
    exact ⟨hf, hlog⟩

theorem Sound.call {call : GcCall} (h : Sound s used c) (hlegal : call.Legal used)
    (hmeets : call.Meets s c) :
    wp (call.run sys) (fun out s' => ∃ c', Sound s' (used.diff call.gives ++ out) c')
      (callExits used) s := by
  cases call with
  | alloc xmin npg =>
    rw [GcCall.gives, diff_nil]
    exact h.alloc hmeets
  | free xmin xid pg =>
    rw [GcCall.run, wp_bind]
    refine wp_post (h.free hlegal hmeets) ?_
    rintro _ s' hs'
    rw [wp_pure', append_nil]
    exact hs'

theorem Sound.write {q : Nat} (h : Sound s used c) (hq : q ∈ used) (f : EdPgGc → EdPgGc) :
    Sound (s.setPage q f) used c := by
  obtain ⟨t, ht, hch⟩ := h.rep.chained
  refine ⟨⟨⟨t, ht, hch.congr fun n hn => if_neg fun heq => ?_⟩, h.rep.head, h.rep.nodup,
    h.rep.below, h.rep.tail, h.rep.file⟩, h.nodup, h.below, h.log⟩
  have hmem : n.no ∈ chainPages c := mem_append_left _ (mem_map_of_mem hn)
  exact (nodup_append.mp h.nodup).2.2 _ hmem q hq heq

/-! ## Runs -/

theorem reach_sound {maxConns : Nat} (h : Reach maxConns s used) : ∃ c, Sound s used c := by
  induction h with
  | created =>
    have hrep := rep_created maxConns
    exact ⟨_, hrep, by rw [append_nil]; exact hrep.nodup, nofun, nofun⟩
  | call _ hlegal hmeets hrun ih =>
    obtain ⟨c, hc⟩ := ih
    exact wp_ok (hc.call hlegal (hmeets c hc.rep)) hrun
  | fail _ hlegal hmeets hrun ih =>
    obtain ⟨c, hc⟩ := ih
    exact wp_err (hc.call hlegal (hmeets c hc.rep)) hrun
  | write _ hq f ih =>
    obtain ⟨c, hc⟩ := ih
    exact ⟨c, hc.write hq f⟩

/-- The first and the last list of a page, with their headers and arrays, are inside its data area. -/
structure EdPgGc.Inside (pgc : EdPgGc) : Prop where
  head : pgc.state.nlists ≠ 0 → pgc.state.head + edPgGcListPages +
    edGcListPageSize * pgc.npages pgc.state.head ≤ edGcData
  tail : pgc.state.nlists ≠ 0 → pgc.state.tail + edPgGcListPages +
    edGcListPageSize * pgc.npages pgc.state.tail ≤ edGcData

theorem Holds.inside (h : Holds pgc ls) : pgc.Inside := by
  obtain ⟨raw, hp, -⟩ := h.staged.packs
  refine ⟨fun hne => ?_, fun hne => ?_⟩
  · cases raw with
    | nil => exact absurd hp.nlists hne
    | cons l raw =>
      have hin := hp.inside
      have hle := le_past GcList.stride (pgc.state.head / 4 + l.stride) raw
      rw [hp.header.2.1, edPgGcListPages, edGcListPageSize, edGcData_eq]
      rw [past, edGcData_eq] at hin
      rw [GcList.stride_eq] at hin hle
      have := hp.aligned
      omega
  · rcases eq_nil_or_concat' raw with rfl | ⟨raw, l, rfl⟩
    · exact absurd hp.nlists hne
    · obtain ⟨-, hin, -, hn⟩ := hp.last
      rw [hn]
      exact hin

/-- The lists of every GC page are inside its data area, and every call of `gc_list_remain` was
fine. -/
structure GcSt.Inside (s : GcSt) : Prop where
  pages : ∃ c, Rep s c ∧ ∀ n ∈ c, (s.pages n.no).Inside
  remains : ∀ x ∈ s.remains, x.Fine

theorem Sound.inside (h : Sound s used c) : s.Inside := by
  obtain ⟨t, ht, hch⟩ := h.rep.chained
  exact ⟨⟨c, h.rep, fun n hn => (hch.holds hn).inside⟩, fun x hx => (h.log x hx).resolve_left nofun⟩

/-- In every run the GC pages are sound, and so they are after every further call; the call makes no
wild access, and only the asserts on the count of the new GC pages can fail in it. -/
theorem reach_inside (maxConns : Nat) (s : GcSt) (used : List Nat) (h : Reach maxConns s used) :
    s.Inside ∧ ∀ (sys : Sys) (call : GcCall), call.Legal used → (∀ c, Rep s c → call.Meets s c) →
      wp (call.run sys) (fun _ s' => s'.Inside) ⟨fun _ s' => s'.Inside,
        fun f s' => (f = .newPage ∨ f = .usedPages) ∧ ∀ x ∈ s'.remains, x.Fine, False⟩ s := by
  obtain ⟨c, hc⟩ := reach_sound h
  refine ⟨hc.inside, fun sys call hlegal hmeets => ?_⟩
  refine wp_mono (hc.call hlegal (hmeets c hc.rep)) ?_ ?_ ?_ id
  · rintro out s' ⟨c', hc'⟩
    exact hc'.inside
  · rintro e s' ⟨c', hc'⟩
    exact hc'.inside
  · rintro f s' ⟨hf, hlog⟩
    exact ⟨hf, fun x hx => (hlog x hx).resolve_left nofun⟩

theorem meets_short (hend : s.tailStart + s.tailCount ≤ 64) (c : List GcNode) :
    (GcCall.alloc 0 npg).Meets s c := by
  intro hn
  refine .inr ?_
  rw [edAlignSize, edAllocCount]
  omega

/-- A new index after three pages were handed out. -/
def threeSt : GcSt := Prog.after (edAlloc Sys.granted 0 3) (GcSt.created (createIdx 0))

theorem reach_threeSt : Reach 0 threeSt [2, 3, 4] := by
  obtain ⟨out, hrun, hout⟩ := ok_of_returns (show Prog.returns
    ((GcCall.alloc 0 3).run Sys.granted) (· == [2, 3, 4]) (GcSt.created (createIdx 0)) = true
      by decide +kernel)
  have hlegal : (GcCall.alloc 0 3).Legal [] := ⟨nodup_nil, nofun⟩
  have hreach := Reach.call (Reach.created (by decide) : Reach 0 _ _) hlegal
    (fun c _ => meets_short (by decide) c) hrun
  rwa [eq_of_beq hout] at hreach

/-- Three pages were handed out in a new index. -/
theorem reach_inside_three : ∃ s, Reach 0 s [2, 3, 4] ∧ s.Inside ∧
    ∀ (sys : Sys) (call : GcCall), call.Legal [2, 3, 4] → (∀ c, Rep s c → call.Meets s c) →
      wp (call.run sys) (fun _ s' => s'.Inside) ⟨fun _ s' => s'.Inside,
        fun f s' => (f = .newPage ∨ f = .usedPages) ∧ ∀ x ∈ s'.remains, x.Fine, False⟩ s :=
  ⟨threeSt, reach_threeSt, reach_inside 0 threeSt [2, 3, 4] reach_threeSt⟩

/-- In every run the pages in use are distinct, and a further call of `ed_alloc` hands out distinct
pages that are not among them. -/
theorem reach_handed_once {maxConns : Nat} {out : List Nat} (h : Reach maxConns s used)
    (hmeets : ∀ c, Rep s c → (GcCall.alloc xmin npg).Meets s c)
    (hrun : edAlloc sys xmin npg s = .ok out s') :
    used.Nodup ∧ out.Nodup ∧ ∀ p ∈ out, p ∉ used := by
  have hlegal : (GcCall.alloc xmin npg).Legal used := ⟨nodup_nil, nofun⟩
  obtain ⟨c, hc⟩ := reach_sound (h.call hlegal hmeets hrun)
  have hnd : (used ++ out).Nodup := (nodup_append.mp hc.nodup).2.1
  obtain ⟨h1, h2, h3⟩ := nodup_append.mp hnd
  exact ⟨h1, h2, fun p hp hused => h3 p hused p hp rfl⟩

/-- With three pages in use, two more are handed out. -/
theorem reach_handed_once_three : ∃ s s', Reach 0 s [2, 3, 4] ∧
    edAlloc Sys.granted 0 2 s = .ok [5, 6] s' ∧
    [2, 3, 4].Nodup ∧ [5, 6].Nodup ∧ ∀ p ∈ [5, 6], p ∉ [2, 3, 4] := by
  obtain ⟨out, hrun, hout⟩ := ok_of_returns (show Prog.returns
    (edAlloc Sys.granted 0 2) (· == [5, 6]) threeSt = true by decide +kernel)
  obtain rfl := eq_of_beq hout
  exact ⟨threeSt, _, reach_threeSt, hrun,
    reach_handed_once reach_threeSt (fun c _ => meets_short (by decide +kernel) c) hrun⟩

/-! ## A page that is used up to its end -/

theorem edFreePgno_wild {p : Nat} (htail : s.gcTail = some p)
    (hwild : edGcData < (s.pages p).state.tail + edPgGcListPages) (hpg : pg ≠ [])
    (hnone : edPgNone ∉ pg) :
    wp (edFreePgno sys xmin xid pg) (fun _ _ => False)
      ⟨fun _ _ => Refused sys, fun _ _ => False, True⟩ s := by
  have hlen : ¬ pg.length < 1 := by
    have := length_pos_iff.mpr hpg
    omega
  rw [edFreePgno, if_neg hlen, if_neg hnone, wp_bind, wp_gets, htail, wp_bind]
  refine wp_mono (edPgLoad_spec sys _ s) ?_ (fun _ _ h => h.1) (fun _ _ => False.elim) False.elim
  rintro _ _ ⟨k, rfl⟩
  rw [wp_bind, allocPages, wp_bind, gcListNpagesFor, wp_bind, wp_gets,
    wp_bind, gcListRemain, wp_bind, wp_gets]
  show wp (if edGcData < (s.pages p).state.tail + edPgGcListPages then Prog.stuck else _) _ _ _
  rw [if_pos hwild]
  trivial

/-- The pages of a new index are handed out, and fill its GC page to the last byte when two
transactions free them. -/
def fillPage : GM Unit := do
  let pg ← edAlloc Sys.granted 0 1012
  edFreePgno Sys.granted 0 1 (pg.take 1011)
  edFreePgno Sys.granted 0 2 (pg.drop 1011)

/-- The state after `fillPage`. -/
def filledSt : GcSt := Prog.after fillPage (GcSt.created (createIdx 0))

theorem filledSt_head : filledSt.gcHead = some 1 := by decide +kernel

/-- The loop of `ed_alloc` in a later transaction. -/
def drainLoop : GM Stage :=
  allocLoop Sys.granted 3 1012 (allocFuel 1012) ⟨1, (filledSt.pages 1).state, [], []⟩

/-- A later transaction takes all the pages, and leaves `state.tail` at the end of the data area. -/
theorem edAlloc_drains : ∃ out s', edAlloc Sys.granted 3 1012 filledSt = .ok out s' ∧ 2 ∈ out ∧
    s'.gcTail = some 1 ∧ (s'.pages 1).state.tail = edGcData := by
  obtain ⟨a, hloop, htest⟩ := ok_of_returns (show Prog.returns drainLoop
    (fun a => a.gc == 1 && a.count == 1012 && a.pgno.head? == some 2 &&
      a.state.closed.tail == edGcData) { filledSt with tick := filledSt.tick + 1 } = true
      by decide +kernel)
  have htail : (Prog.after drainLoop { filledSt with tick := filledSt.tick + 1 }).gcTail = some 1 := by
    decide +kernel
  obtain ⟨s2, hs2⟩ : ∃ s2, s2 =
    Prog.after drainLoop { filledSt with tick := filledSt.tick + 1 } := ⟨_, rfl⟩
  rw [← hs2] at hloop htail
  simp only [Bool.and_eq_true, beq_iff_eq] at htest
  obtain ⟨⟨⟨hgc, hcount⟩, hfirst⟩, hend⟩ := htest
  have hload : edPgLoad Sys.granted (some 1) filledSt
      = .ok () { filledSt with tick := filledSt.tick + 1 } := rfl
  refine ok_of_wp (X := ⟨fun _ _ => False, fun _ _ => False, False⟩) ?_ (fun _ _ => id)
    (fun _ _ => id) id
  rw [edAlloc, if_neg (by decide), if_neg (by decide), wp_bind, wp_get, filledSt_head,
    wp_bind, wp_eq_ok hload]
  show wp (drainLoop >>= finishAlloc Sys.granted 1012) _ _ _
  rw [wp_bind, wp_eq_ok hloop, finishAlloc, wp_bind]
  refine wp_mono (mapSortedPages_spec Sys.granted _ _) ?_
    (fun _ _ h => not_refused_granted h.1) (fun _ _ => id) id
  rintro _ _ ⟨k, rfl⟩
  rw [hcount, Nat.sub_self, wp_bind, mapEndPages, if_pos rfl, wp_pure', wp_bind,
    wp_modify, wp_pure', append_nil, hgc]
  refine ⟨mem_append_right _ ?_, htail, ?_⟩
  · exact (mem_insertionSort _).mpr (mem_of_mem_head? hfirst)
  · show (if 1 = 1 then _ else _ : EdPgGc).state.tail = _
    rw [if_pos rfl]
    exact hend

/-- A run whose transactions fill the GC page, use it up and then read behind it. -/
theorem run_drained : ∃ pg s1 s2 s3 out s4,
    edAlloc Sys.granted 0 1012 (GcSt.created (createIdx 0)) = .ok pg s1 ∧
      edFreePgno Sys.granted 0 1 (pg.take 1011) s1 = .ok () s2 ∧
      edFreePgno Sys.granted 0 2 (pg.drop 1011) s2 = .ok () s3 ∧
      edAlloc Sys.granted 3 1012 s3 = .ok out s4 ∧ 2 ∈ out ∧
      edFreePgno Sys.granted 3 3 [2] s4 = .stuck := by
  obtain ⟨_, hrun, -⟩ := ok_of_returns (show Prog.returns fillPage (fun _ => true)
    (GcSt.created (createIdx 0)) = true by decide +kernel)
  obtain ⟨out, s4, halloc, hout, htail, hend⟩ := edAlloc_drains
  obtain ⟨pg, s1, hpg, hrest⟩ := ok_bind hrun
  obtain ⟨_, s2, hfree, hlast⟩ := ok_bind hrest
  refine ⟨pg, s1, s2, _, out, s4, hpg, hfree, hlast, halloc, hout, ?_⟩
  refine stuck_of_wp (edFreePgno_wild htail ?_ (cons_ne_nil _ _) (by decide))
    (fun _ _ => id) (fun _ _ => not_refused_granted) (fun _ _ => id)
  rw [hend]
  decide

end Eddy.Gc
