import Eddy.Gc.Chain

/-!
# Eddy — the room on the last GC page

`ed_free_pgno` first counts with `gc_list_npages_for` how many pages the last GC page can still take,
and then adds them with `gc_list_next`. The two agree when the page has a list. On a page without
lists they read the words behind the lists that were there as if they were the header of a list.
-/

namespace Eddy.Gc

open Outcome Packed List

/-! ## Reading a header -/

/-- The header of a list at byte `o` lies in the data area and is zero. -/
structure BlankAt (pgc : EdPgGc) (o : Nat) : Prop where
  inside : o + 12 ≤ 4072
  lo : pgc.data (o / 4) = 0
  hi : pgc.data (o / 4 + 1) = 0
  npages : pgc.data (o / 4 + 2) = 0

/-- What a call of `gc_list_remain` should find: a list header inside the data area that passes the
assertion, and that was written as the last list of the page, or as zeros when there is none. -/
structure RemainCall.Fine (c : RemainCall) : Prop where
  inside : c.list + edPgGcListPages ≤ edGcData
  remain : c.pgc.state.tail + edPgGcListPages + edGcListPageSize * c.pgc.npages c.list ≤ edGcData
  set : c.list = c.pgc.state.tail ∧
    ((∃ raw l, Packs c.pgc.data c.pgc.state (raw ++ [l])) ∨
      Packs c.pgc.data c.pgc.state [] ∧ BlankAt c.pgc c.list)

/-- The last GC page, as `ed_free_pgno` can go on with it. -/
structure Open (pgc : EdPgGc) (ls : List GcList) : Prop where
  holds : Holds pgc ls
  blank : ls = [] → BlankAt pgc pgc.state.tail

variable {s : GcSt} {pgc : EdPgGc} {ls raw : List GcList} {p xid : Nat} {pg : List Nat} {l : GcList}

theorem BlankAt.npages_eq {o : Nat} (h : BlankAt pgc o) : pgc.npages o = 0 := h.npages

theorem Holds.last (h : Holds pgc ls) (hne : ls ≠ []) :
    ∃ raw l, Packs pgc.data pgc.state (raw ++ [l]) ∧ ls = skipPages pgc.state.nskip (raw ++ [l]) := by
  obtain ⟨raw, hp, rfl⟩ := h.staged.packs
  rcases eq_nil_or_concat' raw with rfl | ⟨raw, l, rfl⟩
  · exact absurd rfl hne
  · exact ⟨raw, l, hp, rfl⟩

theorem Holds.nil (h : Holds pgc []) : Packs pgc.data pgc.state [] := by
  obtain ⟨raw, hp, heq⟩ := h.staged.packs
  rwa [skipPages_eq_nil.mp heq.symm] at hp

theorem Packs.fine (h : Packs pgc.data pgc.state (raw ++ [l])) :
    RemainCall.Fine ⟨pgc, pgc.state.tail⟩ := by
  obtain ⟨-, hin, -, hn⟩ := h.last
  refine ⟨?_, ?_, rfl, .inl ⟨raw, l, h⟩⟩
  · show pgc.state.tail + 12 ≤ 4072
    omega
  · show pgc.state.tail + 12 + 4 * pgc.npages pgc.state.tail ≤ 4072
    rw [hn]
    exact hin

theorem Open.fine (h : Open pgc ls) : RemainCall.Fine ⟨pgc, pgc.state.tail⟩ := by
  by_cases hne : ls = []
  · subst hne
    have hb := h.blank rfl
    refine ⟨hb.inside, ?_, rfl, .inr ⟨h.holds.nil, hb⟩⟩
    show _ + _ * pgc.npages pgc.state.tail ≤ _
    rw [hb.npages_eq]
    exact hb.inside
  · obtain ⟨raw, l, hp, -⟩ := h.holds.last hne
    exact hp.fine

/-- One more call of `gc_list_remain`. -/
def GcSt.note (s : GcSt) (c : RemainCall) : GcSt := { s with remains := c :: s.remains }

/-- The bytes behind the list that `state.tail` points to. -/
def remainOf (pgc : EdPgGc) : Nat := 4060 - pgc.state.tail - 4 * pgc.npages pgc.state.tail

theorem gcListRemain_eq (hpgc : s.pages p = pgc) (h : RemainCall.Fine ⟨pgc, pgc.state.tail⟩) :
    gcListRemain p pgc.state.tail s = .ok (remainOf pgc) (s.note ⟨pgc, pgc.state.tail⟩) := by
  have hin : pgc.state.tail + 12 ≤ 4072 := h.inside
  have hrem : pgc.state.tail + 12 + 4 * pgc.npages pgc.state.tail ≤ 4072 := h.remain
  have hwild : ¬ edGcData < pgc.state.tail + edPgGcListPages := Nat.not_lt.mpr hin
  have hint : ((edGcData : Nat) : Int) - pgc.state.tail - (edPgGcListPages : Nat)
      - (edGcListPageSize : Nat) * pgc.npages pgc.state.tail = ((remainOf pgc : Nat) : Int) := by
    simp only [edGcData_eq, edPgGcListPages, edGcListPageSize, remainOf]
    omega
  have hmod : remainOf pgc % 2 ^ 16 = remainOf pgc := by
    rw [remainOf]
    omega
  have hle : (0 : Int) ≤ (remainOf pgc : Nat) ∧ ((remainOf pgc : Nat) : Int) ≤ (edGcData : Nat) := by
    rw [edGcData_eq, remainOf]
    omega
  refine wp_of_eq ?_
  unfold gcListRemain
  rw [wp_bind, wp_gets, hpgc, if_neg hwild, wp_bind, wp_modify]
  simp only [hint]
  rw [if_pos hle, wp_pure', Int.toNat_natCast, hmod]
  exact ⟨rfl, rfl⟩

/-! ## Counting the room -/

/-- The pages that `gc_list_npages_for` counts. -/
def availFor (pgc : EdPgGc) (xid : Nat) : Nat :=
  if xid ≤ pgc.xid pgc.state.tail then remainOf pgc / edGcListPageSize
  else gcListNpages (edGcData - edAlignSize (edGcData - remainOf pgc) 8)

/-- The pages that `gc_list_next` makes room for. -/
def roomFor (pgc : EdPgGc) (xid : Nat) : Nat :=
  if pgc.state.nlists ≠ 0 then availFor pgc xid
  else if remainOf pgc < edPgGcListSizeof then 0 else (4060 - pgc.state.head) / edGcListPageSize

theorem gcListNpagesFor_eq (hpgc : s.pages p = pgc) (h : Open pgc ls) :
    gcListNpagesFor (some p) xid s = .ok (availFor pgc xid) (s.note ⟨pgc, pgc.state.tail⟩) := by
  refine wp_of_eq ?_
  unfold gcListNpagesFor
  rw [wp_bind, wp_gets, hpgc, wp_bind, wp_eq_ok (gcListRemain_eq hpgc h.fine)]
  rw [availFor]
  split
  · exact ⟨rfl, rfl⟩
  · exact ⟨rfl, rfl⟩

theorem gcListNpages_behind {o n : Nat} (ho : o % 8 = 0) (hin : o + 12 + 4 * n ≤ 4072) :
    gcListNpages (edGcData - edAlignSize (edGcData - (4060 - o - 4 * n)) 8)
      = (4060 - (o + edGcListSize n)) / 4 ∧
    (4060 - o - 4 * n < 16 ↔ gcListNpages (edGcData - edAlignSize (edGcData - (4060 - o - 4 * n)) 8)
      = 0) ∧
    (16 ≤ 4060 - o - 4 * n → o + edGcListSize n + 16 ≤ 4072) := by
  have halign : edAlignSize (edGcData - (4060 - o - 4 * n)) 8 = o + edGcListSize n := by
    rw [edGcData_eq, edGcListSize_eq]
    unfold edAlignSize
    omega
  rw [halign, edGcData_eq, gcListNpages, edPgGcListPages, edGcListPageSize, edGcListSize_eq]
  refine ⟨?_, ?_, fun h => by omega⟩
  · split <;> omega
  · split <;> omega

/-! ## Adding pages -/

/-- The page after `gc_list_next` returned its last list `l`, which has room for `room` pages. -/
structure Extends (pgc pgc' : EdPgGc) (ls : List GcList) (xid room : Nat) (raw : List GcList)
    (l : GcList) : Prop where
  packs : Packs pgc'.data pgc'.state (raw ++ [l])
  next : pgc'.next = pgc.next
  xid_le : xid ≤ l.xid
  inside : pgc'.state.tail + 12 + 4 * (l.pages.length + room) ≤ 4072
  full : 4072 < pgc'.state.tail + 12 + 4 * (l.pages.length + room) + 4
  free : freeIn (skipPages pgc'.state.nskip (raw ++ [l])) = freeIn ls
  pages : ∀ x ∈ skipPages pgc'.state.nskip raw, x.pages ≠ []
  skip : raw = [] → pgc'.state.nskip ≤ l.pages.length

theorem GcSt.setPage_const {s : GcSt} {p : Nat} (hpgc : s.pages p = pgc) (f : EdPgGc → EdPgGc) :
    s.setPage p f = s.setPage p fun _ => f pgc := by
  unfold setPage
  congr 1
  funext q
  split
  · rename_i hq
    rw [hq, hpgc]
  · rfl

theorem GcSt.setPage_same {s : GcSt} {p : Nat} (hpgc : s.pages p = pgc) :
    s.setPage p (fun _ => pgc) = s := by
  refine (setPage_const hpgc id).symm.trans ?_
  unfold setPage
  simp

theorem gcListNext_run (hpgc : s.pages p = pgc) (h : RemainCall.Fine ⟨pgc, pgc.state.tail⟩)
    (xid : Nat) :
    gcListNext (some p) xid s =
      if 0 < pgc.state.nlists ∧ xid ≤ pgc.xid pgc.state.tail then
        .ok (if remainOf pgc < edGcListPageSize then none else some pgc.state.tail)
          (s.note ⟨pgc, pgc.state.tail⟩)
      else if remainOf pgc < edPgGcListSizeof then .ok none (s.note ⟨pgc, pgc.state.tail⟩)
      else if edGcData < nextList pgc + edPgGcListPages then .stuck
      else .ok (some (nextList pgc))
        ((s.note ⟨pgc, pgc.state.tail⟩).setPage p fun _ => withList pgc xid) := by
  have hrem := gcListRemain_eq hpgc h
  subst hpgc
  unfold gcListNext
  simp only [bind, Prog.bind, Prog.gets, hrem]
  split
  · rfl
  · split
    · rfl
    · split <;> rfl

theorem nextList_eq (h : Packs pgc.data pgc.state raw) :
    nextList pgc = 4 * past GcList.stride (pgc.state.head / 4) raw := by
  have hin := h.inside
  rw [edGcData_eq] at hin
  have hend := h.endOf_eq
  rw [endOf] at hend
  rw [nextList]
  by_cases hzero : pgc.state.nlists = 0
  · rw [if_pos hzero] at hend
    rw [if_neg (not_not.mpr hzero)]
    exact hend
  · rw [if_neg hzero] at hend
    rw [if_pos hzero]
    show (pgc.state.tail + edGcListSize (pgc.data (pgc.state.tail / 4 + 2))) % 2 ^ 16 = _
    rw [hend]
    omega

theorem withList_extends (h : Holds pgc ls) (hp : Packs pgc.data pgc.state raw)
    (hls : ls = skipPages pgc.state.nskip raw) (xid : Nat) (hin : nextList pgc + 16 ≤ 4072) :
    Extends pgc (withList pgc xid) ls xid ((4060 - nextList pgc) / 4) raw ⟨xid, []⟩ := by
  have hmod : (pgc.state.nlists + 1) % 2 ^ 16 = pgc.state.nlists + 1 := by
    have hlen := length_le_past (pgc.state.head / 4) raw
    have hinside := hp.inside
    rw [edGcData_eq] at hinside
    rw [hp.nlists]
    omega
  have hstate : (withList pgc xid).state =
      ⟨pgc.state.head, nextList pgc, pgc.state.nlists + 1, pgc.state.nskip⟩ := by
    rw [withList, hmod]
  have hpacks := hp.startList xid (nextList_eq hp) hin
  rw [← hstate] at hpacks
  refine ⟨hpacks, rfl, Nat.le_refl _, ?_, ?_, ?_, ?_, fun hraw => ?_⟩
  · show nextList pgc + 12 + 4 * (0 + (4060 - nextList pgc) / 4) ≤ 4072
    omega
  · show 4072 < nextList pgc + 12 + 4 * (0 + (4060 - nextList pgc) / 4) + 4
    omega
  · rw [hls, hstate]
    cases raw with
    | nil => simp [skipPages]
    | cons r raw => simp [skipPages]
  · intro x hx
    exact h.staged.pages x (hls ▸ hx)
  · have hnil : ls = [] := by
      rw [hls, hraw]
      rfl
    show pgc.state.nskip ≤ 0
    rw [(h.staged.empty hnil).2]

theorem merge_extends (h : Holds pgc ls) (hp : Packs pgc.data pgc.state (raw ++ [l]))
    (hls : ls = skipPages pgc.state.nskip (raw ++ [l])) (hxid : xid ≤ l.xid) :
    Extends pgc pgc ls xid (remainOf pgc / 4) raw l := by
  obtain ⟨-, hin, -, hn⟩ := hp.last
  have hrem : remainOf pgc = 4060 - pgc.state.tail - 4 * l.pages.length := by rw [remainOf, hn]
  refine ⟨hp, rfl, hxid, by omega, by omega, by rw [hls], fun x hx => ?_, fun hraw => ?_⟩
  · refine h.staged.pages x ?_
    rw [hls]
    cases raw with
    | nil => cases hx
    | cons r raw => exact mem_append_left [l] hx
  · have hne : l.pages.drop pgc.state.nskip ≠ [] := by
      refine h.staged.pages ⟨l.xid, _⟩ ?_
      rw [hls, hraw]
      exact mem_singleton_self _
    by_contra hlt
    exact hne (drop_eq_nil_of_le (by omega))

/-- `gc_list_next` finds no room, or it returns a list with room for `roomFor` pages. -/
theorem gcListNext_spec (hpgc : s.pages p = pgc) (h : Open pgc ls) (xid : Nat) :
    (roomFor pgc xid = 0 ∧
      gcListNext (some p) xid s = .ok none (s.note ⟨pgc, pgc.state.tail⟩)) ∨
    (0 < roomFor pgc xid ∧ ∃ pgc' raw l, Extends pgc pgc' ls xid (roomFor pgc xid) raw l ∧
      gcListNext (some p) xid s =
        .ok (some pgc'.state.tail) ((s.note ⟨pgc, pgc.state.tail⟩).setPage p fun _ => pgc')) := by
  have hnote : (s.note ⟨pgc, pgc.state.tail⟩).pages p = pgc := hpgc
  rw [gcListNext_run hpgc h.fine xid]
  by_cases hne : ls = []
  · -- A page without lists: the new list takes the place of the first one.
    subst hne
    have hp := h.holds.nil
    have hzero : pgc.state.nlists = 0 := hp.nlists
    have htail := h.holds.empty rfl
    have hb := h.blank rfl
    have hrem : remainOf pgc = 4060 - pgc.state.head := by
      rw [remainOf, hb.npages_eq, htail]
      omega
    have hnext : nextList pgc = pgc.state.head := by rw [nextList, if_neg (not_not.mpr hzero)]
    have hmerge : ¬ (0 < pgc.state.nlists ∧ xid ≤ pgc.xid pgc.state.tail) := by omega
    rw [roomFor, if_neg (not_not.mpr hzero), if_neg hmerge]
    by_cases hfull : remainOf pgc < edPgGcListSizeof
    · rw [if_pos hfull, if_pos hfull]
      exact .inl ⟨rfl, rfl⟩
    · rw [if_neg hfull, if_neg hfull]
      rw [hrem, edPgGcListSizeof] at hfull
      have hin : ¬ edGcData < nextList pgc + edPgGcListPages := by
        rw [hnext, edGcData_eq, edPgGcListPages]
        omega
      have hext := withList_extends h.holds hp rfl xid (by omega)
      rw [hnext] at hext
      rw [if_neg hin]
      refine .inr ⟨?_, withList pgc xid, [], ⟨xid, []⟩, hext, rfl⟩
      rw [edGcListPageSize]
      omega
  · obtain ⟨raw, l, hp, hls⟩ := h.holds.last hne
    obtain ⟨halign, hin, hxid, hn⟩ := hp.last
    have hrem : remainOf pgc = 4060 - pgc.state.tail - 4 * l.pages.length := by rw [remainOf, hn]
    have hpos : pgc.state.nlists ≠ 0 := by
      rw [hp.nlists]
      simp
    obtain ⟨hcap, hfull, hfit⟩ := gcListNpages_behind halign hin
    rw [roomFor, if_pos hpos, availFor, hxid]
    by_cases hle : xid ≤ l.xid
    · rw [if_pos hle, if_pos ⟨Nat.pos_of_ne_zero hpos, hle⟩]
      by_cases hsmall : remainOf pgc < edGcListPageSize
      · rw [if_pos hsmall]
        exact .inl ⟨Nat.div_eq_of_lt hsmall, rfl⟩
      · rw [if_neg hsmall]
        refine .inr ⟨Nat.div_pos (Nat.not_lt.mp hsmall) (by decide), pgc, raw, l,
          merge_extends h.holds hp hls hle, ?_⟩
        rw [GcSt.setPage_same hnote]
    · rw [if_neg hle, if_neg (fun hm => hle hm.2), hrem]
      by_cases hsmall : 4060 - pgc.state.tail - 4 * l.pages.length < edPgGcListSizeof
      · rw [if_pos hsmall]
        exact .inl ⟨hfull.mp hsmall, rfl⟩
      · have hnext : nextList pgc = pgc.state.tail + edGcListSize l.pages.length := by
          have hend := hp.endOf_eq
          rw [endOf, if_neg hpos] at hend
          rw [nextList_eq hp, ← hend]
          show _ + edGcListSize (pgc.npages pgc.state.tail) = _
          rw [hn]
        have hroom := hfit (Nat.not_lt.mp hsmall)
        rw [← hnext] at hroom
        have hwild : ¬ edGcData < nextList pgc + edPgGcListPages := by
          rw [edGcData_eq, edPgGcListPages]
          omega
        rw [if_neg hsmall, if_neg hwild, hcap, ← hnext]
        refine .inr ⟨by omega, withList pgc xid, _, _, withList_extends h.holds hp hls xid hroom, rfl⟩

theorem Extends.addPages {pgc' : EdPgGc} {room : Nat} (h : Extends pgc pgc' ls xid room raw l)
    (hlen : pg.length ≤ room) (hpg : pg ≠ []) :
    ∃ ls', Holds (pgc'.addPages pgc'.state.tail pg) ls' ∧ ls' ≠ [] ∧
      freeIn ls' = freeIn ls ++ pg.map (l.xid, ·) ∧
      (pg.length = room → roomFor (pgc'.addPages pgc'.state.tail pg) xid = 0) := by
  have hin := h.inside
  have hfull := h.full
  have hpacks : Packs (pgc'.addPages pgc'.state.tail pg).data (pgc'.addPages pgc'.state.tail pg).state
      (raw ++ [⟨l.xid, l.pages ++ pg⟩]) := h.packs.addPages (by omega)
  refine ⟨skipPages pgc'.state.nskip (raw ++ [⟨l.xid, l.pages ++ pg⟩]),
    ⟨⟨⟨_, hpacks, rfl⟩, fun x hx => ?_, fun hnil => ?_⟩, fun hnil => ?_⟩, fun hnil => ?_, ?_, ?_⟩
  · -- Every list has a page: those before the last one had it, and the last one got some.
    cases raw with
    | nil =>
      rw [mem_singleton.mp hx]
      show (l.pages ++ pg).drop pgc'.state.nskip ≠ []
      have hskip := h.skip rfl
      rw [drop_append_of_le_length hskip]
      exact append_ne_nil_of_right_ne_nil _ hpg
    | cons r raw =>
      rcases mem_append.mp (show x ∈ skipPages pgc'.state.nskip (r :: raw) ++ [_] from hx)
        with hx | hx
      · exact h.pages x hx
      · rw [mem_singleton.mp hx]
        exact append_ne_nil_of_right_ne_nil _ hpg
  · exact absurd (skipPages_eq_nil.mp hnil) (by simp)
  · exact absurd (skipPages_eq_nil.mp hnil) (by simp)
  · exact absurd (skipPages_eq_nil.mp hnil) (by simp)
  · rw [← h.free]
    cases raw with
    | nil =>
      have hskip := h.skip rfl
      simp [skipPages, drop_append_of_le_length hskip]
    | cons r raw => simp [skipPages]
  · intro hroom
    obtain ⟨-, hinside, hxid, hn⟩ := hpacks.last
    have hnz : (pgc'.addPages pgc'.state.tail pg).state.nlists ≠ 0 := by
      rw [hpacks.nlists]
      simp
    have htail : (pgc'.addPages pgc'.state.tail pg).state.tail = pgc'.state.tail := rfl
    rw [roomFor, if_pos hnz, availFor, hxid, if_pos h.xid_le, remainOf, hn, htail, length_append,
      edGcListPageSize]
    omega

/-- `fill_list`: as many pages as fit are added to the list. -/
theorem fillList_eq {pgc' : EdPgGc} {room : Nat} (hpgc : s.pages p = pgc')
    (h : Extends pgc pgc' ls xid room raw l) (pg : List Nat) :
    fillList p pgc'.state.tail pg s =
      .ok (pg.drop room) ((s.note ⟨pgc', pgc'.state.tail⟩).setPage p fun _ =>
        pgc'.addPages pgc'.state.tail (pg.take room)) := by
  obtain ⟨-, -, -, hn⟩ := h.packs.last
  have hinside := h.inside
  have hfull := h.full
  have hroom : remainOf pgc' / edGcListPageSize = room := by
    rw [remainOf, hn, edGcListPageSize]
    omega
  have hnote : (s.note ⟨pgc', pgc'.state.tail⟩).pages p = pgc' := hpgc
  refine wp_of_eq ?_
  unfold fillList
  rw [wp_bind, wp_eq_ok (gcListRemain_eq hpgc h.packs.fine), wp_bind, wp_gets, hroom]
  rw [hnote, hn]
  -- The number of pages that are added, as a limit of `take` and `drop`.
  have htake : ∀ k, (k = if pg.length < room then pg.length else room) →
      pg.take k = pg.take room ∧ pg.drop k = pg.drop room ∧ k ≤ room := by
    intro k hk
    by_cases hlt : pg.length < room
    · rw [if_pos hlt] at hk
      subst hk
      rw [take_length, drop_length, take_of_length_le hlt.le,
        drop_eq_nil_of_le hlt.le]
      exact ⟨rfl, rfl, hlt.le⟩
    · rw [if_neg hlt] at hk
      subst hk
      exact ⟨rfl, rfl, Nat.le_refl _⟩
  obtain ⟨h1, h2, h3⟩ := htake _ rfl
  have hwild : ¬ edGcData < pgc'.state.tail + edPgGcListPages + edGcListPageSize *
      (l.pages.length + if pg.length < room then pg.length else room) := by
    simp only [edGcData_eq, edPgGcListPages, edGcListPageSize]
    omega
  rw [if_neg hwild, wp_bind, wp_modify, h1, h2,
    GcSt.setPage_const hnote fun q => q.addPages pgc'.state.tail (pg.take room), wp_pure']
  exact ⟨rfl, rfl⟩

end Eddy.Gc
