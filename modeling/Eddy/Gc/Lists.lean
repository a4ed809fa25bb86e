import Eddy.Gc.Model

/-!
# Eddy — the lists on a GC page

The data area of a GC page holds its lists as packed records (`Packed.Laid`), from `state.head` on.
The first `nskip` pages of the first list are in use again already.
-/

namespace Eddy.Gc

open Outcome Packed List

/-- A list of free pages. -/
structure GcList where
  xid : Nat
  pages : List Nat
  deriving DecidableEq, Repr

namespace GcList

/-- The words of a list: the header and the pages. -/
def words (l : GcList) : List Nat :=
  [l.xid % 2 ^ 32, l.xid / 2 ^ 32, l.pages.length] ++ l.pages

/-- The words a list takes. -/
def stride (l : GcList) : Nat := edGcListSize l.pages.length / 4

end GcList

/-! ## Sizes -/

theorem edGcData_eq : edGcData = 4072 := rfl

theorem edGcListSize_eq (n : Nat) : edGcListSize n = (n + 4) / 2 * 8 := by
  unfold edGcListSize edAlignSize edPgGcListPages edGcListPageSize
  omega

theorem GcList.stride_eq (l : GcList) : l.stride = (l.pages.length + 4) / 2 * 2 := by
  rw [stride, edGcListSize_eq]
  omega

theorem GcList.length_words (l : GcList) : l.words.length = l.pages.length + 3 := rfl

theorem GcList.length_words_le (l : GcList) : l.words.length ≤ l.stride := by
  rw [length_words, stride_eq]
  omega

theorem even_past {o : Nat} (ho : o % 2 = 0) (raw : List GcList) :
    past GcList.stride o raw % 2 = 0 := by
  induction raw generalizing o with
  | nil => exact ho
  | cons l raw ih =>
    refine ih ?_
    rw [GcList.stride_eq]
    omega

theorem length_le_past (o : Nat) (raw : List GcList) :
    o + 4 * raw.length ≤ past GcList.stride o raw := by
  induction raw generalizing o with
  | nil => exact Nat.le_refl o
  | cons l raw ih =>
    have h := ih (o + l.stride)
    have hs := l.stride_eq
    rw [past, length_cons]
    omega

/-! ## The data area -/

theorem laid_cons_iff {d : Nat → Nat} {o : Nat} {l : GcList} {raw : List GcList} :
    Laid GcList.words GcList.stride d o (l :: raw) ↔
      (d o = l.xid % 2 ^ 32 ∧ d (o + 1) = l.xid / 2 ^ 32 ∧ d (o + 2) = l.pages.length ∧
        window d (o + 3) l.pages.length = l.pages) ∧
      Laid GcList.words GcList.stride d (o + l.stride) raw := by
  rw [Laid, GcList.length_words, GcList.words, window_succ, window_succ, window_succ]
  simp only [cons_append, nil_append, List.cons.injEq]

/-- The lists `raw` stand in the data area `d` as the state of the page says. -/
structure Packs (d : Nat → Nat) (st : EdPgGcState) (raw : List GcList) : Prop where
  aligned : st.head % 8 = 0
  laid : Laid GcList.words GcList.stride d (st.head / 4) raw
  inside : past GcList.stride (st.head / 4) raw ≤ edGcData / 4
  nlists : st.nlists = raw.length
  tail : raw ≠ [] → st.tail = 4 * lastAt GcList.stride (st.head / 4) raw

/-- The lists without the first `k` pages of the first one. -/
def skipPages (k : Nat) : List GcList → List GcList
  | [] => []
  | l :: ls => ⟨l.xid, l.pages.drop k⟩ :: ls

@[simp] theorem skipPages_zero (raw : List GcList) : skipPages 0 raw = raw := by
  cases raw <;> rfl

@[simp] theorem length_skipPages (k : Nat) (raw : List GcList) :
    (skipPages k raw).length = raw.length := by
  cases raw <;> rfl

theorem skipPages_eq_nil {k : Nat} {raw : List GcList} : skipPages k raw = [] ↔ raw = [] := by
  cases raw <;> simp [skipPages]

/-- A copy of the state of a page, and the lists it leaves there. -/
structure Staged (d : Nat → Nat) (st : EdPgGcState) (lists : List GcList) : Prop where
  packs : ∃ raw, Packs d st raw ∧ lists = skipPages st.nskip raw
  pages : ∀ l ∈ lists, l.pages ≠ []
  empty : lists = [] → st.tail ≤ st.head ∧ st.nskip = 0

/-- The lists that are left on a GC page. -/
structure Holds (pgc : EdPgGc) (lists : List GcList) : Prop where
  staged : Staged pgc.data pgc.state lists
  empty : lists = [] → pgc.state.tail = pgc.state.head

variable {d d' : Nat → Nat} {st : EdPgGcState} {l : GcList} {raw ls : List GcList} {pgc : EdPgGc}

theorem Packs.head_inside (h : Packs d st (l :: raw)) :
    st.head + l.stride * 4 ≤ 4072 ∧ past GcList.stride (st.head / 4 + l.stride) raw ≤ 1018 := by
  have h1 := le_past GcList.stride (st.head / 4 + l.stride) raw
  have h2 : past GcList.stride (st.head / 4 + l.stride) raw ≤ 1018 := h.inside
  have h3 := h.aligned
  omega

theorem words_xid (x : Nat) : x % 2 ^ 32 + 2 ^ 32 * (x / 2 ^ 32) = x := Nat.mod_add_div x _

/-- What `ed_alloc` reads through `state.head`. -/
theorem Packs.header (h : Packs pgc.data st (l :: raw)) :
    pgc.xid st.head = l.xid ∧ pgc.npages st.head = l.pages.length ∧
      ∀ i n, i + n ≤ l.pages.length → pgc.pages st.head i n = (l.pages.drop i).take n := by
  obtain ⟨⟨h0, h1, h2, h3⟩, -⟩ := laid_cons_iff.mp h.laid
  refine ⟨?_, h2, fun i n hn => ?_⟩
  · rw [EdPgGc.xid, h0, h1, words_xid]
  · rw [EdPgGc.pages, ← h3, drop_window, take_window _ _ (by omega)]

theorem Packs.drop (h : Packs d st (l :: raw)) :
    Packs d ⟨st.head + edGcListSize l.pages.length, st.tail, st.nlists - 1, 0⟩ raw := by
  have halign := h.aligned
  have hword : (st.head + edGcListSize l.pages.length) / 4 = st.head / 4 + l.stride := by
    rw [edGcListSize_eq, GcList.stride_eq]
    omega
  refine ⟨?_, ?_, ?_, ?_, fun hraw => ?_⟩
  · show (st.head + edGcListSize l.pages.length) % 8 = 0
    rw [edGcListSize_eq]
    omega
  · show Laid _ _ d ((st.head + _) / 4) _
    rw [hword]
    exact h.laid.2
  · show past _ ((st.head + _) / 4) _ ≤ _
    rw [hword]
    exact h.inside
  · show st.nlists - 1 = _
    rw [h.nlists]
    rfl
  · obtain ⟨r, raw', rfl⟩ := exists_cons_of_ne_nil hraw
    show st.tail = 4 * lastAt _ ((st.head + _) / 4) _
    rw [hword]
    exact h.tail (cons_ne_nil _ _)

/-! ## Taking pages -/

theorem Staged.first (h : Staged d st (l :: ls)) :
    ∃ all, Packs d st (⟨l.xid, all⟩ :: ls) ∧ l.pages = all.drop st.nskip ∧ st.nskip < all.length := by
  obtain ⟨raw, hp, heq⟩ := h.packs
  cases raw with
  | nil => cases heq
  | cons r raw =>
    rw [skipPages, List.cons.injEq] at heq
    obtain ⟨rfl, rfl⟩ := heq
    have hne : r.pages.drop st.nskip ≠ [] := h.pages _ mem_cons_self
    exact ⟨r.pages, hp, rfl, by simpa using hne⟩

theorem Staged.take {n : Nat} (h : Staged d st (l :: ls)) (hn : n < l.pages.length) :
    Staged d { st with nskip := st.nskip + n } (⟨l.xid, l.pages.drop n⟩ :: ls) := by
  obtain ⟨all, hp, hl, -⟩ := h.first
  refine ⟨⟨⟨l.xid, all⟩ :: ls, ⟨hp.aligned, hp.laid, hp.inside, hp.nlists, hp.tail⟩, ?_⟩, ?_, nofun⟩
  · rw [skipPages, hl, drop_drop]
  · intro x hx
    rcases mem_cons.mp hx with rfl | hx
    · simpa using hn
    · exact h.pages x (mem_cons_of_mem _ hx)

theorem Staged.drop {all : List Nat} (h : Staged d st (l :: ls))
    (hp : Packs d st (⟨l.xid, all⟩ :: ls)) :
    Staged d ⟨st.head + edGcListSize all.length, st.tail, st.nlists - 1, 0⟩ ls := by
  refine ⟨⟨ls, hp.drop, (skipPages_zero ls).symm⟩,
    fun x hx => h.pages x (mem_cons_of_mem _ hx), fun hls => ⟨?_, rfl⟩⟩
  -- The list was the last one, and its end is behind its start.
  subst hls
  have htail := hp.tail (cons_ne_nil _ _)
  have halign := hp.aligned
  rw [lastAt, dropLast_singleton, past] at htail
  show st.tail ≤ st.head + edGcListSize all.length
  omega

theorem Staged.nlists (h : Staged d st ls) : st.nlists = ls.length := by
  obtain ⟨raw, hp, rfl⟩ := h.packs
  rw [hp.nlists, length_skipPages]

theorem Staged.nlists_lt (h : Staged d st ls) : st.nlists < 2 ^ 16 := by
  obtain ⟨raw, hp, rfl⟩ := h.packs
  have h1 := length_le_past (st.head / 4) raw
  have h2 := hp.inside
  rw [edGcData_eq] at h2
  rw [hp.nlists]
  omega

theorem Staged.nil_of_lt (h : Staged d st ls) (hlt : st.tail < st.head) : ls = [] := by
  obtain ⟨raw, hp, rfl⟩ := h.packs
  rw [skipPages_eq_nil]
  by_contra hne
  have htail := hp.tail hne
  have hle := le_past GcList.stride (st.head / 4) raw.dropLast
  have halign := hp.aligned
  rw [lastAt] at htail
  omega

theorem Staged.holds {next : Option Nat} (h : Staged d st ls) : Holds ⟨st.closed, next, d⟩ ls := by
  obtain ⟨raw, hp, hls⟩ := h.packs
  rw [EdPgGcState.closed]
  by_cases hlt : st.tail < st.head
  · have hnil := h.nil_of_lt hlt
    have hraw : raw = [] := skipPages_eq_nil.mp (hls.symm.trans hnil)
    subst hraw
    rw [if_pos hlt]
    refine ⟨⟨⟨[], ⟨hp.aligned, trivial, hp.inside, hp.nlists, nofun⟩, hls⟩, h.pages, fun hn => ?_⟩,
      fun _ => rfl⟩
    exact ⟨Nat.le_refl _, (h.empty hn).2⟩
  · rw [if_neg hlt]
    exact ⟨h, fun hn => Nat.le_antisymm (h.empty hn).1 (Nat.le_of_not_lt hlt)⟩

/-! ## Adding pages -/

/-- What is read through `state.tail`. -/
theorem Packs.last (h : Packs pgc.data st (raw ++ [l])) :
    st.tail % 8 = 0 ∧ st.tail + 12 + 4 * l.pages.length ≤ 4072 ∧
      pgc.xid st.tail = l.xid ∧ pgc.npages st.tail = l.pages.length := by
  have htail := h.tail (by simp)
  rw [lastAt_concat] at htail
  have heven := even_past (o := st.head / 4) (by have := h.aligned; omega) raw
  have hword : st.tail / 4 = past GcList.stride (st.head / 4) raw := by omega
  obtain ⟨⟨h0, h1, h2, -⟩, -⟩ := laid_cons_iff.mp (laid_append.mp h.laid).2
  have hin : past GcList.stride (st.head / 4) (raw ++ [l]) ≤ 1018 := h.inside
  rw [past_append, past, past, GcList.stride_eq] at hin
  refine ⟨by omega, by omega, ?_, ?_⟩
  · rw [EdPgGc.xid, hword, h0, h1, words_xid]
  · rw [EdPgGc.npages, hword, h2]

theorem Packs.startList {o : Nat} (xid : Nat) (h : Packs pgc.data st raw)
    (ho : o = 4 * past GcList.stride (st.head / 4) raw) (hin : o + 16 ≤ 4072) :
    Packs (pgc.startList o xid).data ⟨st.head, o, st.nlists + 1, st.nskip⟩ (raw ++ [⟨xid, []⟩]) := by
  have hword : o / 4 = past GcList.stride (st.head / 4) raw := by omega
  refine ⟨h.aligned, laid_append.mpr ⟨?_, laid_cons_iff.mpr ⟨?_, trivial⟩⟩, ?_, ?_, fun _ => ?_⟩
  · refine h.laid.congr GcList.length_words_le fun i _ hi => overlay_of_lt ?_
    rw [hword]
    exact hi
  · -- The three words of the header.
    have hhdr := window_overlay_self pgc.data (o / 4) [xid % 2 ^ 32, xid / 2 ^ 32, 0]
    simp only [length_cons, length_nil, window_succ, List.cons.injEq] at hhdr
    obtain ⟨h0, h1, h2, -⟩ := hhdr
    show overlay _ _ _ _ = _ ∧ overlay _ _ _ _ = _ ∧ overlay _ _ _ _ = _ ∧ _
    rw [← hword]
    exact ⟨h0, h1, h2, rfl⟩
  · show past _ (st.head / 4) _ ≤ 1018
    rw [past_append, past, past, GcList.stride_eq]
    show _ + (0 + 4) / 2 * 2 ≤ 1018
    omega
  · show st.nlists + 1 = _
    rw [h.nlists, length_append]
    rfl
  · show o = 4 * lastAt _ (st.head / 4) _
    rw [lastAt_concat, ho]

theorem Packs.addPages {pg : List Nat} (h : Packs pgc.data st (raw ++ [l]))
    (hin : st.tail + 12 + 4 * (l.pages.length + pg.length) ≤ 4072) :
    Packs (pgc.addPages st.tail pg).data st (raw ++ [⟨l.xid, l.pages ++ pg⟩]) := by
  obtain ⟨halign, -, -, hn⟩ := h.last
  have htail := h.tail (by simp)
  rw [lastAt_concat] at htail
  have hword : st.tail / 4 = past GcList.stride (st.head / 4) raw := by omega
  have heven := even_past (o := st.head / 4) (by have := h.aligned; omega) raw
  obtain ⟨⟨h0, h1, h2, h3⟩, -⟩ := laid_cons_iff.mp (laid_append.mp h.laid).2
  rw [← hword] at h0 h1 h2 h3
  have hmod : (l.pages.length + pg.length) % 2 ^ 32 = l.pages.length + pg.length := by omega
  have hdata : (pgc.addPages st.tail pg).data = overlay (overlay pgc.data
      (st.tail / 4 + 3 + l.pages.length) pg) (st.tail / 4 + 2) [l.pages.length + pg.length] := by
    rw [EdPgGc.addPages, hn, hmod]
  -- Below the number of pages of the list nothing changes.
  have hbelow : ∀ i, i < st.tail / 4 + 2 → (pgc.addPages st.tail pg).data i = pgc.data i := by
    intro i hi
    rw [hdata, overlay_of_lt hi, overlay_of_lt (by omega)]
  refine ⟨h.aligned, laid_append.mpr ⟨?_, laid_cons_iff.mpr ⟨?_, trivial⟩⟩, ?_, ?_, fun _ => ?_⟩
  · exact (laid_append.mp h.laid).1.congr GcList.length_words_le fun i _ hi => hbelow i (by omega)
  · rw [← hword]
    refine ⟨(hbelow _ (by omega)).trans h0, (hbelow _ (by omega)).trans h1, ?_, ?_⟩
    · have hself := window_overlay_self (overlay pgc.data (st.tail / 4 + 3 + l.pages.length) pg)
        (st.tail / 4 + 2) [l.pages.length + pg.length]
      rw [hdata, length_append]
      exact (List.cons.inj hself).1
    · show window _ _ (l.pages ++ pg).length = l.pages ++ pg
      have hone : [l.pages.length + pg.length].length = 1 := rfl
      rw [hdata, length_append, window_add, window_overlay_apart (by rw [hone]; omega),
        window_overlay_apart (by omega), h3, window_overlay_apart (by rw [hone]; omega),
        window_overlay_self]
  · show past _ (st.head / 4) _ ≤ 1018
    rw [past_append, past, past, GcList.stride_eq, length_append]
    omega
  · rw [h.nlists, length_append, length_append]
    rfl
  · rw [lastAt_concat, htail]

/-- The first byte behind the last list, by what `state.tail` says. -/
def endOf (d : Nat → Nat) (st : EdPgGcState) : Nat :=
  if st.nlists = 0 then st.head else st.tail + edGcListSize (d (st.tail / 4 + 2))

theorem Packs.endOf_eq (h : Packs d st raw) : endOf d st = 4 * past GcList.stride (st.head / 4) raw := by
  have halign := h.aligned
  rcases eq_nil_or_concat' raw with rfl | ⟨raw, l, rfl⟩
  · have hzero : st.nlists = 0 := h.nlists
    rw [endOf, if_pos hzero, past]
    omega
  · have hne : ¬ st.nlists = 0 := by
      rw [h.nlists]
      simp
    have htail := h.tail (by simp)
    have hpgc : Packs (EdPgGc.data ⟨st, none, d⟩) st (raw ++ [l]) := h
    have hnpages : d (st.tail / 4 + 2) = l.pages.length := hpgc.last.2.2.2
    rw [lastAt_concat] at htail
    rw [endOf, if_neg hne, hnpages, past_append, past, past, htail, edGcListSize_eq,
      GcList.stride_eq]
    omega

theorem holds_zero : Holds EdPgGc.zero [] where
  staged := ⟨⟨[], ⟨rfl, trivial, Nat.zero_le _, rfl, nofun⟩, rfl⟩, nofun,
    fun _ => ⟨Nat.le_refl _, rfl⟩⟩
  empty _ := rfl

/-! ## Compaction -/

theorem compact_data (pgc : EdPgGc) : pgc.compact.data = overlay pgc.data 0
    (window pgc.data (pgc.state.head / 4) ((edGcData - pgc.state.head) / 4)) := rfl

theorem compact_head (pgc : EdPgGc) : pgc.compact.state.head = 0 := rfl

theorem compact_tail (pgc : EdPgGc) :
    pgc.compact.state.tail = (pgc.state.tail - pgc.state.head) % 2 ^ 16 := rfl

theorem compact_data_of_lt {i : Nat} (h : i < (4072 - pgc.state.head) / 4) :
    pgc.compact.data i = pgc.data (i + pgc.state.head / 4) := by
  rw [compact_data, edGcData_eq, overlay, if_pos (Nat.zero_le i), Nat.sub_zero, window,
    Slots.getElem?_slots _ h, Nat.add_comm]
  rfl

/-- The half-page compaction moves the lists to the front. -/
theorem Packs.compact (h : Packs pgc.data pgc.state raw) :
    Packs pgc.compact.data pgc.compact.state raw := by
  have halign := h.aligned
  have hin : past GcList.stride (pgc.state.head / 4) raw ≤ 1018 := h.inside
  have hle := le_past GcList.stride (pgc.state.head / 4) raw
  have hpast : past GcList.stride (pgc.state.head / 4) raw
      = past GcList.stride 0 raw + pgc.state.head / 4 := by
    rw [← past_add, Nat.zero_add]
  -- The words that are copied hold all the lists.
  have hmove : ∀ i, 0 ≤ i → i < past GcList.stride 0 raw →
      pgc.compact.data i = pgc.data (i + pgc.state.head / 4) := by
    intro i _ hi
    exact compact_data_of_lt (by omega)
  have hhead : pgc.compact.state.head / 4 = 0 := by rw [compact_head]
  refine ⟨rfl, ?_, ?_, h.nlists, fun hraw => ?_⟩
  · have hlaid : Laid GcList.words GcList.stride pgc.data (0 + pgc.state.head / 4) raw := by
      rw [Nat.zero_add]
      exact h.laid
    rw [hhead]
    exact hlaid.shift GcList.length_words_le hmove
  · rw [hhead, edGcData_eq]
    omega
  · have htail := h.tail hraw
    have hlast : lastAt GcList.stride (pgc.state.head / 4) raw
        = lastAt GcList.stride 0 raw + pgc.state.head / 4 := by
      rw [lastAt, lastAt, ← past_add, Nat.zero_add]
    have hsub : past GcList.stride 0 raw.dropLast ≤ past GcList.stride 0 raw := by
      conv_rhs => rw [← dropLast_append_getLast hraw, past_append]
      exact le_past _ _ _
    rw [hhead, compact_tail, htail, hlast, lastAt]
    omega

theorem Holds.compact (h : Holds pgc ls) : Holds pgc.compact ls := by
  obtain ⟨raw, hp, hls⟩ := h.staged.packs
  have htail : ls = [] → pgc.compact.state.tail = 0 := fun hn => by
    rw [compact_tail, h.empty hn, Nat.sub_self, Nat.zero_mod]
  exact ⟨⟨⟨raw, hp.compact, hls⟩, h.staged.pages,
    fun hn => ⟨Nat.le_of_eq (htail hn), (h.staged.empty hn).2⟩⟩, htail⟩

end Eddy.Gc
