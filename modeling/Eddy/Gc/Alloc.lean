import Eddy.Gc.Chain
import Eddy.Index.Alloc
import Mathlib.Data.List.Sort

/-!
# Eddy — `ed_alloc` on the pages of the GC

`ed_alloc` takes pages from the front of the chain as `reuse` says, and the others from the tail. It
works on a copy of the state of the GC page it is at and writes the copy back at the end, so that a
call that fails leaves the chain as it was. Growing the tail goes wrong when the file gets more pages
than a page number can count: the size that is passed to `ftruncate` wraps around.
-/

namespace Eddy.Gc

open Outcome Packed List

variable {sys : Sys} {s s' : GcSt} {xmin npg t m n : Nat} {st : EdPgGcState}

/-! ## System calls -/

/-- Some system call is refused. -/
def Refused (sys : Sys) : Prop := (∃ n, sys.mmap n = false) ∨ ∃ n, sys.ftruncate n = false

/-- The system that grants every call. -/
def Sys.granted : Sys := ⟨fun _ => true, fun _ => true⟩

theorem not_refused_granted : ¬ Refused Sys.granted := by
  rintro (⟨k, hk⟩ | ⟨k, hk⟩) <;> cases hk

/-- Nothing has changed but the number of system calls. -/
def Ticked (s s' : GcSt) : Prop := ∃ n, s' = { s with tick := n }

theorem Ticked.refl (s : GcSt) : Ticked s s := ⟨s.tick, rfl⟩

theorem Ticked.trans {s'' : GcSt} (h : Ticked s s') (h' : Ticked s' s'') : Ticked s s'' := by
  obtain ⟨n, rfl⟩ := h
  obtain ⟨n', rfl⟩ := h'
  exact ⟨n', rfl⟩

/-- The exits of a call that only makes system calls. -/
def tickExits (sys : Sys) (s : GcSt) : Exits EdErr GcFault GcSt :=
  ⟨fun _ s' => Refused sys ∧ Ticked s s', fun _ _ => False, False⟩

theorem sysCall_spec {ok : Nat → Bool} (href : ∀ n, ok n = false → Refused sys) :
    wp (sysCall ok) (fun _ s' => Ticked s s') (tickExits sys s) s := by
  unfold sysCall
  simp only [wp_bind, wp_gets, wp_modify, wp_ite, wp_pure', wp_throw]
  refine ⟨fun _ => ⟨_, rfl⟩, fun h => ⟨href s.tick ?_, _, rfl⟩⟩
  simpa using h

theorem edPgMap_spec (sys : Sys) (s : GcSt) :
    wp (edPgMap sys) (fun _ s' => Ticked s s') (tickExits sys s) s :=
  sysCall_spec fun n h => .inl ⟨n, h⟩

theorem edPgLoad_spec (sys : Sys) (p : Option Nat) (s : GcSt) :
    wp (edPgLoad sys p) (fun _ s' => Ticked s s') (tickExits sys s) s := by
  cases p with
  | none => exact Ticked.refl s
  | some p => exact edPgMap_spec sys s

theorem wp_ticked {α : Type} {x : GM α} {Q : α → GcSt → Prop} (ht : Ticked s s')
    (h : wp x (fun a s'' => Ticked s' s'' ∧ Q a s'') (tickExits sys s') s') :
    wp x (fun a s'' => Ticked s s'' ∧ Q a s'') (tickExits sys s) s' :=
  wp_mono h (fun _ _ h => ⟨ht.trans h.1, h.2⟩) (fun _ _ h => ⟨h.1, ht.trans h.2⟩)
    (fun _ _ h => h) id

theorem mapSortedPages_spec (sys : Sys) (pgno : List Nat) (s : GcSt) :
    wp (mapSortedPages sys pgno) (fun _ s' => Ticked s s') (tickExits sys s) s := by
  induction pgno generalizing s with
  | nil => exact Ticked.refl s
  | cons a pgno ih =>
    cases pgno with
    | nil => exact edPgMap_spec sys s
    | cons b rest =>
      have hrest : ∀ s', Ticked s s' →
          wp (mapSortedPages sys (b :: rest)) (fun _ s' => Ticked s s') (tickExits sys s) s' :=
        fun s' ht => wp_mono (ih s') (fun _ _ h => ht.trans h)
          (fun _ _ h => ⟨h.1, ht.trans h.2⟩) (fun _ _ h => h) id
      rw [mapSortedPages]
      simp only [wp_bind, wp_ite]
      refine ⟨fun _ => wp_mono (edPgMap_spec sys s) (fun _ s' ht => hrest s' ht)
        (fun _ _ h => h) (fun _ _ h => h) id, fun _ => hrest s (Ticked.refl s)⟩

/-! ## The loop -/

/-- Two states of a page that end at the same byte. -/
structure SameEnd (d : Nat → Nat) (st st' : EdPgGcState) : Prop where
  tail : st'.tail = st.tail
  endOf : endOf d st' = endOf d st

theorem SameEnd.trans {d : Nat → Nat} {st' st'' : EdPgGcState} (h : SameEnd d st st')
    (h' : SameEnd d st' st'') : SameEnd d st st'' :=
  ⟨h'.tail.trans h.tail, h'.endOf.trans h.endOf⟩

theorem SameEnd.closed {d : Nat → Nat} {st' : EdPgGcState} {ls : List GcList} (h : SameEnd d st st')
    (hst : Staged d st' ls) :
    SameEnd d st st'.closed ∨ ls = [] ∧ st'.closed.tail = Gc.endOf d st := by
  rw [EdPgGcState.closed]
  by_cases hlt : st'.tail < st'.head
  · have hnil := hst.nil_of_lt hlt
    have hzero : st'.nlists = 0 := by
      rw [hst.nlists, hnil]
      rfl
    rw [if_pos hlt]
    refine .inr ⟨hnil, ?_⟩
    rw [← h.endOf, Gc.endOf, if_pos hzero]
  · rw [if_neg hlt]
    exact .inl h

/-- How a turn of the loop changes what was collected, when `m` pages are still to be found and the
GC page has the lists `l :: ls`. -/
def Took (d : Nat → Nat) (xmin m : Nat) (l : GcList) (ls : List GcList) (a : Stage) : Turn → Prop
  | .stop a' => ∃ r, reuseLists xmin m (l :: ls) = r ∧ r.2 ≠ [] ∧ Staged d a'.state r.2 ∧
      SameEnd d a.state a'.state ∧
      a'.gc = a.gc ∧ a'.pgno = a.pgno ++ r.1.map Prod.snd ∧ a'.recycled = a.recycled
  | .go a' => ¬ l.Seen xmin ∧ l.pages.length ≤ m ∧ Staged d a'.state ls ∧
      SameEnd d a.state a'.state ∧
      a'.gc = a.gc ∧ a'.pgno = a.pgno ++ l.pages ∧ a'.recycled = a.recycled

/-- A turn takes pages of the first list. -/
theorem takeList_spec {a : Stage} {l : GcList} {ls : List GcList}
    (h : Staged (s.pages a.gc).data a.state (l :: ls)) :
    wp (takeList xmin npg a)
      (fun turn s' => s' = s ∧ Took (s.pages a.gc).data xmin (npg - a.count) l ls a turn)
      (tickExits sys s) s := by
  obtain ⟨all, hp, hl, hskip⟩ := h.first
  have hxid : (s.pages a.gc).xid a.state.head = l.xid := hp.header.1
  have hnpages : (s.pages a.gc).npages a.state.head = all.length := hp.header.2.1
  have hpages : ∀ i n, i + n ≤ all.length →
      (s.pages a.gc).pages a.state.head i n = (all.drop i).take n := hp.header.2.2
  have hsize : a.state.head + (all.length + 4) / 2 * 2 * 4 ≤ 4072 := by
    have := hp.head_inside.1
    rwa [GcList.stride_eq] at this
  have hlen : l.pages.length = all.length - a.state.nskip := by rw [hl, length_drop]
  have hn16 : (all.length - a.state.nskip) % 2 ^ 16 = l.pages.length := by omega
  unfold takeList
  simp only [wp_bind, wp_gets, wp_ite, wp_pure', hxid, hnpages, hn16]
  refine ⟨fun hwild => ?_, fun _ => ⟨fun hseen => ?_, fun hseen => ⟨fun hfault => ?_, fun _ => ?_⟩⟩⟩
  · simp only [edGcData_eq, edPgGcListPages] at hwild
    omega
  · have hseen' : l.Seen xmin := hseen
    exact ⟨trivial, ([], l :: ls), by rw [reuseLists, if_pos hseen'], cons_ne_nil _ _, h,
      ⟨rfl, rfl⟩, rfl, (append_nil _).symm, rfl⟩
  · omega
  · have hseen' : ¬ l.Seen xmin := hseen
    generalize hm : npg - a.count = m
    -- The pages that are used are read inside the data area.
    have hread : ∀ n, n ≤ l.pages.length →
        (s.pages a.gc).pages a.state.head a.state.nskip n = l.pages.take n := by
      intro n hn
      rw [hpages _ _ (by omega), ← hl]
    have hin : ∀ n, n ≤ l.pages.length →
        ¬ edGcData < a.state.head + edPgGcListPages + edGcListPageSize * (a.state.nskip + n) := by
      intro n hn
      simp only [edGcData_eq, edPgGcListPages, edGcListPageSize]
      omega
    by_cases hpart : m < l.pages.length
    · simp only [if_pos hpart]
      refine ⟨fun hwild => absurd hwild (hin m hpart.le), fun _ => ⟨fun _ => ⟨trivial, ?_⟩,
        fun hnot => absurd hpart hnot⟩⟩
      refine ⟨_, by rw [reuseLists, if_neg hseen', if_pos hpart],
        cons_ne_nil _ _, ?_, ⟨rfl, rfl⟩, rfl, ?_, rfl⟩
      · have hmod : (a.state.nskip + m) % 2 ^ 16 = a.state.nskip + m := by omega
        rw [hmod]
        exact h.take hpart
      · show a.pgno ++ _ = a.pgno ++ _
        rw [hread m hpart.le, map_map]
        simp [Function.comp_def]
    · simp only [if_neg hpart]
      refine ⟨fun hwild => absurd hwild (hin _ le_rfl), fun _ => ⟨fun hlt => absurd hlt (lt_irrefl _),
        fun _ => ⟨trivial, hseen', by omega, ?_⟩⟩⟩
      have hmod : (a.state.head + edGcListSize all.length) % 2 ^ 16
          = a.state.head + edGcListSize all.length := by
        rw [edGcListSize_eq]
        omega
      simp only [hmod]
      refine ⟨h.drop hp, ⟨rfl, ?_⟩, trivial, ?_, trivial⟩
      · rw [hp.drop.endOf_eq, hp.endOf_eq, past]
        have hword : (a.state.head + edGcListSize all.length) / 4
            = a.state.head / 4 + (all.length + 4) / 2 * 2 := by
          rw [edGcListSize_eq]
          omega
        show 4 * past _ ((a.state.head + edGcListSize all.length) / 4) _ = _
        rw [hword, GcList.stride_eq]
      · show a.pgno ++ _ = a.pgno ++ _
        rw [hread _ le_rfl, take_length]

/-- From `a` to `a'` the loop has collected what `r` says. -/
structure Collected (pages : Nat → EdPgGc) (t : Nat) (r : Reuse) (a a' : Stage) : Prop where
  rest : ∃ cur c, r.rest = ⟨a'.gc, cur⟩ :: c ∧ Staged (pages a'.gc).data a'.state cur ∧
    Follows pages t a'.gc c
  sameEnd : SameEnd (pages a'.gc).data (pages a'.gc).state a'.state
  pgno : a'.pgno = a.pgno ++ r.taken.map Prod.snd
  recycled : a'.recycled = a.recycled ++ r.nodes

variable {a a1 a' : Stage} {l : GcList} {cur ls : List GcList} {c c' : List GcNode}
  {pages : Nat → EdPgGc}

theorem Collected.stop (hf : Follows pages t a.gc c)
    (hend : SameEnd (pages a.gc).data (pages a.gc).state a.state)
    (h : Took (pages a.gc).data xmin m l ls a (.stop a')) :
    Collected pages t (reuse xmin m (⟨a.gc, l :: ls⟩ :: c)) a a' := by
  obtain ⟨r, hr, hne, hst, hsame, hgc, hpgno, hrec⟩ := h
  rw [reuse_cons_stop hr hne]
  exact ⟨⟨r.2, c, by rw [hgc], hgc ▸ hst, hgc ▸ hf⟩, hgc ▸ hend.trans hsame, hpgno,
    by rw [hrec, append_nil]⟩

theorem Collected.go (h : Took (pages a.gc).data xmin m l ls a (.go a1))
    (h' : Collected pages t (reuse xmin (m - l.pages.length) (⟨a1.gc, ls⟩ :: c)) a1 a') :
    Collected pages t (reuse xmin m (⟨a.gc, l :: ls⟩ :: c)) a a' := by
  obtain ⟨hseen, hle, -, -, hgc, hpgno, hrec⟩ := h
  rw [hgc] at h'
  rw [reuse_cons_list hseen hle]
  refine ⟨h'.rest, h'.sameEnd, ?_, ?_⟩
  · rw [h'.pgno, hpgno, map_append, map_map, append_assoc]
    simp [Function.comp_def]
  · rw [h'.recycled, hrec]

theorem Collected.recycle {q : GcNode} (st : EdPgGcState) (hm : 0 < m) (hq : q.lists ≠ [])
    (h' : Collected pages t (reuse xmin (m - 1) (q :: c)) ⟨q.no, st, a.pgno, a.recycled ++ [a.gc]⟩
      a') : Collected pages t (reuse xmin m (⟨a.gc, []⟩ :: q :: c)) a a' := by
  rw [reuse_recycle hm hq]
  refine ⟨h'.rest, h'.sameEnd, h'.pgno, ?_⟩
  rw [h'.recycled, append_assoc]
  rfl

/-- A measure of the turns that are left. -/
def turnsLeft (npg : Nat) (a : Stage) : Nat := (npg - a.recycled.length) * 2 ^ 16 + a.state.nlists

/-- The loop collects what `reuse` takes. -/
theorem allocLoop_spec {fuel : Nat} (hst : Staged (s.pages a.gc).data a.state cur)
    (hend : SameEnd (s.pages a.gc).data (s.pages a.gc).state a.state)
    (hf : Follows s.pages t a.gc c) (ht : s.gcTail = some t) (hfuel : turnsLeft npg a < fuel) :
    wp (allocLoop sys xmin npg fuel a)
      (fun a' s' => Ticked s s' ∧
        Collected s.pages t (reuse xmin (npg - a.count) (⟨a.gc, cur⟩ :: c)) a a')
      (tickExits sys s) s := by
  induction fuel generalizing s a cur c with
  | zero => exact absurd hfuel (Nat.not_lt_zero _)
  | succ fuel ih =>
    -- A turn that takes pages of a list, and the turns after it.
    have turn : ∀ {s : GcSt} {a : Stage} {l : GcList} {ls : List GcList} {c : List GcNode},
        Staged (s.pages a.gc).data a.state (l :: ls) →
        SameEnd (s.pages a.gc).data (s.pages a.gc).state a.state → Follows s.pages t a.gc c →
        s.gcTail = some t → turnsLeft npg a ≤ fuel →
        wp (do
            match ← takeList xmin npg a with
            | .stop a => pure a
            | .go a => allocLoop sys xmin npg fuel a)
          (fun a' s' => Ticked s s' ∧
            Collected s.pages t (reuse xmin (npg - a.count) (⟨a.gc, l :: ls⟩ :: c)) a a')
          (tickExits sys s) s := by
      intro s a l ls c hst hend hf ht hle
      rw [wp_bind]
      refine wp_post (takeList_spec hst) ?_
      rintro turn s' ⟨rfl, htook⟩
      cases turn with
      | stop a1 => exact ⟨Ticked.refl _, .stop hf hend htook⟩
      | go a1 =>
        have ⟨_, hlen, hst1, hsame, hgc, hpgno, hrec⟩ := htook
        have hcount : npg - a1.count = npg - a.count - l.pages.length := by
          rw [Stage.count, Stage.count, hpgno, hrec, length_append]
          omega
        have hleft : turnsLeft npg a1 < fuel := by
          have h1 := hst.nlists
          have h2 := hst1.nlists
          rw [length_cons] at h1
          rw [turnsLeft] at hle ⊢
          rw [hrec]
          omega
        have hrest := ih (hgc ▸ hst1) (hgc ▸ hend.trans hsame) (hgc ▸ hf) ht hleft
        rw [hcount] at hrest
        exact wp_mono hrest (fun _ _ h => ⟨h.1, .go htook h.2⟩) (fun _ _ h => h)
          (fun _ _ h => h) id
    rw [allocLoop]
    by_cases hneed : a.count < npg
    · rw [if_pos hneed, wp_bind, nextGc]
      cases cur with
      | cons l ls =>
        -- The GC page still has lists.
        have hn : a.state.nlists ≠ 0 := by
          rw [hst.nlists, length_cons]
          omega
        rw [if_pos hn]
        exact turn hst hend hf ht (by omega)
      | nil =>
        have hn : ¬ a.state.nlists ≠ 0 := by
          rw [hst.nlists]
          simp
        rw [if_neg hn, wp_bind, wp_get, ht]
        cases c with
        | nil =>
          -- The last GC page stays.
          have hgc : a.gc = t := hf
          rw [if_pos (by rw [hgc])]
          refine ⟨Ticked.refl s, ⟨[], [], rfl, hst, hf⟩, hend, ?_, ?_⟩
          · exact (append_nil _).symm
          · exact (append_nil _).symm
        | cons q c =>
          obtain ⟨hne, hnext, hch⟩ := hf
          obtain ⟨hq, hfq⟩ := chained_cons_iff.mp hch
          rw [if_neg (fun h => hne (Option.some.inj h).symm), hnext]
          simp only [wp_bind]
          have hm : 0 < npg - a.count := by omega
          have hcount : a.recycled.length < npg := by
            rw [Stage.count] at hneed
            omega
          refine wp_post (edPgMap_spec sys s) ?_
          rintro _ s' ⟨k, rfl⟩
          by_cases hlists : q.lists = []
          · have hzero : (s.pages q.no).state.nlists = 0 := by
              rw [hq.staged.nlists, hlists]
              rfl
            rw [if_pos hzero]
            refine ⟨⟨k, rfl⟩, ?_⟩
            rw [reuse_recycle_stop hm hlists]
            exact ⟨⟨[], c, by rw [← hlists], hlists ▸ hq.staged, hfq⟩, ⟨rfl, rfl⟩,
              (append_nil _).symm, rfl⟩
          · have hzero : (s.pages q.no).state.nlists ≠ 0 := by
              rw [hq.staged.nlists]
              exact fun h => hlists (eq_nil_of_length_eq_zero h)
            rw [if_neg hzero]
            obtain ⟨l, ls, hcons⟩ := exists_cons_of_ne_nil hlists
            have hst' := hq.staged
            rw [hcons] at hst'
            have hsub : npg - Stage.count ⟨q.no, (s.pages q.no).state, a.pgno, a.recycled ++ [a.gc]⟩
                = npg - a.count - 1 := by
              simp only [Stage.count, length_append, length_singleton]
              omega
            refine wp_ticked ⟨k, rfl⟩ (wp_post (turn hst' ⟨rfl, rfl⟩ hfq ht ?_) ?_)
            · have h16 := hst'.nlists_lt
              rw [turnsLeft] at hfuel ⊢
              simp only [length_append, length_singleton]
              omega
            · rintro a' s' ⟨htick, hcol⟩
              refine ⟨htick, .recycle (s.pages q.no).state hm hlists ?_⟩
              rw [hsub] at hcol
              have heq : q = ⟨q.no, l :: ls⟩ := by rw [← hcons]
              rw [heq]
              exact hcol
    · rw [if_neg hneed]
      have hzero : npg - a.count = 0 := by omega
      rw [hzero, reuse_zero hst.pages]
      exact ⟨Ticked.refl s, ⟨cur, c, rfl, hst, hf⟩, hend, (append_nil _).symm,
        (append_nil _).symm⟩

/-! ## The tail -/

/-- The tail pages may grow without a page number that wraps around, when `n` are needed. -/
def Fits (s : GcSt) (n : Nat) : Prop :=
  n ≤ s.tailCount ∨ s.tailStart + s.tailCount + edAlignSize n edAllocCount < 2 ^ 32

instance (s : GcSt) (n : Nat) : Decidable (Fits s n) := inferInstanceAs (Decidable (_ ∨ _))

/-- `n` pages left the front of the tail, which may have grown at its end. -/
structure Grown (s s' : GcSt) (n : Nat) : Prop where
  pages : ∀ p, p < s.tailStart → s'.pages p = s.pages p
  gcHead : s'.gcHead = s.gcHead
  gcTail : s'.gcTail = s.gcTail
  remains : s'.remains = s.remains
  start : s'.tailStart = s.tailStart + n
  count : s.tailStart + s.tailCount ≤ s'.tailStart + s'.tailCount
  bound : s'.tailStart + s'.tailCount < 2 ^ 32
  file : s'.tailStart + s'.tailCount ≤ s'.file

/-- The bounds of a tail. -/
structure TailOk (s : GcSt) : Prop where
  bound : s.tailStart + s.tailCount < 2 ^ 32
  file : s.tailStart + s.tailCount ≤ s.file

theorem Grown.of_ticked (h : Ticked s s') (ht : TailOk s) : Grown s s' 0 := by
  obtain ⟨k, rfl⟩ := h
  exact ⟨fun _ _ => rfl, rfl, rfl, rfl, rfl, Nat.le_refl _, ht.bound, ht.file⟩

theorem Grown.trans {s'' : GcSt} (h : Grown s s' 0) (h' : Grown s' s'' n) :
    Grown s s'' n where
  pages p hp := (h'.pages p (by rw [h.start]; omega)).trans (h.pages p hp)
  gcHead := h'.gcHead.trans h.gcHead
  gcTail := h'.gcTail.trans h.gcTail
  remains := h'.remains.trans h.remains
  start := by rw [h'.start, h.start, Nat.add_zero]
  count := h.count.trans h'.count
  bound := h'.bound
  file := h'.file

/-- The exits of a call that may grow the tail. -/
def grownExits (sys : Sys) (s : GcSt) : Exits EdErr GcFault GcSt :=
  ⟨fun _ s' => Refused sys ∧ Grown s s' 0, fun _ _ => False, False⟩

theorem growTail_spec (ht : TailOk s) (hfit : Fits s n) :
    wp (growTail sys n)
      (fun count s' => n ≤ count ∧ Grown s { s' with tailCount := count } 0 ∧
        s'.tailStart = s.tailStart)
      (grownExits sys s) s := by
  have hbound := ht.bound
  unfold growTail
  rw [wp_bind, wp_get, wp_ite]
  refine ⟨fun hle => ⟨hle, .of_ticked (Ticked.refl s) ht, rfl⟩, fun hlt => ?_⟩
  have hge := edAlignSize_ge n edAllocCount (by decide)
  have hsum : s.tailStart + s.tailCount + edAlignSize n edAllocCount < 2 ^ 32 := hfit.resolve_left hlt
  have hcount : (s.tailCount + edAlignSize n edAllocCount) % 2 ^ 32
      = s.tailCount + edAlignSize n edAllocCount := by omega
  have hsize : (s.tailStart + (s.tailCount + edAlignSize n edAllocCount)) % 2 ^ 32
      = s.tailStart + (s.tailCount + edAlignSize n edAllocCount) := by omega
  simp only [hcount, hsize, wp_bind, wp_modify, wp_pure']
  refine wp_mono (sysCall_spec fun k h => .inr ⟨k, h⟩) ?_ ?_ (fun _ _ h => h) id
  · rintro _ s1 ⟨k, rfl⟩
    refine ⟨by omega, ⟨fun p hp => ?_, rfl, rfl, rfl, rfl, ?_, ?_, Nat.le_refl _⟩, rfl⟩
    · show (if p < _ then _ else _) = _
      rw [if_pos (by omega)]
    · show _ ≤ s.tailStart + (s.tailCount + _)
      omega
    · show s.tailStart + (s.tailCount + _) < _
      omega
  · rintro _ s1 ⟨href, htick⟩
    exact ⟨href, .of_ticked htick ht⟩

theorem mapLivePages_spec {no : Nat} (hfile : no + n ≤ s.file) :
    wp (mapLivePages sys no n) (fun out s' => out = List.range' no n ∧ Ticked s s')
      (tickExits sys s) s := by
  unfold mapLivePages
  by_cases hn : n = 0
  · rw [if_pos hn, hn]
    exact ⟨rfl, Ticked.refl s⟩
  · rw [if_neg hn, wp_bind]
    refine wp_post (edPgMap_spec sys s) ?_
    rintro _ s1 ⟨k, rfl⟩
    rw [wp_bind, wp_gets, wp_ite]
    exact ⟨fun hlt => absurd hfile (Nat.not_le.mpr hlt), fun _ => ⟨rfl, k, rfl⟩⟩

theorem wp_setTail {start count : Nat} {Q : Unit → GcSt → Prop} {X : Exits EdErr GcFault GcSt} :
    wp (setTail start count) Q X s ↔ (s.file = 0 → X.stuck) ∧
      (s.file ≠ 0 → Q () { s with tailStart := start, tailCount := count }) := by
  rw [setTail, wp_bind, wp_gets, wp_ite]
  exact Iff.rfl

/-- `map_end_pages` takes pages from the front of the tail. -/
theorem mapEndPages_spec (ht : TailOk s) (hfit : Fits s n) :
    wp (mapEndPages sys n)
      (fun out s' => out = List.range' s.tailStart n ∧ Grown s s' n) (grownExits sys s) s := by
  unfold mapEndPages
  by_cases hn : n = 0
  · rw [if_pos hn, hn]
    exact ⟨rfl, .of_ticked (Ticked.refl s) ht⟩
  rw [if_neg hn, wp_bind, wp_gets, wp_bind]
  refine wp_post (growTail_spec ht hfit) ?_
  rintro count s1 ⟨hle, hg, hstart⟩
  have hb : s1.tailStart + count < 2 ^ 32 := hg.bound
  have hc : s.tailStart + s.tailCount ≤ s1.tailStart + count := hg.count
  have hfl : s1.tailStart + count ≤ s1.file := hg.file
  rw [hstart] at hb hc hfl
  rw [wp_bind, wp_attempt]
  refine wp_mono (mapLivePages_spec (by omega)) ?_ ?_ (fun _ _ h => h) id
  · rintro out s2 ⟨rfl, k, rfl⟩
    have hmod : (s.tailStart + n) % 2 ^ 32 = s.tailStart + n := by omega
    rw [wp_bind, hmod, wp_setTail]
    refine ⟨fun hcut => ?_, fun _ => ?_⟩
    · change s1.file = 0 at hcut
      omega
    refine ⟨rfl, hg.pages, hg.gcHead, hg.gcTail, hg.remains, rfl, ?_, ?_, ?_⟩
    · show _ ≤ s.tailStart + n + (count - n)
      omega
    · show s.tailStart + n + (count - n) < _
      omega
    · show s.tailStart + n + (count - n) ≤ s1.file
      omega
  · rintro e s2 ⟨href, k, rfl⟩
    show wp (setTail _ _ >>= fun _ => Prog.throw e) _ _ _
    rw [wp_bind, wp_setTail]
    refine ⟨fun hcut => ?_, fun _ => ?_⟩
    · change s1.file = 0 at hcut
      omega
    refine ⟨href, hg.pages, hg.gcHead, hg.gcTail, hg.remains, rfl, ?_, ?_, ?_⟩
    · show _ ≤ s.tailStart + count
      exact hc
    · show s.tailStart + count < _
      exact hb
    · show s.tailStart + count ≤ s1.file
      exact hfl

theorem mapEndPages_stuck (hfit : ¬ Fits s n) (ht : TailOk s) (hn : n ≤ 1024) :
    wp (mapEndPages sys n) (fun _ _ => False) ⟨fun _ _ => Refused sys, fun _ _ => False, True⟩
      s := by
  obtain ⟨hcount, hsum⟩ := not_or.mp hfit
  have hbound := ht.bound
  have hlen : edAlignSize n edAllocCount ≤ 1024 := by
    unfold edAlignSize edAllocCount
    omega
  have hc : (s.tailCount + edAlignSize n edAllocCount) % 2 ^ 32
      = s.tailCount + edAlignSize n edAllocCount := by omega
  unfold mapEndPages
  rw [if_neg (by omega), wp_bind, wp_gets, wp_bind, growTail, wp_bind, wp_get,
    if_neg hcount, wp_bind]
  refine wp_mono (sysCall_spec fun k h => .inr ⟨k, h⟩) ?_ (fun _ _ h => h.1) (fun _ _ h => h)
    False.elim
  rintro _ s1 ⟨k, rfl⟩
  rw [wp_bind, wp_modify, wp_pure', wp_bind, wp_attempt, mapLivePages,
    if_neg (by omega), wp_bind]
  refine wp_mono (edPgMap_spec sys _) ?_ (fun e s2 h => ?_) (fun _ _ h => h) False.elim
  rotate_left
  · show wp (setTail _ _ >>= fun _ => Prog.throw e) _ _ _
    rw [wp_bind, wp_setTail]
    exact ⟨fun _ => trivial, fun _ => h.1⟩
  rintro _ s2 ⟨k', rfl⟩
  -- The size of the file wrapped around, to fewer pages than the tail starts at.
  rw [wp_bind, wp_gets, if_pos]
  · trivial
  · show (s.tailStart + _) % 2 ^ 32 < s.tailStart + n
    rw [hc]
    omega

/-! ## The call -/

/-- What `ed_alloc` does: `out` are the pages it returns. -/
structure Allocated (xmin npg : Nat) (s : GcSt) (c : List GcNode) (out : List Nat) (s' : GcSt) :
    Prop where
  rep : Rep s' (reuse xmin npg c).rest
  out : out = (reuse xmin npg c).nodes ++
    ((reuse xmin npg c).taken.map Prod.snd).insertionSort (· ≤ ·) ++
    List.range' s.tailStart (npg - (reuse xmin npg c).count)
  start : s'.tailStart = s.tailStart + (npg - (reuse xmin npg c).count)
  tail : s.tailStart + s.tailCount ≤ s'.tailStart + s'.tailCount
  gcTail : s'.gcTail = s.gcTail
  remains : s'.remains = s.remains
  data : ∀ p, p < s.tailStart → (s'.pages p).data = (s.pages p).data
  tails : ∀ n ∈ (reuse xmin npg c).rest,
    SameEnd (s.pages n.no).data (s.pages n.no).state (s'.pages n.no).state ∨
      n.lists = [] ∧ (s'.pages n.no).state.tail = endOf (s.pages n.no).data (s.pages n.no).state

theorem Rep.tailOk (h : Rep s c) : TailOk s := ⟨h.tail, h.file⟩

theorem Rep.ne_nil (h : Rep s c) : c ≠ [] := by
  obtain ⟨t, -, hch⟩ := h.chained
  exact hch.ne_nil

theorem Rep.grown (h : Rep s c) (hg : Grown s s' 0) : Rep s' c := by
  obtain ⟨t, ht, hch⟩ := h.chained
  have hstart : s'.tailStart = s.tailStart := hg.start
  refine ⟨⟨t, hg.gcTail.trans ht, hch.congr fun n hn => hg.pages _ (h.below _ ?_)⟩,
    hg.gcHead.trans h.head, h.nodup, fun p hp => hstart ▸ h.below p hp, hg.bound, hg.file⟩
  exact mem_append_left _ (mem_map_of_mem hn)

theorem Rep.writeBack {gc : Nat} {used : List Nat} (h : Rep s c)
    (hperm : (chainPages c).Perm (used ++ chainPages (⟨gc, cur⟩ :: c'))) (ht : s.gcTail = some t)
    (hst : Staged (s.pages gc).data st cur) (hf : Follows s.pages t gc c') (hg : Grown s s' m) :
    Rep { s'.setPage gc (fun pgc => { pgc with state := st.closed }) with gcHead := some gc }
      (⟨gc, cur⟩ :: c') := by
  have hnodup : (chainPages (⟨gc, cur⟩ :: c')).Nodup :=
    (hperm.nodup_iff.mp h.nodup).of_append_right
  have hbelow : ∀ p ∈ chainPages (⟨gc, cur⟩ :: c'), p < s.tailStart :=
    fun p hp => h.below p (hperm.mem_iff.mpr (mem_append_right _ hp))
  have hnodes : (gc :: c'.map GcNode.no).Nodup := hnodup.of_append_left
  have hgc : s'.pages gc = s.pages gc := hg.pages gc (hbelow gc mem_cons_self)
  refine ⟨⟨t, hg.gcTail.trans ht, chained_cons_iff.mpr ⟨?_, hf.congr ?_ fun q hq => ?_⟩⟩, rfl, hnodup,
    fun p hp => ?_, hg.bound, hg.file⟩
  · show Holds (if gc = gc then _ else _) cur
    rw [if_pos rfl, hgc]
    exact hst.holds
  · show EdPgGc.next (if gc = gc then _ else _) = _
    rw [if_pos rfl, hgc]
  · -- The other GC pages are not written.
    have hmem : q.no ∈ c'.map GcNode.no := mem_map_of_mem hq
    have hne : q.no ≠ gc := fun heq => (nodup_cons.mp hnodes).1 (heq ▸ hmem)
    show (if q.no = gc then _ else s'.pages q.no) = _
    rw [if_neg hne]
    exact hg.pages _ (hbelow _ (mem_append_left _ (mem_cons_of_mem _ hmem)))
  · show p < s'.tailStart
    rw [hg.start]
    exact (hbelow p hp).trans_le (Nat.le_add_right _ _)

theorem wp_edAlloc {Q : List Nat → GcSt → Prop} {X : Exits EdErr GcFault GcSt} (h : Rep s c)
    (ht : s.gcTail = some t) (hn : npg ≤ 1024) (h0 : npg ≠ 0)
    (herr : ∀ e s', Refused sys → Ticked s s' → X.err e s')
    (hend : ∀ a s1 gc, Ticked s s1 →
      Collected s.pages t (reuse xmin npg c) ⟨gc, (s.pages gc).state, [], []⟩ a →
      wp (finishAlloc sys npg a) Q X s1) :
    wp (edAlloc sys xmin npg) Q X s := by
  obtain ⟨t', ht', hch⟩ := h.chained
  obtain rfl : t' = t := Option.some.inj (ht'.symm.trans ht)
  obtain ⟨n0, c0, rfl⟩ := exists_cons_of_ne_nil h.ne_nil
  obtain ⟨hholds, hfol⟩ := chained_cons_iff.mp hch
  have hhead : s.gcHead = some n0.no := h.head
  unfold edAlloc
  rw [if_neg h0, if_neg (Nat.not_lt.mpr hn), wp_bind, wp_get, wp_bind]
  refine wp_mono (edPgLoad_spec sys s.gcHead s) ?_ (fun e s' h' => herr e s' h'.1 h'.2)
    (fun _ _ => False.elim) False.elim
  rintro _ s1 ⟨k, hs1⟩
  rw [hhead]
  show wp (_ >>= _) _ _ _
  rw [wp_bind]
  subst hs1
  have hfuel : turnsLeft npg ⟨n0.no, (s.pages n0.no).state, [], []⟩ < allocFuel npg := by
    have h16 := hholds.staged.nlists_lt
    simp only [turnsLeft, allocFuel, length_nil]
    omega
  have hloop : wp (allocLoop sys xmin npg (allocFuel npg) ⟨n0.no, (s.pages n0.no).state, [], []⟩)
      _ _ { s with tick := k } := allocLoop_spec hholds.staged ⟨rfl, rfl⟩ hfol ht hfuel
  refine wp_mono hloop (fun a s2 h2 => hend a s2 n0.no (Ticked.trans ⟨k, rfl⟩ h2.1) h2.2)
    (fun e s' h' => herr e s' h'.1 (Ticked.trans ⟨k, rfl⟩ h'.2)) (fun _ _ => False.elim) False.elim

theorem Collected.count {r : Reuse} {gc : Nat} (h : Collected pages t r ⟨gc, st, [], []⟩ a) :
    a.count = r.count := by
  rw [Stage.count, Reuse.count, h.pgno, h.recycled, nil_append, nil_append, length_map]

/-- `ed_alloc` takes what `reuse` says and the rest from the tail. -/
theorem edAlloc_spec (h : Rep s c) (hn : npg ≤ 1024) (hfit : Fits s (npg - (reuse xmin npg c).count)) :
    wp (edAlloc sys xmin npg) (fun out s' => Allocated xmin npg s c out s') (grownExits sys s)
      s := by
  obtain ⟨t, ht, hch⟩ := h.chained
  by_cases h0 : npg = 0
  · obtain ⟨n0, c0, rfl⟩ := exists_cons_of_ne_nil h.ne_nil
    have hzero : reuse xmin npg (n0 :: c0) = ⟨[], [], n0 :: c0⟩ := by
      rw [h0]
      exact reuse_zero (chained_cons_iff.mp hch).1.staged.pages
    rw [edAlloc, if_pos h0]
    refine ⟨?_, ?_, ?_, Nat.le_refl _, rfl, rfl, fun _ _ => rfl, fun _ _ => .inl ⟨rfl, rfl⟩⟩
    · rw [hzero]
      exact h
    · rw [hzero, h0]
      rfl
    · rw [h0, Nat.zero_sub, Nat.add_zero]
  refine wp_edAlloc h ht hn h0 (fun _ _ href htick => ⟨href, .of_ticked htick h.tailOk⟩) ?_
  intro a s1 gc htick hcol
  obtain ⟨cur, c', hrest, hst, hf⟩ := hcol.rest
  rw [finishAlloc, wp_bind]
  refine wp_mono (mapSortedPages_spec sys _ s1) ?_
    (fun _ _ h' => ⟨h'.1, .of_ticked (htick.trans h'.2) h.tailOk⟩) (fun _ _ h => h) id
  rintro _ s2 htick2
  obtain ⟨k, rfl⟩ : Ticked s s2 := htick.trans htick2
  have hg0 : Grown s { s with tick := k } 0 := .of_ticked ⟨k, rfl⟩ h.tailOk
  rw [wp_bind, hcol.count]
  refine wp_mono (mapEndPages_spec (s := { s with tick := k }) ⟨h.tail, h.file⟩ hfit) ?_
    (fun _ _ h' => ⟨h'.1, hg0.trans h'.2⟩) (fun _ _ h => h) id
  rintro fresh s3 ⟨rfl, hg⟩
  have hg' := hg0.trans hg
  rw [wp_bind, wp_modify, wp_pure']
  have hperm := (reuse_ok xmin npg h.ne_nil).perm
  rw [hrest] at hperm
  have hrep := h.writeBack hperm ht hst hf hg'
  refine ⟨?_, ?_, hg'.start, hg'.count, hg'.gcTail, hg'.remains, fun p hp => ?_, fun n hn => ?_⟩
  · rw [hrest]
    exact hrep
  · rw [hcol.recycled, hcol.pgno]
    rfl
  · show EdPgGc.data (if p = a.gc then _ else _) = _
    rw [hg'.pages p hp]
    split <;> rfl
  · rw [hrest] at hn
    have hlt : n.no < s.tailStart := by
      refine h.below _ (hperm.mem_iff.mpr (mem_append_right _ ?_))
      exact mem_append_left _ (mem_map_of_mem hn)
    show SameEnd _ _ (EdPgGc.state (if n.no = a.gc then _ else _)) ∨
      _ ∧ EdPgGcState.tail (EdPgGc.state (if n.no = a.gc then _ else _)) = _
    rw [hg'.pages _ hlt]
    by_cases heq : n.no = a.gc
    · -- The GC page that is written: it is the first one.
      have hcur : n.lists = cur := by
        rcases mem_cons.mp hn with rfl | hmem
        · rfl
        · have hnodes : (a.gc :: c'.map GcNode.no).Nodup := hrep.nodup.of_append_left
          exact absurd (heq ▸ mem_map_of_mem hmem) (nodup_cons.mp hnodes).1
      rw [if_pos heq, heq, hcur]
      exact hcol.sameEnd.closed hst
    · rw [if_neg heq]
      exact .inl ⟨rfl, rfl⟩

theorem edAlloc_stuck (h : Rep s c) (hn : npg ≤ 1024)
    (hfit : ¬ Fits s (npg - (reuse xmin npg c).count)) :
    wp (edAlloc sys xmin npg) (fun _ _ => False)
      ⟨fun _ _ => Refused sys, fun _ _ => False, True⟩ s := by
  obtain ⟨t, ht, -⟩ := h.chained
  have h0 : npg ≠ 0 := by
    rintro rfl
    exact hfit (.inl (by omega))
  refine wp_edAlloc h ht hn h0 (fun _ _ href _ => href) ?_
  intro a s1 gc htick hcol
  rw [finishAlloc, wp_bind]
  refine wp_mono (mapSortedPages_spec sys _ s1) ?_ (fun _ _ h => h.1) (fun _ _ h => h) False.elim
  rintro _ s2 htick2
  obtain ⟨k, rfl⟩ : Ticked s s2 := htick.trans htick2
  rw [wp_bind, hcol.count]
  exact wp_post (mapEndPages_stuck hfit ⟨h.tail, h.file⟩ (by omega)) fun _ _ => False.elim

/-! ## The contract -/

/-- What a call that returns `out` promises: recycled GC pages that are used up, then pages from the
front of the chain that no transaction sees, in the order of their numbers, then the first `m` pages
of the tail. The chain `c'` and the tail hold the pages that are left. -/
structure Handed (xmin npg : Nat) (s : GcSt) (c : List GcNode) (out : List Nat) (s' : GcSt)
    (recycled : List Nat) (taken : List (Nat × Nat)) (m : Nat) (c' : List GcNode) : Prop where
  length : out.length = npg
  nodup : out.Nodup
  out : ∃ sorted, sorted.Perm (taken.map Prod.snd) ∧ sorted.Pairwise (· ≤ ·) ∧
    out = recycled ++ sorted ++ List.range' s.tailStart m
  nodes : c.map GcNode.no = recycled ++ c'.map GcNode.no
  used : entries (c.take recycled.length) <+: taken
  entries : entries c = taken ++ Gc.entries c'
  unseen : ∀ e ∈ taken, e.1 = 0 ∨ e.1 < xmin
  rep : Rep s' c'
  gcTail : s'.gcTail = s.gcTail
  start : s'.tailStart = s.tailStart + m
  tail : s.tailStart + s.tailCount ≤ s'.tailStart + s'.tailCount

theorem Handed.perm {c' : List GcNode} {out recycled : List Nat} {taken : List (Nat × Nat)}
    (h : Handed xmin npg s c out s' recycled taken m c') :
    (chainPages c' ++ out).Perm (chainPages c ++ List.range' s.tailStart m) := by
  obtain ⟨sorted, hsorted, -, hout⟩ := h.out
  rw [perm_iff_count]
  intro y
  have hsort := hsorted.count_eq y
  simp only [chainPages, h.nodes, h.entries, hout, map_append, count_append] at hsort ⊢
  omega

theorem Allocated.handed {out : List Nat} (h : Allocated xmin npg s c out s') (hrep : Rep s c) :
    ∃ recycled taken m, Handed xmin npg s c out s' recycled taken m (reuse xmin npg c).rest := by
  have hr := reuse_ok xmin npg hrep.ne_nil
  obtain ⟨r, hreq⟩ : ∃ r, r = reuse xmin npg c := ⟨_, rfl⟩
  have hout := h.out
  have hstart := h.start
  have hrep' := h.rep
  rw [← hreq] at hr hout hstart hrep' ⊢
  have hsort : ((r.taken.map Prod.snd).insertionSort (· ≤ ·)).Perm (r.taken.map Prod.snd) :=
    perm_insertionSort _ _
  have hperm := (hsort.symm.append_left r.nodes).append_right (chainPages r.rest)
  refine ⟨r.nodes, r.taken, npg - r.count, ?_, ?_, ⟨_, hsort, ?_, hout⟩, hr.nodes, hr.used,
    hr.entries, hr.unseen, hrep', h.gcTail, hstart, h.tail⟩
  · have hcount := hr.count
    rw [hout, length_append, length_append, length_insertionSort, length_map,
      length_range']
    unfold Reuse.count at hcount ⊢
    omega
  · -- The pages of the chain are distinct, and none of them is in the tail.
    have hchain := hr.perm.trans hperm
    rw [hout]
    refine nodup_append.mpr ⟨(hchain.nodup_iff.mp hrep.nodup).of_append_left,
      nodup_range', fun p hp q hq heq => ?_⟩
    have hlt := hrep.below p (hchain.mem_iff.mpr (mem_append_left _ hp))
    have hge := (mem_range'_1.mp hq).1
    omega
  · exact pairwise_insertionSort _ _

/-- `ed_alloc` keeps its contract, whichever system calls fail, exactly when the tail pages that are
needed fit in the file. A call that fails leaves the chain as it was. -/
theorem edAlloc_contract_iff (xmin npg : Nat) (s : GcSt) (c : List GcNode) (h : Rep s c)
    (hn : npg ≤ 1024) :
    (∀ sys, wp (edAlloc sys xmin npg)
      (fun out s' => ∃ recycled taken m c', Handed xmin npg s c out s' recycled taken m c')
      ⟨fun _ s' => Grown s s' 0 ∧ Rep s' c, fun _ _ => False, False⟩ s) ↔
    Fits s (npg - (reuse xmin npg c).count) := by
  constructor
  · intro hall
    by_contra hfit
    -- When no system call fails the call ends at the write behind the end of the file.
    obtain ⟨_, _, _, _, hf⟩ := ok_of_wp
      (wp_and (hall Sys.granted) (edAlloc_stuck h hn hfit))
      (fun _ _ h => not_refused_granted h.2) (fun _ _ h => h.1) (fun h => h.1)
    exact hf
  · intro hfit sys
    refine wp_mono (edAlloc_spec h hn hfit) (fun _ _ ha => ?_)
      (fun _ _ hg => ⟨hg.2, h.grown hg.2⟩) (fun _ _ h => h) id
    obtain ⟨recycled, taken, m, hh⟩ := ha.handed h
    exact ⟨recycled, taken, m, _, hh⟩

/-- A GC page with one page that a transaction freed. -/
def freedPage (xid p : Nat) (next : Option Nat) : EdPgGc :=
  ⟨⟨0, 0, 1, 0⟩, next, overlay (fun _ => 0) 0 [xid % 2 ^ 32, xid / 2 ^ 32, 1, p]⟩

theorem holds_freedPage (xid p : Nat) (next : Option Nat) :
    Holds (freedPage xid p next) [⟨xid, [p]⟩] where
  staged := by
    have hhead : (freedPage xid p next).state.head / 4 = 0 := Nat.zero_div 4
    refine ⟨⟨[⟨xid, [p]⟩], ⟨rfl, ?_, ?_, rfl, fun _ => ?_⟩, rfl⟩, ?_, nofun⟩
    · rw [hhead]
      exact laid_cons_iff.mpr ⟨⟨rfl, rfl, rfl, rfl⟩, trivial⟩
    · rw [hhead]
      exact (by decide : past GcList.stride 0 [⟨0, [0]⟩] ≤ edGcData / 4)
    · rw [hhead]
      rfl
    · intro l hl
      rw [mem_singleton.mp hl]
      exact cons_ne_nil _ _
  empty := nofun

/-- An index whose file has nearly as many pages as can be numbered. -/
def hugeSt : GcSt where
  pages _ := freedPage 9 5 none
  gcHead := some 1
  gcTail := some 1
  tailStart := 2 ^ 32 - 15
  tailCount := 0
  file := 2 ^ 32 - 15
  tick := 0
  remains := []

/-- An index with two GC pages; the page 6 of the first one may be used again before transaction 5. -/
def chainSt : GcSt :=
  { hugeSt with
    pages := fun p => if p = 1 then freedPage 3 6 (some 2) else freedPage 9 5 none
    gcTail := some 2
    tailStart := 16
    tailCount := 4
    file := 20 }

theorem rep_chainSt : Rep chainSt [⟨1, [⟨3, [6]⟩]⟩, ⟨2, [⟨9, [5]⟩]⟩] where
  chained := ⟨2, rfl, by decide, holds_freedPage 3 6 (some 2), rfl, rfl, holds_freedPage 9 5 none⟩
  head := rfl
  nodup := by decide
  below := by decide
  tail := by decide
  file := by decide

/-- Three pages: the first GC page, which is used up, the page of its list, and one of the tail. -/
theorem edAlloc_contract_recycles : Rep chainSt [⟨1, [⟨3, [6]⟩]⟩, ⟨2, [⟨9, [5]⟩]⟩] ∧
    (∀ sys, wp (edAlloc sys 5 3)
      (fun out s' => ∃ recycled taken m c',
        Handed 5 3 chainSt [⟨1, [⟨3, [6]⟩]⟩, ⟨2, [⟨9, [5]⟩]⟩] out s' recycled taken m c')
      ⟨fun _ s' => Grown chainSt s' 0 ∧ Rep s' [⟨1, [⟨3, [6]⟩]⟩, ⟨2, [⟨9, [5]⟩]⟩],
        fun _ _ => False, False⟩ chainSt) ∧
    ∃ s', edAlloc Sys.granted 5 3 chainSt = .ok [1, 6, 16] s' := by
  refine ⟨rep_chainSt, (edAlloc_contract_iff 5 3 chainSt _ rep_chainSt (by decide)).mpr
    (.inl (by decide)), ?_⟩
  obtain ⟨out, hrun, hout⟩ := ok_of_returns (show Prog.returns
    (edAlloc Sys.granted 5 3) (· == [1, 6, 16]) chainSt = true by decide +kernel)
  exact ⟨_, eq_of_beq hout ▸ hrun⟩

theorem rep_hugeSt : Rep hugeSt [⟨1, [⟨9, [5]⟩]⟩] where
  chained := ⟨1, rfl, rfl, holds_freedPage 9 5 none⟩
  head := rfl
  nodup := by decide
  below := by
    intro p hp
    have hmem : p = 1 ∨ p = 5 := by simpa [chainPages, entries, freeIn] using hp
    show p < 2 ^ 32 - 15
    omega
  tail := by decide
  file := Nat.le_refl _

/-- One more page would need a file of more than 2^32 pages: `ftruncate` gets the size of one page. When
the mapping that follows is refused, the call returns an error and the GC page has lost its list. -/
theorem edAlloc_truncates : Rep hugeSt [⟨1, [⟨9, [5]⟩]⟩] ∧
    ∃ e s', edAlloc ⟨fun n => n ≠ 2, fun _ => true⟩ 5 1 hugeSt = .err e s' ∧
      s'.file = 1 ∧ (s'.pages 1).state ≠ (hugeSt.pages 1).state := by
  refine ⟨rep_hugeSt, ?_⟩
  obtain ⟨e, s', hrun, htest⟩ := err_of_fails
    (show Prog.fails (edAlloc ⟨fun n => n ≠ 2, fun _ => true⟩ 5 1)
      (fun _ s' => s'.file == 1 && (s'.pages 1).state.nlists == 0) hugeSt = true by decide +kernel)
  rw [Bool.and_eq_true, beq_iff_eq, beq_iff_eq] at htest
  refine ⟨e, s', hrun, htest.1, fun heq => ?_⟩
  have hlists := htest.2
  rw [heq] at hlists
  exact absurd hlists (by decide)

end Eddy.Gc
