import Eddy.Gc.Room

/-!
# Eddy — adding free pages to the chain

The loop of `ed_free_pgno` adds pages to the last GC page as long as there is room, and then goes on
with a new GC page that it links behind it.
-/

namespace Eddy.Gc

open Outcome Packed List

variable {s s' : GcSt} {pgc : EdPgGc} {ls ls' : List GcList} {c0 : List GcNode} {p q xid t : Nat}
  {pg extra new : List Nat} {old : List RemainCall} {pages : Nat → EdPgGc} {n : GcNode}

/-! ## The last GC page -/

theorem Chained.last_no (h : Chained pages t (c0 ++ [n])) : n.no = t := by
  induction c0 with
  | nil => exact h.1
  | cons m c0 ih =>
    cases c0 with
    | nil => exact h.2.2.2.1
    | cons m' c0 => exact ih h.2.2.2

theorem Chained.setLast {pages' : Nat → EdPgGc} (h : Chained pages t (c0 ++ [n]))
    (heq : ∀ m ∈ c0, pages' m.no = pages m.no) (hholds : Holds (pages' n.no) ls') :
    Chained pages' t (c0 ++ [⟨n.no, ls'⟩]) := by
  induction c0 with
  | nil => exact ⟨h.1, hholds⟩
  | cons m c0 ih =>
    have hm := heq m mem_cons_self
    have hrest := fun m' hm' => heq m' (mem_cons_of_mem m hm')
    cases c0 with
    | nil =>
      obtain ⟨h1, h2, h3, h4⟩ := h
      exact ⟨h1, hm ▸ h2, hm ▸ h3, ih h4 hrest⟩
    | cons m' c0 =>
      obtain ⟨h1, h2, h3, h4⟩ := h
      exact ⟨h1, hm ▸ h2, hm ▸ h3, ih h4 hrest⟩

theorem Chained.link {pages' : Nat → EdPgGc} (h : Chained pages t (c0 ++ [n]))
    (heq : ∀ m ∈ c0, pages' m.no = pages m.no) (hn : Holds (pages' n.no) n.lists)
    (hnext : (pages' n.no).next = some q) (hq : Holds (pages' q) ls')
    (hnot : ∀ m ∈ c0 ++ [n], m.no ≠ q) : Chained pages' q (c0 ++ [n] ++ [⟨q, ls'⟩]) := by
  induction c0 with
  | nil => exact ⟨hnot n (mem_singleton_self n), hn, hnext, rfl, hq⟩
  | cons m c0 ih =>
    have hm := heq m mem_cons_self
    have hrest := fun m' hm' => heq m' (mem_cons_of_mem m hm')
    have hnot' : ∀ m' ∈ c0 ++ [n], m'.no ≠ q := fun m' hm' => hnot m' (mem_cons_of_mem m hm')
    cases c0 with
    | nil =>
      obtain ⟨-, h2, h3, h4⟩ := h
      exact ⟨hnot m mem_cons_self, hm ▸ h2, hm ▸ h3, ih h4 hrest hnot'⟩
    | cons m' c0 =>
      obtain ⟨-, h2, h3, h4⟩ := h
      exact ⟨hnot m mem_cons_self, hm ▸ h2, hm ▸ h3, ih h4 hrest hnot'⟩

/-- Every call of `gc_list_remain` that is not in `old` was fine. -/
def Logged (old : List RemainCall) (s : GcSt) : Prop := ∀ x ∈ s.remains, x ∈ old ∨ x.Fine

/-- A state in which pages can be added behind the last GC page `p`. The pages `extra` are not in the
chain. -/
structure Ready (old : List RemainCall) (s : GcSt) (c0 : List GcNode) (p : Nat) (ls : List GcList)
    (extra : List Nat) : Prop where
  rep : Rep s (c0 ++ [⟨p, ls⟩])
  isOpen : Open (s.pages p) ls
  nodup : (chainPages (c0 ++ [⟨p, ls⟩]) ++ extra).Nodup
  below : ∀ x ∈ extra, x < s.tailStart
  log : Logged old s

/-- One page was written, and calls of `gc_list_remain` were made. -/
structure Put (s s' : GcSt) (p : Nat) (pgc : EdPgGc) : Prop where
  page : s'.pages p = pgc
  other : ∀ q, q ≠ p → s'.pages q = s.pages q
  gcHead : s'.gcHead = s.gcHead
  gcTail : s'.gcTail = s.gcTail
  tailStart : s'.tailStart = s.tailStart
  tailCount : s'.tailCount = s.tailCount
  file : s'.file = s.file
  log : ∀ x ∈ s'.remains, x ∈ s.remains ∨ x.Fine

theorem Ready.gcTail (h : Ready old s c0 p ls extra) : s.gcTail = some p := by
  obtain ⟨t, ht, hch⟩ := h.rep.chained
  rw [ht, ← hch.last_no]

theorem chainPages_concat (c : List GcNode) (n : GcNode) :
    (chainPages (c ++ [n])).Perm (chainPages c ++ n.no :: (freeIn n.lists).map Prod.snd) := by
  rw [perm_iff_count]
  intro x
  simp only [chainPages, map_append, map_cons, map_nil, entries_append, entries_cons,
    entries_nil, append_nil, count_append, count_cons, count_nil]
  omega

theorem Ready.note {x : RemainCall} (h : Ready old s c0 p ls extra) (hx : x.Fine) :
    Ready old (s.note x) c0 p ls extra where
  rep := ⟨h.rep.chained, h.rep.head, h.rep.nodup, h.rep.below, h.rep.tail, h.rep.file⟩
  isOpen := h.isOpen
  nodup := h.nodup
  below := h.below
  log y hy := by
    rcases mem_cons.mp hy with rfl | hy
    · exact .inr hx
    · exact h.log y hy

theorem Ready.put {extra' : List Nat} (h : Ready old s c0 p ls extra) (hput : Put s s' p pgc)
    (hopen : Open pgc ls') (hperm : (chainPages (c0 ++ [⟨p, ls'⟩]) ++ extra').Perm
      (chainPages (c0 ++ [⟨p, ls⟩]) ++ extra)) : Ready old s' c0 p ls' extra' := by
  obtain ⟨t, ht, hch⟩ := h.rep.chained
  have hnodup := hperm.symm.nodup_iff.mp h.nodup
  have hbelow : ∀ y ∈ chainPages (c0 ++ [GcNode.mk p ls']) ++ extra', y < s.tailStart := by
    intro y hy
    rcases mem_append.mp (hperm.mem_iff.mp hy) with hy | hy
    · exact h.rep.below y hy
    · exact h.below y hy
  have hnodes : ((c0 ++ [GcNode.mk p ls]).map GcNode.no).Nodup := h.rep.nodup.of_append_left
  have hother : ∀ m ∈ c0, s'.pages m.no = s.pages m.no := by
    intro m hm
    refine hput.other _ fun heq => ?_
    rw [map_append, nodup_append] at hnodes
    exact hnodes.2.2 _ (mem_map_of_mem hm) p (mem_singleton_self p) heq
  refine ⟨⟨⟨t, hput.gcTail.trans ht, hch.setLast hother (hput.page ▸ hopen.holds)⟩, ?_,
    hnodup.of_append_left, fun y hy => ?_, ?_, ?_⟩, hput.page ▸ hopen, hnodup, fun y hy => ?_,
    fun y hy => ?_⟩
  · rw [hput.gcHead, h.rep.head]
    cases c0 <;> rfl
  · rw [hput.tailStart]
    exact hbelow y (mem_append_left _ hy)
  · rw [hput.tailStart, hput.tailCount]
    exact h.rep.tail
  · rw [hput.tailStart, hput.tailCount, hput.file]
    exact h.rep.file
  · rw [hput.tailStart]
    exact hbelow y (mem_append_right _ hy)
  · rcases hput.log y hy with hy | hy
    · exact h.log y hy
    · exact .inr hy

theorem Ready.fill {added rest : List Nat} {x : Nat}
    (h : Ready old s c0 p ls (new ++ (added ++ rest))) (hput : Put s s' p pgc)
    (hholds : Holds pgc ls') (hne : ls' ≠ []) (hfree : freeIn ls' = freeIn ls ++ added.map (x, ·)) :
    Ready old s' c0 p ls' (new ++ rest) := by
  refine h.put hput ⟨hholds, fun hnil => absurd hnil hne⟩ ?_
  rw [perm_iff_count]
  intro y
  have h1 := (chainPages_concat c0 ⟨p, ls'⟩).count_eq y
  have h2 := (chainPages_concat c0 ⟨p, ls⟩).count_eq y
  simp only [hfree, map_append, map_map, Function.comp_def, map_id',
    count_append, count_cons] at h1 h2 ⊢
  omega

/-! ## A new GC page -/

/-- The state when the GC page `q` is linked behind `p`, before its first list is started. -/
def GcSt.linked (s : GcSt) (p q : Nat) : GcSt :=
  { (s.setPage p fun pgc => { pgc with next := some q }).setPage q fun _ => EdPgGc.zero with
    gcHead := if s.gcHead = none then some q else s.gcHead
    gcTail := some q }

theorem open_zero : Open EdPgGc.zero [] := ⟨holds_zero, fun _ => ⟨by decide, rfl, rfl, rfl⟩⟩

theorem zero_extends (xid : Nat) : Extends EdPgGc.zero (withList EdPgGc.zero xid) [] xid edGcListMax []
    ⟨xid, []⟩ :=
  withList_extends holds_zero holds_zero.nil rfl xid (by decide)

theorem linkGc_eq (s : GcSt) (p q xid : Nat) :
    linkGc (some p) q xid s = .ok (some (withList EdPgGc.zero xid).state.tail)
      (((s.linked p q).note ⟨EdPgGc.zero, EdPgGc.zero.state.tail⟩).setPage q fun _ =>
        withList EdPgGc.zero xid) := by
  refine wp_of_eq ?_
  unfold linkGc gcListInit
  simp only [wp_bind, wp_modify]
  have hpage : ((s.setPage p fun pgc => { pgc with next := some q }).setPage q fun _ =>
      EdPgGc.zero).pages q = EdPgGc.zero := if_pos rfl
  have hmerge : ¬ (0 < EdPgGc.zero.state.nlists ∧ xid ≤ EdPgGc.zero.xid EdPgGc.zero.state.tail) :=
    fun h => absurd h.1 (by decide)
  have hrun := gcListNext_run hpage open_zero.fine xid
  rw [if_neg hmerge, if_neg (by decide), if_neg (by decide)] at hrun
  rw [wp_eq_ok hrun]
  exact ⟨rfl, rfl⟩

theorem Ready.link (h : Ready old s c0 p ls (q :: extra)) :
    Ready old (s.linked p q) (c0 ++ [⟨p, ls⟩]) q [] extra := by
  obtain ⟨t, ht, hch⟩ := h.rep.chained
  have hperm : (chainPages (c0 ++ [GcNode.mk p ls] ++ [GcNode.mk q []]) ++ extra).Perm
      (chainPages (c0 ++ [GcNode.mk p ls]) ++ q :: extra) := by
    rw [perm_iff_count]
    intro y
    have h1 := (chainPages_concat (c0 ++ [⟨p, ls⟩]) ⟨q, []⟩).count_eq y
    simp only [freeIn_nil, map_nil, count_append, count_cons, count_nil] at h1 ⊢
    omega
  have hnodup := hperm.symm.nodup_iff.mp h.nodup
  have hqbelow : q < s.tailStart := h.below q mem_cons_self
  have hnot : ∀ m ∈ c0 ++ [GcNode.mk p ls], m.no ≠ q := by
    intro m hm heq
    have hmem : m.no ∈ chainPages (c0 ++ [GcNode.mk p ls]) :=
      mem_append_left _ (mem_map_of_mem hm)
    exact (nodup_append.mp h.nodup).2.2 _ hmem q mem_cons_self heq
  have hpq : p ≠ q := hnot ⟨p, ls⟩ (by simp)
  -- The pages that are read: `p` with its new successor, `q` empty, the others as before.
  have hp : (s.linked p q).pages p = { s.pages p with next := some q } := by
    show (if p = q then _ else if p = p then _ else _) = _
    rw [if_neg hpq, if_pos rfl]
  have hq : (s.linked p q).pages q = EdPgGc.zero := if_pos rfl
  have hnodes : ((c0 ++ [GcNode.mk p ls]).map GcNode.no).Nodup := h.rep.nodup.of_append_left
  have hother : ∀ m ∈ c0, (s.linked p q).pages m.no = s.pages m.no := by
    intro m hm
    have hne : m.no ≠ p := fun heq => by
      rw [map_append, nodup_append] at hnodes
      exact hnodes.2.2 _ (mem_map_of_mem hm) p (mem_singleton_self p) heq
    show (if m.no = q then _ else if m.no = p then _ else _) = _
    rw [if_neg (hnot m (mem_append_left _ hm)), if_neg hne]
  have hholds : Holds ((s.linked p q).pages p) ls := by
    rw [hp]
    exact ⟨h.isOpen.holds.staged, h.isOpen.holds.empty⟩
  have hqholds : Holds ((s.linked p q).pages q) [] := by
    rw [hq]
    exact holds_zero
  have hnext : ((s.linked p q).pages p).next = some q := by rw [hp]
  refine ⟨⟨⟨q, rfl, hch.link hother hholds hnext hqholds hnot⟩, ?_, hnodup.of_append_left,
    fun y hy => ?_, h.rep.tail, h.rep.file⟩, hq ▸ open_zero, hnodup,
    fun y hy => h.below y (mem_cons_of_mem q hy), h.log⟩
  · have hsome : s.gcHead ≠ none := by
      rw [h.rep.head]
      cases c0 <;> simp
    show (if s.gcHead = none then _ else _) = _
    rw [if_neg hsome, h.rep.head]
    cases c0 <;> rfl
  · rcases mem_append.mp (hperm.mem_iff.mp (mem_append_left _ hy)) with hy | hy
    · exact h.rep.below y hy
    · exact h.below y hy

/-! ## The loop -/

/-- GC pages `used` were linked to the chain and the pages `pg` were added to its lists, by
transactions not older than `xid`. -/
structure Inserted (s s' : GcSt) (c c' : List GcNode) (used : List Nat) (xid : Nat) (pg : List Nat) :
    Prop where
  nodes : c'.map GcNode.no = c.map GcNode.no ++ used
  entries : ∃ added, entries c' = entries c ++ added ∧ added.map Prod.snd = pg ∧
    ∀ e ∈ added, xid ≤ e.1
  gcHead : s'.gcHead = s.gcHead
  tailStart : s'.tailStart = s.tailStart
  tailCount : s'.tailCount = s.tailCount

theorem Inserted.trans {s1 : GcSt} {c c1 c' : List GcNode} {used used' pg' : List Nat}
    (h : Inserted s s1 c c1 used xid pg) (h' : Inserted s1 s' c1 c' used' xid pg') :
    Inserted s s' c c' (used ++ used') xid (pg ++ pg') where
  nodes := by rw [h'.nodes, h.nodes, append_assoc]
  entries := by
    obtain ⟨a, h1, h2, h3⟩ := h.entries
    obtain ⟨a', h1', h2', h3'⟩ := h'.entries
    refine ⟨a ++ a', by rw [h1', h1, append_assoc], by rw [map_append, h2, h2'], ?_⟩
    intro e he
    rcases mem_append.mp he with he | he
    · exact h3 e he
    · exact h3' e he
  gcHead := h'.gcHead.trans h.gcHead
  tailStart := h'.tailStart.trans h.tailStart
  tailCount := h'.tailCount.trans h.tailCount

theorem Ready.inserted_link (h : Ready old s c0 p ls (q :: extra)) :
    Inserted s (s.linked p q) (c0 ++ [⟨p, ls⟩]) (c0 ++ [⟨p, ls⟩] ++ [⟨q, []⟩]) [q] xid [] where
  nodes := by
    rw [map_append]
    rfl
  entries := ⟨[], by simp, rfl, nofun⟩
  gcHead := by
    have hsome : s.gcHead ≠ none := by
      rw [h.rep.head]
      cases c0 <;> simp
    show (if s.gcHead = none then _ else _) = _
    rw [if_neg hsome]
  tailStart := rfl
  tailCount := rfl

/-- As many pages as there is room for are added to the list that `gc_list_next` returned. -/
theorem Ready.fillList {raw : List GcList} {pgc' : EdPgGc} {l : GcList} {room : Nat}
    {x : RemainCall} (h : Ready old s c0 p ls (new ++ pg)) (hx : x.Fine)
    (hext : Extends (s.pages p) pgc' ls xid room raw l) (hroom : 0 < room) (hpg : pg ≠ []) :
    ∃ s' ls', Gc.fillList p pgc'.state.tail pg ((s.note x).setPage p fun _ => pgc') =
        .ok (pg.drop room) s' ∧
      Ready old s' c0 p ls' (new ++ pg.drop room) ∧
      Inserted s s' (c0 ++ [⟨p, ls⟩]) (c0 ++ [⟨p, ls'⟩]) [] xid (pg.take room) ∧
      (pg.drop room ≠ [] → roomFor (s'.pages p) xid = 0) := by
  have hpage : ((s.note x).setPage p fun _ => pgc').pages p = pgc' := if_pos rfl
  have htake : pg.take room ≠ [] := by
    cases pg with
    | nil => exact absurd rfl hpg
    | cons a pg =>
      obtain ⟨k, rfl⟩ := Nat.exists_eq_succ_of_ne_zero (Nat.pos_iff_ne_zero.mp hroom)
      simp
  obtain ⟨ls', hholds, hne, hfree, hzero⟩ := hext.addPages (length_take_le room pg) htake
  refine ⟨_, ls', fillList_eq hpage hext pg, ?_, ?_, ?_⟩
  · -- Two writes of the same page are one.
    have hput : Put s ((((s.note x).setPage p fun _ => pgc').note ⟨pgc', pgc'.state.tail⟩).setPage p
        fun _ => pgc'.addPages pgc'.state.tail (pg.take room)) p
        (pgc'.addPages pgc'.state.tail (pg.take room)) := by
      refine ⟨if_pos rfl, fun q hq => ?_, rfl, rfl, rfl, rfl, rfl, fun y hy => ?_⟩
      · show (if q = p then _ else if q = p then _ else _) = _
        rw [if_neg hq, if_neg hq]
        rfl
      · rcases mem_cons.mp hy with rfl | hy
        · exact .inr hext.packs.fine
        · rcases mem_cons.mp hy with rfl | hy
          · exact .inr hx
          · exact .inl hy
    have hready : Ready old s c0 p ls (new ++ (pg.take room ++ pg.drop room)) := by
      rw [take_append_drop]
      exact h
    exact hready.fill hput hholds hne hfree
  · refine ⟨by simp, ⟨(pg.take room).map (l.xid, ·), ?_, ?_, ?_⟩, rfl, rfl, rfl⟩
    · simp [hfree]
    · rw [map_map]
      exact map_id' _
    · intro e he
      obtain ⟨y, -, rfl⟩ := mem_map.mp he
      exact hext.xid_le
  · intro hrest
    show roomFor (if p = p then _ else _) xid = 0
    rw [if_pos rfl]
    refine hzero ?_
    rw [length_take]
    have hlt : room < pg.length := by
      by_contra hge
      exact hrest (drop_eq_nil_of_le (by omega))
    omega

/-- How many new GC pages `n` pages need when the last one has room for `room` of them. -/
def pagesNeeded (n room : Nat) : Nat := edCountSize (n - room) edGcListMax

theorem pagesNeeded_of_le {n room : Nat} (h : n ≤ room) : pagesNeeded n room = 0 := by
  rw [pagesNeeded, edCountSize, show edGcListMax = 1015 from rfl]
  omega

theorem pagesNeeded_drop (n room : Nat) : pagesNeeded (n - room) 0 = pagesNeeded n room := rfl

theorem pagesNeeded_succ {n : Nat} (h : 0 < n) :
    pagesNeeded n 0 = pagesNeeded n edGcListMax + 1 := by
  simp only [pagesNeeded, edCountSize, show edGcListMax = 1015 from rfl]
  omega

/-- The exits of the loop: it only ends early when it needs one more GC page than it has. -/
def insertExits (old : List RemainCall) (need given : Nat) : Exits EdErr GcFault GcSt :=
  ⟨fun _ _ => False, fun f s' => f = .newPage ∧ given < need ∧ Logged old s', False⟩

/-- The loop adds all pages, and uses the new GC pages that are needed. -/
theorem insertLoop_spec {fuel : Nat} (h : Ready old s c0 p ls (new ++ pg)) (hpg : pg ≠ [])
    (hfuel : pg.length ≤ fuel) :
    wp (insertLoop xid fuel (some p) new pg)
      (fun unused s' => unused = new.drop (pagesNeeded pg.length (roomFor (s.pages p) xid)) ∧
        pagesNeeded pg.length (roomFor (s.pages p) xid) ≤ new.length ∧
        ∃ c0' p' ls', Ready old s' c0' p' ls' unused ∧
          Inserted s s' (c0 ++ [⟨p, ls⟩]) (c0' ++ [⟨p', ls'⟩])
            (new.take (pagesNeeded pg.length (roomFor (s.pages p) xid))) xid pg)
      (insertExits old (pagesNeeded pg.length (roomFor (s.pages p) xid)) new.length) s := by
  induction fuel generalizing s c0 p ls new pg with
  | zero => exact absurd (eq_nil_of_length_eq_zero (Nat.le_zero.mp hfuel)) hpg
  | succ fuel ih =>
    have hlen : 0 < pg.length := length_pos_of_ne_nil hpg
    -- How the loop goes on when `k` pages were added.
    have go_on : ∀ {s1 : GcSt} {c1 : List GcNode} {p1 k : Nat} {ls1 : List GcList}
        {used new1 : List Nat}, 0 < k → Ready old s1 c1 p1 ls1 (new1 ++ pg.drop k) →
        Inserted s s1 (c0 ++ [⟨p, ls⟩]) (c1 ++ [⟨p1, ls1⟩]) used xid (pg.take k) →
        (pg.drop k ≠ [] → roomFor (s1.pages p1) xid = 0) →
        wp (if pg.drop k = [] then pure new1 else insertLoop xid fuel (some p1) new1 (pg.drop k))
          (fun unused s' => unused = new1.drop (pagesNeeded pg.length k) ∧
            pagesNeeded pg.length k ≤ new1.length ∧
            ∃ c0' p' ls', Ready old s' c0' p' ls' unused ∧
              Inserted s s' (c0 ++ [⟨p, ls⟩]) (c0' ++ [⟨p', ls'⟩])
                (used ++ new1.take (pagesNeeded pg.length k)) xid pg)
          (insertExits old (pagesNeeded pg.length k) new1.length) s1 := by
      intro s1 c1 p1 k ls1 used new1 hk hready hins hzero
      by_cases hrest : pg.drop k = []
      · have hle : pg.length ≤ k := drop_eq_nil_iff.mp hrest
        rw [if_pos hrest, pagesNeeded_of_le hle]
        rw [hrest, append_nil] at hready
        rw [take_of_length_le hle] at hins
        exact ⟨rfl, Nat.zero_le _, c1, p1, ls1, hready, by rwa [take_zero, append_nil]⟩
      · have hneed : pagesNeeded (pg.drop k).length (roomFor (s1.pages p1) xid)
            = pagesNeeded pg.length k := by
          rw [hzero hrest, length_drop, pagesNeeded_drop]
        have hloop := ih hready hrest (by rw [length_drop]; omega)
        rw [hneed] at hloop
        rw [if_neg hrest]
        refine wp_mono hloop ?_ (fun _ _ h => h) (fun _ _ h => h) id
        rintro unused s' ⟨hun, hle, c0', p', ls', hready', hins'⟩
        have htrans := hins.trans hins'
        rw [take_append_drop] at htrans
        exact ⟨hun, hle, c0', p', ls', hready', htrans⟩
    rw [insertLoop, wp_bind]
    rcases gcListNext_spec rfl h.isOpen xid with ⟨hroom, hrun⟩ | ⟨hroom, pgc', raw, l, hext, hrun⟩
    · -- The last GC page is full.
      have hnote := h.note h.isOpen.fine
      rw [wp_eq_ok hrun, hroom, pagesNeeded_succ hlen]
      cases new with
      | nil => exact ⟨rfl, Nat.succ_pos _, hnote.log⟩
      | cons q new =>
        generalize hs0 : s.note ⟨s.pages p, (s.pages p).state.tail⟩ = s0 at hnote ⊢
        have hext : Extends ((s0.linked p q).pages q) (withList EdPgGc.zero xid) [] xid edGcListMax []
            ⟨xid, []⟩ := by
          rw [show (s0.linked p q).pages q = EdPgGc.zero from if_pos rfl]
          exact zero_extends xid
        have hnew : Ready old s0 c0 p ls (q :: (new ++ pg)) := hnote
        obtain ⟨s1, ls1, hfill, hready, hins, hfull⟩ :=
          hnew.link.fillList open_zero.fine hext (by decide) hpg
        have htrans : Inserted s0 s1 _ _ _ xid _ := hnew.inserted_link.trans hins
        rw [append_nil, nil_append] at htrans
        have hins' : Inserted s s1 (c0 ++ [⟨p, ls⟩]) (c0 ++ [⟨p, ls⟩] ++ [⟨q, ls1⟩]) [q] xid
            (pg.take edGcListMax) := by
          subst hs0
          exact ⟨htrans.nodes, htrans.entries, htrans.gcHead, htrans.tailStart, htrans.tailCount⟩
        show wp (linkGc (some p) q xid >>= _) _ _ _
        rw [wp_bind, wp_eq_ok (linkGc_eq s0 p q xid)]
        show wp (fillList q _ pg >>= _) _ _ _
        rw [wp_bind, wp_eq_ok hfill]
        refine wp_mono (go_on (by decide) hready hins' hfull) ?_ (fun _ _ h => h) ?_ id
        · rintro unused s' ⟨hun, hle, hex⟩
          exact ⟨hun, Nat.succ_le_succ hle, hex⟩
        · rintro f s' ⟨hf, hlt, hlog⟩
          exact ⟨hf, Nat.succ_lt_succ hlt, hlog⟩
    · -- The last GC page has room.
      rw [wp_eq_ok hrun]
      obtain ⟨s1, ls1, hfill, hready, hins, hzero⟩ :=
        h.fillList h.isOpen.fine hext hroom hpg
      show wp (fillList p pgc'.state.tail pg >>= _) _ _ _
      rw [wp_bind, wp_eq_ok hfill]
      exact go_on hroom hready hins hzero

end Eddy.Gc
