import Eddy.Gc.Run

/-!
# Eddy — a freed page keeps the transaction that freed it

A page that `ed_free_pgno` puts into a list waits there for all transactions that may still see it.
The list may be an older one of a newer transaction, it may be continued on a new GC page, and it is
moved when the last GC page is compacted; its transaction is never older than the one that freed the
page. A run here starts at any well-formed index and follows which pages were freed, with their
transactions, and not returned by `ed_alloc` since.
-/

namespace Eddy.Gc

open Outcome Packed List

variable {sys : Sys} {s s' : GcSt} {c c' : List GcNode} {used : List Nat}

/-! ## The lists are determined by the file -/

section Unique

variable {d : Nat → Nat} {o t : Nat} {raw raw' ls ls' : List GcList} {pgc : EdPgGc}
  {pages : Nat → EdPgGc}

theorem laid_unique (h : Laid GcList.words GcList.stride d o raw)
    (h' : Laid GcList.words GcList.stride d o raw') (hlen : raw.length = raw'.length) :
    raw = raw' := by
  induction raw generalizing o raw' with
  | nil => exact (length_eq_zero_iff.mp hlen.symm).symm
  | cons l raw ih =>
    cases raw' with
    | nil => cases hlen
    | cons l' raw' =>
      obtain ⟨⟨h0, h1, h2, h3⟩, hrest⟩ := laid_cons_iff.mp h
      obtain ⟨⟨h0', h1', h2', h3'⟩, hrest'⟩ := laid_cons_iff.mp h'
      -- the header of the list says how many pages follow
      have hxid : l.xid = l'.xid := by
        rw [← words_xid l.xid, ← words_xid l'.xid, ← h0, ← h1, h0', h1']
      have hpages : l.pages = l'.pages := by
        rw [← h3, ← h3', ← h2, ← h2']
      obtain rfl : l = l' := by
        cases l
        cases l'
        exact congrArg₂ GcList.mk hxid hpages
      rw [ih hrest hrest' (Nat.succ.inj hlen)]

theorem Holds.unique (h : Holds pgc ls) (h' : Holds pgc ls') : ls = ls' := by
  obtain ⟨raw, hp, rfl⟩ := h.staged.packs
  obtain ⟨raw', hp', rfl⟩ := h'.staged.packs
  rw [laid_unique hp.laid hp'.laid (hp.nlists.symm.trans hp'.nlists)]

theorem Chained.unique (h : Chained pages t c) (h' : Chained pages t c')
    (hhead : c.head?.map GcNode.no = c'.head?.map GcNode.no) : c = c' := by
  induction c generalizing c' with
  | nil => exact h.elim
  | cons n c ih =>
    cases c' with
    | nil => exact h'.elim
    | cons n' c' =>
      obtain ⟨no, lists⟩ := n
      obtain ⟨no', lists'⟩ := n'
      obtain rfl : no = no' := Option.some.inj hhead
      obtain ⟨hn, hc⟩ := chained_cons_iff.mp h
      obtain ⟨hn', hc'⟩ := chained_cons_iff.mp h'
      obtain rfl : lists = lists' := hn.unique hn'
      -- the page is the last one of both chains, or both go on at its `next`
      cases c with
      | nil =>
        cases c' with
        | nil => rfl
        | cons q' c' => exact absurd hc hc'.1
      | cons q c =>
        cases c' with
        | nil => exact absurd hc' hc.1
        | cons q' c' =>
          rw [ih hc.2.2 hc'.2.2 (hc.2.1.symm.trans hc'.2.1)]

theorem Rep.unique (h : Rep s c) (h' : Rep s c') : c = c' := by
  obtain ⟨t, ht, hch⟩ := h.chained
  obtain ⟨t', ht', hch'⟩ := h'.chained
  obtain rfl : t = t' := Option.some.inj (ht.symm.trans ht')
  exact hch.unique hch' (h.head.symm.trans h'.head)

end Unique

/-! ## What a call does to the lists -/

/-- The pages that `ed_alloc` returns in a call, to the client or to `ed_free_pgno`. -/
def GcCall.takes (sys : Sys) : GcCall → GM (List Nat)
  | .alloc xmin npg => edAlloc sys xmin npg
  | .free xmin xid pg => if pg.length < 1 then pure [] else freeAlloc sys xmin xid pg

/-- What `ed_idx_xmin` returns to `ed_alloc` in a call. -/
def GcCall.xmin : GcCall → Nat
  | .alloc xmin _ => xmin
  | .free xmin _ _ => xmin

/-- The pages that a call frees, with the transaction. -/
def GcCall.marks : GcCall → List (Nat × Nat)
  | .alloc _ _ => []
  | .free _ xid pg => pg.map (xid, ·)

/-- What a call does to the lists, when `ed_alloc` returned the pages `got` in it. -/
structure Moved (call : GcCall) (got : List Nat) (c c' : List GcNode) : Prop where
  kept : ∀ e ∈ entries c, e.2 ∉ got → e ∈ entries c'
  added : ∀ e ∈ call.marks, ∃ xid, e.1 ≤ xid ∧ (xid, e.2) ∈ entries c'

section Moves

variable {xmin npg m : Nat} {out recycled : List Nat} {taken : List (Nat × Nat)}

theorem kept_of_handed (h : Handed xmin npg s c out s' recycled taken m c') {e : Nat × Nat}
    (he : e ∈ entries c) (hout : e.2 ∉ out) : e ∈ entries c' := by
  rw [h.entries] at he
  refine (mem_append.mp he).resolve_left fun ht => hout ?_
  obtain ⟨sorted, hperm, -, heq⟩ := h.out
  rw [heq]
  exact mem_append_left _ (mem_append_right _ (hperm.mem_iff.mpr (mem_map_of_mem ht)))

theorem unseen_of_handed (h : Handed xmin npg s c out s' recycled taken m c') (hrep : Rep s c)
    {e : Nat × Nat} (he : e ∈ entries c) (hout : e.2 ∈ out) : e.1 = 0 ∨ e.1 < xmin := by
  have hpage : e.2 ∈ (entries c).map Prod.snd := mem_map_of_mem he
  obtain ⟨sorted, hperm, -, heq⟩ := h.out
  rw [heq, append_assoc] at hout
  have hnodup := hrep.nodup
  rcases mem_append.mp hout with hrec | hout
  · -- a GC page is in no list
    have hno : e.2 ∈ c.map GcNode.no := by
      rw [h.nodes]
      exact mem_append_left _ hrec
    exact absurd rfl ((nodup_append.mp hnodup).2.2 _ hno _ hpage)
  rcases mem_append.mp hout with htaken | htail
  · obtain ⟨e', he', heq'⟩ := mem_map.mp (hperm.mem_iff.mp htaken)
    have hmem : e' ∈ entries c := by
      rw [h.entries]
      exact mem_append_left _ he'
    obtain rfl : e' = e :=
      inj_on_of_nodup_map (nodup_append.mp hnodup).2.1 hmem he heq'
    exact h.unseen e' he'
  · -- the tail lies behind the pages of the lists
    have hlt := hrep.below _ (mem_append_right _ hpage)
    have hge := (mem_range'_1.mp htail).1
    omega

end Moves

/-- The pages that `ed_alloc` returned in a call. -/
def GcCall.got (call : GcCall) (sys : Sys) (s : GcSt) : List Nat :=
  match call.takes sys s with
  | .ok got _ => got
  | _ => []

theorem GcCall.got_of_ok {call : GcCall} {got : List Nat} {s1 : GcSt}
    (h : call.takes sys s = .ok got s1) : call.got sys s = got := by
  rw [GcCall.got, h]

theorem GcCall.takes_free {xmin xid : Nat} {pg : List Nat} (hpg : pg ≠ []) :
    (GcCall.free xmin xid pg).takes sys = freeAlloc sys xmin xid pg := by
  have hlen : ¬ pg.length < 1 := by
    have := length_pos_iff.mpr hpg
    omega
  exact if_neg hlen

theorem edAlloc_too_many {xmin npg : Nat} (h : ¬ npg ≤ 1024) :
    edAlloc sys xmin npg = Prog.throw .einval := by
  rw [edAlloc, if_neg (by omega), if_pos (by omega)]

section Call

variable {call : GcCall} {out : List Nat}

variable (h : Sound s used c)

include h

theorem Sound.moved_alloc {xmin npg : Nat} (hmeets : (GcCall.alloc xmin npg).Meets s c)
    (hrun : edAlloc sys xmin npg s = .ok out s') (hrep : Rep s' c') :
    Moved (.alloc xmin npg) out c c' := by
  by_cases hmax : npg ≤ 1024
  · obtain ⟨recycled, taken, m, hh⟩ :=
      (wp_ok (edAlloc_spec h.rep hmax (hmeets hmax)) hrun).handed h.rep
    rw [hrep.unique hh.rep]
    exact ⟨fun e he hout => kept_of_handed hh he hout, nofun⟩
  · rw [edAlloc_too_many hmax] at hrun
    cases hrun

theorem Sound.moved_free {xmin xid : Nat} {pg : List Nat}
    (hlegal : (GcCall.free xmin xid pg).Legal used) (hmeets : (GcCall.free xmin xid pg).Meets s c)
    (hrun : edFreePgno sys xmin xid pg s = .ok () s') (hrep : Rep s' c') :
    Moved (.free xmin xid pg) ((GcCall.free xmin xid pg).got sys s) c c' := by
  by_cases hpg : pg = []
  · subst hpg
    rw [edFreePgno, if_pos (by decide)] at hrun
    obtain rfl : s = s' := (Out.ok.inj hrun).2
    rw [hrep.unique h.rep]
    exact ⟨fun e he _ => he, fun e he => by cases he⟩
  obtain ⟨c0, ⟨p, ls⟩, rfl⟩ := (eq_nil_or_concat' c).resolve_left h.rep.ne_nil
  obtain ⟨hopen, hends, hfit⟩ := hmeets c0 p ls rfl
  obtain ⟨⟨new, c1, c2, hfreed, s1, hnew⟩, -, -⟩ :=
    wp_ok (edFreePgno_spec (h.ready hlegal hopen) hpg hfit hends) hrun
  obtain ⟨_, _, _, _, hh, -, -⟩ := hfreed.handed
  obtain ⟨added, hadded, hpages, hxid⟩ := hfreed.entries
  rw [hrep.unique hfreed.rep, GcCall.got_of_ok ((congrFun (GcCall.takes_free hpg) s).trans hnew)]
  refine ⟨fun e he hout => ?_, fun e he => ?_⟩
  · rw [hadded]
    exact mem_append_left _ (kept_of_handed hh he hout)
  · -- the page was added to some list, of the transaction or a newer one
    obtain ⟨x, hx, rfl⟩ := mem_map.mp he
    rw [← hpages] at hx
    obtain ⟨⟨x', p'⟩, hmem, rfl⟩ := mem_map.mp hx
    refine ⟨x', hxid _ hmem, ?_⟩
    rw [hadded]
    exact mem_append_right _ hmem

theorem Sound.moved (hlegal : call.Legal used) (hmeets : call.Meets s c)
    (hrun : call.run sys s = .ok out s') (hrep : Rep s' c') : Moved call (call.got sys s) c c' := by
  cases call with
  | alloc xmin npg =>
    rw [GcCall.got_of_ok (show (GcCall.alloc xmin npg).takes sys s = _ from hrun)]
    exact h.moved_alloc hmeets hrun hrep
  | free xmin xid pg =>
    obtain ⟨_, s1, hfree, hpure⟩ := ok_bind hrun
    obtain rfl : s1 = s' := (Out.ok.inj hpure).2
    exact h.moved_free hlegal hmeets hfree hrep

theorem Sound.failed {e : EdErr} (hlegal : call.Legal used) (hmeets : call.Meets s c)
    (hrun : call.run sys s = .err e s') : Rep s' c := by
  cases call with
  | alloc xmin npg =>
    by_cases hmax : npg ≤ 1024
    · exact h.rep.grown (wp_err (edAlloc_spec h.rep hmax (hmeets hmax)) hrun).2
    · rw [GcCall.run, edAlloc_too_many hmax] at hrun
      cases hrun
      exact h.rep
  | free xmin xid pg =>
    by_cases hpg : pg = []
    · subst hpg
      rw [GcCall.run, edFreePgno, if_pos (by decide)] at hrun
      cases hrun
    obtain ⟨c0, ⟨p, ls⟩, rfl⟩ := (eq_nil_or_concat' c).resolve_left h.rep.ne_nil
    obtain ⟨hopen, hends, hfit⟩ := hmeets c0 p ls rfl
    have hwp : wp ((GcCall.free xmin xid pg).run sys) (fun _ _ => True)
        ⟨fun _ s' => Rep s' (c0 ++ [⟨p, ls⟩]), fun _ _ => True, True⟩ s := by
      rw [GcCall.run, wp_bind]
      exact wp_mono (edFreePgno_spec (h.ready hlegal hopen) hpg hfit hends)
        (fun _ _ _ => trivial) (fun _ _ hx => hx.2.1.rep) (fun _ _ _ => trivial) fun _ => trivial
    exact wp_err hwp hrun

/-- The pages of lists that `ed_alloc` returns were freed by transactions that nobody sees. -/
theorem Sound.unseen (hlegal : call.Legal used) (hmeets : call.Meets s c) {e : Nat × Nat}
    (he : e ∈ entries c) (hgot : e.2 ∈ call.got sys s) : e.1 = 0 ∨ e.1 < call.xmin := by
  have hwp : wp (call.takes sys) (fun got _ => e.2 ∈ got → e.1 = 0 ∨ e.1 < call.xmin)
      ⟨fun _ _ => True, fun _ _ => True, True⟩ s := by
    cases call with
    | alloc xmin npg =>
      rw [GcCall.takes]
      by_cases hmax : npg ≤ 1024
      · refine wp_mono (edAlloc_spec h.rep hmax (hmeets hmax)) (fun out s' ha hout => ?_)
          (fun _ _ _ => trivial) (fun _ _ _ => trivial) fun _ => trivial
        obtain ⟨recycled, taken, m, hh⟩ := ha.handed h.rep
        exact unseen_of_handed hh h.rep he hout
      · rw [edAlloc_too_many hmax]
        trivial
    | free xmin xid pg =>
      by_cases hpg : pg = []
      · subst hpg
        exact fun hx => absurd hx not_mem_nil
      rw [GcCall.takes_free hpg]
      obtain ⟨c0, ⟨p, ls⟩, rfl⟩ := (eq_nil_or_concat' c).resolve_left h.rep.ne_nil
      obtain ⟨hopen, -, hfit⟩ := hmeets c0 p ls rfl
      refine wp_freeAlloc (h.ready hlegal hopen) (fun _ _ _ _ _ => trivial) fun s1 hput h1 => ?_
      by_cases hmax : gcPagesFor (s.pages p) xid pg.length ≤ 1024
      · have hfit1 := hfit hmax
        rw [Fits, ← hput.tailStart, ← hput.tailCount] at hfit1
        refine wp_mono (edAlloc_spec h1.rep hmax hfit1) (fun out s' ha hout => ?_)
          (fun _ _ _ => trivial) (fun _ _ _ => trivial) fun _ => trivial
        obtain ⟨recycled, taken, m, hh⟩ := ha.handed h1.rep
        exact unseen_of_handed hh h1.rep he hout
      · rw [edAlloc_too_many hmax]
        trivial
  cases htakes : call.takes sys s with
  | ok got s1 =>
    rw [GcCall.got_of_ok htakes] at hgot
    exact wp_ok hwp htakes hgot
  | err _ _ => simp [GcCall.got, htakes] at hgot
  | halt _ _ => simp [GcCall.got, htakes] at hgot
  | stuck => simp [GcCall.got, htakes] at hgot

end Call

/-! ## Runs -/

/-- The runs from any well-formed index: the state, the pages that clients use, and the pages that were
freed, each with its transaction, and that `ed_alloc` did not return since. -/
inductive Traced : GcSt → List Nat → List (Nat × Nat) → Prop where
  | start {s : GcSt} {used : List Nat} {c : List GcNode} (h : Sound s used c) : Traced s used []
  | call {s s' : GcSt} {used : List Nat} {freed : List (Nat × Nat)} (h : Traced s used freed)
      {call : GcCall} (hlegal : call.Legal used) (hmeets : ∀ c, Rep s c → call.Meets s c) {sys : Sys}
      {out : List Nat} (hrun : call.run sys s = .ok out s') :
      Traced s' (used.diff call.gives ++ out)
        (call.marks ++ freed.filter fun e => e.2 ∉ call.got sys s)
  | fail {s s' : GcSt} {used : List Nat} {freed : List (Nat × Nat)} (h : Traced s used freed)
      {call : GcCall} (hlegal : call.Legal used) (hmeets : ∀ c, Rep s c → call.Meets s c) {sys : Sys}
      {e : EdErr} (hrun : call.run sys s = .err e s') : Traced s' used freed
  | write {s : GcSt} {used : List Nat} {freed : List (Nat × Nat)} (h : Traced s used freed) {q : Nat}
      (hq : q ∈ used) (f : EdPgGc → EdPgGc) : Traced (s.setPage q f) used freed

/-- Each freed page is in a list of its transaction or of a newer one. -/
def Tagged (freed : List (Nat × Nat)) (c : List GcNode) : Prop :=
  ∀ e ∈ freed, ∃ xid, e.1 ≤ xid ∧ (xid, e.2) ∈ entries c

theorem Moved.tagged {call : GcCall} {got : List Nat} {freed : List (Nat × Nat)}
    (h : Moved call got c c') (ht : Tagged freed c) :
    Tagged (call.marks ++ freed.filter fun e => e.2 ∉ got) c' := by
  intro e he
  rcases mem_append.mp he with he | he
  · exact h.added e he
  · obtain ⟨hmem, hnot⟩ := mem_filter.mp he
    obtain ⟨xid, hle, hxid⟩ := ht e hmem
    exact ⟨xid, hle, h.kept _ hxid (of_decide_eq_true hnot)⟩

theorem traced_tagged {freed : List (Nat × Nat)} (h : Traced s used freed) :
    ∃ c, Sound s used c ∧ Tagged freed c := by
  induction h with
  | start h => exact ⟨_, h, nofun⟩
  | call _ hlegal hmeets hrun ih =>
    obtain ⟨c, hc, ht⟩ := ih
    have hm := hmeets c hc.rep
    obtain ⟨c', hc'⟩ := wp_ok (hc.call hlegal hm) hrun
    exact ⟨c', hc', (hc.moved hlegal hm hrun hc'.rep).tagged ht⟩
  | fail _ hlegal hmeets hrun ih =>
    obtain ⟨c, hc, ht⟩ := ih
    have hm := hmeets c hc.rep
    obtain ⟨c', hc'⟩ := wp_err (hc.call hlegal hm) hrun
    obtain rfl := hc'.rep.unique (hc.failed hlegal hm hrun)
    exact ⟨c', hc', ht⟩
  | write _ hq f ih =>
    obtain ⟨c, hc, ht⟩ := ih
    exact ⟨c, hc.write hq f, ht⟩

/-- The page `p` stands in a list of the chain whose transaction is at least `x`. -/
def Listed (s : GcSt) (x p : Nat) : Prop :=
  ∃ c t xid, s.gcTail = some t ∧ s.gcHead = c.head?.map GcNode.no ∧ Chained s.pages t c ∧ x ≤ xid ∧
    (xid, p) ∈ entries c

theorem not_listed {p x : Nat} (hhead : s.gcHead = some 1) (htail : s.gcTail = some 1)
    (hnone : (s.pages 1).state.nlists = 0) : ¬ Listed s x p := by
  rintro ⟨c, t, xid, ht, hh, hch, -, hmem⟩
  obtain rfl : 1 = t := Option.some.inj (htail.symm.trans ht)
  cases c with
  | nil => exact hch
  | cons n c =>
    have hno : 1 = n.no := Option.some.inj (hhead.symm.trans hh)
    obtain ⟨hn, hc⟩ := chained_cons_iff.mp hch
    cases c with
    | nil =>
      rw [← hno] at hn
      obtain ⟨raw, hp, hlists⟩ := hn.staged.packs
      obtain rfl := length_eq_zero_iff.mp (hp.nlists.symm.trans hnone)
      simp [entries, hlists, skipPages] at hmem
    | cons q c => exact absurd hno.symm hc.1

/-- An index whose file has nearly as many pages as can be numbered, without free pages. -/
def edgeSt : GcSt := { hugeSt with pages := fun _ => EdPgGc.zero }

theorem sound_edgeSt : Sound edgeSt [5] [⟨1, []⟩] where
  rep := ⟨⟨1, rfl, rfl, holds_zero⟩, rfl, by decide, by decide, by decide, Nat.le_refl _⟩
  nodup := by decide
  below := by decide
  log := nofun

end Eddy.Gc
