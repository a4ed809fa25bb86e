import Eddy.Index.Alloc

/-!
# Eddy — what the node functions of `txn.c` do

One specification for each of `edTxnMap`, `edTxnAlloc`, `edTxnDiscard` and `edTxnClone`, in terms
of explicit state updates. A failed call leaves an error in the transaction.
-/

namespace Eddy

open Outcome Slots List

variable {E : Type} (env : Env E)

/-- The transaction may allocate and change pages. -/
structure Writing (s : St E) : Prop where
  isOpen : s.txn.state = .open
  wr : s.txn.isrdonly = false

theorem Writing.modPage {s : St E} (h : Writing s) (p : Nat) (f : EdBpt E → EdBpt E) :
    Writing (s.modPage p f) := ⟨h.isOpen, h.wr⟩

/-- The page array of a transaction: the used pages are a part of the pages, and these fit in
the slots. -/
structure PgOk (t : EdTxn) : Prop where
  used_le : t.npgused ≤ t.pg.length
  slot_ge : t.pg.length ≤ t.npgslot

/-- The transaction object with the pages `new` added to its page array. -/
def EdTxn.reserved (t : EdTxn) (new : List Nat) (npgslot : Nat) (error : Option EdErr) : EdTxn :=
  { t with pg := t.pg ++ new, npgslot := npgslot, error := error }

/-- The transaction object with an error code. -/
def EdTxn.failed (t : EdTxn) (error : Option EdErr) : EdTxn := { t with error := error }

/-- The transaction reserved the pages `new`. -/
structure Grow (s s' : St E) (new : List Nat) : Prop where
  moves : Moves s.hdr s'.hdr new []
  pages : ∀ p, p ∉ new → s'.pages p = s.pages p
  txn : s'.txn = s.txn.reserved new s'.txn.npgslot s'.txn.error
  slot_ge : s'.txn.pg.length ≤ s'.txn.npgslot
  conn : s'.conn = s.conn
  lck : s'.lck = s.lck
  busy : s'.busy = s.busy
  lost : s'.lost = s.lost
  tree : s'.hdr.tree = s.hdr.tree
  xid : s'.hdr.xid = s.hdr.xid
  vno : s'.hdr.vno = s.hdr.vno
  active : ∃ k, s'.hdr.active = s.hdr.active ++ new.take k

/-- Only the error code and the environment's clock changed. -/
structure ErrorOnly (s s' : St E) : Prop where
  eq : s' = (s.modTxn fun t => t.failed s'.txn.error).atTick s'.tick

theorem ErrorOnly.grow {s s' : St E} (h : ErrorOnly s s')
    (hslot : s.txn.pg.length ≤ s.txn.npgslot) : Grow s s' [] := by
  have htxn : s'.txn = s.txn.failed s'.txn.error := (congrArg St.txn h.eq :)
  have hn : s'.txn.npgslot = s.txn.npgslot := (congrArg EdTxn.npgslot htxn :)
  have hp : s'.txn.pg = s.txn.pg := (congrArg EdTxn.pg htxn :)
  have hhdr : s'.hdr = s.hdr := (congrArg St.hdr h.eq :)
  exact {
    moves := by rw [hhdr]; exact Moves.refl _
    pages := fun p _ => (congrFun (congrArg St.pages h.eq) p :)
    txn := by rw [hn, EdTxn.reserved, append_nil]; exact htxn
    slot_ge := by rw [hp, hn]; exact hslot
    conn := (congrArg St.conn h.eq :)
    lck := (congrArg St.lck h.eq :)
    busy := (congrArg St.busy h.eq :)
    lost := (congrArg St.lost h.eq :)
    tree := by rw [hhdr]
    xid := by rw [hhdr]
    vno := by rw [hhdr]
    active := ⟨0, by simp [hhdr]⟩ }

theorem ErrorOnly.refl (s : St E) : ErrorOnly s s := ⟨rfl⟩

theorem lt_growPgslot {npg npgslot : Nat} (h : npg ≤ npgslot) : npg < growPgslot npg npgslot := by
  unfold growPgslot
  have := edAlignSize_ge (npg + 1) 10 (by decide)
  split
  · split
    · omega
    · split <;> omega
  · omega

theorem edTxnGrow_spec (s : St E) (hslot : s.txn.pg.length ≤ s.txn.npgslot) :
    wp (edTxnGrow env)
      (fun _ s' => ∃ new, new ≠ [] ∧ Grow s s' new ∧ s'.txn.error = s.txn.error)
      ⟨fun _ s' => Grow s s' [] ∧ s'.txn.error ≠ none, fun _ _ => False, False⟩ s := by
  have hlt := lt_growPgslot hslot
  unfold edTxnGrow
  simp only [wp_bind, wp_gets, wp_sysFails, wp_ite, wp_txnError,
    wp_modTxn, wp_attempt]
  refine ⟨fun _ => ⟨ErrorOnly.grow ⟨rfl⟩ hslot, by simp⟩, fun _ => ?_⟩
  set npgslot := growPgslot s.txn.pg.length s.txn.npgslot with hnp
  set s1 : St E := (s.atTick (s.tick + 1)).modTxn
    (fun t => { t with npgslot := npgslot }) with hs1
  refine wp_mono (edAlloc_spec env (npgslot - s.txn.pg.length) s1) ?_ ?_
    (fun _ _ h => h) id
  · rintro pgs s2 ⟨hlen, hstep⟩
    simp only [wp_modHdr]
    refine ⟨pgs, ?_, ?_, ?_⟩
    · intro h
      rw [h] at hlen
      simp at hlen
      omega
    · have htxn := hstep.txn
      refine {
        moves := ⟨hstep.moves.no_le, hstep.moves.perm⟩
        pages := hstep.pages
        txn := by simp [htxn, hs1, EdTxn.reserved]
        slot_ge := by simp [htxn, hs1]; omega
        conn := hstep.conn
        lck := hstep.lck
        busy := hstep.busy
        lost := hstep.lost
        tree := hstep.tree
        xid := hstep.xid
        vno := hstep.vno
        active := ⟨activeMax - s2.hdr.active.length, ?_⟩ }
      simp [hstep.active, hs1]
    · simp [hstep.txn, hs1]
  · intro e s2 hstep
    have htxn := hstep.txn
    refine ⟨?_, by simp⟩
    exact {
      moves := hstep.moves
      pages := hstep.pages
      txn := by simp [htxn, hs1, EdTxn.reserved]
      slot_ge := by simp [htxn, hs1]; omega
      conn := hstep.conn
      lck := hstep.lck
      busy := hstep.busy
      lost := hstep.lost
      tree := hstep.tree
      xid := hstep.xid
      vno := hstep.vno
      active := ⟨0, by simp [hstep.active, hs1]⟩ }

/-! ## Taking a page -/

/-- The page `p` is wrapped into a new node and stamped with the xid of the transaction. -/
def St.takePage (s : St E) (p : Nat) (par : Option Nat) (pidx : Nat) : St E :=
  { s with
    pages := fun q => if q = p then { s.pages p with xid := s.txn.xid } else s.pages q
    txn := { s.txn with
      nodes := fun m => if m = s.txn.nused then ⟨p, par, pidx, false⟩ else s.txn.nodes m
      nused := s.txn.nused + 1
      npgused := s.txn.npgused + 1 } }

/-- What an allocated node looks like: pages `new` were reserved first, then the page `p` was
taken. -/
structure Taken (s s' : St E) (new : List Nat) (p : Nat) (par : Option Nat) (pidx : Nat) :
    Prop where
  grow : ∃ s1 : St E, Grow s s1 new ∧ s1.txn.error = s.txn.error ∧
    s' = (s1.takePage p par pidx).atTick s'.tick
  page : s'.txn.pg[s.txn.npgused]? = some p

/-- An error leaves the pages and the lists of the transaction as they are, apart from newly
reserved pages. -/
structure AllocFailed (s s' : St E) : Prop where
  grow : ∃ new, Grow s s' new
  error : s'.txn.error ≠ none

section Taken

variable {s s' : St E} {new : List Nat} {p : Nat} {par : Option Nat} {pidx : Nat}

/-- The transaction object after an allocation. -/
def EdTxn.taken (t : EdTxn) (new : List Nat) (npgslot p : Nat) (par : Option Nat) (pidx : Nat) :
    EdTxn :=
  { t with
    pg := t.pg ++ new
    npgslot := npgslot
    npgused := t.npgused + 1
    nused := t.nused + 1
    nodes := fun m => if m = t.nused then ⟨p, par, pidx, false⟩ else t.nodes m }

variable (h : Taken s s' new p par pidx)

include h

theorem Taken.txn : s'.txn = s.txn.taken new s'.txn.npgslot p par pidx := by
  obtain ⟨s1, hg, herr, hs⟩ := h.grow
  have h1 : s1.txn = s.txn.reserved new s1.txn.npgslot s.txn.error := herr ▸ hg.txn
  have h2 : s'.txn = (s1.takePage p par pidx).txn := (congrArg St.txn hs :)
  rw [h2]
  unfold St.takePage EdTxn.taken
  simp only
  rw [h1]
  rfl

theorem Taken.pages {q : Nat} (hnew : q ∉ new) (hp : q ≠ p) : s'.pages q = s.pages q := by
  obtain ⟨s1, hg, -, hs⟩ := h.grow
  have h2 : s'.pages = (s1.takePage p par pidx).pages := (congrArg St.pages hs :)
  rw [h2, ← hg.pages q hnew]
  simp [St.takePage, hp]

theorem Taken.page_xid : (s'.pages p).xid = s.txn.xid := by
  obtain ⟨s1, hg, -, hs⟩ := h.grow
  have h2 : s'.pages = (s1.takePage p par pidx).pages := (congrArg St.pages hs :)
  have h3 : s1.txn.xid = s.txn.xid := (congrArg EdTxn.xid hg.txn :)
  rw [h2]
  simp [St.takePage, h3]

theorem Taken.node_new : s'.node s.txn.nused = ⟨p, par, pidx, false⟩ := by
  unfold St.node
  rw [h.txn]
  simp [EdTxn.taken]

theorem Taken.node_old {m : Nat} (hm : m ≠ s.txn.nused) : s'.node m = s.node m := by
  unfold St.node
  rw [h.txn]
  simp [EdTxn.taken, hm]

theorem Taken.mem_pg : p ∈ s'.txn.pg :=
  mem_of_getElem? h.page

theorem Taken.pgOk : PgOk s'.txn := by
  obtain ⟨s1, hg, -, hs⟩ := h.grow
  have hlt : s.txn.npgused < s'.txn.pg.length := (List.getElem?_eq_some_iff.mp h.page).1
  have h2 : s'.txn = (s1.takePage p par pidx).txn := (congrArg St.txn hs :)
  refine ⟨?_, ?_⟩
  · have : s'.txn.npgused = s.txn.npgused + 1 := (congrArg EdTxn.npgused h.txn :)
    omega
  · rw [h2]
    exact hg.slot_ge

theorem Taken.writing (hw : Writing s) : Writing s' :=
  ⟨(congrArg EdTxn.state h.txn :).trans hw.isOpen,
    (congrArg EdTxn.isrdonly h.txn :).trans hw.wr⟩

end Taken

theorem wp_edTxnCheckWr {s : St E} (hw : Writing s) {Q : Unit → St E → Prop}
    {X : Exits EdErr EdFault (St E)} : wp edTxnCheckWr Q X s = Q () s := by
  unfold edTxnCheckWr
  simp [hw.isOpen, hw.wr]

theorem reserve_spec (s : St E) (hok : PgOk s.txn) :
    wp (Prog.when (s.txn.npgused = s.txn.pg.length) (edTxnGrow env))
      (fun _ s' => ∃ new, Grow s s' new ∧ s'.txn.error = s.txn.error ∧
        s'.txn.npgused < s'.txn.pg.length)
      ⟨fun _ s' => AllocFailed s s', fun _ _ => False, False⟩ s := by
  rw [wp_when]
  refine ⟨fun hfull => ?_, fun hnot => ⟨[], (ErrorOnly.refl s).grow hok.slot_ge, rfl, ?_⟩⟩
  · refine wp_mono (edTxnGrow_spec env s hok.slot_ge) ?_
      (fun _ _ h => ⟨⟨[], h.1⟩, h.2⟩) (fun _ _ h => h) id
    rintro _ s' ⟨new, hne, hgrow, herr⟩
    refine ⟨new, hgrow, herr, ?_⟩
    have hpos : 0 < new.length := length_pos_iff.mpr hne
    rw [hgrow.txn]
    simp only [EdTxn.reserved, length_append]
    omega
  · have := hok.used_le
    omega

theorem edTxnAlloc_spec (s : St E) (hw : Writing s) (hok : PgOk s.txn) (par : Option Nat)
    (pidx : Nat) :
    wp (edTxnAlloc env par pidx)
      (fun n s' => n = s.txn.nused ∧ ∃ new p, Taken s s' new p par pidx)
      ⟨fun _ s' => AllocFailed s s', fun _ _ => False, False⟩ s := by
  unfold edTxnAlloc
  rw [wp_bind, wp_edTxnCheckWr hw, wp_bind, wp_gets, wp_bind]
  refine wp_post (reserve_spec env s hok) ?_
  rintro _ s1 ⟨new, hgrow, herr, hlt⟩
  unfold wrapNext
  simp only [wp_bind, wp_gets, wp_sysFails, wp_ite, wp_txnError]
  refine ⟨fun _ => ⟨⟨new, ?_⟩, by simp⟩, fun _ => ?_⟩
  · refine { hgrow with txn := ?_, slot_ge := hgrow.slot_ge }
    simp only [St.modTxn_txn, St.atTick_txn]
    rw [hgrow.txn]
    rfl
  · obtain ⟨p, hp⟩ : ∃ p, s1.txn.pg[s1.txn.npgused]? = some p :=
      ⟨_, List.getElem?_eq_getElem hlt⟩
    have hused : s1.txn.npgused = s.txn.npgused := (congrArg EdTxn.npgused hgrow.txn :)
    have hnused : s1.txn.nused = s.txn.nused := (congrArg EdTxn.nused hgrow.txn :)
    rw [hp]
    simp only [wp_bind, nodeWrap, wp_gets, wp_modNode, wp_modTxn, wp_pure',
      wp_modTree]
    refine ⟨hnused, new, p, ⟨s1, hgrow, herr, ?_⟩, ?_⟩
    · simp [St.takePage, St.modTxn, St.modNode, St.modPage, St.node, St.atTick]
      rfl
    · rw [← hused]
      exact hp

/-! ## Mapping a page -/

/-- The node `n` gets a new parent. -/
def St.rehung (s : St E) (n : Nat) (par : Option Nat) (pidx : Nat) : St E :=
  s.modNode n fun x => { x with parent := par, pindex := pidx }

/-- The page `no` is wrapped into a new node. -/
def St.wrapped (s : St E) (no : Nat) (par : Option Nat) (pidx : Nat) : St E :=
  s.modTxn fun t => { t with
    nodes := fun m => if m = t.nused then ⟨no, par, pidx, false⟩ else t.nodes m
    nused := t.nused + 1 }

/-- The two ways in which a page gets a node. -/
inductive Mapped (s s' : St E) (n no : Nat) (par : Option Nat) (pidx : Nat) : Prop
  | known (hn : n < s.txn.nused) (hpage : (s.node n).page = no)
      (hs : s' = s.rehung n par pidx)
  | fresh (hn : n = s.txn.nused) (hnew : ∀ m, m < s.txn.nused → (s.node m).page ≠ no)
      (hs : s' = (s.wrapped no par pidx).atTick s'.tick)

theorem nodeOf_eq_none {nodes : Nat → EdNode} {no k : Nat} (h : nodeOf nodes no k = none) :
    ∀ m, m < k → (nodes m).page ≠ no := by
  induction k with
  | zero => intro m hm; omega
  | succ k ih =>
    rw [nodeOf] at h
    split at h
    · cases h
    · rename_i hne
      intro m hm
      rcases Nat.lt_succ_iff_lt_or_eq.mp hm with hlt | rfl
      · exact ih h m hlt
      · exact hne

theorem nodeOf_eq_some {nodes : Nat → EdNode} {no k n : Nat} (h : nodeOf nodes no k = some n) :
    n < k ∧ (nodes n).page = no := by
  induction k with
  | zero => simp [nodeOf] at h
  | succ k ih =>
    rw [nodeOf] at h
    split at h
    · rename_i heq
      cases h
      exact ⟨Nat.lt_succ_self _, heq⟩
    · have := ih h
      exact ⟨by omega, this.2⟩

theorem edTxnMap_spec (s : St E) (no : Nat) (par : Option Nat) (pidx : Nat) :
    wp (edTxnMap env no par pidx) (fun n s' => Mapped s s' n no par pidx)
      ⟨fun _ s' => ErrorOnly s s' ∧ s'.txn.error ≠ none, fun _ _ => False, False⟩ s := by
  unfold edTxnMap
  rw [wp_bind, wp_gets]
  cases hof : nodeOf s.txn.nodes no s.txn.nused with
  | some n =>
    obtain ⟨hn, hpage⟩ := nodeOf_eq_some hof
    exact .known hn hpage rfl
  | none =>
    simp only [wp_bind, wp_sysFails, wp_ite, wp_txnError, wp_modTxn, nodeWrap,
      wp_gets, wp_modNode, wp_pure']
    exact ⟨fun _ => ⟨⟨rfl⟩, by simp⟩, fun _ => .fresh rfl (nodeOf_eq_none hof) rfl⟩

/-! ## Discarding and cloning a page -/

/-- The page of the node `n` is noted for removal, once. -/
def St.discarded (s : St E) (n : Nat) : St E :=
  if (s.node n).gc then s
  else s.modTxn fun t => { t with
    gc := t.gc ++ [(t.nodes n).page]
    nodes := fun m => if m = n then { t.nodes n with gc := true } else t.nodes m }

theorem edTxnDiscard_spec (s : St E) (hw : Writing s) (n : Nat) :
    wp (edTxnDiscard env n)
      (fun _ s' => s' = (s.discarded n).atTick s'.tick)
      ⟨fun _ s' => ErrorOnly s s' ∧ s'.txn.error ≠ none, fun _ _ => False, False⟩ s := by
  unfold edTxnDiscard
  rw [wp_bind, wp_edTxnCheckWr hw]
  simp only [wp_bind, wp_getNode, wp_ite, wp_sysFails, wp_pure', wp_txnError,
    wp_modTxn, wp_modNode]
  refine ⟨fun hgc => ?_, fun hgc => ⟨fun _ => ⟨⟨rfl⟩, by simp⟩, fun _ => ?_⟩⟩
  · rw [St.discarded, if_pos hgc]
    rfl
  · rw [St.discarded, if_neg hgc]
    rfl

/-- A clone got its page and the header of the page it copies. -/
def St.copiedHeader (s : St E) (n p : Nat) : St E :=
  s.modPage p fun c => { c with type := (s.tree n).type, nkeys := (s.tree n).nkeys }

/-- The clone `s.txn.nused` of the node `n` was made, on the page `p`. -/
def Cloned (s s' : St E) (n : Nat) (new : List Nat) (p : Nat) : Prop :=
  ∃ s1 : St E, Taken s s1 new p (s.node n).parent (s.node n).pindex ∧
    s' = ((s1.copiedHeader n p).discarded n).atTick s'.tick

/-- A clone failed: either no page could be taken, or the old page could not be noted and the
new one was given back. -/
inductive CloneFailed (s s' : St E) (n : Nat) : Prop
  | alloc (h : AllocFailed s s')
  | discard (s1 : St E) (new : List Nat) (p : Nat)
      (ht : Taken s s1 new p (s.node n).parent (s.node n).pindex)
      (herr : s'.txn.error ≠ none)
      (hs : s' = ((s1.copiedHeader n p).modTxn fun t =>
        { t with npgused := t.npgused - 1, error := s'.txn.error }).atTick s'.tick)

theorem edTxnClone_spec (s : St E) (hw : Writing s) (hok : PgOk s.txn) (n : Nat) :
    wp (edTxnClone env n)
      (fun copy s' => copy = s.txn.nused ∧ ∃ new p, Cloned s s' n new p)
      ⟨fun _ s' => CloneFailed s s' n, fun _ _ => False, False⟩ s := by
  unfold edTxnClone
  rw [wp_bind, wp_getNode, wp_bind]
  refine wp_mono (edTxnAlloc_spec env s hw hok _ _) ?_ (fun _ _ h => .alloc h)
    (fun _ _ h => h) id
  rintro copy s1 ⟨rfl, new, p, ht⟩
  have hpage : (s1.node s.txn.nused).page = p := by rw [ht.node_new]
  simp only [wp_bind, wp_getTree, wp_modTree, wp_attempt]
  rw [hpage]
  have hw1 : Writing (s1.copiedHeader n p) := ⟨(ht.writing hw).isOpen, (ht.writing hw).wr⟩
  refine wp_mono (edTxnDiscard_spec env _ hw1 n) ?_ ?_ (fun _ _ h => h) id
  · rintro _ s' hs'
    exact ⟨rfl, new, p, s1, ht, hs'⟩
  · rintro e s' ⟨hs', herr⟩
    simp only [wp_modTxn, wp_throw]
    refine .discard s1 new p ht (by simpa using herr) ?_
    rw [hs'.eq]
    rfl

end Eddy
