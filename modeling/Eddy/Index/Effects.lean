import Eddy.Index.CopyOnWrite
import Eddy.Index.Doomed
import Eddy.Index.Page

/-!
# Eddy — the pages a modification takes, drops and changes

`Eff s s' fresh dead W` is the account of a part of a modification: the transaction started to use
the pages `fresh`, noted the pages `dead` for removal, and of the pages it knew before changed at
most those of `W`. Accounts compose, so that the account of a whole modification is the sum of the
accounts of its parts.

The pages known to a transaction are those outside of it (`R`: the pages of the committed trees
and of other connections) and those it uses. `Base s R` has what every function relies on: these
pages, the reserved ones and the free ones are all distinct.
-/

namespace Eddy

open Outcome Slots List

variable {E : Type} {new R : List Nat} {s s' : St E} {p n : Nat}

/-- The pages of a transaction that it uses. -/
def EdTxn.used (t : EdTxn) : List Nat := t.pg.take t.npgused

/-- The pages `R`, those of the transaction and the free ones are distinct pages of the file. -/
structure Sound (s : St E) (R : List Nat) : Prop where
  nodup : (R ++ s.txn.pg ++ s.hdr.free).Nodup
  lt : ∀ p ∈ R ++ s.txn.pg ++ s.hdr.free, p < s.hdr.no

/-- A page that may be part of a tree. -/
def Known (s : St E) (R : List Nat) (p : Nat) : Prop := p ∈ R ∨ p ∈ s.txn.used

/-- The pages of the transaction in `s'` that were not in use in `s`. -/
def unused (s s' : St E) : List Nat := s'.txn.pg.drop s.txn.npgused

/-- A node whose page counts as noted for removal has its page in the list. -/
def GcFlag (s : St E) : Prop := ∀ n, n < s.txn.nused → (s.node n).gc = true → (s.node n).page ∈ s.txn.gc

theorem Moves.nodup {h h' : EdPgIdx} {l : List Nat} (hm : Moves h h' new [])
    (hnd : (l ++ h.free).Nodup) (hlt : ∀ p ∈ l ++ h.free, p < h.no) :
    (l ++ new ++ h'.free).Nodup ∧ ∀ p ∈ l ++ new ++ h'.free, p < h'.no := by
  have hperm : (l ++ new ++ h'.free).Perm (l ++ h.free ++ grown h h') := by
    rw [perm_iff_count]
    intro p
    have := hm.perm.count_eq p
    simp only [count_append, count_nil] at this ⊢
    omega
  have hle := hm.no_le
  refine ⟨hperm.nodup_iff.mpr (nodup_append.mpr ⟨hnd, nodup_range', ?_⟩), fun p hp => ?_⟩
  · intro a ha b hb
    simp only [grown, mem_range'_1] at hb
    have := hlt a ha
    omega
  · have := hperm.subset hp
    rw [mem_append] at this
    rcases this with h1 | h1
    · exact (hlt p h1).trans_le hle
    · simp only [grown, mem_range'_1] at h1
      omega

theorem Sound.step (h : Sound s R) (hs : Step s s') : Sound s' R := by
  obtain ⟨new, hpg, hm, -⟩ := hs.reserve
  obtain ⟨h1, h2⟩ := hm.nodup h.nodup h.lt
  rw [append_assoc R, ← hpg] at h1 h2
  exact ⟨h1, h2⟩

theorem Sound.pg_nodup (h : Sound s R) : s.txn.pg.Nodup :=
  (nodup_append.mp (nodup_append.mp h.nodup).1).2.1

theorem Step.used_eq (hs : Step s s') (hok : PgOk s.txn) :
    s.txn.used = s'.txn.pg.take s.txn.npgused := by
  obtain ⟨new, hpg, -⟩ := hs.reserve
  rw [EdTxn.used, hpg, take_append_of_le_length hok.used_le]

theorem Known.not_unused (hp : Known s R p) (h : Sound s R) (hok : PgOk s.txn) (hs : Step s s') :
    p ∉ unused s s' := by
  have h' := h.step hs
  intro hmem
  rcases hp with hR | hU
  · exact (nodup_append.mp (nodup_append.mp h'.nodup).1).2.2 p hR p
      (mem_of_mem_drop hmem) rfl
  · rw [hs.used_eq hok] at hU
    have hnd := h'.pg_nodup
    rw [← take_append_drop s.txn.npgused s'.txn.pg] at hnd
    exact (nodup_append.mp hnd).2.2 p hU p hmem rfl

/-- What the functions that change a tree rely on. -/
structure Base (s : St E) (R : List Nat) : Prop where
  writing : Writing s
  pgOk : PgOk s.txn
  sound : Sound s R
  flag : GcFlag s
  gcKnown : ∀ p ∈ s.txn.gc, Known s R p

/-- The account of a part of a modification. -/
structure Eff (s s' : St E) (fresh dead W : List Nat) : Prop where
  step : Step s s'
  used : s'.txn.used = s.txn.used ++ fresh
  gc : s'.txn.gc = s.txn.gc ++ dead
  frame : ∀ p, p ∉ unused s s' → p ∉ W → s'.pages p = s.pages p
  xids : ∀ p, p ∉ unused s s' → (s'.pages p).xid = (s.pages p).xid
  freshXid : ∀ p ∈ fresh, (s'.pages p).xid = s.txn.xid
  flag : GcFlag s → GcFlag s'
  nodes : ∀ n, s.txn.nused ≤ n → n < s'.txn.nused → (s'.node n).page ∈ fresh
  error : s'.txn.error = s.txn.error

namespace Eff

variable {s s' s'' : St E} {R fresh dead W fresh' dead' W' : List Nat}

section

variable (h : Eff s s' fresh dead W)

include h

theorem known (hp : Known s R p) : Known s' R p := by
  rcases hp with hR | hU
  · exact .inl hR
  · refine .inr ?_
    rw [h.used]
    exact mem_append_left _ hU

theorem known_fresh (hp : p ∈ fresh) : Known s' R p := by
  refine .inr ?_
  rw [h.used]
  exact mem_append_right _ hp

theorem page (hb : Base s R) (hp : Known s R p) (hW : p ∉ W) : s'.pages p = s.pages p :=
  h.frame p (hp.not_unused hb.sound hb.pgOk h.step) hW

theorem tree (hb : Base s R) (hn : n < s.txn.nused) (hk : Known s R (s.node n).page)
    (hW : (s.node n).page ∉ W) : s'.tree n = s.tree n := by
  show s'.pages (s'.node n).page = s.pages (s.node n).page
  rw [h.step.node n hn]
  exact h.page hb hk hW

theorem xid (hb : Base s R) (hp : Known s R p) : (s'.pages p).xid = (s.pages p).xid :=
  h.xids p (hp.not_unused hb.sound hb.pgOk h.step)

theorem fresh_not_known (hb : Base s R) (hp : p ∈ fresh) : ¬ Known s R p := by
  intro hk
  have hs' := hb.sound.step h.step
  have hpg : p ∈ s'.txn.used := by rw [h.used]; exact mem_append_right _ hp
  rcases hk with hR | hU
  · exact (nodup_append.mp (nodup_append.mp hs'.nodup).1).2.2 p hR p
      (mem_of_mem_take hpg) rfl
  · have hnd : s'.txn.used.Nodup := hs'.pg_nodup.sublist (take_sublist _ _)
    rw [h.used] at hnd
    exact (nodup_append.mp hnd).2.2 p hU p hp rfl

theorem fresh_nodup (hb : Base s R) : fresh.Nodup := by
  have hnd : s'.txn.used.Nodup :=
    (hb.sound.step h.step).pg_nodup.sublist (take_sublist _ _)
  rw [h.used] at hnd
  exact (nodup_append.mp hnd).2.1

theorem base (hb : Base s R) (hdead : ∀ p ∈ dead, Known s' R p) :
    Base s' R where
  writing := h.step.writing hb.writing
  pgOk := h.step.pgOk hb.pgOk
  sound := hb.sound.step h.step
  flag := h.flag hb.flag
  gcKnown := by
    intro p hp
    rw [h.gc, mem_append] at hp
    rcases hp with hp | hp
    · exact h.known (hb.gcKnown p hp)
    · exact hdead p hp

theorem npgused_le (hok : PgOk s.txn) : s.txn.npgused ≤ s'.txn.npgused := by
  have h1 := congrArg List.length h.used
  have h2 := hok.used_le
  simp only [EdTxn.used, length_take, length_append] at h1
  omega

end

theorem refl (s : St E) : Eff s s [] [] [] where
  step := Step.refl s
  used := by simp
  gc := by simp
  frame _ _ _ := rfl
  xids _ _ := rfl
  freshXid := by simp
  flag h := h
  nodes n h1 h2 := by omega
  error := rfl

theorem trans (a : Eff s s' fresh dead W) (b : Eff s' s'' fresh' dead' W') (hb : Base s R) :
    Eff s s'' (fresh ++ fresh') (dead ++ dead') (W ++ W') := by
  have hok := hb.pgOk
  have hstep := a.step.trans b.step
  have hsub1 : ∀ p, p ∉ unused s s'' → p ∉ unused s s' := by
    intro p hp hmem
    obtain ⟨new, hpg, -⟩ := b.step.reserve
    refine hp ?_
    unfold unused at hmem ⊢
    rw [hpg, drop_append]
    exact mem_append_left _ hmem
  have hsub2 : ∀ p, p ∉ unused s s'' → p ∉ unused s' s'' := by
    intro p hp hmem
    refine hp ?_
    unfold unused at hmem ⊢
    rw [← Nat.add_sub_of_le (a.npgused_le hok), ← drop_drop] at hmem
    exact mem_of_mem_drop hmem
  refine {
    step := hstep
    used := by rw [b.used, a.used, append_assoc]
    gc := by rw [b.gc, a.gc, append_assoc]
    frame := fun p hp hW => ?_
    xids := fun p hp => (b.xids p (hsub2 p hp)).trans (a.xids p (hsub1 p hp))
    freshXid := fun p hp => ?_
    flag := fun h => b.flag (a.flag h)
    nodes := fun n h1 h2 => ?_
    error := b.error.trans a.error }
  · rw [mem_append, not_or] at hW
    exact (b.frame p (hsub2 p hp) hW.2).trans (a.frame p (hsub1 p hp) hW.1)
  · rcases mem_append.mp hp with hp | hp
    · -- a page in use is not among the pages taken later
      have hk : Known s' ([] : List Nat) p := a.known_fresh hp
      have hs0 : Sound s ([] : List Nat) :=
        ⟨(nodup_append.mp (append_assoc R _ _ ▸ hb.sound.nodup)).2.1,
          fun q hq => hb.sound.lt q (by
            rw [append_assoc]
            exact mem_append_right _ hq)⟩
      rw [b.xids p (hk.not_unused (hs0.step a.step) (a.step.pgOk hok) b.step)]
      exact a.freshXid p hp
    · rw [b.freshXid p hp, a.step.txid]
  · rcases Nat.lt_or_ge n s'.txn.nused with hlt | hge
    · rw [b.step.node n hlt]
      exact mem_append_left _ (a.nodes n h1 hlt)
    · exact mem_append_right _ (b.nodes n hge h2)

theorem mono (a : Eff s s' fresh dead W) (hW : ∀ p ∈ W, p ∈ W') : Eff s s' fresh dead W' :=
  { a with frame := fun p hp h => a.frame p hp fun hw => h (hW p hw) }

theorem fresh_unused (a : Eff s s' fresh dead W) (hok : PgOk s.txn) (hp : p ∈ fresh) :
    p ∈ unused s s' := by
  have h1 : s'.txn.used = s'.txn.pg.take s.txn.npgused ++ fresh := by
    rw [a.used, a.step.used_eq hok]
  have hle := a.npgused_le hok
  have h2 : s'.txn.used
      = s'.txn.pg.take s.txn.npgused
        ++ (s'.txn.pg.drop s.txn.npgused).take (s'.txn.npgused - s.txn.npgused) := by
    rw [EdTxn.used, ← take_add, Nat.add_sub_of_le hle]
  have h3 : fresh = (s'.txn.pg.drop s.txn.npgused).take (s'.txn.npgused - s.txn.npgused) :=
    append_cancel_left (h1.symm.trans h2)
  rw [h3] at hp
  exact mem_of_mem_take hp

theorem trim (a : Eff s s' fresh dead W) (hok : PgOk s.txn)
    (hW : ∀ p ∈ W, p ∈ W' ∨ p ∈ fresh) : Eff s s' fresh dead W' := by
  refine { a with frame := fun p hp h => a.frame p hp fun hw => ?_ }
  rcases hW p hw with h1 | h1
  · exact h h1
  · exact hp (a.fresh_unused hok h1)

/-! ### Elementary changes -/

theorem modPage (s : St E) (p : Nat) (f : EdBpt E → EdBpt E)
    (hp : s.txn.xid ≤ (s.pages p).xid ∨ p ∈ s.txn.pg) (hf : ∀ b, (f b).xid = b.xid) :
    Eff s (s.modPage p f) [] [] [p] where
  step := Step.modPage s p f hp hf
  used := by simp
  gc := by simp
  frame q _ hq := St.modPage_pages_of_ne s f (by simpa using hq)
  xids q _ := by
    by_cases hqp : q = p
    · rw [hqp, St.modPage_pages_self, hf]
    · rw [St.modPage_pages_of_ne s f hqp]
  freshXid := by simp
  flag h := h
  nodes n h1 h2 := by simp at h2; omega
  error := rfl

theorem modNode (s : St E) (n : Nat) (f : EdNode → EdNode)
    (hpage : (f (s.node n)).page = (s.node n).page) (hgc : (f (s.node n)).gc = (s.node n).gc) :
    Eff s (s.modNode n f) [] [] [] where
  step := Step.modNode s n f hpage
  used := by simp [EdTxn.used, St.modNode, St.modTxn]
  gc := by simp [St.modNode, St.modTxn]
  frame _ _ _ := rfl
  xids _ _ := rfl
  freshXid := by simp
  flag h := by
    intro m hm hg
    by_cases hmn : m = n
    · subst hmn
      rw [St.modNode_node_self] at hg ⊢
      rw [hpage]
      exact h m hm (hgc ▸ hg)
    · rw [St.modNode_node_of_ne s f hmn] at hg ⊢
      exact h m hm hg
  nodes m h1 h2 := by simp at h2; omega
  error := rfl

theorem modDb (s : St E) (d : EdDb) (f : EdTxnDb → EdTxnDb) : Eff s (s.modDb d f) [] [] [] where
  step := Step.modDb s d f
  used := by simp [EdTxn.used, St.modDb, St.modTxn]
  gc := by simp [St.modDb, St.modTxn]
  frame _ _ _ := rfl
  xids _ _ := rfl
  freshXid := by simp
  flag h := h
  nodes m h1 h2 := by simp at h2; omega
  error := rfl

theorem atTick (s : St E) (t : Nat) : Eff s (s.atTick t) [] [] [] where
  step := Step.atTick s t
  used := by simp
  gc := by simp
  frame _ _ _ := rfl
  xids _ _ := rfl
  freshXid := by simp
  flag h := h
  nodes m h1 h2 := by simp at h2; omega
  error := rfl

theorem discarded (s : St E) (hgc : (s.node n).gc = false) :
    Eff s (s.discarded n) [] [(s.node n).page] [] where
  step := St.discarded_step s n
  used := by simp [St.discarded, hgc, EdTxn.used]
  gc := by
    rw [St.discarded, if_neg (by simp [hgc])]
    rfl
  frame _ _ _ := by simp [St.discarded, hgc]
  xids _ _ := by simp [St.discarded, hgc]
  freshXid := by simp
  flag h := by
    intro m hm hg
    have hm' : m < s.txn.nused := by simpa [St.discarded, hgc] using hm
    rw [(St.discarded_step s n).node m hm']
    simp only [St.discarded, hgc, Bool.false_eq_true, if_false, St.modTxn_txn, mem_append,
      mem_singleton]
    by_cases hmn : m = n
    · exact .inr (by rw [hmn]; rfl)
    · have hsame : (s.discarded n).node m = s.node m := by
        rw [St.discarded, if_neg (by simp [hgc])]
        simp [St.node, hmn]
      exact .inl (h m hm' (hsame ▸ hg))
  nodes m h1 h2 := by simp [St.discarded, hgc] at h2; omega
  error := by simp [St.discarded, hgc]

end Eff

/-! ### Stores into pages -/

/-- The state `x` differs from `s` by stores into the pages of `W` and by the cursors. -/
structure Stores (s x : St E) (W : List Nat) : Prop where
  eq : x = { s with pages := x.pages, txn := { s.txn with db := x.txn.db } }
  frame : ∀ p, p ∉ W → x.pages p = s.pages p
  xids : ∀ p, (x.pages p).xid = (s.pages p).xid

namespace Stores

variable {s x y : St E} {W : List Nat}

theorem refl (s : St E) (W : List Nat) : Stores s s W := ⟨rfl, fun _ _ => rfl, fun _ => rfl⟩

variable (h : Stores s x W)

include h

theorem modPage (hp : p ∈ W) (f : EdBpt E → EdBpt E) (hf : ∀ b, (f b).xid = b.xid) :
    Stores s (x.modPage p f) W := by
  refine ⟨?_, fun q hq => ?_, fun q => ?_⟩
  · conv_lhs => rw [h.eq]
    rfl
  · have hqp : q ≠ p := fun e => hq (e ▸ hp)
    rw [St.modPage_pages_of_ne _ _ hqp]
    exact h.frame q hq
  · by_cases hqp : q = p
    · rw [hqp, St.modPage_pages_self, hf]
      exact h.xids p
    · rw [St.modPage_pages_of_ne _ _ hqp]
      exact h.xids q

theorem modDb (d : EdDb) (f : EdTxnDb → EdTxnDb) : Stores s (x.modDb d f) W := by
  refine ⟨?_, h.frame, h.xids⟩
  conv_lhs => rw [h.eq]
  rfl

theorem trans (h' : Stores x y W) : Stores s y W := by
  refine ⟨?_, fun p hp => (h'.frame p hp).trans (h.frame p hp),
    fun p => (h'.xids p).trans (h.xids p)⟩
  rw [h'.eq, h.eq]

theorem mono {W' : List Nat} (hW : ∀ p ∈ W, p ∈ W') : Stores s x W' :=
  ⟨h.eq, fun p hp => h.frame p fun hw => hp (hW p hw), h.xids⟩

theorem node (m : Nat) : x.node m = s.node m := by rw [h.eq]; rfl

theorem eff (hW : ∀ p ∈ W, s.txn.xid ≤ (s.pages p).xid) : Eff s x [] [] W := by
  have hstep : Step s x := by
    rw [h.eq]
    refine { Step.refl s with
      fixed := rfl
      pages := fun p hp _ => h.frame p fun hw => absurd (hW p hw) (not_le.mpr hp)
      xids := fun p hp _ => (h.xids p).symm ▸ hp
      pgOk := fun hok => ⟨hok.used_le, hok.slot_ge⟩ }
  have hu : x.txn.used = s.txn.used := by rw [h.eq]; rfl
  have hg : x.txn.gc = s.txn.gc := by rw [h.eq]
  have hn : x.txn.nused = s.txn.nused := by rw [h.eq]
  exact {
    step := hstep
    used := by rw [hu, append_nil]
    gc := by rw [hg, append_nil]
    frame := fun p _ hp => h.frame p hp
    xids := fun p _ => h.xids p
    freshXid := by simp
    flag := fun hf m hm hgc => by
      rw [h.node] at hgc ⊢
      rw [hg]
      exact hf m (hn ▸ hm) hgc
    nodes := fun m h1 h2 => by omega
    error := by rw [h.eq] }

end Stores

/-! ## Taking and replacing a page -/

/-- The node `c` was made on a new page `p`; its content is arbitrary. -/
structure AllocOf (s s' : St E) (c p : Nat) (par : Option Nat) (pidx : Nat) : Prop where
  eff : Eff s s' [p] [] []
  id : c = s.txn.nused
  lt : c < s'.txn.nused
  node : s'.node c = ⟨p, par, pidx, false⟩
  nodes : ∀ m, m < s.txn.nused → s'.node m = s.node m
  db : s'.txn.db = s.txn.db

theorem Taken.allocOf {par : Option Nat} {pidx : Nat} (h : Taken s s' new p par pidx)
    (hok : PgOk s.txn) : AllocOf s s' s.txn.nused p par pidx := by
  have hpg : s'.txn.pg = s.txn.pg ++ new := (congrArg EdTxn.pg h.txn :)
  have hnp : s'.txn.npgused = s.txn.npgused + 1 := (congrArg EdTxn.npgused h.txn :)
  have hnu : s'.txn.nused = s.txn.nused + 1 := (congrArg EdTxn.nused h.txn :)
  obtain ⟨hlt, hget⟩ := List.getElem?_eq_some_iff.mp h.page
  have hpun : p ∈ unused s s' := by
    unfold unused
    rw [drop_eq_getElem_cons hlt, hget]
    exact mem_cons_self
  have hframe : ∀ q, q ∉ unused s s' → s'.pages q = s.pages q := by
    intro q hq
    refine h.pages (fun hn => hq ?_) fun e => hq (e ▸ hpun)
    unfold unused
    rw [hpg, drop_append_of_le_length hok.used_le]
    exact mem_append_right _ hn
  refine {
    eff := {
      step := h.step
      used := ?_
      gc := by simp [(congrArg EdTxn.gc h.txn :), EdTxn.taken]
      frame := fun q hq _ => hframe q hq
      xids := fun q hq => by rw [hframe q hq]
      freshXid := by simpa using h.page_xid
      flag := fun hf m hm hg => ?_
      nodes := fun m h1 h2 => ?_
      error := (congrArg EdTxn.error h.txn :) }
    id := rfl
    lt := by omega
    node := h.node_new
    nodes := fun m hm => h.node_old hm.ne
    db := (congrArg EdTxn.db h.txn :) }
  · rw [h.step.used_eq hok, EdTxn.used, hnp, take_add_one, List.getElem?_eq_getElem hlt, hget]
    rfl
  · rw [(congrArg EdTxn.gc h.txn :)]
    rcases Nat.lt_succ_iff_lt_or_eq.mp (hnu ▸ hm) with hlt' | rfl
    · rw [h.node_old hlt'.ne] at hg ⊢
      exact hf m hlt' hg
    · rw [h.node_new] at hg
      cases hg
  · have : m = s.txn.nused := by omega
    rw [this, h.node_new]
    exact mem_singleton.mpr rfl

/-- The node `c` was made on a new page `p` to replace the node `n`. -/
structure CloneOf (s s' : St E) (n c p : Nat) : Prop where
  eff : Eff s s' [p] [(s.node n).page] []
  id : c = s.txn.nused
  lt : c < s'.txn.nused
  node : s'.node c = ⟨p, (s.node n).parent, (s.node n).pindex, false⟩
  parent : ∀ m, m < s.txn.nused → (s'.node m).parent = (s.node m).parent
  pindex : ∀ m, m < s.txn.nused → (s'.node m).pindex = (s.node m).pindex
  type : (s'.pages p).type = (s.tree n).type
  nkeys : (s'.pages p).nkeys = (s.tree n).nkeys
  db : s'.txn.db = s.txn.db

/-- The exits of a function that only fails when a request for pages is refused, and is undefined
only under the condition `U`. There are no fault points to speak of. -/
def pageExits (env : Env E) (U : Prop) : Exits EdErr EdFault (St E) where
  err _ s' := Lost env s'
  halt _ _ := True
  stuck := U

theorem St.discarded_pages (s : St E) (n : Nat) : (s.discarded n).pages = s.pages := by
  unfold St.discarded
  split <;> rfl

theorem St.discarded_pindex (s : St E) (n m : Nat) :
    ((s.discarded n).node m).pindex = (s.node m).pindex := by
  unfold St.discarded
  split
  · rfl
  · by_cases hm : m = n
    · simp [St.node, hm]
    · simp [St.node, hm]

theorem St.discarded_node_of_ne (s : St E) {m : Nat} (hm : m ≠ n) :
    (s.discarded n).node m = s.node m := by
  unfold St.discarded
  split
  · rfl
  · simp [St.node, hm]

theorem St.discarded_nused (s : St E) (n : Nat) : (s.discarded n).txn.nused = s.txn.nused := by
  unfold St.discarded
  split <;> rfl

theorem Cloned.cloneOf (h : Cloned s s' n new p) (hb : Base s R) (hn : n < s.txn.nused)
    (hk : Known s R (s.node n).page) (hlive : (s.node n).page ∉ s.txn.gc) :
    CloneOf s s' n s.txn.nused p := by
  obtain ⟨s1, ht, hs'⟩ := h
  have ha := ht.allocOf hb.pgOk
  have hpn : (s.node n).page ≠ p := fun e =>
    ha.eff.fresh_not_known hb (mem_singleton.mpr rfl) (e ▸ hk)
  have htree : s1.tree n = s.tree n := by
    have hnode : (s1.txn.nodes n).page = (s.node n).page := by
      have := ha.nodes n hn
      exact congrArg EdNode.page this
    unfold St.tree
    rw [hnode]
    exact ha.eff.page hb hk (by simp)
  have hgc : ((s1.copiedHeader n p).node n).gc = false := by
    have h1 : ((s1.copiedHeader n p).node n) = s.node n := ha.nodes n hn
    rw [h1]
    by_contra hg
    exact hlive (hb.flag n hn (by simpa using hg))
  have e2 : Eff s1 (s1.copiedHeader n p) [] [] [p] :=
    Eff.modPage s1 p _ (.inr ht.mem_pg) fun _ => rfl
  have e3 := Eff.discarded (s1.copiedHeader n p) hgc
  have hb1 : Base s1 R := ha.eff.base hb (by simp)
  have e123 := (ha.eff.trans (e2.trans (e3.trans (Eff.atTick _ s'.tick) (e2.base hb1 (by simp)))
    hb1) hb)
  rw [← hs'] at e123
  have hpage : ((s1.copiedHeader n p).node n).page = (s.node n).page :=
    congrArg EdNode.page (ha.nodes n hn)
  have hpages : s'.pages = (s1.copiedHeader n p).pages := by
    rw [hs', St.atTick_pages, St.discarded_pages]
  refine {
    eff := ?_
    id := rfl
    lt := ?_
    node := ?_
    parent := fun m hm => ?_
    pindex := fun m hm => ?_
    type := ?_
    nkeys := ?_
    db := ?_ }
  · simp only [append_nil, nil_append, hpage] at e123
    exact e123.trim hb.pgOk (by simp)
  · rw [hs', St.atTick_txn, St.discarded_nused]
    exact ha.lt
  · rw [hs', St.atTick_node, St.discarded_node_of_ne _ hn.ne']
    exact ha.node
  · rw [hs', St.atTick_node, St.discarded_parent]
    exact congrArg EdNode.parent (ha.nodes m hm)
  · rw [hs', St.atTick_node, St.discarded_pindex]
    exact congrArg EdNode.pindex (ha.nodes m hm)
  · rw [hpages, St.copiedHeader, St.modPage_pages_self, htree]
  · rw [hpages, St.copiedHeader, St.modPage_pages_self, htree]
  · rw [hs', St.atTick_txn, St.discarded_db]
    exact ha.db

variable (env : Env E)

theorem edTxnAlloc_eff (hb : Base s R) (par : Option Nat) (pidx : Nat) :
    wp (edTxnAlloc env par pidx) (fun c s' => ∃ p, AllocOf s s' c p par pidx)
      (pageExits env False) s := by
  refine wp_mono (wp_and (edTxnAlloc_spec env s hb.writing hb.pgOk par pidx)
    (edTxnAlloc_refused env hb.writing par pidx)) ?_ (fun _ _ h => ⟨h.1.error, h.2⟩)
    (fun _ _ _ => trivial) fun h => h.1
  rintro c s' ⟨⟨rfl, new, p, ht⟩, -⟩
  exact ⟨p, ht.allocOf hb.pgOk⟩

theorem edTxnClone_eff (hb : Base s R) (hn : n < s.txn.nused) (hk : Known s R (s.node n).page)
    (hlive : (s.node n).page ∉ s.txn.gc) :
    wp (edTxnClone env n) (fun c s' => ∃ p, CloneOf s s' n c p) (pageExits env False) s := by
  refine wp_mono (wp_and (edTxnClone_spec env s hb.writing hb.pgOk n)
    (edTxnClone_refused env hb.writing hb.pgOk n)) ?_ ?_ (fun _ _ _ => trivial) fun h => h.1
  · rintro c s' ⟨⟨rfl, new, p, hc⟩, -⟩
    exact ⟨p, hc.cloneOf hb hn hk hlive⟩
  · rintro e s' ⟨hf, hr⟩
    refine ⟨?_, hr⟩
    rcases hf with h | ⟨s1, new, p, ht, herr, hs⟩
    · exact h.error
    · exact herr

end Eddy
