import Eddy.Index.Descend

/-!
# Eddy — room for an entry in a leaf

`insert_into_leaf` first makes the leaf its own and opens a slot in it; a replacement keeps all
slots.
-/

namespace Eddy

open Outcome Slots PageTree Layout

variable {E : Type} (env : Env E) (g : Geom) {X : Exits EdErr EdFault (St E)}

/-- A leaf `b'` is the leaf `b` with a free slot `i`. -/
structure LeafOpen (b b' : EdBpt E) (i : Nat) : Prop where
  type : b'.type = b.type
  nkeys : b'.nkeys = b.nkeys + 1
  front : ∀ j, j < i → b'.ent j = b.ent j
  back : ∀ j, i ≤ j → j < b.nkeys → b'.ent (j + 1) = b.ent j

/-- A leaf `b'` holds what the leaf `b` holds. -/
structure LeafKept (b b' : EdBpt E) : Prop where
  type : b'.type = b.type
  nkeys : b'.nkeys = b.nkeys
  ent : ∀ j, j < g.leafOrder → b'.ent j = b.ent j

/-- A leaf with `n` slots copied from another. -/
def EdBpt.copyEnt (c b : EdBpt E) (di si n : Nat) : EdBpt E :=
  { c with ent := blit c.ent di b.ent si n }

theorem wp_moveLeaf {s : St E} {dst di src si n : Nat} {Q : Unit → St E → Prop}
    (hU : n ≠ 0 → ¬ (di + n ≤ g.leafOrder ∧ si + n ≤ g.leafOrder) → X.stuck)
    (hQ : Q () (s.modPage (s.node dst).page fun c => c.copyEnt (s.tree src) di si n)) :
    wp (moveLeaf g dst di src si n) Q X s := by
  unfold moveLeaf
  simp only [wp_ite, wp_bind, wp_getTree, wp_modTree, wp_stuck]
  exact ⟨fun _ => hQ, fun hno => hU (fun h => hno (.inl h)) fun h => hno (.inr h)⟩

/-- A leaf with the slot `i` opened; the entries behind it come from `src`. -/
def EdBpt.openedLeaf (c src : EdBpt E) (i : Nat) : EdBpt E :=
  { c.copyEnt src (i + 1) i (src.nkeys - i) with nkeys := c.nkeys + 1 }

theorem wp_openLeafSlot {s : St E} {c src i : Nat} {Q : Unit → St E → Prop}
    (hU : ¬ (i ≤ (s.tree src).nkeys ∧ (s.tree src).nkeys < g.leafOrder) → X.stuck)
    (hQ : Q () (s.modPage (s.node c).page fun b => b.openedLeaf (s.tree src) i)) :
    wp (openLeafSlot g c src i) Q X s := by
  unfold openLeafSlot
  simp only [wp_bind, wp_getTree, wp_ite, wp_stuck]
  refine ⟨fun h => hU (by omega), fun _ => wp_moveLeaf g (fun _ _ => hU (by omega)) ?_⟩
  rw [wp_modTree, St.modPage_node, St.modPage_modPage]
  exact hQ

theorem EdBpt.openedLeaf_open {b c : EdBpt E} {i : Nat} (ht : c.type = b.type)
    (hn : c.nkeys = b.nkeys) (hent : ∀ j, j < i → c.ent j = b.ent j) :
    LeafOpen b (c.openedLeaf b i) i where
  type := ht
  nkeys := by simp [EdBpt.openedLeaf, hn]
  front j hj := by
    simp only [EdBpt.openedLeaf, EdBpt.copyEnt, blit]
    rw [if_neg (by omega)]
    exact hent j hj
  back j hj hj' := by
    simp only [EdBpt.openedLeaf, EdBpt.copyEnt, blit]
    rw [if_pos (by omega)]
    congr 1
    omega

/-- The leaf `n` of the cursor was replaced by the node `c` of this transaction, and the cursor
follows. -/
structure LeafOwn (s s1 : St E) (R : List Nat) (d : EdDb) (n : Nat) (up : List (Nat × Nat))
    (eidx c : Nat) (s0 : St E) (fresh dead : List Nat) (ep : Option EntPtr) : Prop where
  rep : Replaced g s s0 R n up c fresh dead
  eq : s1 = s0.modDb d fun x => { x with find := some c, entry := ep }
  entry : (c = n ∧ ep = (s.txn.db d).entry) ∨ ep = some ⟨(s0.node c).page, eidx⟩

section Expand

variable {s : St E} {R : List Nat} {d : EdDb} {n eidx : Nat} {up : List (Nat × Nat)}

theorem St.modDb_entry_self (h : (s.txn.db d).find = some n) :
    (s.modDb d fun x => { x with find := some n, entry := (s.txn.db d).entry }) = s :=
  St.modDb_eq_self s (by rw [← h])

theorem expandLeaf_spec (hb : Base s R) (hw : WayOk g s R n up)
    (hlive : (s.node n).page ∉ s.txn.gc) (hx : (s.tree n).xid ≤ s.txn.xid)
    (hfind : (s.txn.db d).find = some n) (replace : Bool)
    (hroom : replace = false → (s.tree n).nkeys ≠ g.leafOrder) :
    wp (expandLeaf env g d n eidx replace)
      (fun c s1 => ∃ s0 fresh dead ep, LeafOwn g s s1 R d n up eidx c s0 fresh dead ep ∧
        (replace = true → LeafKept g (s.tree n) (s0.tree c)) ∧
        (replace = false → LeafOpen (s.tree n) (s0.tree c) eidx))
      (pageExits env (¬ (eidx ≤ (s.tree n).nkeys ∧ (s.tree n).nkeys ≤ g.leafOrder))) s := by
  unfold expandLeaf ownLeaf cloneLeaf
  simp only [wp_bind, wp_get, wp_ite, wp_pure', wp_when, wp_getNode,
    wp_modDb]
  refine ⟨fun hold => ?_, fun hnew => ?_⟩
  · refine wp_mono (edTxnClone_eff env hb hw.lt hw.known hlive) ?_ (fun _ _ h => h)
      (fun _ _ h => h) False.elim
    rintro c s1 ⟨p, hc⟩
    have hcp : (s1.node c).page = p := by rw [hc.node]
    have hmt : s1.tree n = s.tree n := hc.eff.tree hb hw.lt hw.known (by simp)
    have hmp : (s1.node n).page ≠ p := by
      rw [hc.eff.step.node n hw.lt]
      intro e
      exact hc.eff.fresh_not_known hb (by simp) (e ▸ hw.known)
    have htree : ∀ F, (s1.modPage p F).tree c = F (s1.pages p) := fun F => by
      rw [tree_eq, St.modPage_node, hcp, St.modPage_pages_self]
    refine wp_moveLeaf g (fun h0 hno hok => hno ?_) ?_
    · cases replace
      · simp
        omega
      · simp
    rw [St.modDb_node, St.modDb_tree, hcp, hmt, St.modDb_modPage]
    refine ⟨fun hr => ?_, fun hr => ?_⟩
    · subst hr
      set f : EdBpt E → EdBpt E := fun b => b.copyEnt (s.tree n) 0 0 eidx with hf
      have hmt2 : ((s1.modPage p f).tree n) = s.tree n := by rw [tree_modPage_of_ne f hmp, hmt]
      have hrep := hc.replaced hb hw (fun b => (f b).openedLeaf (s.tree n) eidx) fun _ => rfl
      simp only [Bool.false_eq_true, if_false]
      refine wp_openLeafSlot g (fun hno hok => hno ?_) ?_
      · have := hroom rfl
        rw [St.modDb_tree, hmt2]
        omega
      rw [St.modDb_tree, hmt2, St.modDb_node, St.modPage_node, hcp, St.modDb_modPage,
        St.modPage_modPage]
      refine ⟨_, _, _, some ⟨p, eidx⟩, ⟨hrep, rfl, .inr ?_⟩, by simp, fun _ => ?_⟩
      · rw [St.modPage_node, hcp]
      · rw [htree]
        refine EdBpt.openedLeaf_open hc.type hc.nkeys fun j hj => ?_
        simp only [hf, EdBpt.copyEnt, blit]
        rw [if_pos (by omega)]
        congr 1
        omega
    · obtain rfl : replace = true := by simpa using hr
      have hrep := hc.replaced hb hw (fun b => b.copyEnt (s.tree n) 0 0 g.leafOrder) fun _ => rfl
      refine ⟨_, _, _, some ⟨p, eidx⟩, ⟨hrep, rfl, .inr ?_⟩, fun _ => ?_, by simp⟩
      · rw [St.modPage_node, hcp]
      · rw [htree]
        refine ⟨hc.type, hc.nkeys, fun j hj => ?_⟩
        simp only [EdBpt.copyEnt, blit]
        rw [if_pos (by omega)]
        congr 1
        omega
  · have hown : Owned s n := le_antisymm hx (not_lt.mp hnew)
    refine ⟨fun hr => ?_, fun hr => ?_⟩
    · subst hr
      refine wp_openLeafSlot g (fun hno hok => hno ?_) ?_
      · have := hroom rfl
        omega
      have hrep := Replaced.self hb hw hown hlive (fun b => b.openedLeaf (s.tree n) eidx)
        fun _ => rfl
      refine ⟨_, _, _, (s.txn.db d).entry, ⟨hrep, ?_, .inl ⟨rfl, rfl⟩⟩, by simp, fun _ => ?_⟩
      · exact (St.modDb_entry_self (s := s.modPage _ _) hfind).symm
      · rw [tree_modPage_self]
        exact EdBpt.openedLeaf_open rfl rfl fun _ _ => rfl
    · obtain rfl : replace = true := by simpa using hr
      have hrep := Replaced.self hb hw hown hlive id fun _ => rfl
      rw [St.modPage_id] at hrep
      refine ⟨_, _, _, (s.txn.db d).entry, ⟨hrep, ?_, .inl ⟨rfl, rfl⟩⟩, fun _ => ?_, by simp⟩
      · exact (St.modDb_entry_self hfind).symm
      · exact ⟨rfl, rfl, fun _ _ => rfl⟩

end Expand

/-! ## The leaf goes into the tree -/

variable [EdEntry E]

/-- The branch with the separator in front of the child `i` set to `k`. -/
def EdBpt.withKey (b : EdBpt E) (i k : Nat) : EdBpt E := { b with key := store b.key i k }

/-- The separator in front of the leaf was set to the key of its first entry, or was left alone. -/
inductive Raised (s s' : St E) (c eidx : Nat) : List (Nat × Nat) → Prop
  | same {up : List (Nat × Nat)} (h : s' = s) : Raised s s' c eidx up
  | key {b i : Nat} {rest : List (Nat × Nat)} (h0 : eidx = 0)
      (h : s' = s.modPage (s.node b).page
        fun x => x.withKey (i + 1) (fetch64 ((s.tree c).ent 0))) :
      Raised s s' c eidx ((b, i + 1) :: rest)

section SetLeaf

variable {s : St E} {R : List Nat} {d : EdDb} {c eidx : Nat} {up : List (Nat × Nat)}

theorem setLeafKey_spec (hw : WayOk g s R c up) {P : Prop} [Decidable P] :
    wp (do let x ← getNode c; Prog.when (P ∧ eidx = 0 ∧ 0 < x.pindex) (setLeafKey g c))
      (fun _ s' => Raised s s' c eidx up) X s := by
  unfold setLeafKey branchSetKey
  simp only [wp_bind, wp_getNode, wp_when, wp_get]
  refine ⟨fun ⟨_, h⟩ => ?_, fun _ => .same rfl⟩
  cases up with
  | nil => exact absurd h.2 (by rw [hw.chain.2]; omega)
  | cons x rest =>
    obtain ⟨b, i⟩ := x
    obtain ⟨hbr, hi, -⟩ := hw.head
    have hidx : (s.node c).pindex = i := hw.chain.2.1
    rw [hidx] at h
    obtain ⟨i, rfl⟩ : ∃ j, i = j + 1 := ⟨i - 1, by omega⟩
    have hlt := hbr.lt
    rw [hw.chain.1]
    simp only [hidx, wp_ite, wp_modTree, wp_stuck]
    exact ⟨fun h0 => by omega, fun _ => ⟨fun _ => .key h.1 rfl, fun h0 => absurd h0 (by omega)⟩⟩

/-- `set_leaf`: the leaf is put into the tree, unless a request for pages was refused. -/
theorem setLeaf_spec (hb : Base s R) (hw : WayOk g s R c up) (hown : Owned s c) :
    wp (setLeaf env g d c eidx)
      (fun _ s' => Lost env s' ∨ ∃ s3 up' fresh dead, Hung g s s3 R d c up up' fresh dead ∧
        Raised s3 s' c eidx up')
      (pageExits env False) s := by
  unfold setLeaf
  rw [wp_bind, wp_attempt]
  refine wp_mono (setNodeTop_spec env g d hb hw hown) ?_ ?_ (fun _ _ h => h) id
  · rintro _ s3 ⟨up', fresh, dead, hh⟩
    exact wp_post (setLeafKey_spec g hh.way)
      fun _ s' hr => .inr ⟨s3, up', fresh, dead, hh, hr⟩
  · intro e s3 hl
    simp only [wp_bind, wp_getNode, wp_when]
    exact ⟨fun h => absurd h.1 Bool.false_ne_true, fun _ => .inl hl⟩

theorem setLeaf_owned (hb : Base s R) (hw : WayOk g s R c up) (hown : Owned s c)
    (howned : ∀ x ∈ up, Owned s x.1) {root : Nat}
    (hlink : layout.OnPath s.pages (s.node c).page (pagePath s up) root) :
    wp (setLeaf env g d c eidx)
      (fun _ s' => Raised (s.modDb d fun x => { x with root := some (topNode c up) }) s' c eidx up)
      X s := by
  unfold setLeaf setNodeTop
  rw [wp_bind, wp_attempt, wp_bind, wp_gets]
  refine setNode_owned env g d (hw.length_lt.trans (Nat.lt_succ_self _)) hw hown howned hlink ?_
  exact setLeafKey_spec g (hw.congr (Eff.modDb s d _) hb ⟨rfl, rfl⟩ (fun _ _ => ⟨rfl, rfl⟩)
    (by simp) (by simp))

end SetLeaf

end Eddy
