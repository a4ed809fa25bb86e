import Eddy.Index.Order

/-!
# Eddy — a write transaction at its start

`ed_txn_open` wraps the roots of the committed trees in nodes; no page is taken and none is noted for
removal.
-/

namespace Eddy

open Outcome Slots PageTree List

variable {E : Type}

/-- A write transaction that was just opened on the pages `T`, with trees of the heights `hs`. -/
structure Started (g : Geom) (s : St E) (R T : List Nat) (hs : EdDb → Nat) : Prop where
  writing : Writing s
  pgOk : PgOk s.txn
  sound : Sound s R
  unused : s.txn.npgused = 0
  gc : s.txn.gc = []
  node : ∀ n, n < s.txn.nused → (s.node n).parent = none ∧ (s.node n).pindex = 0 ∧
    (s.node n).gc = false
  root : ∀ d r, (s.txn.db d).root = some r → r < s.txn.nused
  find : ∀ d, (s.txn.db d).find = (s.txn.db d).root
  entry : ∀ d, (s.txn.db d).entry = none
  hasfind : ∀ d, (s.txn.db d).hasfind = false
  shaped : ∀ d, Shaped s.pages (rootNo s d) (hs d) g
  account : (ownPages s hs .keys ++ ownPages s hs .blocks).Perm T
  sub : T.Subperm R
  old : ∀ p ∈ T, (s.pages p).xid < s.txn.xid

theorem Started.txnOk {g : Geom} {s : St E} {R T : List Nat} {hs : EdDb → Nat}
    (h : Started g s R T hs) : TxnOk g s R T hs := by
  have hused : s.txn.used = [] := by rw [EdTxn.used, h.unused, take_zero]
  exact {
    base := {
      writing := h.writing
      pgOk := h.pgOk
      sound := h.sound
      flag := fun n hn hgc => by
        rw [(h.node n hn).2.2] at hgc
        cases hgc
      gcKnown := by simp [h.gc] }
    good := {
      parent := fun n hn p hp => by
        rw [(h.node n hn).1] at hp
        cases hp
      root := h.root
      find := fun d n hn => h.root d n (h.find d ▸ hn)
      entry := fun d e he => by
        rw [h.entry d] at he
        cases he }
    shaped := h.shaped
    cursor := fun d => by
      refine ⟨fun h0 => (h.find d).trans h0, fun r hr => ?_⟩
      have hlt := h.root d r hr
      obtain ⟨hpar, hidx, -⟩ := h.node r hlt
      refine ⟨r, [], (h.find d).trans hr, ⟨⟨hpar, hidx⟩, hlt, by simp, rfl, rfl⟩, Nat.zero_le _, ?_⟩
      intro hf
      rw [h.hasfind d] at hf
      cases hf
    account := by
      rw [h.gc, hused, append_nil, append_nil]
      exact h.account
    sub := h.sub
    old := h.old
    own := by simp [hused] }

theorem Started.ready {g : Geom} {s : St E} {R T : List Nat} {hs : EdDb → Nat}
    (h : Started g s R T hs) : Ready s := ⟨h.writing, h.pgOk, h.txnOk.good⟩

/-! ## A tree that is one leaf -/

theorem calm_grants : ¬ Refused Env.calm := fun ⟨_, h⟩ => by cases h

/-- A leaf page of an earlier transaction. -/
def EdBpt.leafOf (es : List UInt64) : EdBpt UInt64 :=
  { EdBpt.zero with type := .leaf, nkeys := es.length, ent := fun i => es.getD i 0 }

/-- A write transaction on an index whose tree of keys is the leaf with the entries `es`, on page 2,
and whose other tree is empty. -/
def leafSt (es : List UInt64) : St UInt64 where
  pages p := if p = 2 then EdBpt.leafOf es else EdBpt.zero
  hdr := {
    xid := 1, vno := 0, tree := fun d => if d = .keys then some 2 else none, active := [], gcs := []
    tailStart := 3, tailCount := 16 }
  conn := { xid := 1, pending := [] }
  txn := { EdTxn.blank with
    nodes := fun _ => ⟨2, none, 0, false⟩
    nused := 1
    xid := 2
    state := .open
    db := fun d => EdTxnDb.reset (if d = .keys then some 0 else none) false }
  lck := true
  busy := false
  lost := []
  tick := 0

theorem ents_leafOf (es : List UInt64) : (EdBpt.leafOf es).ents = es := by
  refine (eq_slots rfl fun i hi => ?_).symm
  rw [List.getElem?_eq_getElem hi]
  simp [EdBpt.leafOf, getD_eq_getElem?_getD, hi]

theorem leafSt_started (g : Geom) (es : List UInt64) :
    Started g (leafSt es) [2] [2] fun _ => 0 where
  writing := ⟨rfl, rfl⟩
  pgOk := ⟨le_rfl, le_rfl⟩
  sound := by
    constructor
    · show ([2] ++ [] ++ ([] ++ List.range' 3 16)).Nodup
      decide
    · show ∀ p ∈ [2] ++ [] ++ ([] ++ List.range' 3 16), p < 3 + 16
      decide
  unused := rfl
  gc := rfl
  node _ _ := ⟨rfl, rfl, rfl⟩
  root d r hr := by
    cases d with
    | keys =>
      cases hr
      exact Nat.zero_lt_one
    | blocks => cases hr
  find _ := rfl
  entry _ := rfl
  hasfind _ := rfl
  shaped d := by
    cases d with
    | keys => exact ⟨fun q hq => absurd hq (not_mem_nil), fun q hq => by
        rw [mem_singleton.mp hq]
        rfl⟩
    | blocks => exact .none ..
  account := List.Perm.refl _
  sub := List.Subperm.refl _
  old p hp := by
    rw [mem_singleton.mp hp]
    exact Nat.zero_lt_two

theorem leafSt_treeOk {g : Geom} {es : List UInt64} (hs : es.Pairwise fun a b => fetch64 a ≤ fetch64 b)
    (hl : es.length ≤ g.leafOrder) : TreeOk g (leafSt es).pages (rootNo (leafSt es) .keys) 0 := by
  intro p hp
  cases hp
  refine LeafOk.of_list hl ?_ fun e _ => ⟨Nat.zero_le _, EdEntry.fetch64_lt e⟩
  show Multimap.Sorted fetch64 (EdBpt.leafOf es).ents
  rw [ents_leafOf]
  exact hs

end Eddy
