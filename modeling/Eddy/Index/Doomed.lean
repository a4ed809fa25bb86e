import Eddy.Index.Nodes
import Eddy.Index.Near

/-!
# Eddy — refused requests and doomed transactions

A request for memory, a mapping or a page that the operating system refuses leaves an error code
in the transaction. `set_leaf` and `insert_into_parent` ignore the result of `set_node`, so a call
may return normally although the tree was not put together; but the error code stays, and
`ed_txn_commit` refuses the transaction.
-/

namespace Eddy

open Outcome Slots

variable {E : Type} (env : Env E) {s s' s'' : St E}

/-- Some request for pages is refused. -/
def Refused : Prop := ∃ t, env.fails .page t = true

/-- The transaction has an error code. -/
def Doomed (s : St E) : Prop := s.txn.error ≠ none

/-- A request for pages was refused, and the transaction knows. -/
def Lost (s : St E) : Prop := Doomed s ∧ Refused env

theorem Near.doomed (h : Near s s') (hd : Doomed s) : Doomed s' := h.error hd

/-! ## Why a call for pages fails -/

/-- The exits of a call that fails only when a request is refused. -/
def refusedExits : Exits EdErr EdFault (St E) where
  err _ _ := Refused env
  halt _ _ := False
  stuck := True

theorem mapEndPages_refused (n : Nat) (s : St E) :
    wp (mapEndPages env .page n) (fun _ _ => True) (refusedExits env) s := by
  unfold mapEndPages
  simp only [wp_ite, wp_pure', wp_bind, wp_modHdr, wp_sysFails,
    wp_throw, wp_gets]
  exact ⟨fun _ => trivial, fun _ => ⟨fun h => ⟨_, h⟩, fun _ => trivial⟩⟩

theorem edAlloc_refused (n : Nat) (s : St E) :
    wp (edAlloc env n) (fun _ _ => True) (refusedExits env) s := by
  unfold edAlloc
  simp only [wp_ite, wp_pure', wp_bind, wp_sysFails, wp_throw, wp_get]
  refine ⟨fun _ => trivial, fun _ => ⟨fun h => ⟨_, h⟩, fun _ => ?_⟩⟩
  exact wp_post (mapEndPages_refused env _ _) fun _ _ _ => trivial

theorem edTxnGrow_refused (s : St E) :
    wp (edTxnGrow env) (fun _ _ => True) (refusedExits env) s := by
  unfold edTxnGrow
  simp only [wp_bind, wp_gets, wp_sysFails, wp_ite, wp_txnError, wp_modTxn,
    wp_attempt]
  refine ⟨fun h => ⟨_, h⟩, fun _ => ?_⟩
  exact wp_post (edAlloc_refused env _ _) fun _ _ _ => trivial

theorem wrapNext_refused (s : St E) (par : Option Nat) (pidx : Nat) :
    wp (wrapNext env par pidx) (fun _ _ => True) (refusedExits env) s := by
  unfold wrapNext
  simp only [wp_bind, wp_gets, wp_sysFails, wp_ite, wp_txnError]
  refine ⟨fun h => ⟨_, h⟩, fun _ => ?_⟩
  cases s.txn.pg[s.txn.npgused]? with
  | none => exact trivial
  | some no => exact trivial

theorem edTxnAlloc_refused (hw : Writing s) (par : Option Nat) (pidx : Nat) :
    wp (edTxnAlloc env par pidx) (fun _ _ => True) (refusedExits env) s := by
  unfold edTxnAlloc
  rw [wp_bind, wp_edTxnCheckWr hw, wp_bind, wp_gets, wp_bind, wp_when]
  exact ⟨fun _ => wp_post (edTxnGrow_refused env s) fun _ s1 _ => wrapNext_refused env s1 _ _,
    fun _ => wrapNext_refused env s _ _⟩

theorem edTxnMap_refused (s : St E) (no : Nat) (par : Option Nat) (pidx : Nat) :
    wp (edTxnMap env no par pidx) (fun _ _ => True) (refusedExits env) s := by
  unfold edTxnMap
  rw [wp_bind, wp_gets]
  cases nodeOf s.txn.nodes no s.txn.nused with
  | some n => exact trivial
  | none =>
    simp only [wp_bind, wp_sysFails, wp_ite, wp_txnError]
    exact ⟨fun h => ⟨_, h⟩, fun _ => trivial⟩

theorem edTxnDiscard_refused (hw : Writing s) (n : Nat) :
    wp (edTxnDiscard env n) (fun _ _ => True) (refusedExits env) s := by
  unfold edTxnDiscard
  rw [wp_bind, wp_edTxnCheckWr hw]
  simp only [wp_bind, wp_getNode, wp_ite, wp_sysFails, wp_pure', wp_txnError]
  exact ⟨fun _ => trivial, fun _ => ⟨fun h => ⟨_, h⟩, fun _ => trivial⟩⟩

theorem edTxnClone_refused (hw : Writing s) (hok : PgOk s.txn) (n : Nat) :
    wp (edTxnClone env n) (fun _ _ => True) (refusedExits env) s := by
  unfold edTxnClone
  rw [wp_bind, wp_getNode, wp_bind]
  refine wp_mono (wp_and (edTxnAlloc_spec env s hw hok _ _)
    (edTxnAlloc_refused env hw _ _)) ?_ (fun _ _ h => h.2) (fun _ _ h => h.2) fun h => h.2
  rintro copy s1 ⟨⟨rfl, new, p, ht⟩, -⟩
  simp only [wp_bind, wp_getTree, wp_modTree, wp_attempt]
  exact wp_post (edTxnDiscard_refused env ((ht.writing hw).modPage _ _) n)
    fun _ _ _ => trivial

/-! ## Refused requests are noted -/

/-- Time went on, and an error code stayed. -/
structure Later (s s' : St E) : Prop where
  tick : s.tick ≤ s'.tick
  error : Doomed s → Doomed s'

/-- Every request for pages that was refused between two states left an error code. -/
structure Noted (s s' : St E) : Prop extends Later s s' where
  refused : ∀ t, s.tick ≤ t → t < s'.tick → env.fails .page t = true → Doomed s'

theorem Later.trans (a : Later s s') (b : Later s' s'') : Later s s'' :=
  ⟨a.tick.trans b.tick, fun h => b.error (a.error h)⟩

variable {env} in
theorem Noted.trans (a : Noted env s s') (b : Noted env s' s'') :
    Noted env s s'' where
  toLater := a.toLater.trans b.toLater
  refused t h1 h2 h3 := by
    by_cases h : t < s'.tick
    · exact b.error (a.refused t h1 h h3)
    · exact b.refused t (Nat.not_lt.mp h) h2 h3

theorem Noted.of_tick_eq (ht : s'.tick = s.tick) (he : Doomed s → Doomed s') :
    Noted env s s' where
  tick := ht.ge
  error := he
  refused t h1 h2 := by omega

theorem Noted.refl (s : St E) : Noted env s s := Noted.of_tick_eq env rfl id

theorem Noted.of_doomed (ht : s.tick ≤ s'.tick) (hd : Doomed s') : Noted env s s' :=
  ⟨⟨ht, fun _ => hd⟩, fun _ _ _ _ => hd⟩

variable {env} in
theorem Noted.granted (h : ¬ env.fails .page s.tick = true) (ht : s'.tick = s.tick + 1)
    (he : Doomed s → Doomed s') : Noted env s s' where
  tick := by omega
  error := he
  refused t h1 h2 h3 := by
    have hnow : t = s.tick := by omega
    exact absurd (hnow ▸ h3) h

theorem Noted.then (h : Noted env s s') (ht : s''.tick = s'.tick) (he : Doomed s' → Doomed s'') :
    Noted env s s'' :=
  h.trans (Noted.of_tick_eq env ht he)

theorem Noted.of_error (h : s.tick ≤ s'.tick) (e : EdErr) :
    Noted env s (s'.modTxn fun t => { t with error := some e }) :=
  Noted.of_doomed env h (Option.some_ne_none e)

/-- The exits of a call that leaves its refused request to the caller. -/
def laterExits (s : St E) : Exits EdErr EdFault (St E) where
  err _ s' := Later s s'
  halt _ _ := False
  stuck := True

/-- The exits of a call that notes its refused requests. -/
def notedExits (s : St E) : Exits EdErr EdFault (St E) where
  err _ s' := Noted env s s'
  halt _ _ := False
  stuck := True

theorem mapEndPages_noted (n : Nat) (s : St E) :
    wp (mapEndPages env .page n) (fun _ s' => Noted env s s') (laterExits s) s := by
  unfold mapEndPages
  simp only [wp_ite, wp_pure', wp_bind, wp_modHdr, wp_sysFails, wp_throw,
    wp_gets]
  refine ⟨fun _ => Noted.refl env s, fun _ => ⟨fun _ => ⟨Nat.le_succ _, id⟩, fun hgrant => ?_⟩⟩
  exact Noted.granted (s := s) hgrant rfl id

theorem edAlloc_noted (n : Nat) (s : St E) :
    wp (edAlloc env n) (fun _ s' => Noted env s s') (laterExits s) s := by
  unfold edAlloc
  simp only [wp_ite, wp_pure', wp_bind, wp_sysFails, wp_throw, wp_get,
    wp_modHdr, wp_modify]
  refine ⟨fun _ => Noted.refl env s, fun _ => ⟨fun _ => ⟨Nat.le_succ _, id⟩, fun hgrant => ?_⟩⟩
  have hfirst : Noted env s (s.atTick (s.tick + 1)) := Noted.granted hgrant rfl id
  refine wp_mono (mapEndPages_noted env _ _) ?_ ?_ (fun _ _ h => h) id
  · intro _ s' h
    exact (hfirst.trans h).then env rfl id
  · intro _ s' h
    exact hfirst.toLater.trans h

theorem edTxnGrow_noted (s : St E) :
    wp (edTxnGrow env) (fun _ s' => Noted env s s') (notedExits env s) s := by
  unfold edTxnGrow
  simp only [wp_bind, wp_gets, wp_sysFails, wp_ite, wp_txnError, wp_modTxn,
    wp_attempt]
  refine ⟨fun _ => Noted.of_error env (Nat.le_succ s.tick) _, fun hgrant => ?_⟩
  refine wp_mono (edAlloc_noted env _ _) ?_ ?_ (fun _ _ h => h) id
  · intro pgs s' h
    have hall : Noted env s s' := by
      refine Noted.trans ?_ h
      exact Noted.granted hgrant rfl id
    exact hall.then env rfl id
  · intro e s' h
    exact Noted.of_error env ((Nat.le_succ s.tick).trans h.tick) e

theorem wrapNext_noted (s : St E) (par : Option Nat) (pidx : Nat) :
    wp (wrapNext env par pidx) (fun _ s' => Noted env s s') (notedExits env s) s := by
  unfold wrapNext
  simp only [wp_bind, wp_gets, wp_sysFails, wp_ite, wp_txnError]
  refine ⟨fun _ => Noted.of_error env (Nat.le_succ s.tick) _, fun hgrant => ?_⟩
  cases s.txn.pg[s.txn.npgused]? with
  | none => exact trivial
  | some no => exact Noted.granted (s := s) hgrant rfl id

theorem edTxnCheckWr_noted (s : St E) :
    wp edTxnCheckWr (fun _ s' => s' = s) (notedExits env s) s := by
  unfold edTxnCheckWr
  simp only [wp_bind, wp_gets, wp_ite, wp_throw, wp_pure']
  exact ⟨fun _ => Noted.refl env s, fun _ => ⟨fun _ => Noted.refl env s, fun _ => trivial⟩⟩

theorem edTxnAlloc_noted (s : St E) (par : Option Nat) (pidx : Nat) :
    wp (edTxnAlloc env par pidx) (fun _ s' => Noted env s s') (notedExits env s) s := by
  unfold edTxnAlloc
  rw [wp_bind]
  refine wp_post (edTxnCheckWr_noted env s) ?_
  rintro _ s0 rfl
  rw [wp_bind, wp_gets, wp_bind, wp_when]
  refine ⟨fun _ => ?_, fun _ => wrapNext_noted env s0 par pidx⟩
  refine wp_post (edTxnGrow_noted env s0) ?_
  intro _ s1 h1
  exact wp_mono (wrapNext_noted env s1 par pidx) (fun _ _ h => h1.trans h)
    (fun _ _ h => h1.trans h) (fun _ _ h => h) id

theorem edTxnMap_noted (s : St E) (no : Nat) (par : Option Nat) (pidx : Nat) :
    wp (edTxnMap env no par pidx) (fun _ s' => Noted env s s') (notedExits env s) s := by
  unfold edTxnMap
  rw [wp_bind, wp_gets]
  cases nodeOf s.txn.nodes no s.txn.nused with
  | some n => exact Noted.of_tick_eq env rfl id
  | none =>
    simp only [wp_bind, wp_sysFails, wp_ite, wp_txnError]
    refine ⟨fun _ => Noted.of_error env (Nat.le_succ s.tick) _, fun hgrant => ?_⟩
    exact Noted.granted (s := s) hgrant rfl id

theorem edTxnDiscard_noted (s : St E) (n : Nat) :
    wp (edTxnDiscard env n) (fun _ s' => Noted env s s') (notedExits env s) s := by
  unfold edTxnDiscard
  rw [wp_bind]
  refine wp_post (edTxnCheckWr_noted env s) ?_
  rintro _ s0 rfl
  simp only [wp_bind, wp_getNode, wp_ite, wp_sysFails, wp_pure', wp_txnError,
    wp_modTxn, wp_modNode]
  refine ⟨fun _ => Noted.refl env s0, fun _ => ⟨fun _ => ?_, fun hgrant => ?_⟩⟩
  · exact Noted.of_error env (Nat.le_succ s0.tick) _
  · exact Noted.granted hgrant rfl id

variable {env} in
theorem Noted.preserves {α : Type} {x : M E α} (s0 : St E)
    (h : ∀ s, wp x (fun _ s' => Noted env s s') (notedExits env s) s) :
    Preserves (Noted env s0) x := fun s hs =>
  wp_mono (h s) (fun _ _ hn => hs.trans hn) (fun _ _ hn => hs.trans hn)
    (fun _ _ hf => hf.elim) id

/-- The functions that read or change a tree note every refused request. -/
theorem Noted.writeInv (s0 : St E) : WriteInv env (Noted env s0) where
  map no par pidx := Noted.preserves s0 fun s => edTxnMap_noted env s no par pidx
  error _ e h := h.then env rfl fun _ => Option.some_ne_none e
  db _ _ h := h.then env rfl id
  alloc par pidx := Noted.preserves s0 fun s => edTxnAlloc_noted env s par pidx
  discard n := Noted.preserves s0 fun s => edTxnDiscard_noted env s n
  unuse _ h := h.then env rfl id
  node _ _ _ h := h.then env rfl id
  page _ _ _ h := h.then env rfl id

end Eddy
