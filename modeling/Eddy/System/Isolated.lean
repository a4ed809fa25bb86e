import Eddy.Index.Roots
import Eddy.System.Store

/-!
# Eddy — a write transaction beside the committed trees

When the index rests, every page of a committed tree is older than the next write transaction, so the
calls on its trees copy such a page before they change it. What the transaction does becomes visible
by one store of `hdr->vtree`, which holds the roots of both trees.

A process that is killed between the stores of `hdr->vtree` and `hdr->xid` leaves pages that are as new
as the next transaction, which then changes them in place.
-/

namespace Eddy

open Outcome

variable {E : Type} {env : Env E} {g : Geom}

/-! ## What a later transaction reads -/

/-- A transaction that is opened on the file of `s'` reads the trees with the roots `tree` and the
heights `hs`, page by page as they are in `S`. The opening process has its own transaction object
and connection. -/
def Shows (S : Nat → EdBpt E) (tree : EdDb → Option Nat) (hs : EdDb → Nat) (s' : St E) : Prop :=
  ∀ env rdonly s3 s4, s3.pages = s'.pages → s3.hdr = s'.hdr → edTxnOpen env rdonly s3 = .ok () s4 →
    ∀ d, rootNo s4 d = tree d ∧ ∀ p ∈ treePages S (tree d) (hs d), s4.pages p = S p

theorem shows_of_same {S : Nat → EdBpt E} {tree : EdDb → Option Nat} {hs : EdDb → Nat} {s' : St E}
    (htree : s'.hdr.tree = tree)
    (hpages : ∀ d, ∀ p ∈ treePages S (tree d) (hs d), s'.pages p = S p) : Shows S tree hs s' := by
  intro env rdonly s3 s4 h1 h2 hrun d
  have hroots := (wp_ok (edTxnOpen_roots env rdonly s3) hrun).1 d
  have hopen := wp_ok (edTxnOpen_spec env rdonly s3) hrun
  refine ⟨by rw [hroots, h2, htree], fun p hp => ?_⟩
  rw [hopen.pages, h1]
  exact hpages d p hp

/-! ## The transaction -/

section Txns

variable {s s0 s1 : St E} {T : List Nat} {hs : EdDb → Nat}

theorem Unpublished.shows (h : Unpublished T s s1) (hf : Standing g s.pages s.hdr T hs) :
    Shows s.pages s.hdr.tree hs s1 :=
  shows_of_same h.tree fun _ p hp => h.pages p (hf.mem hp)

/-- A close shows what was there before, a commit the roots of the transaction, and a commit that is
killed one of them: the store of the roots is the only one that a reader can see. -/
theorem ended_spec {Old New : St E → Prop} (hne : s1.txn.state ≠ .closed)
    (hold : ∀ s2 : St E, s2.pages = s1.pages ∧ s2.hdr.tree = s1.hdr.tree ∧ s2.hdr.xid = s1.hdr.xid ∧
      s2.hdr.vno = s1.hdr.vno → Old s2)
    (hnew : ∀ s2 : St E, s2.pages = s1.pages → s2.hdr.tree = rootNo s1 → New s2) (reset : Bool) :
    wp (edTxnClose env reset) (fun _ s2 => Old s2) ⟨fun _ _ => False, fun _ s2 => Old s2, False⟩ s1 ∧
    wp (edTxnCommit env reset) (fun _ s2 => New s2)
      ⟨fun _ s2 => Old s2, fun _ s2 => Old s2 ∨ New s2, False⟩ s1 := by
  constructor
  · refine wp_mono (edTxnClose_spec env reset s1) ?_ (fun _ _ h => h) ?_ id
    · rintro _ s2 ⟨locked, -, hc⟩
      exact hold s2 hc.same
    · intro f s2 hc
      exact hold s2 hc.same
  · refine wp_mono (edTxnCommit_spec env reset s1) ?_ ?_ ?_ id
    · rintro _ s2 ⟨-, -, s', locked, hp, -, hc⟩
      exact hnew s2 (hc.pages.trans hp.shown.1) (hc.same.2.1.trans hp.shown.2)
    · rintro _ s2 (⟨h, -⟩ | ⟨-, -, locked, -, hc⟩)
      · exact absurd h hne
      · exact hold s2 hc.same
    · rintro f s2 ⟨-, ⟨-, hc⟩ | ⟨-, hc | ⟨s', hp, hc⟩⟩⟩
      · exact .inl (hold s2 hc.same)
      · cases hc with
        | commitBegin => exact .inl (hold s1 ⟨rfl, rfl, rfl, rfl⟩)
        | activeCleared k => exact .inl (hold _ ⟨rfl, rfl, rfl, rfl⟩)
        | updateTree k => exact .inr (hnew _ rfl rfl)
      · exact .inr (hnew s2 (hc.same.1.trans hp.shown.1) (hc.same.2.1.trans hp.shown.2))

theorem During.isOpen (h : During g s s1 T hs) : s1.txn.state ≠ .closed := by
  rw [h.writing.isOpen]
  decide

variable [EdEntry E]

/-- From an index at rest, the calls on the trees of a write transaction change no page of a committed
tree, and neither a root nor the xid or the vno of the header. After a close every later transaction
reads the old trees, after a commit the trees of the transaction; a commit that is killed shows both
old or both new trees. -/
theorem txn_isolated (h : Rests g s T hs) (hopen : edTxnOpen env false s = .ok () s0)
    (cs : List (Call E)) (hcs : ∀ c ∈ cs, c.onTree = true) {rcs : List (Option EdErr)}
    (hrun : runCalls env g cs s0 = .ok rcs s1) (reset : Bool) :
    Unpublished T s s1 ∧
    wp (edTxnClose env reset)
      (fun _ s2 => Unpublished T s s2 ∧ Shows s.pages s.hdr.tree hs s2)
      ⟨fun _ _ => False, fun _ s2 => Unpublished T s s2 ∧ Shows s.pages s.hdr.tree hs s2, False⟩ s1 ∧
    wp (edTxnCommit env reset)
      (fun _ s2 => s2.hdr.tree = rootNo s1 ∧ ∀ hs', Shows s1.pages (rootNo s1) hs' s2)
      ⟨fun _ s2 => Unpublished T s s2 ∧ Shows s.pages s.hdr.tree hs s2,
        fun _ s2 => (Unpublished T s s2 ∧ Shows s.pages s.hdr.tree hs s2) ∨
          s2.hdr.tree = rootNo s1 ∧ ∀ hs', Shows s1.pages (rootNo s1) hs' s2,
        False⟩ s1 := by
  obtain ⟨hstep, -⟩ := wp_ok (runCalls_spec env g cs hcs (h.opened hopen).1.ready) hrun
  have hd := h.during hopen hstep.step
  refine ⟨hd.unpublished, ended_spec hd.isOpen (fun s2 hsame => ?_) (fun s2 hp ht => ⟨ht, fun hs' => ?_⟩)
    reset⟩
  · have hun := hd.unpublished.of_same hsame
    exact ⟨hun, hun.shows h.standing⟩
  · exact shows_of_same ht fun d p _ => by rw [hp]

/-- A transaction in which a request for pages was refused, or a set failed with
`ED_EINDEX_DUPKEY`, cannot be committed: the commit returns an error and publishes nothing. Its
pages are all accounted for exactly when the close keeps them or may free the others. -/
theorem edTxnCommit_refuses (h : Rests g s T hs) (hopen : edTxnOpen env false s = .ok () s0)
    (cs : List (Call E)) (hcs : ∀ c ∈ cs, c.onTree = true) {rcs : List (Option EdErr)}
    (hrun : runCalls env g cs s0 = .ok rcs s1)
    (hfail : RefusedIn env s0 s1 ∨ DupkeyIn cs rcs) (hlive : ∀ t f, env.kills t f = false)
    (reset : Bool) :
    ∃ s2, edTxnCommit env reset s1 = .err .eindexRdonly s2 ∧ Unpublished T s s2 ∧
      (Accounted s1.txn.pg s2 ↔
        s1.txn.pg.length ≤ keepCount reset ∨ freeRefusedAt env (s1.tick + 3) = false) := by
  obtain ⟨hstep, hdup⟩ := wp_ok (runCalls_spec env g cs hcs (h.opened hopen).1.ready) hrun
  have hd := h.during hopen hstep.step
  have hw := hd.writing
  have hdoomed : Doomed s1 := by
    rcases hfail with ⟨t, h1, h2, h3⟩ | hd
    · exact hstep.noted.refused t h1 h2 h3
    · exact hdup hd
  obtain ⟨⟨⟩, s2, hclose, ⟨locked, hl, hc⟩, hlost⟩ := ok_of_wp
    (wp_and (edTxnClose_spec env reset s1) (edTxnClose_lost env hlive reset hw))
    (fun _ _ h => h.2) (fun _ _ h => h.2) (fun h => h.2)
  have hne : s1.txn.state ≠ .closed := by
    rw [hw.isOpen]
    decide
  obtain rfl := hl.eq_true ⟨hne, hw.wr⟩
  have hro : edTxnIsrdonly s1.txn = true := by
    cases herr : s1.txn.error with
    | none => exact absurd herr hdoomed
    | some e => simp [edTxnIsrdonly, herr]
  have hcommit : edTxnCommit env reset s1 = .err .eindexRdonly s2 := by
    show (if s1.txn.state = .closed then (Prog.throw .eindexTxnClosed : M E Unit)
      else if edTxnIsrdonly s1.txn = true then _ else _) s1 = _
    rw [if_neg hne, if_pos hro]
    show Prog.bind (edTxnClose env reset) _ s1 = _
    unfold Prog.bind
    rw [hclose]
    rfl
  exact ⟨s2, hcommit, hd.unpublished.of_same hc.same, hc.accounted_iff hd.sound hlost⟩

end Txns

/-! ## Small transactions -/

section Small

/-- An insertion into the tree that is one leaf. -/
def insertCalls : List (Call UInt64) := [.find .keys 5, .set .keys 5 false]

theorem firstSt_rests : ∃ T hs, Rests .page4096 firstSt T hs := by
  obtain ⟨T, hs, h, -⟩ := firstSt_served.stored (by decide)
  exact ⟨T, hs, h⟩

/-- An insertion into a tree of one leaf, given up: the next transaction reads the old leaf. -/
theorem txn_isolated_insert : ∃ s0 s1 hs, edTxnOpen Env.calm false firstSt = .ok () s0 ∧
    runCalls Env.calm .page4096 insertCalls s0 = .ok [none, none] s1 ∧
    wp (edTxnClose Env.calm true) (fun _ s2 => Shows firstSt.pages firstSt.hdr.tree hs s2)
      Prog.free s1 := by
  obtain ⟨rcs, hboth, hrcs⟩ := ok_of_returns (show Prog.returns (do
      edTxnOpen Env.calm false
      runCalls Env.calm .page4096 insertCalls) (· = [none, none]) firstSt = true by decide +kernel)
  obtain rfl := of_decide_eq_true hrcs
  obtain ⟨⟨⟩, s0, hopen, hrun⟩ := ok_bind hboth
  generalize Prog.after _ firstSt = s1 at hrun
  obtain ⟨T, hs, h⟩ := firstSt_rests
  obtain ⟨-, hclose, -⟩ := txn_isolated h hopen insertCalls (by decide) hrun true
  exact ⟨s0, s1, hs, hopen, hrun, wp_free hclose fun _ _ h => h.2⟩

/-- The first request of the insertion is refused, and the transaction has no pages to give back. -/
theorem edTxnCommit_refuses_first : ∃ s0 s1 s2 T,
    edTxnOpen (Env.refusing .page 15) false firstSt = .ok () s0 ∧
    runCalls (Env.refusing .page 15) .page4096 insertCalls s0 = .ok [none, some .sys] s1 ∧
    edTxnCommit (Env.refusing .page 15) true s1 = .err .eindexRdonly s2 ∧
    Unpublished T firstSt s2 ∧ Accounted s1.txn.pg s2 := by
  obtain ⟨⟨⟩, hopen, -⟩ := ok_of_returns
    (show (edTxnOpen (Env.refusing .page 15) false).returns (fun _ => true) firstSt = true by
      decide +kernel)
  obtain ⟨rcs, hrun, hrcs⟩ := ok_of_returns
    (show (runCalls (Env.refusing .page 15) .page4096 insertCalls).returns (· = [none, some .sys])
      ((edTxnOpen (Env.refusing .page 15) false).after firstSt) = true by decide +kernel)
  obtain rfl := of_decide_eq_true hrcs
  obtain ⟨T, hs, h⟩ := firstSt_rests
  obtain ⟨s2, hcommit, hun, hacc⟩ := edTxnCommit_refuses h hopen insertCalls (by decide) hrun
    (.inl ⟨15, by decide +kernel, by decide +kernel, rfl⟩) (fun _ _ => rfl) true
  exact ⟨_, _, s2, T, hopen, hrun, hcommit, hun, hacc.mpr (.inl (by decide +kernel))⟩

/-- An environment that refuses the request for pages at time `19` and every call that frees pages. -/
def Env.full : Env UInt64 := { Env.calm with fails := fun r t => r = .free ∨ (r = .page ∧ t = 19) }

/-- The page of the leaf cannot be discarded after the transaction got its pages, and the close
cannot free them: page `14` is in no list. -/
theorem edTxnCommit_loses : ∃ s0 s1 s2, edTxnOpen Env.full false firstSt = .ok () s0 ∧
    runCalls Env.full .page4096 insertCalls s0 = .ok [none, some .sys] s1 ∧
    RefusedIn Env.full s0 s1 ∧ edTxnCommit Env.full false s1 = .err .eindexRdonly s2 ∧
    ¬ Accounted s1.txn.pg s2 := by
  obtain ⟨⟨⟩, hopen, -⟩ := ok_of_returns
    (show (edTxnOpen Env.full false).returns (fun _ => true) firstSt = true by decide +kernel)
  obtain ⟨rcs, hrun, hrcs⟩ := ok_of_returns
    (show (runCalls Env.full .page4096 insertCalls).returns (· = [none, some .sys])
      ((edTxnOpen Env.full false).after firstSt) = true by decide +kernel)
  obtain rfl := of_decide_eq_true hrcs
  obtain ⟨e, s2, hcommit, htest⟩ := err_of_fails
    (show Prog.fails (edTxnCommit Env.full false)
      (fun e s2 => e = .eindexRdonly ∧ 14 ∉ s2.conn.pending ∧ 14 ∉ s2.hdr.free)
      ((runCalls Env.full .page4096 insertCalls).after ((edTxnOpen Env.full false).after firstSt)) =
        true by decide +kernel)
  obtain ⟨rfl, hpend, hfree⟩ := of_decide_eq_true htest
  refine ⟨_, _, s2, hopen, hrun, ⟨19, by decide +kernel, by decide +kernel, rfl⟩, hcommit, fun hacc => ?_⟩
  exact (hacc 14 (by decide +kernel)).elim hpend hfree

/-- The process of the second transaction is killed between the stores of `hdr->vtree` and `hdr->xid`.
The transaction of the next process has the xid of the committed leaf and inserts into it in place. -/
theorem killed_in_place : ∃ sk s s0 s1 s2 p,
    secondTxn.run (Env.killing .updateTree) .page4096 firstSt = .halt .updateTree sk ∧
    Takeover sk s ∧ edTxnOpen Env.calm false s = .ok () s0 ∧
    runCalls Env.calm .page4096 [.find .keys 7, .set .keys 7 false] s0 = .ok [none, none] s1 ∧
    edTxnClose Env.calm true s1 = .ok () s2 ∧ s.hdr.tree .keys = some p ∧
    s2.hdr.tree .keys = some p ∧ (s.pages p).xid = s0.txn.xid ∧ (s.pages p).ents = [5, 9] ∧
    (s1.pages p).ents = [5, 7, 9] ∧ (s2.pages p).ents = [5, 7, 9] := by
  obtain ⟨f, sk, hkill, htest⟩ := halt_of_halts
    (show (secondTxn.run (Env.killing .updateTree) .page4096).halts (fun f sk =>
      let s : St UInt64 := { sk with txn := EdTxn.blank }
      let s0 := (edTxnOpen Env.calm false).after s
      let s1 := (runCalls Env.calm .page4096 [.find .keys 7, .set .keys 7 false]).after s0
      let s2 := (edTxnClose Env.calm true).after s1
      f = .updateTree && (edTxnOpen Env.calm false).returns (fun _ => true) s &&
      (runCalls Env.calm .page4096 [.find .keys 7, .set .keys 7 false]).returns (· = [none, none]) s0 &&
      (edTxnClose Env.calm true).returns (fun _ => true) s1 &&
      s.hdr.tree .keys = some 14 && s2.hdr.tree .keys = some 14 && (s.pages 14).xid = s0.txn.xid &&
      (s.pages 14).ents = [5, 9] && (s1.pages 14).ents = [5, 7, 9] && (s2.pages 14).ents = [5, 7, 9])
      firstSt = true by decide +kernel)
  simp only [Bool.and_eq_true, decide_eq_true_eq] at htest
  obtain ⟨⟨⟨⟨⟨⟨⟨⟨⟨rfl, hopen⟩, hcalls⟩, hclose⟩, htree⟩, htree2⟩, hxid⟩, h1⟩, h2⟩, h3⟩ := htest
  obtain ⟨⟨⟩, hopen, -⟩ := ok_of_returns hopen
  obtain ⟨rcs, hcalls, hrcs⟩ := ok_of_returns hcalls
  obtain ⟨⟨⟩, hclose, -⟩ := ok_of_returns hclose
  obtain rfl := of_decide_eq_true hrcs
  have htake : Takeover sk { sk with txn := EdTxn.blank } := ⟨rfl, rfl, rfl, .inl rfl⟩
  exact ⟨sk, _, _, _, _, 14, hkill, htake, hopen, hcalls, hclose, htree, htree2, hxid, h1, h2, h3⟩

/-- A page of the committed tree is changed, and a close without a commit does not undo it. -/
theorem txn_changes_committed : ∃ sk s s0 s1 s2 p,
    secondTxn.run (Env.killing .updateTree) .page4096 firstSt = .halt .updateTree sk ∧
    Takeover sk s ∧ edTxnOpen Env.calm false s = .ok () s0 ∧
    runCalls Env.calm .page4096 [.find .keys 7, .set .keys 7 false] s0 = .ok [none, none] s1 ∧
    edTxnClose Env.calm true s1 = .ok () s2 ∧ s.hdr.tree .keys = some p ∧
    s2.hdr.tree .keys = some p ∧ s1.pages p ≠ s.pages p ∧ (s.pages p).ents = [5, 9] ∧
    (s2.pages p).ents = [5, 7, 9] := by
  obtain ⟨sk, s, s0, s1, s2, p, hkill, htake, hopen, hcalls, hclose, h1, h2, -, h3, h4, h5⟩ :=
    killed_in_place
  refine ⟨sk, s, s0, s1, s2, p, hkill, htake, hopen, hcalls, hclose, h1, h2, fun heq => ?_, h3, h5⟩
  rw [heq, h3] at h4
  cases h4

end Small

end Eddy
