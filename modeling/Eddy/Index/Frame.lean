import Eddy.Index.Nodes
import Eddy.Index.Near

/-!
# Eddy — copy-on-write: what an open write transaction leaves alone

A page that was written by an earlier transaction has a smaller xid than the running one. Every
function of `bpt.c` clones such a page before it stores into it, so the only pages whose bytes
change are pages the transaction reserved itself and pages that already carry its xid. There is one
lemma for each function.

Undefined behaviour satisfies every statement of this module: it ends the process.
-/

namespace Eddy

open Outcome Slots List

variable {E : Type} {s s' s1 : St E} {n no pidx : Nat} {par : Option Nat}

/-- What holds between the states before and after an operation of an open transaction. -/
structure Step (s s' : St E) : Prop where
  fixed : s'.fixed = s.fixed
  pages : ∀ p, (s.pages p).xid < s.txn.xid → p ∉ s'.txn.pg → s'.pages p = s.pages p
  xids : ∀ p, s.txn.xid ≤ (s.pages p).xid → p ∉ s'.txn.pg → s.txn.xid ≤ (s'.pages p).xid
  reserve : ∃ new, s'.txn.pg = s.txn.pg ++ new ∧ Moves s.hdr s'.hdr new [] ∧
    s'.hdr.active.Sublist (s.hdr.active ++ new)
  pgOk : PgOk s.txn → PgOk s'.txn
  nused : s.txn.nused ≤ s'.txn.nused
  node : ∀ n, n < s.txn.nused → (s'.node n).page = (s.node n).page
  error : s.txn.error ≠ none → s'.txn.error ≠ none

namespace Step

variable {s s' s'' : St E}

theorem txid (h : Step s s') : s'.txn.xid = s.txn.xid := (congrArg Fixed.txid h.fixed :)

theorem writing (h : Step s s') (hw : Writing s) : Writing s' :=
  ⟨(congrArg Fixed.state h.fixed :).trans hw.isOpen,
    (congrArg Fixed.isrdonly h.fixed :).trans hw.wr⟩

theorem mem_pg (h : Step s s') {p : Nat} (hp : p ∈ s.txn.pg) : p ∈ s'.txn.pg := by
  obtain ⟨new, hpg, -⟩ := h.reserve
  rw [hpg]
  exact mem_append_left _ hp

theorem refl (s : St E) : Step s s where
  fixed := rfl
  pages _ _ _ := rfl
  xids _ h _ := h
  reserve := ⟨[], by simp, Moves.refl _, by simp⟩
  pgOk h := h
  nused := le_refl _
  node _ _ := rfl
  error h := h

theorem trans (a : Step s s') (b : Step s' s'') : Step s s'' where
  fixed := b.fixed.trans a.fixed
  pages p hx hp := by
    have hp' : p ∉ s'.txn.pg := fun h => hp (b.mem_pg h)
    have h1 := a.pages p hx hp'
    rw [b.pages p (by rw [h1, a.txid]; exact hx) hp, h1]
  xids p hx hp := by
    have hp' : p ∉ s'.txn.pg := fun h => hp (b.mem_pg h)
    have h1 := a.xids p hx hp'
    rw [← a.txid] at h1 ⊢
    exact b.xids p h1 hp
  reserve := by
    obtain ⟨n1, h1, m1, a1⟩ := a.reserve
    obtain ⟨n2, h2, m2, a2⟩ := b.reserve
    refine ⟨n1 ++ n2, by rw [h2, h1, append_assoc], m1.trans m2, ?_⟩
    rw [← append_assoc]
    exact a2.trans (a1.append_right n2)
  pgOk h := b.pgOk (a.pgOk h)
  nused := a.nused.trans b.nused
  node n hn := by rw [b.node n (hn.trans_le a.nused), a.node n hn]
  error h := b.error (a.error h)

theorem modTxn (s : St E) (f : EdTxn → EdTxn) (hxid : (f s.txn).xid = s.txn.xid)
    (hvno : (f s.txn).vno = s.txn.vno) (hstate : (f s.txn).state = s.txn.state)
    (hrd : (f s.txn).isrdonly = s.txn.isrdonly) (hpg : (f s.txn).pg = s.txn.pg)
    (hok : PgOk s.txn → PgOk (f s.txn)) (hnused : s.txn.nused ≤ (f s.txn).nused)
    (hnode : ∀ n, n < s.txn.nused → ((f s.txn).nodes n).page = (s.txn.nodes n).page)
    (herr : s.txn.error ≠ none → (f s.txn).error ≠ none) : Step s (s.modTxn f) where
  fixed := by simp [St.fixed, hxid, hvno, hstate, hrd]
  pages _ _ _ := rfl
  xids _ h _ := h
  reserve := ⟨[], by simp [hpg], Moves.refl _, by simp⟩
  pgOk := hok
  nused := hnused
  node := hnode
  error := herr

theorem modPage (s : St E) (p : Nat) (f : EdBpt E → EdBpt E)
    (hp : s.txn.xid ≤ (s.pages p).xid ∨ p ∈ s.txn.pg) (hf : ∀ b, (f b).xid = b.xid) :
    Step s (s.modPage p f) where
  fixed := rfl
  pages q hx hq := by
    refine St.modPage_pages_of_ne s f ?_
    rintro rfl
    rcases hp with hp | hp
    · omega
    · exact hq hp
  xids q hx _ := by
    by_cases hqp : q = p
    · rw [hqp, St.modPage_pages_self, hf, ← hqp]
      exact hx
    · rw [St.modPage_pages_of_ne s f hqp]
      exact hx
  reserve := ⟨[], by simp, Moves.refl _, by simp⟩
  pgOk h := h
  nused := le_refl _
  node _ _ := rfl
  error h := h

theorem modDb (s : St E) (d : EdDb) (f : EdTxnDb → EdTxnDb) : Step s (s.modDb d f) :=
  modTxn s _ rfl rfl rfl rfl rfl (fun h => ⟨h.used_le, h.slot_ge⟩) (le_refl _) (fun _ _ => rfl) id

theorem modNode (s : St E) (n : Nat) (f : EdNode → EdNode)
    (hf : (f (s.node n)).page = (s.node n).page) : Step s (s.modNode n f) := by
  refine modTxn s _ rfl rfl rfl rfl rfl (fun h => ⟨h.used_le, h.slot_ge⟩) (le_refl _)
    (fun m _ => ?_) id
  by_cases hm : m = n
  · simp only [hm, if_true]
    exact hf
  · simp [hm]

theorem atTick (s : St E) (t : Nat) : Step s (s.atTick t) :=
  { refl s with fixed := rfl, pages := fun _ _ _ => rfl }

end Step

/-! ## Well-formed node indices and cursors -/

/-- Node indices are in range, and the entry pointer of a cursor points into the page of its
leaf. -/
structure Good (s : St E) : Prop where
  parent : ∀ n, n < s.txn.nused → ∀ p, (s.node n).parent = some p → p < s.txn.nused
  root : ∀ d n, (s.txn.db d).root = some n → n < s.txn.nused
  find : ∀ d n, (s.txn.db d).find = some n → n < s.txn.nused
  entry : ∀ d e, (s.txn.db d).entry = some e →
    ∃ n, (s.txn.db d).find = some n ∧ e.page = (s.node n).page

/-- The page of the node `n` may be changed by the running transaction. -/
structure CanWrite (s : St E) (n : Nat) : Prop where
  lt : n < s.txn.nused
  page : s.txn.xid ≤ (s.tree n).xid ∨ (s.node n).page ∈ s.txn.pg

theorem CanWrite.mono (h : CanWrite s n) (hs : Step s s') : CanWrite s' n := by
  refine ⟨h.lt.trans_le hs.nused, ?_⟩
  have hpage : (s'.node n).page = (s.node n).page := hs.node n h.lt
  unfold St.tree
  have hpage' : (s'.txn.nodes n).page = (s.txn.nodes n).page := hpage
  rw [hpage, hpage', hs.txid]
  by_cases hmem : (s.node n).page ∈ s'.txn.pg
  · exact .inr hmem
  · rcases h.page with hx | hin
    · exact .inl (hs.xids _ hx hmem)
    · exact .inr (hs.mem_pg hin)

/-- A transaction whose operations are followed: open for writing and well formed. -/
structure Ready (s : St E) : Prop where
  writing : Writing s
  pgOk : PgOk s.txn
  good : Good s

theorem Ready.step (h : Ready s) (hs : Step s s') (hg : Good s') : Ready s' :=
  ⟨hs.writing h.writing, hs.pgOk h.pgOk, hg⟩

/-- The parent of the node `m`, if it has one, may be changed. -/
def ParentOwned (s : St E) (m : Nat) : Prop := ∀ p, (s.node m).parent = some p → CanWrite s p

/-- The leaf of the cursor, if it has one, may be changed. -/
def FindOwned (s : St E) (d : EdDb) : Prop := ∀ n, (s.txn.db d).find = some n → CanWrite s n

/-- What a function that changes pages leaves behind: nodes whose parent could be changed still
have such a parent, and so it is with the leaves of the cursors. -/
structure Keeps (s s' : St E) : Prop where
  step : Step s s'
  good : Good s'
  owned : ∀ m, m < s.txn.nused → ParentOwned s m → ParentOwned s' m
  found : ∀ d, FindOwned s d → FindOwned s' d

theorem Keeps.refl (hg : Good s) : Keeps s s :=
  ⟨Step.refl s, hg, fun _ _ h => h, fun _ h => h⟩

theorem Keeps.trans {s'' : St E} (a : Keeps s s') (b : Keeps s' s'') : Keeps s s'' :=
  ⟨a.step.trans b.step, b.good,
    fun m hm h => b.owned m (hm.trans_le a.step.nused) (a.owned m hm h),
    fun d h => b.found d (a.found d h)⟩

theorem Keeps.of_parents (hs : Step s s') (hg : Good s')
    (h : ∀ m, m < s.txn.nused → (s'.node m).parent = (s.node m).parent)
    (hfind : ∀ d, (s'.txn.db d).find = (s.txn.db d).find) : Keeps s s' := by
  refine ⟨hs, hg, fun m hm ho p hp => ?_, fun d ho n hn => ?_⟩
  · rw [h m hm] at hp
    exact (ho p hp).mono hs
  · rw [hfind d] at hn
    exact (ho n hn).mono hs

theorem Ready.keeps (h : Ready s) (k : Keeps s s') : Ready s' := h.step k.step k.good

/-- An operation failed: it left an error in the transaction. -/
structure Failed (s s' : St E) : Prop extends Keeps s s' where
  error : s'.txn.error ≠ none

/-- The exits of a function that is followed from the state `s`. -/
def keepExits (s : St E) : Exits EdErr EdFault (St E) where
  err _ s' := Failed s s'
  halt _ _ := False
  stuck := True

theorem wp_keep {α : Type} {x : M E α} {Q Q' : α → St E → Prop} (h : wp x Q (keepExits s1) s1)
    (hs : Keeps s s1) (hQ : ∀ a s', Q a s' → Q' a s') : wp x Q' (keepExits s) s1 :=
  wp_mono h hQ (fun _ _ hf => ⟨hs.trans hf.toKeeps, hf.error⟩) (fun _ _ hf => hf) id

/-! ## Reserving, mapping and cloning pages -/

theorem Grow.step {new : List Nat} (h : Grow s s' new)
    (herr : s.txn.error ≠ none → s'.txn.error ≠ none) : Step s s' where
  fixed := by
    have h1 : s'.txn.xid = s.txn.xid := (congrArg EdTxn.xid h.txn :)
    have h2 : s'.txn.vno = s.txn.vno := (congrArg EdTxn.vno h.txn :)
    have h3 : s'.txn.state = s.txn.state := (congrArg EdTxn.state h.txn :)
    have h4 : s'.txn.isrdonly = s.txn.isrdonly := (congrArg EdTxn.isrdonly h.txn :)
    simp [St.fixed, h.conn, h.lck, h.busy, h.lost, h1, h2, h3, h4, h.tree, h.xid, h.vno]
  pages p _ hp := by
    refine h.pages p fun hn => hp ?_
    rw [(congrArg EdTxn.pg h.txn :)]
    exact mem_append_right _ hn
  xids p hx hp := by
    rw [h.pages p fun hn => hp ?_]
    · exact hx
    · rw [(congrArg EdTxn.pg h.txn :)]
      exact mem_append_right _ hn
  reserve := by
    obtain ⟨k, hk⟩ := h.active
    refine ⟨new, (congrArg EdTxn.pg h.txn :), h.moves, ?_⟩
    rw [hk]
    exact (take_sublist _ _).append_left _
  pgOk hok := by
    refine ⟨?_, h.slot_ge⟩
    have h1 : s'.txn.npgused = s.txn.npgused := (congrArg EdTxn.npgused h.txn :)
    have h2 : s'.txn.pg = s.txn.pg ++ new := (congrArg EdTxn.pg h.txn :)
    rw [h1, h2, length_append]
    have := hok.used_le
    omega
  nused := le_of_eq (congrArg EdTxn.nused h.txn :).symm
  node n _ := (congrArg (fun t : EdTxn => (t.nodes n).page) h.txn :)
  error := herr

theorem Good.addNode (hg : Good s) {x : EdNode}
    (hnodes : ∀ m, s'.node m = if m = s.txn.nused then x else s.node m)
    (hnused : s'.txn.nused = s.txn.nused + 1) (hdb : s'.txn.db = s.txn.db)
    (hpar : ∀ p, x.parent = some p → p < s.txn.nused) : Good s' := by
  constructor
  · intro n hn p hp
    rw [hnodes] at hp
    rw [hnused]
    split at hp
    · exact (hpar p hp).trans (Nat.lt_succ_self _)
    · rename_i hne
      exact (hg.parent n (by omega) p hp).trans (Nat.lt_succ_self _)
  · intro d n hn
    rw [hdb] at hn
    rw [hnused]
    exact (hg.root d n hn).trans (Nat.lt_succ_self _)
  · intro d n hn
    rw [hdb] at hn
    rw [hnused]
    exact (hg.find d n hn).trans (Nat.lt_succ_self _)
  · intro d e he
    rw [hdb] at he ⊢
    obtain ⟨n, hn, hpage⟩ := hg.entry d e he
    refine ⟨n, hn, ?_⟩
    rw [hnodes, if_neg (hg.find d n hn).ne]
    exact hpage

theorem Good.modNode (hg : Good s) (n : Nat) (f : EdNode → EdNode)
    (hpage : (f (s.node n)).page = (s.node n).page)
    (hpar : n < s.txn.nused → ∀ p, (f (s.node n)).parent = some p → p < s.txn.nused) :
    Good (s.modNode n f) := by
  constructor
  · intro m hm p hp
    by_cases hmn : m = n
    · rw [hmn, St.modNode_node_self] at hp
      exact hpar (hmn ▸ hm) p hp
    · rw [St.modNode_node_of_ne s f hmn] at hp
      exact hg.parent m hm p hp
  · exact hg.root
  · exact hg.find
  · intro d e he
    obtain ⟨m, hm, hp⟩ := hg.entry d e he
    refine ⟨m, hm, ?_⟩
    by_cases hmn : m = n
    · rw [hmn, St.modNode_node_self, hpage, ← hmn]
      exact hp
    · rw [St.modNode_node_of_ne s f hmn]
      exact hp

theorem Good.modDb (hg : Good s) (d : EdDb) (f : EdTxnDb → EdTxnDb)
    (hroot : ∀ n, (f (s.txn.db d)).root = some n → n < s.txn.nused)
    (hfind : ∀ n, (f (s.txn.db d)).find = some n → n < s.txn.nused)
    (hentry : ∀ e, (f (s.txn.db d)).entry = some e →
      ∃ n, (f (s.txn.db d)).find = some n ∧ e.page = (s.node n).page) : Good (s.modDb d f) := by
  constructor
  · exact hg.parent
  · intro e n hn
    by_cases he : e = d
    · rw [he, St.modDb_db_self] at hn
      exact hroot n hn
    · rw [St.modDb_db_of_ne s f he] at hn
      exact hg.root e n hn
  · intro e n hn
    by_cases he : e = d
    · rw [he, St.modDb_db_self] at hn
      exact hfind n hn
    · rw [St.modDb_db_of_ne s f he] at hn
      exact hg.find e n hn
  · intro e p hp
    by_cases he : e = d
    · rw [he, St.modDb_db_self] at hp ⊢
      exact hentry p hp
    · rw [St.modDb_db_of_ne s f he] at hp ⊢
      exact hg.entry e p hp

theorem Good.modDb_same (hg : Good s) (d : EdDb) (f : EdTxnDb → EdTxnDb)
    (hroot : (f (s.txn.db d)).root = (s.txn.db d).root)
    (hfind : (f (s.txn.db d)).find = (s.txn.db d).find)
    (hentry : (f (s.txn.db d)).entry = (s.txn.db d).entry) : Good (s.modDb d f) := by
  refine hg.modDb d f ?_ ?_ ?_
  · rw [hroot]; exact hg.root d
  · rw [hfind]; exact hg.find d
  · rw [hfind, hentry]; exact hg.entry d

theorem Good.congr (hg : Good s) (hnodes : s'.txn.nodes = s.txn.nodes)
    (hnused : s'.txn.nused = s.txn.nused) (hdb : s'.txn.db = s.txn.db) : Good s' := by
  constructor
  · simpa only [St.node, hnodes, hnused] using hg.parent
  · simpa only [hdb, hnused] using hg.root
  · simpa only [hdb, hnused] using hg.find
  · simpa only [St.node, hdb, hnodes] using hg.entry

/-! ## Searches and cursor moves change nothing but the cursor

They work on the node table and the cursors only, in read-only transactions as well. -/

/-- Only the node table, the cursors and the error code changed. -/
structure Quiet (s s' : St E) : Prop where
  pages : s'.pages = s.pages
  hdr : s'.hdr = s.hdr
  conn : s'.conn = s.conn
  lck : s'.lck = s.lck
  busy : s'.busy = s.busy
  lost : s'.lost = s.lost
  txn : s'.txn = { s.txn with
    nodes := s'.txn.nodes, nused := s'.txn.nused, error := s'.txn.error, db := s'.txn.db }
  root : ∀ d, (s'.txn.db d).root = (s.txn.db d).root
  nused : s.txn.nused ≤ s'.txn.nused
  node : ∀ n, n < s.txn.nused →
    (s'.node n).page = (s.node n).page ∧ (s'.node n).gc = (s.node n).gc
  fresh : ∀ n, s.txn.nused ≤ n → n < s'.txn.nused → (s'.node n).gc = false
  error : s.txn.error ≠ none → s'.txn.error ≠ none

namespace Quiet

variable {s s' s'' : St E}

theorem refl (s : St E) : Quiet s s where
  pages := rfl
  hdr := rfl
  conn := rfl
  lck := rfl
  busy := rfl
  lost := rfl
  txn := rfl
  root _ := rfl
  nused := le_refl _
  node _ _ := ⟨rfl, rfl⟩
  fresh n h1 h2 := by omega
  error h := h

theorem trans (a : Quiet s s') (b : Quiet s' s'') : Quiet s s'' where
  pages := b.pages.trans a.pages
  hdr := b.hdr.trans a.hdr
  conn := b.conn.trans a.conn
  lck := b.lck.trans a.lck
  busy := b.busy.trans a.busy
  lost := b.lost.trans a.lost
  txn := by rw [b.txn, a.txn]
  root d := (b.root d).trans (a.root d)
  nused := a.nused.trans b.nused
  node n hn := by
    have h1 := a.node n hn
    have h2 := b.node n (hn.trans_le a.nused)
    exact ⟨h2.1.trans h1.1, h2.2.trans h1.2⟩
  fresh n h1 h2 := by
    rcases Nat.lt_or_ge n s'.txn.nused with hlt | hge
    · rw [(b.node n hlt).2]
      exact a.fresh n h1 hlt
    · exact b.fresh n hge h2
  error h := b.error (a.error h)

theorem step (h : Quiet s s') : Step s s' where
  fixed := by
    simp only [St.fixed, h.conn, h.lck, h.busy, h.lost, h.hdr]
    rw [h.txn]
  pages p _ _ := by rw [h.pages]
  xids p hx _ := by rw [h.pages]; exact hx
  reserve := by
    refine ⟨[], ?_, ?_, ?_⟩
    · rw [h.txn, append_nil]
    · rw [h.hdr]; exact Moves.refl _
    · rw [h.hdr]; simp
  pgOk hok := by rw [h.txn]; exact ⟨hok.used_le, hok.slot_ge⟩
  nused := h.nused
  node n hn := (h.node n hn).1
  error := h.error

theorem modDb (s : St E) (d : EdDb) (f : EdTxnDb → EdTxnDb)
    (hf : (f (s.txn.db d)).root = (s.txn.db d).root) : Quiet s (s.modDb d f) :=
  { refl s with
    pages := rfl
    txn := rfl
    root := fun e => by
      by_cases he : e = d
      · rw [he, St.modDb_db_self, hf]
      · rw [St.modDb_db_of_ne s f he] }

theorem errorOnly (h : ErrorOnly s s') (herr : s'.txn.error ≠ none) : Quiet s s' := by
  have htxn : s'.txn = s.txn.failed s'.txn.error := (congrArg St.txn h.eq :)
  have hnodes : s'.txn.nodes = s.txn.nodes := (congrArg EdTxn.nodes htxn :)
  have hnused : s'.txn.nused = s.txn.nused := (congrArg EdTxn.nused htxn :)
  have hdb : s'.txn.db = s.txn.db := (congrArg EdTxn.db htxn :)
  exact {
    pages := (congrArg St.pages h.eq :)
    hdr := (congrArg St.hdr h.eq :)
    conn := (congrArg St.conn h.eq :)
    lck := (congrArg St.lck h.eq :)
    busy := (congrArg St.busy h.eq :)
    lost := (congrArg St.lost h.eq :)
    txn := by rw [hnodes, hnused, hdb]; exact htxn
    root := fun d => by rw [hdb]
    nused := le_of_eq hnused.symm
    node := fun n _ => by simp [St.node, hnodes]
    fresh := fun n h1 h2 => by omega
    error := fun _ => herr }

theorem mapped (h : Mapped s s' n no par pidx) : Quiet s s' := by
  cases h with
  | known hn hpage hs =>
    subst hs
    exact { refl s with
      pages := rfl
      txn := rfl
      node := fun m _ => by
        by_cases hm : m = n
        · rw [hm, St.rehung, St.modNode_node_self]
          exact ⟨rfl, rfl⟩
        · rw [St.rehung, St.modNode_node_of_ne s _ hm]
          exact ⟨rfl, rfl⟩
      fresh := fun m h1 h2 => absurd h2 (Nat.not_lt.mpr h1) }
  | fresh hn hnew hs =>
    rw [hs]
    exact { refl s with
      pages := rfl
      txn := rfl
      nused := Nat.le_succ _
      node := fun m hm => by simp [St.wrapped, St.node, hm.ne]
      fresh := fun m h1 h2 => by
        have : m = s.txn.nused := by simp [St.wrapped] at h2; omega
        simp [St.wrapped, St.node, this] }

end Quiet

theorem Mapped.node (h : Mapped s s' n no par pidx) :
    n < s'.txn.nused ∧ (s'.node n).page = no ∧ (s'.node n).parent = par ∧
      (s'.node n).pindex = pidx := by
  cases h with
  | known hn hpage hs =>
    subst hs
    refine ⟨hn, ?_⟩
    rw [St.rehung, St.modNode_node_self]
    exact ⟨hpage, rfl, rfl⟩
  | fresh hn hnew hs =>
    rw [hs]
    simp [St.wrapped, St.node, hn]

theorem Mapped.db (h : Mapped s s' n no par pidx) : s'.txn.db = s.txn.db := by
  cases h with
  | known hn hpage hs => subst hs; rfl
  | fresh hn hnew hs => rw [hs]; rfl

theorem Mapped.good (h : Mapped s s' n no par pidx) (hg : Good s)
    (hpar : ∀ p, par = some p → p < s.txn.nused) : Good s' := by
  cases h with
  | known hn hpage hs =>
    subst hs
    exact hg.modNode n _ rfl fun _ => hpar
  | fresh hn hnew hs =>
    rw [hs]
    exact hg.addNode (x := ⟨no, par, pidx, false⟩) (fun m => rfl) rfl rfl hpar

/-- The exits of a search or a cursor move from the state `s`. -/
def quietExits (s : St E) : Exits EdErr EdFault (St E) where
  err _ s' := Quiet s s' ∧ Good s' ∧ s'.txn.error ≠ none
  halt _ _ := False
  stuck := True

theorem wp_quiet {α : Type} {x : M E α} {Q Q' : α → St E → Prop} (h : wp x Q (quietExits s1) s1)
    (hs : Quiet s s1) (hQ : ∀ a s', Q a s' → Q' a s') : wp x Q' (quietExits s) s1 :=
  wp_mono h hQ (fun _ _ hf => ⟨hs.trans hf.1, hf.2⟩) (fun _ _ hf => hf) id

variable (env : Env E)

theorem edTxnMap_quiet (s : St E) (hg : Good s) (no : Nat) (par : Option Nat) (pidx : Nat)
    (hpar : ∀ p, par = some p → p < s.txn.nused) :
    wp (edTxnMap env no par pidx)
      (fun n s' => Quiet s s' ∧ Good s' ∧ n < s'.txn.nused ∧ s'.txn.db = s.txn.db)
      (quietExits s) s := by
  refine wp_mono (edTxnMap_spec env s no par pidx) ?_ ?_ (fun _ _ h => h)
    (fun _ => trivial)
  · intro n s' h
    exact ⟨Quiet.mapped h, h.good hg hpar, h.node.1, h.db⟩
  · rintro e s' ⟨h, herr⟩
    have htxn : s'.txn = s.txn.failed s'.txn.error := (congrArg St.txn h.eq :)
    exact ⟨Quiet.errorOnly h herr, hg.congr (congrArg EdTxn.nodes htxn :)
      (congrArg EdTxn.nused htxn :) (congrArg EdTxn.db htxn :), herr⟩

variable (g : Geom)

theorem some_lt (hn : n < s.txn.nused) : ∀ p, some n = some p → p < s.txn.nused := by
  rintro p ⟨⟩
  exact hn

theorem findDescend_quiet (d : EdDb) (k fuel : Nat) :
    ∀ (s : St E) (n kmin kmax : Nat), Good s → (s.txn.db d).find = some n →
      (s.txn.db d).entry = none →
      wp (findDescend env g d k fuel n kmin kmax)
        (fun r s' => Quiet s s' ∧ Good s' ∧ (s'.txn.db d).find = some r.1) (quietExits s) s := by
  induction fuel with
  | zero => intro s n kmin kmax _ _ _; exact trivial
  | succ fuel ih =>
    intro s n kmin kmax hg hfind hnone
    rw [findDescend, wp_bind, wp_getTree]
    simp only [wp_ite, wp_bind, wp_stuck, wp_pure']
    refine ⟨fun _ => ⟨fun _ => ?_, fun _ => trivial⟩, fun _ => ⟨Quiet.refl s, hg, hfind⟩⟩
    refine wp_quiet (edTxnMap_quiet env s hg _ _ _ (some_lt (hg.find d n hfind))) (Quiet.refl s) ?_
    rintro next s1 ⟨hq, hg1, hnext, hdb⟩
    rw [wp_modDb]
    set s2 := s1.modDb d fun c => { c with find := some next } with hs2
    have hq2 : Quiet s s2 := hq.trans (Quiet.modDb s1 d _ rfl)
    have hnone1 : (s1.txn.db d).entry = none := by rw [hdb]; exact hnone
    have hg2 : Good s2 := by
      refine hg1.modDb d _ (hg1.root d) ?_ ?_
      · rintro m ⟨⟩
        exact hnext
      · intro e he
        simp only at he
        rw [hnone1] at he
        cases he
    refine wp_quiet (ih s2 next _ _ hg2 ?_ ?_) hq2 fun r s' h => ⟨hq2.trans h.1, h.2⟩
    · rw [hs2, St.modDb_db_self]
    · rw [hs2, St.modDb_db_self]
      exact hnone1

theorem firstDescend_quiet (fuel : Nat) :
    ∀ (s : St E) (n kmax : Nat), Good s → n < s.txn.nused →
      wp (firstDescend env fuel n kmax)
        (fun r s' => Quiet s s' ∧ Good s' ∧ r.1 < s'.txn.nused) (quietExits s) s := by
  induction fuel with
  | zero => intro s n kmax _ _; exact trivial
  | succ fuel ih =>
    intro s n kmax hg hn
    rw [firstDescend, wp_bind, wp_getTree]
    simp only [wp_ite, wp_bind, wp_pure']
    refine ⟨fun _ => ?_, fun _ => ⟨Quiet.refl s, hg, hn⟩⟩
    refine wp_quiet (edTxnMap_quiet env s hg _ _ _ (some_lt hn)) (Quiet.refl s) ?_
    rintro next s1 ⟨hq, hg1, hnext, -⟩
    exact wp_quiet (ih s1 next _ hg1 hnext) hq fun r s' h => ⟨hq.trans h.1, h.2⟩

theorem lastDescend_quiet (fuel : Nat) :
    ∀ (s : St E) (n kmin : Nat), Good s → n < s.txn.nused →
      wp (lastDescend env g fuel n kmin)
        (fun r s' => Quiet s s' ∧ Good s' ∧ r.1 < s'.txn.nused) (quietExits s) s := by
  induction fuel with
  | zero => intro s n kmin _ _; exact trivial
  | succ fuel ih =>
    intro s n kmin hg hn
    rw [lastDescend, wp_bind, wp_getTree]
    simp only [wp_ite, wp_bind, wp_pure', wp_stuck]
    refine ⟨fun _ => ⟨fun _ => ?_, fun _ => trivial⟩, fun _ => ⟨Quiet.refl s, hg, hn⟩⟩
    refine wp_quiet (edTxnMap_quiet env s hg _ _ _ (some_lt hn)) (Quiet.refl s) ?_
    rintro next s1 ⟨hq, hg1, hnext, -⟩
    exact wp_quiet (ih s1 next _ hg1 hnext) hq fun r s' h => ⟨hq.trans h.1, h.2⟩

theorem findKmax_quiet (s0 s : St E) (fuel n : Nat) (X : Exits EdErr EdFault (St E))
    (hX : X.stuck) : wp (findKmax s0 fuel n) (fun _ s' => s = s') X s := by
  induction fuel generalizing n with
  | zero => exact hX
  | succ fuel ih =>
    rw [findKmax]
    cases hp : (s0.node n).parent with
    | none => exact rfl
    | some p =>
      rw [wp_ite]
      exact ⟨fun _ => rfl, fun _ => ih p⟩

theorem findKmin_quiet (s0 s : St E) (fuel n : Nat) (X : Exits EdErr EdFault (St E))
    (hX : X.stuck) : wp (findKmin s0 fuel n) (fun _ s' => s = s') X s := by
  induction fuel generalizing n with
  | zero => exact hX
  | succ fuel ih =>
    rw [findKmin]
    cases hp : (s0.node n).parent with
    | none => exact rfl
    | some p =>
      rw [wp_ite]
      exact ⟨fun _ => rfl, fun _ => ih p⟩

theorem climbRight_quiet (fuel : Nat) :
    ∀ (s : St E) (n : Nat), Good s → n < s.txn.nused →
      wp (climbRight env g fuel n)
        (fun r s' => Quiet s s' ∧ Good s' ∧ r.1 < s'.txn.nused) (quietExits s) s := by
  induction fuel with
  | zero => intro s n _ _; exact trivial
  | succ fuel ih =>
    intro s n hg hn
    rw [climbRight, wp_bind, wp_get]
    cases hp : (s.node n).parent with
    | none => exact ⟨Quiet.refl s, hg, hn⟩
    | some p =>
      have hp' : p < s.txn.nused := hg.parent n hn p hp
      simp only [wp_ite, wp_bind, wp_stuck]
      refine ⟨fun _ => ⟨fun _ => ?_, fun _ => trivial⟩, fun _ => ih s p hg hp'⟩
      refine wp_quiet (edTxnMap_quiet env s hg _ _ _ (some_lt hp')) (Quiet.refl s) ?_
      rintro sib s1 ⟨hq, hg1, hsib, -⟩
      simp only [wp_get, wp_pure']
      refine wp_post (findKmax_quiet s1 s1 _ _ (quietExits s) trivial) ?_
      rintro kmax _ rfl
      exact ⟨hq, hg1, hsib⟩

theorem climbLeft_quiet (fuel : Nat) :
    ∀ (s : St E) (n : Nat), Good s → n < s.txn.nused →
      wp (climbLeft env g fuel n)
        (fun r s' => Quiet s s' ∧ Good s' ∧ r.1 < s'.txn.nused) (quietExits s) s := by
  induction fuel with
  | zero => intro s n _ _; exact trivial
  | succ fuel ih =>
    intro s n hg hn
    rw [climbLeft, wp_bind, wp_get]
    cases hp : (s.node n).parent with
    | none => exact ⟨Quiet.refl s, hg, hn⟩
    | some p =>
      have hp' : p < s.txn.nused := hg.parent n hn p hp
      simp only [wp_ite, wp_bind, wp_stuck]
      refine ⟨fun _ => ⟨fun _ => ?_, fun _ => trivial⟩, fun _ => ih s p hg hp'⟩
      refine wp_quiet (edTxnMap_quiet env s hg _ _ _ (some_lt hp')) (Quiet.refl s) ?_
      rintro sib s1 ⟨hq, hg1, hsib, -⟩
      simp only [wp_get, wp_pure']
      refine wp_post (findKmin_quiet s1 s1 _ _ (quietExits s) trivial) ?_
      rintro kmin _ rfl
      exact ⟨hq, hg1, hsib⟩

variable [EdEntry E]

theorem edBptFind_quiet (s : St E) (hg : Good s) (d : EdDb) (k : Nat) :
    wp (edBptFind env g d k) (fun _ s' => Quiet s s' ∧ Good s')
      ⟨fun _ s' => Quiet s s' ∧ Good s' ∧ (s' = s ∨ s'.txn.error ≠ none), fun _ _ => False, True⟩
      s := by
  unfold edBptFind
  simp only [wp_bind, wp_gets, wp_ite, wp_throw, wp_modDb]
  refine ⟨fun _ => ⟨Quiet.refl s, hg, .inl trivial⟩, fun _ => ?_⟩
  set s1 := s.modDb d EdTxnDb.searchReset with hs1
  have hq1 : Quiet s s1 := Quiet.modDb s d _ rfl
  have hg1 : Good s1 := by
    refine hg.modDb d _ (hg.root d) (hg.root d) ?_
    intro e he
    cases he
  cases hroot : (s.txn.db d).root with
  | none =>
    simp only [wp_bind, wp_modDb, wp_pure']
    refine ⟨hq1.trans (Quiet.modDb s1 d _ rfl), hg1.modDb d _ (hg1.root d) (hg1.find d) ?_⟩
    intro e he
    cases he
  | some root =>
    have hfind : (s1.txn.db d).find = some root := by
      rw [hs1, St.modDb_db_self]
      exact hroot
    have hnone : (s1.txn.db d).entry = none := by
      rw [hs1, St.modDb_db_self]
      rfl
    simp only [wp_bind, wp_gets]
    refine wp_mono (findDescend_quiet env g d k _ s1 root 0 uint64Max hg1 hfind hnone) ?_
      (fun _ s' h => ⟨hq1.trans h.1, h.2.1, .inr h.2.2⟩) (fun _ _ h => h) id
    rintro r s2 ⟨hq2, hg2, hfind2⟩
    simp only [wp_get, wp_ite, wp_bind, wp_modDb, wp_pure', wp_stuck]
    refine ⟨fun _ => ?_, fun _ => trivial⟩
    refine ⟨(hq1.trans hq2).trans (Quiet.modDb s2 d _ rfl),
      hg2.modDb d _ (hg2.root d) (hg2.find d) ?_⟩
    rintro e ⟨⟩
    exact ⟨r.1, hfind2, rfl⟩

omit [EdEntry E] in
theorem moveFailed_quiet (d : EdDb) (hg : Good s) :
    Quiet s (moveFailed d s) ∧ Good (moveFailed d s) :=
  ⟨Quiet.modDb s d _ rfl, hg.modDb_same d _ rfl rfl rfl⟩

omit [EdEntry E] in
theorem moved_quiet (d : EdDb) (hg : Good s) {leaf : Nat} (hleaf : leaf < s.txn.nused)
    (kmin kmax idx : Nat) (slot : Int) :
    Quiet s (s.modDb d fun c => c.moved leaf kmin kmax ⟨(s.node leaf).page, slot⟩ idx) ∧
      Good (s.modDb d fun c => c.moved leaf kmin kmax ⟨(s.node leaf).page, slot⟩ idx) := by
  refine ⟨Quiet.modDb s d _ rfl, hg.modDb d _ (hg.root d) ?_ ?_⟩
  · rintro n ⟨⟩
    exact hleaf
  · rintro e ⟨⟩
    exact ⟨leaf, rfl, rfl⟩

theorem moveFirst_quiet (s : St E) (hg : Good s) (d : EdDb) (src : Option Nat)
    (hsrc : ∀ n, src = some n → n < s.txn.nused) (kmin kmax : Nat) :
    wp (moveFirst env d src kmin kmax) (fun _ s' => Quiet s s' ∧ Good s') (quietExits s)
      s := by
  unfold moveFirst
  cases src with
  | none => exact trivial
  | some n =>
    simp only [wp_bind, wp_gets, wp_onErr, wp_get, wp_modDb]
    refine wp_mono (firstDescend_quiet env _ s n kmax hg (hsrc n rfl)) ?_ ?_
      (fun _ _ h => h) id
    · rintro r s1 ⟨hq, hg1, hr⟩
      have := moved_quiet d hg1 hr kmin
        (if 0 < (s1.tree r.1).nkeys then fetch64 ((s1.tree r.1).ent 0) else r.2) 0 0
      exact ⟨hq.trans this.1, this.2⟩
    · rintro e s1 ⟨hq, hg1, herr⟩
      have := moveFailed_quiet d hg1
      exact ⟨hq.trans this.1, this.2, herr⟩

theorem moveLast_quiet (s : St E) (hg : Good s) (d : EdDb) (src : Option Nat)
    (hsrc : ∀ n, src = some n → n < s.txn.nused) (kmin kmax : Nat) :
    wp (moveLast env g d src kmin kmax) (fun _ s' => Quiet s s' ∧ Good s') (quietExits s)
      s := by
  unfold moveLast
  cases src with
  | none => exact trivial
  | some n =>
    simp only [wp_bind, wp_gets, wp_onErr, wp_get, wp_ite, wp_modDb,
      wp_stuck]
    refine wp_mono (lastDescend_quiet env g _ s n kmin hg (hsrc n rfl)) ?_ ?_
      (fun _ _ h => h) id
    · rintro r s1 ⟨hq, hg1, hr⟩
      refine ⟨fun _ => ?_, fun _ => trivial⟩
      have := moved_quiet d hg1 hr
        (if 0 < (s1.tree r.1).nkeys then
          fetch64 ((s1.tree r.1).ent ((s1.tree r.1).nkeys - 1)) else r.2)
        kmax (sub32 (s1.tree r.1).nkeys 1) (((s1.tree r.1).nkeys : Int) - 1)
      exact ⟨hq.trans this.1, this.2⟩
    · rintro e s1 ⟨hq, hg1, herr⟩
      have := moveFailed_quiet d hg1
      exact ⟨hq.trans this.1, this.2, herr⟩

theorem moveRight_quiet (s : St E) (hg : Good s) (d : EdDb) (n : Nat) (hn : n < s.txn.nused) :
    wp (moveRight env g d n) (fun _ s' => Quiet s s' ∧ Good s') (quietExits s) s := by
  unfold moveRight
  rw [wp_bind, wp_gets, wp_bind]
  refine wp_quiet (climbRight_quiet env g _ s n hg hn) (Quiet.refl s) ?_
  rintro r s1 ⟨hq, hg1, hr⟩
  exact wp_quiet (moveFirst_quiet env s1 hg1 d _ (some_lt hr) _ _) hq
    fun _ s' h => ⟨hq.trans h.1, h.2⟩

theorem moveLeft_quiet (s : St E) (hg : Good s) (d : EdDb) (n : Nat) (hn : n < s.txn.nused) :
    wp (moveLeft env g d n) (fun _ s' => Quiet s s' ∧ Good s') (quietExits s) s := by
  unfold moveLeft
  rw [wp_bind, wp_gets, wp_bind]
  refine wp_quiet (climbLeft_quiet env g _ s n hg hn) (Quiet.refl s) ?_
  rintro r s1 ⟨hq, hg1, hr⟩
  exact wp_quiet (moveLast_quiet env g s1 hg1 d _ (some_lt hr) _ _) hq
    fun _ s' h => ⟨hq.trans h.1, h.2⟩

/-- The result of a public operation that only moves the cursor. -/
def cursorExits (s : St E) : Exits EdErr EdFault (St E) where
  err _ s' := Quiet s s' ∧ Good s' ∧ (s' = s ∨ s'.txn.error ≠ none)
  halt _ _ := False
  stuck := True

theorem edBptFirst_quiet (s : St E) (hg : Good s) (d : EdDb) :
    wp (edBptFirst env d) (fun _ s' => Quiet s s' ∧ Good s') (cursorExits s) s := by
  unfold edBptFirst
  simp only [wp_bind, wp_getDb, wp_modDb, wp_pure']
  refine wp_mono (moveFirst_quiet env s hg d _ (hg.root d) _ _) ?_
    (fun _ s' h => ⟨h.1, h.2.1, .inr h.2.2⟩) (fun _ _ h => h) id
  rintro _ s1 ⟨hq, hg1⟩
  exact ⟨hq.trans (Quiet.modDb s1 d _ rfl), hg1.modDb_same d _ rfl rfl rfl⟩

theorem edBptLast_quiet (s : St E) (hg : Good s) (d : EdDb) :
    wp (edBptLast env g d) (fun _ s' => Quiet s s' ∧ Good s') (cursorExits s) s := by
  unfold edBptLast
  simp only [wp_bind, wp_getDb, wp_modDb, wp_pure']
  refine wp_mono (moveLast_quiet env g s hg d _ (hg.root d) _ _) ?_
    (fun _ s' h => ⟨h.1, h.2.1, .inr h.2.2⟩) (fun _ _ h => h) id
  rintro _ s1 ⟨hq, hg1⟩
  exact ⟨hq.trans (Quiet.modDb s1 d _ rfl), hg1.modDb_same d _ rfl rfl rfl⟩

omit [EdEntry E] in
theorem readEnt_quiet (s : St E) (p : Option EntPtr) (X : Exits EdErr EdFault (St E))
    (hX : X.stuck) : wp (readEnt g p) (fun _ s' => s = s') X s := by
  unfold readEnt
  cases p with
  | none => exact hX
  | some p =>
    rw [wp_ite]
    exact ⟨fun _ => rfl, fun _ => hX⟩

omit [EdEntry E] in
/-- A change of a cursor that keeps its root and its leaf, and moves its entry pointer inside
the page. -/
theorem entryMoved_quiet (hg : Good s) (d : EdDb) (f : EdTxnDb → EdTxnDb)
    (hroot : (f (s.txn.db d)).root = (s.txn.db d).root)
    (hfind : (f (s.txn.db d)).find = (s.txn.db d).find)
    (hentry : ∀ e, (f (s.txn.db d)).entry = some e →
      ∃ e', (s.txn.db d).entry = some e' ∧ e.page = e'.page) :
    Quiet s (s.modDb d f) ∧ Good (s.modDb d f) := by
  refine ⟨Quiet.modDb s d f hroot, hg.modDb d f ?_ ?_ ?_⟩
  · rw [hroot]; exact hg.root d
  · rw [hfind]; exact hg.find d
  · intro e he
    obtain ⟨e', he', hpage⟩ := hentry e he
    obtain ⟨n, hn, hp⟩ := hg.entry d e' he'
    exact ⟨n, hfind ▸ hn, hpage.trans hp⟩

/-- The exits of a function that does not fail. -/
def silentExits : Exits EdErr EdFault (St E) where
  err _ _ := False
  halt _ _ := False
  stuck := True

theorem yieldEntry_quiet (s : St E) (hg : Good s) (d : EdDb) :
    wp (yieldEntry g d) (fun _ s' => Quiet s s' ∧ Good s') silentExits s := by
  unfold yieldEntry
  -- every change in between keeps the position of the cursor
  have keep : ∀ (s1 : St E) (f : EdTxnDb → EdTxnDb), Quiet s s1 → Good s1 →
      (f (s1.txn.db d)).root = (s1.txn.db d).root → (f (s1.txn.db d)).find = (s1.txn.db d).find →
      (f (s1.txn.db d)).entry = (s1.txn.db d).entry →
      Quiet s (s1.modDb d f) ∧ Good (s1.modDb d f) :=
    fun s1 f hq hg1 h1 h2 h3 => ⟨hq.trans (Quiet.modDb s1 d f h1), hg1.modDb_same d f h1 h2 h3⟩
  have last : ∀ s1 : St E, Quiet s s1 → Good s1 →
      Quiet s (s1.modDb d fun c => if c.entry = c.start then { c with nloops := c.nloops + 1 } else c)
        ∧ Good (s1.modDb d fun c =>
            if c.entry = c.start then { c with nloops := c.nloops + 1 } else c) :=
    fun s1 hq hg1 => keep s1 _ hq hg1 (by split <;> rfl) (by split <;> rfl) (by split <;> rfl)
  simp only [wp_bind, wp_getDb, wp_when, wp_modDb, wp_pure']
  refine ⟨fun hk => ?_, fun hk => ?_⟩
  · refine wp_post (readEnt_quiet g s _ silentExits trivial) ?_
    rintro e _ rfl
    have h1 := keep s (fun c =>
      if c.key = fetch64 e then { c with nmatches := c.nmatches + 1, matched := true }
      else { c with haskey := false, matched := false }) (Quiet.refl s) hg
      (by split <;> rfl) (by split <;> rfl) (by split <;> rfl)
    exact ⟨fun h => absurd hk (by simp [h]), fun _ => last _ h1.1 h1.2⟩
  · have h1 := keep s (fun c => { c with matched := false }) (Quiet.refl s) hg rfl rfl rfl
    exact ⟨fun _ => last _ h1.1 h1.2, fun h => absurd h (by simpa using hk)⟩

theorem entryNext_quiet (s : St E) (hg : Good s) (d : EdDb) :
    wp (entryNext g d) (fun _ s' => Quiet s s' ∧ Good s') silentExits s := by
  unfold entryNext
  simp only [wp_bind, wp_getDb, wp_modDb]
  set s1 := s.modDb d (fun c => { c with
    entry := c.entry.map fun p => { p with slot := p.slot + 1 }
    entryIndex := (c.entryIndex + 1) % 2 ^ 32
    kmin := c.kmax }) with hs1
  have h1 : Quiet s s1 ∧ Good s1 := by
    refine entryMoved_quiet hg d _ rfl rfl fun e he => ?_
    obtain ⟨e', he', rfl⟩ := Option.map_eq_some_iff.mp he
    exact ⟨e', he', rfl⟩
  refine wp_post (readEnt_quiet g s1 _ silentExits trivial) ?_
  rintro e s2 rfl
  exact ⟨h1.1.trans (Quiet.modDb s1 d _ rfl), h1.2.modDb_same d _ rfl rfl rfl⟩

theorem entryPrev_quiet (s : St E) (hg : Good s) (d : EdDb) :
    wp (entryPrev g d) (fun _ s' => Quiet s s' ∧ Good s') silentExits s := by
  unfold entryPrev
  simp only [wp_bind, wp_getDb, wp_modDb]
  set s1 := s.modDb d (fun c => { c with
    entry := c.entry.map fun p => { p with slot := p.slot - 1 }
    entryIndex := sub32 c.entryIndex 1
    kmax := c.kmin }) with hs1
  have h1 : Quiet s s1 ∧ Good s1 := by
    refine entryMoved_quiet hg d _ rfl rfl fun e he => ?_
    obtain ⟨e', he', rfl⟩ := Option.map_eq_some_iff.mp he
    exact ⟨e', he', rfl⟩
  refine wp_post (readEnt_quiet g s1 _ silentExits trivial) ?_
  rintro e s2 rfl
  exact ⟨h1.1.trans (Quiet.modDb s1 d _ rfl), h1.2.modDb_same d _ rfl rfl rfl⟩

theorem yieldAfter_quiet (hq : Quiet s s1) (hg : Good s1) (d : EdDb) :
    wp (yieldEntry g d) (fun _ s' => Quiet s s' ∧ Good s') (cursorExits s) s1 :=
  wp_mono (yieldEntry_quiet g s1 hg d) (fun _ _ h => ⟨hq.trans h.1, h.2⟩)
    (fun _ _ h => h.elim) (fun _ _ h => h) id

omit [EdEntry E] in
theorem stepFailed_quiet (d : EdDb) (e : EdErr) (hq : Quiet s s1) (hg : Good s1) :
    Quiet s (stepFailed d e s1) ∧ Good (stepFailed d e s1) ∧ (stepFailed d e s1).txn.error ≠ none := by
  have h1 := hg.modDb_same d (fun c => { c with matched := false }) rfl rfl rfl
  have h2 : Quiet s1 (stepFailed d e s1) :=
    (Quiet.modDb s1 d (fun c => { c with matched := false }) rfl).trans
      (Quiet.errorOnly ⟨rfl⟩ (by simp [stepFailed]))
  exact ⟨hq.trans h2, h1.congr rfl rfl rfl, by simp [stepFailed]⟩

theorem edBptNext_quiet (s : St E) (hg : Good s) (d : EdDb) :
    wp (edBptNext env g d) (fun _ s' => Quiet s s' ∧ Good s') (cursorExits s) s := by
  unfold edBptNext
  simp only [wp_bind, wp_getDb, wp_ite, wp_throw]
  refine ⟨fun _ => ⟨Quiet.refl s, hg, .inl rfl⟩, fun _ => ?_⟩
  cases hf : (s.txn.db d).find with
  | none => exact ⟨Quiet.refl s, hg⟩
  | some n =>
    simp only [wp_bind, wp_getTree, wp_when, wp_onErr, wp_modDb]
    set i := if (s.txn.db d).hasentry = true then ((s.txn.db d).entryIndex + 1) % 2 ^ 32
      else (s.txn.db d).entryIndex with hi
    refine ⟨fun hle => ?_, fun hlt => ⟨fun hh => ?_, fun hh => ⟨fun hh' => ?_, fun hh' => ?_⟩⟩⟩
    · -- the right sibling
      refine wp_mono (moveRight_quiet env g s hg d n (hg.find d n hf)) ?_ ?_
        (fun _ _ h => h) id
      · rintro _ s1 ⟨hq, hg1⟩
        exact ⟨fun h => absurd h.1 (Nat.not_lt.mpr hle), fun _ =>
          ⟨fun h => absurd h.1 (Nat.not_lt.mpr hle), fun _ => yieldAfter_quiet g hq hg1 d⟩⟩
      · rintro e s1 ⟨hq, hg1, -⟩
        have := stepFailed_quiet d e hq hg1
        exact ⟨this.1, this.2.1, .inr this.2.2⟩
    · refine wp_mono (entryNext_quiet g s hg d) ?_ (fun _ _ h => h.elim) (fun _ _ h => h) id
      rintro _ s1 ⟨hq, hg1⟩
      exact ⟨fun h => absurd h.2 (by simp [hh.2]), fun _ => yieldAfter_quiet g hq hg1 d⟩
    · exact yieldAfter_quiet g (Quiet.modDb s d _ rfl) (hg.modDb_same d _ rfl rfl rfl) d
    · exact yieldAfter_quiet g (Quiet.refl s) hg d

theorem edBptPrev_quiet (s : St E) (hg : Good s) (d : EdDb) :
    wp (edBptPrev env g d) (fun _ s' => Quiet s s' ∧ Good s') (cursorExits s) s := by
  unfold edBptPrev
  simp only [wp_bind, wp_getDb, wp_ite, wp_throw]
  refine ⟨fun _ => ⟨Quiet.refl s, hg, .inl rfl⟩, fun _ => ?_⟩
  cases hf : (s.txn.db d).find with
  | none => exact ⟨Quiet.refl s, hg⟩
  | some n =>
    simp only [wp_bind, wp_when, wp_onErr]
    refine ⟨fun h0 => ?_, fun h0 => ⟨fun _ => ?_, fun h => absurd h0 h⟩⟩
    · refine wp_mono (moveLeft_quiet env g s hg d n (hg.find d n hf)) ?_ ?_
        (fun _ _ h => h) id
      · rintro _ s1 ⟨hq, hg1⟩
        exact ⟨fun h => absurd h0 h, fun _ => yieldAfter_quiet g hq hg1 d⟩
      · rintro e s1 ⟨hq, hg1, -⟩
        have := stepFailed_quiet d e hq hg1
        exact ⟨this.1, this.2.1, .inr this.2.2⟩
    · refine wp_mono (entryPrev_quiet g s hg d) ?_ (fun _ _ h => h.elim) (fun _ _ h => h) id
      rintro _ s1 ⟨hq, hg1⟩
      exact yieldAfter_quiet g hq hg1 d

end Eddy
