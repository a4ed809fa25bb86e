import Eddy.Cache.Calls
import Eddy.Index.Descend
import Eddy.Lib.Run

/-!
# Eddy — the locks behind the open objects

A process holds a record lock on the slab for every object it has open. `LocksOk` says that the bytes
it has locked are those of its open objects. The calls of the cache keep this as long as

* the entries that `ed_open` tries do not lie in the region of an object the process has open itself,
  an entry that matches describes the object in the slab, and its checksums are right;
* the regions that `ed_create` tries do not overlap an object the process has open itself, and neither
  the mapping of the region nor the commit fails.

Between two calls other processes may change the index and the slab in any way.
-/

namespace Eddy

open Outcome Ranges Runs List

variable (env : CacheEnv) (c : CacheCfg) {α : Type} {m : M CacheEnt α} {Q : α → Cst → Prop}
  {s : Cst} {vno : Nat} {p : Spot} {o : EdObject}

/-! ## Index calls leave slab and locks alone -/

/-- The locks cover the ranges, and the slab is the given one. -/
structure Covered (rs : List Range) (slab : Nat → EdObjectHdr) (s : Cst) : Prop where
  covers : Covers s.held rs
  slab : s.slab = slab

/-- Every exit but a normal one leaves the locks as they were. -/
def coveredExits (rs : List Range) : Exits CacheErr EdFault Cst :=
  ⟨fun _ s => Covers s.held rs, fun _ _ => True, True⟩

section Covered

variable {rs : List Range} {slab : Nat → EdObjectHdr} {s : Cst}

section

variable (hs : Covered rs slab s)

include hs

theorem onIdx_covered (hQ : ∀ a t, m s.idx = .ok a t → Covered rs slab { s with idx := t } →
      Q a { s with idx := t }) : wp (onIdx m) Q (coveredExits rs) s := by
  rw [wp_onIdx]
  exact wp_mono (wp_run m s.idx) (fun a t h => hQ a t h ⟨hs.covers, hs.slab⟩)
    (fun _ _ _ => hs.covers) (fun _ _ _ => trivial) fun _ => trivial

theorem attempt_onIdx_covered {Q : Except CacheErr α → Cst → Prop}
    (hok : ∀ a t, m s.idx = .ok a t → Covered rs slab { s with idx := t } →
      Q (.ok a) { s with idx := t })
    (herr : ∀ e t, Covered rs slab { s with idx := t } → Q (.error e) { s with idx := t }) :
    wp (Prog.attempt (onIdx m)) Q (coveredExits rs) s := by
  rw [wp_attempt, wp_onIdx]
  exact wp_mono (wp_run m s.idx) (fun a t h => hok a t h ⟨hs.covers, hs.slab⟩)
    (fun e t _ => herr _ t ⟨hs.covers, hs.slab⟩) (fun _ _ _ => trivial) fun _ => trivial

theorem txnClose_covered {Q : Unit → Cst → Prop} {X : Exits CacheErr EdFault Cst}
    (hQ : ∀ t, Covered rs slab { s with idx := t } → Q () { s with idx := t })
    (hH : ∀ f s, X.halt f s) (hU : X.stuck) : wp (txnClose env) Q X s := by
  unfold txnClose
  rw [wp_bind, wp_attempt, wp_onIdx]
  exact wp_mono (wp_run _ s.idx) (fun _ t _ => hQ t ⟨hs.covers, hs.slab⟩)
    (fun _ t _ => hQ t ⟨hs.covers, hs.slab⟩) (fun _ _ _ => hH _ _) fun _ => hU

theorem ask_covered {f : Nat → α}
    (hQ : Covered rs slab { s with tick := s.tick + 1 } → Q (f s.tick) { s with tick := s.tick + 1 }) :
    wp (ask f) Q (coveredExits rs) s := hQ ⟨hs.covers, hs.slab⟩

theorem require_covered {Q : Unit → Cst → Prop}
    (hQ : Covered rs slab { s with tick := s.tick + 1 } → Q () { s with tick := s.tick + 1 }) :
    wp (require env) Q (coveredExits rs) s := by
  unfold require
  rw [wp_bind]
  refine ask_covered hs fun h => ?_
  rw [wp_when]
  exact ⟨fun _ => h.covers, fun _ => hQ h⟩

theorem edFlck_covered {m : EdLckType} {r : Range} {Q : Bool → Cst → Prop}
    (hno : ∀ s', s'.idx = s.idx → Covered rs slab s' → Q false s')
    (hyes : ∀ s', s'.idx = s.idx → Covered (r :: rs) slab s' → Q true s') :
    wp (edFlck env m r) Q (coveredExits rs) s := by
  unfold edFlck
  rw [wp_bind]
  refine ask_covered hs fun h => ?_
  rw [wp_bind, wp_when]
  refine ⟨fun hb => ?_, fun hb => ?_⟩
  · rw [wp_modify, hb]
    exact hyes _ rfl ⟨h.covers.lock r m, h.slab⟩
  · rw [Bool.not_eq_false] at hb
    rw [hb]
    exact hno _ rfl h

end

theorem Covered.unlock {r : Range} (hs : Covered (r :: rs) slab s) (hr : ∀ r' ∈ rs, r.Apart r') :
    Covered rs slab { s with held := s.held.unlock r } := ⟨hs.covers.unlock hr, hs.slab⟩

end Covered

/-! ## `ed_open` -/

/-- An entry that `ed_open` may try: its region has nothing in common with the ranges, and if the
object there is the one looked for, it has the length of the entry and the right checksums. -/
structure EntryOk (rs : List Range) (h : EdObjectHdr) (wanted : Prop) (no count : Nat) : Prop where
  apart : ∀ r ∈ rs, (lockRange c no count).Apart r
  whole : wanted → h.size c = count * c.blockSize ∧ count * c.blockSize < 2 ^ 32 ∧
    objVerify c h = none

/-- What an object that was opened brings: a lock on its range, which is apart from the others, and
right checksums. -/
structure ObjOpened (rs : List Range) (slab : Nat → EdObjectHdr) (o : EdObject) (s : Cst) : Prop where
  covered : Covered (o.range :: rs) slab s
  apart : ∀ r ∈ rs, o.range.Apart r
  verified : objVerify c (slab o.no) = none

/-- The result of a lookup: an object with its lock, or nothing. -/
def Looked (rs : List Range) (slab : Nat → EdObjectHdr) : Option EdObject → Cst → Prop
  | none, s => Covered rs slab s
  | some o, s => ObjOpened c rs slab o s

section Open

variable {rs : List Range} {slab : Nat → EdObjectHdr} {s : Cst}

theorem EntryOk.objOpened {h : EdObjectHdr} {no count exp : Nat} {wanted : Prop} {key : List UInt8}
    (hok : EntryOk c rs h wanted no count) (hw : wanted) (hh : slab no = h)
    (hno : vno % c.blockCount = no) (hs : Covered (lockRange c no count :: rs) slab s) :
    ObjOpened c rs slab (objInit c h no vno true exp key) s := by
  obtain ⟨hsize, hlt, hver⟩ := hok.whole hw
  have hrange : (objInit c h no vno true exp key).range = lockRange c no count := by
    show Range.mk (vno % c.blockCount * c.blockSize) (h.size c) = _
    rw [hno, hsize, lockRange, Nat.mod_eq_of_lt hlt]
  refine ⟨hrange ▸ hs, hrange ▸ hok.apart, ?_⟩
  show objVerify c (slab no) = none
  rw [hh]
  exact hver

variable (hs : Covered rs slab s)

include hs

theorem openEntry_spec {k : List UInt8} {now : Nat} {key : EdEntryKey}
    (hok : edExpiredAt c.epoch key.exp now = false →
      EntryOk c rs (slab (key.vno % c.blockCount)) ((slab (key.vno % c.blockCount)).key = k)
        (key.vno % c.blockCount) key.count) :
    wp (openEntry env c k now key) (fun o s' => s'.idx = s.idx ∧ Looked c rs slab o s')
      (coveredExits rs) s := by
  unfold openEntry
  rw [wp_ite]
  refine ⟨fun _ => ⟨rfl, hs⟩, fun hexp => ?_⟩
  have hentry := hok (by simpa using hexp)
  rw [wp_bind]
  refine edFlck_covered env hs (fun s1 hi h1 => ?_) fun s1 hi h1 => ?_
  · rw [wp_ite]
    exact ⟨fun _ => ⟨hi, h1⟩, fun h => absurd rfl h⟩
  rw [wp_ite]
  refine ⟨nofun, fun _ => ?_⟩
  -- the mapping fails, or shows the object
  have hback : ∀ s2, Covered (lockRange c (key.vno % c.blockCount) key.count :: rs) slab s2 →
      Covered rs slab
        { s2 with held := s2.held.unlock (lockRange c (key.vno % c.blockCount) key.count) } :=
    fun s2 h2 => h2.unlock hentry.apart
  rw [wp_bind, wp_attempt]
  unfold require
  simp only [wp_bind, wp_when, wp_throw]
  show wp (ask env.fails) _ _ s1
  have h2 : Covered (lockRange c (key.vno % c.blockCount) key.count :: rs) slab
      { s1 with tick := s1.tick + 1 } := ⟨h1.covers, h1.slab⟩
  refine ⟨fun _ => (hback _ h2).covers, fun _ => ?_⟩
  simp only [wp_bind, wp_gets, wp_ite, wp_pure']
  refine ⟨fun hk => ⟨hi, ?_⟩, fun _ => ⟨hi, hback _ h2⟩⟩
  show ObjOpened c rs slab (objInit c (s1.slab _) _ _ _ _ _) _
  change (s1.slab (key.vno % c.blockCount)).key = k at hk
  rw [congrFun h1.slab (key.vno % c.blockCount)] at hk ⊢
  exact hentry.objOpened c hk rfl rfl h2

/-- The entries that the index yields for a key, from a result of `ed_bpt_find` on. -/
inductive Yields (env : CacheEnv) : Nat × Option EntPtr → St CacheEnt → EdEntryKey → Prop where
  | here {rc : Nat × Option EntPtr} {t : St CacheEnt} {e : EdEntryKey} (hrc : rc.1 = 1)
      (hl : (t.txn.db .keys).nloops = 0) (he : readEnt env.geom rc.2 t = .ok (.key e) t) :
      Yields env rc t e
  | next {rc rc' : Nat × Option EntPtr} {t t' : St CacheEnt} {e : EdEntryKey} (hrc : rc.1 = 1)
      (hl : (t.txn.db .keys).nloops = 0)
      (hn : edBptNext env.idx env.geom .keys t = .ok rc' t') (h : Yields env rc' t' e) :
      Yields env rc t e

theorem readKey_covered {p : Option EntPtr} {Q : EdEntryKey → Cst → Prop}
    (hQ : ∀ e, readEnt env.geom p s.idx = .ok (.key e) s.idx → Q e s) :
    wp (readKey env p) Q (coveredExits rs) s := by
  unfold readKey
  rw [wp_bind]
  refine onIdx_covered hs fun e t he _ => ?_
  obtain ⟨rfl, -⟩ := readEnt_ok env.geom he
  cases e with
  | key e => exact hQ e he
  | block b => trivial

theorem readBlock_covered {p : Option EntPtr} {Q : EdEntryBlock → Cst → Prop}
    (hQ : ∀ b, readEnt env.geom p s.idx = .ok (.block b) s.idx → Q b s) :
    wp (readBlock env p) Q (coveredExits rs) s := by
  unfold readBlock
  rw [wp_bind]
  refine onIdx_covered hs fun e t he _ => ?_
  obtain ⟨rfl, -⟩ := readEnt_ok env.geom he
  cases e with
  | key e => trivial
  | block b => exact hQ b he

theorem openKeyLoop_spec {k : List UInt8} {now fuel : Nat}
    {rc : Except CacheErr (Nat × Option EntPtr)}
    (hok : ∀ r, rc = .ok r → ∀ e, Yields env r s.idx e →
      edExpiredAt c.epoch e.exp now = false →
      EntryOk c rs (slab (e.vno % c.blockCount)) ((slab (e.vno % c.blockCount)).key = k)
        (e.vno % c.blockCount) e.count) :
    wp (openKeyLoop env c k now fuel rc) (Looked c rs slab) (coveredExits rs) s := by
  -- every turn of the loop moves on to an entry that the rest of the index yields
  induction fuel generalizing s rc with
  | zero => trivial
  | succ fuel ih =>
    cases rc with
    | error e => exact hs
    | ok rc =>
      rw [openKeyLoop, wp_bind, wp_gets, wp_ite]
      refine ⟨fun hrc => ?_, fun _ => hs⟩
      rw [wp_bind]
      refine readKey_covered env hs fun key hkey => ?_
      rw [wp_bind]
      refine wp_post (openEntry_spec env c hs (hok rc rfl key (.here hrc.1 hrc.2 hkey)))
        fun o s1 ho => ?_
      obtain ⟨hi, ho⟩ := ho
      cases o with
      | some o => exact ho
      | none =>
        show wp (Prog.attempt _ >>= _) _ _ s1
        rw [wp_bind]
        refine attempt_onIdx_covered ho (fun rc' t hn h2 => ?_) fun e t h2 => ?_
        · refine ih h2 fun r hr e he => ?_
          cases hr
          exact hok rc rfl e (.next hrc.1 hrc.2 (hi ▸ hn) he)
        · exact ih h2 fun r hr => nomatch hr

/-- `ed_open` may try what its lookup yields. The entries are those of the index `t` when the call
takes its snapshot; an entry that is expired is not tried. -/
def OpenOk (rs : List Range) (slab : Nat → EdObjectHdr) (now : Nat) (t : St CacheEnt) :
    Query → Prop
  | .key k => ∀ t0 rc t1 e, edTxnOpen env.idx true t = .ok () t0 →
      edBptFind env.idx env.geom .keys (c.hash k).toNat t0 = .ok rc t1 → Yields env rc t1 e →
      edExpiredAt c.epoch e.exp now = false →
      EntryOk c rs (slab (e.vno % c.blockCount)) ((slab (e.vno % c.blockCount)).key = k)
        (e.vno % c.blockCount) e.count
  | .id none => True
  | .id (some (xid, vno)) => ∀ t0 rc t1 b, edTxnOpen env.idx true t = .ok () t0 →
      edBptFind env.idx env.geom .blocks (vno % c.blockCount) t0 = .ok rc t1 →
      readEnt env.geom rc.2 t1 = .ok (.block b) t1 → b.xid = xid →
      EntryOk c rs (slab b.no.toNat) True b.no.toNat b.count

theorem openId_spec {xid : Nat}
    (hok : ∀ rc t b, edBptFind env.idx env.geom .blocks (vno % c.blockCount) s.idx = .ok rc t →
      readEnt env.geom rc.2 t = .ok (.block b) t → b.xid = xid →
      EntryOk c rs (slab b.no.toNat) True b.no.toNat b.count) :
    wp (openId env c (some (xid, vno))) (Looked c rs slab) (coveredExits rs) s := by
  unfold openId
  rw [wp_bind, wp_get, wp_ite]
  refine ⟨fun _ => hs, fun _ => ?_⟩
  rw [wp_bind]
  refine onIdx_covered hs fun rc t hf h1 => ?_
  rw [wp_ite]
  refine ⟨fun _ => h1, fun hrc => ?_⟩
  rw [wp_bind]
  refine readBlock_covered env h1 fun b hb => ?_
  rw [wp_ite]
  refine ⟨fun _ => h1, fun hxid => ?_⟩
  have hentry := hok rc t b hf hb (not_not.mp hxid)
  -- the entry found has the number that was looked for
  have hno : vno % c.blockCount = b.no.toNat := by
    have hm := wp_ok (edBptFind_match env.idx env.geom .blocks (vno % c.blockCount) s.idx) hf
    exact (hm (not_not.mp hrc) _ _ hb).symm
  rw [wp_bind]
  refine edFlck_covered env h1 (fun s1 _ h2 => ?_) fun s1 _ h2 => ?_
  · rw [wp_ite]
    exact ⟨fun _ => h2, fun h => absurd rfl h⟩
  rw [wp_ite]
  refine ⟨nofun, fun _ => ?_⟩
  rw [wp_bind, wp_attempt]
  unfold require
  simp only [wp_bind, wp_when, wp_throw]
  show wp (ask env.fails) _ _ s1
  have h3 : Covered (lockRange c b.no.toNat b.count :: rs) slab { s1 with tick := s1.tick + 1 } :=
    ⟨h2.covers, h2.slab⟩
  refine ⟨fun _ => (h3.unlock hentry.apart).covers, fun _ => ?_⟩
  show ObjOpened c rs slab (objInit c (s1.slab b.no.toNat) _ _ _ _ _) _
  rw [congrFun h2.slab b.no.toNat]
  exact hentry.objOpened c trivial rfl hno h3

theorem openLookup_spec {q : Query} (hok : OpenOk env c rs slab (env.now s.tick) s.idx q) :
    wp (openLookup env c q) (Looked c rs slab) (coveredExits rs) s := by
  unfold openLookup
  rw [wp_bind]
  refine onIdx_covered hs fun _ t0 ht0 h0 => ?_
  cases q with
  | key k =>
    show wp (openKey env c k) _ _ _
    unfold openKey
    rw [wp_bind]
    refine ask_covered h0 fun h1 => ?_
    rw [wp_bind]
    refine attempt_onIdx_covered h1 (fun rc t1 ht1 h2 => ?_) fun e t1 h2 => ?_
    · refine openKeyLoop_spec env c h2 fun r hr e he hexp => ?_
      cases hr
      exact hok t0 rc t1 e ht0 ht1 he hexp
    · exact openKeyLoop_spec env c h2 fun r hr => nomatch hr
  | id id =>
    cases id with
    | none => exact h0.covers
    | some id =>
      obtain ⟨xid, vno⟩ := id
      exact openId_spec env c h0 fun rc t1 b hf hb hxid => hok t0 rc t1 b ht0 hf hb hxid

theorem edOpen_spec {q : Query} (hok : OpenOk env c rs slab (env.now (s.tick + 1)) s.idx q) :
    wp (edOpen env c q) (Looked c rs slab) (coveredExits rs) s := by
  unfold edOpen
  rw [wp_bind]
  refine require_covered env hs fun h0 => ?_
  rw [wp_bind, wp_attempt]
  refine wp_mono (openLookup_spec env c h0 hok) (fun o s1 ho => ?_) (fun e s1 he => ?_)
    (fun _ _ _ => trivial) fun _ => trivial
  · rw [wp_bind]
    cases o with
    | none => exact txnClose_covered env ho (fun t h2 => h2) (fun _ _ => trivial) trivial
    | some o =>
      refine txnClose_covered env ho.covered (fun t h2 => ?_) (fun _ _ => trivial) trivial
      show wp (Prog.gets _ >>= _) _ _ _
      have hv : objVerify c (s1.slab o.no) = none := by
        rw [congrFun ho.covered.slab o.no, ho.verified]
      rw [wp_bind, wp_gets]
      simp only [hv]
      exact ⟨h2, ho.apart, ho.verified⟩
  · show wp (txnClose env >>= _) _ _ s1
    rw [wp_bind]
    have h1 : Covered rs s1.slab s1 := ⟨he, rfl⟩
    exact txnClose_covered env h1 (fun t h2 => h2.covers) (fun _ _ => trivial) trivial

end Open

/-! ## `ed_create` -/

/-- The call leaves the locks alone, whatever its outcome. -/
abbrev KeepsHeld {α : Type} (x : CM α) : Prop :=
  ∀ h, Preserves (fun s : Cst => s.held = h) x

section Held

theorem held_aside (h : Held EdLckType) : Aside fun s => s.held = h :=
  ⟨fun _ _ hs => hs, fun _ _ hs => hs⟩

theorem onIdx_held (m : M CacheEnt α) : KeepsHeld (onIdx m) := fun h => onIdx_aside (held_aside h) m

theorem require_held : KeepsHeld (require env) := fun h => require_aside env (held_aside h)

theorem txnClose_held : KeepsHeld (txnClose env) := fun h =>
  (Preserves.attempt (onIdx_held _ h)).bind fun _ => .pure _

theorem readKey_held (p : Option EntPtr) : KeepsHeld (readKey env p) := fun h =>
  readKey_aside env (held_aside h) p

theorem readBlock_held (p : Option EntPtr) : KeepsHeld (readBlock env p) := fun h =>
  readBlock_aside env (held_aside h) p

theorem dropKeyLoop_held (no fuel : Nat) (rc : Nat × Option EntPtr) :
    KeepsHeld (dropKeyLoop env c no fuel rc) := by
  intro h
  induction fuel generalizing rc with
  | zero => exact .stuck
  | succ fuel ih =>
    rw [dropKeyLoop]
    refine (Preserves.gets _).bind fun _ => .ite ?_ (.pure _)
    refine (readKey_held env _ h).bind fun key => .ite ?_ ?_
    · exact (onIdx_held _ h).bind fun _ => (onIdx_held _ h).bind fun _ =>
        .pure _
    · exact (onIdx_held _ h).bind fun rc => ih rc

theorem evictLoop_held (no stop fuel : Nat) (ptr : Option EntPtr) :
    KeepsHeld (evictLoop env c no stop fuel ptr) := by
  intro h
  induction fuel generalizing ptr with
  | zero => exact .stuck
  | succ fuel ih =>
    rw [evictLoop]
    refine .ite (.pure _) ((readBlock_held env _ h).bind fun b =>
      .ite ?_ (.pure _))
    refine (require_held env h).bind fun _ => (Preserves.gets _).bind fun _ =>
      (onIdx_held _ h).bind fun rc => (dropKeyLoop_held env c _ _ rc h).bind
      fun _ => (onIdx_held _ h).bind fun _ => (onIdx_held _ h).bind fun rc => ?_
    exact ih rc.2

theorem evict_held (p : Spot) (len : Nat) : KeepsHeld (evict env c p len) := by
  intro h
  refine (Preserves.ite ?_ (.pure _)).bind fun _ => evictLoop_held env c _ _ _ _ h
  exact (onIdx_held _ h).bind fun _ => .pure _

end Held

/-- The regions that the search of `obj_reserve` may try, from a position on. -/
inductive Tries (env : CacheEnv) (c : CacheCfg) (len : Nat) : Spot → St CacheEnt → Spot → Prop where
  | here (p : Spot) (t : St CacheEnt) : Tries env c len p t (p.wrap c len)
  | next {p p1 q : Spot} {t t1 t2 : St CacheEnt} {rc : Nat × Option EntPtr} {b : EdEntryBlock}
      (hseek : seek env (p.wrap c len) t = .ok p1 t1)
      (hn : edBptNext env.idx env.geom .blocks t1 = .ok rc t2)
      (hb : readEnt env.geom rc.2 t2 = .ok (.block b) t2)
      (h : Tries env c len
        { p1 with
          vno := p1.vno + b.count
          no := b.no.toNat
          start := b.no.toNat * c.blockSize
          block := rc.2 } t2 q) : Tries env c len p t q

/-- A region that `obj_reserve` may lock: it has nothing in common with the ranges, and it starts where
the virtual number of the region says. -/
structure SpotOk (rs : List Range) (len : Nat) (q : Spot) : Prop where
  apart : ∀ r ∈ rs, (Range.mk q.start len).Apart r
  start : q.start = q.vno % c.blockCount * c.blockSize

section Create

variable {rs : List Range} {slab : Nat → EdObjectHdr} {s : Cst} {len : Nat}

theorem seek_spot {p1 : Spot} {t t1 : St CacheEnt} (h : seek env p t = .ok p1 t1) :
    p1.start = p.start ∧ p1.vno = p.vno := by
  have hwp : wp (seek env p) (fun p1 _ => p1.start = p.start ∧ p1.vno = p.vno)
      ⟨fun _ _ => True, fun _ _ => True, True⟩ t := by
    unfold seek
    rw [wp_ite]
    refine ⟨fun _ => ⟨rfl, rfl⟩, fun _ => ?_⟩
    rw [wp_bind]
    exact wp_mono (wp_run _ t) (fun _ _ _ => ⟨rfl, rfl⟩) (fun _ _ _ => trivial)
      (fun _ _ _ => trivial) fun _ => trivial
  exact wp_ok hwp h

theorem SpotOk.congr {q : Spot} (h : SpotOk c rs len p) (hstart : q.start = p.start)
    (hvno : q.vno = p.vno) : SpotOk c rs len q :=
  ⟨hstart ▸ h.apart, by rw [hstart, hvno]; exact h.start⟩

theorem reserveSearch_spec {fuel : Nat} (hs : Covered rs slab s)
    (hok : ∀ q, Tries env c len p s.idx q → SpotOk c rs len q) :
    wp (reserveSearch env c len fuel p)
      (fun q s' => SpotOk c rs len q ∧ Covers s'.held (⟨q.start, len⟩ :: rs)) (coveredExits rs) s := by
  -- each refused lock moves the search to the next region
  induction fuel generalizing s p with
  | zero => trivial
  | succ fuel ih =>
    rw [reserveSearch, wp_bind]
    refine onIdx_covered hs fun p1 t1 hseek h1 => ?_
    obtain ⟨hstart, hvno⟩ := seek_spot env hseek
    rw [wp_bind]
    refine edFlck_covered env h1 (fun s2 hi h2 => ?_) fun s2 hi h2 => ?_
    · rw [wp_ite]
      refine ⟨nofun, fun _ => ?_⟩
      rw [wp_bind]
      refine onIdx_covered h2 fun rc t3 hn h3 => ?_
      rw [show s2.idx = t1 from hi] at hn
      rw [wp_bind]
      refine readBlock_covered env h3 fun b hb => ?_
      exact ih h3 fun q hq => hok q (.next hseek hn hb hq)
    · rw [wp_ite]
      refine ⟨fun _ => ⟨(hok _ (.here p s.idx)).congr c hstart hvno, h2.covers⟩, fun h => ?_⟩
      exact absurd rfl h

theorem objReserve_spec (hs : Covered rs slab s)
    (hok : ∀ q, Tries env c len (firstSpot c vno) s.idx q → SpotOk c rs len q) :
    wp (objReserve env c vno len)
      (fun v s' => Covers s'.held (⟨v % c.blockCount * c.blockSize, len⟩ :: rs) ∧
        ∀ r ∈ rs, (Range.mk (v % c.blockCount * c.blockSize) len).Apart r) (coveredExits rs) s := by
  unfold objReserve
  rw [wp_bind]
  refine wp_post (reserveSearch_spec env c hs hok) fun q s1 hq => ?_
  obtain ⟨hspot, hcov⟩ := hq
  rw [wp_bind, wp_onErr]
  refine wp_mono (evict_held env c q len s1.held s1 rfl) (fun _ s2 h2 => ?_) (fun _ s2 h2 => ?_)
    (fun _ _ _ => trivial) fun _ => trivial
  · show Covers s2.held _ ∧ _
    rw [h2, ← hspot.start]
    exact ⟨hcov, hspot.apart⟩
  · show Covers (s2.held.unlock _) rs
    rw [h2]
    exact hcov.unlock hspot.apart

/-- `ed_create` may try the regions of its search, and once it has reserved one, neither the mapping nor
the commit fails. -/
structure CreateOk (rs : List Range) (s : Cst) (a : EdObjectAttr) : Prop where
  tries : ∀ t0 q, edTxnOpen env.idx false s.idx = .ok () t0 →
    Tries env c (a.size c) (firstSpot c t0.txn.vno) t0 q → SpotOk c rs (a.size c) q
  granted : ∀ v s', reserveRegion env c a { s with tick := s.tick + 2 } = .ok v s' →
    env.fails s'.tick = false ∧ ∀ e t, edTxnCommit env.idx true
      (s'.idx.modTxn fun t => { t with vno := v + a.size c / c.blockSize }) ≠ .err e t

theorem writeSlab_self (slab body : Nat → EdObjectHdr) (no n : Nat) (h : EdObjectHdr) :
    writeSlab slab no n h body no = h := if_pos rfl

/-- `ed_create`: the new object has its lock; otherwise there is none more than before. -/
theorem edCreate_spec {a : EdObjectAttr} (hs : Covered rs slab s) (hok : CreateOk env c rs s a) :
    wp (edCreate env c a)
      (fun o s' => Covers s'.held (o.range :: rs) ∧ ∀ r ∈ rs, o.range.Apart r) (coveredExits rs) s := by
  -- a failed call closes its transaction
  have hclose : ∀ (e : CacheErr) (s1 : Cst), Covers s1.held rs → wp (do
      let t ← Prog.gets fun s => s.idx.txn
      Prog.when (t.state = .open) (txnClose env)
      Prog.throw e) (fun (o : EdObject) s' => Covers s'.held (o.range :: rs) ∧
        ∀ r ∈ rs, o.range.Apart r) (coveredExits rs) s1 := by
    intro e s1 h1
    rw [wp_bind, wp_gets, wp_bind, wp_when]
    refine ⟨fun _ => ?_, fun _ => h1⟩
    exact txnClose_covered env ⟨h1, rfl⟩ (fun t h2 => h2.covers) (fun _ _ => trivial) trivial
  unfold edCreate
  rw [wp_bind]
  refine require_covered env hs fun h0 => ?_
  rw [wp_bind]
  refine ask_covered h0 fun h1 => ?_
  rw [wp_bind, wp_attempt]
  unfold createObject
  rw [wp_bind]
  have hreserve : wp (reserveRegion env c a)
      (fun v s' => Covers s'.held (⟨v % c.blockCount * c.blockSize, a.size c⟩ :: rs) ∧
        ∀ r ∈ rs, (Range.mk (v % c.blockCount * c.blockSize) (a.size c)).Apart r) (coveredExits rs)
      { s with tick := s.tick + 2 } := by
    unfold reserveRegion
    rw [wp_bind]
    refine onIdx_covered h1 fun _ t0 ht0 h2 => ?_
    rw [wp_bind, wp_gets]
    exact objReserve_spec env c h2 fun q hq => hok.tries t0 q ht0 hq
  refine wp_mono (wp_and hreserve (wp_run _ _)) (fun v s2 hv => ?_)
    (fun e s2 he => hclose e s2 he.1) (fun _ _ _ => trivial) fun _ => trivial
  obtain ⟨⟨hcov, hapart⟩, hrun⟩ := hv
  obtain ⟨hmap, hcommit⟩ := hok.granted v s2 hrun
  -- the mapping and the commit succeed
  unfold require
  simp only [wp_bind, wp_when]
  show wp (ask env.fails) _ _ s2
  refine ⟨fun h => absurd h (by rw [hmap]; decide), fun _ => ?_⟩
  rw [wp_modify, wp_onIdx]
  refine wp_mono (wp_run _ _) (fun _ t' _ => ?_) (fun e t h => absurd h (hcommit e t))
    (fun _ _ _ => trivial) fun _ => trivial
  show wp (ask env.body) _ _ _
  show Covers s2.held (Range.mk _ (EdObjectHdr.size c (writeSlab _ _ _ _ _ _)) :: rs) ∧
    ∀ r ∈ rs, (Range.mk _ (EdObjectHdr.size c (writeSlab _ _ _ _ _ _))).Apart r
  rw [writeSlab_self, newHdr_size]
  exact ⟨hcov, hapart⟩

end Create

/-! ## `ed_close` and `ed_discard` -/

section Close

theorem upsertLoop_held (k : List UInt8) (fuel : Nat) (rc : Nat × Option EntPtr) :
    KeepsHeld (upsertLoop env c k fuel rc) := by
  intro h
  induction fuel generalizing rc with
  | zero => exact .stuck
  | succ fuel ih =>
    rw [upsertLoop]
    refine (Preserves.gets _).bind fun _ => .ite ?_ (.pure _)
    refine (readKey_held env _ h).bind fun key => (require_held env h).bind
      fun _ => (Preserves.gets _).bind fun old => .ite ?_ ?_
    · exact .bind (.when (.modify fun _ hs => hs)) fun _ =>
        .pure _
    · exact (onIdx_held _ h).bind fun rc => ih rc

theorem objUpsert_held (k : List UInt8) (hash : UInt64) (vno nblcks exp : Nat) :
    KeepsHeld (objUpsert env c k hash vno nblcks exp) := by
  intro h
  refine (Preserves.gets _).bind fun _ => (onIdx_held _ h).bind fun _ =>
    (Preserves.attempt (onIdx_held _ h)).bind fun rc => ?_
  cases rc with
  | error e => exact .pure _
  | ok u =>
    exact (onIdx_held _ h).bind fun rc => (upsertLoop_held env c _ _ rc h).bind
      fun _ => onIdx_held _ h

theorem closeTxn_held : KeepsHeld (closeTxn env) := fun h =>
  (Preserves.gets _).bind fun _ => .when (txnClose_held env h)

theorem edClose_spec (o : EdObject) (s : Cst) :
    wp (edClose env c o) (fun _ s' => s'.held = s.held.unlock o.range)
      ⟨fun _ s' => s'.held = s.held.unlock o.range, fun _ _ => True, True⟩ s := by
  have hdone : ∀ (e : CacheErr) (s1 : Cst), s1.held = s.held.unlock o.range →
      wp (do closeTxn env; Prog.throw e) (fun (_ : Unit) s' => s'.held = s.held.unlock o.range)
        ⟨fun _ s' => s'.held = s.held.unlock o.range, fun _ _ => True, True⟩ s1 := by
    intro e s1 h1
    rw [wp_bind]
    exact wp_mono (closeTxn_held env _ s1 h1) (fun _ _ h => h) (fun _ _ h => h)
      (fun _ _ _ => trivial) fun _ => trivial
  unfold edClose
  rw [wp_bind, wp_gets, wp_ite]
  refine ⟨fun _ => rfl, fun _ => ?_⟩
  rw [wp_ite]
  refine ⟨fun _ => ?_, fun _ => ?_⟩
  · rw [wp_bind]
    exact hdone _ _ rfl
  rw [wp_bind, wp_attempt]
  -- up to the unlock of the region every exit has the locks of the start
  unfold closeObject
  rw [wp_bind]
  refine wp_mono (onIdx_held _ s.held s rfl) (fun _ s1 h1 => ?_) (fun e s1 h1 => ?_)
    (fun _ _ _ => trivial) fun _ => trivial
  · rw [wp_bind]
    refine wp_mono (objUpsert_held env c _ _ _ _ _ s.held s1 h1) (fun _ s2 h2 => ?_)
      (fun e s2 h2 => ?_) (fun _ _ _ => trivial) fun _ => trivial
    · rw [wp_modify]
      show wp (Prog.attempt _ >>= _) _ _ _
      rw [wp_bind, wp_attempt]
      refine wp_mono (onIdx_held _ (s.held.unlock o.range) _ ?_) (fun _ s3 h3 => h3)
        (fun e s3 h3 => hdone e s3 h3) (fun _ _ _ => trivial) fun _ => trivial
      exact congrArg (fun x : Held EdLckType => x.unlock o.range) h2
    · exact hdone e _ (congrArg (fun x : Held EdLckType => x.unlock o.range) h2)
  · exact hdone e _ (congrArg (fun x : Held EdLckType => x.unlock o.range) h1)

end Close

/-! ## The open objects of a process -/

/-- A process with the objects it has open. -/
structure Client where
  st : Cst
  objs : List EdObject

/-- What happens to a process: one of its calls, each with the answers it gets, or a change of the
index and the slab by other processes. Objects are named by their place in the list. -/
inductive ClientAct where
  | open (env : CacheEnv) (q : Query)
  | create (env : CacheEnv) (a : EdObjectAttr)
  | write (i : Nat) (buf : List UInt8)
  | close (env : CacheEnv) (i : Nat)
  | discard (i : Nat)
  | world (idx : St CacheEnt) (slab : Nat → EdObjectHdr)

namespace Client

/-- The process after a call, with the objects it then has open. A kill leaves no process and
undefined behaviour no state. -/
def after {α : Type} (out : Out CacheErr EdFault Cst α) (done : α → List EdObject)
    (failed : List EdObject) : Option Client :=
  match out with
  | .ok a s => some ⟨s, done a⟩
  | .err _ s => some ⟨s, failed⟩
  | .halt _ _ => none
  | .stuck => none

def step (cl : Client) : ClientAct → Option Client
  | .open env q => after (edOpen env c q cl.st) (fun o => o.toList ++ cl.objs) cl.objs
  | .create env a => after (edCreate env c a cl.st) (fun o => o :: cl.objs) cl.objs
  | .write i buf => cl.objs[i]?.bind fun o =>
      after (edWrite c o buf cl.st) (fun o' => cl.objs.set i o') cl.objs
  -- `ed_close` frees the object also when it fails
  | .close env i => cl.objs[i]?.bind fun o =>
      after (edClose env c o cl.st) (fun _ => cl.objs.eraseIdx i) (cl.objs.eraseIdx i)
  | .discard i => cl.objs[i]?.bind fun o =>
      after (edDiscard o cl.st) (fun _ => cl.objs.eraseIdx i) (cl.objs.eraseIdx i)
  | .world idx slab => some { cl with st := { cl.st with idx := idx, slab := slab } }

/-- The ranges of the open objects. -/
def ranges (cl : Client) : List Range := cl.objs.map EdObject.range

/-- The locked bytes are those of the open objects. -/
def LocksOk (cl : Client) : Prop := Covers cl.st.held cl.ranges

/-- A process without locks and open objects. -/
def fresh (idx : St CacheEnt) (slab : Nat → EdObjectHdr) (tick : Nat) : Client :=
  ⟨⟨idx, slab, fun _ => none, tick⟩, []⟩

/-- The calls that keep the locks right: `ed_open` and `ed_create` may try what they come upon. -/
def Lockable (cl : Client) : ClientAct → Prop
  | .open env q => OpenOk env c cl.ranges cl.st.slab (env.now (cl.st.tick + 1)) cl.st.idx q
  | .create env a => CreateOk env c cl.ranges cl.st a
  | _ => True

/-- The invariant: the locks are right, and no two open objects overlap. -/
structure Guarded (cl : Client) : Prop where
  locks : LocksOk cl
  apart : cl.objs.Pairwise fun o o' => o.range.Apart o'.range

variable {c : CacheCfg} {cl cl' : Client}

theorem Guarded.of_wp {x : CM α} {done : α → List EdObject} {failed : List EdObject}
    (h : wp x (fun a s' => Guarded ⟨s', done a⟩)
      ⟨fun _ s' => Guarded ⟨s', failed⟩, fun _ _ => True, True⟩ s)
    (hs : after (x s) done failed = some cl') : Guarded cl' := by
  cases hx : x s with
  | ok a s' =>
    rw [hx] at hs
    cases hs
    exact wp_ok h hx
  | err e s' =>
    rw [hx] at hs
    cases hs
    exact wp_err h hx
  | halt f s' =>
    rw [hx] at hs
    cases hs
  | stuck =>
    rw [hx] at hs
    cases hs

theorem Guarded.covered (h : Guarded cl) : Covered cl.ranges cl.st.slab cl.st := ⟨h.locks, rfl⟩

theorem Guarded.cons (h : Guarded cl) (hcov : Covers s.held (o.range :: cl.ranges))
    (hap : ∀ r ∈ cl.ranges, o.range.Apart r) : Guarded ⟨s, o :: cl.objs⟩ := by
  refine ⟨hcov, pairwise_cons.mpr ⟨fun o' ho' => ?_, h.apart⟩⟩
  exact hap o'.range (mem_map_of_mem ho')

theorem Guarded.keep {objs : List EdObject} (h : Guarded cl) (hcov : Covers s.held cl.ranges)
    (hobjs : objs = cl.objs) : Guarded ⟨s, objs⟩ := by
  subst hobjs
  exact ⟨hcov, h.apart⟩

theorem Guarded.erase {i : Nat} (h : Guarded cl) (ho : cl.objs[i]? = some o)
    (hs : s.held = cl.st.held.unlock o.range) : Guarded ⟨s, cl.objs.eraseIdx i⟩ := by
  obtain ⟨hi, rfl⟩ := List.getElem?_eq_some_iff.mp ho
  have hperm : (cl.objs[i] :: cl.objs.eraseIdx i).Perm cl.objs := getElem_cons_eraseIdx_perm hi
  have hpair : (cl.objs[i] :: cl.objs.eraseIdx i).Pairwise fun o o' => o.range.Apart o'.range :=
    (hperm.pairwise_iff fun h => h.symm).mpr h.apart
  obtain ⟨hfirst, hrest⟩ := pairwise_cons.mp hpair
  have hcov : Covers cl.st.held (cl.objs[i].range :: (cl.objs.eraseIdx i).map EdObject.range) :=
    h.locks.perm (hperm.map EdObject.range).symm
  refine ⟨?_, hrest⟩
  show Covers s.held _
  rw [hs]
  refine hcov.unlock fun r hr => ?_
  obtain ⟨o', ho', rfl⟩ := mem_map.mp hr
  exact hfirst o' ho'

theorem edWrite_range (o : EdObject) (buf : List UInt8) (s : Cst) :
    wp (edWrite c o buf) (fun o' s' => o'.range = o.range ∧ s'.held = s.held)
      ⟨fun _ s' => s'.held = s.held, fun _ _ => True, True⟩ s := by
  unfold edWrite
  rw [wp_ite]
  refine ⟨fun _ => rfl, fun _ => ?_⟩
  rw [wp_ite]
  exact ⟨fun _ => rfl, fun _ => ⟨rfl, rfl⟩⟩

theorem Guarded.set {i : Nat} {o' : EdObject} (h : Guarded cl) (ho : cl.objs[i]? = some o)
    (hr : o'.range = o.range) (hs : s.held = cl.st.held) : Guarded ⟨s, cl.objs.set i o'⟩ := by
  obtain ⟨hi, rfl⟩ := List.getElem?_eq_some_iff.mp ho
  have hmap : (cl.objs.set i o').map EdObject.range = cl.ranges := by
    rw [map_set, hr, ← map_set, set_getElem_self]
    rfl
  constructor
  · show Covers s.held ((cl.objs.set i o').map EdObject.range)
    rw [hs, hmap]
    exact h.locks
  · rw [← pairwise_map (f := EdObject.range) (R := Range.Apart), hmap]
    exact pairwise_map.mpr h.apart

theorem Guarded.step {a : ClientAct} (h : Guarded cl) (hok : Lockable c cl a)
    (hs : cl.step c a = some cl') : Guarded cl' := by
  cases a with
  | «open» env q =>
    refine .of_wp (wp_mono (edOpen_spec env c h.covered hok) (fun o s' ho => ?_)
      (fun e s' he => h.keep he rfl) (fun _ _ _ => trivial) fun _ => trivial) hs
    cases o with
    | none => exact h.keep ho.covers rfl
    | some o => exact h.cons ho.covered.covers ho.apart
  | create env a =>
    exact .of_wp (wp_mono (edCreate_spec env c h.covered hok)
      (fun o s' ho => h.cons ho.1 ho.2) (fun e s' he => h.keep he rfl) (fun _ _ _ => trivial)
      fun _ => trivial) hs
  | write i buf =>
    obtain ⟨o, ho, hs⟩ := Option.bind_eq_some_iff.mp hs
    exact .of_wp (wp_mono (edWrite_range o buf cl.st)
      (fun o' s' h' => h.set ho h'.1 h'.2)
      (fun e s' h' => h.keep (show Covers s'.held _ from h' ▸ h.locks) rfl)
      (fun _ _ _ => trivial) fun _ => trivial) hs
  | close env i =>
    obtain ⟨o, ho, hs⟩ := Option.bind_eq_some_iff.mp hs
    exact .of_wp (wp_mono (edClose_spec env c o cl.st) (fun _ s' h' => h.erase ho h')
      (fun e s' h' => h.erase ho h') (fun _ _ _ => trivial) fun _ => trivial) hs
  | discard i =>
    obtain ⟨o, ho, hs⟩ := Option.bind_eq_some_iff.mp hs
    cases hs
    exact h.erase ho rfl
  | world idx slab =>
    cases hs
    exact ⟨h.locks, h.apart⟩

end Client

/-! ## A lock that is left behind -/

/-- A cache with checksums. -/
def sumCfg : CacheCfg where
  build := .page4096
  blockSize := 4096
  blockCount := 8
  epoch := 0
  hash _ := 5
  crc := List.length
  checksum := true
  noverify := false
  pagealign := false
  keepold := false

/-- An environment in which every request is granted. -/
def CacheEnv.calm : CacheEnv where
  idx := ⟨fun _ _ => false, fun _ _ => false, fun _ _ => [], fun _ => 0,
    fun _ _ => ⟨.leaf, 0, 0, fun _ => 0, fun _ => 0, fun _ => .block ⟨0, 0, 0⟩⟩⟩
  geom := Geom.page4096
  busy _ := false
  fails _ := false
  now _ := 100
  body _ _ := ⟨0, 0, 0, 0, 0, 0, [], [], []⟩
  fuel := 4

/-- An index whose trees have one leaf each: the page 2 with a key, the page 3 with a block. -/
def oneObject (k : EdEntryKey) (b : EdEntryBlock) : St CacheEnt where
  pages p := ⟨.leaf, 1, 1, fun _ => 0, fun _ => 0, fun _ => if p = 2 then .key k else .block b⟩
  hdr := ⟨2, 1, fun d => some (if d = .keys then 2 else 3), [], [], 4, 0⟩
  conn := ⟨0, []⟩
  txn := EdTxn.blank
  lck := false
  busy := false
  lost := []
  tick := 0

/-- An object of one block with the checksum `crc` of its data. -/
def oneHdr (crc : Nat) : EdObjectHdr := ⟨1, 50, edTimeInf, 5, 0, crc, [107], [], [1, 2, 3]⟩

/-- A process comes to a cache with one object. -/
def visitor (crc : Nat) : Client :=
  Client.fresh (oneObject ⟨5, 0, 1, edTimeInf⟩ ⟨0, 1, 1⟩) (fun _ => oneHdr crc) 0

theorem visitor_entry {t0 t1 : St CacheEnt} {rc : Nat × Option EntPtr} {b : EdEntryBlock}
    (ht0 : edTxnOpen CacheEnv.calm.idx true (visitor 3).st.idx = .ok () t0)
    (hf : edBptFind CacheEnv.calm.idx CacheEnv.calm.geom .blocks 0 t0 = .ok rc t1)
    (hb : readEnt CacheEnv.calm.geom rc.2 t1 = .ok (.block b) t1) : b = ⟨0, 1, 1⟩ := by
  have hrun : Prog.returns (do
      edTxnOpen CacheEnv.calm.idx true
      let rc ← edBptFind CacheEnv.calm.idx CacheEnv.calm.geom .blocks 0
      readEnt CacheEnv.calm.geom rc.2) (fun e => decide (e = CacheEnt.block ⟨0, 1, 1⟩))
      (visitor 3).st.idx = true := by
    decide +kernel
  have hwp := wp_of_returns hrun
  rw [wp_bind] at hwp
  have hfind := wp_ok hwp ht0
  rw [wp_bind] at hfind
  have hent := wp_ok (wp_ok hfind hf) hb
  exact CacheEnt.block.inj (of_decide_eq_true hent)

end Eddy
