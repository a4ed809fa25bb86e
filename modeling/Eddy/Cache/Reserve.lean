import Eddy.Cache.Locks

/-!
# Eddy — the region that `obj_reserve` finds

`obj_reserve` keeps its position in three variables: the virtual number `vno`, the block `no` and the
byte `start`. `ed_create` goes on with `vno` alone, while the lock was taken at `start` and the entries
were removed from `no` on. The three agree at the start (`Agree`) and after a wrap. When a lock is
refused, `vno` advances by the length of the next entry, while `no` becomes the number of this entry;
they agree again only if this entry lies just that far ahead (`Paced`).
-/

namespace Eddy

open Outcome Ranges Prog

variable (env : CacheEnv) (c : CacheCfg)

/-- The position of the search after a refused lock, at the entry `b`. -/
def Spot.skip (p : Spot) (b : EdEntryBlock) (ptr : Option EntPtr) : Spot :=
  { p with
    vno := p.vno + b.count
    no := b.no.toNat
    start := b.no.toNat * c.blockSize
    block := ptr }

/-- One turn of the search in which the lock is refused: it stood at `q`, and goes on at the entry `b`
that `rc` points to. -/
def LockRefused (len : Nat) (p : Spot) (s : Cst) (q : Spot) (b : EdEntryBlock)
    (rc : Nat × Option EntPtr) (s' : Cst) : Prop :=
  ∃ s1 s2 s3, onIdx (seek env (p.wrap c len)) s = .ok q s1 ∧
    edFlck env .ex ⟨q.start, len⟩ s1 = .ok false s2 ∧
    onIdx (edBptNext env.idx env.geom .blocks) s2 = .ok rc s3 ∧
    readBlock env rc.2 s3 = .ok b s'

/-- The refused locks of the search from `p` on. -/
inductive Skips (env : CacheEnv) (c : CacheCfg) (len : Nat) :
    Spot → Cst → Spot → EdEntryBlock → Prop where
  | here {p q : Spot} {s s' : Cst} {b : EdEntryBlock} {rc : Nat × Option EntPtr}
      (h : LockRefused env c len p s q b rc s') : Skips env c len p s q b
  | next {p p1 q : Spot} {s s' : Cst} {b1 b : EdEntryBlock} {rc : Nat × Option EntPtr}
      (h : LockRefused env c len p s p1 b1 rc s')
      (hs : Skips env c len (p1.skip c b1 rc.2) s' q b) : Skips env c len p s q b

/-- The entry that the search goes on at lies as far ahead as it is long. -/
def Paced (q : Spot) (b : EdEntryBlock) : Prop := (q.no + b.count) % c.blockCount = b.no.toNat

/-- The three variables of the search agree, and it has not gone back. -/
structure Agree (vno : Nat) (p : Spot) : Prop where
  no : p.no = p.vno % c.blockCount
  start : p.start = p.no * c.blockSize
  ge : vno ≤ p.vno

section Search

variable {s s' : Cst} {len vno : Nat} {p q : Spot}

theorem firstSpot_agree : Agree c vno (firstSpot c vno) := ⟨rfl, rfl, Nat.le_refl vno⟩

theorem Agree.wrap (hbc : 0 < c.blockCount) (h : Agree c vno p) : Agree c vno (p.wrap c len) := by
  unfold Spot.wrap
  split
  · have hround : (p.vno + (c.blockCount - p.no)) % c.blockCount = 0 := by
      have hlt := Nat.mod_lt p.vno hbc
      have hdiv := Nat.div_add_mod p.vno c.blockCount
      rw [h.no, ← Nat.dvd_iff_mod_eq_zero]
      refine ⟨p.vno / c.blockCount + 1, ?_⟩
      rw [Nat.mul_add_one]
      omega
    refine ⟨rfl, ?_, Nat.le_trans h.ge (Nat.le_add_right _ _)⟩
    show 0 = (p.vno + (c.blockCount - p.no)) % c.blockCount * c.blockSize
    rw [hround, Nat.zero_mul]
  · exact h

theorem Agree.skip {b : EdEntryBlock} {ptr : Option EntPtr} (h : Agree c vno p)
    (hb : Paced c p b) : Agree c vno (p.skip c b ptr) := by
  refine ⟨?_, rfl, Nat.le_trans h.ge (Nat.le_add_right _ _)⟩
  show b.no.toNat = (p.vno + b.count) % c.blockCount
  rw [← hb, h.no, Nat.mod_add_mod]

theorem wrap_fits (hlen : len ≤ c.blockCount * c.blockSize) :
    (p.wrap c len).start + len ≤ c.blockCount * c.blockSize := by
  unfold Spot.wrap
  split
  · exact (Nat.zero_add len).symm ▸ hlen
  · exact Nat.le_of_not_lt ‹_›

theorem seek_same (h : onIdx (seek env p) s = .ok q s') :
    q.vno = p.vno ∧ q.no = p.no ∧ q.start = p.start ∧ s'.held = s.held := by
  have hwp : wp (onIdx (seek env p)) (fun q s' => q.vno = p.vno ∧ q.no = p.no ∧
      q.start = p.start ∧ s'.held = s.held) free s := by
    rw [wp_onIdx]
    unfold seek
    rw [wp_ite]
    refine ⟨fun _ => ⟨rfl, rfl, rfl, rfl⟩, fun _ => ?_⟩
    rw [wp_bind]
    exact wp_mono (wp_run _ _) (fun _ _ _ => ⟨rfl, rfl, rfl, rfl⟩) (fun _ _ _ => trivial)
      (fun _ _ _ => trivial) fun _ => trivial
  exact wp_ok hwp h

theorem Agree.congr (h : Agree c vno p) (hvno : q.vno = p.vno) (hno : q.no = p.no)
    (hstart : q.start = p.start) : Agree c vno q :=
  ⟨by rw [hno, hvno]; exact h.no, by rw [hstart, hno]; exact h.start, hvno ▸ h.ge⟩

theorem edFlck_held (m : EdLckType) (r : Range) (s : Cst) :
    wp (edFlck env m r) (fun granted s' =>
      s'.held = if granted then s.held.lock r m else s.held) free s := by
  unfold edFlck
  rw [wp_bind]
  show wp (when _ _ >>= _) _ _ _
  rw [wp_bind, wp_when]
  refine ⟨fun hb => ?_, fun hb => ?_⟩
  · rw [wp_modify, hb]
    exact rfl
  · rw [Bool.not_eq_false] at hb
    rw [hb]
    exact rfl

/-- A search whose refused locks are paced ends in agreement, with one lock more. -/
theorem reserveSearch_agree (hbc : 0 < c.blockCount) {fuel : Nat} (hp : Agree c vno p)
    (hpaced : ∀ q b, Skips env c len p s q b → Paced c q b) :
    wp (reserveSearch env c len fuel p) (fun q s' => Agree c vno q ∧
      s'.held = s.held.lock ⟨q.start, len⟩ .ex ∧
      (len ≤ c.blockCount * c.blockSize → q.start + len ≤ c.blockCount * c.blockSize)) free s := by
  -- a refused lock starts the next turn, whose refused locks are those of this search
  induction fuel generalizing s p with
  | zero => trivial
  | succ fuel ih =>
    rw [reserveSearch, wp_bind]
    refine wp_free_of fun q s1 hseek => ?_
    obtain ⟨hvno, hno, hstart, hheld⟩ := seek_same env hseek
    have hq : Agree c vno q := (hp.wrap c hbc).congr c hvno hno hstart
    rw [wp_bind]
    refine wp_free (wp_and (edFlck_held env .ex ⟨q.start, len⟩ s1) (wp_run _ s1)) ?_
    intro granted s2 hlock
    obtain ⟨hheld2, hrun⟩ := hlock
    cases granted with
    | true =>
      refine ⟨hq, ?_, fun hlen => ?_⟩
      · rw [hheld2, hheld]
        rfl
      · rw [hstart]
        exact wrap_fits c hlen
    | false =>
      show wp (onIdx _ >>= _) _ _ s2
      rw [wp_bind]
      refine wp_free (wp_and (onIdx_held _ s2.held s2 rfl) (wp_run _ s2)) fun rc s3 hnext => ?_
      obtain ⟨hheld3, hnext⟩ := hnext
      rw [wp_bind]
      refine wp_free (wp_and (readBlock_held env rc.2 s3.held s3 rfl) (wp_run _ s3)) ?_
      intro b s4 hread
      obtain ⟨hheld4, hread⟩ := hread
      have hturn : LockRefused env c len p s q b rc s4 := ⟨s1, s2, s3, hseek, hrun, hnext, hread⟩
      have hskip : Agree c vno (q.skip c b rc.2) := hq.skip c (hpaced q b (.here hturn))
      have hsame : s4.held = s.held := by
        rw [hheld4, hheld3, hheld2, ← hheld]
        rfl
      rw [← hsame]
      exact ih hskip fun q' b' h => hpaced q' b' (.next hturn h)

/-- How the region of the number `v` was cleared: the search ended at `v`, and the eviction went over the
blocks of the region from the first entry to look at. -/
def Cleared (vno len : Nat) (s : Cst) (v : Nat) (s' : Cst) : Prop :=
  ∃ q s1 ptr s2, reserveSearch env c len env.fuel (firstSpot c vno) s = .ok q s1 ∧ q.vno = v ∧
    firstBlock env q s1 = .ok ptr s2 ∧
    evictLoop env c (v % c.blockCount) (v % c.blockCount + len / c.blockSize) env.fuel ptr s2 =
      .ok () s'

/-- What `obj_reserve` has done when it returns the number `v`: it has locked the bytes of the region,
and removed entries from its first block to its last. -/
structure Reserved (vno len : Nat) (s : Cst) (v : Nat) (s' : Cst) : Prop where
  ge : vno ≤ v
  held : s'.held = s.held.lock ⟨v % c.blockCount * c.blockSize, len⟩ .ex
  cleared : Cleared env c vno len s v s'
  fits : len ≤ c.blockCount * c.blockSize →
    v % c.blockCount * c.blockSize + len ≤ c.blockCount * c.blockSize

theorem objReserve_reserved (hbc : 0 < c.blockCount)
    (hpaced : ∀ q b, Skips env c len (firstSpot c vno) s q b → Paced c q b) :
    wp (objReserve env c vno len) (Reserved env c vno len s) free s := by
  unfold objReserve
  rw [wp_bind]
  refine wp_free (wp_and (reserveSearch_agree env c hbc (firstSpot_agree c) hpaced) (wp_run _ s)) ?_
  intro q s1 hsearch
  obtain ⟨⟨hq, hlock, hfits⟩, hrun⟩ := hsearch
  rw [wp_bind, wp_onErr]
  -- the removal leaves the locks alone, and ends with its loop over the blocks of the region
  have hloop : wp (evict env c q len) (fun _ s' => Cleared env c vno len s q.vno s') free s1 := by
    unfold evict
    rw [wp_bind, hq.no]
    exact wp_free_of fun ptr s2 hptr => wp_free_of fun _ s' h =>
      ⟨q, s1, ptr, s2, hrun, rfl, hptr, h⟩
  refine wp_mono (wp_and (evict_held env c q len s1.held s1 rfl) hloop) (fun _ s2 h2 => ?_)
    (fun _ _ _ => trivial) (fun _ _ _ => trivial) fun _ => trivial
  obtain ⟨hheld, hcleared⟩ := h2
  rw [hq.start, hq.no] at hlock hfits
  exact ⟨hq.ge, hheld.trans hlock, hcleared, hfits⟩

end Search

theorem not_skips_of_calm (hcalm : ∀ t, env.busy t = false) {len : Nat} {p q : Spot} {s : Cst}
    {b : EdEntryBlock} : ¬ Skips env c len p s q b := by
  have hturn : ∀ {p q : Spot} {s s' : Cst} {b : EdEntryBlock} {rc : Nat × Option EntPtr},
      ¬ LockRefused env c len p s q b rc s' := by
    rintro p q s s' b rc ⟨s1, s2, s3, -, hlock, -⟩
    have hgrant : wp (edFlck env .ex ⟨q.start, len⟩) (fun granted _ => granted = true) free s1 := by
      unfold edFlck
      rw [wp_bind]
      show wp (when _ _ >>= fun _ => Pure.pure (!env.busy s1.tick)) _ _ _
      rw [hcalm]
      exact rfl
    exact Bool.false_ne_true (wp_ok hgrant hlock)
  intro h
  cases h with
  | here h => exact hturn h
  | next h _ => exact hturn h

/-- An index with two objects, of three blocks and of one. The keys are in the page 2, the blocks in the
page 3. -/
def twoObjects : St CacheEnt :=
  { oneObject ⟨5, 0, 3, edTimeInf⟩ ⟨0, 3, 1⟩ with
    pages := fun p => ⟨.leaf, 1, 2, fun _ => 0, fun _ => 0, fun i =>
      if p = 2 then .key (if i = 0 then ⟨5, 0, 3, edTimeInf⟩ else ⟨6, 3, 1, edTimeInf⟩)
      else .block (if i = 0 then ⟨0, 3, 1⟩ else ⟨3, 1, 1⟩)⟩ }

/-- The slab with the two objects. -/
def twoSlab : Nat → EdObjectHdr := fun no => { oneHdr 3 with keyhash := if no = 0 then 5 else 6 }

/-- A process opens a transaction and reserves one block. -/
def reserveOne (env : CacheEnv) (vno : Nat) : CM Nat := do
  onIdx (edTxnOpen env.idx false)
  objReserve env sumCfg vno 4096

/-- The state in which the transaction of `twoObjects` is open. -/
def twoOpen : Cst :=
  match edTxnOpen CacheEnv.calm.idx false twoObjects with
  | .ok _ t => ⟨t, twoSlab, fun _ => none, 0⟩
  | _ => ⟨twoObjects, twoSlab, fun _ => none, 0⟩

theorem edAlignSize_dvd (n a : Nat) : a ∣ edAlignSize n a := Nat.dvd_mul_left a _

/-- The refused locks of the search of `ed_create` are paced. The search starts when the transaction
is open, after two requests. -/
def CreatePaced (s : Cst) (a : EdObjectAttr) : Prop :=
  ∀ t q b, edTxnOpen env.idx false s.idx = .ok () t →
    Skips env c (a.size c) (firstSpot c t.txn.vno) { s with idx := t, tick := s.tick + 2 } q b →
    Paced c q b

theorem reserveRegion_fits {s : Cst} {a : EdObjectAttr} (hbc : 0 < c.blockCount)
    (hpaced : CreatePaced env c s a) :
    wp (reserveRegion env c a) (fun v _ => a.size c ≤ c.blockCount * c.blockSize →
      v % c.blockCount * c.blockSize + a.size c ≤ c.blockCount * c.blockSize) free
      { s with tick := s.tick + 2 } := by
  unfold reserveRegion
  rw [wp_bind, wp_onIdx]
  refine wp_mono (wp_run _ _) (fun _ t ht => ?_) (fun _ _ _ => trivial) (fun _ _ _ => trivial)
    fun _ => trivial
  rw [wp_bind, wp_gets]
  exact wp_free (objReserve_reserved env c hbc fun q b h => hpaced t q b ht h) fun v s' h => h.fits

theorem require_tick (s : Cst) :
    wp (require env) (fun _ s' => s' = { s with tick := s.tick + 1 }) free s := by
  unfold require
  rw [wp_bind]
  show wp (when _ _) _ _ { s with tick := s.tick + 1 }
  rw [wp_when]
  exact ⟨fun _ => trivial, fun _ => rfl⟩

theorem edCreate_object (s : Cst) (a : EdObjectAttr) :
    wp (edCreate env c a) (fun o _ => o.nblcks = a.size c / c.blockSize ∧
      ∃ s1, reserveRegion env c a { s with tick := s.tick + 2 } = .ok o.vno s1) free s := by
  unfold edCreate
  rw [wp_bind]
  refine wp_free (require_tick env s) fun _ s0 hs0 => ?_
  subst hs0
  rw [wp_bind]
  show wp (attempt _ >>= _) _ _ { s with tick := s.tick + 2 }
  rw [wp_bind, wp_attempt]
  unfold createObject
  rw [wp_bind]
  -- an error of any part closes the transaction and is passed on
  have hfail : ∀ (e : CacheErr) (s1 : Cst), wp (do
      let t ← Prog.gets fun s => s.idx.txn
      Prog.when (t.state = .open) (txnClose env)
      Prog.throw e) (fun (o : EdObject) _ => o.nblcks = a.size c / c.blockSize ∧
        ∃ s1, reserveRegion env c a { s with tick := s.tick + 2 } = .ok o.vno s1) free s1 := by
    intro e s1
    rw [wp_bind, wp_gets, wp_bind]
    exact wp_free_of fun _ _ _ => trivial
  refine wp_mono (wp_run _ _) (fun v s1 hv => ?_) (fun e s1 _ => hfail e s1)
    (fun _ _ _ => trivial) fun _ => trivial
  rw [wp_bind]
  refine wp_mono (wp_run _ _) (fun _ s2 _ => ?_) (fun e s2 _ => hfail e s2)
    (fun _ _ _ => trivial) fun _ => trivial
  rw [wp_bind, wp_modify, wp_bind]
  refine wp_mono (wp_run _ _) (fun _ s3 _ => ?_) (fun e s3 _ => hfail e s3)
    (fun _ _ _ => trivial) fun _ => trivial
  show EdObjectHdr.size c (writeSlab _ _ _ _ _ _) / c.blockSize = _ ∧ _
  rw [writeSlab_self, newHdr_size]
  exact ⟨rfl, s1, hv⟩

/-- `ed_create` when every refused lock is paced: the object lies inside the slab if and only if it is
not larger than the slab. -/
theorem edCreate_inside {s s' : Cst} {a : EdObjectAttr} {o : EdObject} (hbs : 0 < c.blockSize)
    (hbc : 0 < c.blockCount) (hpaced : CreatePaced env c s a)
    (h : edCreate env c a s = .ok o s') :
    o.vno % c.blockCount + o.nblcks ≤ c.blockCount ↔ a.size c / c.blockSize ≤ c.blockCount := by
  obtain ⟨hn, s1, hres⟩ := wp_ok (edCreate_object env c s a) h
  rw [hn]
  refine ⟨fun hle => Nat.le_trans (Nat.le_add_left _ _) hle, fun hle => ?_⟩
  -- the region is a whole number of blocks, so that bytes and blocks compare alike
  have hsize : a.size c / c.blockSize * c.blockSize = a.size c :=
    Nat.div_mul_cancel (edAlignSize_dvd _ c.blockSize)
  have hfits := wp_ok (reserveRegion_fits env c hbc hpaced) hres
  rw [← hsize] at hfits
  have hbytes := hfits (Nat.mul_le_mul_right c.blockSize hle)
  rw [← Nat.add_mul] at hbytes
  exact Nat.le_of_mul_le_mul_right hbytes hbs

/-- A new cache: an index without entries and an empty slab. -/
def newCache : Cst :=
  ⟨{ oneObject ⟨0, 0, 0, 0⟩ ⟨0, 0, 0⟩ with hdr := ⟨0, 0, fun _ => none, [], [], 2, 0⟩ },
    fun _ => ⟨0, 0, 0, 0, 0, 0, [], [], []⟩, fun _ => none, 0⟩

/-- In a slab of eight blocks of 4096 bytes an object of 40000 bytes is created. It gets ten blocks from
the block 0 on. -/
theorem object_overhangs :
    ∃ o s', edCreate .calm sumCfg ⟨[107], [], 40000⟩ newCache = .ok o s' ∧
      ¬ o.vno % sumCfg.blockCount + o.nblcks ≤ sumCfg.blockCount := by
  have hrun : (value (edCreate .calm sumCfg ⟨[107], [], 40000⟩) newCache).isSome = true := by
    decide +kernel
  obtain ⟨r, hr⟩ := Option.isSome_iff_exists.mp hrun
  have hok := ok_of_value hr
  have hn : r.1.nblcks = 10 :=
    (wp_ok (edCreate_object .calm sumCfg newCache ⟨[107], [], 40000⟩) hok).1.trans (by decide)
  refine ⟨r.1, r.2, hok, ?_⟩
  rw [hn]
  show ¬ _ + 10 ≤ 8
  omega

/-- An object of 400 bytes lies inside. -/
theorem edCreate_inside_small :
    ∃ o s', edCreate .calm sumCfg ⟨[107], [], 400⟩ newCache = .ok o s' ∧
      o.vno % sumCfg.blockCount + o.nblcks ≤ sumCfg.blockCount := by
  have hrun : (value (edCreate .calm sumCfg ⟨[107], [], 400⟩) newCache).isSome = true := by
    decide +kernel
  obtain ⟨r, hr⟩ := Option.isSome_iff_exists.mp hrun
  have hok := ok_of_value hr
  refine ⟨r.1, r.2, hok, ?_⟩
  have hinside := edCreate_inside .calm sumCfg (by decide) (by decide)
    (fun t q b _ h => absurd h (not_skips_of_calm .calm sumCfg fun _ => rfl)) hok
  exact hinside.mpr (by decide)

end Eddy
