import Eddy.Index.InsertFull
import Eddy.Index.Verify
import Eddy.Index.Start

/-!
# Eddy — the keys that `ed_bpt_set` accepts

After a search for `k` the cursor accepts every key between its neighbours, not only `k`. A leaf with
room takes any of them. When a full leaf is split, the first key of the right half becomes its
separator; but when the leaf is split where the new entry goes in, the source takes the key searched
for instead of the key of the entry, and an entry below it ends up on the wrong side of the separator.
-/

namespace Eddy

open Outcome Slots PageTree Layout Multimap Fencing List

variable {E : Type} [EdEntry E] (env : Env E) (g : Geom)

/-- The leaf of the cursor is full, and the nearer end of the run of equal keys at its mid point is
where the cursor stands. -/
def SplitsAt (s : St E) (d : EdDb) : Prop :=
  ∃ n lo hi, (s.txn.db d).find = some n ∧ (s.tree n).nkeys = g.leafOrder ∧ MidRun (s.tree n) lo hi ∧
    (s.txn.db d).entryIndex = nearEnd (s.tree n).nkeys lo hi

section Insert

variable {g} {s s' : St E} {R T : List Nat} {hs hs' : EdDb → Nat} {d : EdDb} {e : E} {k n r a b m : Nat}
  {up : List (Nat × Nat)}

/-- An insertion fails when the leaf holds one key only and cannot be split. -/
def dupExits : Exits EdErr EdFault (St E) where
  err err _ := err = .eindexDupkey
  halt _ _ := True
  stuck := False

theorem AtKey.splitsAt_iff (hat : AtKey s d k n up r) (hl : LeafOk g a b (s.tree n))
    (hg : g.leafOrder < 2 ^ 16) (hfull : (s.tree n).nkeys = g.leafOrder)
    (hm : splitPoint (s.txn.db d) (s.tree n) = some m) :
    SplitsAt g s d ↔ m = (s.txn.db d).entryIndex := by
  have h2 := g.leaf_ge
  obtain ⟨lo, hi, hrun⟩ := midRun_exists (s.tree n) (by omega)
  rw [splitPoint_eq (hat.searchedAt hl) (by omega) (by omega) hrun] at hm
  split at hm
  · cases hm
  cases hm
  constructor
  · rintro ⟨n', lo', hi', hfind, -, hrun', heq⟩
    rw [hat.find] at hfind
    cases hfind
    obtain ⟨rfl, rfl⟩ := hrun.unique hrun'
    exact heq.symm
  · intro heq
    exact ⟨n, lo, hi, hat.find, hfull, hrun, heq.symm⟩

theorem InsertAt.fits {k' k0 : Nat} (hins : InsertAt g s d k' n up r a b)
    (hcut : CutOk (s.tree n) k0 (s.txn.db d).entryIndex m) :
    Fits s.pages (rightKey (s.tree n) k0 (s.txn.db d).entryIndex m) (pagePath s up) := by
  have hpos := hcut.pos
  have hlt := hcut.lt
  refine Hole.fits hins.hole ?_ ?_
  · exact ((hins.leaf.range 0 (by omega)).1.trans_lt (hcut.left 0 (by omega))).le
  · exact (hcut.right m le_rfl hlt).trans_lt (hins.leaf.range m hlt).2

theorem insertIntoLeaf_dup (hfind : (s.txn.db d).find = some n)
    (hfull : (s.tree n).nkeys = g.leafOrder) (hm : splitPoint (s.txn.db d) (s.tree n) = none)
    {Q : Unit → St E → Prop} {X : Exits EdErr EdFault (St E)} (hX : X.err .eindexDupkey s) :
    wp (insertIntoLeaf env g d e false) Q X s := by
  unfold insertIntoLeaf roomInLeaf splitFull
  simp only [wp_bind, wp_getDb, wp_get]
  rw [hfind]
  simp only [wp_ite]
  refine ⟨fun _ => ?_, fun hno => absurd ⟨trivial, hfull⟩ hno⟩
  rw [wp_bind, wp_get, hm, wp_throw]
  exact hX

/-- `insert_into_leaf` after a search for `k` puts the entry in where the cursor stands. -/
theorem insertIntoLeaf_spec (hg : g.leafOrder < 2 ^ 16) (hcalm : ¬ Refused env) (h : TxnOk g s R T hs)
    (hat : AtKey s d k n up r) (hlen : up.length = hs d)
    (hins : InsertAt g s d (fetch64 e) n up r a b) {replace : Bool}
    (hrep : replace = true → (s.txn.db d).entryIndex < (s.tree n).nkeys)
    (hnew : replace = false → SplitsAt g s d → k ≤ fetch64 e) :
    wp (insertIntoLeaf env g d e replace)
      (fun _ s' => ∃ hs', Entered g s s' R T hs hs' d (entsBefore s d n up) e
        (entsFrom s n up ((s.txn.db d).entryIndex + if replace then 1 else 0)))
      dupExits s := by
  have h2 := g.leaf_ge
  have hroom := hins.leaf.room
  have hle := hat.le
  by_cases hfull : replace = false ∧ (s.tree n).nkeys = g.leafOrder
  · obtain ⟨rfl, hfull⟩ := hfull
    cases hm : splitPoint (s.txn.db d) (s.tree n) with
    | none => exact insertIntoLeaf_dup env hat.find hfull hm rfl
    | some m =>
      have hcut := splitPoint_spec (hat.searchedAt hins.leaf) (by omega) (by omega) hm
      rw [hat.key] at hcut
      refine wp_mono (insertIntoLeaf_full env hcalm h hat.toCursorAt hlen hfull hm hcut.pos hcut.lt
        (by rw [hat.key]; exact hins.fits hcut)) ?_ (fun _ _ hl => absurd hl.2 hcalm)
        (fun _ _ _ => trivial) False.elim
      rintro _ s' ⟨hgood, s3, pl, pr, c, up', fresh, dead, built, tall, hf, hra⟩
      rw [hat.key] at hf
      exact ⟨_, hf.entered h hins hlen hcut
        (fun hmi => hnew rfl ((hat.splitsAt_iff hins.leaf hg hfull hm).mpr hmi)) hra hgood⟩
  · have hne : replace = false → (s.tree n).nkeys ≠ g.leafOrder := fun h1 h2 => hfull ⟨h1, h2⟩
    refine wp_mono (insertIntoLeaf_room env h hat.toCursorAt hlen ?_ hroom hne) ?_
      (fun _ _ hl => absurd hl.2 hcalm) (fun _ _ _ => trivial) False.elim
    · cases replace with
      | true => exact (hrep rfl).trans_le hroom
      | false => exact lt_of_le_of_ne (hle.trans hroom) fun heq => hne rfl (by omega)
    · rintro _ s' ⟨hgood, hl | ⟨s3, c, up', fresh, dead, built, hf, hra⟩⟩
      · exact absurd hl.2 hcalm
      · exact ⟨hs, hf.entered h hins hlen hrep hra hgood⟩

end Insert

/-! ## What a caller expects -/

section Caller

variable {g} {s s1 s2 : St E} {R T : List Nat} {hs hs' : EdDb → Nat} {d : EdDb} {e : E}
  {k n r a b m : Nat} {up : List (Nat × Nat)} {res : Nat × Option EntPtr} {pre suf : List E}

variable (g) in
/-- The tree of `d` took up the entry `e`: `ed_bpt_verify` accepts it, it holds the old entries and
the new one, and `ed_bpt_find` finds every key that is present. -/
structure PutWell (s s' : St E) (hs hs' : EdDb → Nat) (d : EdDb) (e : E) : Prop where
  verify : ∃ s'', edBptVerify env g (rootNo s' d) s' = .ok true s''
  ents : PutInto (treeEnts s.pages (rootNo s d) (hs d)) (treeEnts s'.pages (rootNo s' d) (hs' d)) e
  finds : ∀ x ∈ treeEnts s'.pages (rootNo s' d) (hs' d),
    ∃ p s'', edBptFind env g d (fetch64 x) s' = .ok (1, p) s''

theorem edBptFind_finds (hcalm : ¬ Refused env) (h : TxnOk g s R T hs)
    (ho : TreeOk g s.pages (rootNo s d) (hs d)) {x : E}
    (hx : x ∈ treeEnts s.pages (rootNo s d) (hs d)) :
    ∃ p s', edBptFind env g d (fetch64 x) s = .ok (1, p) s' := by
  obtain ⟨res, s', hrun, hse⟩ := edBptFind_returns hcalm h ho (fetch64 x)
  have hroot := hse.quiet.rootNo h.good d
  rcases hse.place with ⟨hnone, -⟩ | ⟨n, up, r, hat, hlen, hres⟩
  · rw [← hroot, rootNo_none hnone.root] at hx
    cases hx
  · have hmat : (s'.txn.db d).matched = true := by
      refine hat.matched_of_mem (g := g) ?_ ?_ rfl
      · rw [hlen, hroot, hse.quiet.pages]
        exact ho
      · rw [hlen, hroot, hse.quiet.pages]
        exact hx
    rw [if_pos hmat] at hres
    exact ⟨_, s', hres ▸ hrun⟩

theorem Entered.putWell (hcalm : ¬ Refused env) (h : Entered g s s1 R T hs hs' d pre e suf)
    (hents : treeEnts s.pages (rootNo s d) (hs d) = pre ++ suf) : PutWell env g s s1 hs hs' d e where
  verify := by
    have hspec : wp (edBptVerify env g (rootNo s1 d)) _ _ s1 :=
      edBptVerify_spec (U := False) h.changed.ok fun q hq hno => hno (h.order.room hq)
    obtain ⟨ok, s', hrun, hok⟩ := ok_of_wp hspec (fun _ _ hx => hcalm hx) (fun _ _ hx => hx) id
    obtain rfl : ok = true := hok.mpr fun p hp => h.order.verified hp
    exact ⟨s', hrun⟩
  ents := ⟨pre, suf, hents, h.ents⟩
  finds := fun x hx => edBptFind_finds env hcalm h.changed.ok h.order hx

theorem accepted_of_set {replace : Bool} (h : edBptSet env g d e replace s1 = .ok () s2) :
    s1.txn.error = none ∧ (s1.txn.db d).accepts (fetch64 e) := by
  have hwp : wp (edBptSet env g d e replace)
      (fun _ _ => s1.txn.error = none ∧ (s1.txn.db d).accepts (fetch64 e)) Prog.free s1 := by
    unfold edBptSet
    simp only [wp_bind, wp_gets, wp_ite]
    refine ⟨fun _ => trivial, fun hro => ?_⟩
    have hnone : s1.txn.error = none := by
      rw [edTxnIsrdonly] at hro
      cases he : s1.txn.error with
      | none => rfl
      | some x => simp [he] at hro
    exact ⟨fun _ => trivial, fun hacc => wp_free_of fun _ _ _ => ⟨hnone, not_not.mp hacc⟩⟩
  exact wp_ok hwp h

variable (g) in
/-- The entry `e` went in front of the entries with the key `k`, or took the place of the first of
them. -/
def PutAt (s s' : St E) (R T : List Nat) (hs : EdDb → Nat) (d : EdDb) (k : Nat) (e : E) (swaps : Bool) :
    Prop :=
  ∃ hs' pre old suf, treeEnts s.pages (rootNo s d) (hs d) = pre ++ (old ++ suf) ∧
    (k < 2 ^ 64 → Cut fetch64 k pre (old ++ suf)) ∧
    (if swaps then ∃ a, old = [a] ∧ fetch64 a = k else old = []) ∧
    Entered g s s' R T hs hs' d pre e suf

/-- An insertion after a search for `k` is as expected, unless its leaf is split at the cursor and its
key is below `k`. -/
theorem Searched.putAt (hg : g.leafOrder < 2 ^ 16) (hcalm : ¬ Refused env)
    (hse : Searched g s s1 R T hs d k res) (ho : TreeOk g s1.pages (rootNo s1 d) (hs d))
    {replace : Bool} (hset : edBptSet env g d e replace s1 = .ok () s2)
    (hgood : SplitsAt g s1 d → k ≤ fetch64 e) :
    PutAt g s1 s2 R T hs d k e (replace && (s1.txn.db d).matched) := by
  have h1 := hse.ok
  obtain ⟨herr, hacc⟩ := accepted_of_set env hset
  refine wp_ok (wp_edBptSet env h1.base.writing.wr herr hacc (X := Prog.free)
    (Q := fun _ s2 => PutAt g s1 s2 R T hs d k e (replace && (s1.txn.db d).matched)) ?_) hset
  unfold PutAt
  rcases hse.place with ⟨hnone, -⟩ | ⟨n, up, r, hat, hlen, -⟩
  · -- the tree was empty
    rw [hnone.matched, Bool.and_false, rootNo_none hnone.root]
    refine wp_free (insertIntoLeaf_fresh env h1 hnone.root false) ?_
    rintro _ s' ⟨hgood, c, p, hf⟩
    exact ⟨_, [], [], [], rfl, fun _ => ⟨by simp, by simp⟩, rfl,
      (hf.entered h1 hnone.root hgood).modCursor rfl rfl rfl rfl⟩
  · rw [← hlen] at ho ⊢
    obtain ⟨a, b, hins⟩ := hat.insertAt ho hacc
    have hm : (replace && (s1.txn.db d).matched) = true → (s1.txn.db d).matched = true := fun h =>
      ((Bool.and_eq_true _ _).mp h).2
    have hcut : k < 2 ^ 64 → _ := hat.cut ho
    have hents := hat.ents
    refine wp_free (insertIntoLeaf_spec env hg hcalm h1 hat hlen hins
      (fun h => (hat.matched.mp (hm h)).1) fun _ => hgood) ?_
    rintro _ s' ⟨hs', hent⟩
    have hent := hent.modCursor (f := fun c => c.inserted (fetch64 e)) rfl rfl rfl rfl
    cases hb : replace && (s1.txn.db d).matched with
    | false =>
      rw [hb] at hent
      exact ⟨hs', _, [], _, hents, hcut, rfl, hent⟩
    | true =>
      obtain ⟨hi, hkey⟩ := hat.matched.mp (hm hb)
      rw [hb] at hent
      rw [entsFrom_cons hi] at hents hcut
      exact ⟨hs', _, [_], _, hents, hcut, ⟨_, rfl, hkey⟩, hent⟩

/-- An entry below the key searched for, in a leaf that is split where it goes in: the separator of
the right half is above it, and the check rejects the tree. -/
theorem SplitFilled.not_verified {pl pr c : Nat} {up' : List (Nat × Nat)} {fresh dead built : List Nat}
    {tall : Bool}
    (hf : SplitFilled g s s1 d n up e m k pl pr c up' fresh dead built tall)
    (hmi : m = (s.txn.db d).entryIndex) (hlt : fetch64 e < k) :
    ¬ Verified s1.pages up'.length 0 uint64Max (s1.node (topNode c up')).page := by
  intro hv
  rw [← Nat.zero_add up'.length] at hv
  have hleaf := hv.at hf.filled.graft.stands.link
  obtain ⟨hpage, -, hents⟩ := hf.right hmi.le
  rw [hf.sep hmi.le, hpage] at hleaf
  rw [← hmi, Nat.sub_self] at hents
  -- the entry is the first one of the right half
  have hfirst : (s1.pages pr).ents = e :: ((s.tree n).ents.drop m) := hents
  have hpos : 0 < (s1.pages pr).nkeys := by
    rw [← length_ents, hfirst]
    exact Nat.succ_pos _
  have h0 : (s1.pages pr).ent 0 = e := by
    have h1 := getElem?_ents hpos
    rw [hfirst] at h1
    exact (Option.some.inj h1).symm
  have hrange := (hleaf.range 0 hpos).1
  rw [h0] at hrange
  omega

theorem insertIntoLeaf_below (hg : g.leafOrder < 2 ^ 16) (hcalm : ¬ Refused env)
    (h : TxnOk g s R T hs) (hat : AtKey s d k n up r) (hlen : up.length = hs d)
    (hins : InsertAt g s d (fetch64 e) n up r a b) (hsplit : SplitsAt g s d) (hlt : fetch64 e < k) :
    wp (insertIntoLeaf env g d e false)
      (fun _ s' => ∃ hs', TxnOk g s' R T hs' ∧
        ¬ ∀ p, rootNo s' d = some p → Verified s'.pages (hs' d) 0 uint64Max p)
      Prog.free s := by
  have h2 := g.leaf_ge
  obtain ⟨n', lo, hi, hfind, hfull, hrun, hidx⟩ := hsplit
  rw [hat.find] at hfind
  cases hfind
  cases hm : splitPoint (s.txn.db d) (s.tree n) with
  | none => exact insertIntoLeaf_dup env hat.find hfull hm trivial
  | some m =>
    have hcut := splitPoint_spec (hat.searchedAt hins.leaf) (by omega) (by omega) hm
    have hmi := (hat.splitsAt_iff hins.leaf hg hfull hm).mp ⟨n, lo, hi, hat.find, hfull, hrun, hidx⟩
    rw [hat.key] at hcut
    have hpos := hcut.pos
    refine wp_free (insertIntoLeaf_full env hcalm h hat.toCursorAt hlen hfull hm hpos hcut.lt
      (by rw [hat.key]; exact hins.fits hcut)) ?_
    rintro _ s' ⟨hgood, s3, pl, pr, c, up', fresh, dead, built, tall, hf, hra⟩
    rw [hat.key, rightKey, if_pos hmi] at hf
    -- the separator in front of the leaf is rewritten for its first entry only
    obtain rfl : s' = s3 := by
      cases hra with
      | same heq => exact heq
      | key h0 _ => omega
    refine ⟨_, (hf.filled.changed h hat.toCursorAt hlen hgood).ok, fun hv => ?_⟩
    refine hf.not_verified hmi hlt ?_
    have := hv _ (by simp [rootNo, hf.filled.root]; rfl)
    rwa [Function.update_self, ← hf.filled.graft.length] at this

/-- After a search for `k`, an accepted entry that was inserted is in the tree as expected, unless its
leaf was split at the cursor and its key is below `k`; then the tree is damaged. -/
theorem putWell_iff (hg : g.leafOrder < 2 ^ 16) (hcalm : ¬ Refused env) (h : TxnOk g s R T hs)
    (ho : TreeOk g s.pages (rootNo s d) (hs d)) (hfind : edBptFind env g d k s = .ok res s1)
    (hacc : (s1.txn.db d).accepts (fetch64 e)) (hset : edBptSet env g d e false s1 = .ok () s2) :
    ∃ hs', TxnOk g s2 R T hs' ∧
      (PutWell env g s1 s2 hs hs' d e ↔ (SplitsAt g s1 d → k ≤ fetch64 e)) := by
  have hse := wp_ok (edBptFind_spec env g h k) hfind
  have h1 := hse.ok
  have ho1 : TreeOk g s1.pages (rootNo s1 d) (hs d) := by
    rw [hse.quiet.pages, hse.quiet.rootNo h.good]
    exact ho
  by_cases hgood : SplitsAt g s1 d → k ≤ fetch64 e
  · obtain ⟨hs', pre, old, suf, hents, -, rfl, hent⟩ := hse.putAt env hg hcalm ho1 hset hgood
    exact ⟨hs', hent.changed.ok, iff_of_true (hent.putWell env hcalm hents) hgood⟩
  obtain ⟨hsplit, hlt⟩ := Classical.not_imp.mp hgood
  refine wp_ok (wp_edBptSet env h1.base.writing.wr (accepted_of_set env hset).1 hacc
    (X := Prog.free) (Q := fun _ s2 => ∃ hs', TxnOk g s2 R T hs' ∧
      (PutWell env g s1 s2 hs hs' d e ↔ (SplitsAt g s1 d → k ≤ fetch64 e))) ?_) hset
  rw [Bool.false_and]
  rcases hse.place with ⟨hnone, -⟩ | ⟨n, up, r, hat, hlen, -⟩
  · -- an empty tree has no leaf to split
    obtain ⟨n, lo, hi, hsome, -⟩ := hsplit
    rw [hnone.find] at hsome
    cases hsome
  · rw [← hlen] at ho1
    obtain ⟨a, b, hins⟩ := hat.insertAt ho1 hacc
    refine wp_free (insertIntoLeaf_below env hg hcalm h1 hat hlen hins hsplit (not_le.mp hlt)) ?_
    rintro _ s' ⟨hs', hok, hbad⟩
    have hok' := hok.modCursor (d := d) (f := fun c => c.inserted (fetch64 e)) rfl rfl rfl rfl
    refine ⟨hs', hok', iff_of_false (fun hp => hbad ?_) hgood⟩
    obtain ⟨s'', hrun⟩ := hp.verify
    have hspec : wp (edBptVerify env g _) _ _ _ :=
      edBptVerify_spec (U := True) (d := d) hok' fun _ _ _ => trivial
    have := (wp_ok hspec hrun).mp rfl
    rwa [rootNo_modDb rfl] at this

end Caller

section Small

/-- A full leaf with the keys 0, 10, 20 and so on. -/
def tens : List UInt64 := (List.range 169).map fun j => UInt64.ofNat (10 * j)

theorem tens_sorted : tens.Pairwise fun a b => fetch64 a ≤ fetch64 b := by
  refine pairwise_map.mpr (pairwise_lt_range.imp_of_mem fun {a b} ha hb hab => ?_)
  have hlt := mem_range.mp hb
  show (UInt64.ofNat (10 * a)).toNat ≤ (UInt64.ofNat (10 * b)).toNat
  rw [UInt64.toNat_ofNat_of_lt' (show 10 * a < 18446744073709551616 by omega),
    UInt64.toNat_ofNat_of_lt' (show 10 * b < 18446744073709551616 by omega)]
  omega

/-- The search for 835 in the full leaf. It ends in front of slot 84, where the leaf is split. -/
def found835 : St UInt64 := (edBptFind Env.calm Geom.page4096 .keys 835).after (leafSt tens)

/-- The tree with the entry `e` in it. -/
def tensWith (e : UInt64) : St UInt64 := (edBptSet Env.calm Geom.page4096 .keys e false).after found835

theorem found835_run :
    ∃ p, edBptFind Env.calm Geom.page4096 .keys 835 (leafSt tens) = .ok p found835 := by
  have hret : (edBptFind Env.calm Geom.page4096 .keys 835).returns (fun _ => true) (leafSt tens)
      = true := by decide +kernel
  obtain ⟨p, hrun, -⟩ := ok_of_returns hret
  exact ⟨p, hrun⟩

theorem tensWith_run {e : UInt64}
    (hret : (edBptSet Env.calm Geom.page4096 .keys e false).returns (fun _ => true) found835 = true) :
    edBptSet Env.calm Geom.page4096 .keys e false found835 = .ok () (tensWith e) := by
  obtain ⟨⟨⟩, hrun, -⟩ := ok_of_returns hret
  exact hrun

theorem putWell_837 : ∃ hs', TxnOk Geom.page4096 (tensWith 837) [2] [2] hs' ∧
    (PutWell Env.calm Geom.page4096 found835 (tensWith 837) (fun _ => 0) hs' .keys 837 ↔
      (SplitsAt Geom.page4096 found835 .keys → 835 ≤ fetch64 (837 : UInt64))) := by
  obtain ⟨p, hfind⟩ := found835_run
  exact putWell_iff Env.calm (by decide) calm_grants (leafSt_started _ tens).txnOk
    (leafSt_treeOk tens_sorted (by decide +kernel)) hfind (by decide +kernel)
    (tensWith_run (by decide +kernel))

/-- The entry 832 is accepted after the search for 835; afterwards the check rejects the tree, and a
search does not find the entry. -/
theorem lost_832 : ∃ res s3 s4,
    edBptFind Env.calm Geom.page4096 .keys 835 (leafSt tens) = .ok res found835 ∧
    (found835.txn.db .keys).accepts (fetch64 (832 : UInt64)) ∧
    edBptSet Env.calm Geom.page4096 .keys 832 false found835 = .ok () (tensWith 832) ∧
    edBptVerify Env.calm Geom.page4096 (rootNo (tensWith 832) .keys) (tensWith 832) = .ok false s3 ∧
    edBptFind Env.calm Geom.page4096 .keys 832 (tensWith 832) = .ok (0, none) s4 := by
  obtain ⟨res, hfind⟩ := found835_run
  have hver : (edBptVerify Env.calm Geom.page4096 (rootNo (tensWith 832) .keys)).returns
      (fun ok => ok == false) (tensWith 832) = true := by decide +kernel
  have hlost : (edBptFind Env.calm Geom.page4096 .keys 832).returns (fun r => r == (0, none))
      (tensWith 832) = true := by decide +kernel
  obtain ⟨ok, hrun, hok⟩ := ok_of_returns hver
  obtain ⟨r, hrun', hr⟩ := ok_of_returns hlost
  obtain rfl : ok = false := by simpa using hok
  obtain rfl : r = (0, none) := by simpa using hr
  exact ⟨res, _, _, hfind, by decide +kernel, tensWith_run (by decide +kernel), hrun, hrun'⟩

end Small

end Eddy
