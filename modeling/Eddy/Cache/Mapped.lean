import Eddy.Cache.Calls
import Eddy.Cache.Mapping
import Eddy.Lib.AddrSpace

/-!
# Eddy — the mapped ranges of the slab

The functions of `cache.c` map the blocks of objects and unmap them again, with block counts of
different origins: the count of an index entry, the constant `1`, the smallest size of an object, or
the size that the header of the object gives. This module has the mappings of one process and, for
each function, the calls of `ed_blk_map` and `ed_blk_unmap` that it makes. What the function sees (the
entries of a search, whether a lock is granted, the headers) are its arguments.
-/

namespace Eddy

open Outcome AddrSpace List

variable (c : CacheCfg)

/-! ## Mapping and unmapping -/

/-- `nmin` of `obj_reserve` and `obj_upsert`: a number of bytes, which is passed for a number of
blocks. -/
def nmin : Nat := edAlignSize (objHdrSize + edMaxKey + 1) c.blockSize

/-- `block_need` of a list. -/
def blockNeed : Nat := (objHdrSize + edMaxKey + (c.blockSize - 1)) / c.blockSize

/-- A pointer that `ed_blk_map` returned, with the mapping it made. -/
structure HdrPtr where
  m : Mapping
  p : Int
  deriving DecidableEq, Repr

/-- What a call of `ed_blk_unmap` released, and the mapping its pointer was from. -/
structure Release where
  m : Mapping
  addr : Int
  pages : Nat
  deriving DecidableEq, Repr

/-- The pages of a mapping. -/
def Mapping.area (m : Mapping) : Area := ⟨m.base / pageSize, m.pgcount⟩

def Release.area (r : Release) : Area := ⟨r.addr.toNat / pageSize, r.pages⟩

/-- The pages that were released are those that were mapped. -/
def Release.Exact (r : Release) : Prop := r.addr = r.m.base ∧ r.pages = r.m.pgcount

/-- The mappings of a process. A list has a pointer while it shows an object. -/
structure MapSt where
  space : Space
  log : List Release
  objs : List (HdrPtr × EdObject)
  lists : List (Option HdrPtr)
  tick : Nat

/-- A function of the cache, as far as it maps blocks. -/
abbrev PM := Prog CacheErr EdFault MapSt

variable (mmap : Nat → Option Nat)

/-- The answer of the kernel: the address that the environment proposes, if it is the start of a page
and all the pages from there on are unused. -/
def mmapAt (s : MapSt) (_ count : Nat) : Option Nat :=
  match mmap s.tick with
  | none => none
  | some b =>
    if b % pageSize = 0 ∧ b + count * pageSize ≤ 2 ^ 64 ∧
        ∀ i < count, s.space.used (b / pageSize + i) = false then some b
    else none

/-- `ed_blk_map` of the slab. -/
def blkMap (no count : Nat) : PM HdrPtr := fun s =>
  match edBlkMap (mmapAt mmap s) no count c.blockSize with
  | none => .err .sys { s with tick := s.tick + 1 }
  | some (m, p) => .ok ⟨m, p⟩ { s with space := s.space.map m.area, tick := s.tick + 1 }

/-- What `ed_blk_unmap` releases. -/
def release (h : HdrPtr) (count : Nat) : Release :=
  ⟨h.m, (edBlkUnmap h.p count c.blockSize).1, (edBlkUnmap h.p count c.blockSize).2⟩

/-- `ed_blk_unmap` of the slab. -/
def blkUnmap (h : HdrPtr) (count : Nat) : PM Unit := Prog.modify fun s =>
  { s with
    space := s.space.unmap h.m.area (release c h count).area
    log := s.log ++ [release c h count] }

/-! ## The functions of the cache -/

/-- An entry that a search of the keys yields: whether it counts as expired, whether the lock on its
blocks is granted, and the header that its first block shows. -/
structure KeyVisit where
  vno : Nat
  count : Nat
  exp : Nat
  expired : Bool
  granted : Bool
  hdr : EdObjectHdr

/-- `open_key`. -/
def openKeyMaps (k : List UInt8) : List KeyVisit → PM (Option (HdrPtr × EdObjectHdr × EdObject))
  | [] => pure none
  | v :: vs =>
    if v.expired then openKeyMaps k vs
    else if v.granted = false then openKeyMaps k vs
    else do
      let no := v.vno % c.blockCount
      let h ← blkMap c mmap no v.count
      if v.hdr.key = k then pure (some (h, v.hdr, objInit c v.hdr no v.vno true v.exp []))
      else do
        blkUnmap c h v.count
        openKeyMaps k vs

/-- The entry that `open_id` finds. -/
structure BlockVisit where
  no : Nat
  count : Nat
  vno : Nat
  granted : Bool
  hdr : EdObjectHdr

/-- `open_id`. -/
def openIdMaps : Option BlockVisit → PM (Option (HdrPtr × EdObjectHdr × EdObject))
  | none => pure none
  | some v =>
    if v.granted = false then pure none
    else do
      let h ← blkMap c mmap v.no v.count
      pure (some (h, v.hdr, objInit c v.hdr v.no v.vno true v.hdr.exp []))

/-- `ed_open`. The mapping of an object with wrong checksums stays. -/
def edOpenMaps (find : PM (Option (HdrPtr × EdObjectHdr × EdObject))) : PM Unit := do
  let found ← find
  match found with
  | none => pure ()
  | some (h, hdr, o) =>
    match objVerify c hdr with
    | some e => Prog.throw e
    | none => Prog.modify fun s => { s with objs := s.objs ++ [(h, o)] }

/-- An object that `obj_reserve` removes from the index, and whether the index fails there. -/
structure Evicted where
  no : Nat
  fails : Bool

/-- The loop of `obj_reserve` over the overwritten objects. -/
def evictMaps : List Evicted → PM Unit
  | [] => pure ()
  | e :: es => do
    let h ← blkMap c mmap e.no (nmin c)
    blkUnmap c h (nmin c)
    if e.fails then Prog.throw .sys else evictMaps es

/-- `ed_create`, with the region `vno` that was reserved for it; `old` is what its header showed
before. -/
def edCreateMaps (a : EdObjectAttr) (now : Nat) (old : EdObjectHdr) (evicted : List Evicted)
    (vno : Nat) (committed : Bool) : PM Unit := do
  evictMaps c mmap evicted
  let nblcks := a.size c / c.blockSize
  let no := vno % c.blockCount
  let h ← blkMap c mmap no nblcks
  if committed = false then do
    blkUnmap c h nblcks
    Prog.throw .sys
  else
    Prog.modify fun s =>
      { s with objs := s.objs ++ [(h, objInit c (newHdr c a now old) no vno false edTimeInf a.key)] }

/-- The loop of `obj_upsert` over the keys with the same hash, by the blocks they are at. -/
def upsertMaps : List Nat → PM Unit
  | [] => pure ()
  | no :: nos => do
    let h ← blkMap c mmap no (nmin c)
    blkUnmap c h (nmin c)
    upsertMaps nos

/-- `ed_close`. -/
def edCloseMaps (i : Nat) (upserted : List Nat) : PM Unit := do
  let objs ← Prog.gets fun s => s.objs
  match objs[i]? with
  | none => pure ()
  | some (h, o) => do
    let _ ← Prog.attempt (upsertMaps c mmap upserted)
    blkUnmap c h o.nblcks
    Prog.modify fun s => { s with objs := s.objs.eraseIdx i }

/-- `ed_discard`. -/
def edDiscardMaps (i : Nat) : PM Unit := do
  let objs ← Prog.gets fun s => s.objs
  match objs[i]? with
  | none => pure ()
  | some (h, o) => do
    blkUnmap c h o.nblcks
    Prog.modify fun s => { s with objs := s.objs.eraseIdx i }

/-- An entry that the search of `update_expiry` yields: whether it is passed over as expired, and
whether its expiry is set. -/
structure ExpiryVisit where
  vno : Nat
  count : Nat
  skipped : Bool
  set : Bool

/-- `update_expiry`: one block is mapped, and as many as the entry has are unmapped. -/
def updateExpiryMaps : List ExpiryVisit → PM Unit
  | [] => pure ()
  | v :: vs =>
    if v.skipped then updateExpiryMaps vs
    else do
      let h ← blkMap c mmap (v.vno % c.blockCount) 1
      blkUnmap c h v.count
      if v.set then pure () else updateExpiryMaps vs

/-- `list_clear`. -/
def listClearMaps (i : Nat) : PM Unit := do
  let lists ← Prog.gets fun s => s.lists
  match lists[i]? with
  | some (some h) => do
    blkUnmap c h (blockNeed c)
    Prog.modify fun s => { s with lists := s.lists.set i none }
  | _ => pure ()

/-- A position of `ed_list_next`, and whether the call returns there. -/
structure ListVisit where
  no : Nat
  stop : Bool

/-- `ed_list_next`. -/
def edListNextMaps (i : Nat) : List ListVisit → PM Unit
  | [] => listClearMaps c i
  | v :: vs => do
    listClearMaps c i
    let h ← blkMap c mmap v.no (blockNeed c)
    Prog.modify fun s => { s with lists := s.lists.set i (some h) }
    if v.stop then pure () else edListNextMaps i vs

/-- `ed_list_close`. -/
def edListCloseMaps (i : Nat) : PM Unit := do
  listClearMaps c i
  Prog.modify fun s => { s with lists := s.lists.eraseIdx i }

/-- The calls of the cache, with what the index and the slab show to them. -/
inductive MapCall where
  | openKey (k : List UInt8) (visits : List KeyVisit)
  | openId (visit : Option BlockVisit)
  | create (a : EdObjectAttr) (now : Nat) (old : EdObjectHdr) (evicted : List Evicted) (vno : Nat)
      (committed : Bool)
  | close (i : Nat) (upserted : List Nat)
  | discard (i : Nat)
  | updateExpiry (visits : List ExpiryVisit)
  | listOpen
  | listNext (i : Nat) (visits : List ListVisit)
  | listClose (i : Nat)

/-- The mappings that a call makes and releases. -/
def MapCall.run : MapCall → PM Unit
  | .openKey k visits => edOpenMaps c (openKeyMaps c mmap k visits)
  | .openId visit => edOpenMaps c (openIdMaps c mmap visit)
  | .create a now old evicted vno committed => edCreateMaps c mmap a now old evicted vno committed
  | .close i upserted => edCloseMaps c mmap i upserted
  | .discard i => edDiscardMaps c i
  | .updateExpiry visits => updateExpiryMaps c mmap visits
  | .listOpen => Prog.modify fun s => { s with lists := s.lists ++ [none] }
  | .listNext i visits => edListNextMaps c mmap i visits
  | .listClose i => edListCloseMaps c i

/-- A run: calls one after the other, whatever they return. -/
def runMaps : List MapCall → PM Unit
  | [] => pure ()
  | x :: xs => do
    let _ ← Prog.attempt (x.run c mmap)
    runMaps xs

/-- A process that has mapped nothing. -/
def MapSt.init : MapSt where
  space := { used := fun _ => false, live := [] }
  log := []
  objs := []
  lists := []
  tick := 0

/-! ## Ranges that are unmapped as they were mapped -/

/-- The blocks from `no` on start below 4 GiB and end inside the pages of a file. -/
structure Low (no count : Nat) : Prop where
  fits : (no + count) * c.blockSize ≤ (2 ^ 32 - 1) * pageSize
  start : no * c.blockSize < 2 ^ 32

/-- From the block `no` on, `m` blocks and `n` blocks take the same number of pages. -/
def SamePages (no m n : Nat) : Prop :=
  edCountPg (m * c.blockSize + no * c.blockSize % pageSize) =
    edCountPg (n * c.blockSize + no * c.blockSize % pageSize) ∧
  n * c.blockSize + no * c.blockSize % pageSize ≤ (2 ^ 32 - 1) * pageSize

/-- Unmapping `n` blocks releases what the pointer was mapped with. -/
def HdrPtr.Frees (h : HdrPtr) (n : Nat) : Prop := (release c h n).Exact

variable {c mmap} {s s' : MapSt} {no count i : Nat}

theorem Low.samePages (h : Low c no count) : SamePages c no count count := by
  have hfits := h.fits
  rw [Nat.add_mul] at hfits
  have hmod : no * c.blockSize % pageSize ≤ no * c.blockSize := Nat.mod_le _ _
  exact ⟨rfl, by omega⟩

theorem mmapAt_some {b : Nat} (h : mmapAt mmap s no count = some b) :
    b % pageSize = 0 ∧ b + count * pageSize ≤ 2 ^ 64 ∧ s.space.Fresh ⟨b / pageSize, count⟩ := by
  unfold mmapAt at h
  cases hm : mmap s.tick with
  | none => rw [hm] at h; cases h
  | some b' =>
    rw [hm] at h
    simp only [Option.ite_none_right_eq_some, Option.some.injEq] at h
    obtain ⟨⟨hal, hend, hfree⟩, rfl⟩ := h
    refine ⟨hal, hend, fun p hp => ?_⟩
    have hp' : b' / pageSize + (p - b' / pageSize) = p := Nat.add_sub_cancel' hp.1
    have hlt : p - b' / pageSize < count := by
      have := hp.2
      simp only at this
      omega
    rw [← hp']
    exact hfree _ hlt

theorem edBlkMap_frees {m : Mapping} {p : Int} (hlow : Low c no count)
    (h : edBlkMap (mmapAt mmap s) no count c.blockSize = some (m, p)) :
    s.space.Fresh m.area ∧ ∀ n, SamePages c no count n → HdrPtr.Frees c ⟨m, p⟩ n := by
  have hfits := hlow.fits
  have hstart := hlow.start
  rw [Nat.add_mul] at hfits
  have hps : pageSize = 4096 := rfl
  rw [edBlkMap, Option.map_eq_some_iff] at h
  obtain ⟨m', hm', heq⟩ := h
  rw [edPgMap] at hm'
  split at hm'
  · cases hm'
  · obtain ⟨base, hbase, rfl⟩ := Option.map_eq_some_iff.mp hm'
    cases heq
    obtain ⟨hal, hend, hfresh⟩ := mmapAt_some hbase
    obtain ⟨hdiff, hcount⟩ := blkRange_pgcount hfits hstart
    refine ⟨hfresh, fun n hn => ?_⟩
    obtain ⟨hsame, hle⟩ := hn
    rw [hcount, hps] at hend
    rw [hps] at hal hle hsame
    rw [edCountPg_eq (by omega), edCountPg_eq hle] at hsame
    have hunmap : edBlkUnmap ((base : Int) + (no * c.blockSize % 4096 : Nat)) n c.blockSize =
        ((base : Int), (n * c.blockSize + no * c.blockSize % 4096 + 4095) / 4096) :=
      edBlkUnmap_eq hal (Nat.mod_lt _ (by decide)) (by omega) hle
    constructor
    · show (edBlkUnmap (base + (blkRange no count c.blockSize).diff) n c.blockSize).1 = (base : Int)
      rw [hdiff, hunmap]
    · show (edBlkUnmap (base + (blkRange no count c.blockSize).diff) n c.blockSize).2 =
        (blkRange no count c.blockSize).pgcount
      rw [hdiff, hunmap, hcount, hsame]

/-! ## The invariant -/

/-- Nothing was released that was not meant, every mapping is intact, and those in `O` are among
them. -/
structure MapOk (O : List Area) (s : MapSt) : Prop where
  intact : s.space.Intact
  exact : ∀ r ∈ s.log, r.Exact
  own : O.Subperm s.space.live

/-- The open objects and lists are the same. -/
def SameHandles (s s' : MapSt) : Prop := s'.objs = s.objs ∧ s'.lists = s.lists

theorem SameHandles.trans {s'' : MapSt} (a : SameHandles s s') (b : SameHandles s' s'') :
    SameHandles s s'' := ⟨b.1.trans a.1, b.2.trans a.2⟩

variable {O : List Area} {X : Exits CacheErr EdFault MapSt}

/-- The exits of a function that fails with the invariant kept. -/
def mapExits (O : List Area) (s : MapSt) : Exits CacheErr EdFault MapSt where
  err _ s' := MapOk O s' ∧ SameHandles s s'
  halt _ _ := False
  stuck := False

theorem blkMap_spec (h : MapOk O s) (hlow : Low c no count) :
    wp (blkMap c mmap no count)
      (fun p s' => MapOk (p.m.area :: O) s' ∧ SameHandles s s' ∧
        ∀ n, SamePages c no count n → p.Frees c n) (mapExits O s) s := by
  unfold blkMap wp
  cases hmap : edBlkMap (mmapAt mmap s) no count c.blockSize with
  | none =>
    simp only [hmap]
    exact ⟨⟨h.intact, h.exact, h.own⟩, rfl, rfl⟩
  | some x =>
    obtain ⟨m, p⟩ := x
    obtain ⟨hfresh, hfrees⟩ := edBlkMap_frees hlow hmap
    simp only [hmap]
    exact ⟨⟨h.intact.map hfresh, h.exact, (subperm_cons _).mpr h.own⟩, ⟨rfl, rfl⟩, hfrees⟩

theorem blkUnmap_spec {p : HdrPtr} {n : Nat} (h : MapOk (p.m.area :: O) s) (hf : p.Frees c n) :
    wp (blkUnmap c p n) (fun _ s' => MapOk O s' ∧ SameHandles s s') X s := by
  have harea : (release c p n).area = p.m.area := by
    unfold Release.area Mapping.area
    rw [hf.1, hf.2]
    rfl
  have hlive : p.m.area ∈ s.space.live := h.own.subset mem_cons_self
  refine ⟨⟨?_, fun r hr => ?_, ?_⟩, rfl, rfl⟩
  · show (s.space.unmap p.m.area (release c p n).area).Intact
    rw [harea]
    exact h.intact.unmap hlive
  · rcases mem_append.mp hr with hr | hr
    · exact h.exact r hr
    · rw [mem_singleton.mp hr]
      exact hf
  · have hown := h.own.erase p.m.area
    rwa [erase_cons_head] at hown

theorem mapUnmap_spec {n : Nat} {x : PM Unit} (h : MapOk O s) (hlow : Low c no count)
    (hsame : SamePages c no count n)
    (hx : ∀ s', MapOk O s' → wp x (fun _ s'' => MapOk O s'' ∧ SameHandles s' s'')
      (mapExits O s') s') :
    wp (do
        let p ← blkMap c mmap no count
        blkUnmap c p n
        x) (fun _ s' => MapOk O s' ∧ SameHandles s s') (mapExits O s) s := by
  rw [wp_bind]
  refine wp_post (blkMap_spec h hlow) ?_
  rintro p s1 ⟨h1, hh1, hfrees⟩
  rw [wp_bind]
  refine wp_post (blkUnmap_spec h1 (hfrees n hsame)) ?_
  rintro _ s2 ⟨h2, hh2⟩
  have hh := hh1.trans hh2
  exact wp_mono (hx s2 h2) (fun _ _ h => ⟨h.1, hh.trans h.2⟩)
    (fun _ _ h => ⟨h.1, hh.trans h.2⟩) (fun _ _ h => h) id

/-! ## The loops -/

theorem evictMaps_spec (es : List Evicted) (hes : ∀ e ∈ es, Low c e.no (nmin c)) (h : MapOk O s) :
    wp (evictMaps c mmap es) (fun _ s' => MapOk O s' ∧ SameHandles s s') (mapExits O s) s := by
  induction es generalizing s with
  | nil => exact ⟨h, rfl, rfl⟩
  | cons e es ih =>
    have hlow := hes e mem_cons_self
    refine mapUnmap_spec h hlow hlow.samePages fun s' h' => ?_
    rw [wp_ite]
    exact ⟨fun _ => ⟨h', rfl, rfl⟩, fun _ => ih (fun e' he' => hes e' (mem_cons_of_mem _ he')) h'⟩

theorem upsertMaps_spec (nos : List Nat) (hnos : ∀ no ∈ nos, Low c no (nmin c)) (h : MapOk O s) :
    wp (upsertMaps c mmap nos) (fun _ s' => MapOk O s' ∧ SameHandles s s') (mapExits O s)
      s := by
  induction nos generalizing s with
  | nil => exact ⟨h, rfl, rfl⟩
  | cons no nos ih =>
    have hlow := hnos no mem_cons_self
    exact mapUnmap_spec h hlow hlow.samePages fun s' h' =>
      ih (fun n hn => hnos n (mem_cons_of_mem _ hn)) h'

/-- The entries of `update_expiry` that it maps take as many pages as their first block. -/
def ExpiryVisit.Fits (c : CacheCfg) (v : ExpiryVisit) : Prop :=
  v.skipped = false → Low c (v.vno % c.blockCount) 1 ∧ SamePages c (v.vno % c.blockCount) 1 v.count

theorem updateExpiryMaps_spec (vs : List ExpiryVisit) (hvs : ∀ v ∈ vs, v.Fits c) (h : MapOk O s) :
    wp (updateExpiryMaps c mmap vs) (fun _ s' => MapOk O s' ∧ SameHandles s s') (mapExits O s)
      s := by
  induction vs generalizing s with
  | nil => exact ⟨h, rfl, rfl⟩
  | cons v vs ih =>
    have hrest := fun v' hv' => hvs v' (mem_cons_of_mem _ hv')
    rw [updateExpiryMaps, wp_ite]
    refine ⟨fun _ => ih hrest h, fun hskip => ?_⟩
    obtain ⟨hlow, hsame⟩ := hvs v mem_cons_self (by simpa using hskip)
    refine mapUnmap_spec h hlow hsame fun s' h' => ?_
    rw [wp_ite]
    exact ⟨fun _ => ⟨h', rfl, rfl⟩, fun _ => ih hrest h'⟩

/-- The mapped blocks of an entry take as many pages as the object that their header shows. -/
def KeyVisit.Fits (c : CacheCfg) (k : List UInt8) (v : KeyVisit) : Prop :=
  v.expired = false → v.granted = true → Low c (v.vno % c.blockCount) v.count ∧
    (v.hdr.key = k →
      SamePages c (v.vno % c.blockCount) v.count (v.hdr.size c / c.blockSize))

def BlockVisit.Fits (c : CacheCfg) (v : BlockVisit) : Prop :=
  v.granted = true → Low c v.no v.count ∧ SamePages c v.no v.count (v.hdr.size c / c.blockSize)

/-- What the lookups of `ed_open` return: an object with its mapping, or nothing. -/
def Found (O : List Area) (s : MapSt) (c : CacheCfg) :
    Option (HdrPtr × EdObjectHdr × EdObject) → MapSt → Prop
  | none, s' => MapOk O s' ∧ SameHandles s s'
  | some (p, _, o), s' => MapOk (p.m.area :: O) s' ∧ SameHandles s s' ∧ p.Frees c o.nblcks

theorem openKeyMaps_spec (k : List UInt8) (vs : List KeyVisit) (hvs : ∀ v ∈ vs, v.Fits c k)
    (h : MapOk O s) :
    wp (openKeyMaps c mmap k vs) (Found O s c) (mapExits O s) s := by
  induction vs generalizing s with
  | nil => exact ⟨h, rfl, rfl⟩
  | cons v vs ih =>
    have hrest := fun v' hv' => hvs v' (mem_cons_of_mem _ hv')
    rw [openKeyMaps, wp_ite]
    refine ⟨fun _ => ih hrest h, fun hexp => ?_⟩
    rw [wp_ite]
    refine ⟨fun _ => ih hrest h, fun hgr => ?_⟩
    obtain ⟨hlow, hsame⟩ := hvs v mem_cons_self (by simpa using hexp) (by simpa using hgr)
    rw [wp_bind]
    refine wp_post (blkMap_spec h hlow) ?_
    rintro p s1 ⟨h1, hh1, hfrees⟩
    rw [wp_ite]
    refine ⟨fun hk => ⟨h1, hh1, hfrees _ (hsame hk)⟩, fun _ => ?_⟩
    rw [wp_bind]
    refine wp_post (blkUnmap_spec h1 (hfrees _ hlow.samePages)) ?_
    rintro _ s2 ⟨h2, hh2⟩
    have hh := hh1.trans hh2
    refine wp_mono (ih hrest h2) ?_ (fun _ _ h => ⟨h.1, hh.trans h.2⟩) (fun _ _ h => h) id
    rintro (_ | ⟨q, hdr, o⟩) s3 h3
    · exact ⟨h3.1, hh.trans h3.2⟩
    · exact ⟨h3.1, hh.trans h3.2.1, h3.2.2⟩

theorem openIdMaps_spec (v : Option BlockVisit) (hv : ∀ b, v = some b → b.Fits c) (h : MapOk O s) :
    wp (openIdMaps c mmap v) (Found O s c) (mapExits O s) s := by
  cases v with
  | none => exact ⟨h, rfl, rfl⟩
  | some b =>
    rw [openIdMaps, wp_ite]
    refine ⟨fun _ => ⟨h, rfl, rfl⟩, fun hgr => ?_⟩
    obtain ⟨hlow, hsame⟩ := hv b rfl (by simpa using hgr)
    rw [wp_bind]
    refine wp_post (blkMap_spec h hlow) ?_
    rintro p s1 ⟨h1, hh1, hfrees⟩
    exact ⟨h1, hh1, hfrees _ hsame⟩

/-! ## Objects and lists -/

/-- The mappings of the open objects and lists. -/
def MapSt.owned (s : MapSt) : List Area :=
  s.objs.map (fun x => x.1.m.area) ++ s.lists.filterMap fun l => l.map fun p => p.m.area

/-- What holds between two calls. -/
structure MapInv (c : CacheCfg) (s : MapSt) : Prop where
  ok : MapOk s.owned s
  objs : ∀ x ∈ s.objs, x.1.Frees c x.2.nblcks
  lists : ∀ p, some p ∈ s.lists → p.Frees c (blockNeed c)

/-- The exits of a call: it keeps the invariant. -/
def invExits (c : CacheCfg) : Exits CacheErr EdFault MapSt where
  err _ s' := MapInv c s'
  halt _ _ := False
  stuck := False

theorem MapOk.perm {O' : List Area} (h : MapOk O s) (hp : O'.Perm O) : MapOk O' s :=
  ⟨h.intact, h.exact, hp.subperm.trans h.own⟩

theorem MapOk.tail {a : Area} (h : MapOk (a :: O) s) : MapOk O s :=
  ⟨h.intact, h.exact, (sublist_cons_self a O).subperm.trans h.own⟩

theorem MapInv.of_same (h : MapInv c s) (hok : MapOk s.owned s') (hh : SameHandles s s') :
    MapInv c s' := by
  have howned : s'.owned = s.owned := by
    unfold MapSt.owned
    rw [hh.1, hh.2]
  refine ⟨by rw [howned]; exact hok, fun x hx => ?_, fun p hp => ?_⟩
  · rw [hh.1] at hx
    exact h.objs x hx
  · rw [hh.2] at hp
    exact h.lists p hp

theorem MapInv.addObject {p : HdrPtr} {o : EdObject} (h : MapInv c s)
    (hok : MapOk (p.m.area :: s.owned) s') (hh : SameHandles s s') (hf : p.Frees c o.nblcks) :
    MapInv c { s' with objs := s'.objs ++ [(p, o)] } := by
  have hperm : (MapSt.owned { s' with objs := s'.objs ++ [(p, o)] }).Perm (p.m.area :: s.owned) := by
    unfold MapSt.owned
    rw [hh.1, hh.2, map_append, append_assoc]
    exact perm_middle
  have hbase := hok.perm hperm
  refine ⟨⟨hbase.intact, hbase.exact, hbase.own⟩, fun x hx => ?_, fun q hq => ?_⟩
  · rcases mem_append.mp hx with hx | hx
    · rw [hh.1] at hx
      exact h.objs x hx
    · rw [mem_singleton.mp hx]
      exact hf
  · rw [show ({ s' with objs := s'.objs ++ [(p, o)] } : MapSt).lists = s'.lists from rfl, hh.2] at hq
    exact h.lists q hq

theorem owned_eraseIdx {x : HdrPtr × EdObject} (hx : s.objs[i]? = some x) :
    s.owned.Perm (x.1.m.area :: MapSt.owned { s with objs := s.objs.eraseIdx i }) := by
  obtain ⟨hi, rfl⟩ := List.getElem?_eq_some_iff.mp hx
  have hperm : (s.objs[i] :: s.objs.eraseIdx i).Perm s.objs := getElem_cons_eraseIdx_perm hi
  unfold MapSt.owned
  exact (hperm.symm.map _).append_right _

theorem closeObject_inv {x : HdrPtr × EdObject} (h : MapInv c s) {s1 : MapSt}
    (hx : s.objs[i]? = some x) (hok : MapOk s.owned s1) (hh : SameHandles s s1) :
    wp (do
        blkUnmap c x.1 x.2.nblcks
        Prog.modify fun s => { s with objs := s.objs.eraseIdx i })
      (fun _ s' => MapInv c s') (invExits c) s1 := by
  have hmem : x ∈ s.objs := mem_of_getElem? hx
  rw [wp_bind]
  refine wp_post (blkUnmap_spec (hok.perm (owned_eraseIdx hx).symm) (h.objs x hmem)) ?_
  rintro _ s2 ⟨h2, hh2⟩
  have hhs := hh.trans hh2
  refine ⟨?_, fun y hy => ?_, fun p hp => ?_⟩
  · have howned : MapSt.owned { s2 with objs := s2.objs.eraseIdx i } =
        MapSt.owned { s with objs := s.objs.eraseIdx i } := by
      unfold MapSt.owned
      rw [hhs.1, hhs.2]
    show MapOk (MapSt.owned { s2 with objs := s2.objs.eraseIdx i }) _
    rw [howned]
    exact ⟨h2.intact, h2.exact, h2.own⟩
  · have hy' : y ∈ s.objs := by
      rw [← hhs.1]
      exact mem_of_mem_eraseIdx hy
    exact h.objs y hy'
  · have hp' : some p ∈ s.lists := by
      rw [← hhs.2]
      exact hp
    exact h.lists p hp'

/-- The mapping that a list shows, if any. -/
def shown (l : Option HdrPtr) : Option Area := l.map fun p => p.m.area

theorem shown_set_perm (ls : List (Option HdrPtr)) (hi : i < ls.length) (l : Option HdrPtr) :
    ((ls.set i l).filterMap shown).Perm ((l :: ls.eraseIdx i).filterMap shown) := by
  have hi' : i < (ls.set i l).length := by rwa [length_set]
  have hperm := getElem_cons_eraseIdx_perm hi'
  rw [getElem_set_self, eraseIdx_set_eq] at hperm
  exact (hperm.filterMap shown).symm

theorem MapInv.setList {l : Option HdrPtr} (h : MapInv c s)
    (hok : MapOk (s.objs.map (fun x => x.1.m.area) ++ (s.lists.set i l).filterMap shown) s')
    (hobjs : s'.objs = s.objs) (hlists : s'.lists = s.lists.set i l)
    (hf : ∀ p, l = some p → p.Frees c (blockNeed c)) : MapInv c s' := by
  refine ⟨?_, fun x hx => ?_, fun p hp => ?_⟩
  · unfold MapSt.owned
    rw [hobjs, hlists]
    exact hok
  · rw [hobjs] at hx
    exact h.objs x hx
  · rw [hlists] at hp
    rcases mem_or_eq_of_mem_set hp with hp' | hp'
    · exact h.lists p hp'
    · exact hf p hp'.symm

theorem listClearMaps_spec (i : Nat) (h : MapInv c s) :
    wp (listClearMaps c i) (fun _ s' => MapInv c s' ∧ s'.lists = s.lists.set i none)
      (invExits c) s := by
  unfold listClearMaps
  rw [wp_bind, wp_gets]
  cases hl : s.lists[i]? with
  | none =>
    have hi : s.lists.length ≤ i := List.getElem?_eq_none_iff.mp hl
    exact ⟨h, (set_eq_of_length_le hi).symm⟩
  | some l =>
    obtain ⟨hi, hget⟩ := List.getElem?_eq_some_iff.mp hl
    cases l with
    | none =>
      refine ⟨h, ?_⟩
      rw [← hget, set_getElem_self]
    | some p =>
      -- The pointer of the list is one of the mappings of the process.
      have hfull : (s.lists.filterMap shown).Perm
          (p.m.area :: (s.lists.set i none).filterMap shown) := by
        have hsame := shown_set_perm s.lists hi s.lists[i]
        rw [set_getElem_self, hget] at hsame
        exact hsame.trans ((shown_set_perm s.lists hi none).symm.cons _)
      have hok : MapOk (p.m.area :: (s.objs.map (fun x => x.1.m.area) ++
          (s.lists.set i none).filterMap shown)) s :=
        h.ok.perm (perm_middle.symm.trans (hfull.symm.append_left _))
      rw [wp_bind]
      refine wp_post (blkUnmap_spec hok (h.lists p (mem_of_getElem? hl))) ?_
      rintro _ s1 ⟨h1, hh1⟩
      have hlists : s1.lists.set i none = s.lists.set i none := by rw [hh1.2]
      exact ⟨h.setList ⟨h1.intact, h1.exact, h1.own⟩ hh1.1 hlists nofun, hlists⟩

theorem edListNextMaps_spec (i : Nat) (vs : List ListVisit)
    (hvs : ∀ v ∈ vs, Low c v.no (blockNeed c)) (h : MapInv c s) :
    wp (edListNextMaps c mmap i vs) (fun _ s' => MapInv c s') (invExits c) s := by
  induction vs generalizing s with
  | nil =>
    exact wp_post (listClearMaps_spec i h) fun _ _ h => h.1
  | cons v vs ih =>
    have hlow := hvs v mem_cons_self
    rw [edListNextMaps, wp_bind]
    refine wp_post (listClearMaps_spec i h) ?_
    rintro _ s1 ⟨h1, hl1⟩
    rw [wp_bind]
    refine wp_mono (blkMap_spec h1.ok hlow) ?_ (fun _ _ hk => h1.of_same hk.1 hk.2)
      (fun _ _ h => h) id
    rintro p s2 ⟨h2, hh2, hfrees⟩
    rw [wp_bind, wp_modify]
    have hinv : MapInv c { s2 with lists := s2.lists.set i (some p) } := by
      refine h1.setList (i := i) (l := some p) ?_ hh2.1 (by rw [hh2.2]) ?_
      · by_cases hi : i < s1.lists.length
        · -- The place was empty, so the new mapping is the only change.
          have hnone : s1.lists = s1.lists.set i none := by
            have hset : s1.lists.set i none = s.lists.set i none := by rw [hl1, set_set]
            rw [hset, hl1]
          have hp1 := shown_set_perm s1.lists hi none
          rw [← hnone] at hp1
          have hp2 : ((s1.lists.set i (some p)).filterMap shown).Perm
              (p.m.area :: s1.lists.filterMap shown) :=
            (shown_set_perm s1.lists hi (some p)).trans (hp1.symm.cons _)
          have hall := h2.perm ((hp2.append_left _).trans perm_middle)
          exact ⟨hall.intact, hall.exact, hall.own⟩
        · rw [set_eq_of_length_le (Nat.not_lt.mp hi)]
          have hall := h2.tail
          exact ⟨hall.intact, hall.exact, hall.own⟩
      · rintro q ⟨⟩
        exact hfrees _ hlow.samePages
    rw [wp_ite]
    exact ⟨fun _ => hinv, fun _ => ih (fun v' hv' => hvs v' (mem_cons_of_mem _ hv')) hinv⟩

theorem edListCloseMaps_spec (i : Nat) (h : MapInv c s) :
    wp (edListCloseMaps c i) (fun _ s' => MapInv c s') (invExits c) s := by
  unfold edListCloseMaps
  rw [wp_bind]
  refine wp_post (listClearMaps_spec i h) ?_
  rintro _ s1 ⟨h1, -⟩
  have hsub : (s1.lists.eraseIdx i).Sublist s1.lists := eraseIdx_sublist _ _
  refine ⟨?_, h1.objs, fun p hp => h1.lists p (hsub.subset hp)⟩
  refine ⟨h1.ok.intact, h1.ok.exact, List.Subperm.trans ?_ h1.ok.own⟩
  exact ((List.Sublist.refl _).append (hsub.filterMap _)).subperm

/-! ## Whole runs -/

/-- The calls that unmap what they mapped: every range starts below 4 GiB, an object that is opened
takes as many pages as the entry says, and `update_expiry` maps only entries that take as many pages
as their first block. -/
def MapCall.Fitting (c : CacheCfg) : MapCall → Prop
  | .openKey k visits => ∀ v ∈ visits, v.Fits c k
  | .openId visit => ∀ v, visit = some v → v.Fits c
  | .create a _ _ evicted vno _ => (∀ e ∈ evicted, Low c e.no (nmin c)) ∧
      Low c (vno % c.blockCount) (a.size c / c.blockSize)
  | .close _ upserted => ∀ no ∈ upserted, Low c no (nmin c)
  | .discard _ => True
  | .updateExpiry visits => ∀ v ∈ visits, v.Fits c
  | .listOpen => True
  | .listNext _ visits => ∀ v ∈ visits, Low c v.no (blockNeed c)
  | .listClose _ => True

theorem edOpenMaps_spec {find : PM (Option (HdrPtr × EdObjectHdr × EdObject))} (h : MapInv c s)
    (hfind : wp find (Found s.owned s c) (mapExits s.owned s) s) :
    wp (edOpenMaps c find) (fun _ s' => MapInv c s') (invExits c) s := by
  unfold edOpenMaps
  rw [wp_bind]
  refine wp_mono hfind ?_ (fun _ _ hk => h.of_same hk.1 hk.2) (fun _ _ h => h) id
  rintro (_ | ⟨p, hdr, o⟩) s1 hf
  · exact h.of_same hf.1 hf.2
  · cases hver : objVerify c hdr with
    | some e =>
      simp only [hver, wp_throw]
      exact h.of_same hf.1.tail hf.2.1
    | none =>
      simp only [hver, wp_modify]
      exact h.addObject hf.1 hf.2.1 hf.2.2

theorem edCreateMaps_spec (a : EdObjectAttr) (now : Nat) (old : EdObjectHdr) (evicted : List Evicted)
    (vno : Nat) (committed : Bool) (h : MapInv c s) (hev : ∀ e ∈ evicted, Low c e.no (nmin c))
    (hlow : Low c (vno % c.blockCount) (a.size c / c.blockSize)) :
    wp (edCreateMaps c mmap a now old evicted vno committed) (fun _ s' => MapInv c s')
      (invExits c) s := by
  unfold edCreateMaps
  rw [wp_bind]
  refine wp_mono (evictMaps_spec evicted hev h.ok) ?_ (fun _ _ hk => h.of_same hk.1 hk.2)
    (fun _ _ h => h) id
  rintro _ s1 ⟨h1, hh1⟩
  rw [wp_bind]
  refine wp_mono (blkMap_spec h1 hlow) ?_ (fun _ _ hk => h.of_same hk.1 (hh1.trans hk.2))
    (fun _ _ h => h) id
  rintro p s2 ⟨h2, hh2, hfrees⟩
  have hh := hh1.trans hh2
  have hf := hfrees _ hlow.samePages
  rw [wp_ite]
  refine ⟨fun _ => ?_, fun _ => ?_⟩
  · rw [wp_bind]
    refine wp_post (blkUnmap_spec h2 hf) ?_
    rintro _ s3 ⟨h3, hh3⟩
    exact h.of_same h3 (hh.trans hh3)
  · rw [wp_modify]
    refine h.addObject h2 hh ?_
    -- The header that was just written has the size the blocks were reserved for.
    show p.Frees c ((newHdr c a now old).size c / c.blockSize)
    rw [newHdr_size]
    exact hf

theorem edCloseMaps_spec (i : Nat) (upserted : List Nat) (h : MapInv c s)
    (hup : ∀ no ∈ upserted, Low c no (nmin c)) :
    wp (edCloseMaps c mmap i upserted) (fun _ s' => MapInv c s') (invExits c) s := by
  unfold edCloseMaps
  rw [wp_bind, wp_gets]
  cases hx : s.objs[i]? with
  | none => exact h
  | some x =>
    simp only [wp_bind, wp_attempt]
    have hclose := fun (s1 : MapSt) (hok : MapOk s.owned s1) hh => closeObject_inv h hx hok hh
    simp only [wp_bind] at hclose
    exact wp_mono (upsertMaps_spec upserted hup h.ok) (fun _ s1 h1 => hclose s1 h1.1 h1.2)
      (fun _ s1 h1 => hclose s1 h1.1 h1.2) (fun _ _ h => h) id

theorem edDiscardMaps_spec (i : Nat) (h : MapInv c s) :
    wp (edDiscardMaps c i) (fun _ s' => MapInv c s') (invExits c) s := by
  unfold edDiscardMaps
  rw [wp_bind, wp_gets]
  cases hx : s.objs[i]? with
  | none => exact h
  | some x => exact closeObject_inv h hx h.ok ⟨rfl, rfl⟩

theorem MapCall.run_spec (x : MapCall) (hx : x.Fitting c) (h : MapInv c s) :
    wp (x.run c mmap) (fun _ s' => MapInv c s') (invExits c) s := by
  cases x with
  | openKey k visits => exact edOpenMaps_spec h (openKeyMaps_spec k visits hx h.ok)
  | openId visit => exact edOpenMaps_spec h (openIdMaps_spec visit hx h.ok)
  | create a now old evicted vno committed =>
    exact edCreateMaps_spec a now old evicted vno committed h hx.1 hx.2
  | close i upserted => exact edCloseMaps_spec i upserted h hx
  | discard i => exact edDiscardMaps_spec i h
  | updateExpiry visits =>
    exact wp_mono (updateExpiryMaps_spec visits hx h.ok) (fun _ _ hk => h.of_same hk.1 hk.2)
      (fun _ _ hk => h.of_same hk.1 hk.2) (fun _ _ h => h) id
  | listOpen =>
    refine ⟨⟨h.ok.intact, h.ok.exact, ?_⟩, h.objs, fun p hp => ?_⟩
    · have howned : MapSt.owned { s with lists := s.lists ++ [none] } = s.owned := by
        unfold MapSt.owned
        simp
      show (MapSt.owned { s with lists := s.lists ++ [none] }).Subperm _
      rw [howned]
      exact h.ok.own
    · rcases mem_append.mp hp with hp | hp
      · exact h.lists p hp
      · cases mem_singleton.mp hp
  | listNext i visits => exact edListNextMaps_spec i visits hx h
  | listClose i => exact edListCloseMaps_spec i h

theorem runMaps_spec (xs : List MapCall) (hxs : ∀ x ∈ xs, x.Fitting c) (h : MapInv c s) :
    wp (runMaps c mmap xs) (fun _ s' => MapInv c s') ⟨fun _ _ => False, fun _ _ => False, False⟩
      s := by
  induction xs generalizing s with
  | nil => exact h
  | cons x xs ih =>
    have hrest := fun x' hx' => hxs x' (mem_cons_of_mem x hx')
    rw [runMaps, wp_bind, wp_attempt]
    exact wp_mono (x.run_spec (hxs x mem_cons_self) h) (fun _ _ h' => ih hrest h')
      (fun _ _ h' => ih hrest h') (fun _ _ h => h) id

theorem MapInv.init (c : CacheCfg) : MapInv c MapSt.init where
  ok := ⟨⟨nofun, List.Pairwise.nil⟩, nofun, List.Subperm.refl _⟩
  objs := nofun
  lists := nofun

/-- In every run of fitting calls each `ed_blk_unmap` releases what its pointer was mapped with, and
every mapping that was not released is there as a whole. -/
theorem runMaps_exact (c : CacheCfg) (mmap : Nat → Option Nat) (xs : List MapCall)
    (hxs : ∀ x ∈ xs, x.Fitting c) :
    ∃ s, runMaps c mmap xs MapSt.init = .ok () s ∧ (∀ r ∈ s.log, r.Exact) ∧ s.space.Intact := by
  have hspec : wp (runMaps c mmap xs) _ _ MapSt.init := runMaps_spec xs hxs (MapInv.init c)
  obtain ⟨⟨⟩, s, hrun, hinv⟩ := ok_of_wp hspec (fun _ _ h => h) (fun _ _ h => h) id
  exact ⟨s, hrun, hinv.ok.exact, hinv.ok.intact⟩

/-! ## The lookups of `ed_open` -/

section Lookup

variable (env : CacheEnv) {slab : Nat → EdObjectHdr} {u : Cst} {k : List UInt8} {now : Nat}

/-- A lookup on the slab finds `o`, unless a mapping fails. -/
def Finds (slab : Nat → EdObjectHdr)
    (find : (Nat → Option Nat) → PM (Option (HdrPtr × EdObjectHdr × EdObject)))
    (o : Option EdObject) : Prop :=
  ∀ mmap t, wp (find mmap) (fun x _ => x.map Prod.snd = o.map fun o => (slab o.no, o)) Prog.free t

theorem slab_aside : Aside fun u => u.slab = slab := ⟨fun _ _ h => h, fun _ _ h => h⟩

theorem edFlck_slab (m : EdLckType) (r : Ranges.Range) :
    Preserves (fun u => u.slab = slab) (edFlck env m r) :=
  (ask_aside slab_aside _).bind fun _ => .bind (.when (.modify fun _ h => h)) fun _ => .pure _

theorem openEntry_visit {key : EdEntryKey} (hs : u.slab = slab) :
    wp (openEntry env c k now key) (fun o u' => u'.slab = slab ∧
      ∃ v : KeyVisit, v.hdr = slab (v.vno % c.blockCount) ∧ ∀ vs r,
        Finds slab (fun mmap => openKeyMaps c mmap k vs) r →
        Finds slab (fun mmap => openKeyMaps c mmap k (v :: vs)) (o <|> r)) Prog.free u := by
  set visit : Bool → Bool → KeyVisit := fun e b =>
    ⟨key.vno, key.count, key.exp, e, b, slab (key.vno % c.blockCount)⟩
  unfold openEntry
  rw [wp_ite]
  refine ⟨fun _ => ⟨hs, visit true false, rfl, fun vs r hr => hr⟩, fun _ => ?_⟩
  rw [wp_bind]
  refine (edFlck_slab env _ _).free hs fun granted u1 h1 => ?_
  rw [wp_ite]
  refine ⟨fun _ => ⟨h1, visit false false, rfl, fun vs r hr => hr⟩, fun _ => ?_⟩
  rw [wp_bind]
  refine (Preserves.attempt (require_aside env slab_aside)).free h1 fun rc u2 h2 => ?_
  cases rc with
  | error e => trivial
  | ok _ =>
    simp only [wp_bind, wp_gets, wp_ite, wp_pure']
    subst h2
    refine ⟨fun hk => ⟨rfl, visit false true, rfl, fun vs r _ mmap t => ?_⟩,
      fun hk => ⟨rfl, visit false true, rfl, fun vs r hr mmap t => ?_⟩⟩
    all_goals
      show wp (blkMap c mmap _ _ >>= _) _ _ t
      rw [wp_bind]
      refine wp_free_of fun p t1 _ => ?_
    · rw [if_pos hk]
      rfl
    · rw [if_neg hk, wp_bind]
      exact wp_free_of fun _ t2 _ => hr mmap t2

theorem openKeyLoop_visits (fuel : Nat) (rc : Except CacheErr (Nat × Option EntPtr))
    (hs : u.slab = slab) :
    wp (openKeyLoop env c k now fuel rc) (fun o _ =>
      ∃ vs, (∀ v ∈ vs, v.hdr = slab (v.vno % c.blockCount)) ∧
        Finds slab (fun mmap => openKeyMaps c mmap k vs) o) Prog.free u := by
  induction fuel generalizing rc u with
  | zero => trivial
  | succ fuel ih =>
    cases rc with
    | error e => exact ⟨[], nofun, fun _ _ => rfl⟩
    | ok rc =>
      rw [openKeyLoop, wp_bind, wp_gets, wp_ite]
      refine ⟨fun _ => ?_, fun _ => ⟨[], nofun, fun _ _ => rfl⟩⟩
      rw [wp_bind]
      refine (readKey_aside env slab_aside _).free hs fun key u1 h1 => ?_
      rw [wp_bind]
      refine wp_post (openEntry_visit env h1) ?_
      rintro o u2 ⟨h2, v, hv, hyield⟩
      cases o with
      | some o => exact ⟨[v], by simpa using hv, hyield [] none fun _ _ => rfl⟩
      | none =>
        show wp (Prog.attempt _ >>= _) _ _ u2
        rw [wp_bind]
        refine (Preserves.attempt (onIdx_aside slab_aside _)).free h2 fun rc' u3 h3 => ?_
        refine wp_post (ih rc' h3) ?_
        rintro o u4 ⟨vs, hvs, hy⟩
        exact ⟨v :: vs, forall_mem_cons.mpr ⟨hv, hvs⟩, hyield vs o hy⟩

theorem openId_visit (id : Option (Nat × Nat)) (hs : u.slab = slab) :
    wp (openId env c id) (fun o _ => ∃ v : Option BlockVisit, (∀ b, v = some b → b.hdr = slab b.no) ∧
        Finds slab (fun mmap => openIdMaps c mmap v) o) Prog.free u := by
  have hnone : ∃ v : Option BlockVisit, (∀ b, v = some b → b.hdr = slab b.no) ∧
      Finds slab (fun mmap => openIdMaps c mmap v) none := ⟨none, nofun, fun _ _ => rfl⟩
  match id with
  | none => trivial
  | some (xid, vno) =>
    unfold openId
    rw [wp_bind, wp_get, wp_ite]
    refine ⟨fun _ => hnone, fun _ => ?_⟩
    rw [wp_bind]
    refine (onIdx_aside slab_aside _).free hs fun rc u1 h1 => ?_
    rw [wp_ite]
    refine ⟨fun _ => hnone, fun _ => ?_⟩
    rw [wp_bind]
    refine (readBlock_aside env slab_aside _).free h1 fun b u2 h2 => ?_
    rw [wp_ite]
    refine ⟨fun _ => hnone, fun _ => ?_⟩
    rw [wp_bind]
    refine (edFlck_slab env _ _).free h2 fun granted u3 h3 => ?_
    rw [wp_ite]
    refine ⟨fun _ => hnone, fun _ => ?_⟩
    rw [wp_bind]
    refine (Preserves.attempt (require_aside env slab_aside)).free h3 fun rc u4 h4 => ?_
    cases rc with
    | error e => trivial
    | ok _ =>
      subst h4
      refine ⟨some ⟨b.no.toNat, b.count, vno, true, u4.slab b.no.toNat⟩, ?_, fun mmap t => ?_⟩
      · rintro _ ⟨⟩
        rfl
      · show wp (blkMap c mmap _ _ >>= _) _ _ t
        rw [wp_bind]
        exact wp_free_of fun p t1 _ => rfl

/-- What the lookup of `ed_open` finds, a call with the entries that it has visited and the headers of
the slab finds too. -/
theorem openLookup_maps (q : Query) :
    wp (openLookup env c q) (fun o _ => ∃ find, Finds u.slab find o ∧
      ((∃ k vs, q = .key k ∧ (∀ v ∈ vs, v.hdr = u.slab (v.vno % c.blockCount)) ∧
          ∀ mmap, MapCall.run c mmap (.openKey k vs) = edOpenMaps c (find mmap)) ∨
        ∃ id v, q = .id id ∧ (∀ b, v = some b → b.hdr = u.slab b.no) ∧
          ∀ mmap, MapCall.run c mmap (.openId v) = edOpenMaps c (find mmap))) Prog.free u := by
  unfold openLookup
  rw [wp_bind]
  refine (onIdx_aside slab_aside _).free rfl fun _ u1 h1 => ?_
  cases q with
  | key k =>
    show wp (openKey env c k) _ _ u1
    unfold openKey
    rw [wp_bind]
    refine (ask_aside slab_aside _).free h1 fun now u2 h2 => ?_
    rw [wp_bind]
    refine (Preserves.attempt (onIdx_aside slab_aside _)).free h2 fun rc u3 h3 => ?_
    refine wp_post (openKeyLoop_visits env _ rc h3) ?_
    rintro o u4 ⟨vs, hvs, hy⟩
    exact ⟨_, hy, .inl ⟨k, vs, rfl, hvs, fun _ => rfl⟩⟩
  | id id =>
    refine wp_post (openId_visit env id h1) ?_
    rintro o u2 ⟨v, hv, hy⟩
    exact ⟨_, hy, .inr ⟨id, v, rfl, hv, fun _ => rfl⟩⟩

end Lookup

/-! ## Two small runs -/

/-- A slab of sixteen blocks, each of one page. -/
def pageCfg : CacheCfg where
  build := .page4096
  blockSize := 4096
  blockCount := 16
  epoch := 0
  hash _ := 0
  crc _ := 0
  checksum := false
  noverify := false
  pagealign := false
  keepold := false

/-- An object with `n` bytes of data. -/
def attrOf (n : Nat) : EdObjectAttr := ⟨[107], [], n⟩

/-- An empty header. -/
def EdObjectHdr.blank : EdObjectHdr := ⟨0, 0, 0, 0, 0, 0, [], [], []⟩

/-- Create an object at the first block, close it, open it again and set its expiry; `count` is the
number of blocks in its entry. -/
def expiryRun (n count : Nat) : List MapCall :=
  [.create (attrOf n) 0 .blank [] 0 true, .close 0 [],
    .openKey [107] [⟨0, count, 0, false, true, newHdr pageCfg (attrOf n) 0 .blank⟩],
    .updateExpiry [⟨0, count, false, true⟩]]

/-- The addresses of the kernel: the third mapping lies right below the second one. -/
def mmapBelow (t : Nat) : Option Nat := some (if t = 2 then 4096 else 8192)

/-- An object of one block. -/
theorem runMaps_exact_one : ∃ s, runMaps pageCfg mmapBelow (expiryRun 100 1) MapSt.init = .ok () s ∧
    (∀ r ∈ s.log, r.Exact) ∧ s.space.Intact := by
  refine runMaps_exact pageCfg mmapBelow (expiryRun 100 1) ?_
  have hlow : Low pageCfg 0 1 := ⟨by decide, by decide⟩
  have hsame : SamePages pageCfg 0 1 1 := hlow.samePages
  intro x hx
  simp only [expiryRun, mem_cons, not_mem_nil, or_false] at hx
  rcases hx with rfl | rfl | rfl | rfl
  · exact ⟨nofun, hlow⟩
  · exact nofun
  · intro v hv
    rw [mem_singleton.mp hv]
    exact fun _ _ => ⟨hlow, fun _ => hsame⟩
  · intro v hv
    rw [mem_singleton.mp hv]
    exact fun _ => ⟨hlow, hsame⟩

/-- An object of two blocks: `update_expiry` maps one page and unmaps two, and the second one is the
first page of the open object. -/
theorem runMaps_foreign : ∃ s, runMaps pageCfg mmapBelow (expiryRun 5000 2) MapSt.init = .ok () s ∧
    (∃ r ∈ s.log, ¬ r.Exact) ∧ ¬ s.space.Intact := by
  obtain ⟨⟨⟩, hrun, -⟩ := ok_of_returns
    (show Prog.returns (runMaps pageCfg mmapBelow (expiryRun 5000 2)) (fun _ => true) MapSt.init =
      true by decide +kernel)
  refine ⟨_, hrun, ⟨⟨⟨4096, 0, 1⟩, 4096, 2⟩, by decide +kernel, ?_⟩, fun hin => ?_⟩
  · rintro ⟨-, h⟩
    exact absurd h (by decide)
  · have hused := hin.full ⟨2, 2⟩ (by decide +kernel) 2 (by decide)
    exact absurd hused (by decide +kernel)

end Eddy
