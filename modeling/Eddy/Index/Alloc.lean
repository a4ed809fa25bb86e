import Eddy.Index.Txn
import Mathlib.Data.List.Perm.Subperm
import Mathlib.Data.List.Perm.Lattice
import Mathlib.Data.List.Nodup

/-!
# Eddy — what the allocator does to the page lists

`EdPgIdx.free` lists the pages the header accounts for: the GC chain with its lists, and the
tail. `Moves h h' out inn` says that between two headers the pages `out` left this list, the
pages `inn` joined it, and the pages the file grew by were added. Every function of the
allocator is specified by one `AllocStep`, which also says that nothing else changed.
-/

namespace Eddy

open Outcome Slots List

variable {E : Type} (env : Env E)

/-- The tail pages. -/
def EdPgIdx.tail (h : EdPgIdx) : List Nat := List.range' h.tailStart h.tailCount

/-- The pages the header accounts for. -/
def EdPgIdx.free (h : EdPgIdx) : List Nat := h.gcs ++ h.tail

/-- The pages the file grew by. -/
def grown (h h' : EdPgIdx) : List Nat := List.range' h.no (h'.no - h.no)

/-- Pages `out` left the free pages, pages `inn` joined them, and the file may have grown. -/
structure Moves (h h' : EdPgIdx) (out inn : List Nat) : Prop where
  no_le : h.no ≤ h'.no
  perm : (h'.free ++ out).Perm (h.free ++ inn ++ grown h h')

theorem range'_split (a : Nat) {n c : Nat} (h : n ≤ c) :
    List.range' a n ++ List.range' (a + n) (c - n) = List.range' a c := by
  have h1 : List.range' a n ++ List.range' (a + 1 * n) (c - n) = List.range' a (n + (c - n)) :=
    List.range'_append
  rwa [Nat.one_mul, show n + (c - n) = c by omega] at h1

theorem grown_self (h : EdPgIdx) : grown h h = [] := by simp [grown]

theorem grown_append {h h' h'' : EdPgIdx} (h1 : h.no ≤ h'.no) (h2 : h'.no ≤ h''.no) :
    grown h h' ++ grown h' h'' = grown h h'' := by
  unfold grown
  have := range'_split h.no (n := h'.no - h.no) (c := h''.no - h.no) (by omega)
  rwa [show h.no + (h'.no - h.no) = h'.no by omega,
    show h''.no - h.no - (h'.no - h.no) = h''.no - h'.no by omega] at this

theorem Moves.refl (h : EdPgIdx) : Moves h h [] [] :=
  ⟨le_refl _, by simp [grown_self]⟩

theorem Moves.trans {h h' h'' : EdPgIdx} {out inn out' inn' : List Nat}
    (a : Moves h h' out inn) (b : Moves h' h'' out' inn') :
    Moves h h'' (out ++ out') (inn ++ inn') := by
  refine ⟨a.no_le.trans b.no_le, ?_⟩
  rw [← grown_append a.no_le b.no_le, perm_iff_count]
  intro p
  have ha := a.perm.count_eq p
  have hb := b.perm.count_eq p
  simp only [count_append] at ha hb ⊢
  omega

/-- What a call of the allocator changes: the free pages, and the bytes of the pages it hands
out. -/
structure AllocStep (s s' : St E) (out inn : List Nat) : Prop where
  moves : Moves s.hdr s'.hdr out inn
  pages : ∀ p, p ∉ out → s'.pages p = s.pages p
  txn : s'.txn = s.txn
  conn : s'.conn = s.conn
  lck : s'.lck = s.lck
  busy : s'.busy = s.busy
  lost : s'.lost = s.lost
  tree : s'.hdr.tree = s.hdr.tree
  xid : s'.hdr.xid = s.hdr.xid
  vno : s'.hdr.vno = s.hdr.vno
  active : s'.hdr.active = s.hdr.active

theorem AllocStep.refl (s : St E) : AllocStep s s [] [] where
  moves := Moves.refl _
  pages _ _ := rfl
  txn := rfl
  conn := rfl
  lck := rfl
  busy := rfl
  lost := rfl
  tree := rfl
  xid := rfl
  vno := rfl
  active := rfl

/-- The exits of a call of the allocator that fails: the file may have grown. -/
def allocExits (s : St E) : Exits EdErr EdFault (St E) where
  err _ s' := AllocStep s s' [] []
  halt _ _ := False
  stuck := False

theorem edAlignSize_ge (n a : Nat) (ha : 0 < a) : n ≤ edAlignSize n a := by
  unfold edAlignSize
  have h := Nat.div_add_mod (n + a - 1) a
  have hm := Nat.mod_lt (n + a - 1) ha
  have hc : (n + a - 1) / a * a = a * ((n + a - 1) / a) := Nat.mul_comm _ _
  omega

/-! ## The functions of the allocator -/

theorem mapEndPages_spec (r : EdReq) (n : Nat) (s : St E) :
    wp (mapEndPages env r n)
      (fun ps s' => ps.length = n ∧ s'.hdr.gcs = s.hdr.gcs ∧ s'.pages = s.pages ∧
        AllocStep s s' ps [])
      (allocExits s) s := by
  unfold mapEndPages
  simp only [wp_ite, wp_pure', wp_bind, wp_modHdr, wp_sysFails,
    wp_throw, wp_gets]
  refine ⟨fun h => ?_, fun h => ⟨fun _ => ?_, fun _ => ?_⟩⟩
  · subst h
    exact ⟨rfl, trivial, trivial, AllocStep.refl s⟩
  · -- the file may have grown before the mapping failed
    refine { AllocStep.refl s with moves := ⟨?_, ?_⟩ }
    · simp only [St.modHdr, St.atTick, EdPgIdx.no]
      split <;> omega
    · simp only [St.modHdr, St.atTick, EdPgIdx.free, EdPgIdx.tail, grown, EdPgIdx.no,
        append_nil]
      split
      · rw [append_assoc, Nat.add_sub_add_left, range'_split _ (Nat.le_add_right _ _)]
      · simp
  · have hge := edAlignSize_ge n edAllocCount (by decide)
    refine ⟨by simp, rfl, rfl, { AllocStep.refl s with
      moves := ⟨?_, ?_⟩, pages := fun _ _ => rfl }⟩
    · simp only [St.modHdr, St.atTick, EdPgIdx.no]
      split <;> omega
    · simp only [St.modHdr, St.atTick, EdPgIdx.free, EdPgIdx.tail, grown, EdPgIdx.no,
        append_nil]
      have key : ∀ c, n ≤ c → s.hdr.tailCount ≤ c →
          (s.hdr.gcs ++ List.range' (s.hdr.tailStart + n) (c - n)
              ++ List.range' s.hdr.tailStart n).Perm
            (s.hdr.gcs ++ List.range' s.hdr.tailStart s.hdr.tailCount
              ++ List.range' (s.hdr.tailStart + s.hdr.tailCount)
                (s.hdr.tailStart + n + (c - n) - (s.hdr.tailStart + s.hdr.tailCount))) := by
        intro c hn hc
        rw [show s.hdr.tailStart + n + (c - n) - (s.hdr.tailStart + s.hdr.tailCount)
          = c - s.hdr.tailCount by omega, append_assoc, append_assoc,
          range'_split _ hc, ← range'_split _ hn]
        exact perm_append_comm.append_left _
      split
      · exact key _ (by omega) (by omega)
      · exact key _ (by omega) (by omega)

theorem pickFree_subperm (wish free : List Nat) (n : Nat) :
    (pickFree wish free n).Subperm free := by
  unfold pickFree
  have hnd : ((wish.filter fun p => p ∈ free).dedup.take n).Nodup :=
    (nodup_dedup _).sublist (take_sublist _ _)
  refine subperm_of_subset hnd ?_
  intro p hp
  have := mem_dedup.mp (mem_of_mem_take hp)
  simpa using (mem_filter.mp this).2

theorem length_pickFree_le (wish free : List Nat) (n : Nat) :
    (pickFree wish free n).length ≤ n := by
  unfold pickFree
  exact length_take_le _ _

/-- `ed_alloc` hands out `n` pages or none. -/
theorem edAlloc_spec (n : Nat) (s : St E) :
    wp (edAlloc env n) (fun ps s' => ps.length = n ∧ AllocStep s s' ps []) (allocExits s) s := by
  unfold edAlloc
  simp only [wp_ite, wp_pure', wp_bind, wp_sysFails, wp_throw,
    wp_get]
  refine ⟨fun h => ?_, fun h => ⟨fun _ => ?_, fun _ => ?_⟩⟩
  · subst h
    exact ⟨rfl, AllocStep.refl s⟩
  · exact { AllocStep.refl s with moves := Moves.refl _ }
  · set s1 : St E := s.atTick (s.tick + 1) with hs1
    set picked := pickFree (env.reuse s1.tick s1.hdr.gcs) s1.hdr.gcs n with hp
    have hlen : picked.length ≤ n := length_pickFree_le _ _ _
    have hsub : picked.Subperm s.hdr.gcs := pickFree_subperm _ _ _
    refine wp_mono (mapEndPages_spec env .page (n - picked.length) s1) ?_
      (fun _ s' h => { h with txn := h.txn }) (fun _ _ h => h) id
    rintro fresh s2 ⟨hl, hg, hpages, hstep⟩
    refine ⟨by rw [length_append, hl]; omega, ?_⟩
    refine { hstep with moves := ⟨hstep.moves.no_le, ?_⟩, pages := ?_ }
    · -- the picked pages leave the GC lists, the fresh ones the tail
      have hperm := hstep.moves.perm
      have hdiff : (picked ++ s.hdr.gcs.diff picked).Perm s.hdr.gcs :=
        subperm_append_diff_self_of_count_le (fun x _ => hsub.count_le x)
      rw [perm_iff_count] at hperm hdiff ⊢
      intro p
      have h1 := hperm p
      have h2 := hdiff p
      simp only [St.modHdr, EdPgIdx.free, EdPgIdx.tail, grown, EdPgIdx.no, count_append,
        hg] at h1 h2 ⊢
      have h3 : s1.hdr = s.hdr := rfl
      rw [h3] at h1 ⊢
      omega
    · intro p hp'
      simp only [St.modHdr]
      rw [if_neg hp', hpages]
      rfl

/-- `ed_free_pgno` puts all the given pages into the free list or none of them. -/
theorem edFreePgno_spec (xid : Nat) (pg : List Nat) (s : St E) :
    wp (edFreePgno env xid pg) (fun _ s' => s'.pages = s.pages ∧ AllocStep s s' [] pg)
      ⟨fun _ s' => s'.pages = s.pages ∧ AllocStep s s' [] [], fun _ _ => False, False⟩ s := by
  unfold edFreePgno
  simp only [wp_ite, wp_pure', wp_bind, wp_sysFails, wp_throw,
    wp_gets]
  refine ⟨fun h => ?_, fun h => ⟨fun _ => ?_, fun _ => ?_⟩⟩
  · subst h
    exact ⟨trivial, AllocStep.refl s⟩
  · exact ⟨rfl, { AllocStep.refl s with moves := Moves.refl _ }⟩
  · set s1 : St E := s.atTick (s.tick + 1) with hs1
    refine wp_mono (mapEndPages_spec env .free (env.gcPages s1.tick) s1) ?_
      (fun _ s' h => ⟨funext fun p => h.pages p (by simp), { h with txn := h.txn }⟩)
      (fun _ _ h => h) id
    rintro fresh s2 ⟨_, hg, hpages, hstep⟩
    refine ⟨hpages, { hstep with moves := ⟨hstep.moves.no_le, ?_⟩,
                                 pages := fun p _ => congrFun hpages p }⟩
    have hperm := hstep.moves.perm
    rw [perm_iff_count] at hperm ⊢
    intro p
    have h1 := hperm p
    have h3 : s1.hdr = s.hdr := rfl
    simp only [St.modHdr, EdPgIdx.free, EdPgIdx.tail, grown, EdPgIdx.no, count_append, hg,
      h3, count_nil] at h1 ⊢
    omega

end Eddy
