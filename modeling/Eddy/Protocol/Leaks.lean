import Eddy.Protocol.Reuse

/-!
# Eddy — the repair of leaks beside readers

`ed_idx_repair_leaks` frees the pages that a stat found in no list, with the transaction id 0: the
next `ed_alloc` may hand them out. A page that a commit replaced is in no list from the store of
`hdr->vtree` until `ed_free_pgno` has recorded it, and readers of the older trees still reach it. A
writer that dies in between, or whose `ed_free_pgno` is refused, leaves such pages behind.
-/

namespace Eddy

open Runs List Function

variable {E : Type} {σ : Shm E} {a : Act E} {w : Holder} {p i : Nat} {st : Stat}

/-- A repair by the holder of the lock stays inside its array and frees no page that a reader can
reach. -/
def RepairOk (σ : Shm E) (granted : Nat → Bool) : Prop :=
  ∀ w st, σ.holder = some w → σ.stat w.conn = some st →
    ∃ b, st.repair granted = some b ∧ ∀ p ∈ b.freed, Unread σ p

/-- What keeps the replaced pages on record. No writer dies between its store of `hdr->vtree` and the
end of `ed_free_pgno`, and this call is not refused; a stat sees all pages of the pool and the GC
chain; a repair uses a stat that is newer than the last repair, and there are fewer leaks in it than
the array has room for. -/
def Recorded (σ : Shm E) : Act E → Prop
  | .attach i n => Covering σ (.attach i n)
  | .kill i _ _ => ∀ w, σ.holder = some w → w.conn = i → w.stage = .working ∨ w.stage = .done
  | .loseGc => False
  | .statNew _ _ _ seen => (∀ p ∈ σ.pool, p ∈ seen) ∧ ∀ p ∈ σ.chain, p ∈ seen
  | .repair _ => ∀ w st, σ.holder = some w → σ.stat w.conn = some st →
      σ.fresh w.conn = true ∧ st.leaks.length < leaksLen
  | _ => True

instance (σ : Shm E) (a : Act E) : Decidable (Recorded σ a) :=
  match a with
  | .attach i n => inferInstanceAs (Decidable (Covering σ (.attach i n)))
  | .kill i _ _ => inferInstanceAs
      (Decidable (∀ w ∈ σ.holder, w.conn = i → w.stage = .working ∨ w.stage = .done))
  | .loseGc => inferInstanceAs (Decidable False)
  | .statNew _ _ _ seen => inferInstanceAs
      (Decidable ((∀ p ∈ σ.pool, p ∈ seen) ∧ ∀ p ∈ σ.chain, p ∈ seen))
  | .repair _ => decidable_of_iff (∀ w ∈ σ.holder, ∀ st ∈ σ.stat w.conn,
      σ.fresh w.conn = true ∧ st.leaks.length < leaksLen)
      ⟨fun h w st hw hst => h w hw st hst, fun h w hw st hst => h w st hw hst⟩
  | .detach _ | .readXid _ | .storeXid _ _ | .loadKeys _ | .loadBlocks _ | .release _ _
  | .lock _ | .take _ | .scanStart | .scanSlot _ | .allocFree _ _ _ | .allocTail _ | .recycle _
  | .write _ _ | .discard _ | .publish _ _ _ _ | .stampXid | .freeGc | .give _ _ | .drain _
  | .lose _ | .unlock => .isTrue trivial

theorem Recorded.covering (h : Recorded σ a) : Covering σ a := by
  cases a with
  | attach i n => exact h
  | kill i keep gone =>
    intro w hw hi e
    rcases h w hw hi with h | h <;> rw [e] at h <;> cases h
  | _ => trivial

/-- The page is in a stock, in a published tree, or noted for removal. -/
def Listed (σ : Shm E) (p : Nat) : Prop :=
  p ∈ σ.stocks ∨ p ∈ σ.treeList ∨ ∃ w, σ.holder = some w ∧ p ∈ w.gc

namespace Listed

variable {σ σ' : Shm E} {p : Nat}

theorem mem_stocks : p ∈ σ.stocks ↔ p ∈ σ.own ∨ p ∈ σ.pool ∨ p ∈ σ.chain ∨ p ∈ σ.freePages := by
  simp only [Shm.stocks, mem_append]

theorem back (h : Listed σ' p) (hstocks : p ∈ σ'.stocks → Listed σ p ∨ σ.tail ≤ p)
    (htree : σ'.treeList = σ.treeList)
    (hgc : ∀ w', σ'.holder = some w' → p ∈ w'.gc → Listed σ p) : Listed σ p ∨ σ.tail ≤ p := by
  rcases h with h | h | ⟨w', hw', h⟩
  · exact hstocks h
  · exact .inl (.inr (.inl (htree ▸ h)))
  · exact .inl (hgc w' hw' h)

theorem of_gc (hw : σ.holder = some w) (h : p ∈ w.gc) : Listed σ p :=
  .inr (.inr ⟨w, hw, h⟩)

theorem of_writer (hw : σ.holder = some w)
    (h : p ∈ w.own ∨ p ∈ σ.pool ∨ p ∈ σ.chain ∨ p ∈ σ.freePages) : Listed σ p := by
  refine .inl (mem_stocks.mpr ?_)
  rwa [Stock.own_of_holder hw]

theorem back_grant {τ : Shm E} {q : Nat} {chain : Bool} (hw : σ.holder = some w)
    (h : Listed (τ.grant w q chain) p) (hτ : τ.holder = some w) (hpool : τ.pool = σ.pool)
    (hchain : τ.chain = σ.chain) (hfree : ∀ x ∈ τ.freePages, x ∈ σ.freePages)
    (htree : τ.treeList = σ.treeList) (hq : Listed σ q ∨ σ.tail ≤ q) : Listed σ p ∨ σ.tail ≤ p := by
  cases chain with
  | true =>
    refine h.back (fun hin => ?_) htree fun w' hw' hp => ?_
    · rcases mem_stocks.mp hin with hin | hin | hin | hin
      · exact .inl (of_writer hw (.inl (Stock.own_of_holder (σ := τ) hτ ▸ hin)))
      · exact .inl (of_writer hw (.inr (.inl (hpool ▸ hin))))
      · rcases mem_cons.mp hin with rfl | hin
        · exact hq
        · exact .inl (of_writer hw (.inr (.inr (.inl (hchain ▸ hin)))))
      · exact .inl (of_writer hw (.inr (.inr (.inr (hfree p hin)))))
    · cases hτ.symm.trans hw'
      exact of_gc hw hp
  | false =>
    refine h.back (fun hin => ?_) htree fun w' hw' hp => ?_
    · rcases mem_stocks.mp hin with hin | hin | hin | hin
      · rcases mem_cons.mp hin with rfl | hin
        · exact hq
        · exact .inl (of_writer hw (.inl hin))
      · exact .inl (of_writer hw (.inr (.inl (hpool ▸ hin))))
      · exact .inl (of_writer hw (.inr (.inr (.inl (hchain ▸ hin)))))
      · exact .inl (of_writer hw (.inr (.inr (.inr (hfree p hin)))))
    · cases hw'
      exact of_gc hw hp

/-- A step without repair brings no page to the lists but new ones. -/
theorem of_step (hst : Stock σ) (hm : Moved σ a σ') (hno : a.repairs = false) (h : Listed σ' p) :
    Listed σ p ∨ σ.tail ≤ p := by
  cases hm with
  | lock i _ hw =>
    refine h.back (fun hin => .inl (.inl ?_)) rfl fun w' hw' hp => ?_
    · rw [mem_stocks] at hin ⊢
      rcases hin with hin | hin
      · cases hin
      · exact .inr hin
    · cases hw'
      cases hp
  | take q w hw hq =>
    refine h.back (fun hin => .inl (of_writer hw ?_)) rfl fun w' hw' hp => ?_
    · rcases mem_stocks.mp hin with hin | hin | hin
      · rcases mem_cons.mp hin with rfl | hin
        · exact .inr (.inl hq)
        · exact .inl hin
      · exact .inr (.inl (mem_of_mem_erase hin))
      · exact .inr (.inr hin)
    · cases hw'
      exact of_gc hw hp
  | scanStart w hw =>
    refine h.back (fun hin => .inl (of_writer hw (mem_stocks.mp hin))) rfl fun w' hw' hp => ?_
    cases hw'
    exact of_gc hw hp
  | scanSlot now w i rest acc hw _ v _ =>
    refine h.back (fun hin => .inl (of_writer hw (mem_stocks.mp hin))) rfl fun w' hw' hp => ?_
    cases hw'
    exact of_gc hw hp
  | allocFree q f chain w hw hq _ =>
    refine back_grant hw h hw rfl rfl (fun x hx => ?_) rfl (.inl (.inl (Stock.mem_stocks_of_free hq)))
    obtain ⟨y, hy, rfl⟩ := mem_map.mp hx
    exact mem_map_of_mem (mem_of_mem_erase hy)
  | allocTail chain w hw => exact back_grant hw h hw rfl rfl (fun _ hx => hx) rfl (.inr le_rfl)
  | recycle q w hw hq =>
    refine h.back (fun hin => .inl (of_writer hw ?_)) rfl fun w' hw' hp => ?_
    · rcases mem_stocks.mp hin with hin | hin | hin | hin
      · rcases mem_cons.mp hin with rfl | hin
        · exact .inr (.inr (.inl hq))
        · exact .inl hin
      · exact .inr (.inl hin)
      · exact .inr (.inr (.inl (mem_of_mem_erase hin)))
      · exact .inr (.inr (.inr hin))
    · cases hw'
      exact of_gc hw hp
  | write q b w hw hq =>
    refine h.back (fun hin => .inl (.inl hin)) (hst.treeList_write ?_ b) fun w' hw' hp => of_gc hw' hp
    rw [Stock.mem_kept_of_holder hw]
    simp only [mem_append]
    tauto
  | discard q w hw hs hq _ =>
    refine h.back (fun hin => .inl (of_writer hw (mem_stocks.mp hin))) rfl fun w' hw' hp => ?_
    cases hw'
    rcases mem_cons.mp hp with rfl | hp
    · exact .inr (.inl hq)
    · exact of_gc hw hp
  | publish t ht used rest w hw hs hacc =>
    have hown : ∀ x, x ∈ used ∨ x ∈ rest → x ∈ w.own := fun x hx =>
      hacc.2.symm.subset (mem_append.mpr hx)
    rcases h with h | h | ⟨w', hw', h⟩
    · refine .inl (of_writer hw ?_)
      exact (mem_stocks.mp h).imp_left fun h => hown p (.inr h)
    · rcases mem_append.mp (hacc.1.subset (mem_append_left _ h)) with h | h
      · exact .inl (.inr (.inl h))
      · exact .inl (of_writer hw (.inl (hown p (.inl h))))
    · cases hw'
      exact .inl (of_gc hw h)
  | stampXid w hw _ =>
    refine h.back (fun hin => .inl (of_writer hw (mem_stocks.mp hin))) rfl fun w' hw' hp => ?_
    cases hw'
    exact of_gc hw hp
  | freeGc w hw _ =>
    refine h.back (fun hin => .inl ?_) rfl fun w' hw' hp => ?_
    · rcases mem_stocks.mp hin with hin | hin | hin | hin
      · exact of_writer hw (.inl hin)
      · exact of_writer hw (.inr (.inl hin))
      · exact of_writer hw (.inr (.inr (.inl hin)))
      · obtain ⟨x, hx, rfl⟩ := mem_map.mp hin
        rcases mem_append.mp hx with hx | hx
        · exact of_writer hw (.inr (.inr (.inr (mem_map_of_mem hx))))
        · obtain ⟨y, hy, rfl⟩ := mem_map.mp hx
          exact of_gc hw hy
    · cases hw'
      cases hp
  | loseGc w hw _ =>
    refine h.back (fun hin => .inl (of_writer hw (mem_stocks.mp hin))) rfl fun w' hw' hp => ?_
    cases hw'
    cases hp
  | giveFree q w hw hq =>
    refine h.back (fun hin => .inl (of_writer hw ?_)) rfl fun w' hw' hp => ?_
    · rcases mem_stocks.mp hin with hin | hin | hin | hin
      · exact .inl (mem_of_mem_erase hin)
      · exact .inr (.inl hin)
      · exact .inr (.inr (.inl hin))
      · obtain ⟨x, hx, rfl⟩ := mem_map.mp hin
        rcases mem_append.mp hx with hx | hx
        · exact .inr (.inr (.inr (mem_map_of_mem hx)))
        · cases mem_singleton.mp hx
          exact .inl hq
    · cases hw'
      exact of_gc hw hp
  | giveKeep q w hw hq =>
    refine h.back (fun hin => .inl (of_writer hw ?_)) rfl fun w' hw' hp => ?_
    · rcases mem_stocks.mp hin with hin | hin | hin
      · exact .inl (mem_of_mem_erase hin)
      · rcases mem_cons.mp hin with rfl | hin
        · exact .inl hq
        · exact .inr (.inl hin)
      · exact .inr (.inr hin)
    · cases hw'
      exact of_gc hw hp
  | drain q w hw hq =>
    refine h.back (fun hin => .inl (.inl (mem_stocks.mpr ?_))) rfl fun w' hw' hp => of_gc hw' hp
    rcases mem_stocks.mp hin with hin | hin | hin | hin
    · exact .inl hin
    · exact .inr (.inl (mem_of_mem_erase hin))
    · exact .inr (.inr (.inl hin))
    · obtain ⟨x, hx, rfl⟩ := mem_map.mp hin
      rcases mem_append.mp hx with hx | hx
      · exact .inr (.inr (.inr (mem_map_of_mem hx)))
      · cases mem_singleton.mp hx
        exact .inr (.inl hq)
  | lose q hq =>
    refine h.back (fun hin => .inl (.inl (mem_stocks.mpr ?_))) rfl fun w' hw' hp => of_gc hw' hp
    rcases mem_stocks.mp hin with hin | hin | hin
    · exact .inl hin
    · exact .inr (.inl (mem_of_mem_erase hin))
    · exact .inr (.inr hin)
  | unlock w hw hown _ =>
    refine h.back (fun hin => .inl (of_writer hw ?_)) rfl nofun
    rcases mem_stocks.mp hin with hin | hin
    · cases hin
    · exact .inr hin
  | killHolder i keep gone w _ hw _ hown =>
    refine h.back (fun hin => .inl (of_writer hw ?_)) rfl nofun
    rcases mem_stocks.mp hin with hin | hin | hin
    · cases hin
    · rcases mem_append.mp hin with hin | hin
      · exact .inl (hown.symm.subset (mem_append_left _ hin))
      · exact .inr (.inl hin)
    · exact .inr (.inr hin)
  | repair granted w st b _ _ _ => cases hno
  | _ => exact .inl h

end Listed

/-! ## Where the pages of the readers are -/

/-- The page is in a published tree, noted for removal, or free. -/
def Located (σ : Shm E) (p : Nat) : Prop :=
  p ∈ σ.treeList ∨ (∃ w, σ.holder = some w ∧ p ∈ w.gc) ∨ p ∈ σ.freePages

theorem Located.listed (h : Located σ p) : Listed σ p := by
  rcases h with h | h | h
  · exact .inr (.inl h)
  · exact .inr (.inr h)
  · exact .inl (Listed.mem_stocks.mpr (.inr (.inr (.inr h))))

/-- The pages that readers reach are located, and so are not those a stat took for leaks, until the
next repair. -/
structure Traced (σ : Shm E) : Prop where
  done : ∀ w, σ.holder = some w → w.stage = .done → w.gc = []
  refs : ∀ i, ∀ r ∈ (σ.phase i).refs, ∀ p ∈ σ.reach r, Located σ p
  stat : ∀ i st, σ.stat i = some st → ∀ p ∈ st.leaks, p < st.no ∧ p < σ.tail
  fresh : ∀ i st, σ.stat i = some st → σ.fresh i = true → ∀ p ∈ st.leaks, ¬ Listed σ p

namespace Located

variable {σ σ' : Shm E} {p : Nat}

theorem keep (h : Located σ p) (htree : σ'.treeList = σ.treeList) (hfree : σ'.free = σ.free)
    (hgc : ∀ w, σ.holder = some w → p ∈ w.gc → ∃ w', σ'.holder = some w' ∧ p ∈ w'.gc) :
    Located σ' p := by
  rcases h with h | ⟨w, hw, h⟩ | h
  · exact .inl (htree ▸ h)
  · exact .inr (.inl (hgc w hw h))
  · refine .inr (.inr ?_)
    unfold Shm.freePages at h ⊢
    rwa [hfree]

theorem grow (h : Located σ p) (htree : σ'.treeList = σ.treeList) (l : List (Nat × Nat))
    (hfree : σ'.free = σ.free ++ l)
    (hgc : ∀ w, σ.holder = some w → p ∈ w.gc →
      (∃ w', σ'.holder = some w' ∧ p ∈ w'.gc) ∨ p ∈ l.map Prod.fst) : Located σ' p := by
  have hpages : σ'.freePages = σ.freePages ++ l.map Prod.fst := by
    unfold Shm.freePages
    rw [hfree, map_append]
  rcases h with h | ⟨w, hw, h⟩ | h
  · exact .inl (htree ▸ h)
  · rcases hgc w hw h with h | h
    · exact .inr (.inl h)
    · exact .inr (.inr (hpages ▸ mem_append_right _ h))
  · exact .inr (.inr (hpages ▸ mem_append_left _ h))

theorem leave (h : Located σ p) (hst : Stock σ) (hk : Traced σ) (hw : σ.holder = some w)
    (hs : w.stage = .working ∨ w.stage = .done) (htree : σ'.treeList = σ.treeList)
    (hfree : σ'.free = σ.free) : Located σ' p := by
  rcases h with h | ⟨v, hv, h⟩ | h
  · exact .inl (htree ▸ h)
  · cases hw.symm.trans hv
    rcases hs with hs | hs
    · exact .inl (htree ▸ (hst.working w hw hs).2 p h)
    · rw [hk.done w hw hs] at h
      cases h
  · refine .inr (.inr ?_)
    unfold Shm.freePages at h ⊢
    rwa [hfree]

theorem grant {τ : Shm E} {q : Nat} {chain : Bool} (h : Located τ p) (hw : τ.holder = some w) :
    Located (τ.grant w q chain) p := by
  cases chain with
  | true => exact h.keep rfl rfl fun v hv hp => ⟨v, hv, hp⟩
  | false =>
    refine h.keep rfl rfl fun v hv hp => ⟨_, rfl, ?_⟩
    cases hw.symm.trans hv
    exact hp

/-- A located page stays located, or is handed out and no reader can reach it. -/
theorem step (hst : Stock σ) (hc : Clock σ.ids) (hk : Traced σ) (hm : Moved σ a σ')
    (hok : Recorded σ a) (h : Located σ p) : Located σ' p ∨ Unread σ p := by
  cases hm with
  | lock i _ hw =>
    refine .inl (h.keep rfl rfl fun w hw' _ => ?_)
    rw [hw] at hw'
    cases hw'
  | take q w hw _ =>
    refine .inl (h.keep rfl rfl fun v hv hp => ⟨_, rfl, ?_⟩)
    cases hw.symm.trans hv
    exact hp
  | scanStart w hw =>
    refine .inl (h.keep rfl rfl fun v hv hp => ⟨_, rfl, ?_⟩)
    cases hw.symm.trans hv
    exact hp
  | scanSlot now w i rest acc hw _ v _ =>
    refine .inl (h.keep rfl rfl fun v hv hp => ⟨_, rfl, ?_⟩)
    cases hw.symm.trans hv
    exact hp
  | allocFree q f chain w hw hq hf =>
    by_cases e : p = q
    · rw [e]
      exact .inr (hst.reusable hc hw hq hf)
    · refine .inl (Located.grant ?_ hw)
      rcases h with h | h | h
      · exact .inl h
      · exact .inr (.inl h)
      · obtain ⟨⟨x, g⟩, hx, rfl⟩ := mem_map.mp h
        refine .inr (.inr (mem_map_of_mem (f := Prod.fst) (a := (x, g)) ?_))
        exact (mem_erase_of_ne fun e' => e (congrArg Prod.fst e')).mpr hx
  | allocTail chain w hw =>
    exact .inl (Located.grant (h.keep rfl rfl fun v hv hp => ⟨v, hv, hp⟩) hw)
  | recycle q w hw _ =>
    refine .inl (h.keep rfl rfl fun v hv hp => ⟨_, rfl, ?_⟩)
    cases hw.symm.trans hv
    exact hp
  | write q b w hw hq =>
    refine .inl (h.keep (hst.treeList_write ?_ b) rfl fun v hv hp => ⟨v, hv, hp⟩)
    rw [Stock.mem_kept_of_holder hw]
    simp only [mem_append]
    tauto
  | discard q w hw _ _ _ =>
    refine .inl (h.keep rfl rfl fun v hv hp => ⟨_, rfl, ?_⟩)
    cases hw.symm.trans hv
    exact mem_cons_of_mem _ hp
  | publish t ht used rest w hw hs hacc =>
    rcases h with h | ⟨v, hv, h⟩ | h
    · -- the old trees are among the new ones and the noted pages
      rcases mem_append.mp (hacc.1.symm.subset (mem_append_left _ h)) with h | h
      · exact .inl (.inl h)
      · exact .inl (.inr (.inl ⟨_, rfl, h⟩))
    · cases hw.symm.trans hv
      exact .inl (.inr (.inl ⟨_, rfl, h⟩))
    · exact .inl (.inr (.inr h))
  | stampXid w hw _ =>
    refine .inl (h.keep rfl rfl fun v hv hp => ⟨_, rfl, ?_⟩)
    cases hw.symm.trans hv
    exact hp
  | freeGc w hw _ =>
    refine .inl (h.grow rfl _ rfl fun v hv hp => .inr ?_)
    cases hw.symm.trans hv
    simpa using hp
  | loseGc w hw _ => cases hok
  | giveFree q w hw _ =>
    refine .inl (h.grow rfl _ rfl fun v hv hp => .inl ⟨_, rfl, ?_⟩)
    cases hw.symm.trans hv
    exact hp
  | giveKeep q w hw _ =>
    refine .inl (h.keep rfl rfl fun v hv hp => ⟨_, rfl, ?_⟩)
    cases hw.symm.trans hv
    exact hp
  | drain q w hw _ => exact .inl (h.grow rfl _ rfl fun v hv hp => .inl ⟨v, hv, hp⟩)
  | unlock w hw _ hs => exact .inl (h.leave hst hk hw hs rfl rfl)
  | killHolder i keep gone w _ hw hi _ => exact .inl (h.leave hst hk hw (hok w hw hi) rfl rfl)
  | repair granted w st b hw _ _ => exact .inl (h.grow rfl _ rfl fun v hv hp => .inl ⟨v, hv, hp⟩)
  | _ => exact .inl h

end Located

namespace Traced

variable {σ σ' : Shm E}

theorem done_step (hk : Traced σ) (hm : Moved σ a σ') {w' : Holder} (hw' : σ'.holder = some w')
    (hs' : w'.stage = .done) : w'.gc = [] := by
  cases hm with
  | lock i _ _ =>
    cases hw'
    rfl
  | discard q w hw hs _ _ =>
    cases hw'
    cases hs.symm.trans hs'
  | publish t ht used rest w hw hs _ =>
    cases hw'
    cases hs'
  | stampXid w hw _ =>
    cases hw'
    cases hs'
  | freeGc w hw _ =>
    cases hw'
    rfl
  | loseGc w hw _ =>
    cases hw'
    rfl
  | take q w hw _ =>
    cases hw'
    exact hk.done w hw hs'
  | scanStart w hw =>
    cases hw'
    exact hk.done w hw hs'
  | scanSlot now w i rest acc hw _ v _ =>
    cases hw'
    exact hk.done w hw hs'
  | recycle q w hw _ =>
    cases hw'
    exact hk.done w hw hs'
  | giveFree q w hw _ =>
    cases hw'
    exact hk.done w hw hs'
  | giveKeep q w hw _ =>
    cases hw'
    exact hk.done w hw hs'
  | allocFree q f chain w hw _ _ =>
    cases chain with
    | true => exact hk.done w' hw' hs'
    | false =>
      cases hw'
      exact hk.done w hw hs'
  | allocTail chain w hw =>
    cases chain with
    | true => exact hk.done w' hw' hs'
    | false =>
      cases hw'
      exact hk.done w hw hs'
  | unlock w _ _ _ => cases hw'
  | killHolder i keep gone w _ _ _ _ => cases hw'
  | _ => exact hk.done w' hw' hs'

/-- The roots of a process: it had them before, or they are those that are published. -/
theorem refs_step (hst : Stock σ) (hm : Moved σ a σ') {r : RootRef} (hr : r ∈ (σ'.phase i).refs) :
    (r ∈ (σ.phase i).refs ∧ σ'.reach r = σ.reach r) ∨ ∃ d, r = σ'.root d := by
  -- the phase of the process `j` becomes `ph`
  have hupd : ∀ {j : Nat} {ph : Phase}, r ∈ (update σ.phase j ph i).refs →
      r ∈ (σ.phase i).refs ∨ (i = j ∧ r ∈ ph.refs) := by
    intro j ph hr
    by_cases e : i = j
    · rw [e, update_self] at hr
      exact .inr ⟨e, hr⟩
    · rw [update_of_ne e] at hr
      exact .inl hr
  cases hm with
  | attach j n _ _ => exact .inl ((hupd hr).elim (⟨·, rfl⟩) fun h => nomatch h.2)
  | readXid j _ _ => exact .inl ((hupd hr).elim (⟨·, rfl⟩) fun h => nomatch h.2)
  | storeXid j now x _ => exact .inl ((hupd hr).elim (⟨·, rfl⟩) fun h => nomatch h.2)
  | release j now x _ => exact .inl ((hupd hr).elim (⟨·, rfl⟩) fun h => nomatch h.2)
  | killHolder j keep gone w _ _ _ _ => exact .inl ((hupd hr).elim (⟨·, rfl⟩) fun h => nomatch h.2)
  | kill j keep gone _ _ => exact .inl ((hupd hr).elim (⟨·, rfl⟩) fun h => nomatch h.2)
  | loadKeys j x hph =>
    rcases hupd hr with h | ⟨-, h⟩
    · exact .inl ⟨h, rfl⟩
    · exact .inr ⟨.keys, mem_singleton.mp h⟩
  | loadBlocks j x keys hph =>
    rcases hupd hr with h | ⟨e, h⟩
    · exact .inl ⟨h, rfl⟩
    · rcases mem_cons.mp h with rfl | h
      · refine .inl ⟨?_, rfl⟩
        rw [e, hph]
        exact mem_singleton_self _
      · exact .inr ⟨.blocks, mem_singleton.mp h⟩
  | write q b w hw hq =>
    refine .inl ⟨hr, hst.reach_write ?_ b hr⟩
    rw [Stock.mem_kept_of_holder hw]
    simp only [mem_append]
    tauto
  | allocFree q f chain w _ _ _ => cases chain <;> exact .inl ⟨hr, rfl⟩
  | allocTail chain w _ => cases chain <;> exact .inl ⟨hr, rfl⟩
  | _ => exact .inl ⟨hr, rfl⟩

theorem leaks_not_listed {nconns : Nat} {seen : List Nat} (hw : σ.holder = none)
    (hpool : ∀ p ∈ σ.pool, p ∈ seen) (hchain : ∀ p ∈ σ.chain, p ∈ seen)
    (hp : p ∈ σ.leaks nconns seen) : ¬ Listed σ p := by
  obtain ⟨-, hp⟩ := mem_leaksBelow.mp hp
  obtain ⟨-, hfree, htree, hseen⟩ := of_decide_eq_true hp
  rintro (h | h | ⟨w, hw', -⟩)
  · rcases Listed.mem_stocks.mp h with h | h | h | h
    · unfold Shm.own at h
      rw [hw] at h
      cases h
    · exact hseen (hpool p h)
    · exact hseen (hchain p h)
    · exact hfree h
  · exact htree h
  · rw [hw] at hw'
    cases hw'

theorem stat_step (hm : Moved σ a σ') (hst : σ'.stat i = some st) :
    (σ.stat i = some st ∧ (σ'.fresh i = true → a.repairs = false ∧ σ.fresh i = true)) ∨
      ∃ now count seen, a = .statNew i now count seen ∧ σ.holder = none ∧
        st = ⟨σ.leaks (σ.scans i) seen, σ.tail + count⟩ := by
  have hupd : ∀ {j : Nat} {o : Option Stat}, update σ.stat j o i = some st →
      σ.stat i = some st ∨ (i = j ∧ o = some st) := by
    intro j o h
    by_cases e : i = j
    · rw [e, update_self] at h
      exact .inr ⟨e, h⟩
    · rw [update_of_ne e] at h
      exact .inl h
  cases hm with
  | attach j n _ _ => exact .inl ((hupd hst).elim (⟨·, fun h => ⟨rfl, h⟩⟩) fun h => nomatch h.2)
  | killHolder j keep gone w _ _ _ _ =>
    exact .inl ((hupd hst).elim (⟨·, fun h => ⟨rfl, h⟩⟩) fun h => nomatch h.2)
  | kill j keep gone _ _ =>
    exact .inl ((hupd hst).elim (⟨·, fun h => ⟨rfl, h⟩⟩) fun h => nomatch h.2)
  | statNew j now count seen _ _ hw _ =>
    by_cases e : i = j
    · subst e
      have h' := (update_self i _ σ.stat).symm.trans hst
      exact .inr ⟨now, count, seen, rfl, hw, (Option.some.inj h').symm⟩
    · refine .inl ⟨(update_of_ne e ..).symm.trans hst, fun h => ⟨rfl, ?_⟩⟩
      exact (update_of_ne e ..).symm.trans h
  | repair granted w st' b _ _ _ => exact .inl ⟨hst, nofun⟩
  | allocFree q f chain w _ _ _ => cases chain <;> exact .inl ⟨hst, fun h => ⟨rfl, h⟩⟩
  | allocTail chain w _ => cases chain <;> exact .inl ⟨hst, fun h => ⟨rfl, h⟩⟩
  | _ => exact .inl ⟨hst, fun h => ⟨rfl, h⟩⟩

theorem tail_step (hm : Moved σ a σ') : σ.tail ≤ σ'.tail := by
  cases hm with
  | allocFree q f chain w _ _ _ => cases chain <;> exact le_rfl
  | allocTail chain w _ => cases chain <;> exact Nat.le_succ _
  | _ => exact le_rfl

theorem step (hk : Traced σ) (hst : Stock σ) (hc : Clock σ.ids) (hm : Moved σ a σ')
    (hok : Recorded σ a) : Traced σ' where
  done w' hw' hs' := hk.done_step hm hw' hs'
  refs i r hr p hp := by
    rcases refs_step hst hm hr with ⟨hr', hreach⟩ | ⟨d, rfl⟩
    · rw [hreach] at hp
      rcases (hk.refs i r hr' p hp).step hst hc hk hm hok with h | h
      · exact h
      · exact absurd hp (h i r hr')
    · exact .inl (Stock.reach_root d hp)
  stat i st hst' p hp := by
    have htail := tail_step hm
    rcases stat_step hm hst' with ⟨hold, -⟩ | ⟨now, count, seen, -, -, rfl⟩
    · obtain ⟨h1, h2⟩ := hk.stat i st hold p hp
      exact ⟨h1, h2.trans_le htail⟩
    · have hlt : p < σ.tail := (mem_leaksBelow.mp hp).1
      exact ⟨hlt.trans_le (Nat.le_add_right _ _), hlt.trans_le htail⟩
  fresh i st hst' hfr p hp hlist := by
    rcases stat_step hm hst' with ⟨hold, hfresh⟩ | ⟨now, count, seen, rfl, hw, rfl⟩
    · obtain ⟨hno, hfr'⟩ := hfresh hfr
      rcases Listed.of_step hst hm hno hlist with h | h
      · exact hk.fresh i st hold hfr' p hp h
      · exact absurd (hk.stat i st hold p hp).2 (by omega)
    · have hlt : p < σ.tail := (mem_leaksBelow.mp hp).1
      rcases Listed.of_step hst hm rfl hlist with h | h
      · exact leaks_not_listed hw hok.1 hok.2 hp h
      · omega

theorem stray (hk : Traced σ) (hst : σ.stat i = some st) (hfr : σ.fresh i = true)
    (hp : p ∈ st.leaks) : Stock.Stray σ p := by
  have hno := hk.fresh i st hst hfr p hp
  refine ⟨(hk.stat i st hst p hp).2, fun h => hno (.inl h), fun h => hno (.inr (.inl h)),
    fun w hw h => hno (Listed.of_gc hw h), fun j r hr h => ?_⟩
  exact hno (hk.refs j r hr p h).listed

theorem repaired (hk : Traced σ) (hst : σ.stat i = some st) (hfew : st.leaks.length < leaksLen)
    (granted : Nat → Bool) :
    ∃ b, st.repair granted = some b ∧ b.freed.Nodup ∧ ∀ p ∈ b.freed, p ∈ st.leaks := by
  have hin : ∀ p ∈ leaksBelow (fun p => decide (p ∈ st.leaks)) st.no, p ∈ st.leaks := fun p hp =>
    of_decide_eq_true (mem_leaksBelow.mp hp).2
  have hlen : (leaksBelow (fun p => decide (p ∈ st.leaks)) st.no).length < leaksLen :=
    ((nodup_leaksBelow st.no).subperm hin).length_le.trans_lt hfew
  have hlast : decide (st.no ∈ st.leaks) = false :=
    decide_eq_false fun h => (hk.stat i st hst _ h).1.false
  refine ⟨_, repairLoop_few hlast hlen, ?_, fun p hp => ?_⟩
  · cases granted st.no with
    | true => exact nodup_leaksBelow st.no
    | false => exact nodup_nil
  · cases hg : granted st.no with
    | true =>
      rw [hg] at hp
      exact hin p hp
    | false =>
      rw [hg] at hp
      cases hp

theorem create (maxConns : Nat) (pages : Nat → EdBpt E) : Traced (Shm.create maxConns pages) where
  done _ hw := by cases hw
  refs _ _ hr := by cases hr
  stat _ _ hst := by cases hst
  fresh _ _ hst := by cases hst

theorem of_run {maxConns : Nat} {pages : Nat → EdBpt E}
    (h : Run Shm.step Recorded (Shm.create maxConns pages) σ) :
    Traced σ ∧ Stock σ ∧ Clock σ.ids := by
  refine h.invariant (I := fun σ => Traced σ ∧ Stock σ ∧ Clock σ.ids) ?_
    ⟨create maxConns pages, Stock.create maxConns pages, Clock.create maxConns pages⟩
  rintro τ a τ' ⟨hk, hst, hc⟩ hok hs
  have hm := Shm.moved hs
  refine ⟨hk.step hst hc hm hok, hst.step hc hm ?_, hc.step hm hok.covering⟩
  rintro granted w st b rfl hw hstat hb
  obtain ⟨hfr, hfew⟩ := hok w st hw hstat
  obtain ⟨b', hb', hnd, hin⟩ := hk.repaired hstat hfew granted
  cases hb.symm.trans hb'
  exact ⟨hnd, fun p hp => hk.stray hstat hfr (hin p hp)⟩

end Traced

/-- The process 0 commits a tree with the page 2, which the process 1 reads. -/
def readLeaf : List (Act UInt64) :=
  [.attach 0 3, .attach 1 3] ++ commitLeaf 0 2 [] ++
    [.readXid 1, .storeXid 1 100, .loadKeys 1, .loadBlocks 1]

/-- The process 0 replaces the page 2 and dies at the fault point behind its store of `hdr->vtree`. The
process 2 takes a stat and locks the index for a repair. -/
def replacedLost : List (Act UInt64) :=
  readLeaf ++ [.lock 0, .readXid 0, .storeXid 0 100, .loadKeys 0, .loadBlocks 0, .scanStart,
    .allocTail false, .write 3 (oneEntry 5), .discard 2,
    .publish (fun d => if d = .keys then some 3 else none) (fun _ => 0) [3] [], .kill 0 [] [],
    .attach 2 3, .statNew 2 100 14 [1], .lock 2]

end Eddy
