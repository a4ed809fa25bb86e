import Eddy.Protocol.Moves

/-!
# Eddy — the transaction ids of the snapshot protocol

What the xids of the header, the slots and the loaded roots say about each other. A reader reads
`hdr->xid` before it stores it in its slot, and stores it before it loads a root; a writer stores
`hdr->vtree` before `hdr->xid`. So the xid in the slot of a reader is not greater than the number of
any commit whose roots it has loaded. A scan of the slots ends with an xid that is not greater
either, for every reader that has a root when the scan is over.
-/

namespace Eddy

open List Function

variable {E : Type}

/-- What the protocol keeps about the holder of the write lock. -/
structure HolderIds where
  conn : Nat
  stage : Stage
  scan : Option (List Nat × Nat)

/-- The transaction ids and who has which. -/
structure Ids where
  xid : Nat
  ver : Nat
  nconns : Nat
  slots : Nat → ConnSlot
  live : Nat → Bool
  scans : Nat → Nat
  phase : Nat → Phase
  holder : Option HolderIds

def Holder.ids (w : Holder) : HolderIds := ⟨w.conn, w.stage, w.scan⟩

def Shm.ids (σ : Shm E) : Ids where
  xid := σ.xid
  ver := σ.ver
  nconns := σ.nconns
  slots := σ.slots
  live := σ.live
  scans := σ.scans
  phase := σ.phase
  holder := σ.holder.map Holder.ids

/-- The xids of one process: its slot, whether it lives, the number of slots it scans and its phase.
The xid in the slot of a reader is one it read from the header, and the roots it loaded are not
older. -/
structure ProcOk (xid ver nconns : Nat) (s : ConnSlot) (live : Bool) (n : Nat) (ph : Phase) :
    Prop where
  covers : live = true → nconns ≤ n
  pid : live = true → 0 < s.pid
  reader : ph ≠ .idle → live = true
  got : ∀ x, ph = .gotXid x → 1 ≤ x ∧ x ≤ xid
  slot : ∀ x, ph.xid? = some x → s.xid = x ∧ 1 ≤ x ∧ x ≤ xid
  refs : ∀ r ∈ ph.refs, s.xid ≤ r.ver ∧ r.ver ≤ ver

/-- The invariant of the transaction ids. -/
structure Clock (c : Ids) : Prop where
  pos : 1 ≤ c.xid
  ver : (∀ w, c.holder = some w → w.stage ≠ .published) → c.ver = c.xid
  published : ∀ w, c.holder = some w → w.stage = .published → c.ver = c.xid + 1
  holder : ∀ w, c.holder = some w → c.live w.conn = true
  bound : ∀ i, c.live i = true → i < c.nconns
  procs : ∀ i, ProcOk c.xid c.ver c.nconns (c.slots i) (c.live i) (c.scans i) (c.phase i)
  scan : ∀ w todo acc, c.holder = some w → w.scan = some (todo, acc) → acc < c.xid ∧
    ∀ i, ∀ r ∈ (c.phase i).refs, acc ≤ r.ver ∨ i ∈ todo

/-- Every process scans all the slots of the header and none behind its first page, and no writer dies
between its store of `hdr->vtree` and its store of `hdr->xid`. -/
def Covering (σ : Shm E) : Act E → Prop
  | .attach _ n => σ.nconns ≤ n ∧ edIdxPages n ≤ pgRootGc
  | .kill i _ _ => ∀ w, σ.holder = some w → w.conn = i → w.stage ≠ .published
  | _ => True

instance (σ : Shm E) (a : Act E) : Decidable (Covering σ a) := by
  cases a with
  | attach i n => exact inferInstanceAs (Decidable (_ ∧ _))
  | kill i keep gone =>
    exact inferInstanceAs (Decidable (∀ w ∈ σ.holder, w.conn = i → w.stage ≠ .published))
  | _ => exact .isTrue trivial

namespace Clock

variable {c : Ids} {ph : Phase} {r : RootRef} {i : Nat} {w : HolderIds} {s : ConnSlot}

theorem xid_le_ver (h : Clock c) : c.xid ≤ c.ver := by
  by_cases hp : ∃ w, c.holder = some w ∧ w.stage = .published
  · obtain ⟨w, hw, hs⟩ := hp
    rw [h.published w hw hs]
    exact Nat.le_succ _
  · rw [h.ver fun w hw hs => hp ⟨w, hw, hs⟩]

theorem xid_of_ref (hr : r ∈ ph.refs) : ∃ x, ph.xid? = some x := by
  cases ph with
  | half x k => exact ⟨x, rfl⟩
  | snap x k b => exact ⟨x, rfl⟩
  | _ => cases hr

section

variable (h : Clock c)

include h

theorem live_of_ref (hr : r ∈ (c.phase i).refs) : c.live i = true := by
  refine (h.procs i).reader fun e => ?_
  rw [e] at hr
  cases hr

theorem scanned {m : Nat} (hw : c.holder = some w) (hs : w.scan = some ([], m))
    (hr : r ∈ (c.phase i).refs) : m ≤ r.ver := by
  rcases (h.scan w [] m hw hs).2 i r hr with h' | h'
  · exact h'
  · cases h'

/-! ## Steps of one process -/

theorem update (i : Nat) {l : Bool} {n : Nat} {f : Phase} (hp : ProcOk c.xid c.ver c.nconns s l n f)
    (hb : l = true → i < c.nconns) (hw : ∀ w, c.holder = some w → w.conn = i → l = true)
    (hscan : ∀ w todo acc, c.holder = some w → w.scan = some (todo, acc) →
      ∀ r ∈ f.refs, acc ≤ r.ver ∨ i ∈ todo) :
    Clock { c with
      slots := update c.slots i s
      live := update c.live i l
      scans := update c.scans i n
      phase := update c.phase i f } where
  pos := h.pos
  ver := h.ver
  published := h.published
  holder w hw' := by
    change Function.update c.live i l w.conn = true
    by_cases e : w.conn = i
    · rw [e, update_self]
      exact hw w hw' e
    · rw [update_of_ne e]
      exact h.holder w hw'
  bound j hj := by
    change Function.update c.live i l j = true at hj
    by_cases e : j = i
    · rw [e, update_self] at hj
      rw [e]
      exact hb hj
    · rw [update_of_ne e] at hj
      exact h.bound j hj
  procs j := by
    change ProcOk _ _ _ (Function.update c.slots i s j) (Function.update c.live i l j)
      (Function.update c.scans i n j) (Function.update c.phase i f j)
    by_cases e : j = i
    · rw [e]
      simpa only [update_self] using hp
    · simpa only [update_of_ne e] using h.procs j
  scan w todo acc hw' hs := by
    refine ⟨(h.scan w todo acc hw' hs).1, fun j r hr => ?_⟩
    change r ∈ (Function.update c.phase i f j).refs at hr
    by_cases e : j = i
    · rw [e, update_self] at hr
      rw [e]
      exact hscan w todo acc hw' hs r hr
    · rw [update_of_ne e] at hr
      exact (h.scan w todo acc hw' hs).2 j r hr

theorem setPhase (i : Nat) {f : Phase} (hp : ProcOk c.xid c.ver c.nconns s (c.live i) (c.scans i) f)
    (hscan : ∀ w todo acc, c.holder = some w → w.scan = some (todo, acc) →
      ∀ r ∈ f.refs, acc ≤ r.ver ∨ i ∈ todo) :
    Clock { c with
      slots := Function.update c.slots i s
      phase := Function.update c.phase i f } := by
  have h' := h.update i hp (h.bound i) (fun w hw e => e ▸ h.holder w hw) hscan
  rwa [Function.update_eq_self, Function.update_eq_self] at h'

theorem readXid (hl : c.live i = true) :
    Clock { c with phase := Function.update c.phase i (.gotXid c.xid) } := by
  have h' := h.setPhase i (s := c.slots i) (f := .gotXid c.xid)
    ⟨(h.procs i).covers, (h.procs i).pid, fun _ => hl, fun x e => ?_, nofun, nofun⟩ nofun
  · rwa [update_eq_self] at h'
  · cases e
    exact ⟨h.pos, le_refl _⟩

theorem storeXid {x : Nat} (hph : c.phase i = .gotXid x) (hxid : s.xid = x)
    (hpid : s.pid = (c.slots i).pid) :
    Clock { c with
      slots := Function.update c.slots i s
      phase := Function.update c.phase i (.stored x) } := by
  obtain ⟨hx1, hx2⟩ := (h.procs i).got x hph
  have hl : c.live i = true := (h.procs i).reader (by rw [hph]; nofun)
  refine h.setPhase i ⟨(h.procs i).covers, fun e => hpid ▸ (h.procs i).pid e, fun _ => hl, nofun,
    fun y e => ?_, nofun⟩ nofun
  cases e
  exact ⟨hxid, hx1, hx2⟩

theorem load {x : Nat} (hx : (c.phase i).xid? = some x) (hx' : ph.xid? = some x)
    (hgot : ∀ y, ph ≠ .gotXid y) (hrefs : ∀ r ∈ ph.refs, r ∈ (c.phase i).refs ∨ r.ver = c.ver) :
    Clock { c with phase := Function.update c.phase i ph } := by
  obtain ⟨hs, hx1, hx2⟩ := (h.procs i).slot x hx
  have hl : c.live i = true := (h.procs i).reader fun e => by
    rw [e] at hx
    cases hx
  have h' := h.setPhase i (s := c.slots i) (f := ph)
    ⟨(h.procs i).covers, (h.procs i).pid, fun _ => hl, fun y e => absurd e (hgot y), fun y e => ?_,
      fun r hr => ?_⟩ fun w todo acc hw e r hr => ?_
  · rwa [update_eq_self] at h'
  · cases hx'.symm.trans e
    exact ⟨hs, hx1, hx2⟩
  · rcases hrefs r hr with h' | h'
    · exact (h.procs i).refs r h'
    · rw [h', hs]
      exact ⟨hx2.trans h.xid_le_ver, le_refl _⟩
  · rcases hrefs r hr with h' | h'
    · exact (h.scan w todo acc hw e).2 i r h'
    · rw [h']
      exact .inl ((h.scan w todo acc hw e).1.le.trans h.xid_le_ver)

theorem release (i : Nat) (hpid : s.pid = (c.slots i).pid) :
    Clock { c with
      slots := Function.update c.slots i s
      phase := Function.update c.phase i .idle } :=
  h.setPhase i ⟨(h.procs i).covers, fun e => hpid ▸ (h.procs i).pid e, fun e => absurd rfl e, nofun,
    nofun, nofun⟩ nofun

theorem die (i : Nat) (hw : ∀ w, c.holder = some w → w.conn ≠ i) :
    Clock { c with
      live := Function.update c.live i false
      phase := Function.update c.phase i .idle } := by
  have h' := h.update i (s := c.slots i) (l := false) (n := c.scans i) (f := .idle)
    ⟨nofun, nofun, fun e => absurd rfl e, nofun, nofun, nofun⟩ nofun
    (fun w hw' e => absurd e (hw w hw')) nofun
  rwa [Function.update_eq_self, Function.update_eq_self] at h'

/-! ## Steps of the holder of the lock -/

theorem setHolder {w' : HolderIds} (hw : c.holder = some w) (hconn : w'.conn = w.conn)
    (hstage : w'.stage = .published ↔ w.stage = .published)
    (hscan : ∀ todo acc, w'.scan = some (todo, acc) → acc < c.xid ∧
      ∀ i, ∀ r ∈ (c.phase i).refs, acc ≤ r.ver ∨ i ∈ todo) :
    Clock { c with holder := some w' } where
  pos := h.pos
  ver hno := h.ver fun v hv => by
    rw [hw] at hv
    cases hv
    exact fun hs => hno w' rfl (hstage.mpr hs)
  published v hv hs := by
    cases hv
    exact h.published w hw (hstage.mp hs)
  holder v hv := by
    cases hv
    exact hconn ▸ h.holder w hw
  bound := h.bound
  procs := h.procs
  scan v todo acc hv hs := by
    cases hv
    exact hscan todo acc hs

theorem unlock (hs : ∀ w, c.holder = some w → w.stage ≠ .published) :
    Clock { c with holder := none } where
  pos := h.pos
  ver _ := h.ver hs
  published _ hv := by cases hv
  holder _ hv := by cases hv
  bound := h.bound
  procs := h.procs
  scan _ _ _ hv := by cases hv

theorem lock (hw : c.holder = none) (hi : c.live i = true) :
    Clock { c with holder := some ⟨i, .working, none⟩ } where
  pos := h.pos
  ver _ := h.ver fun w hw' => by
    rw [hw] at hw'
    cases hw'
  published v hv hs := by
    cases hv
    cases hs
  holder v hv := by
    cases hv
    exact hi
  bound := h.bound
  procs := h.procs
  scan v _ _ hv hs := by
    cases hv
    cases hs

/-- The visit of a slot by the scan. A reader's slot is not cleared, since its lock is held, and its
xid is taken into account. -/
theorem scanSlot (hw : c.holder = some w) {rest : List Nat} {acc xmin tmin : Nat}
    (hscan : w.scan = some (i :: rest, acc)) {k : Nat → FlckRc}
    (hflck : ∀ j, c.live j = true → j ≠ w.conn → k j = .again) {v : ConnSlot × Nat}
    (hv : v = xminSlot xmin tmin w.conn k i (c.slots i) acc) :
    Clock { c with
      slots := Function.update c.slots i v.1
      holder := some { w with scan := some (rest, v.2) } } := by
  have hkept : c.live i = true → ¬ connReaped xmin tmin w.conn k i (c.slots i) := by
    rintro hl ⟨-, -, hne, -, hok⟩
    rw [hflck i hl hne] at hok
    cases hok
  have hslot : c.live i = true → v.1 = c.slots i := by
    intro hl
    rw [hv, xminSlot_fst, if_neg (hkept hl)]
  obtain ⟨hacc, hrefs⟩ := h.scan w _ _ hw hscan
  have hle : v.2 ≤ acc := hv ▸ xminSlot_snd_le i (c.slots i) acc
  -- the slot of a dead process may be cleared, it has no roots
  have h1 : Clock { c with slots := Function.update c.slots i v.1 } := by
    cases hl : c.live i with
    | true =>
      rw [hslot hl, update_eq_self]
      exact h
    | false =>
      have hidle : c.phase i = .idle := by
        by_contra hne
        rw [(h.procs i).reader hne] at hl
        cases hl
      have h' := h.setPhase i (s := v.1) (f := .idle)
        ⟨fun e => absurd e (by rw [hl]; decide), fun e => absurd e (by rw [hl]; decide), fun e =>
          absurd rfl e, nofun, nofun, nofun⟩ nofun
      rwa [← hidle, update_eq_self] at h'
  refine h1.setHolder hw rfl Iff.rfl fun todo acc' e => ?_
  cases e
  refine ⟨lt_of_le_of_lt hle hacc, fun j r hr => ?_⟩
  rcases hrefs j r hr with h' | h'
  · exact .inl (hle.trans h')
  · rcases mem_cons.mp h' with rfl | h'
    · -- the reader's own slot was visited
      have hl := h.live_of_ref hr
      obtain ⟨x, hx⟩ := xid_of_ref hr
      obtain ⟨hx1, hx2, -⟩ := (h.procs j).slot x hx
      refine .inl (le_trans ?_ ((h.procs j).refs r hr).1)
      rw [hv]
      exact xminSlot_snd_le_slot acc ((h.procs j).pid hl) (by omega) (hkept hl)
    · exact .inr h'

end

theorem procOk_mono {xid xid' ver ver' nconns n : Nat} {l : Bool}
    (h : ProcOk xid ver nconns s l n ph) (hx : xid ≤ xid') (hv : ver ≤ ver') :
    ProcOk xid' ver' nconns s l n ph where
  covers := h.covers
  pid := h.pid
  reader := h.reader
  got x e := ⟨(h.got x e).1, (h.got x e).2.trans hx⟩
  slot x e := ⟨(h.slot x e).1, (h.slot x e).2.1, (h.slot x e).2.2.trans hx⟩
  refs r hr := ⟨(h.refs r hr).1, (h.refs r hr).2.trans hv⟩

theorem publish (h : Clock c) (hw : c.holder = some w) (hs : w.stage = .working) :
    Clock { c with ver := c.xid + 1, holder := some { w with stage := .published } } := by
  have hver : c.ver = c.xid := h.ver fun v hv => by
    rw [hw] at hv
    cases hv
    rw [hs]
    decide
  refine ⟨h.pos, fun hno => absurd rfl (hno _ rfl), fun _ _ _ => rfl, fun v hv => ?_, h.bound,
    fun i => procOk_mono (h.procs i) le_rfl (by rw [hver]; exact Nat.le_succ _),
    fun v todo acc hv e => ?_⟩
  · cases hv
    exact h.holder w hw
  · cases hv
    exact h.scan w todo acc hw e

theorem stamp (h : Clock c) (hw : c.holder = some w) (hs : w.stage = .published) :
    Clock { c with xid := c.xid + 1, holder := some { w with stage := .stamped } } := by
  refine ⟨h.pos.trans (Nat.le_succ _), fun _ => h.published w hw hs, fun v hv e => ?_, fun v hv => ?_,
    h.bound, fun i => procOk_mono (h.procs i) (Nat.le_succ _) le_rfl, fun v todo acc hv e => ?_⟩
  · cases hv
    cases e
  · cases hv
    exact h.holder w hw
  · cases hv
    obtain ⟨h1, h2⟩ := h.scan w todo acc hw e
    exact ⟨h1.trans (Nat.lt_succ_self _), h2⟩

/-! ## All steps -/

variable {σ σ' : Shm E}

theorem holder_ids {w : Holder} (hw : σ.holder = some w) : σ.ids.holder = some w.ids :=
  congrArg (Option.map Holder.ids) hw

theorem same (h : Clock σ.ids) (e : σ'.ids = σ.ids) : Clock σ'.ids := e ▸ h

theorem ids_setHolder {τ : Shm E} {w w' : Holder} (hτ : τ.ids = σ.ids) (hw : τ.holder = some w)
    (e : w'.ids = w.ids) : (τ.setHolder w').ids = σ.ids := by
  rw [← hτ]
  unfold Shm.setHolder Shm.ids
  rw [hw]
  simp [e]

theorem ids_grant {τ : Shm E} {w : Holder} {p : Nat} {chain : Bool} (hτ : τ.ids = σ.ids)
    (hw : τ.holder = some w) : (τ.grant w p chain).ids = σ.ids := by
  cases chain with
  | true => exact hτ
  | false => exact ids_setHolder hτ hw rfl

/-- Every step keeps the invariant that meets the condition. -/
theorem step {a : Act E} (h : Clock σ.ids) (hm : Moved σ a σ') (hok : Covering σ a) :
    Clock σ'.ids := by
  cases hm with
  | attach i n hl hi =>
    exact h.update i ⟨fun _ => hok.1, fun _ => Nat.succ_pos i, fun e => absurd rfl e, nofun, nofun,
      nofun⟩ (fun _ => hi) (fun _ _ _ => rfl) nofun
  | detach i hl hidle hw =>
    have h' := h.update i (s := connRelease (σ.slots i)) (l := false) (n := σ.scans i)
      (f := σ.phase i) ⟨nofun, nofun, fun e => absurd hidle e, ?_, ?_, ?_⟩ nofun ?_ ?_
    · rwa [show σ.ids.scans = σ.scans from rfl, show σ.ids.phase = σ.phase from rfl,
        update_eq_self, update_eq_self] at h'
    · rw [hidle]
      nofun
    · rw [hidle]
      nofun
    · rw [hidle]
      nofun
    · intro v hv e
      obtain ⟨w, hw', rfl⟩ := Option.map_eq_some_iff.mp hv
      exact absurd e (hw w hw')
    · rw [hidle]
      nofun
  | readXid i hl _ => exact h.readXid hl
  | storeXid i now x hph => exact h.storeXid hph rfl rfl
  | loadKeys i x hph =>
    refine h.load (x := x) (congrArg Phase.xid? hph) rfl nofun fun r hr => .inr ?_
    rw [List.mem_singleton.mp hr]
    rfl
  | loadBlocks i x keys hph =>
    refine h.load (x := x) (congrArg Phase.xid? hph) rfl nofun fun r hr => ?_
    rcases List.mem_cons.mp hr with rfl | hr
    · refine .inl ?_
      change r ∈ (σ.phase i).refs
      rw [hph]
      exact mem_singleton_self r
    · rw [mem_singleton.mp hr]
      exact .inr rfl
  | release i now x hph => exact h.release i rfl
  | lock i hl hw => exact h.lock (congrArg (Option.map Holder.ids) hw) hl
  | take p w hw _ => exact h.same (ids_setHolder rfl hw rfl)
  | scanStart w hw =>
    refine h.setHolder (holder_ids hw) rfl Iff.rfl fun todo acc e => ?_
    cases e
    have hpos := h.pos
    refine ⟨?_, fun i r hr => .inr (mem_range.mpr ?_)⟩
    · show pred64 σ.xid < σ.xid
      have hpos' : 1 ≤ σ.xid := hpos
      unfold pred64
      split <;> omega
    · exact (h.bound i (h.live_of_ref hr)).trans_le
        ((h.procs w.conn).covers (h.holder _ (holder_ids hw)))
  | scanSlot now w i rest acc hw hscan v hv =>
    exact h.scanSlot (holder_ids hw) hscan (k := σ.flck w.conn)
      (fun j hj hne => if_pos ⟨hj, hne⟩) hv
  | allocFree p f chain w hw _ _ => exact h.same (ids_grant rfl hw)
  | allocTail chain w hw => exact h.same (ids_grant rfl hw)
  | recycle p w hw _ => exact h.same (ids_setHolder rfl hw rfl)
  | discard p w hw _ _ _ => exact h.same (ids_setHolder rfl hw rfl)
  | publish t ht used rest w hw hs _ => exact h.publish (holder_ids hw) hs
  | stampXid w hw hs => exact h.stamp (holder_ids hw) hs
  | freeGc w hw hs =>
    refine h.setHolder (holder_ids hw) rfl ?_ fun todo acc e => h.scan _ todo acc (holder_ids hw) e
    show Stage.done = .published ↔ w.stage = .published
    rw [hs]
    decide
  | loseGc w hw hs =>
    refine h.setHolder (holder_ids hw) rfl ?_ fun todo acc e => h.scan _ todo acc (holder_ids hw) e
    show Stage.done = .published ↔ w.stage = .published
    rw [hs]
    decide
  | giveFree p w hw _ => exact h.same (ids_setHolder rfl hw rfl)
  | giveKeep p w hw _ => exact h.same (ids_setHolder rfl hw rfl)
  | unlock w hw _ hs =>
    refine h.unlock fun v hv => ?_
    cases (holder_ids hw).symm.trans hv
    show w.stage ≠ .published
    rcases hs with hs | hs <;> rw [hs] <;> decide
  | killHolder i keep gone w _ hw hi _ =>
    have h1 := h.unlock fun v hv => by
      cases (holder_ids hw).symm.trans hv
      exact hok w hw hi
    exact h1.die i nofun
  | kill i keep gone _ hw =>
    refine h.die i fun v hv => ?_
    obtain ⟨w, hw', rfl⟩ := Option.map_eq_some_iff.mp hv
    exact hw w hw'
  | statNew i now count seen _ hidle _ _ =>
    have h' := h.release i (s := { σ.slots i with xid := 0, active := now }) rfl
    have hsame : Function.update σ.ids.phase i .idle = σ.ids.phase := by
      rw [← hidle]
      exact update_eq_self i σ.phase
    rwa [hsame] at h'
  | _ => exact h

end Clock

end Eddy
