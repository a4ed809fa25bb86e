import Eddy.Protocol.Model

/-!
# Eddy — the single steps, taken apart

`Moved` lists the steps of `Shm.step` with their guards and results. `Shm.moved` says that there are
no others, so a proof about runs is a case analysis over `Moved`.
-/

namespace Eddy

open Function

variable {E : Type}

/-- The steps of the shared memory. -/
inductive Moved (σ : Shm E) : Act E → Shm E → Prop where
  | attach (i n : Nat) (hlive : σ.live i = false) (hi : i < σ.nconns) :
      Moved σ (.attach i n) { σ.setSlot i (connTake (σ.slots i) (i + 1)) with
        live := update σ.live i true
        scans := update σ.scans i n
        phase := update σ.phase i .idle
        stat := update σ.stat i none }
  | detach (i : Nat) (hlive : σ.live i = true) (hidle : σ.phase i = .idle)
      (hw : ∀ w, σ.holder = some w → w.conn ≠ i) :
      Moved σ (.detach i)
        { σ.setSlot i (connRelease (σ.slots i)) with live := update σ.live i false }
  | readXid (i : Nat) (hlive : σ.live i = true) (hidle : σ.phase i = .idle) :
      Moved σ (.readXid i) (σ.setPhase i (.gotXid σ.xid))
  | storeXid (i now x : Nat) (hph : σ.phase i = .gotXid x) :
      Moved σ (.storeXid i now)
        ((σ.setSlot i { σ.slots i with xid := x, active := now }).setPhase i (.stored x))
  | loadKeys (i x : Nat) (hph : σ.phase i = .stored x) :
      Moved σ (.loadKeys i) (σ.setPhase i (.half x (σ.root .keys)))
  | loadBlocks (i x : Nat) (keys : RootRef) (hph : σ.phase i = .half x keys) :
      Moved σ (.loadBlocks i) (σ.setPhase i (.snap x keys (σ.root .blocks)))
  | release (i now x : Nat) (hph : (σ.phase i).xid? = some x) :
      Moved σ (.release i now)
        ((σ.setSlot i { σ.slots i with xid := 0, active := now }).setPhase i .idle)
  | lock (i : Nat) (hlive : σ.live i = true) (hw : σ.holder = none) :
      Moved σ (.lock i) (σ.setHolder ⟨i, [], [], none, .working⟩)
  | take (p : Nat) (w : Holder) (hw : σ.holder = some w) (hp : p ∈ σ.pool) :
      Moved σ (.take p)
        ({ σ with pool := σ.pool.erase p }.setHolder { w with own := p :: w.own })
  | scanStart (w : Holder) (hw : σ.holder = some w) : Moved σ .scanStart (σ.scanStart w)
  | scanSlot (now : Nat) (w : Holder) (i : Nat) (rest : List Nat) (acc : Nat)
      (hw : σ.holder = some w) (hscan : w.scan = some (i :: rest, acc)) (v : ConnSlot × Nat)
      (hv : v = xminSlot (xminDoubt σ.xid) (sub32 now 10) w.conn (σ.flck w.conn) i (σ.slots i)
        acc) :
      Moved σ (.scanSlot now) ((σ.setSlot i v.1).setHolder { w with scan := some (rest, v.2) })
  | allocFree (p f : Nat) (chain : Bool) (w : Holder) (hw : σ.holder = some w)
      (hp : (p, f) ∈ σ.free) (hf : Shm.Reusable w f) :
      Moved σ (.allocFree p f chain) ({ σ with free := σ.free.erase (p, f) }.grant w p chain)
  | allocTail (chain : Bool) (w : Holder) (hw : σ.holder = some w) :
      Moved σ (.allocTail chain) ({ σ with tail := σ.tail + 1 }.grant w σ.tail chain)
  | recycle (p : Nat) (w : Holder) (hw : σ.holder = some w) (hp : p ∈ σ.chain) :
      Moved σ (.recycle p)
        ({ σ with chain := σ.chain.erase p }.setHolder { w with own := p :: w.own })
  | write (p : Nat) (b : EdBpt E) (w : Holder) (hw : σ.holder = some w)
      (hp : p ∈ w.own ∨ p ∈ σ.chain) :
      Moved σ (.write p b) { σ with pages := update σ.pages p b }
  | discard (p : Nat) (w : Holder) (hw : σ.holder = some w) (hstage : w.stage = .working)
      (hp : p ∈ σ.treeList) (hgc : p ∉ w.gc) :
      Moved σ (.discard p) (σ.setHolder { w with gc := p :: w.gc })
  | publish (t : EdDb → Option Nat) (h : EdDb → Nat) (used rest : List Nat) (w : Holder)
      (hw : σ.holder = some w) (hstage : w.stage = .working) (hacc : σ.Accounts w t h used rest) :
      Moved σ (.publish t h used rest)
        ({ σ with tree := t, height := h, ver := σ.xid + 1, hist := t :: σ.hist
          }.setHolder { w with own := rest, stage := .published })
  | stampXid (w : Holder) (hw : σ.holder = some w) (hstage : w.stage = .published) :
      Moved σ .stampXid ({ σ with xid := σ.xid + 1 }.setHolder { w with stage := .stamped })
  | freeGc (w : Holder) (hw : σ.holder = some w) (hstage : w.stage = .stamped) :
      Moved σ .freeGc ({ σ with free := σ.free ++ w.gc.map (fun p => (p, σ.xid))
        }.setHolder { w with gc := [], stage := .done })
  | loseGc (w : Holder) (hw : σ.holder = some w) (hstage : w.stage = .stamped) :
      Moved σ .loseGc (σ.setHolder { w with gc := [], stage := .done })
  | giveFree (p : Nat) (w : Holder) (hw : σ.holder = some w) (hp : p ∈ w.own) :
      Moved σ (.give p true)
        ({ σ with free := σ.free ++ [(p, 0)] }.setHolder { w with own := w.own.erase p })
  | giveKeep (p : Nat) (w : Holder) (hw : σ.holder = some w) (hp : p ∈ w.own) :
      Moved σ (.give p false)
        ({ σ with pool := p :: σ.pool }.setHolder { w with own := w.own.erase p })
  | drain (p : Nat) (w : Holder) (hw : σ.holder = some w) (hp : p ∈ σ.pool) :
      Moved σ (.drain p) { σ with pool := σ.pool.erase p, free := σ.free ++ [(p, 0)] }
  | lose (p : Nat) (hp : p ∈ σ.pool) : Moved σ (.lose p) { σ with pool := σ.pool.erase p }
  | unlock (w : Holder) (hw : σ.holder = some w) (hown : w.own = [])
      (hstage : w.stage = .working ∨ w.stage = .done) : Moved σ .unlock { σ with holder := none }
  | killHolder (i : Nat) (keep gone : List Nat) (w : Holder) (hlive : σ.live i = true)
      (hw : σ.holder = some w) (hi : w.conn = i) (hown : w.own.Perm (keep ++ gone)) :
      Moved σ (.kill i keep gone) { σ with
        live := update σ.live i false
        phase := update σ.phase i .idle
        stat := update σ.stat i none
        holder := none
        pool := keep ++ σ.pool }
  | kill (i : Nat) (keep gone : List Nat) (hlive : σ.live i = true)
      (hw : ∀ w, σ.holder = some w → w.conn ≠ i) :
      Moved σ (.kill i keep gone) { σ with
        live := update σ.live i false
        phase := update σ.phase i .idle
        stat := update σ.stat i none }
  | statNew (i now count : Nat) (seen : List Nat) (hlive : σ.live i = true)
      (hidle : σ.phase i = .idle) (hw : σ.holder = none)
      (hseen : ∀ p ∈ seen, p ∈ σ.pool ∨ p ∈ σ.chain) :
      Moved σ (.statNew i now count seen)
        { σ.setSlot i { σ.slots i with xid := 0, active := now } with
          stat := update σ.stat i (some ⟨σ.leaks (σ.scans i) seen, σ.tail + count⟩)
          fresh := update σ.fresh i true }
  | repair (granted : Nat → Bool) (w : Holder) (st : Stat) (b : Batch) (hw : σ.holder = some w)
      (hstat : σ.stat w.conn = some st) (hb : st.repair granted = some b) :
      Moved σ (.repair granted) { σ with
        free := σ.free ++ b.freed.map (fun p => (p, 0))
        fresh := fun _ => false }

namespace Shm

variable {σ σ' : Shm E}

theorem holder_bind {f : Holder → Option (Shm E)} (h : σ.holder.bind f = some σ') :
    ∃ w, σ.holder = some w ∧ f w = some σ' := Option.bind_eq_some_iff.mp h

theorem kill_moved {i : Nat} {keep gone : List Nat} (h : σ.kill i keep gone = some σ') :
    Moved σ (.kill i keep gone) σ' := by
  unfold Shm.kill at h
  split at h
  · rename_i hlive
    split at h
    · rename_i w hw
      split at h
      · rename_i hi
        split at h
        · rename_i hown
          cases h
          exact .killHolder i keep gone w hlive hw hi hown
        · cases h
      · rename_i hi
        cases h
        refine .kill i keep gone hlive fun w' hw' => ?_
        rw [hw] at hw'
        cases hw'
        exact hi
    · rename_i hw
      cases h
      refine .kill i keep gone hlive fun w' hw' => ?_
      rw [hw] at hw'
      cases hw'
  · cases h

theorem moved {a : Act E} (h : σ.step a = some σ') : Moved σ a σ' := by
  cases a with
  | attach i n =>
    simp only [Shm.step, Shm.attach] at h
    split at h
    · cases h
    · rename_i hg
      cases h
      have hg' : σ.live i = false ∧ i < σ.nconns := by simpa using hg
      exact .attach i n hg'.1 hg'.2
  | detach i =>
    simp only [Shm.step, Shm.detach] at h
    split at h
    · rename_i hg
      cases h
      refine .detach i hg.1 hg.2.1 fun w hw => ?_
      have hconn := hg.2.2
      rw [hw] at hconn
      simpa using hconn
    · cases h
  | readXid i =>
    obtain ⟨hg, h⟩ := Option.ite_none_right_eq_some.mp h
    cases h
    exact .readXid i hg.1 hg.2
  | storeXid i now =>
    simp only [Shm.step, Shm.storeXid] at h
    split at h
    · rename_i x hph
      cases h
      exact .storeXid i now x hph
    · cases h
  | loadKeys i =>
    simp only [Shm.step, Shm.loadKeys] at h
    split at h
    · rename_i x hph
      cases h
      exact .loadKeys i x hph
    · cases h
  | loadBlocks i =>
    simp only [Shm.step, Shm.loadBlocks] at h
    split at h
    · rename_i x keys hph
      cases h
      exact .loadBlocks i x keys hph
    · cases h
  | release i now =>
    simp only [Shm.step, Shm.release] at h
    split at h
    · rename_i x hph
      cases h
      exact .release i now x hph
    · cases h
  | lock i =>
    obtain ⟨hg, h⟩ := Option.ite_none_right_eq_some.mp h
    cases h
    exact .lock i hg.1 hg.2
  | take p =>
    obtain ⟨w, hw, h⟩ := holder_bind h
    obtain ⟨hp, h⟩ := Option.ite_none_right_eq_some.mp h
    cases h
    exact .take p w hw hp
  | scanStart =>
    obtain ⟨w, hw, h⟩ := Option.map_eq_some_iff.mp h
    cases h
    exact .scanStart w hw
  | scanSlot now =>
    obtain ⟨w, hw, h⟩ := holder_bind h
    simp only [Shm.scanSlot] at h
    split at h
    · rename_i i rest acc hscan
      cases h
      exact .scanSlot now w i rest acc hw hscan _ rfl
    · cases h
  | allocFree p f chain =>
    obtain ⟨w, hw, h⟩ := holder_bind h
    obtain ⟨hg, h⟩ := Option.ite_none_right_eq_some.mp h
    cases h
    exact .allocFree p f chain w hw hg.1 hg.2
  | allocTail chain =>
    obtain ⟨w, hw, h⟩ := Option.map_eq_some_iff.mp h
    cases h
    exact .allocTail chain w hw
  | recycle p =>
    obtain ⟨w, hw, h⟩ := holder_bind h
    obtain ⟨hp, h⟩ := Option.ite_none_right_eq_some.mp h
    cases h
    exact .recycle p w hw hp
  | write p b =>
    obtain ⟨w, hw, h⟩ := holder_bind h
    obtain ⟨hp, h⟩ := Option.ite_none_right_eq_some.mp h
    cases h
    exact .write p b w hw hp
  | discard p =>
    obtain ⟨w, hw, h⟩ := holder_bind h
    obtain ⟨hg, h⟩ := Option.ite_none_right_eq_some.mp h
    cases h
    exact .discard p w hw hg.1 hg.2.1 hg.2.2
  | publish t ht used rest =>
    obtain ⟨w, hw, h⟩ := holder_bind h
    obtain ⟨hg, h⟩ := Option.ite_none_right_eq_some.mp h
    cases h
    exact .publish t ht used rest w hw hg.1 hg.2
  | stampXid =>
    obtain ⟨w, hw, h⟩ := holder_bind h
    obtain ⟨hg, h⟩ := Option.ite_none_right_eq_some.mp h
    cases h
    exact .stampXid w hw hg
  | freeGc =>
    obtain ⟨w, hw, h⟩ := holder_bind h
    obtain ⟨hg, h⟩ := Option.ite_none_right_eq_some.mp h
    cases h
    exact .freeGc w hw hg
  | loseGc =>
    obtain ⟨w, hw, h⟩ := holder_bind h
    obtain ⟨hg, h⟩ := Option.ite_none_right_eq_some.mp h
    cases h
    exact .loseGc w hw hg
  | give p free =>
    obtain ⟨w, hw, h⟩ := holder_bind h
    obtain ⟨hp, h⟩ := Option.ite_none_right_eq_some.mp h
    cases free with
    | true =>
      cases h
      exact .giveFree p w hw hp
    | false =>
      cases h
      exact .giveKeep p w hw hp
  | drain p =>
    obtain ⟨w, hw, h⟩ := holder_bind h
    obtain ⟨hp, h⟩ := Option.ite_none_right_eq_some.mp h
    cases h
    exact .drain p w hw hp
  | lose p =>
    obtain ⟨hp, h⟩ := Option.ite_none_right_eq_some.mp h
    cases h
    exact .lose p hp
  | unlock =>
    obtain ⟨w, hw, h⟩ := holder_bind h
    obtain ⟨hg, h⟩ := Option.ite_none_right_eq_some.mp h
    cases h
    exact .unlock w hw hg.1 hg.2
  | kill i keep gone => exact kill_moved h
  | statNew i now count seen =>
    obtain ⟨hg, h⟩ := Option.ite_none_right_eq_some.mp h
    cases h
    exact .statNew i now count seen hg.1 hg.2.1 hg.2.2.1 hg.2.2.2
  | repair granted =>
    obtain ⟨w, hw, h⟩ := holder_bind h
    obtain ⟨st, hstat, h⟩ := Option.bind_eq_some_iff.mp h
    obtain ⟨b, hb, h⟩ := Option.map_eq_some_iff.mp h
    cases h
    exact .repair granted w st b hw hstat hb

end Shm

end Eddy
