import Eddy.Index.Txn

/-!
# Eddy — connection slots (`idx.c`)

Every process that has the index open owns one connection slot of the header. The slot holds
the process id, the time of the last activity, the xid of the snapshot the process reads from
and the pages it keeps for its next write transaction. The owner of a slot holds an `fcntl` lock
on its bytes; the lock goes away with the process, the bytes stay.

The lock calls are answered by a function `flck`, so that the lemmas hold for every state of the
lock table.
-/

namespace Eddy

open List Function

/-- A connection slot with the fields the search and the scan look at. -/
structure ConnSlot extends EdConn where
  pid : Nat
  active : Nat

/-- The slot of a new index (`CONN_DEFAULT`), and a cleared one. -/
def ConnSlot.blank : ConnSlot where
  xid := 0
  pending := []
  pid := 0
  active := 0

/-- What a lock call that does not wait answers: the lock is taken, somebody else has it
(`EAGAIN`), or another error. -/
inductive FlckRc where
  | ok
  | again
  | fail
  deriving DecidableEq, Repr

/-- How a search for a slot ends. -/
inductive ConnFound where
  | slot (i : Nat)
  | failed
  | busy
  deriving DecidableEq, Repr

/-! ## Taking and releasing a slot -/

/-- Whether the first pass of `conn_acquire` leaves a slot out. -/
def connSkip (c : ConnSlot) (xmin : Nat) : Prop := 0 < c.pid ∧ (c.xid = 0 ∨ xmin ≤ c.xid)

instance (c : ConnSlot) (xmin : Nat) : Decidable (connSkip c xmin) :=
  inferInstanceAs (Decidable (_ ∧ _))

/-- One pass of `conn_acquire` over the slots of a list. -/
def connScan (conns : Nat → ConnSlot) (flck : Nat → FlckRc) (xmin : Nat) (all : Bool) :
    List Nat → ConnFound
  | [] => .busy
  | i :: rest =>
    if all = false ∧ connSkip (conns i) xmin then connScan conns flck xmin all rest
    else match flck i with
      | .ok => .slot i
      | .again => connScan conns flck xmin all rest
      | .fail => .failed

/-- `conn_acquire`. The lock calls of the two passes may be answered differently. -/
def connAcquire (conns : Nat → ConnSlot) (flck : Bool → Nat → FlckRc) (xmin nconns : Nat) :
    ConnFound :=
  match connScan conns (flck false) xmin false (List.range nconns) with
  | .busy => connScan conns (flck true) xmin true (List.range nconns)
  | found => found

/-- The stores into an acquired slot. -/
def connTake (c : ConnSlot) (pid : Nat) : ConnSlot := { c with pid := pid, xid := 0 }

/-- `conn_release`: the stores into a slot that is given back. -/
def connRelease (c : ConnSlot) : ConnSlot := { c with pid := 0, active := 0, xid := 0 }

section Acquire

variable {conns : Nat → ConnSlot} {xmin i : Nat}

theorem connScan_mem {flck : Nat → FlckRc} {all : Bool} {l : List Nat}
    (h : connScan conns flck xmin all l = .slot i) : i ∈ l ∧ flck i = .ok := by
  induction l with
  | nil => cases h
  | cons j rest ih =>
    rw [connScan] at h
    split at h
    · exact ⟨mem_cons_of_mem _ (ih h).1, (ih h).2⟩
    · split at h
      · rename_i hok
        cases h
        exact ⟨mem_cons_self, hok⟩
      · exact ⟨mem_cons_of_mem _ (ih h).1, (ih h).2⟩
      · cases h

theorem connAcquire_slot {flck : Bool → Nat → FlckRc} {nconns : Nat}
    (h : connAcquire conns flck xmin nconns = .slot i) : i < nconns ∧ ∃ all, flck all i = .ok := by
  unfold connAcquire at h
  split at h
  · obtain ⟨hi, hok⟩ := connScan_mem h
    exact ⟨mem_range.mp hi, true, hok⟩
  · obtain ⟨hi, hok⟩ := connScan_mem h
    exact ⟨mem_range.mp hi, false, hok⟩

theorem connScan_only {flck : Nat → FlckRc} {all : Bool} {l : List Nat} (hi : i ∈ l)
    (hok : flck i = .ok) (hbusy : ∀ j, j ≠ i → flck j = .again)
    (hskip : ¬ (all = false ∧ connSkip (conns i) xmin)) :
    connScan conns flck xmin all l = .slot i := by
  induction l with
  | nil => cases hi
  | cons j rest ih =>
    rw [connScan]
    by_cases hj : j = i
    · subst hj
      rw [if_neg hskip, hok]
    · have hrest : i ∈ rest := (mem_cons.mp hi).resolve_left (Ne.symm hj)
      split
      · exact ih hrest
      · rw [hbusy j hj]
        exact ih hrest

theorem connAcquire_lt (xmin : Nat) {nconns : Nat} (hi : i < nconns) :
    ∃ conns flck, connAcquire conns flck xmin nconns = .slot i := by
  refine ⟨fun _ => ConnSlot.blank, fun _ j => if j = i then .ok else .again, ?_⟩
  have hskip : ¬ connSkip ConnSlot.blank xmin := fun h => absurd h.1 (lt_irrefl 0)
  rw [connAcquire, connScan_only (mem_range.mpr hi) (if_pos rfl) (fun j hj => if_neg hj)
    fun h => hskip h.2]

end Acquire

/-! ## The smallest xid still in use -/

/-- Whether `ed_idx_xmin` takes a slot in use for a stale one. -/
def connStale (c : ConnSlot) (xmin tmin : Nat) : Prop :=
  c.xid < xmin ∨ (0 < tmin ∧ 0 < c.active ∧ tmin < c.active)

instance (c : ConnSlot) (xmin tmin : Nat) : Decidable (connStale c xmin tmin) :=
  inferInstanceAs (Decidable (_ ∨ _))

/-- Whether `ed_idx_xmin`, run by the owner of the slot `mine`, clears the slot `i`. -/
def connReaped (xmin tmin mine : Nat) (flck : Nat → FlckRc) (i : Nat) (c : ConnSlot) : Prop :=
  0 < c.pid ∧ 0 < c.xid ∧ i ≠ mine ∧ connStale c xmin tmin ∧ flck i = .ok

instance (xmin tmin mine : Nat) (flck : Nat → FlckRc) (i : Nat) (c : ConnSlot) :
    Decidable (connReaped xmin tmin mine flck i c) :=
  inferInstanceAs (Decidable (_ ∧ _ ∧ _ ∧ _ ∧ _))

/-- The visit of one slot: the new bytes of the slot and the smallest xid seen so far. -/
def xminSlot (xmin tmin mine : Nat) (flck : Nat → FlckRc) (i : Nat) (c : ConnSlot) (xid : Nat) :
    ConnSlot × Nat :=
  if c.pid = 0 ∨ c.xid = 0 then (c, xid)
  else if connReaped xmin tmin mine flck i c then (ConnSlot.blank, xid)
  else (c, if c.xid < xid then c.xid else xid)

/-- The loop of `ed_idx_xmin` over the slots of a list. -/
def xminLoop (xmin tmin mine : Nat) (flck : Nat → FlckRc) :
    List Nat → (Nat → ConnSlot) → Nat → (Nat → ConnSlot) × Nat
  | [], conns, xid => (conns, xid)
  | i :: rest, conns, xid =>
    let (c, xid') := xminSlot xmin tmin mine flck i (conns i) xid
    xminLoop xmin tmin mine flck rest (update conns i c) xid'

/-- The xid below which `ed_idx_xmin` doubts a slot. -/
def xminDoubt (xid : Nat) : Nat := if pred64 xid > 16 then pred64 xid - 16 else 0

/-- `ed_idx_xmin` for the owner of the slot `mine` at the time `now`, with `nconns` the number of
slots the process scans. -/
def edIdxXmin (hdrXid now mine nconns : Nat) (flck : Nat → FlckRc) (conns : Nat → ConnSlot) :
    (Nat → ConnSlot) × Nat :=
  xminLoop (xminDoubt hdrXid) (sub32 now 10) mine flck (List.range nconns) conns (pred64 hdrXid)

section Xmin

variable {xmin tmin mine : Nat} {flck : Nat → FlckRc}

theorem xminSlot_fst (i : Nat) (c : ConnSlot) (xid : Nat) :
    (xminSlot xmin tmin mine flck i c xid).1
      = if connReaped xmin tmin mine flck i c then ConnSlot.blank else c := by
  unfold xminSlot
  split
  · rename_i h
    have hno : ¬ connReaped xmin tmin mine flck i c := by
      rintro ⟨hpid, hxid, -⟩
      omega
    rw [if_neg hno]
  · split <;> rfl

theorem xminSlot_snd_le (i : Nat) (c : ConnSlot) (xid : Nat) :
    (xminSlot xmin tmin mine flck i c xid).2 ≤ xid := by
  unfold xminSlot
  split
  · exact le_refl _
  · split
    · exact le_refl _
    · show (if c.xid < xid then c.xid else xid) ≤ xid
      split <;> omega

theorem xminSlot_snd_le_slot {i : Nat} {c : ConnSlot} (xid : Nat) (hpid : 0 < c.pid)
    (hxid : 0 < c.xid) (hkept : ¬ connReaped xmin tmin mine flck i c) :
    (xminSlot xmin tmin mine flck i c xid).2 ≤ c.xid := by
  unfold xminSlot
  rw [if_neg (by omega), if_neg hkept]
  show (if c.xid < xid then c.xid else xid) ≤ c.xid
  split <;> omega

theorem xminLoop_slot {l : List Nat} (hl : l.Nodup) (conns : Nat → ConnSlot) (xid j : Nat) :
    (xminLoop xmin tmin mine flck l conns xid).1 j
      = if j ∈ l ∧ connReaped xmin tmin mine flck j (conns j) then ConnSlot.blank else conns j := by
  induction l generalizing conns xid with
  | nil => simp [xminLoop]
  | cons i rest ih =>
    have hi : i ∉ rest := (nodup_cons.mp hl).1
    rw [xminLoop, ih (nodup_cons.mp hl).2]
    by_cases hj : j = i
    · subst hj
      rw [update_self, xminSlot_fst, if_neg fun h => hi h.1]
      simp
    · rw [update_of_ne hj]
      simp [hj]

theorem edIdxXmin_kept {hdrXid now nconns j : Nat} {conns : Nat → ConnSlot}
    (h : ¬ connReaped (xminDoubt hdrXid) (sub32 now 10) mine flck j (conns j)) :
    (edIdxXmin hdrXid now mine nconns flck conns).1 j = conns j := by
  rw [edIdxXmin, xminLoop_slot nodup_range, if_neg fun hj => h hj.2]

end Xmin

end Eddy
