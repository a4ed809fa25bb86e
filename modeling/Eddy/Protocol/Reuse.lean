import Eddy.Protocol.Snapshot
import Eddy.Protocol.Stock

/-!
# Eddy — a reader's pages are not reused

`ed_alloc` hands out a free page when the scan of the slots shows no reader that is old enough to
reach it. `Shielded` is what this is for: as long as a reader holds a root, no writer gets or writes
a page below it. It holds in every run in which each process scans all the slots of the header. A
process scans as many slots as it was told when it opened the index (`idx->nconns`), which need not
be as many as the header has.
-/

namespace Eddy

open Runs List

variable {E : Type}

/-- The step gives the page to the writer, or writes it. -/
def Touches (σ : Shm E) : Act E → Nat → Prop
  | .take p, q => q = p
  | .allocFree p _ _, q => q = p
  | .allocTail _, q => q = σ.tail
  | .recycle p, q => q = p
  | .write p _, q => q = p
  | _, _ => False

/-- No step gives to the writer or writes a page that a reader can reach from a root it has
loaded. -/
def Shielded (σ : Shm E) : Prop :=
  ∀ a σ', σ.step a = some σ' → ∀ p, Touches σ a p → Unread σ p

/-- The step is one of `ed_idx_repair_leaks`. -/
def Act.repairs : Act E → Bool
  | .repair _ => true
  | _ => false

/-- The steps of readers and writers, with every process scanning all slots. -/
def Scanning (σ : Shm E) (a : Act E) : Prop := a.repairs = false ∧ Covering σ a

instance (σ : Shm E) (a : Act E) : Decidable (Scanning σ a) := inferInstanceAs (Decidable (_ ∧ _))

theorem Stock.shielded {σ : Shm E} (h : Stock σ) (hc : Clock σ.ids) : Shielded σ := by
  intro a σ' hs p hp
  cases Shm.moved hs with
  | take q w hw hq =>
    cases hp
    exact h.unread p (mem_append_right _ (mem_append_left _ hq))
  | allocFree q f chain w hw hq hf =>
    cases hp
    exact h.reusable hc hw hq hf
  | allocTail chain w hw =>
    cases hp
    exact h.unread_of_tail le_rfl
  | recycle q w hw hq =>
    cases hp
    exact h.unread p (mem_append_right _ (mem_append_right _ hq))
  | write q b w hw hq =>
    cases hp
    refine h.unread p ?_
    rw [mem_kept_of_holder hw]
    simp only [mem_append]
    tauto
  | _ => cases hp

theorem Clock.create (maxConns : Nat) (pages : Nat → EdBpt E) :
    Clock (Shm.create maxConns pages).ids where
  pos := le_rfl
  ver _ := rfl
  published _ hv := by cases hv
  holder _ hv := by cases hv
  bound _ hl := by cases hl
  procs _ := ⟨nofun, nofun, fun e => absurd rfl e, nofun, nofun, nofun⟩
  scan _ _ _ hv := by cases hv

/-- The process `i` commits a keys tree with the one page `p` in place of the pages `old`. -/
def commitLeaf (i p : Nat) (old : List Nat) : List (Act UInt64) :=
  [.lock i, .readXid i, .storeXid i 100, .loadKeys i, .loadBlocks i, .scanStart, .scanSlot 100,
    .allocTail false, .write p (oneEntry 5)] ++ old.map .discard ++
  [.publish (fun d => if d = .keys then some p else none) (fun _ => 0) [p] [], .stampXid, .freeGc,
    .release i 100, .unlock]

/-- An index with three slots. The process 0 was told one slot and commits four times; the process 1
takes a snapshot after the first commit. -/
def unscanned : List (Act UInt64) :=
  [.attach 0 1, .attach 1 3] ++ commitLeaf 0 2 [] ++
    [.readXid 1, .storeXid 1 100, .loadKeys 1, .loadBlocks 1] ++
    commitLeaf 0 3 [2] ++ commitLeaf 0 4 [3] ++ commitLeaf 0 5 [4] ++
    [.lock 0, .readXid 0, .storeXid 0 100, .loadKeys 0, .loadBlocks 0, .scanStart, .scanSlot 100]

end Eddy
