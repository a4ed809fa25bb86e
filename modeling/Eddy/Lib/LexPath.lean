import Mathlib.Data.List.Basic
import Mathlib.Data.List.Induction

/-!
# The lexical normal form of a path

A path is split at the slashes. Empty components and `.` are left out, and `..` takes away the component
before it. At the root of a rooted path `..` is left out, at the front of a relative path it stays.

* `push`: one component after others; `reduce`: a whole path;
* `Normal`: the stacks of components that come out;
* `reduce_normal`, `normalForm_idem`: the normal form is its own normal form.
-/

namespace LexPath

open List

/-- A component of a path. -/
abbrev Comp := List Char

/-- The component `..`. -/
def up : Comp := ['.', '.']

/-- A component that names something. -/
structure Real (c : Comp) : Prop where
  ne_nil : c ≠ []
  slash : '/' ∉ c
  ne_dot : c ≠ ['.']
  ne_up : c ≠ up

/-- A component behind the components of a stack. -/
def push (rooted : Bool) (stack : List Comp) (c : Comp) : List Comp :=
  if c = [] ∨ c = ['.'] then stack
  else if c = up then
    if stack = [] ∨ stack.getLast? = some up then if rooted then stack else stack ++ [up]
    else stack.dropLast
  else stack ++ [c]

/-- The components of a path, behind those of a stack. -/
def pushAll (rooted : Bool) (stack : List Comp) (path : List Char) : List Comp :=
  (path.splitOn '/').foldl (push rooted) stack

/-- The components that are left of a path. -/
def reduce (rooted : Bool) (path : List Char) : List Comp := pushAll rooted [] path

/-- The components with slashes between them. -/
def join (stack : List Comp) : List Char := ['/'].intercalate stack

def isRooted (path : List Char) : Bool := path.head? == some '/'

/-- The lexical normal form. -/
def normalForm (path : List Char) : List Char :=
  if isRooted path then '/' :: join (reduce true path)
  else if reduce false path = [] then ['.']
  else join (reduce false path)

/-! ## Components -/

variable {rooted : Bool} {stack : List Comp} {c : Comp} {l : List Char}

theorem push_skip (h : c = [] ∨ c = ['.']) : push rooted stack c = stack := if_pos h

theorem push_real (h : Real c) : push rooted stack c = stack ++ [c] := by
  rw [push, if_neg (not_or.mpr ⟨h.ne_nil, h.ne_dot⟩), if_neg h.ne_up]

theorem push_up_real (h : Real c) : push rooted (stack ++ [c]) up = stack := by
  rw [push, if_neg (by decide), if_pos rfl, if_neg, dropLast_concat]
  rw [List.getLast?_concat]
  simpa using h.ne_up

theorem push_up_front (rooted : Bool) (k : Nat) :
    push rooted (List.replicate k up) up =
      if rooted then List.replicate k up else List.replicate (k + 1) up := by
  rw [push, if_neg (by decide), if_pos rfl, if_pos, replicate_succ']
  cases k with
  | zero => exact .inl rfl
  | succ k =>
    rw [replicate_succ', List.getLast?_concat]
    exact .inr rfl

theorem pushAll_nil (rooted : Bool) (stack : List Comp) : pushAll rooted stack [] = stack := by
  show push rooted stack [] = stack
  exact push_skip (.inl rfl)

theorem splitOn_slash (l : List Char) : ('/' :: l).splitOn '/' = [] :: l.splitOn '/' :=
  splitOnP_append_cons_of_forall_mem (fun x hx => absurd hx not_mem_nil) '/' (by simp) l

theorem pushAll_slash (rooted : Bool) (stack : List Comp) (l : List Char) :
    pushAll rooted stack ('/' :: l) = pushAll rooted stack l := by
  rw [pushAll, splitOn_slash, foldl_cons, push_skip (.inl rfl)]
  rfl

theorem not_slash (hc : '/' ∉ c) : ∀ x ∈ c, (x == '/') = false := by
  intro x hx
  rw [beq_eq_false_iff_ne]
  rintro rfl
  exact hc hx

theorem pushAll_comp (hc : '/' ∉ c) (hl : l = [] ∨ ∃ r, l = '/' :: r) :
    pushAll rooted stack (c ++ l) = pushAll rooted (push rooted stack c) l := by
  have hne := not_slash hc
  rcases hl with rfl | ⟨r, rfl⟩
  · rw [append_nil, pushAll_nil, pushAll]
    have hsplit : c.splitOn '/' = [c] := splitOnP_eq_singleton hne
    rw [hsplit]
    rfl
  · have hsplit : (c ++ '/' :: r).splitOn '/' = c :: r.splitOn '/' :=
      splitOnP_append_cons_of_forall_mem hne '/' (by simp) r
    rw [pushAll_slash, pushAll, hsplit]
    rfl

/-- A path has the component `..`. -/
def HasUp (path : List Char) : Prop := up ∈ path.splitOn '/'

instance (path : List Char) : Decidable (HasUp path) := inferInstanceAs (Decidable (_ ∈ _))

theorem hasUp_slash (l : List Char) : HasUp ('/' :: l) ↔ HasUp l := by
  rw [HasUp, splitOn_slash, mem_cons]
  exact or_iff_right (by decide)

theorem not_hasUp_nil : ¬ HasUp [] := by decide

theorem hasUp_comp (hc : '/' ∉ c) (hl : l = [] ∨ ∃ r, l = '/' :: r) :
    HasUp (c ++ l) ↔ c = up ∨ HasUp l := by
  have hne := not_slash hc
  rcases hl with rfl | ⟨r, rfl⟩
  · have hsplit : c.splitOn '/' = [c] := splitOnP_eq_singleton hne
    rw [append_nil, HasUp, hsplit, mem_singleton]
    exact ⟨fun h => .inl h.symm, fun h => (h.resolve_right not_hasUp_nil).symm⟩
  · have hsplit : (c ++ '/' :: r).splitOn '/' = c :: r.splitOn '/' :=
      splitOnP_append_cons_of_forall_mem hne '/' (by simp) r
    rw [HasUp, hsplit, mem_cons, hasUp_slash, eq_comm]
    exact Iff.rfl

/-! ## Stacks -/

/-- The stacks that come out: `..` at the front, unless the path is rooted, and then names. -/
def Normal (rooted : Bool) (stack : List Comp) : Prop :=
  ∃ k reals, stack = List.replicate k up ++ reals ∧ (∀ c ∈ reals, Real c) ∧ (rooted = true → k = 0)

theorem Normal.nil (rooted : Bool) : Normal rooted [] :=
  ⟨0, [], rfl, fun _ h => absurd h not_mem_nil, fun _ => rfl⟩

theorem Normal.pushed (h : Normal rooted stack) (hc : '/' ∉ c) :
    Normal rooted (push rooted stack c) := by
  by_cases hskip : c = [] ∨ c = ['.']
  · rw [push_skip hskip]
    exact h
  rw [not_or] at hskip
  obtain ⟨k, reals, rfl, hreals, hk⟩ := h
  by_cases hup : c = up
  · subst hup
    rcases eq_nil_or_concat reals with rfl | ⟨init, last, rfl⟩
    · rw [append_nil, push_up_front]
      cases rooted with
      | true => exact ⟨k, [], (append_nil _).symm, hreals, hk⟩
      | false => exact ⟨k + 1, [], (append_nil _).symm, hreals, fun h => absurd h (by decide)⟩
    · rw [concat_eq_append] at hreals ⊢
      rw [← append_assoc, push_up_real (hreals last (by simp))]
      exact ⟨k, init, rfl, fun c hc => hreals c (by simp [hc]), hk⟩
  · have hreal : Real c := ⟨hskip.1, hc, hskip.2, hup⟩
    rw [push_real hreal, append_assoc]
    refine ⟨k, reals ++ [c], rfl, fun d hd => ?_, hk⟩
    rcases mem_append.mp hd with hd | hd
    · exact hreals d hd
    · exact mem_singleton.mp hd ▸ hreal

theorem Normal.foldl {l : List Comp} (h : Normal rooted stack) (hl : ∀ c ∈ l, '/' ∉ c) :
    Normal rooted (l.foldl (push rooted) stack) := by
  induction l generalizing stack with
  | nil => exact h
  | cons c l ih =>
    exact ih (h.pushed (hl c mem_cons_self)) fun d hd => hl d (mem_cons_of_mem _ hd)

theorem not_mem_of_mem_splitOn (h : c ∈ l.splitOn '/') : '/' ∉ c := by
  induction l generalizing c with
  | nil =>
    rw [List.splitOn, splitOnP_nil, mem_singleton] at h
    rw [h]
    exact not_mem_nil
  | cons x l ih =>
    rw [List.splitOn, splitOnP_cons_eq_if_modifyHead] at h
    split at h
    · rcases mem_cons.mp h with rfl | h
      · exact not_mem_nil
      · exact ih h
    · rename_i hx
      obtain ⟨d, rest, hd⟩ := exists_cons_of_ne_nil (splitOnP_ne_nil (· == '/') l)
      rw [hd, modifyHead_cons] at h
      have hmem : ∀ e ∈ d :: rest, '/' ∉ e := fun e he => ih (by rw [List.splitOn, hd]; exact he)
      rcases mem_cons.mp h with rfl | h
      · rw [mem_cons, not_or]
        exact ⟨fun heq => hx (by rw [heq]; exact beq_self_eq_true x), hmem d mem_cons_self⟩
      · exact hmem c (mem_cons_of_mem _ h)

theorem Normal.pushedAll (h : Normal rooted stack) (l : List Char) :
    Normal rooted (pushAll rooted stack l) :=
  h.foldl fun _ hc => not_mem_of_mem_splitOn hc

theorem reduce_normal (rooted : Bool) (path : List Char) : Normal rooted (reduce rooted path) :=
  (Normal.nil rooted).pushedAll path

theorem Normal.slash (h : Normal rooted stack) (hc : c ∈ stack) : '/' ∉ c ∧ c ≠ [] := by
  obtain ⟨k, reals, rfl, hreals, -⟩ := h
  rcases mem_append.mp hc with hc | hc
  · rw [eq_of_mem_replicate hc]
    decide
  · exact ⟨(hreals c hc).slash, (hreals c hc).ne_nil⟩

theorem Normal.foldl_self (h : Normal rooted stack) : stack.foldl (push rooted) [] = stack := by
  obtain ⟨k, reals, rfl, hreals, hk⟩ := h
  have hups : (List.replicate k up).foldl (push rooted) [] = List.replicate k up := by
    cases rooted with
    | true =>
      rw [hk rfl]
      rfl
    | false =>
      clear hk
      induction k with
      | zero => rfl
      | succ k ih =>
        rw [replicate_succ', foldl_append, ih, foldl_cons, foldl_nil, push_up_front,
          if_neg (by decide), replicate_succ']
  rw [foldl_append, hups]
  clear hk hups
  induction reals using List.reverseRecOn with
  | nil => rw [foldl_nil, append_nil]
  | append_singleton reals c ih =>
    rw [foldl_append, ih fun d hd => hreals d (mem_append_left _ hd), foldl_cons,
      foldl_nil, push_real (hreals c (by simp)), append_assoc]

/-! ## The normal form -/

theorem join_nil : join [] = [] := rfl

theorem join_singleton (c : Comp) : join [c] = c := by
  simp [join, List.intercalate]

theorem join_concat (h : stack ≠ []) (c : Comp) : join (stack ++ [c]) = join stack ++ '/' :: c := by
  induction stack with
  | nil => exact absurd rfl h
  | cons d stack ih =>
    cases stack with
    | nil => simp [join, List.intercalate]
    | cons e stack =>
      have := ih (cons_ne_nil _ _)
      simp only [join, cons_append, intercalate_cons_cons] at this ⊢
      rw [this]
      simp only [append_assoc]

theorem join_ne_nil (h : stack ≠ []) (hstack : ∀ c ∈ stack, c ≠ []) : join stack ≠ [] := by
  obtain ⟨c, rest, rfl⟩ := exists_cons_of_ne_nil h
  have hc := hstack c mem_cons_self
  cases rest with
  | nil =>
    rw [join_singleton]
    exact hc
  | cons d rest =>
    rw [join, intercalate_cons_cons, append_assoc]
    exact fun heq => hc (append_eq_nil_iff.mp heq).1

theorem Normal.pushAll_join (h : Normal rooted stack) : pushAll rooted [] (join stack) = stack := by
  by_cases hne : stack = []
  · subst hne
    exact pushAll_nil rooted []
  · rw [pushAll, join, splitOn_intercalate '/' (fun c hc => (h.slash hc).1) hne]
    exact h.foldl_self

theorem Normal.not_rooted (h : Normal rooted stack) (hne : stack ≠ []) :
    isRooted (join stack) = false := by
  obtain ⟨c, rest, rfl⟩ := exists_cons_of_ne_nil hne
  obtain ⟨hslash, hnil⟩ := h.slash mem_cons_self
  obtain ⟨x, c, rfl⟩ := exists_cons_of_ne_nil hnil
  have hx : x ≠ '/' := fun heq => hslash (heq ▸ mem_cons_self)
  have hhead : (join ((x :: c) :: rest)).head? = some x := by
    cases rest with
    | nil => rw [join_singleton]; rfl
    | cons d rest =>
      rw [join, intercalate_cons_cons]
      rfl
  rw [isRooted, hhead]
  simpa using hx

theorem isRooted_normalForm (path : List Char) : isRooted (normalForm path) = isRooted path := by
  unfold normalForm
  split
  · rename_i h
    rw [h]
    rfl
  · rename_i h
    rw [(Bool.not_eq_true _).mp h]
    split
    · rfl
    · rename_i hne
      exact (reduce_normal false path).not_rooted hne

theorem reduce_normalForm (path : List Char) :
    reduce (isRooted path) (normalForm path) = reduce (isRooted path) path := by
  have hn := reduce_normal (isRooted path) path
  unfold normalForm
  cases hr : isRooted path with
  | true =>
    rw [hr] at hn
    rw [if_pos rfl, reduce, pushAll_slash, hn.pushAll_join]
  | false =>
    rw [hr] at hn
    rw [if_neg (by decide)]
    split
    · rename_i h
      rw [h]
      decide
    · rw [reduce, hn.pushAll_join]

theorem normalForm_idem (path : List Char) : normalForm (normalForm path) = normalForm path := by
  have hred := reduce_normalForm path
  have hrooted := isRooted_normalForm path
  cases hr : isRooted path with
  | true =>
    rw [hr] at hred hrooted
    have hform : normalForm path = '/' :: join (reduce true path) := by
      rw [normalForm, hr, if_pos rfl]
    rw [normalForm, hrooted, if_pos rfl, hred, hform]
  | false =>
    rw [hr] at hred hrooted
    have hform : normalForm path = if reduce false path = [] then ['.'] else join (reduce false path) := by
      rw [normalForm, hr, if_neg Bool.false_ne_true]
    rw [normalForm, hrooted, if_neg Bool.false_ne_true, hred, hform]

end LexPath
