import Mathlib.Data.List.GetD
import Eddy.Lib.LexPath

/-!
# Eddy — `ed_path_clean`

`ed_path_clean` brings a path into its lexical normal form. It reads and writes the same buffer: `p` is
the next character to read, `w` the next place to write, and `up` the place that `..` does not go back
over. For a rooted path `up` is the first place, before the slash. So a `..` that takes away the last
component takes away the slash, too; the next component brings it back, but the end of the path does not.
-/

namespace Eddy.Path

open LexPath List

/-! ## The function -/

def nul : Char := Char.ofNat 0

/-- The buffer and the pointers. The log is not part of the source: it has the places written, each with
the number of characters that were read before. -/
structure CleanSt where
  buf : List Char
  p : Nat
  w : Nat
  up : Nat
  log : List (Nat × Nat)

/-- `*i` -/
def CleanSt.at (s : CleanSt) (i : Nat) : Char := s.buf.getD i nul

/-- `*(w++) = c`, after `read` characters were read. -/
def put (s : CleanSt) (c : Char) (read : Nat) : CleanSt :=
  { s with buf := s.buf.set s.w c, w := s.w + 1, log := s.log ++ [(s.w, read)] }

/-- `for (; p < pe && *p != '/'; p++) { *(w++) = *p; }` -/
def copyElement (len : Nat) : Nat → CleanSt → CleanSt
  | 0, s => s
  | n + 1, s =>
    if s.p < len ∧ s.at s.p ≠ '/' then
      copyElement len n { put s (s.at s.p) (s.p + 1) with p := s.p + 1 }
    else s

/-- `for (; w > up && *w != '/'; w--);` -/
def backLoop (buf : List Char) (up : Nat) : Nat → Nat
  | 0 => 0
  | w + 1 => if w + 1 > up ∧ buf.getD (w + 1) nul ≠ '/' then backLoop buf up w else w + 1

/-- `..` is appended, behind a slash unless it is the first element. -/
def appendDots (s : CleanSt) : CleanSt :=
  let s := if s.w > 0 then put s '/' s.p else s
  put (put s '.' s.p) '.' s.p

/-- The element `..`, behind which `p` is already. -/
def dotDot (rooted : Bool) (s : CleanSt) : CleanSt :=
  if s.w > s.up then { s with w := backLoop s.buf s.up (s.w - 1) }
  else if rooted then s
  else
    let s := appendDots s
    { s with up := s.w }

/-- A real element. -/
def element (rooted : Bool) (len : Nat) (s : CleanSt) : CleanSt :=
  let s := if (rooted ∧ s.w ≠ 1) ∨ (¬ rooted ∧ s.w ≠ 0) then put s '/' s.p else s
  copyElement len len s

/-- One turn of the loop. -/
def step (rooted : Bool) (len : Nat) (s : CleanSt) : CleanSt :=
  if s.at s.p = '/' then { s with p := s.p + 1 }
  else if s.at s.p = '.' ∧ (s.p + 1 = len ∨ s.at (s.p + 1) = '/') then { s with p := s.p + 1 }
  else if s.at s.p = '.' ∧ s.at (s.p + 1) = '.' ∧ (s.p + 2 = len ∨ s.at (s.p + 2) = '/') then
    dotDot rooted { s with p := s.p + 2 }
  else element rooted len s

/-- The loop. Every turn reads a character at least. -/
def cleanLoop (rooted : Bool) (len : Nat) : Nat → CleanSt → CleanSt
  | 0, s => s
  | n + 1, s => if s.p < len then cleanLoop rooted len n (step rooted len s) else s

/-- What is done behind the loop. -/
def finish (len : Nat) (s : CleanSt) : CleanSt :=
  let s := if s.w = 0 then put s '.' s.p else s
  if s.w < len then { s with buf := s.buf.set s.w nul, log := s.log ++ [(s.w, s.p)] } else s

/-- `ed_path_clean` of a string, which has its terminator behind it. -/
def edPathClean (path : List Char) : CleanSt :=
  let rooted := (path ++ [nul]).getD 0 nul == '/'
  finish path.length (cleanLoop rooted path.length path.length
    { buf := path ++ [nul], p := 0, w := if rooted then 1 else 0, up := 0, log := [] })

/-- The string that the caller finds in the buffer. -/
def cleaned (path : List Char) : List Char := (edPathClean path).buf.take (edPathClean path).w

/-! ## The buffer -/

variable {n : Nat} {s : CleanSt} {o r : List Char} {c : Char} {rooted seen : Bool}

/-- The buffer has the output `o` in front, and the characters `r` are still to be read. -/
structure Good (n : Nat) (o r : List Char) (s : CleanSt) : Prop where
  size : s.buf.length = n + 1
  out : s.buf.take s.w = o
  width : s.w = o.length
  rest : s.buf.drop s.p = r ++ [nul]
  pos : s.p + r.length = n
  log : ∀ e ∈ s.log, e.1 < e.2 ∨ n ≤ e.1

theorem Good.at_add (h : Good n o r s) (i : Nat) : s.at (s.p + i) = (r ++ [nul]).getD i nul := by
  rw [CleanSt.at, ← h.rest, getD_eq_getElem?_getD, getD_eq_getElem?_getD, List.getElem?_drop]

theorem Good.at_p (h : Good n o r s) : s.at s.p = (r ++ [nul]).getD 0 nul := h.at_add 0

theorem Good.skip {e : List Char} (h : Good n o (e ++ r) s) {p : Nat} (hp : p = s.p + e.length) :
    Good n o r { s with p := p } := by
  subst hp
  refine ⟨h.size, h.out, h.width, ?_, ?_, h.log⟩
  · show s.buf.drop (s.p + e.length) = r ++ [nul]
    rw [← drop_drop, h.rest, append_assoc, drop_left]
  · have hpos := h.pos
    rw [length_append] at hpos
    show s.p + e.length + r.length = n
    omega

theorem Good.written (h : Good n o r s) (hw : s.w < s.p) (c : Char) :
    Good n (o ++ [c]) r (put s c s.p) := by
  have hsize := h.size
  have hpos := h.pos
  have hlt : s.w < s.buf.length := by omega
  refine ⟨?_, ?_, ?_, ?_, hpos, ?_⟩
  · show (s.buf.set s.w c).length = n + 1
    rw [length_set, hsize]
  · show (s.buf.set s.w c).take (s.w + 1) = o ++ [c]
    rw [take_succ_eq_append_getElem (by rw [length_set]; exact hlt), getElem_set_self,
      take_set_of_le (Nat.le_refl _), h.out]
  · show s.w + 1 = (o ++ [c]).length
    rw [length_append, h.width]
    rfl
  · show (s.buf.set s.w c).drop s.p = r ++ [nul]
    rw [drop_set_of_lt hw, h.rest]
  · intro e he
    rcases mem_append.mp he with he | he
    · exact h.log e he
    · rw [mem_singleton.mp he]
      exact .inl hw

theorem Good.copy (h : Good n o (c :: r) s) (hw : s.w ≤ s.p) :
    Good n (o ++ [c]) r { put s c (s.p + 1) with p := s.p + 1 } := by
  have hskip : Good n o r { s with p := s.p + 1 } := h.skip (e := [c]) rfl
  exact hskip.written (Nat.lt_succ_of_le hw) c

/-- The end of an element. -/
def AtEnd (r : List Char) : Prop := r = [] ∨ ∃ l, r = '/' :: l

theorem Good.copied {e : List Char} {fuel : Nat} (h : Good n o (e ++ r) s) (hw : s.w ≤ s.p)
    (he : '/' ∉ e) (hr : AtEnd r) (hfuel : e.length ≤ fuel) :
    Good n (o ++ e) r (copyElement n fuel s) ∧
      (copyElement n fuel s).up = s.up ∧ (copyElement n fuel s).w ≤
        (copyElement n fuel s).p := by
  induction e generalizing o s fuel with
  | nil =>
    have hstop : copyElement n fuel s = s := by
      cases fuel with
      | zero => rfl
      | succ fuel =>
        rw [copyElement, if_neg]
        rintro ⟨hlt, hne⟩
        rcases hr with rfl | ⟨l, rfl⟩
        · have hpos := h.pos
          simp only [nil_append, length_nil] at hpos
          omega
        · exact hne h.at_p
    rw [hstop, append_nil]
    exact ⟨h, rfl, hw⟩
  | cons c e ih =>
    rw [mem_cons, not_or] at he
    have hpos := h.pos
    have hchar : s.at s.p = c := h.at_p
    match fuel with
    | fuel + 1 =>
      have hgo : s.p < n ∧ s.at s.p ≠ '/' := by
        rw [hchar]
        simp only [cons_append, length_cons] at hpos
        exact ⟨by omega, fun heq => he.1 heq.symm⟩
      rw [copyElement, if_pos hgo, hchar]
      have hnext := ih (h.copy hw) (Nat.succ_le_succ hw) he.2 (Nat.le_of_succ_le_succ hfuel)
      rw [append_assoc] at hnext
      exact hnext

/-! ## The stack of components -/

/-- What the buffer shows of the components. In a rooted path the slash is gone when the last component
was taken away. -/
def shown (rooted seen : Bool) (stack : List Comp) : List Char :=
  if rooted then if stack = [] then if seen then [] else ['/'] else '/' :: join stack
  else join stack

/-- The place where the first component goes. -/
def start (rooted : Bool) : Nat := if rooted then 1 else 0

/-- What holds between two turns: `..` stands `k` times at the front, behind it are the names `reals`, and
`seen` tells whether there was a `..`. -/
structure Inv (n : Nat) (rooted seen : Bool) (k : Nat) (reals : List Comp) (r : List Char)
    (s : CleanSt) : Prop where
  good : Good n (shown rooted seen (List.replicate k up ++ reals)) r s
  limit : s.up = (join (List.replicate k up)).length
  root : rooted = true → k = 0
  real : ∀ c ∈ reals, Real c
  first : s.p = 0 → rooted = true → ∃ l, r = '/' :: l
  room : s.w < s.p ∨ (s.w ≤ s.p ∧ AtEnd r) ∨ s.w = start rooted

theorem Inv.ahead {k : Nat} {reals : List Comp} (h : Inv n rooted seen k reals r s) (hr : ¬ AtEnd r) :
    s.w ≤ s.p ∧ (s.w = start rooted ∨ s.w < s.p) := by
  rcases h.room with hlt | ⟨-, hend⟩ | hstart
  · exact ⟨Nat.le_of_lt hlt, .inr hlt⟩
  · exact absurd hend hr
  · refine ⟨?_, .inl hstart⟩
    rw [hstart, start]
    split
    · rename_i hrooted
      by_contra hp
      exact hr (.inr (h.first (by omega) hrooted))
    · exact Nat.zero_le _

theorem shown_ne {stack : List Comp} (h : stack ≠ []) :
    shown rooted seen stack = (if rooted then ['/'] else []) ++ join stack := by
  cases rooted <;> simp [shown, h]

theorem shown_concat {stack : List Comp} (hstack : ∀ c ∈ stack, c ≠ []) (c : Comp) :
    shown rooted seen (stack ++ [c]) =
      shown rooted seen stack ++
        (if (shown rooted seen stack).length = start rooted then [] else ['/']) ++ c := by
  have hne : stack ++ [c] ≠ [] := by simp
  rw [shown_ne hne]
  by_cases hs : stack = []
  · subst hs
    rw [nil_append, join_singleton]
    cases rooted <;> cases seen <;> simp [shown, start, join_nil]
  · have hpos : (join stack).length ≠ 0 := fun h =>
      join_ne_nil hs hstack (length_eq_zero_iff.mp h)
    rw [shown_ne hs, join_concat hs]
    cases rooted <;> simp [start, hpos]

/-! ## One turn -/

variable {k : Nat} {reals : List Comp}

theorem replicate_append_ne_nil (hreal : ∀ c ∈ reals, Real c) :
    ∀ c ∈ List.replicate k up ++ reals, c ≠ [] := by
  intro c hc
  rcases mem_append.mp hc with hc | hc
  · rw [eq_of_mem_replicate hc]
    decide
  · exact (hreal c hc).ne_nil

theorem Inv.slash (h : Inv n rooted seen k reals ('/' :: r) s) :
    Inv n rooted seen k reals r { s with p := s.p + 1 } := by
  refine ⟨h.good.skip (e := ['/']) rfl, h.limit, h.root, h.real,
    fun hp => absurd hp (Nat.succ_ne_zero _), ?_⟩
  rcases h.room with hlt | ⟨hle, -⟩ | hstart
  · exact .inl (Nat.lt_succ_of_lt hlt)
  · exact .inl (Nat.lt_succ_of_le hle)
  · exact .inr (.inr hstart)

theorem not_atEnd {c : Char} (hc : c ≠ '/') : ¬ AtEnd (c :: r) := by
  rintro (h | ⟨l, h⟩)
  · cases h
  · exact hc (List.cons.inj h).1

theorem Inv.dot (h : Inv n rooted seen k reals ('.' :: r) s) (hr : AtEnd r) :
    Inv n rooted seen k reals r { s with p := s.p + 1 } := by
  refine ⟨h.good.skip (e := ['.']) rfl, h.limit, h.root, h.real, fun hp => absurd hp (Nat.succ_ne_zero _),
    .inr (.inl ⟨?_, hr⟩)⟩
  exact Nat.le_succ_of_le (h.ahead (not_atEnd (by decide))).1

theorem slash_needed (rooted : Bool) (w : Nat) :
    ((rooted ∧ w ≠ 1) ∨ (¬ rooted ∧ w ≠ 0)) ↔ w ≠ start rooted := by
  cases rooted <;> simp [start]

theorem Inv.place {e : List Char} (h : Inv n rooted seen k reals (e ++ r) s)
    (hahead : s.w ≤ s.p ∧ (s.w = start rooted ∨ s.w < s.p)) :
    let s' := if s.w ≠ start rooted then put s '/' s.p else s
    Good n (shown rooted seen (List.replicate k up ++ reals) ++
      (if (shown rooted seen (List.replicate k up ++ reals)).length = start rooted then [] else ['/']))
      (e ++ r) s' ∧ s'.w ≤ s'.p ∧ s'.p = s.p ∧ s'.up = s.up := by
  intro s'
  have hwidth := h.good.width
  by_cases hw : s.w = start rooted
  · have hs' : s' = s := if_neg (not_not.mpr hw)
    rw [if_pos (hwidth ▸ hw), append_nil, hs']
    exact ⟨h.good, hahead.1, rfl, rfl⟩
  · have hs' : s' = put s '/' s.p := if_pos hw
    have hlt := hahead.2.resolve_left hw
    rw [if_neg (hwidth ▸ hw), hs']
    exact ⟨h.good.written hlt '/', hlt, rfl, rfl⟩

theorem Inv.named {e : List Char} (h : Inv n rooted seen k reals (e ++ r) s) (he : Real e)
    (hr : AtEnd r) : Inv n rooted seen k (reals ++ [e]) r (element rooted n s) := by
  have hne := replicate_append_ne_nil (k := k) h.real
  have hend : ¬ AtEnd (e ++ r) := by
    obtain ⟨c, e', rfl⟩ := exists_cons_of_ne_nil he.ne_nil
    exact not_atEnd fun hc => he.slash (hc ▸ mem_cons_self)
  obtain ⟨hgood, hle, hp, hup⟩ := h.place (h.ahead hend)
  have helem : element rooted n s =
      copyElement n n (if s.w ≠ start rooted then put s '/' s.p else s) := by
    rw [element]
    simp only [slash_needed]
  have hlen : e.length ≤ n := by
    have := h.good.pos
    rw [length_append] at this
    omega
  obtain ⟨hcopy, hcup, hcw⟩ := hgood.copied hle he.slash hr hlen
  rw [← helem] at hcopy hcup hcw
  rw [← shown_concat hne, append_assoc] at hcopy
  refine ⟨hcopy, hcup.trans (hup.trans h.limit), h.root, ?_, ?_, .inr (.inl ⟨hcw, hr⟩)⟩
  · intro c hc
    rcases mem_append.mp hc with hc | hc
    · exact h.real c hc
    · exact mem_singleton.mp hc ▸ he
  · intro hzero
    have hpos := hcopy.pos
    have hpos' := h.good.pos
    have := length_pos_iff.mpr he.ne_nil
    rw [length_append] at hpos'
    omega

/-! ## Going back -/

theorem backLoop_eq {buf : List Char} {up t w : Nat} (hup : up ≤ t) (htw : t ≤ w)
    (hname : ∀ j, t < j → j ≤ w → buf.getD j nul ≠ '/') (ht : t = up ∨ buf.getD t nul = '/') :
    backLoop buf up w = t := by
  induction w with
  | zero =>
    rw [backLoop]
    omega
  | succ w ih =>
    rw [backLoop]
    rcases Nat.eq_or_lt_of_le htw with rfl | hlt
    · rw [if_neg]
      rintro ⟨h1, h2⟩
      rcases ht with ht | ht
      · omega
      · exact h2 ht
    · rw [if_pos ⟨by omega, hname (w + 1) hlt (Nat.le_refl _)⟩]
      exact ih (by omega) fun j h1 h2 => hname j h1 (by omega)

theorem join_length_le (a b : List Comp) : (join a).length ≤ (join (a ++ b)).length := by
  induction b using List.reverseRecOn with
  | nil => exact Nat.le_of_eq (by rw [append_nil])
  | append_singleton b c ih =>
    rw [← append_assoc]
    by_cases hne : a ++ b = []
    · rw [(append_eq_nil_iff.mp hne).1, join_nil]
      exact Nat.zero_le _
    · rw [join_concat hne, length_append]
      omega

theorem shown_split (rooted seen : Bool) (stack : List Comp) (e : Comp) :
    ∃ sep, shown rooted seen (stack ++ [e]) = shown rooted true stack ++ sep ++ e ∧
      (sep = ['/'] ∨ sep = [] ∧ shown rooted true stack = []) := by
  by_cases hs : stack = []
  · subst hs
    rw [nil_append, shown_ne (cons_ne_nil _ _), join_singleton]
    cases rooted
    · exact ⟨[], by simp [shown, join_nil], .inr ⟨rfl, by simp [shown, join_nil]⟩⟩
    · exact ⟨['/'], by simp [shown], .inl rfl⟩
  · refine ⟨['/'], ?_, .inl rfl⟩
    rw [shown_ne (by simp), shown_ne hs, join_concat hs]
    simp only [append_assoc, singleton_append]

/-- `..` goes back over the last name. -/
theorem Inv.dotDot_back {e : Comp} (h : Inv n rooted seen k (reals ++ [e]) (['.', '.'] ++ r) s)
    (hr : AtEnd r) : Inv n rooted true k reals r (dotDot rooted { s with p := s.p + 2 }) := by
  have he : Real e := h.real e (by simp)
  have hlen := length_pos_iff.mpr he.ne_nil
  have hgood : Good n _ r { s with p := s.p + 2 } := h.good.skip (e := ['.', '.']) rfl
  obtain ⟨sep, hshown, hsep⟩ := shown_split rooted seen (List.replicate k LexPath.up ++ reals) e
  rw [← append_assoc, hshown] at hgood
  obtain ⟨o, ho⟩ : ∃ o, o = shown rooted true (List.replicate k LexPath.up ++ reals) := ⟨_, rfl⟩
  rw [← ho] at hgood hsep
  have hw : s.w = (o ++ sep ++ e).length := hgood.width
  have hout : s.buf.take s.w = o ++ sep ++ e := hgood.out
  have hsize : s.buf.length = n + 1 := hgood.size
  -- the names at the front are not gone over
  have hup : s.up ≤ o.length := by
    rw [h.limit, ho]
    cases hrooted : rooted with
    | true =>
      rw [h.root hrooted]
      exact Nat.zero_le _
    | false => exact join_length_le _ _
  have hread : ∀ j < s.w, s.buf.getD j nul = (o ++ sep ++ e).getD j nul := by
    intro j hj
    rw [← hout, getD_eq_getElem?_getD, getD_eq_getElem?_getD, List.getElem?_take_of_lt hj]
  have hlt : o.length < s.w := by
    rw [hw, length_append, length_append]
    omega
  have hname : ∀ j, o.length < j → j ≤ s.w - 1 → s.buf.getD j nul ≠ '/' := by
    intro j h1 h2 hslash
    have hsepj : (o ++ sep).length ≤ j := by
      rcases hsep with rfl | ⟨rfl, rfl⟩
      · rw [length_append]
        exact h1
      · exact Nat.zero_le _
    have hj : j - (o ++ sep).length < e.length := by
      rw [length_append] at hw
      omega
    rw [hread j (by omega), getD_append_right _ _ _ _ hsepj, getD_eq_getElem _ _ hj] at hslash
    exact he.slash (hslash ▸ getElem_mem hj)
  have hstop : o.length = s.up ∨ s.buf.getD o.length nul = '/' := by
    rcases hsep with rfl | ⟨-, rfl⟩
    · right
      rw [hread _ hlt, append_assoc, getD_append_right _ _ _ _ (Nat.le_refl _), Nat.sub_self]
      rfl
    · exact .inl (Nat.le_zero.mp hup).symm
  have hback : backLoop s.buf s.up (s.w - 1) = o.length :=
    backLoop_eq hup (by omega) hname hstop
  have hdd : dotDot rooted { s with p := s.p + 2 } = { s with p := s.p + 2, w := o.length } := by
    rw [dotDot, if_pos (Nat.lt_of_le_of_lt hup hlt), hback]
  have htake : s.buf.take o.length = o := by
    have := congrArg (List.take o.length) hout
    rwa [take_take, Nat.min_eq_left (Nat.le_of_lt hlt), append_assoc, take_left] at this
  rw [hdd]
  refine ⟨?_, h.limit, h.root, fun c hc => h.real c (mem_append_left _ hc),
    fun hp => absurd hp (Nat.succ_ne_zero _), .inr (.inl ⟨?_, hr⟩)⟩
  · rw [← ho]
    exact ⟨hsize, htake, rfl, hgood.rest, hgood.pos, hgood.log⟩
  · have := (h.ahead (not_atEnd (by decide))).1
    show o.length ≤ s.p + 2
    omega

theorem Good.dots (h : Good n o r s) (hw : s.w + 2 ≤ s.p) (hroom : s.w = 0 ∨ s.w + 3 ≤ s.p) :
    Good n (o ++ (if o.length = 0 then [] else ['/']) ++ LexPath.up) r (appendDots s) ∧
      (appendDots s).p = s.p ∧ (appendDots s).w ≤ s.p := by
  have hwidth := h.width
  by_cases hz : s.w = 0
  · have hs : appendDots s = put (put s '.' s.p) '.' s.p := by
      rw [appendDots, if_neg (by omega)]
    rw [if_pos (hwidth ▸ hz), append_nil, hs]
    have h1 := h.written (by omega) '.'
    have h2 := h1.written (show s.w + 1 < s.p by omega) '.'
    rw [append_assoc] at h2
    exact ⟨h2, rfl, hw⟩
  · have hs : appendDots s = put (put (put s '/' s.p) '.' s.p) '.' s.p := by
      rw [appendDots, if_pos (by omega)]
      rfl
    rw [if_neg (hwidth ▸ hz), hs]
    have h1 := h.written (by omega) '/'
    have h2 := h1.written (show s.w + 1 < s.p by omega) '.'
    have h3 := h2.written (show s.w + 2 < s.p by omega) '.'
    rw [append_assoc (o ++ ['/'])] at h3
    exact ⟨h3, rfl, hroom.resolve_left hz⟩

/-- `..` with no name before it. -/
theorem Inv.dotDot_front (h : Inv n rooted seen k [] (['.', '.'] ++ r) s) (hr : AtEnd r) :
    Inv n rooted true (if rooted then k else k + 1) [] r (dotDot rooted { s with p := s.p + 2 }) := by
  have hahead := h.ahead (not_atEnd (show '.' ≠ '/' by decide))
  have hgood : Good n _ r { s with p := s.p + 2 } := h.good.skip (e := ['.', '.']) rfl
  have hwidth := h.good.width
  cases rooted with
  | true =>
    -- the slash of the root is taken away, if it was not before
    have hk := h.root rfl
    subst hk
    have hup : s.up = 0 := h.limit
    have hdd : dotDot true { s with p := s.p + 2 } = { s with p := s.p + 2, w := 0 } := by
      cases seen with
      | true =>
        have hw : s.w = 0 := hwidth
        rw [dotDot, hw, hup, if_neg (by decide), if_pos rfl]
      | false =>
        have hw : s.w = 1 := hwidth
        rw [dotDot, hw, hup, if_pos (by decide)]
        rfl
    rw [hdd]
    exact ⟨⟨hgood.size, take_zero, rfl, hgood.rest, hgood.pos, hgood.log⟩, hup, fun _ => rfl, h.real,
      fun hp => absurd hp (Nat.succ_ne_zero _), .inr (.inl ⟨Nat.zero_le _, hr⟩)⟩
  | false =>
    rw [append_nil] at hgood hwidth
    have hne : ∀ c ∈ List.replicate k LexPath.up, c ≠ [] := by
      have := replicate_append_ne_nil (k := k) h.real
      rwa [append_nil] at this
    obtain ⟨o, ho⟩ : ∃ o, o = shown false seen (List.replicate k LexPath.up) := ⟨_, rfl⟩
    have hconcat : shown false true (List.replicate (k + 1) LexPath.up) =
        o ++ (if o.length = 0 then [] else ['/']) ++ LexPath.up := by
      rw [replicate_succ', shown_concat hne]
      rw [ho]
      rfl
    rw [← ho] at hgood hwidth
    have hup : s.up = s.w := by
      rw [h.limit, hwidth, ho]
      rfl
    have hzero : start false = 0 := rfl
    rw [hzero] at hahead
    have hroom : s.w = 0 ∨ s.w + 3 ≤ s.p + 2 := by omega
    obtain ⟨hdots, hp, hw⟩ := hgood.dots (show s.w + 2 ≤ s.p + 2 by omega) hroom
    have hdd : dotDot false { s with p := s.p + 2 } =
        { appendDots { s with p := s.p + 2 } with up := (appendDots { s with p := s.p + 2 }).w } := by
      rw [dotDot, if_neg (by rw [hup]; exact Nat.lt_irrefl _), if_neg Bool.false_ne_true]
    rw [← hconcat] at hdots
    rw [hdd, if_neg Bool.false_ne_true]
    refine ⟨?_, hdots.width, fun h => absurd h Bool.false_ne_true, h.real, ?_, .inr (.inl ⟨?_, hr⟩)⟩
    · rw [append_nil]
      exact ⟨hdots.size, hdots.out, hdots.width, hdots.rest, hdots.pos, hdots.log⟩
    · intro hzero
      rw [hp] at hzero
      exact absurd hzero (Nat.succ_ne_zero _)
    · rw [hp]
      exact hw

/-! ## The loop -/

theorem exists_element (hr : ¬ AtEnd r) :
    ∃ e l, r = e ++ l ∧ e ≠ [] ∧ '/' ∉ e ∧ AtEnd l := by
  induction r with
  | nil => exact absurd (.inl rfl) hr
  | cons c r ih =>
    have hc : '/' ≠ c := fun h => hr (.inr ⟨r, h ▸ rfl⟩)
    by_cases hend : AtEnd r
    · exact ⟨[c], r, rfl, cons_ne_nil _ _, by simpa using hc, hend⟩
    · obtain ⟨e, l, rfl, -, hslash, hl⟩ := ih hend
      refine ⟨c :: e, l, rfl, cons_ne_nil _ _, ?_, hl⟩
      rw [mem_cons, not_or]
      exact ⟨hc, hslash⟩

theorem Good.behind {e : Comp} (h : Good n o (e ++ r) s) (hr : AtEnd r) :
    s.p + e.length = n ∨ s.at (s.p + e.length) = '/' := by
  rcases hr with rfl | ⟨l, rfl⟩
  · have := h.pos
    rw [append_nil] at this
    exact .inl this
  · right
    rw [h.at_add, append_assoc, getD_append_right _ _ _ _ (Nat.le_refl _), Nat.sub_self]
    rfl

theorem Good.inner {e : Comp} (h : Good n o (e ++ r) s) (he : '/' ∉ e) {i : Nat} (hi : i < e.length) :
    ¬ (s.p + i = n ∨ s.at (s.p + i) = '/') ∧ s.at (s.p + i) = e[i] := by
  have hat : s.at (s.p + i) = e[i] := by
    rw [h.at_add, append_assoc, getD_append _ _ _ _ hi, getD_eq_getElem _ _ hi]
  refine ⟨?_, hat⟩
  rintro (hn | hs)
  · have := h.pos
    rw [length_append] at this
    omega
  · exact he (hs ▸ hat ▸ getElem_mem hi)

/-- The tests of the loop tell the elements apart. -/
theorem step_eq {e : Comp} (h : Good n o (e ++ r) s) (hne : e ≠ []) (he : '/' ∉ e) (hr : AtEnd r) :
    step rooted n s =
      if e = ['.'] then { s with p := s.p + 1 }
      else if e = LexPath.up then dotDot rooted { s with p := s.p + 2 }
      else element rooted n s := by
  have hbehind := h.behind hr
  have hinner : ∀ i (hi : i < e.length), _ := fun i hi => h.inner he hi
  match e with
  | [] => exact absurd rfl hne
  | [c] =>
    obtain ⟨h0, hc⟩ := hinner 0 (by simp)
    have h0' : ¬ s.at s.p = '/' := fun hs => h0 (.inr hs)
    have hc' : s.at s.p = c := hc
    rw [step, if_neg h0']
    by_cases hdot : c = '.'
    · subst hdot
      rw [if_pos ⟨hc', hbehind⟩, if_pos rfl]
    · have hne' : ¬ s.at s.p = '.' := fun h => hdot (hc'.symm.trans h)
      rw [if_neg (fun h => hne' h.1), if_neg (fun h => hne' h.1), if_neg (by simpa using hdot),
        if_neg (by simp [LexPath.up])]
  | [c, d] =>
    obtain ⟨h0, hc⟩ := hinner 0 (by simp)
    obtain ⟨h1, hd⟩ := hinner 1 (by simp)
    have h0' : ¬ s.at s.p = '/' := fun hs => h0 (.inr hs)
    have hc' : s.at s.p = c := hc
    have hd' : s.at (s.p + 1) = d := hd
    have hnd : ¬ [c, d] = ['.'] := fun h => by cases h
    rw [step, if_neg h0', if_neg (fun h => h1 h.2), if_neg hnd]
    by_cases hup : c = '.' ∧ d = '.'
    · obtain ⟨rfl, rfl⟩ := hup
      have hu : ['.', '.'] = LexPath.up := rfl
      rw [if_pos ⟨hc', hd', hbehind⟩, if_pos hu]
    · have hnu : ¬ [c, d] = LexPath.up := by
        intro heq
        simp only [LexPath.up, List.cons.injEq, and_true] at heq
        exact hup heq
      rw [if_neg hnu, if_neg]
      rintro ⟨h1, h2, -⟩
      exact hup ⟨hc'.symm.trans h1, hd'.symm.trans h2⟩
  | c :: d :: f :: e =>
    obtain ⟨h0, -⟩ := hinner 0 (by simp)
    obtain ⟨h1, -⟩ := hinner 1 (by simp)
    obtain ⟨h2, -⟩ := hinner 2 (by simp)
    have h0' : ¬ s.at s.p = '/' := fun hs => h0 (.inr hs)
    have hnd : ¬ c :: d :: f :: e = ['.'] := fun h => by cases h
    have hnu : ¬ c :: d :: f :: e = LexPath.up := fun h => by cases h
    rw [step, if_neg h0', if_neg (fun h => h1 h.2), if_neg (fun h => h2 h.2.2), if_neg hnd, if_neg hnu]

theorem Inv.step {e : Comp} (h : Inv n rooted seen k reals (e ++ r) s) (hne : e ≠ []) (he : '/' ∉ e)
    (hr : AtEnd r) : ∃ k' reals',
      Inv n rooted (seen || decide (e = LexPath.up)) k' reals' r (Path.step rooted n s) ∧
      List.replicate k' LexPath.up ++ reals' =
        push rooted (List.replicate k LexPath.up ++ reals) e := by
  rw [step_eq h.good hne he hr]
  by_cases hdot : e = ['.']
  · subst hdot
    rw [if_pos rfl, push_skip (.inr rfl)]
    refine ⟨k, reals, ?_, rfl⟩
    have hseen : (seen || decide (['.'] = LexPath.up)) = seen := by cases seen <;> rfl
    rw [hseen]
    exact h.dot hr
  rw [if_neg hdot]
  by_cases hup : e = LexPath.up
  · subst hup
    have hseen : (seen || decide (LexPath.up = LexPath.up)) = true := by cases seen <;> rfl
    rw [if_pos rfl, hseen]
    rcases eq_nil_or_concat reals with rfl | ⟨init, last, rfl⟩
    · refine ⟨_, [], h.dotDot_front hr, ?_⟩
      rw [append_nil, append_nil, push_up_front]
      split <;> rfl
    · rw [concat_eq_append] at h ⊢
      refine ⟨k, init, h.dotDot_back hr, ?_⟩
      rw [← append_assoc, push_up_real (h.real last (by simp))]
  · have hreal : Real e := ⟨hne, he, hdot, hup⟩
    have hseen : (seen || decide (e = LexPath.up)) = seen := by
      rw [decide_eq_false hup, Bool.or_false]
    rw [if_neg hup, hseen, push_real hreal, append_assoc]
    exact ⟨k, reals ++ [e], h.named hreal hr, rfl⟩

theorem Inv.run {fuel : Nat} (h : Inv n rooted seen k reals r s) (hfuel : r.length ≤ fuel) :
    ∃ k' reals', Inv n rooted (seen || decide (HasUp r)) k' reals' [] (cleanLoop rooted n fuel s) ∧
      List.replicate k' LexPath.up ++ reals' =
        pushAll rooted (List.replicate k LexPath.up ++ reals) r := by
  induction fuel generalizing seen k reals r s with
  | zero =>
    obtain rfl := length_eq_zero_iff.mp (Nat.le_zero.mp hfuel)
    have hseen : (seen || decide (HasUp [])) = seen := by cases seen <;> decide
    rw [hseen, pushAll_nil]
    exact ⟨k, reals, h, rfl⟩
  | succ fuel ih =>
    have hpos := h.good.pos
    rw [cleanLoop]
    by_cases hend : AtEnd r
    · rcases hend with rfl | ⟨l, rfl⟩
      · have hseen : (seen || decide (HasUp [])) = seen := by cases seen <;> decide
        rw [if_neg (by rw [length_nil] at hpos; omega), hseen, pushAll_nil]
        exact ⟨k, reals, h, rfl⟩
      · have hat : s.at s.p = '/' := h.good.at_p
        rw [if_pos (by rw [length_cons] at hpos; omega), Path.step, if_pos hat, pushAll_slash]
        have hup : decide (HasUp ('/' :: l)) = decide (HasUp l) := by rw [decide_eq_decide, hasUp_slash]
        rw [hup]
        exact ih h.slash (Nat.le_of_succ_le_succ hfuel)
    · obtain ⟨e, l, rfl, hne, he, hl⟩ := exists_element hend
      have hlen := length_pos_iff.mpr hne
      rw [length_append] at hpos hfuel
      rw [if_pos (by omega), pushAll_comp he hl]
      obtain ⟨k', reals', hinv, hpush⟩ := h.step hne he hl
      have hup : (seen || decide (HasUp (e ++ l))) =
          ((seen || decide (e = LexPath.up)) || decide (HasUp l)) := by
        rw [Bool.or_assoc, ← Bool.decide_or]
        congr 1
        rw [decide_eq_decide, hasUp_comp he hl]
      rw [hup, ← hpush]
      exact ih hinv (by omega)

/-! ## The result -/

theorem inv_start (path : List Char) :
    Inv path.length (isRooted path) false 0 [] path
      { buf := path ++ [nul], p := 0, w := start (isRooted path), up := 0, log := [] } := by
  have hsize : (path ++ [nul]).length = path.length + 1 := by rw [length_append]; rfl
  have hlog : ∀ e ∈ ([] : List (Nat × Nat)), e.1 < e.2 ∨ path.length ≤ e.1 := fun _ he =>
    absurd he not_mem_nil
  have hfirst : isRooted path = true → ∃ l, path = '/' :: l := by
    intro h
    match path with
    | c :: l => exact ⟨l, by simpa [isRooted] using h⟩
  refine ⟨⟨hsize, ?_, ?_, rfl, Nat.zero_add _, hlog⟩, rfl, fun _ => rfl, fun _ h => absurd h not_mem_nil,
    fun _ => hfirst, .inr (.inr rfl)⟩
  · cases hr : isRooted path with
    | true =>
      obtain ⟨l, rfl⟩ := hfirst hr
      rfl
    | false => rfl
  · cases isRooted path <;> rfl

theorem rooted_eq (path : List Char) : ((path ++ [nul]).getD 0 nul == '/') = isRooted path := by
  cases path with
  | nil => decide
  | cons c l => rfl

theorem Good.finished (h : Good n o [] s) :
    (finish n s).buf.take (finish n s).w = (if o = [] then ['.'] else o) ∧
      ∀ e ∈ (finish n s).log, e.1 < e.2 ∨ n ≤ e.1 := by
  have hsize := h.size
  have hp : s.p = n := by
    have := h.pos
    rwa [length_nil, Nat.add_zero] at this
  -- the point for an empty path
  obtain ⟨s', hs', hout, hwidth, hlog⟩ : ∃ s', s' = (if s.w = 0 then put s '.' s.p else s) ∧
      s'.buf.take s'.w = (if o = [] then ['.'] else o) ∧ s'.p = n ∧
      ∀ e ∈ s'.log, e.1 < e.2 ∨ n ≤ e.1 := by
    refine ⟨_, rfl, ?_⟩
    by_cases ho : o = []
    · have hw : s.w = 0 := by rw [h.width, ho]; rfl
      rw [if_pos hw, if_pos ho]
      refine ⟨?_, hp, fun e he => ?_⟩
      · show (s.buf.set s.w '.').take (s.w + 1) = ['.']
        rw [hw]
        match hb : s.buf with
        | [] =>
          rw [hb] at hsize
          cases hsize
        | c :: l => rfl
      · rcases mem_append.mp he with he | he
        · exact h.log e he
        · rw [mem_singleton.mp he, hw, hp]
          exact Nat.lt_or_ge 0 n
    · have hw : ¬ s.w = 0 := by
        rw [h.width]
        exact fun h0 => ho (length_eq_zero_iff.mp h0)
      rw [if_neg hw, if_neg ho]
      exact ⟨h.out, hp, h.log⟩
  -- the terminator
  have hfin : finish n s = if s'.w < n then
      { s' with buf := s'.buf.set s'.w nul, log := s'.log ++ [(s'.w, s'.p)] } else s' := by
    rw [finish, hs']
  rw [hfin]
  split
  · rename_i hlt
    refine ⟨?_, fun e he => ?_⟩
    · show (s'.buf.set s'.w nul).take s'.w = _
      rw [take_set_of_le (Nat.le_refl _), hout]
    · rcases mem_append.mp he with he | he
      · exact hlog e he
      · rw [mem_singleton.mp he, hwidth]
        exact .inl hlt
  · exact ⟨hout, hlog⟩

/-- A rooted path of which a `..` has left nothing. -/
def RootLost (path : List Char) : Prop := isRooted path = true ∧ HasUp path ∧ reduce true path = []

instance (path : List Char) : Decidable (RootLost path) := inferInstanceAs (Decidable (_ ∧ _ ∧ _))

theorem shown_result (path : List Char) :
    (if shown (isRooted path) (decide (HasUp path)) (reduce (isRooted path) path) = [] then ['.']
      else shown (isRooted path) (decide (HasUp path)) (reduce (isRooted path) path)) =
    if RootLost path then ['.'] else normalForm path := by
  cases hr : isRooted path with
  | true =>
    rw [normalForm, hr, if_pos rfl]
    by_cases hnil : reduce true path = []
    · by_cases hup : HasUp path <;> simp [shown, RootLost, hr, hnil, hup, join_nil]
    · simp [shown, RootLost, hnil]
  | false =>
    have hkeep : ¬ RootLost path := fun h => Bool.false_ne_true (hr.symm.trans h.1)
    rw [if_neg hkeep, normalForm, hr, if_neg Bool.false_ne_true]
    have hshown : shown false (decide (HasUp path)) (reduce false path) = join (reduce false path) := rfl
    rw [hshown]
    by_cases hnil : reduce false path = []
    · rw [hnil, if_pos rfl, join_nil, if_pos rfl]
    · have hne := join_ne_nil hnil fun c hc => ((reduce_normal false path).slash hc).2
      rw [if_neg hne, if_neg hnil]

theorem cleaned_eq (path : List Char) :
    cleaned path = (if RootLost path then ['.'] else normalForm path) ∧
      ∀ e ∈ (edPathClean path).log, e.1 < e.2 ∨ path.length ≤ e.1 := by
  obtain ⟨k, reals, hinv, hstack⟩ := (inv_start path).run (Nat.le_refl _)
  obtain ⟨hout, hlog⟩ := hinv.good.finished
  have hclean : edPathClean path = finish path.length (cleanLoop (isRooted path) path.length path.length
      { buf := path ++ [nul], p := 0, w := start (isRooted path), up := 0, log := [] }) := by
    rw [edPathClean, rooted_eq]
    rfl
  have hred : pushAll (isRooted path) (List.replicate 0 LexPath.up ++ []) path =
    reduce (isRooted path) path := rfl
  rw [cleaned, hclean, hout, hstack, hred, Bool.false_or]
  exact ⟨shown_result path, hlog⟩

/-! ## The normal form -/

theorem not_rootLost_normalForm (path : List Char) : ¬ RootLost (normalForm path) := by
  rintro ⟨hrooted, hup, hnil⟩
  rw [isRooted_normalForm] at hrooted
  have hred := reduce_normalForm path
  rw [hrooted, hnil] at hred
  rw [normalForm, hrooted, if_pos rfl, ← hred] at hup
  exact absurd hup (by decide)

theorem rootLost_iff (path : List Char) :
    RootLost path ↔ isRooted path = true ∧ HasUp path ∧ normalForm path = ['/'] := by
  unfold RootLost
  refine and_congr_right fun hrooted => and_congr_right fun _ => ?_
  rw [normalForm, hrooted, if_pos rfl, List.cons.injEq]
  constructor
  · intro h
    rw [h]
    exact ⟨rfl, rfl⟩
  · rintro ⟨-, h⟩
    by_contra hne
    exact join_ne_nil hne (fun c hc => ((reduce_normal true path).slash hc).2) h

/-- For every path: the result is the normal form, what was not read is not written over, cleaning the
result changes nothing, and a rooted path stays rooted, exactly when the path is not a rooted one of
which a `..` leaves nothing. -/
theorem cleaned_iff (path : List Char) :
    (cleaned path = normalForm path ∧
      (∀ e ∈ (edPathClean path).log, e.1 < e.2 ∨ path.length ≤ e.1) ∧
      cleaned (cleaned path) = cleaned path ∧
      (isRooted path = true → isRooted (cleaned path) = true)) ↔
    ¬ (isRooted path = true ∧ HasUp path ∧ normalForm path = ['/']) := by
  obtain ⟨hres, hlog⟩ := cleaned_eq path
  constructor
  · rintro ⟨heq, -⟩ hlost
    rw [if_pos ((rootLost_iff path).mpr hlost)] at hres
    rw [hres, hlost.2.2] at heq
    exact absurd heq (by decide)
  · intro hkeep
    rw [← rootLost_iff] at hkeep
    rw [if_neg hkeep] at hres
    have hidem : cleaned (normalForm path) = normalForm path := by
      rw [(cleaned_eq (normalForm path)).1, if_neg (not_rootLost_normalForm path), normalForm_idem]
    refine ⟨hres, hlog, ?_, fun hrooted => ?_⟩
    · rw [hres, hidem]
    · rw [hres, isRooted_normalForm, hrooted]

/-- The root and a component that is taken away. -/
theorem cleaned_root_lost :
    cleaned ['/', 'a', '/', '.', '.'] = ['.'] ∧ normalForm ['/', 'a', '/', '.', '.'] = ['/'] ∧
      cleaned ['/', '.', '.'] = ['.'] ∧ normalForm ['/', '.', '.'] = ['/'] := by
  decide +kernel

end Eddy.Path
