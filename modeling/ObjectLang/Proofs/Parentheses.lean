import ObjectLang.Form.Reader

/-!
Parentheses in texts. Those in strings and comments do not count; each of the others may have a
partner, with balanced text between the two. Text is walked through with the number of lists that
are open: balanced text ends at the height it started from and never goes below, so a parenthesis
that leads out of it has no partner there.
-/

namespace ObjectLang

/-- An element of a list in two parts stands in the first or in the second. -/
theorem split_cases {α : Type} {as bs before after : List α} {x : α}
    (h : as ++ bs = before ++ x :: after) :
    (∃ l, as = before ++ x :: l ∧ after = l ++ bs) ∨
      ∃ l, before = as ++ l ∧ bs = l ++ x :: after := by
  obtain ⟨l, rfl, rfl⟩ | ⟨l, rfl, hl⟩ := List.append_eq_append_iff.mp h
  · exact .inr ⟨l, rfl, rfl⟩
  · cases l with
    | nil => exact .inr ⟨[], by simp, hl.symm⟩
    | cons y l =>
      obtain ⟨rfl, rfl⟩ := List.cons.inj hl
      exact .inl ⟨l, rfl, rfl⟩

namespace Text

def lineAfter (before : List Char) : Nat := 1 + before.count '\n'

/-- Text in which no parenthesis counts: another character, a whole string or a whole comment. -/
inductive Piece : List Char → Prop
  | other {c : Char} (hquote : c ≠ '"') (hhash : c ≠ '#') (hopen : c ≠ '(') (hclose : c ≠ ')') :
      Piece [c]
  | string {inner : List Char} (h : '"' ∉ inner) : Piece ('"' :: (inner ++ ['"']))
  | comment {body : List Char} (h : '\n' ∉ body) : Piece ('#' :: (body ++ ['\n']))

inductive Clear : List Char → Prop
  | nil : Clear []
  | piece {cs p : List Char} (h : Clear cs) (hp : Piece p) : Clear (cs ++ p)
  | parenthesis {cs : List Char} {c : Char} (h : Clear cs) (hc : c = '(' ∨ c = ')') :
      Clear (cs ++ [c])

inductive Balanced : List Char → Prop
  | nil : Balanced []
  | piece {cs p : List Char} (h : Balanced cs) (hp : Piece p) : Balanced (cs ++ p)
  | list {cs inner : List Char} (h : Balanced cs) (hi : Balanced inner) :
      Balanced (cs ++ '(' :: (inner ++ [')']))

variable {cs ds p q before rest inner tail : List Char} {c : Char} {h k : Int}

/- Walking through a text. -/

inductive Region where
  | plain | string | comment

structure Place where
  region : Region
  height : Int

namespace Place

def step (s : Place) (c : Char) : Place :=
  match s.region with
  | .plain =>
    if c = '"' then { s with region := .string }
    else if c = '#' then { s with region := .comment }
    else if c = '(' then { s with height := s.height + 1 }
    else if c = ')' then { s with height := s.height - 1 }
    else s
  | .string => if c = '"' then { s with region := .plain } else s
  | .comment => if c = '\n' then { s with region := .plain } else s

end Place

/-- Where a walk from this height leads that starts outside of strings and comments. -/
def walk (h : Int) (cs : List Char) : Place := cs.foldl Place.step ⟨.plain, h⟩

@[simp] theorem walk_nil (h : Int) : walk h [] = ⟨.plain, h⟩ := rfl

@[simp] theorem walk_open (h : Int) (cs : List Char) : walk h ('(' :: cs) = walk (h + 1) cs := rfl

@[simp] theorem walk_close (h : Int) (cs : List Char) : walk h (')' :: cs) = walk (h - 1) cs := rfl

theorem walk_append (hcs : walk h cs = ⟨.plain, k⟩) (ds : List Char) :
    walk h (cs ++ ds) = walk k ds := by
  rw [walk] at hcs
  rw [walk, List.foldl_append, hcs, walk]

/-- The regions do not depend on the height. -/
theorem region_walk (h k : Int) (cs : List Char) : (walk h cs).region = (walk k cs).region := by
  suffices ∀ s t : Place, s.region = t.region →
      (cs.foldl Place.step s).region = (cs.foldl Place.step t).region from this _ _ rfl
  induction cs with
  | nil => exact fun s t hst => hst
  | cons c cs ih =>
    intro s t hst
    refine ih _ _ ?_
    unfold Place.step
    rw [← hst]
    cases s.region <;> grind

theorem walk_concat (h : Int) (cs : List Char) (c : Char) :
    walk h (cs ++ [c]) = (walk h cs).step c := by
  rw [walk, List.foldl_append]
  rfl

theorem walk_string (hcs : '"' ∉ cs) : walk h ('"' :: cs) = ⟨.string, h⟩ := by
  rw [walk, List.foldl_cons]
  change cs.foldl Place.step ⟨.string, h⟩ = _
  induction cs with
  | nil => rfl
  | cons c cs ih =>
    rw [List.mem_cons, not_or] at hcs
    simpa [Place.step, Ne.symm hcs.1] using ih hcs.2

theorem walk_comment (hcs : '\n' ∉ cs) : walk h ('#' :: cs) = ⟨.comment, h⟩ := by
  rw [walk, List.foldl_cons]
  change cs.foldl Place.step ⟨.comment, h⟩ = _
  induction cs with
  | nil => rfl
  | cons c cs ih =>
    rw [List.mem_cons, not_or] at hcs
    simpa [Place.step, Ne.symm hcs.1] using ih hcs.2

inductive Tail : List Char → Prop
  | string {inner : List Char} (h : '"' ∉ inner) : Tail ('"' :: inner)
  | comment {body : List Char} (h : '\n' ∉ body) : Tail ('#' :: body)

theorem Tail.walk_eq (ht : Tail tail) (h : Int) :
    (walk h tail).height = h ∧ (walk h tail).region ≠ .plain := by
  cases ht with
  | string hi => simp [walk_string hi]
  | comment hb => simp [walk_comment hb]

theorem Tail.prefix_cases (ht : Tail tail) (hq : q <+: tail) : q = [] ∨ Tail q := by
  cases ht with
  | string hi =>
    obtain rfl | ⟨r, rfl, hr⟩ := List.prefix_cons_iff.mp hq
    · exact .inl rfl
    · exact .inr (.string fun hmem => hi (hr.subset hmem))
  | comment hb =>
    obtain rfl | ⟨r, rfl, hr⟩ := List.prefix_cons_iff.mp hq
    · exact .inl rfl
    · exact .inr (.comment fun hmem => hb (hr.subset hmem))

theorem Piece.prefix_cases (hp : Piece p) (hq : q <+: p) : q = [] ∨ q = p ∨ Tail q := by
  cases hp with
  | other =>
    obtain rfl | ⟨r, rfl, hr⟩ := List.prefix_cons_iff.mp hq
    · exact .inl rfl
    · rw [List.prefix_nil.mp hr]
      exact .inr (.inl rfl)
  | string hi =>
    rw [← List.cons_append, List.prefix_concat_iff] at hq
    obtain rfl | hq := hq
    · exact .inr (.inl rfl)
    · exact ((Tail.string hi).prefix_cases hq).imp_right .inr
  | comment hb =>
    rw [← List.cons_append, List.prefix_concat_iff] at hq
    obtain rfl | hq := hq
    · exact .inr (.inl rfl)
    · exact ((Tail.comment hb).prefix_cases hq).imp_right .inr

theorem Piece.walk_eq (hp : Piece p) (h : Int) : walk h p = ⟨.plain, h⟩ := by
  cases hp with
  | other hquote hhash hopen hclose => simp [walk, Place.step, *]
  | string hi =>
    rw [← List.cons_append, walk_concat, walk_string hi]
    rfl
  | comment hb =>
    rw [← List.cons_append, walk_concat, walk_comment hb]
    rfl

def Above (floor h : Int) (cs : List Char) : Prop := ∀ q, q <+: cs → floor ≤ (walk h q).height

theorem Above.mono {floor floor' : Int} (ha : Above floor' h cs) (hle : floor ≤ floor') :
    Above floor h cs :=
  fun q hq => Int.le_trans hle (ha q hq)

theorem Above.append {floor : Int} (ha : Above floor h cs) (hcs : walk h cs = ⟨.plain, k⟩)
    (hb : Above floor k ds) : Above floor h (cs ++ ds) := by
  intro q hq
  obtain hq | ⟨q, rfl⟩ := List.prefix_or_prefix_of_prefix hq (List.prefix_append cs ds)
  · exact ha q hq
  · rw [walk_append hcs]
    exact hb q ((List.prefix_append_right_inj cs).mp hq)

theorem above_open {floor : Int} (hle : floor ≤ h) (ha : Above floor (h + 1) cs) :
    Above floor h ('(' :: cs) := by
  intro q hq
  obtain rfl | ⟨r, rfl, hr⟩ := List.prefix_cons_iff.mp hq
  · exact hle
  · exact ha r hr

theorem Tail.above (ht : Tail tail) (h : Int) : Above h h tail := by
  intro q hq
  obtain rfl | ht := ht.prefix_cases hq
  · exact Int.le_refl h
  · exact Int.le_of_eq (ht.walk_eq h).1.symm

theorem Piece.above (hp : Piece p) (h : Int) : Above h h p := by
  intro q hq
  obtain rfl | rfl | ht := hp.prefix_cases hq
  · exact Int.le_refl h
  · exact Int.le_of_eq (congrArg Place.height (hp.walk_eq h)).symm
  · exact Int.le_of_eq (ht.walk_eq h).1.symm

/- Clear and balanced texts. -/

theorem Clear.region (hcs : Clear cs) (h : Int) : (walk h cs).region = .plain := by
  suffices ∃ k, walk h cs = ⟨.plain, k⟩ by
    obtain ⟨k, hk⟩ := this
    rw [hk]
  induction hcs with
  | nil => exact ⟨h, rfl⟩
  | piece _ hp ih =>
    obtain ⟨k, hk⟩ := ih
    exact ⟨k, (walk_append hk _).trans (hp.walk_eq k)⟩
  | parenthesis _ hc ih =>
    obtain ⟨k, hk⟩ := ih
    obtain rfl | rfl := hc
    · exact ⟨k + 1, walk_append hk _⟩
    · exact ⟨k - 1, walk_append hk _⟩

theorem Clear.walk_eq (hcs : Clear cs) (h : Int) : walk h cs = ⟨.plain, (walk h cs).height⟩ := by
  rw [← hcs.region h]

theorem Balanced.walk_eq (hcs : Balanced cs) (h : Int) : walk h cs = ⟨.plain, h⟩ := by
  induction hcs generalizing h with
  | nil => rfl
  | piece _ hp ih => rw [walk_append (ih h), hp.walk_eq]
  | list _ _ ih ihi => simp [walk_append (ih h), walk_append (ihi (h + 1))]

theorem Balanced.above (hcs : Balanced cs) (h : Int) : Above h h cs := by
  induction hcs generalizing h with
  | nil =>
    intro q hq
    rw [List.prefix_nil.mp hq]
    exact Int.le_refl h
  | piece hcs hp ih => exact (ih h).append (hcs.walk_eq h) (hp.above h)
  | list hcs hi ih ihi =>
    refine (ih h).append (hcs.walk_eq h) (above_open (Int.le_refl h) ?_)
    refine ((ihi (h + 1)).mono (by omega)).append (hi.walk_eq _) ?_
    intro q hq
    obtain rfl | ⟨r, rfl, hr⟩ := List.prefix_cons_iff.mp hq
    · simp only [walk_nil]
      omega
    · simp [List.prefix_nil.mp hr]

theorem Clear.append (hcs : Clear cs) (hds : Balanced ds) : Clear (cs ++ ds) := by
  induction hds generalizing cs with
  | nil => simpa using hcs
  | piece _ hp ih => simpa using (ih hcs).piece hp
  | list _ _ ih ihi => simpa using (ihi ((ih hcs).parenthesis (.inl rfl))).parenthesis (.inr rfl)

theorem Balanced.clear (hcs : Balanced cs) : Clear cs := by
  simpa using Clear.nil.append hcs

/- Partners. -/

def Closed (rest : List Char) : Prop :=
  ∃ inner after, rest = inner ++ ')' :: after ∧ Balanced inner

def Opened (before : List Char) : Prop :=
  ∃ outer inner, before = outer ++ '(' :: inner ∧ Clear outer ∧ Balanced inner

theorem Closed.append (hr : Closed rest) (ds : List Char) : Closed (rest ++ ds) := by
  obtain ⟨inner, after, rfl, hi⟩ := hr
  exact ⟨inner, after ++ ds, by simp, hi⟩

/-- No list is open after balanced text, since it ends at the height of its start. -/
theorem Balanced.not_opened (hcs : Balanced cs) : ¬ Opened cs := by
  rintro ⟨outer, inner, rfl, houter, hinner⟩
  have habove := hcs.above 0 outer (List.prefix_append _ _)
  have hend := hcs.walk_eq 0
  rw [walk_append (houter.walk_eq 0), walk_open, hinner.walk_eq] at hend
  have hheight := congrArg Place.height hend
  simp only at hheight
  omega

/-- What stays at or above the height it starts from does not close the list around it. -/
theorem Above.not_closed (ha : Above h h rest) : ¬ Closed rest := by
  rintro ⟨inner, after, rfl, hinner⟩
  have hclose := ha (inner ++ [')']) ⟨after, by simp⟩
  rw [walk_append (hinner.walk_eq h)] at hclose
  simp only [walk_close, walk_nil] at hclose
  omega

theorem Tail.not_clear_append (ht : Tail tail) (hcs : Clear cs) : ¬ Clear (cs ++ tail) := by
  intro hclear
  apply (ht.walk_eq _).2
  rw [← walk_append (hcs.walk_eq 0), hclear.region]

/-- In balanced text each `(` that counts is closed. -/
theorem Balanced.closed (hcs : Balanced cs) (heq : cs = before ++ '(' :: rest)
    (hb : (walk 0 before).region = .plain) : Closed rest := by
  induction hcs generalizing before rest with
  | nil => simp at heq
  | @piece cs p hcs hp ih =>
    obtain ⟨l, rfl, rfl⟩ | ⟨l, rfl, hl⟩ := split_cases heq
    · exact (ih rfl hb).append p
    · -- a parenthesis in a string or a comment does not count
      rw [walk_append (hcs.walk_eq 0)] at hb
      obtain rfl | rfl | ht := hp.prefix_cases ⟨_, hl.symm⟩
      · cases hp <;> simp_all
      · simp at hl
      · exact absurd hb (ht.walk_eq 0).2
  | @list cs inner hcs hi ih ihi =>
    obtain ⟨l, rfl, rfl⟩ | ⟨l, rfl, hl⟩ := split_cases heq
    · exact (ih rfl hb).append _
    · cases l with
      | nil =>
        obtain ⟨-, rfl⟩ := List.cons.inj hl
        exact ⟨inner, [], rfl, hi⟩
      | cons c l =>
        obtain ⟨rfl, hinner⟩ := List.cons.inj hl
        rw [walk_append (hcs.walk_eq 0), walk_open, region_walk _ 0] at hb
        obtain ⟨l', rfl, rfl⟩ | ⟨l', rfl, hl'⟩ := split_cases hinner
        · exact (ihi rfl hb).append _
        · cases l' <;> simp at hl'

/- Lists that are still open. -/

/-- Text with open lists, and the lines that they were opened on, the innermost first. -/
inductive Nested : List Char → List Nat → Prop
  | top {cs : List Char} (h : Balanced cs) : Nested cs []
  | opened {cs inner : List Char} {lines : List Nat} (h : Nested cs lines) (hi : Balanced inner) :
      Nested (cs ++ '(' :: inner) (lineAfter cs :: lines)

namespace Nested

variable {lines : List Nat} {line : Nat}

theorem clear (hcs : Nested cs lines) : Clear cs := by
  induction hcs with
  | top h => exact h.clear
  | opened _ hi ih => simpa using (ih.parenthesis (.inl rfl)).append hi

theorem piece (hcs : Nested cs lines) (hp : Piece p) : Nested (cs ++ p) lines := by
  cases hcs with
  | top h => exact .top (h.piece hp)
  | opened h hi => simpa using h.opened (hi.piece hp)

theorem opens (hcs : Nested cs lines) : Nested (cs ++ ['(']) (lineAfter cs :: lines) :=
  hcs.opened .nil

/-- What was open around a list is open after it. -/
theorem list (hcs : Nested cs lines) (hi : Balanced inner) :
    Nested (cs ++ '(' :: (inner ++ [')'])) lines := by
  cases hcs with
  | top h => exact .top (h.list hi)
  | opened h hi' => simpa using h.opened (hi'.list hi)

theorem closes (hcs : Nested cs (line :: lines)) : Nested (cs ++ [')']) lines := by
  cases hcs with
  | opened h hi => simpa using h.list hi

theorem balanced (hcs : Nested cs []) : Balanced cs := by
  cases hcs with
  | top h => exact h

theorem isOpened (hcs : Nested cs (line :: lines)) : Opened cs := by
  cases hcs with
  | opened h hi => exact ⟨_, _, rfl, h.clear, hi⟩

/-- Before the outermost open list the text is balanced, and after its `(` the walk stays inside. -/
theorem outermost (hcs : Nested cs lines) (hline : lines.getLast? = some line) :
    ∃ outer rest, cs = outer ++ '(' :: rest ∧ Balanced outer ∧ line = lineAfter outer ∧
      Above 0 0 rest ∧ ∃ k, walk 0 rest = ⟨.plain, k⟩ := by
  induction hcs with
  | top => simp at hline
  | @opened cs inner lines hcs hi ih =>
    cases lines with
    | nil =>
      obtain rfl : lineAfter cs = line := by simpa using hline
      exact ⟨cs, inner, rfl, hcs.balanced, rfl, hi.above 0, 0, hi.walk_eq 0⟩
    | cons l lines =>
      obtain ⟨outer, rest, rfl, houter, rfl, habove, k, hk⟩ := ih (by simpa using hline)
      have hle : 0 ≤ k := by simpa [hk] using habove rest (List.prefix_refl rest)
      refine ⟨outer, rest ++ '(' :: inner, by simp, houter, rfl, ?_, k + 1, ?_⟩
      · refine habove.append hk (above_open hle ?_)
        exact (hi.above (k + 1)).mono (by omega)
      · rw [walk_append hk, walk_open, hi.walk_eq]

end Nested

/- Faults of a text. The text before a fault says where it is. -/

structure StrayClose (cs before : List Char) : Prop where
  counts : Clear before
  close : ∃ after, cs = before ++ ')' :: after
  alone : ¬ Opened before

structure EndlessString (cs before : List Char) : Prop where
  counts : Clear before
  endless : ∃ inner, cs = before ++ '"' :: inner ∧ '"' ∉ inner

structure StrayOpen (cs before : List Char) : Prop where
  counts : Clear before
  alone : ∃ rest, cs = before ++ '(' :: rest ∧ ¬ Closed rest

theorem EndlessString.unique (h : EndlessString cs p) (h' : EndlessString cs q) : p = q := by
  obtain ⟨-, inner, rfl, hi⟩ := h
  obtain ⟨-, inner', heq, hi'⟩ := h'
  obtain ⟨l, rfl, rfl⟩ | ⟨l, rfl, hl⟩ := split_cases heq
  · simp at hi'
  · cases l with
    | nil => simp
    | cons c l =>
      obtain ⟨-, rfl⟩ := List.cons.inj hl
      simp at hi

/-- A list that is opened in balanced text is closed there. -/
theorem StrayOpen.after_balanced (hlist : StrayOpen (cs ++ ds) before) (hcs : Balanced cs) :
    ∃ l rest, before = cs ++ l ∧ ds = l ++ '(' :: rest := by
  obtain ⟨hcounts, rest, heq, halone⟩ := hlist
  obtain ⟨l, rfl, rfl⟩ | ⟨l, rfl, hl⟩ := split_cases heq
  · exact absurd ((hcs.closed rfl (hcounts.region 0)).append ds) halone
  · exact ⟨l, rest, rfl, hl⟩

section

variable {lines : List Nat} {line : Nat} (hcs : Nested cs lines) (ht : tail = [] ∨ Tail tail)

include hcs ht

/-- When no list is left open at the end, each one is closed. -/
theorem Nested.not_strayOpen (hlines : lines = []) : ¬ StrayOpen (cs ++ tail) before := by
  subst hlines
  intro hlist
  have hcounts := hlist.counts
  obtain ⟨l, rest, rfl, rfl⟩ := hlist.after_balanced hcs.balanced
  obtain ht | ht := ht
  · simp at ht
  · obtain rfl | hl := ht.prefix_cases (List.prefix_append l _)
    · cases ht
    · exact hl.not_clear_append hcs.clear hcounts

/-- The outermost list that is left open is the earliest one with no partner. -/
theorem Nested.first_strayOpen (hline : lines.getLast? = some line) :
    ∃ before, StrayOpen (cs ++ tail) before ∧ line = lineAfter before ∧
      ∀ before', StrayOpen (cs ++ tail) before' → before.length ≤ before'.length := by
  obtain ⟨outer, rest, rfl, houter, rfl, habove, k, hk⟩ := hcs.outermost hline
  have hle : 0 ≤ k := by simpa [hk] using habove rest (List.prefix_refl rest)
  have htail : Above 0 k tail := by
    obtain rfl | ht := ht
    · exact Balanced.nil.above k |>.mono hle
    · exact (ht.above k).mono hle
  have halone : ¬ Closed (rest ++ tail) := (habove.append hk htail).not_closed
  refine ⟨outer, ⟨houter.clear, rest ++ tail, by simp, halone⟩, rfl, ?_⟩
  intro before' h'
  rw [List.append_assoc] at h'
  obtain ⟨l, -, rfl, -⟩ := h'.after_balanced houter
  simp

end

end Text

end ObjectLang
