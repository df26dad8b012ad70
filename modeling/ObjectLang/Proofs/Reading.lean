import Mathlib.Tactic.SplitIfs
import ObjectLang.Form.Reader
import ObjectLang.Proofs.Computation
import ObjectLang.Proofs.Expansion

/-!
Reading undoes writing. A written form ends at rest: nothing is pending except perhaps an atom, and
the blank or parenthesis that comes next finishes it. So written forms with blanks between them are
read back one by one, and since the reader spells no other atoms than those a text can spell, what
it has read can be written and read again.
-/

namespace ObjectLang

namespace Text

def IsGap (s : String) : Prop := s ≠ "" ∧ ∀ c ∈ s.toList, isBlank c

/-- A text can spell the token as one atom: as a string, with no quote between its two quotes, or
as a word without blanks, parentheses, quotes and comment signs. -/
def IsToken (s : String) : Prop :=
  (∃ inner, s.toList = '"' :: (inner ++ ['"']) ∧ '"' ∉ inner) ∨
  (s ≠ "" ∧ ∀ c ∈ s.toList,
    isBlank c = false ∧ c ≠ '(' ∧ c ≠ ')' ∧ c ≠ '"' ∧ c ≠ '#')

end Text

namespace Form

def Readable (f : Form) : Prop := f.Within Text.IsToken

/-- The forms in a row, with `gap n` in front of the last `n` of them. -/
def renderAll (gap : Nat → String) : List Form → String
  | [] => ""
  | [f] => f.render
  | f :: g :: fs => f.render ++ gap (fs.length + 1) ++ renderAll gap (g :: fs)

mutual

theorem write_append (f : Form) (rest : List Char) : f.write rest = f.write [] ++ rest := by
  cases f with
  | atom token => simp [write]
  | list items =>
    simp [write, writeItems_append items (')' :: rest), writeItems_append items [')']]

theorem writeItems_append (fs : List Form) (rest : List Char) :
    writeItems fs rest = (renderAll (fun _ => " ") fs).toList ++ rest := by
  match fs with
  | [] => simp [writeItems, renderAll]
  | [f] => simpa [writeItems, renderAll, render] using write_append f rest
  | f :: g :: fs =>
    have hf := write_append f (' ' :: writeItems (g :: fs) rest)
    rw [writeItems_append (g :: fs) rest] at hf
    simp [writeItems, renderAll, render, writeItems_append (g :: fs) rest, hf]

end

end Form

namespace Reader

variable {r r' s : Reader} {c : Char} {cs ds : List Char} {f : Form} {fs gs : List Form}

/- Adding forms changes neither the mode nor the line. -/

theorem add_line (r : Reader) (f : Form) (n : Nat) :
    add { r with line := n } f = { add r f with line := n } := by
  simp only [add]
  cases r.opened <;> rfl

theorem foldl_add_line (r : Reader) (fs : List Form) (n : Nat) :
    fs.foldl add { r with line := n } = { fs.foldl add r with line := n } := by
  induction fs generalizing r with
  | nil => rfl
  | cons f fs ih => simp only [List.foldl_cons, add_line, ih]

@[simp] theorem add_mode (r : Reader) (f : Form) : (add r f).mode = r.mode := by
  simp only [add]
  cases r.opened <;> rfl

theorem foldl_add_of_open {l : OpenList} {ls : List OpenList} (h : r.opened = l :: ls)
    (fs : List Form) :
    fs.foldl add r = { r with opened := { l with items := fs.reverse ++ l.items } :: ls } := by
  induction fs generalizing r l with
  | nil => simp [← h]
  | cons f fs ih =>
    have hf : add r f = { r with opened := { l with items := f :: l.items } :: ls } := by
      simp only [add, h]
    rw [List.foldl_cons, hf, ih rfl]
    simp

theorem foldl_add_at_top (h : r.opened = []) (fs : List Form) :
    fs.foldl add r = { r with done := fs.reverse ++ r.done } := by
  induction fs generalizing r with
  | nil => rfl
  | cons f fs ih =>
    have hf : add r f = { r with done := f :: r.done } := by simp only [add, h]
    rw [List.foldl_cons, hf, ih (r := { r with done := f :: r.done }) h]
    simp

/- Reading at rest. -/

/-- The reader is in no comment and no string, and `s` is it once a pending atom is added. -/
inductive Rests : Reader → Reader → Prop
  | between {r : Reader} (h : r.mode = .between) : Rests r r
  | atom {r : Reader} {read : List Char} (h : r.mode = .atom read) :
      Rests r (add { r with mode := .between } (token read))

theorem Rests.mode (h : Rests r s) : s.mode = .between := by
  cases h with
  | between h => exact h
  | atom h => exact add_mode _ _

theorem Rests.step (h : Rests r s) (hc : endsAtom c) : r.step c = s.lead c := by
  cases h with
  | between h => simp only [Reader.step, h]
  | atom h => simp only [Reader.step, h, hc, if_true]

theorem Rests.finish (h : Rests r s) : r.finish = s.finishLists := by
  cases h with
  | between h => simp only [Reader.finish, h]
  | atom h =>
    -- a pending atom is added without leaving the mode, which the lists do not show
    simp only [Reader.finish, h, add, finishLists]
    cases r.opened <;> rfl

def read (r : Reader) (cs : List Char) : Except ReadError Reader := cs.foldlM step r

theorem read_cons (h : r.step c = .ok r') (cs : List Char) : r.read (c :: cs) = r'.read cs := by
  rw [read, List.foldlM_cons, h]
  rfl

theorem read_append (h : r.read cs = .ok r') (ds : List Char) :
    r.read (cs ++ ds) = r'.read ds := by
  rw [read] at h
  rw [read, List.foldlM_append, h]
  rfl

theorem lead_blank (h : Text.isBlank c) : ∃ line, r.lead c = .ok { r with line } := by
  by_cases hn : c = '\n'
  · exact ⟨r.line + 1, by simp [lead, hn]⟩
  · have hh : c ≠ '#' := by
      rintro rfl
      simp [Text.isBlank] at h
    exact ⟨r.line, by simp [lead, hn, hh, h]⟩

theorem read_blanks (hr : r.mode = .between) (h : ∀ c ∈ cs, Text.isBlank c) :
    ∃ line, r.read cs = .ok { r with line } := by
  induction cs generalizing r with
  | nil => exact ⟨r.line, rfl⟩
  | cons c cs ih =>
    simp only [List.mem_cons, forall_eq_or_imp] at h
    obtain ⟨line, hc⟩ := lead_blank (r := r) h.1
    have hstep : r.step c = .ok { r with line } := by simpa only [step, hr] using hc
    obtain ⟨last, hcs⟩ := ih (r := { r with line }) hr h.2
    exact ⟨last, by rw [read_cons hstep, hcs]⟩

/-- A gap after a text at rest finishes the text and only moves on the line. -/
theorem Rests.read_gap (h : Rests r s) {gap : String} (hgap : Text.IsGap gap) :
    ∃ line, r.read gap.toList = .ok { s with line } := by
  obtain ⟨hne, hblank⟩ := hgap
  cases hg : gap.toList with
  | nil => exact absurd (String.toList_inj.mp (by simpa using hg)) hne
  | cons c cs =>
    rw [hg] at hblank
    simp only [List.mem_cons, forall_eq_or_imp] at hblank
    obtain ⟨line, hc⟩ := lead_blank (r := s) hblank.1
    have hstep : r.step c = .ok { s with line } := by
      rw [h.step (by simp [endsAtom, hblank.1]), hc]
    obtain ⟨last, hcs⟩ := read_blanks (r := { s with line }) h.mode hblank.2
    exact ⟨last, by rw [read_cons hstep, hcs]⟩

/- Reading the text of forms. -/

def Reads (r : Reader) (cs : List Char) (fs : List Form) : Prop :=
  ∃ line r', r.read cs = .ok r' ∧ Rests r' (fs.foldl add { r with line })

theorem Reads.append (h : Reads r cs fs) {gap : String} (hgap : Text.IsGap gap)
    (hds : ∀ r' : Reader, r'.mode = .between → Reads r' ds gs) :
    Reads r (cs ++ gap.toList ++ ds) (fs ++ gs) := by
  obtain ⟨line, r', hcs, hrest⟩ := h
  obtain ⟨next, hnext⟩ := hrest.read_gap hgap
  obtain ⟨last, s, hds, hs⟩ := hds { fs.foldl add { r with line } with line := next } hrest.mode
  refine ⟨last, s, ?_, ?_⟩
  · rw [List.append_assoc, read_append hcs, read_append hnext, hds]
  · rwa [← foldl_add_line, ← List.foldl_append] at hs

theorem endsAtom_eq_false_iff : endsAtom c = false ↔
    Text.isBlank c = false ∧ c ≠ '(' ∧ c ≠ ')' ∧ c ≠ '"' ∧ c ≠ '#' := by
  simp [endsAtom, and_assoc]

theorem read_word {read : List Char} (hr : r.mode = .atom read)
    (h : ∀ c ∈ cs, endsAtom c = false) :
    r.read cs = .ok { r with mode := .atom (cs.reverse ++ read) } := by
  induction cs generalizing r read with
  | nil => simp [Reader.read, ← hr, pure, Except.pure]
  | cons c cs ih =>
    simp only [List.mem_cons, forall_eq_or_imp] at h
    have hstep : r.step c = .ok { r with mode := .atom (c :: read) } := by
      simp [step, hr, h.1]
    rw [read_cons hstep, ih rfl h.2]
    simp

theorem reads_word (hr : r.mode = .between) (hne : cs ≠ [])
    (h : ∀ c ∈ cs, Text.isBlank c = false ∧ c ≠ '(' ∧ c ≠ ')' ∧ c ≠ '"' ∧ c ≠ '#') :
    Reads r cs [.atom (String.ofList cs)] := by
  cases cs with
  | nil => exact absurd rfl hne
  | cons c cs =>
    simp only [List.mem_cons, forall_eq_or_imp] at h
    obtain ⟨⟨hblank, hopen, hclose, hquote, hhash⟩, hcs⟩ := h
    have hnl : c ≠ '\n' := by
      rintro rfl
      simp [Text.isBlank] at hblank
    have hstep : r.step c = .ok { r with mode := .atom [c] } := by
      simp [step, lead, *]
    have hread := read_word (r := { r with mode := .atom [c] }) rfl
      fun d hd => endsAtom_eq_false_iff.mpr (hcs d hd)
    refine ⟨r.line, _, (read_cons hstep cs).trans hread, ?_⟩
    have hrest := Rests.atom (r := { r with mode := .atom (cs.reverse ++ [c]) }) rfl
    simpa [token, ← hr] using hrest

theorem read_string {line : Nat} {read : List Char} (hr : r.mode = .string line read)
    (h : '"' ∉ cs) :
    ∃ last, r.read cs = .ok { r with line := last, mode := .string line (cs.reverse ++ read) } := by
  induction cs generalizing r read with
  | nil => exact ⟨r.line, by simp [Reader.read, ← hr, pure, Except.pure]⟩
  | cons c cs ih =>
    simp only [List.mem_cons, not_or] at h
    have hstep : r.step c = .ok { r with
        line := if c = '\n' then r.line + 1 else r.line
        mode := .string line (c :: read) } := by
      simp [step, hr, Ne.symm h.1]
    obtain ⟨last, hcs⟩ := ih (r := { r with
        line := if c = '\n' then r.line + 1 else r.line
        mode := .string line (c :: read) }) rfl h.2
    exact ⟨last, by rw [read_cons hstep, hcs]; simp⟩

theorem reads_string (hr : r.mode = .between) (h : '"' ∉ cs) :
    Reads r ('"' :: (cs ++ ['"'])) [.atom (String.ofList ('"' :: (cs ++ ['"'])))] := by
  have hopen : r.step '"' = .ok { r with mode := .string r.line ['"'] } := by
    simp [step, hr, lead, Text.isBlank]
  obtain ⟨line, hread⟩ := read_string (r := { r with mode := .string r.line ['"'] }) rfl h
  have hclose : Reader.step
        { r with line := line, mode := .string r.line (cs.reverse ++ ['"']) } '"' =
      .ok (add { r with line := line, mode := .between }
        (token ('"' :: (cs.reverse ++ ['"'])))) := by
    simp [step]
  refine ⟨line, _, (read_cons hopen _).trans ((read_append hread _).trans (read_cons hclose [])),
    ?_⟩
  have hrest := Rests.between (r := add { r with line := line, mode := .between }
    (token ('"' :: (cs.reverse ++ ['"'])))) (add_mode _ _)
  simpa [token, ← hr] using hrest

theorem reads_list (hr : r.mode = .between)
    (h : ∀ r' : Reader, r'.mode = .between → Reads r' cs fs) :
    Reads r ('(' :: (cs ++ [')'])) [.list fs] := by
  have hopen : r.step '(' = .ok { r with opened := ⟨r.line, []⟩ :: r.opened } := by
    simp [step, hr, lead, Text.isBlank]
  obtain ⟨line, r', hread, hrest⟩ := h { r with opened := ⟨r.line, []⟩ :: r.opened } hr
  rw [foldl_add_of_open rfl] at hrest
  have hclose : r'.step ')' = .ok (add { r with line } (.list fs)) := by
    rw [hrest.step rfl]
    simp [lead, close, Text.isBlank]
  refine ⟨line, _, (read_cons hopen _).trans ((read_append hread _).trans (read_cons hclose [])),
    ?_⟩
  exact .between ((add_mode _ _).trans hr)

theorem reads_row {gap : Nat → String} (hgap : ∀ n, Text.IsGap (gap n))
    (h : ∀ f ∈ fs, ∀ r : Reader, r.mode = .between → Reads r (f.write []) [f])
    (hr : r.mode = .between) : Reads r (Form.renderAll gap fs).toList fs := by
  induction fs generalizing r with
  | nil => exact ⟨r.line, r, by simp [Form.renderAll, Reader.read, pure, Except.pure], .between hr⟩
  | cons f fs ih =>
    have hf := h f (by simp) r hr
    cases fs with
    | nil => simpa [Form.renderAll, Form.render] using hf
    | cons g fs =>
      have hfs := hf.append (hgap (fs.length + 1)) fun r' hr' =>
        ih (fun x hx => h x (List.mem_cons_of_mem f hx)) hr'
      simpa [Form.renderAll, Form.render] using hfs

theorem isGap_space : Text.IsGap " " := ⟨by decide, by simp [Text.isBlank]⟩

/-- A written form is read back as that form. -/
theorem reads_write (f : Form) (hf : f.Readable) (r : Reader) (hr : r.mode = .between) :
    Reads r (f.write []) [f] := by
  match f with
  | .atom t =>
    obtain ⟨inner, ht, hinner⟩ | ⟨hne, hplain⟩ := Form.within_atom.mp hf
    · have hs := reads_string hr hinner
      rw [← ht, String.ofList_toList] at hs
      simpa [Form.write] using hs
    · have hs := reads_word hr (fun h => hne (String.toList_inj.mp (by simpa using h))) hplain
      rw [String.ofList_toList] at hs
      simpa [Form.write] using hs
  | .list items =>
    have hitems := reads_list hr fun r' hr' =>
      reads_row (fun _ => isGap_space)
        (fun g hg => reads_write g (Form.within_list.mp hf g hg)) hr'
    simpa [Form.write, Form.writeItems_append] using hitems
termination_by sizeOf f
decreasing_by
  have := List.sizeOf_lt_of_mem hg
  simp
  omega

/- What the reader has read can be written. -/

structure Sound (r : Reader) : Prop where
  done : ∀ f ∈ r.done, f.Readable
  items : ∀ l ∈ r.opened, ∀ f ∈ l.items, f.Readable
  word : ∀ read, r.mode = .atom read → read ≠ [] ∧ ∀ c ∈ read, endsAtom c = false
  string : ∀ line read, r.mode = .string line read → ∃ inner, read = inner ++ ['"'] ∧ '"' ∉ inner

theorem Sound.add (h : Sound r) (hf : f.Readable) : Sound (add r f) := by
  obtain ⟨hdone, hitems, hword, hstring⟩ := h
  cases ho : r.opened with
  | nil =>
    have hadd : Reader.add r f = { r with done := f :: r.done } := by simp only [Reader.add, ho]
    rw [hadd]
    exact ⟨by simpa using ⟨hf, hdone⟩, hitems, hword, hstring⟩
  | cons l ls =>
    rw [ho] at hitems
    simp only [List.mem_cons, forall_eq_or_imp] at hitems
    have hadd : Reader.add r f = { r with opened := { l with items := f :: l.items } :: ls } := by
      simp only [Reader.add, ho]
    rw [hadd]
    refine ⟨hdone, ?_, hword, hstring⟩
    simpa using ⟨⟨hf, hitems.1⟩, hitems.2⟩

/-- With nothing pending the mode and the line do not matter. -/
theorem Sound.between (h : Sound r) (line : Nat) :
    Sound { r with line := line, mode := .between } :=
  ⟨h.done, h.items, by simp, by simp⟩

theorem Sound.close (h : Sound r) (hc : r.close = .ok r') : Sound r' := by
  cases ho : r.opened with
  | nil => simp [Reader.close, ho] at hc
  | cons l ls =>
    have hitems := h.items
    rw [ho] at hitems
    simp only [List.mem_cons, forall_eq_or_imp] at hitems
    simp only [Reader.close, ho, Except.ok.injEq] at hc
    rw [← hc]
    refine Sound.add ⟨h.done, hitems.2, h.word, h.string⟩ ?_
    exact Form.within_list.mpr fun f hf => hitems.1 f (List.mem_reverse.mp hf)

theorem Sound.lead (h : Sound r) (hc : r.lead c = .ok r') : Sound r' := by
  unfold Reader.lead at hc
  split_ifs at hc with hnl hhash hblank hopen hclose hquote
  · cases hc
    exact ⟨h.done, h.items, h.word, h.string⟩
  · cases hc
    exact ⟨h.done, h.items, by simp, by simp⟩
  · cases hc
    exact h
  · cases hc
    exact ⟨h.done, by simpa using h.items, h.word, h.string⟩
  · exact h.close hc
  · cases hc
    refine ⟨h.done, h.items, by simp, ?_⟩
    rintro line read ⟨⟩
    exact ⟨[], by simp [hquote], by simp⟩
  · cases hc
    refine ⟨h.done, h.items, ?_, by simp⟩
    rintro read ⟨⟩
    have hc : endsAtom c = false := endsAtom_eq_false_iff.mpr
      ⟨by simpa using hblank, hopen, hclose, hquote, hhash⟩
    simpa using hc

/-- What is pending of a word is a token as it stands. -/
theorem Sound.isToken (h : Sound r) {read : List Char} (hr : r.mode = .atom read) :
    (token read).Readable := by
  obtain ⟨hne, hplain⟩ := h.word read hr
  refine Form.within_atom.mpr (.inr ⟨?_, ?_⟩)
  · intro he
    have hl := congrArg String.toList he
    simp [hne] at hl
  · intro c hc
    exact endsAtom_eq_false_iff.mp (hplain c (by simpa using hc))

theorem Sound.step (h : Sound r) (hc : r.step c = .ok r') : Sound r' := by
  unfold Reader.step at hc
  cases hm : r.mode with
  | between =>
    simp only [hm] at hc
    exact h.lead hc
  | comment =>
    simp only [hm] at hc
    split_ifs at hc
    · exact (h.between r.line).lead hc
    · cases hc
      exact h
  | atom read =>
    simp only [hm] at hc
    obtain ⟨hne, hplain⟩ := h.word read hm
    split_ifs at hc with hend
    · exact ((h.between r.line).add (h.isToken hm)).lead hc
    · cases hc
      refine ⟨h.done, h.items, ?_, by simp⟩
      rintro read' ⟨⟩
      simpa using ⟨by simpa using hend, hplain⟩
  | string line read =>
    simp only [hm] at hc
    obtain ⟨inner, hread, hinner⟩ := h.string line read hm
    by_cases hquote : c = '"'
    · rw [if_pos hquote] at hc
      cases hc
      refine (h.between r.line).add (Form.within_atom.mpr (.inl ⟨inner.reverse, ?_, ?_⟩))
      · simp [hread, hquote]
      · simpa using hinner
    · rw [if_neg hquote] at hc
      cases hc
      refine ⟨h.done, h.items, by simp, ?_⟩
      rintro line' read' ⟨⟩
      exact ⟨c :: inner, by simp [hread], by simp [hinner, Ne.symm hquote]⟩

theorem Sound.start : Sound start := ⟨by simp [Reader.start], by simp [Reader.start],
  by simp [Reader.start], by simp [Reader.start]⟩

theorem Sound.finishLists (h : Sound r) (hr : r.finishLists = .ok fs) : ∀ f ∈ fs, f.Readable := by
  unfold Reader.finishLists at hr
  split at hr
  · cases hr
  · cases hr
    exact fun f hf => h.done f (List.mem_reverse.mp hf)

theorem Sound.finish (h : Sound r) (hr : r.finish = .ok fs) : ∀ f ∈ fs, f.Readable := by
  unfold Reader.finish at hr
  cases hm : r.mode with
  | between =>
    simp only [hm] at hr
    exact h.finishLists hr
  | comment =>
    simp only [hm] at hr
    exact h.finishLists hr
  | atom read =>
    simp only [hm] at hr
    exact (h.add (h.isToken hm)).finishLists hr
  | string line read => simp [hm] at hr

end Reader

namespace Form

variable {gap : Nat → String} {fs : List Form}

theorem parse_renderAll (hgap : ∀ n, Text.IsGap (gap n)) (hfs : ∀ f ∈ fs, f.Readable) :
    parse (renderAll gap fs) = .ok fs := by
  obtain ⟨line, r, hread, hrest⟩ := Reader.reads_row hgap
    (fun f hf => Reader.reads_write f (hfs f hf)) (r := .start) rfl
  rw [Reader.foldl_add_at_top rfl] at hrest
  rw [Reader.read] at hread
  rw [parse, hread]
  have hfinish := hrest.finish
  simpa [Except.bind, Reader.finishLists, Reader.start] using hfinish

theorem readable_of_parse {source : String} (h : parse source = .ok fs) :
    ∀ f ∈ fs, f.Readable := by
  obtain ⟨r, hread, hfinish⟩ := except_bind_eq_ok.mp h
  exact (foldlM_keeps (fun _ _ _ hr hc => Reader.Sound.step hr hc) .start hread).finish hfinish

/-- Reader and printer are inverse. Readable forms, written in a row with any blanks between them,
are read back as they are; what a text is read as is readable, and so written and read again it is
the same. -/
theorem read_write_inverse :
    (∀ fs gap, (∀ f ∈ fs, Readable f) → (∀ n, Text.IsGap (gap n)) →
      parse (renderAll gap fs) = .ok fs) ∧
    (∀ source fs, parse source = .ok fs →
      (∀ f ∈ fs, Readable f) ∧
      ∀ gap, (∀ n, Text.IsGap (gap n)) → parse (renderAll gap fs) = .ok fs) := by
  refine ⟨fun fs gap hfs hgap => parse_renderAll hgap hfs, fun source fs h => ?_⟩
  have hfs := readable_of_parse h
  exact ⟨hfs, fun gap hgap => parse_renderAll hgap hfs⟩

/-- A list around a string that holds a parenthesis, a comment sign and a line break, and a text in
which a word, a string and a comment touch. -/
theorem read_write_inverse_nested :
    let forms := [list [atom "print", list [], atom "\"( #\n\""], atom "x"]
    let touching := [list [atom "a", atom "\"b\""]]
    parse (renderAll (fun _ => "\n\t") forms) = .ok forms ∧
    parse "(a\"b\"#c\n)" = .ok touching ∧
    parse (renderAll (fun _ => " ") touching) = .ok touching := by
  intro forms touching
  have hprint : Text.IsToken "print" := .inr ⟨by decide, by simp [Text.isBlank]⟩
  have hstring : Text.IsToken "\"( #\n\"" := .inl ⟨['(', ' ', '#', '\n'], by decide, by decide⟩
  have hx : Text.IsToken "x" := .inr ⟨by decide, by simp [Text.isBlank]⟩
  have hforms : ∀ f ∈ forms, f.Readable := by
    simp [forms, Readable, within_list, within_atom, hprint, hstring, hx]
  have htouching : parse "(a\"b\"#c\n)" = .ok touching := by rfl
  have hgap : Text.IsGap "\n\t" := ⟨by decide, by simp [Text.isBlank]⟩
  refine ⟨read_write_inverse.1 forms _ hforms fun _ => hgap, htouching, ?_⟩
  exact (read_write_inverse.2 _ touching htouching).2 _ fun _ => Reader.isGap_space

end Form

end ObjectLang
