import Mathlib.Tactic.SplitIfs
import ObjectLang.Proofs.Places

/-!
Positions in the body of a method. A position is a path through the items of lists. On the way each
form is a statement, an expression or a declaration of locals, and this decides which of its items
are parts of it: a list that starts with `try` is a `try` only where a statement stands.
-/

namespace ObjectLang

/-- The form at the end of a path, each step of which is the place of an item in its list. -/
def Form.at? : Form → List Nat → Option Form
  | f, [] => some f
  | f, i :: p => f.items[i]?.bind fun g => g.at? p

inductive Site where
  | statement (f : Form)
  | expression (f : Form)
  | locals (decls : List Form)
  | declaration (f : Form)

/-- The part that is the item of this place, counted from the head of the list. -/
def Expression.part? : Expression → Nat → Option Site
  | .call (.value f) _ _, 1 => some (.expression f)
  | .call _ _ arguments, i + 3 => arguments[i]?.map .expression
  | .negation f, 1 => some (.expression f)
  | .binary _ f _, 1 => some (.expression f)
  | .binary _ _ f, 2 => some (.expression f)
  | _, _ => none

def Statement.part? : Statement → Nat → Option Site
  | .print operands, i + 1 => operands[i]?.map .expression
  | .assign _ f, 2 => some (.expression f)
  | .block body, i + 1 => body[i]?.map .statement
  | .branch f _ _, 1 => some (.expression f)
  | .branch _ f _, 2 => some (.statement f)
  | .branch _ _ (some f), 3 => some (.statement f)
  | .loop f _, 1 => some (.expression f)
  | .loop _ f, 2 => some (.statement f)
  | .bind decls _, 1 => some (.locals decls)
  | .bind _ body, i + 2 => body[i]?.map .statement
  | .result (some f), 1 => some (.expression f)
  | .attempt f _, 1 => some (.statement f)
  | .attempt _ f, 2 => some (.statement f)
  | .throw f, 1 => some (.expression f)
  | .expression f, i => (Expression.ofForm f).part? i
  | _, _ => none

def Local.part? (f : Form) : Nat → Option Site
  | 2 => ((Local.ofForm f).toOption.bind Local.init).map .expression
  | _ => none

namespace Site

def form : Site → Form
  | statement f | expression f | declaration f => f
  | locals decls => .list decls

def part? : Site → Nat → Option Site
  | statement f, i => (Statement.ofForm f).part? i
  | expression f, i => (Expression.ofForm f).part? i
  | locals decls, i => decls[i]?.map declaration
  | declaration f, i => Local.part? f i

def at? : Site → List Nat → Option Site
  | s, [] => some s
  | s, i :: p => (s.part? i).bind fun s' => s'.at? p

def isTry : Site → Bool
  | statement f =>
    match Statement.ofForm f with
    | .attempt _ _ => true
    | _ => false
  | _ => false

/-- The path goes through the handler of some `try`, the item after its body. -/
def InHandler (s : Site) (p : List Nat) : Prop :=
  ∃ q rest s', p = q ++ 2 :: rest ∧ s.at? q = some s' ∧ s'.isTry = true

end Site

def Form.InHandler (body : Form) (p : List Nat) : Prop := (Site.statement body).InHandler p

/- Parts are items. -/

theorem Form.items_list (items : List Form) : (Form.list items).items = items := rfl

/-- The item of a list that is mapped to a part. -/
theorem Site.form_of_map {mk : Form → Site} (hmk : ∀ f, (mk f).form = f) {items : List Form}
    {i : Nat} {s : Site} (h : items[i]?.map mk = some s) : items[i]? = some s.form := by
  obtain ⟨f, hf, rfl⟩ := Option.map_eq_some_iff.mp h
  rw [hf, hmk]

theorem Expression.getElem?_items {f : Form} {i : Nat} {s : Site}
    (h : (Expression.ofForm f).part? i = some s) : f.items[i]? = some s.form := by
  unfold Expression.ofForm at h
  split at h
  · unfold ofToken at h
    split at h
    · cases h
    · split at h <;> cases h
  · next head operands =>
    rw [Form.items_list]
    unfold ofList at h
    split_ifs at h with hcall hnew hnegation
    · split at h
      · next target method arguments =>
        match i, h with
        | 0, h => simp [part?] at h
        | 1, h =>
          unfold targetOf at h
          split_ifs at h
          · simp [part?] at h
          · cases h
            rfl
        | 2, h => simp [part?] at h
        | i + 3, h =>
          have harguments : arguments[i]?.map Site.expression = some s := by
            cases htarget : targetOf target <;> simpa [part?, htarget] using h
          exact Site.form_of_map (fun _ => rfl) harguments
      · cases h
    · split at h <;> cases h
    · split at h
      · match i, h with
        | 0, h => simp [part?] at h
        | 1, h =>
          cases h
          rfl
        | i + 2, h => simp [part?] at h
      · cases h
    · split at h
      · split at h
        · match i, h with
          | 0, h => simp [part?] at h
          | 1, h | 2, h =>
            cases h
            rfl
          | i + 3, h => simp [part?] at h
        · cases h
      · cases h
  · cases h

theorem Statement.getElem?_items {f : Form} {i : Nat} {s : Site}
    (h : (Statement.ofForm f).part? i = some s) : f.items[i]? = some s.form := by
  unfold Statement.ofForm at h
  split at h
  case h_12 => exact Expression.getElem?_items h
  all_goals rw [Form.items_list]
  case h_1 operands =>
    match i, h with
    | 0, h => cases h
    | i + 1, h => exact Site.form_of_map (fun _ => rfl) h
  case h_2 operands =>
    unfold ofAssignment at h
    split at h
    · match i, h with
      | 0, h | 1, h | i + 3, h => cases h
      | 2, h => cases h; rfl
    · cases h
    · cases h
  case h_3 body =>
    match i, h with
    | 0, h => cases h
    | i + 1, h => exact Site.form_of_map (fun _ => rfl) h
  case h_4 operands =>
    unfold ofBranch at h
    split at h
    · match i, h with
      | 0, h | 3, h | i + 4, h => cases h
      | 1, h | 2, h => cases h; rfl
    · match i, h with
      | 0, h | i + 4, h => cases h
      | 1, h | 2, h | 3, h => cases h; rfl
    · cases h
  case h_5 operands =>
    unfold ofLoop at h
    split at h
    · match i, h with
      | 0, h | i + 3, h => cases h
      | 1, h | 2, h => cases h; rfl
    · cases h
  case h_6 operands =>
    unfold ofLet at h
    split at h
    · match i, h with
      | 0, h => cases h
      | 1, h => cases h; rfl
      | i + 2, h => exact Site.form_of_map (fun _ => rfl) h
    · cases h
  case h_7 | h_8 =>
    unfold ofInput at h
    split at h <;> cases h
  case h_9 operands =>
    unfold ofReturn at h
    split at h
    · cases h
    · match i, h with
      | 0, h | i + 2, h => cases h
      | 1, h => cases h; rfl
    · cases h
  case h_10 operands =>
    unfold ofTry at h
    split at h
    · match i, h with
      | 0, h | i + 3, h => cases h
      | 1, h | 2, h => cases h; rfl
    · cases h
  case h_11 operands =>
    unfold ofThrow at h
    split at h
    · split_ifs at h
      · cases h
      · match i, h with
        | 0, h | i + 2, h => cases h
        | 1, h => cases h; rfl
    · cases h

/-- An expression statement is the expression itself. -/
theorem Statement.eq_of_expression {f g : Form} (h : Statement.ofForm f = .expression g) :
    f = g := by
  unfold Statement.ofForm at h
  split at h
  case h_1 | h_3 => cases h
  case h_2 => unfold ofAssignment at h; split at h <;> cases h
  case h_4 => unfold ofBranch at h; split at h <;> cases h
  case h_5 => unfold ofLoop at h; split at h <;> cases h
  case h_6 => unfold ofLet at h; split at h <;> cases h
  case h_7 | h_8 => unfold ofInput at h; split at h <;> cases h
  case h_9 => unfold ofReturn at h; split at h <;> cases h
  case h_10 => unfold ofTry at h; split at h <;> cases h
  case h_11 =>
    unfold ofThrow at h
    split at h
    · split_ifs at h
    · cases h
  case h_12 =>
    cases h
    rfl

theorem Local.getElem?_init {f g : Form} {l : Local} (h : Local.ofForm f = .ok l)
    (hinit : l.init = some g) : f.items[2]? = some g := by
  unfold Local.ofForm at h
  split at h <;> cases h
  · cases hinit
  · rw [← hinit]
    rfl

theorem Local.getElem?_items {f : Form} {i : Nat} {s : Site} (h : Local.part? f i = some s) :
    f.items[i]? = some s.form := by
  match i, h with
  | 0, h | 1, h | i + 3, h => cases h
  | 2, h =>
    obtain ⟨g, hg, rfl⟩ := Option.map_eq_some_iff.mp h
    obtain ⟨l, hl, hinit⟩ := Option.bind_eq_some_iff.mp hg
    cases hform : Local.ofForm f with
    | error e =>
      rw [hform] at hl
      cases hl
    | ok l' =>
      rw [hform] at hl
      cases hl
      exact Local.getElem?_init hform hinit

namespace Site

variable {s s' : Site} {i : Nat} {p q : List Nat}

theorem form_part? (h : s.part? i = some s') : s.form.items[i]? = some s'.form := by
  cases s with
  | statement f => exact Statement.getElem?_items h
  | expression f => exact Expression.getElem?_items h
  | locals decls => exact form_of_map (fun _ => rfl) h
  | declaration f => exact Local.getElem?_items h

/-- A position leads to the form that stands there. -/
theorem form_at? (h : s.at? p = some s') : s.form.at? p = some s'.form := by
  induction p generalizing s with
  | nil =>
    cases h
    rfl
  | cons i p ih =>
    obtain ⟨t, ht, h⟩ := Option.bind_eq_some_iff.mp h
    rw [Form.at?, form_part? ht]
    exact ih h

theorem at?_append (s : Site) (p q : List Nat) :
    s.at? (p ++ q) = (s.at? p).bind fun s' => s'.at? q := by
  induction p generalizing s with
  | nil => rfl
  | cons i p ih =>
    rw [List.cons_append, at?, at?, Option.bind_assoc]
    exact Option.bind_congr fun t _ => ih t

/- Handlers on the way. -/

theorem not_inHandler_nil (s : Site) : ¬ s.InHandler [] := by
  rintro ⟨q, rest, s', hp, -⟩
  simp at hp

theorem inHandler_cons : s.InHandler (i :: p) ↔
    i = 2 ∧ s.isTry = true ∨ ∃ t, s.part? i = some t ∧ t.InHandler p := by
  constructor
  · rintro ⟨q, rest, s', hp, hs', htry⟩
    cases q with
    | nil =>
      cases hp
      cases hs'
      exact .inl ⟨rfl, htry⟩
    | cons j q =>
      cases hp
      obtain ⟨t, ht, hs'⟩ := Option.bind_eq_some_iff.mp hs'
      exact .inr ⟨t, ht, q, rest, s', rfl, hs', htry⟩
  · rintro (⟨rfl, htry⟩ | ⟨t, ht, q, rest, s', rfl, hs', htry⟩)
    · exact ⟨[], p, s, rfl, rfl, htry⟩
    · exact ⟨i :: q, rest, s', rfl, Option.bind_eq_some_iff.mpr ⟨t, ht, hs'⟩, htry⟩

/-- The handlers on the way to a part of a part are those on the way to the first and those from
there on. -/
theorem inHandler_append (h : s.at? p = some s') :
    s.InHandler (p ++ q) ↔ s.InHandler p ∨ s'.InHandler q := by
  induction p generalizing s with
  | nil =>
    cases h
    simp [not_inHandler_nil]
  | cons i p ih =>
    obtain ⟨t, ht, h⟩ := Option.bind_eq_some_iff.mp h
    rw [List.cons_append, inHandler_cons, inHandler_cons]
    simp [ht, ih h, or_assoc]

theorem at?_single (s : Site) (i : Nat) : s.at? [i] = s.part? i := by
  cases h : s.part? i <;> simp [at?, h]

theorem not_inHandler_single (h : i = 2 → s.isTry = false) : ¬ s.InHandler [i] := by
  rw [inHandler_cons]
  rintro (⟨hi, htry⟩ | ⟨t, -, ht⟩)
  · rw [h hi] at htry
    cases htry
  · exact t.not_inHandler_nil ht

instance decidableInHandler (s : Site) : (p : List Nat) → Decidable (s.InHandler p)
  | [] => .isFalse s.not_inHandler_nil
  | i :: p =>
    match h : s.part? i with
    | none => decidable_of_iff (i = 2 ∧ s.isTry = true) (by simp [inHandler_cons, h])
    | some t =>
      have := decidableInHandler t p
      decidable_of_iff (i = 2 ∧ s.isTry = true ∨ t.InHandler p) (by simp [inHandler_cons, h])

/- Initial values stand in declarations, whatever their lists start with. -/

section

variable {f d g : Form} {before rest body : List Form} {l : Local}
  (hf : Statement.ofForm f = .bind (before ++ d :: rest) body)

include hf

theorem part?_locals : (statement f).part? 1 = some (locals (before ++ d :: rest)) := by
  simp [part?, hf, Statement.part?]

theorem at?_initializer (hd : Local.ofForm d = .ok l) (hi : l.init = some g) :
    (statement f).at? [1, before.length, 2] = some (expression g) := by
  have hdecl : (locals (before ++ d :: rest)).part? before.length = some (declaration d) := by
    simp [part?]
  have hinit : (declaration d).part? 2 = some (expression g) := by
    simp [part?, Local.part?, hd, hi, Except.toOption]
  rw [at?, part?_locals hf, Option.bind_some, at?, hdecl, Option.bind_some, at?_single, hinit]

theorem not_inHandler_initializer : ¬ (statement f).InHandler [1, before.length, 2] := by
  rw [inHandler_cons, part?_locals hf]
  rintro (⟨h, -⟩ | ⟨t, ht, h⟩)
  · cases h
  · cases ht
    obtain ⟨-, htry⟩ | ⟨t, ht, h⟩ := inHandler_cons.mp h
    · cases htry
    · obtain ⟨d, -, rfl⟩ := Option.map_eq_some_iff.mp ht
      exact not_inHandler_single (fun _ => rfl) h

end

end Site

instance (body : Form) (p : List Nat) : Decidable (body.InHandler p) :=
  inferInstanceAs (Decidable ((Site.statement body).InHandler p))

end ObjectLang
