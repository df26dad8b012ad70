import ObjectLang.Expression
import ObjectLang.Registry.Load
import ObjectLang.Statement

/-!
Forms read by the places of their items. To take the items from a place on fails when the list ends
before that place. No reading of a form does so, whatever its shape: the items found before it make
the list long enough.
-/

namespace ObjectLang

def itemsFrom? {α : Type} (items : List α) (place : Nat) : Option (List α) :=
  if place ≤ items.length then some (items.drop place) else none

section

variable {α : Type}

@[simp] theorem itemsFrom?_zero (items : List α) : itemsFrom? items 0 = some items := by
  simp [itemsFrom?]

@[simp] theorem itemsFrom?_succ (x : α) (items : List α) (place : Nat) :
    itemsFrom? (x :: items) (place + 1) = itemsFrom? items place := by
  simp [itemsFrom?]

end

def Form.items (f : Form) : List Form := f.asList?.getD []

namespace Registry

def readHeir? (r : Registry) (name : String) (items : List Form) :
    Option (Except Error Registry) :=
  match items[2]? with
  | some node =>
    if node.isAtom "inherits" then
      match items[3]?.bind Form.asAtom? with
      | some parent =>
        match r.find? parent with
        | some p => (itemsFrom? items 4).map (r.addClass name p.line)
        | none => some (.error (.unknownParent name parent))
      | none => some (.error (.malformed .classDecl))
    else (itemsFrom? items 2).map (r.addClass name [])
  | none => (itemsFrom? items 2).map (r.addClass name [])

def readClass? (r : Registry) (f : Form) : Option (Except Error Registry) :=
  match f.items[1]?.bind Form.asAtom? with
  | some name =>
    match r.checkName name with
    | .ok _ => r.readHeir? name f.items
    | .error e => some (.error e)
  | none => some (.error (.malformed .classDecl))

def readTemplate? (r : Registry) (f : Form) : Option (Except Error Registry) :=
  match f.items[1]?.bind Form.asAtom?, f.items[2]?.bind Form.asList? with
  | some name, some formals =>
    match r.checkName name with
    | .ok _ =>
      match formals.mapM Form.asAtom? with
      | some formals => (itemsFrom? f.items 3).map fun decls =>
          .ok { r with templates := r.templates ++ [⟨name, formals, decls⟩] }
      | none => some (.error (.malformed .template))
    | .error e => some (.error e)
  | _, _ => some (.error (.malformed .template))

theorem readHeir?_eq (r : Registry) (name : String) (head second : Form) (rest : List Form) :
    r.readHeir? name (head :: second :: rest) = some (r.addHeir name rest) := by
  unfold readHeir? addHeir
  cases rest with
  | nil => rfl
  | cons node rest =>
    cases node with
    | list items => rfl
    | atom token =>
      by_cases ht : token = "inherits"
      · subst ht
        cases rest with
        | nil => rfl
        | cons parent decls =>
          cases parent with
          | list items => rfl
          | atom parent =>
            cases hp : r.find? parent <;> simp [Form.isAtom, Form.asAtom?, hp]
      · simp [Form.isAtom, Form.asAtom?, ht]

theorem readClass?_eq (r : Registry) (f : Form) : r.readClass? f = some (r.declareClass f) := by
  unfold readClass? declareClass
  match f with
  | .atom token => rfl
  | .list [] | .list [_] => rfl
  | .list (_ :: .list _ :: _) => rfl
  | .list (head :: .atom name :: rest) =>
    cases hn : r.checkName name with
    | error e => simp [Form.items, Form.asList?, Form.asAtom?, hn, Except.bind]
    | ok u =>
      have hheir := r.readHeir?_eq name head (.atom name) rest
      simpa [Form.items, Form.asList?, Form.asAtom?, hn, Except.bind] using hheir

theorem readTemplate?_eq (r : Registry) (f : Form) :
    r.readTemplate? f = some (r.declareTemplate f) := by
  unfold readTemplate? declareTemplate
  match f with
  | .atom token => rfl
  | .list [] | .list [_] => rfl
  | .list [_, .atom _] => rfl
  | .list (_ :: .list _ :: rest) => rfl
  | .list (_ :: .atom _ :: .atom _ :: _) => rfl
  | .list (head :: .atom name :: .list formals :: decls) =>
    cases hn : r.checkName name with
    | error e => simp [Form.items, Form.asList?, Form.asAtom?, hn, Except.bind]
    | ok u =>
      cases hf : formals.mapM Form.asAtom? <;>
        simp [Form.items, Form.asList?, Form.asAtom?, hn, hf, Except.bind]

end Registry

/-- A form with a head is a list that starts with it. -/
theorem Form.eq_of_head? {f : Form} {head : String} {items : List Form} (hhead : f.head? = some head)
    (hitems : f.asList? = some items) :
    ∃ rest, items = .atom head :: rest ∧ f = .list (.atom head :: rest) := by
  match f with
  | .atom _ | .list [] | .list (.list _ :: _) => cases hhead
  | .list (.atom _ :: rest) =>
    cases hhead
    cases hitems
    exact ⟨rest, rfl, rfl⟩

namespace Expression

def readCall? (items : List Form) : Option Expression :=
  match items[1]?, items[2]?.bind Form.asAtom? with
  | some target, some method => (itemsFrom? items 3).map (call (targetOf target) method)
  | _, _ => some (invalid (.malformed .call))

def read? (f : Form) : Option Expression :=
  match f.head?, f.asList? with
  | some "call", some items => readCall? items
  | _, _ => some (ofForm f)

theorem readCall?_eq (operands : List Form) :
    readCall? (.atom "call" :: operands) = some (ofList "call" operands) := by
  match operands with
  | [] | [_] | _ :: .list _ :: _ => rfl
  | target :: .atom method :: args => simp [readCall?, ofList, Form.asAtom?]

theorem read?_eq (f : Form) : read? f = some (ofForm f) := by
  unfold read?
  split
  · rename_i items hhead hitems
    obtain ⟨operands, rfl, rfl⟩ := Form.eq_of_head? hhead hitems
    exact readCall?_eq operands
  · rfl

end Expression

namespace Statement

def readLet? (items : List Form) : Option Statement :=
  match items[1]?.bind Form.asList? with
  | some locals => (itemsFrom? items 2).map (bind locals)
  | none => some (invalid (.malformed .locals))

def read? (f : Form) : Option Statement :=
  match f.head?, f.asList? with
  | some "print", some items => (itemsFrom? items 1).map print
  | some "begin", some items => (itemsFrom? items 1).map block
  | some "let", some items => readLet? items
  | _, _ => some (ofForm f)

theorem readLet?_eq (head : Form) (operands : List Form) :
    readLet? (head :: operands) = some (ofLet operands) := by
  match operands with
  | [] | .atom _ :: _ => rfl
  | .list locals :: body => simp [readLet?, ofLet, Form.asList?]

theorem read?_eq (f : Form) : read? f = some (ofForm f) := by
  unfold read?
  split
  · rename_i items hhead hitems
    obtain ⟨operands, rfl, rfl⟩ := Form.eq_of_head? hhead hitems
    simp [ofForm]
  · rename_i items hhead hitems
    obtain ⟨operands, rfl, rfl⟩ := Form.eq_of_head? hhead hitems
    simp [ofForm]
  · rename_i items hhead hitems
    obtain ⟨operands, rfl, rfl⟩ := Form.eq_of_head? hhead hitems
    exact readLet?_eq _ operands
  · rfl

end Statement

end ObjectLang
