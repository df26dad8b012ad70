import ObjectLang.Error
import ObjectLang.Value

/-!
Variables and frames. A variable has a value under a declared type: a class type takes null and
every instance of the class, any other type the values of exactly that type. A frame has the
variables of one scope by name, and says what the scope is for.
-/

namespace ObjectLang

def TypeTag.admits (declared : TypeTag) : Value → Bool
  | .null _ => declared.isClass
  | .object v => v.isInstanceOf declared
  | v => v.runtimeType == declared

structure Variable where
  declared : TypeTag
  value : Value

namespace Variable

def zeroed (declared : TypeTag) : Variable := ⟨declared, Value.zero declared⟩

/-- Replaces the value if the declared type admits the new one; a null takes the declared type as
its tag. -/
def assign (x : Variable) (v : Value) : Except Error Variable :=
  if x.declared.admits v then .ok { x with value := v.retag x.declared }
  else .error (.assignmentMismatch x.declared v.runtimeType)

def create (declared : TypeTag) (v : Value) : Except Error Variable := (zeroed declared).assign v

end Variable

def exceptionName : String := "exception"

inductive FrameRole where
  /-- The fields that a class declares, of one object. -/
  | fields (cls : Class)
  | arguments
  | locals
  /-- The message of the exception raised in a method or `try`. -/
  | exception

structure Frame where
  role : FrameRole
  bindings : List (String × Variable)

namespace Frame

def empty (role : FrameRole) : Frame := ⟨role, []⟩

def get? (f : Frame) (name : String) : Option Variable := f.bindings.lookup name

def binds (f : Frame) (name : String) : Bool := (f.get? name).isSome

def define? (f : Frame) (name : String) (x : Variable) : Option Frame :=
  if f.binds name then none else some { f with bindings := f.bindings ++ [(name, x)] }

def replace (name : String) (x : Variable) : List (String × Variable) → List (String × Variable)
  | [] => []
  | (n, y) :: rest => if n == name then (n, x) :: rest else (n, y) :: replace name x rest

def set (f : Frame) (name : String) (x : Variable) : Frame :=
  { f with bindings := replace name x f.bindings }

theorem lookup_replace_self (name : String) (x : Variable) (l : List (String × Variable)) :
    (replace name x l).lookup name = (l.lookup name).map fun _ => x := by
  induction l with
  | nil => rfl
  | cons b l ih =>
    obtain ⟨n, y⟩ := b
    by_cases h : n = name
    · subst h; simp [replace]
    · have h' : (name == n) = false := by simpa using Ne.symm h
      simp [replace, List.lookup_cons, h, h', ih]

theorem lookup_replace_of_ne {name other : String} (h : other ≠ name) (x : Variable)
    (l : List (String × Variable)) : (replace name x l).lookup other = l.lookup other := by
  induction l with
  | nil => rfl
  | cons b l ih =>
    obtain ⟨n, y⟩ := b
    by_cases hn : n = name
    · subst hn
      have h' : (other == n) = false := by simpa using h
      simp [replace, List.lookup_cons, h']
    · simp [replace, List.lookup_cons, hn, ih]

theorem get?_set_self (f : Frame) (name : String) (x : Variable) :
    (f.set name x).get? name = (f.get? name).map fun _ => x :=
  lookup_replace_self name x f.bindings

theorem get?_set_of_ne (f : Frame) {name other : String} (h : other ≠ name) (x : Variable) :
    (f.set name x).get? other = f.get? other :=
  lookup_replace_of_ne h x f.bindings

def forException : Frame := ⟨.exception, [(exceptionName, Variable.zeroed .string)]⟩

end Frame

def Field.variable (f : Field) : Except Error Variable :=
  match f.init with
  | some literal => Variable.create f.type (Value.ofLiteral literal)
  | none => .ok (Variable.zeroed f.type)

def Field.bindings (fields : List Field) : Except Error (List (String × Variable)) :=
  fields.mapM fun f => f.variable.map fun x => (f.name, x)

def Class.fieldFrame (c : Class) : Except Error Frame :=
  (Field.bindings c.own.fields).map fun bindings => ⟨.fields c, bindings⟩

/-- The field frames of a class under its ancestors. The frames of the ancestors come first, and
so do their errors. -/
def Class.fieldFramesFrom (own : ClassBody) : List ClassBody → Except Error (List Frame)
  | [] => (fieldFrame ⟨own, []⟩).map fun f => [f]
  | p :: ps =>
    (fieldFramesFrom p ps).bind fun fs =>
      (fieldFrame ⟨own, p :: ps⟩).map fun f => fs ++ [f]

def Class.fieldFrames (c : Class) : Except Error (List Frame) := fieldFramesFrom c.own c.ancestors

end ObjectLang
