import ObjectLang.Registry

/-!
Loading: the classes and templates of a program are registered in order, then every type that a
declared class names is resolved.
-/

namespace ObjectLang.Registry

def checkName (r : Registry) (name : String) : Except Error Unit :=
  if TypeTag.isPrimitiveName name then .error (.primitiveClassName name)
  else if (r.find? name).isSome || (r.template? name).isSome then .error (.duplicateClass name)
  else .ok ()

def addClass (r : Registry) (name : String) (ancestors : List ClassBody) (decls : List Form) :
    Except Error Registry :=
  (ClassBody.ofForms name decls).map fun body => r.insert ⟨body, ancestors⟩

/-- What follows a class's name: the declarations, after the parent if the class has one. -/
def addHeir (r : Registry) (name : String) : List Form → Except Error Registry
  | .atom "inherits" :: rest =>
    match rest with
    | .atom parent :: decls =>
      match r.find? parent with
      | some p => r.addClass name p.line decls
      | none => .error (.unknownParent name parent)
    | _ => .error (.malformed .classDecl)
  | decls => r.addClass name [] decls

def declareClass (r : Registry) : Form → Except Error Registry
  | .list (_ :: .atom name :: rest) => (r.checkName name).bind fun _ => r.addHeir name rest
  | _ => .error (.malformed .classDecl)

def declareTemplate (r : Registry) : Form → Except Error Registry
  | .list (_ :: .atom name :: .list formals :: decls) =>
    (r.checkName name).bind fun _ =>
      match formals.mapM Form.asAtom? with
      | some formals => .ok { r with templates := r.templates ++ [⟨name, formals, decls⟩] }
      | none => .error (.malformed .template)
  | _ => .error (.malformed .template)

def declare (r : Registry) (f : Form) : Except Error Registry :=
  match f.head? with
  | some "class" => r.declareClass f
  | some "tclass" => r.declareTemplate f
  | _ => .error (.unknownForm f.render)

def declareAll (forms : List Form) : Except Error Registry := forms.foldlM declare empty

def resolveMembers (classes : List Class) : Build Unit :=
  Build.resolveEach resolveType (classes.flatMap fun c => c.own.referencedTypes)

def load (forms : List Form) : Except Stop Registry :=
  match declareAll forms with
  | .error e => .error (.failed e)
  | .ok r =>
    match resolveMembers r.classes r with
    | .ok _ r => .ok r
    | .error e _ => .error e

end ObjectLang.Registry
