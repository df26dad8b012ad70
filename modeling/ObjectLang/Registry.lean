import ObjectLang.Class.Declaration
import ObjectLang.Template

/-!
The registry of classes and templates. A composite name is resolved by instantiating its
template; the new class is registered before the types that it names are resolved, so that it may
name itself.
-/

namespace ObjectLang

/-- Classes stand in the order of their registration. -/
structure Registry where
  classes : List Class
  templates : List Template

/-- Computations that add to a registry, also when they fail. -/
abbrev Build := EStateM Stop Registry

namespace Registry

def empty : Registry := ⟨[], []⟩

def find? (r : Registry) (name : String) : Option Class := r.classes.find? fun c => c.name == name

def template? (r : Registry) (name : String) : Option Template :=
  r.templates.find? fun t => t.name == name

def insert (r : Registry) (c : Class) : Registry := { r with classes := r.classes ++ [c] }

end Registry

namespace Build

def fail (e : Error) : Build α := throw (.failed e)

def ofExcept : Except Error α → Build α
  | .ok a => pure a
  | .error e => fail e

def resolveEach (resolve : TypeTag → Build Unit) : List TypeTag → Build Unit
  | [] => pure ()
  | t :: ts => do
    resolve t
    resolveEach resolve ts

def ofType (resolve : String → Build Class) : TypeTag → Build Unit
  | .ofClass name => do
    let _ ← resolve name
  | _ => pure ()

/-- Expands a template for its arguments, and registers the class before resolving its types. -/
def instantiate (resolve : String → Build Class) (template : String) (args : List String) :
    Build Class := do
  match (← get).template? template with
  | none => fail (.unknownClass template)
  | some t =>
    let decls ← ofExcept (t.expand args)
    resolveEach (ofType resolve) (args.map TypeTag.ofName)
    let body ← ofExcept (ClassBody.ofForms (CompositeName.join template args) decls)
    modify fun r => r.insert ⟨body, []⟩
    resolveEach (ofType resolve) body.referencedTypes
    return ⟨body, []⟩

def resolve : Nat → String → Build Class
  | 0, _ => throw .outOfFuel
  | fuel + 1, name => do
    match (← get).find? name with
    | some c => return c
    | none =>
      match CompositeName.split? name with
      | some (template, args) => instantiate (resolve fuel) template args
      | none => fail (.unknownClass name)

end Build

namespace Registry

/-- A bound on the nesting of instantiations: every composite name that resolving `name` can reach
joins a template with as many parts as it has parameters, drawn from those of `name` and of the
templates. -/
def resolutionBound (r : Registry) (name : String) : Nat :=
  let parts := (CompositeName.parts name ++ r.templates.flatMap Template.parts).length
  r.templates.foldr (fun t n => Nat.pow parts t.formals.length + n) 2

def resolve (name : String) : Build Class := do
  match (← get).find? name with
  | some c => return c
  | none => Build.resolve ((← get).resolutionBound name) name

def resolveType : TypeTag → Build Unit := Build.ofType resolve

end Registry

end ObjectLang
