import ObjectLang.CompositeName
import ObjectLang.Error
import ObjectLang.Form

/-!
Templates: class bodies with type parameters. Expansion puts the arguments in place of the
parameters everywhere at once, in whole atoms and in the argument parts of composite names, but
never inside a string.
-/

namespace ObjectLang

/-- What each type parameter stands for. Of two bindings of one parameter the later one counts. -/
abbrev Substitution := List (String × String)

namespace Substitution

def ofLists (formals args : List String) : Substitution := (formals.zip args).reverse

def part (s : Substitution) (name : String) : String := (s.lookup name).getD name

def token (s : Substitution) (token : String) : String :=
  if token.toList.head? = some '"' then token
  else
    match s.lookup token with
    | some arg => arg
    | none =>
      match CompositeName.split? token with
      | some (template, args) => CompositeName.join template (args.map s.part)
      | none => token

end Substitution

structure Template where
  name : String
  formals : List String
  decls : List Form

namespace Template

def expand (t : Template) (args : List String) : Except Error (List Form) :=
  if args.length = t.formals.length then
    .ok (t.decls.map (Form.mapAtoms (Substitution.ofLists t.formals args).token))
  else .error (.templateArity t.name t.formals.length args.length)

def parts (t : Template) : List String :=
  t.decls.flatMap fun f => f.atoms.flatMap CompositeName.parts

end Template

end ObjectLang
