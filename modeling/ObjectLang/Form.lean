/-!
Forms: atoms and lists of forms, the tree that every part of a program is written in.
-/

namespace ObjectLang

inductive Form where
  | atom (token : String)
  | list (items : List Form)

namespace Form

mutual

/-- Puts the written form in front of `rest`: the items of a list stand between parentheses, one
space apart. -/
def write : Form → List Char → List Char
  | .atom token, rest => token.toList ++ rest
  | .list items, rest => '(' :: writeItems items (')' :: rest)

def writeItems : List Form → List Char → List Char
  | [], rest => rest
  | [f], rest => write f rest
  | f :: g :: fs, rest => write f (' ' :: writeItems (g :: fs) rest)

end

def render (f : Form) : String := String.ofList (f.write [])

def asAtom? : Form → Option String
  | .atom token => some token
  | .list _ => none

def asList? : Form → Option (List Form)
  | .atom _ => none
  | .list items => some items

def head? : Form → Option String
  | .list (.atom token :: _) => some token
  | _ => none

def isAtom (f : Form) (token : String) : Bool := f.asAtom? == some token

mutual

def mapAtoms (f : String → String) : Form → Form
  | .atom token => .atom (f token)
  | .list items => .list (mapAtomsOf f items)

def mapAtomsOf (f : String → String) : List Form → List Form
  | [] => []
  | x :: xs => mapAtoms f x :: mapAtomsOf f xs

end

mutual

def atoms : Form → List String
  | .atom token => [token]
  | .list items => atomsOf items

def atomsOf : List Form → List String
  | [] => []
  | x :: xs => atoms x ++ atomsOf xs

end

end Form

end ObjectLang
