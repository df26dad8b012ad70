import ObjectLang.Form
import ObjectLang.Text

/-!
Reading forms from text, one character at a time. Blanks separate atoms, `#` starts a comment that
runs to the end of its line, and a string runs to the next quote and keeps both quotes.
-/

namespace ObjectLang

inductive ReadError where
  | unclosedList (line : Nat)
  | unexpectedClose (line : Nat)
  | unterminatedString (line : Nat)
  deriving DecidableEq

namespace ReadError

def message : ReadError → String
  | .unclosedList line => s!"line {line}: `(` is never closed"
  | .unexpectedClose line => s!"line {line}: unexpected `)`"
  | .unterminatedString line => s!"line {line}: unterminated string literal"

end ReadError

/-- A list whose closing parenthesis is still to come: the line it was opened on and its items so
far, the last one first. -/
structure OpenList where
  line : Nat
  items : List Form

namespace Reader

/-- What the next character belongs to. Characters read so far stand last first. -/
inductive Mode where
  | between
  | comment
  | atom (read : List Char)
  | string (line : Nat) (read : List Char)

end Reader

/-- The state between two characters. Open lists stand innermost first, finished top-level forms
last first. -/
structure Reader where
  line : Nat
  mode : Reader.Mode
  opened : List OpenList
  done : List Form

namespace Reader

def start : Reader := ⟨1, .between, [], []⟩

def add (r : Reader) (f : Form) : Reader :=
  match r.opened with
  | [] => { r with done := f :: r.done }
  | l :: ls => { r with opened := { l with items := f :: l.items } :: ls }

def close (r : Reader) : Except ReadError Reader :=
  match r.opened with
  | [] => .error (.unexpectedClose r.line)
  | l :: ls => .ok (add { r with opened := ls } (.list l.items.reverse))

def token (read : List Char) : Form := .atom (String.ofList read.reverse)

/-- A character that belongs to no atom, comment or string begun before it. -/
def lead (r : Reader) (c : Char) : Except ReadError Reader :=
  if c = '\n' then .ok { r with line := r.line + 1 }
  else if c = '#' then .ok { r with mode := .comment }
  else if Text.isBlank c then .ok r
  else if c = '(' then .ok { r with opened := ⟨r.line, []⟩ :: r.opened }
  else if c = ')' then r.close
  else if c = '"' then .ok { r with mode := .string r.line [c] }
  else .ok { r with mode := .atom [c] }

def endsAtom (c : Char) : Bool :=
  Text.isBlank c || c == '(' || c == ')' || c == '"' || c == '#'

def step (r : Reader) (c : Char) : Except ReadError Reader :=
  match r.mode with
  | .between => r.lead c
  | .comment =>
    if c = '\n' then lead { r with mode := .between } c else .ok r
  | .atom read =>
    if endsAtom c then lead (add { r with mode := .between } (token read)) c
    else .ok { r with mode := .atom (c :: read) }
  | .string line read =>
    if c = '"' then .ok (add { r with mode := .between } (token (c :: read)))
    else
      .ok { r with
        line := if c = '\n' then r.line + 1 else r.line
        mode := .string line (c :: read) }

/-- The finished forms, unless a list is still open: then the outermost one is to blame. -/
def finishLists (r : Reader) : Except ReadError (List Form) :=
  match r.opened.getLast? with
  | some outermost => .error (.unclosedList outermost.line)
  | none => .ok r.done.reverse

def finish (r : Reader) : Except ReadError (List Form) :=
  match r.mode with
  | .string line _ => .error (.unterminatedString line)
  | .atom read => finishLists (add r (token read))
  | .between | .comment => finishLists r

end Reader

def Form.parse (source : String) : Except ReadError (List Form) :=
  (source.toList.foldlM Reader.step Reader.start).bind Reader.finish

end ObjectLang
