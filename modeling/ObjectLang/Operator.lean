/-!
The binary operators and their symbols.
-/

namespace ObjectLang

inductive Operator where
  | add | sub | mul | div | mod
  | eq | ne | lt | le | gt | ge
  | and | or
  deriving DecidableEq

namespace Operator

def all : List Operator := [add, sub, mul, div, mod, eq, ne, lt, le, gt, ge, and, or]

def symbol : Operator → String
  | add => "+"
  | sub => "-"
  | mul => "*"
  | div => "/"
  | mod => "%"
  | eq => "=="
  | ne => "!="
  | lt => "<"
  | le => "<="
  | gt => ">"
  | ge => ">="
  | and => "&"
  | or => "|"

def ofSymbol? (token : String) : Option Operator := all.find? fun op => op.symbol == token

def isEquality (op : Operator) : Bool := op == eq || op == ne

end Operator

end ObjectLang
