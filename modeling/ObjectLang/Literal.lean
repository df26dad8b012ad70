import ObjectLang.Decimal

/-!
Literal tokens: strings between quotes, `true`, `false`, `null` and numbers. A number with a
fraction or an exponent stands for the integer part of the nearest binary64 number, saturated to
a word.
-/

namespace ObjectLang

inductive Literal where
  | int (n : Int64)
  | bool (b : Bool)
  | string (text : String)
  | null

namespace Literal

def unquote? : List Char → Option (List Char)
  | '"' :: cs => if cs.getLast? = some '"' then some cs.dropLast else none
  | _ => none

/-- Starts like a number: with a digit, or with a sign or point followed by a digit or point. -/
def looksNumeric : List Char → Bool
  | [] => false
  | [c] => c.isDigit
  | c :: d :: _ => c.isDigit || ((c == '-' || c == '+' || c == '.') && (d.isDigit || d == '.'))

def number? (cs : List Char) : Option Int64 :=
  if looksNumeric cs then
    match Decimal.word? cs with
    | some n => some n
    | none => ((Decimal.Scientific.ofChars? cs).bind (·.truncate?)).map Integer.saturate
  else none

def ofChars? (cs : List Char) : Option Literal :=
  match unquote? cs with
  | some text => some (.string (String.ofList text))
  | none =>
    if cs = "true".toList then some (.bool true)
    else if cs = "false".toList then some (.bool false)
    else if cs = "null".toList then some .null
    else (number? cs).map .int

def ofToken? (token : String) : Option Literal := ofChars? token.toList

end Literal

end ObjectLang
