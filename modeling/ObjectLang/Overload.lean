import ObjectLang.Registry
import ObjectLang.View

/-!
Overload resolution. The nearest class on the receiver's line with a compatible method wins;
among its methods the least total score does, and of equal scores the first declared.
-/

namespace ObjectLang

namespace Registry

def classAccepts (r : Registry) (cls t : TypeTag) : Bool :=
  match cls.className?.bind r.find? with
  | some c => c.accepts t
  | none => false

def upcast? (r : Registry) (param : String) (argument : TypeTag) : Option Nat :=
  (argument.className?.bind r.find?).bind fun c => c.distanceTo? param

/-- The score of a pairing that is neither exact nor an upcast. -/
def looseScore : Nat := 1024

def paramScore? (r : Registry) (param argument : TypeTag) : Option Nat :=
  if param = argument then some 0
  else
    match param.className? with
    | none => none
    | some name =>
      match r.upcast? name argument with
      | some distance => some distance
      | none => if r.classAccepts param argument then some looseScore else none

def signatureScore? (r : Registry) : List TypeTag → List TypeTag → Option Nat
  | [], [] => some 0
  | p :: ps, a :: as => do return (← r.paramScore? p a) + (← r.signatureScore? ps as)
  | _, _ => none

end Registry

/-- The first of the candidates with the least score. -/
def leastScored : List (Nat × Method) → Option (Nat × Method)
  | [] => none
  | x :: xs =>
    match leastScored xs with
    | some y => if y.1 < x.1 then some y else some x
    | none => some x

namespace Registry

def candidates (r : Registry) (b : ClassBody) (name : String) (arguments : List TypeTag) :
    List (Nat × Method) :=
  (b.methodsNamed name).filterMap fun m =>
    (r.signatureScore? m.signature arguments).map fun score => (score, m)

def bestMethod? (r : Registry) (b : ClassBody) (name : String) (arguments : List TypeTag) :
    Option Method :=
  (leastScored (r.candidates b name arguments)).map Prod.snd

/-- The method that a call on this view runs, and the view at the level that declares it. -/
def selectMethod? (r : Registry) (receiver : View) (name : String) (arguments : List TypeTag) :
    Option (View × Method) :=
  receiver.upward.findSome? fun v =>
    (r.bestMethod? v.cls.own name arguments).map fun m => (v, m)

end Registry

end ObjectLang
