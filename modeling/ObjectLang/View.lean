import ObjectLang.Class

/-!
Objects and their views. An object has one frame of fields for each class on its line, base class
first and in consecutive places of the store. A view looks at the object as an instance of one of
these classes and remembers the classes further derived.
-/

namespace ObjectLang

abbrev FrameId := Nat

/-- An object seen as an instance of `cls`; `derived` holds the classes below, the nearest first. -/
structure View where
  base : FrameId
  cls : Class
  derived : List ClassBody

namespace View

def level (v : View) : Nat := v.cls.depth

def frame (v : View) : FrameId := v.base + v.level

def parent? (v : View) : Option View :=
  v.cls.parent?.map fun p => { v with cls := p, derived := v.cls.own :: v.derived }

def descend (base : FrameId) : Class → List ClassBody → View
  | c, [] => ⟨base, c, []⟩
  | c, d :: ds => descend base ⟨d, c.line⟩ ds

def mostDerived (v : View) : View := descend v.base v.cls v.derived

def upwardFrom (base : FrameId) (own : ClassBody) (derived : List ClassBody) :
    List ClassBody → List View
  | [] => [⟨base, ⟨own, []⟩, derived⟩]
  | p :: ps => ⟨base, ⟨own, p :: ps⟩, derived⟩ :: upwardFrom base p (own :: derived) ps

def upward (v : View) : List View := upwardFrom v.base v.cls.own v.derived v.cls.ancestors

def atLevel? (v : View) (level : Nat) : Option View :=
  v.mostDerived.upward.find? fun w => w.level == level

def isInstanceOf (v : View) (t : TypeTag) : Bool := v.cls.accepts t

def same (v w : View) : Bool := v.base == w.base && v.level == w.level

end View

end ObjectLang
