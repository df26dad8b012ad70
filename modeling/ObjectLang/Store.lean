import ObjectLang.Frame

/-!
The store of frames, and scope stacks over it: a name means its variable in the nearest frame that
binds it.
-/

namespace ObjectLang

/-- A frame keeps its place for good, so that objects and scope stacks can share it. -/
structure Store where
  frames : Array Frame

/-- The places of the frames in scope, the nearest first. -/
abbrev Scopes := List FrameId

inductive AssignError where
  | undefined
  | rejected (error : Error)
  deriving DecidableEq

namespace Store

def empty : Store := ⟨#[]⟩

def next (s : Store) : FrameId := s.frames.size

def push (s : Store) (f : Frame) : Store := ⟨s.frames.push f⟩

def pushAll (s : Store) (fs : List Frame) : Store := fs.foldl push s

def frame? (s : Store) (id : FrameId) : Option Frame := s.frames[id]?

def get? (s : Store) (id : FrameId) (name : String) : Option Variable :=
  (s.frame? id).bind fun f => f.get? name

def set (s : Store) (id : FrameId) (name : String) (x : Variable) : Store :=
  ⟨s.frames.modify id fun f => f.set name x⟩

def define? (s : Store) (id : FrameId) (name : String) (x : Variable) : Option Store :=
  ((s.frame? id).bind fun f => f.define? name x).map fun f => ⟨s.frames.modify id fun _ => f⟩

@[simp] theorem frame?_push_next (s : Store) (f : Frame) : (s.push f).frame? s.next = some f := by
  simp [push, frame?, next]

theorem frame?_push_of_lt (s : Store) (f : Frame) {id : FrameId} (h : id < s.next) :
    (s.push f).frame? id = s.frame? id := by
  have hne : id ≠ s.frames.size := Nat.ne_of_lt h
  simp [push, frame?, Array.getElem?_push, hne]

@[simp] theorem frame?_set_self (s : Store) (id : FrameId) (name : String) (x : Variable) :
    (s.set id name x).frame? id = (s.frame? id).map fun f => f.set name x := by
  simp [set, frame?, Array.getElem?_modify]

theorem frame?_set_of_ne (s : Store) {id other : FrameId} (h : other ≠ id) (name : String)
    (x : Variable) : (s.set id name x).frame? other = s.frame? other := by
  simp [set, frame?, Array.getElem?_modify, Ne.symm h]

def lookup (s : Store) (scopes : Scopes) (name : String) : Option Variable :=
  scopes.findSome? fun id => s.get? id name

def contains (s : Store) (scopes : Scopes) (name : String) : Bool :=
  scopes.any fun id => (s.get? id name).isSome

def assignment (s : Store) (name : String) (v : Value) :
    Scopes → Except AssignError (FrameId × Variable)
  | [] => .error .undefined
  | id :: rest =>
    match s.get? id name with
    | none => s.assignment name v rest
    | some x =>
      match x.assign v with
      | .ok y => .ok (id, y)
      | .error e => .error (.rejected e)

def assign (s : Store) (scopes : Scopes) (name : String) (v : Value) : Except AssignError Store :=
  (s.assignment name v scopes).map fun (id, x) => s.set id name x

def fieldsOf (s : Store) (v : View) : List (String × Variable) :=
  v.cls.own.fields.filterMap fun f => (s.get? v.frame f.name).map fun x => (f.name, x)

def create (s : Store) (c : Class) : Except Error (View × Store) :=
  c.fieldFrames.map fun fs => (⟨s.next, c, []⟩, s.pushAll fs)

end Store

end ObjectLang
