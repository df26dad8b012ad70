import ObjectLang.Proofs.Expansion
import ObjectLang.Registry.Load

/-!
Schedules: the orders in which the declared classes, and the types that a class names, may be
resolved. The registry follows the order of declaration, which is one of them. Under any schedule,
resolving a name that is not registered yet registers what it stands for and then resolves the types
that this class names.
-/

namespace ObjectLang

open CompositeName

/-- The order in which loading takes the declared classes, and the order in which the types that a
class names are resolved, at each state of the registry. -/
structure Schedule where
  classes : List Class → List Class
  types : Registry → ClassBody → List TypeTag
  classes_perm : ∀ cs, (classes cs).Perm cs
  types_perm : ∀ r b, (types r b).Perm b.referencedTypes

namespace Schedule

def inOrder : Schedule := ⟨id, fun _ b => b.referencedTypes, fun _ => .refl _, fun _ _ => .refl _⟩

def backwards : Schedule :=
  ⟨List.reverse, fun _ b => b.referencedTypes.reverse, List.reverse_perm,
    fun _ b => List.reverse_perm b.referencedTypes⟩

def instantiate (s : Schedule) (resolve : String → Build Class) (template : String)
    (args : List String) : Build Class := do
  match (← get).template? template with
  | none => Build.fail (.unknownClass template)
  | some t =>
    let decls ← Build.ofExcept (t.expand args)
    Build.resolveEach (Build.ofType resolve) (args.map TypeTag.ofName)
    let body ← Build.ofExcept (ClassBody.ofForms (join template args) decls)
    modify fun r => r.insert ⟨body, []⟩
    Build.resolveEach (Build.ofType resolve) (s.types (← get) body)
    return ⟨body, []⟩

def build (s : Schedule) : Nat → String → Build Class
  | 0, _ => throw .outOfFuel
  | fuel + 1, name => do
    match (← get).find? name with
    | some c => return c
    | none =>
      match split? name with
      | some (template, args) => s.instantiate (s.build fuel) template args
      | none => Build.fail (.unknownClass name)

def resolve (s : Schedule) (name : String) : Build Class := do
  match (← get).find? name with
  | some c => return c
  | none => s.build ((← get).resolutionBound name) name

def resolveType (s : Schedule) : TypeTag → Build Unit := Build.ofType s.resolve

def resolveMembers (s : Schedule) : List Class → Build Unit
  | [] => pure ()
  | c :: cs => do
    Build.resolveEach s.resolveType (s.types (← get) c.own)
    s.resolveMembers cs

def load (s : Schedule) (forms : List Form) : Except Stop Registry :=
  match Registry.declareAll forms with
  | .error e => .error (.failed e)
  | .ok r =>
    match s.resolveMembers (s.classes r.classes) r with
    | .ok _ r => .ok r
    | .error e _ => .error e

/- The order of declaration. -/

theorem build_inOrder (fuel : Nat) : inOrder.build fuel = Build.resolve fuel := by
  induction fuel with
  | zero => rfl
  | succ fuel ih =>
    funext name
    unfold build Build.resolve
    rw [ih]
    rfl

theorem resolve_inOrder : inOrder.resolve = Registry.resolve := by
  have hbuild : inOrder.build = Build.resolve := funext build_inOrder
  funext name
  unfold resolve
  rw [hbuild]
  rfl

theorem resolveType_inOrder : inOrder.resolveType = Registry.resolveType :=
  congrArg Build.ofType resolve_inOrder

theorem resolveEach_append (resolve : TypeTag → Build Unit) (ts us : List TypeTag) :
    Build.resolveEach resolve (ts ++ us) =
      (do Build.resolveEach resolve ts; Build.resolveEach resolve us) := by
  induction ts with
  | nil => rfl
  | cons t ts ih =>
    simp only [List.cons_append, Build.resolveEach, ih, bind_assoc]

theorem resolveMembers_inOrder (classes : List Class) :
    inOrder.resolveMembers classes = Registry.resolveMembers classes := by
  induction classes with
  | nil => rfl
  | cons c cs ih =>
    unfold Registry.resolveMembers at ih ⊢
    rw [List.flatMap_cons, resolveEach_append, ← ih, ← resolveType_inOrder]
    rfl

theorem load_inOrder (forms : List Form) : inOrder.load forms = Registry.load forms := by
  unfold load Registry.load
  simp only [resolveMembers_inOrder]
  rfl

/- One level of resolution. -/

/-- A registered class is given as it is. Any other is expanded and registered, and then the types
that it names are resolved. -/
def level (s : Schedule) (resolve : String → Build Class) (name : String) : Build Class := fun r =>
  match r.find? name with
  | some c => .ok c r
  | none =>
    match r.expand name with
    | .error e => .error (.failed e) r
    | .ok c =>
      (do
        Build.resolveEach (Build.ofType resolve) (s.types (r.insert c) c.own)
        return c) (r.insert c)

variable {s : Schedule}

theorem build_of_find? {fuel : Nat} {name : String} {r : Registry} {c : Class}
    (h : r.find? name = some c) : s.build (fuel + 1) name r = .ok c r := by
  refine (bind_ok (x := get) rfl _).trans ?_
  rw [h]
  rfl

theorem build_of_plain {fuel : Nat} {name : String} {r : Registry} (h : r.find? name = none)
    (hp : Plain name) : s.build (fuel + 1) name r = .error (.failed (.unknownClass name)) r := by
  refine (bind_ok (x := get) rfl _).trans ?_
  simp only [h, split?_of_plain hp]
  rfl

/-- The arguments of a composite name are plain, so resolving them is only a check. -/
theorem resolveEach_plain (fuel : Nat) (r : Registry) {args : List String}
    (h : ∀ arg ∈ args, Plain arg) :
    Build.resolveEach (Build.ofType (s.build (fuel + 1))) (args.map TypeTag.ofName) r =
      Build.ofExcept (r.checkTypes (args.map TypeTag.ofName)) r := by
  induction args with
  | nil => rfl
  | cons arg args ih =>
    rw [List.forall_mem_cons] at h
    have hrest := ih h.2
    simp only [List.map_cons, Build.resolveEach, Registry.checkTypes]
    cases ht : TypeTag.ofName arg with
    | ofClass name =>
      rw [TypeTag.eq_of_ofName ht] at h
      cases hf : r.find? name with
      | some c =>
        have hok : Build.ofType (s.build (fuel + 1)) (.ofClass name) r = .ok () r :=
          (bind_ok (build_of_find? hf) _).trans rfl
        rw [bind_ok hok]
        simpa [Registry.checkType, hf, Except.bind] using hrest
      | none =>
        have herror : Build.ofType (s.build (fuel + 1)) (.ofClass name) r =
            .error (.failed (.unknownClass name)) r := bind_error (build_of_plain hf h.1) _
        rw [bind_error herror]
        simp only [Registry.checkType, hf]
        rfl
    | _ => exact hrest

/-- The fuel for two levels is enough for the arguments of a name, so that they are only checked. -/
theorem build_level (fuel : Nat) : s.build (fuel + 2) = s.level (s.build (fuel + 1)) := by
  funext name r
  unfold level
  cases hf : r.find? name with
  | some c => exact build_of_find? hf
  | none =>
    refine (bind_ok (x := get) rfl _).trans ?_
    simp only [hf]
    unfold Registry.expand
    cases hs : split? name with
    | none => rfl
    | some pair =>
      obtain ⟨template, args⟩ := pair
      refine (bind_ok (x := get) rfl _).trans ?_
      cases ht : r.template? template with
      | none =>
        simp only [ht]
        rfl
      | some t =>
        have hplain := (plain_of_split? hs).2
        have hargs := resolveEach_plain (s := s) fuel r hplain
        simp only [ht, join_of_split? hs]
        cases hd : t.expand args with
        | error e => rfl
        | ok decls =>
          refine (bind_ok (x := Build.ofExcept (.ok decls)) rfl _).trans ?_
          cases hc : r.checkTypes (args.map TypeTag.ofName) with
          | error e =>
            rw [hc] at hargs
            exact bind_error hargs _
          | ok _ =>
            rw [hc] at hargs
            refine (bind_ok hargs _).trans ?_
            simp only [Except.bind]
            cases ClassBody.ofForms name decls with
            | error e => rfl
            | ok body => rfl

end Schedule

end ObjectLang
