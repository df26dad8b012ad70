import ObjectLang.Program
import ObjectLang.Proofs.Termination

/-!
Errors about the calls under way, of which there are too many or none, come from the evaluator alone:
no declaration, conversion, operator or resolution reports one.
-/

namespace ObjectLang

variable {α β : Type}

def Error.isAboutCalls : Error → Bool
  | .callDepthExceeded _ | .malformed .selfOutside | .malformed .superOutside
  | .malformed .resultOutside => true
  | _ => false

theorem Error.ne_callDepthExceeded {e : Error} (h : e.isAboutCalls = false) (limit : Nat) :
    e ≠ .callDepthExceeded limit := by
  rintro rfl
  cases h

def Shallow (r : Except Error α) : Prop := ∀ e, r = .error e → e.isAboutCalls = false

namespace Shallow

@[simp] theorem ok (a : α) : Shallow (.ok a : Except Error α) := nofun

@[simp] theorem error_iff {e : Error} :
    Shallow (.error e : Except Error α) ↔ e.isAboutCalls = false := by
  constructor
  · exact fun h => h e rfl
  · rintro h _ ⟨⟩
    exact h

theorem map {r : Except Error α} (h : Shallow r) (f : α → β) : Shallow (r.map f) := by
  cases r with
  | ok a => exact ok _
  | error e => exact error_iff.mpr (h e rfl)

theorem bind {r : Except Error α} {f : α → Except Error β} (h : Shallow r)
    (hf : ∀ a, Shallow (f a)) : Shallow (r.bind f) := by
  cases r with
  | ok a => exact hf a
  | error e => exact error_iff.mpr (h e rfl)

theorem foldlM {f : β → α → Except Error β} (h : ∀ b a, Shallow (f b a)) (b : β) (l : List α) :
    Shallow (l.foldlM f b) := by
  induction l generalizing b with
  | nil => exact ok b
  | cons a l ih =>
    rw [List.foldlM_cons]
    exact (h b a).bind ih

theorem mapM {f : α → Except Error β} (h : ∀ a, Shallow (f a)) (l : List α) :
    Shallow (l.mapM f) := by
  induction l with
  | nil => exact ok []
  | cons a l ih =>
    rw [List.mapM_cons]
    exact (h a).bind fun _ => ih.bind fun _ => ok _

end Shallow

/- Variables and the values that they take. -/

theorem Variable.shallow_assign (x : Variable) (v : Value) : Shallow (x.assign v) := by
  unfold assign
  split <;> simp [Error.isAboutCalls]

theorem Variable.shallow_create (t : TypeTag) (v : Value) : Shallow (create t v) :=
  shallow_assign _ v

theorem shallow_bindArguments (ps : List Param) (vs : List Value) :
    Shallow (bindArguments ps vs) := by
  induction ps generalizing vs with
  | nil => exact .ok []
  | cons p ps ih =>
    cases vs with
    | nil => exact .ok []
    | cons v vs => exact (Variable.shallow_create p.type v).bind fun _ => (ih vs).map _

theorem Class.shallow_fieldFrame (c : Class) : Shallow c.fieldFrame := by
  refine (Shallow.mapM (fun f => ?_) _).map _
  refine Shallow.map ?_ _
  unfold Field.variable
  split
  · exact Variable.shallow_create _ _
  · exact .ok _

theorem Class.shallow_fieldFrames (c : Class) : Shallow c.fieldFrames := by
  obtain ⟨own, ancestors⟩ := c
  unfold fieldFrames
  simp only
  induction ancestors generalizing own with
  | nil => exact (shallow_fieldFrame _).map _
  | cons p ps ih => exact (ih p).bind fun _ => (shallow_fieldFrame _).map _

theorem Store.shallow_assignment {s : Store} {name : String} {v : Value} {scopes : Scopes}
    {e : Error} (h : s.assignment name v scopes = .error (.rejected e)) :
    e.isAboutCalls = false := by
  induction scopes with
  | nil => cases h
  | cons i rest ih =>
    unfold assignment at h
    split at h
    · exact ih h
    · split at h <;> cases h
      exact Variable.shallow_assign _ v _ (by assumption)

/- Operators. -/

theorem Operator.shallow_mismatch (op : Operator) (a b : Value) : Shallow (op.mismatch a b) := by
  simp [mismatch, Error.isAboutCalls]

theorem Integer.shallow_exact (operation : Arithmetic) (z : Int) :
    Shallow (exact operation z) := by
  unfold exact
  split <;> simp [Error.isAboutCalls]

theorem Operator.shallow_onIntegers (op : Operator) (a b : Int64) :
    Shallow (op.onIntegers a b) := by
  cases op with
  | add | sub | mul => exact (Integer.shallow_exact _ _).map _
  | div =>
    refine Shallow.map ?_ _
    unfold Integer.div
    split
    · simp [Error.isAboutCalls]
    · exact (Integer.shallow_exact _ _).map _
  | mod =>
    refine Shallow.map ?_ _
    unfold Integer.mod
    split <;> simp [Error.isAboutCalls]
  | and | or => exact shallow_mismatch _ _ _
  | _ => exact .ok _

theorem Operator.shallow_apply (op : Operator) (a b : Value) : Shallow (op.apply a b) := by
  unfold apply
  split
  · exact shallow_onIntegers _ _ _
  · cases op <;> simp [onStrings, shallow_mismatch]
  · cases op <;> simp [onBools, shallow_mismatch]
  · exact shallow_mismatch _ _ _

theorem Operator.shallow_negate (v : Value) : Shallow (negate v) := by
  cases v <;> simp [negate, Error.isAboutCalls]

theorem Registry.shallow_operate (r : Registry) (op : Operator) (a b : Operand) :
    Shallow (r.operate op a b) := by
  unfold operate
  split
  · exact op.shallow_apply _ _
  · split
    · unfold compare
      split <;> simp [Error.isAboutCalls]
    · exact op.shallow_mismatch _ _

theorem Registry.shallow_returnValue (r : Registry) (method : Method) (done : Completion) :
    Shallow (r.returnValue method done) := by
  have hcheck : ∀ v, Shallow (r.checkReturn method v) := by
    intro v
    unfold checkReturn
    split <;> simp [Error.isAboutCalls]
  cases done with
  | raised => exact .ok _
  | normal => exact hcheck _
  | returned v => cases v <;> exact hcheck _

/- Forms and lines of text. -/

theorem Eval.shallow_printed (v : Value) : Shallow (printed v) := by
  cases v <;> simp [printed, Error.isAboutCalls]

theorem Eval.shallow_received (line : String) (kind : InputKind) :
    Shallow (received line kind) := by
  unfold received
  split
  · exact .ok _
  · split <;> simp [Error.isAboutCalls]

theorem Local.shallow_ofForm (f : Form) : Shallow (Local.ofForm f) := by
  unfold Local.ofForm
  split <;> simp [Error.isAboutCalls]

theorem Expression.shallow_of_invalid {f : Form} {e : Error} (h : ofForm f = .invalid e) :
    e.isAboutCalls = false := by
  unfold ofForm at h
  split at h
  · unfold ofToken at h
    split at h
    · cases h
    · split at h <;> cases h
  · unfold ofList at h
    repeat' split at h
    all_goals cases h
    all_goals rfl
  · cases h
    rfl

theorem Expression.ofForm_ne_invalid (f : Form) (limit : Nat) :
    ofForm f ≠ .invalid (.callDepthExceeded limit) :=
  fun h => Error.ne_callDepthExceeded (shallow_of_invalid h) limit rfl

theorem Statement.shallow_of_invalid {f : Form} {e : Error} (h : ofForm f = .invalid e) :
    e.isAboutCalls = false := by
  unfold ofForm at h
  split at h
  · cases h
  · unfold ofAssignment at h
    split at h <;> cases h <;> rfl
  · cases h
  · unfold ofBranch at h
    split at h <;> cases h
    rfl
  · unfold ofLoop at h
    split at h <;> cases h
    rfl
  · unfold ofLet at h
    split at h <;> cases h
    rfl
  · unfold ofInput at h
    split at h <;> cases h
    rfl
  · unfold ofInput at h
    split at h <;> cases h
    rfl
  · unfold ofReturn at h
    split at h <;> cases h
    rfl
  · unfold ofTry at h
    split at h <;> cases h
    rfl
  · unfold ofThrow at h
    split at h
    · split at h <;> cases h
      rfl
    · cases h
      rfl
  · cases h

theorem Statement.ofForm_ne_invalid (f : Form) (limit : Nat) :
    ofForm f ≠ .invalid (.callDepthExceeded limit) :=
  fun h => Error.ne_callDepthExceeded (shallow_of_invalid h) limit rfl

/- Declarations and resolution. -/

theorem Field.shallow_ofForm (cls : String) (f : Form) : Shallow (Field.ofForm cls f) := by
  have hdeclare : ∀ type name value, Shallow (Field.declare cls type name value) := by
    intro type name value
    unfold Field.declare
    split
    · simp [Error.isAboutCalls]
    · refine Shallow.map ?_ _
      unfold Field.initOf
      split
      · exact .ok _
      · split <;> simp [Error.isAboutCalls]
  unfold Field.ofForm
  split
  · exact hdeclare _ _ _
  · exact hdeclare _ _ _
  · simp [Error.isAboutCalls]

theorem Method.shallow_ofForm (f : Form) : Shallow (Method.ofForm f) := by
  unfold Method.ofForm
  split
  · refine (Shallow.foldlM (fun before param => ?_) _ _).map _
    unfold Param.extend
    split
    · split
      · simp [Error.isAboutCalls]
      · split <;> simp [Error.isAboutCalls]
    · simp [Error.isAboutCalls]
  · simp [Error.isAboutCalls]

theorem ClassBody.shallow_ofForms (name : String) (decls : List Form) :
    Shallow (ClassBody.ofForms name decls) := by
  refine Shallow.foldlM (fun b f => ?_) _ _
  unfold ClassBody.add
  split
  · refine (Field.shallow_ofForm _ _).bind fun field => ?_
    unfold ClassBody.addField
    split <;> simp [Error.isAboutCalls]
  · refine (Method.shallow_ofForm _).bind fun method => ?_
    unfold ClassBody.addMethod
    split <;> simp [Error.isAboutCalls]
  · simp [Error.isAboutCalls]

namespace Registry

theorem shallow_checkTypes (r : Registry) (ts : List TypeTag) : Shallow (r.checkTypes ts) := by
  induction ts with
  | nil => exact .ok _
  | cons t ts ih =>
    refine Shallow.bind ?_ fun _ => ih
    unfold checkType
    split
    · split <;> simp [Error.isAboutCalls]
    · exact .ok _

theorem shallow_expand (r : Registry) (name : String) : Shallow (r.expand name) := by
  unfold expand
  split
  · simp [Error.isAboutCalls]
  · split
    · simp [Error.isAboutCalls]
    · refine Shallow.bind ?_ fun decls => (r.shallow_checkTypes _).bind fun _ =>
        (ClassBody.shallow_ofForms name decls).map _
      unfold Template.expand
      split <;> simp [Error.isAboutCalls]

theorem shallow_resolve {r r' : Registry} {name : String} {e : Error}
    (h : resolve name r = .error (.failed e) r') : e.isAboutCalls = false := by
  have hresolved := resolved_resolve r name
  rw [h] at hresolved
  obtain ⟨-, n, -, -, hexpand⟩ := hresolved
  exact r.shallow_expand n e hexpand

theorem shallow_resolveType {r r' : Registry} {t : TypeTag} {e : Error}
    (h : resolveType t r = .error (.failed e) r') : e.isAboutCalls = false := by
  cases t with
  | ofClass name =>
    cases hres : resolve name r with
    | ok c r₁ =>
      have hok : resolveType (.ofClass name) r = .ok () r₁ := bind_ok hres _
      rw [hok] at h
      cases h
    | error e' r₁ =>
      have herror : resolveType (.ofClass name) r = .error e' r₁ := bind_error hres _
      rw [herror] at h
      cases h
      exact shallow_resolve hres
  | _ => cases h

end Registry

end ObjectLang
