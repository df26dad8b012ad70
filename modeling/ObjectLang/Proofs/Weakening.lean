import ObjectLang.Proofs.Expansion
import ObjectLang.Proofs.Isolation

/-!
Weakening: code is blind to a frame in scope that binds none of its atoms and no message. It runs
with the frame as it does without, wherever in the scopes the frame is. The bodies of the methods
that the code calls may name what the frame binds, but they do not have it in scope.
-/

namespace ObjectLang

variable {α β : Type}

/- The atoms of what a form stands for. -/

namespace Expression

def Within (P : String → Prop) : Expression → Prop
  | .name token => P token
  | .call target _ arguments =>
    (∀ f, target = .value f → f.Within P) ∧ ∀ f ∈ arguments, f.Within P
  | .negation operand => operand.Within P
  | .binary _ left right => left.Within P ∧ right.Within P
  | .literal _ | .self | .create _ | .invalid _ => True

theorem within_ofList {P : String → Prop} (head : String) {operands : List Form}
    (h : ∀ f ∈ operands, f.Within P) : (ofList head operands).Within P := by
  unfold ofList
  split
  · split
    · simp only [List.forall_mem_cons] at h
      refine ⟨fun f hf => ?_, h.2.2⟩
      unfold targetOf at hf
      split at hf <;> cases hf
      exact h.1
    · trivial
  · split
    · split <;> trivial
    · split
      · split
        · exact h _ List.mem_cons_self
        · trivial
      · split
        · split
          · simp only [List.forall_mem_cons] at h
            exact ⟨h.1, h.2.1⟩
          · trivial
        · trivial

theorem within_ofForm {P : String → Prop} {f : Form} (h : f.Within P) : (ofForm f).Within P := by
  unfold ofForm
  split
  · unfold ofToken
    split
    · trivial
    · split
      · trivial
      · exact Form.within_atom.mp h
  · exact within_ofList _ fun f hf => Form.within_list.mp h f (List.mem_cons_of_mem _ hf)
  · trivial

end Expression

namespace Statement

def Within (P : String → Prop) : Statement → Prop
  | .print operands => ∀ f ∈ operands, f.Within P
  | .assign name value => P name ∧ value.Within P
  | .block body => ∀ f ∈ body, f.Within P
  | .branch test consequent alternative =>
    test.Within P ∧ consequent.Within P ∧ ∀ f, alternative = some f → f.Within P
  | .loop test body => test.Within P ∧ body.Within P
  | .bind decls body => (∀ f ∈ decls, f.Within P) ∧ ∀ f ∈ body, f.Within P
  | .input _ name => P name
  | .result value => ∀ f, value = some f → f.Within P
  | .attempt body handler => body.Within P ∧ handler.Within P
  | .throw message => message.Within P
  | .expression f => f.Within P
  | .invalid _ => True

section

variable {P : String → Prop} {operands : List Form} (h : ∀ f ∈ operands, f.Within P)

include h

theorem within_ofAssignment : (ofAssignment operands).Within P := by
  unfold ofAssignment
  split
  · simp only [List.forall_mem_cons] at h
    exact ⟨Form.within_atom.mp h.1, h.2.1⟩
  · trivial
  · trivial

theorem within_ofBranch : (ofBranch operands).Within P := by
  unfold ofBranch
  split
  · simp only [List.forall_mem_cons] at h
    exact ⟨h.1, h.2.1, nofun⟩
  · simp only [List.forall_mem_cons] at h
    refine ⟨h.1, h.2.1, fun f hf => ?_⟩
    cases hf
    exact h.2.2.1
  · trivial

theorem within_ofLoop : (ofLoop operands).Within P := by
  unfold ofLoop
  split
  · simp only [List.forall_mem_cons] at h
    exact ⟨h.1, h.2.1⟩
  · trivial

theorem within_ofLet : (ofLet operands).Within P := by
  unfold ofLet
  split
  · simp only [List.forall_mem_cons] at h
    exact ⟨Form.within_list.mp h.1, h.2⟩
  · trivial

theorem within_ofInput (kind : InputKind) : (ofInput kind operands).Within P := by
  unfold ofInput
  split
  · exact Form.within_atom.mp (h _ List.mem_cons_self)
  · trivial

theorem within_ofReturn : (ofReturn operands).Within P := by
  unfold ofReturn
  split
  · exact nofun
  · intro f hf
    cases hf
    exact h _ List.mem_cons_self
  · trivial

theorem within_ofTry : (ofTry operands).Within P := by
  unfold ofTry
  split
  · simp only [List.forall_mem_cons] at h
    exact ⟨h.1, h.2.1⟩
  · trivial

theorem within_ofThrow : (ofThrow operands).Within P := by
  unfold ofThrow
  split
  · split
    · trivial
    · exact h _ List.mem_cons_self
  · trivial

end

theorem within_ofForm {P : String → Prop} {f : Form} (h : f.Within P) : (ofForm f).Within P := by
  have hrest : ∀ {head : Form} {operands : List Form}, (Form.list (head :: operands)).Within P →
      ∀ g ∈ operands, g.Within P :=
    fun h g hg => Form.within_list.mp h g (List.mem_cons_of_mem _ hg)
  unfold ofForm
  split
  · exact hrest h
  · exact within_ofAssignment (hrest h)
  · exact hrest h
  · exact within_ofBranch (hrest h)
  · exact within_ofLoop (hrest h)
  · exact within_ofLet (hrest h)
  · exact within_ofInput (hrest h) _
  · exact within_ofInput (hrest h) _
  · exact within_ofReturn (hrest h)
  · exact within_ofTry (hrest h)
  · exact within_ofThrow (hrest h)
  · exact h

end Statement

theorem Local.within_ofForm {P : String → Prop} {f g : Form} {l : Local} (h : f.Within P)
    (hl : Local.ofForm f = .ok l) (hg : l.init = some g) : g.Within P := by
  unfold Local.ofForm at hl
  split at hl
  · cases hl
    cases hg
  · cases hl
    cases hg
    have hitems := Form.within_list.mp h
    exact hitems _ (by simp)
  · cases hl

/- Scopes with one more frame. -/

def Control.Gains (i : FrameId) (c d : Control) : Prop :=
  ∃ above below, c.scopes = above ++ below ∧ d = { c with scopes := above ++ i :: below }

namespace Control.Gains

variable {i j : FrameId} {c d : Control}

theorem enterScope (h : c.Gains i d) : (c.enterScope j).Gains i (d.enterScope j) := by
  obtain ⟨above, below, hc, rfl⟩ := h
  exact ⟨j :: above, below, by simp [Control.enterScope, hc], rfl⟩

theorem enterTry (h : c.Gains i d) : (c.enterTry j).Gains i (d.enterTry j) := by
  obtain ⟨above, below, hc, rfl⟩ := h
  exact ⟨j :: above, below, by simp [Control.enterTry, hc], rfl⟩

theorem enterHandler (h : c.Gains i d) :
    Gains i { c with handling := true } { d with handling := true } := by
  obtain ⟨above, below, hc, rfl⟩ := h
  exact ⟨above, below, hc, rfl⟩

theorem alike (h : c.Gains i d) : c.Alike d := by
  obtain ⟨above, below, -, rfl⟩ := h
  exact ⟨rfl, rfl⟩

theorem lookup_eq {s : Store} {name : String} (h : c.Gains i d) (hi : s.get? i name = none) :
    s.lookup d.scopes name = s.lookup c.scopes name := by
  obtain ⟨above, below, hc, rfl⟩ := h
  simp [Store.lookup, hc, hi]

theorem contains_eq {s : Store} {name : String} (h : c.Gains i d) (hi : s.get? i name = none) :
    s.contains d.scopes name = s.contains c.scopes name := by
  obtain ⟨above, below, hc, rfl⟩ := h
  simp [Store.contains, hc, hi]

theorem assignment_eq {s : Store} {name : String} (h : c.Gains i d) (hi : s.get? i name = none)
    (v : Value) : s.assignment name v d.scopes = s.assignment name v c.scopes := by
  obtain ⟨above, below, hc, rfl⟩ := h
  rw [hc]
  clear hc
  induction above with
  | nil => simp only [List.nil_append, Store.assignment, hi]
  | cons j above ih => simp only [List.cons_append, Store.assignment, ih]

end Control.Gains

def Outline.Lacks (o : Outline) (name : String) : Prop := o.entries.lookup name = none

theorem Outline.Lacks.get?_eq {o : Outline} {s : Store} {i : FrameId} {name : String}
    (h : o.Lacks name) (hi : s.outline? i = some o) : s.get? i name = none := by
  obtain ⟨f, hf, rfl⟩ := Option.map_eq_some_iff.mp hi
  have hlookup := f.lookup_outline name
  rw [show f.outline.entries.lookup name = none from h] at hlookup
  simpa [Store.get?, hf] using hlookup.symm

namespace Eval

variable {m : Machine} {v : Value}

theorem raise_of_not_contains (h : m.store.contains m.control.scopes exceptionName = false) :
    raise v m =
      match m.store.get? m.control.ambient exceptionName with
      | none => .ok () m
      | some x =>
        match x.assign v with
        | .ok y => .ok () { m with store := m.store.set m.control.ambient exceptionName y }
        | .error e => .error (.failed e) m := by
  refine (bind_ok (x := get) rfl _).trans ?_
  simp only [h, Bool.false_eq_true, if_false]
  cases m.store.get? m.control.ambient exceptionName with
  | none => rfl
  | some x =>
    simp only
    cases x.assign v <;> rfl

end Eval

/-- Where the frame has the outline, the computation does the same with it in scope and without. -/
structure Blind (i : FrameId) (o : Outline) (x : Eval α) : Prop where
  restores : Restores x
  preserves : ∀ {m a s}, x m = .ok a s → m.store.Preserves s.store
  same : ∀ {m c}, m.store.outline? i = some o → m.control.Gains i c →
    x (m.withControl c) = Ending.withControl c (x m)

namespace Blind

variable {i : FrameId} {o : Outline} {x : Eval α} {f : α → Eval β}

theorem pure (a : α) : Blind i o (pure a) where
  restores := .pure a
  preserves h := by
    cases h
    exact .refl _
  same _ _ := rfl

theorem throw (e : Stop) : Blind i o (throw e : Eval α) where
  restores := .throw e
  preserves h := by cases h
  same _ _ := rfl

theorem fail (e : Error) : Blind i o (Eval.fail e : Eval α) := throw _

theorem ofExcept (r : Except Error α) : Blind i o (Eval.ofExcept r) := by
  cases r with
  | ok a => exact pure a
  | error e => exact fail e

theorem bind (hx : Blind i o x) (hf : ∀ a, Blind i o (f a)) : Blind i o (x >>= f) where
  restores := hx.restores.bind fun a => (hf a).restores
  preserves h := by
    obtain ⟨a, t, ha, hb⟩ := bind_eq_ok.mp h
    exact (hx.preserves ha).trans ((hf a).preserves hb)
  same {m c} hi hc := by
    have hsame := hx.same hi hc
    cases h : x m with
    | error e t =>
      rw [h] at hsame
      rw [bind_error h, bind_error hsame]
      rfl
    | ok a t =>
      rw [h] at hsame
      rw [bind_ok h, bind_ok hsame]
      rw [← hx.restores.of_ok h] at hc
      exact (hf a).same (hx.preserves h _ _ hi) hc

theorem ofExcept_bind {r : Except Error α} (h : ∀ a, r = .ok a → Blind i o (f a)) :
    Blind i o (Eval.ofExcept r >>= f) := by
  cases r with
  | ok a => exact h a rfl
  | error e => exact fail e

/-- What is read of the machine does not depend on the frame. -/
theorem get_bind {f : Machine → Eval β} (h : ∀ m, Blind i o (f m))
    (hf : ∀ m c, m.store.outline? i = some o → m.control.Gains i c →
      f (m.withControl c) = f m) : Blind i o (get >>= f) where
  restores := .bind .get fun m => (h m).restores
  preserves {m _ _} hm := (h m).preserves hm
  same {m c} hi hc := by
    have hread : (get >>= f) (m.withControl c) = f (m.withControl c) (m.withControl c) := rfl
    rw [hread, hf m c hi hc]
    exact (h m).same hi hc

theorem bracket {enter : Control → Control} {leave : Control → Control → Control}
    (hx : Blind i o x) (hl : ∀ c, leave c (enter c) = c)
    (he : ∀ c d, c.Gains i d → (enter c).Gains i (enter d)) :
    Blind i o (Eval.bracket enter leave x) where
  restores := hx.restores.bracket hl
  preserves {m _ _} h := by
    obtain ⟨t, ht, rfl⟩ := (hx.restores.bracket_eq_ok hl).mp h
    have hstore := hx.preserves ht
    exact hstore
  same {m c} hi hc := by
    have hcontrol := hx.restores.after { m with control := enter m.control }
    have hsame : x (Machine.withControl (enter c) { m with control := enter m.control }) = _ :=
      hx.same hi (he _ _ hc)
    cases h : x { m with control := enter m.control } with
    | ok a t =>
      rw [h] at hsame
      rw [Eval.bracket_of_ok h]
      refine (Eval.bracket_of_ok (m := m.withControl c) hsame).trans ?_
      simp only [Ending.withControl, Machine.withControl, hl]
    | error e t =>
      rw [h] at hsame
      rw [Eval.bracket_of_error h]
      refine (Eval.bracket_of_error (m := m.withControl c) hsame).trans ?_
      simp only [Ending.withControl, Machine.withControl, hl]

theorem inScope {j : FrameId} (hx : Blind i o x) : Blind i o (Eval.inScope j x) :=
  hx.bracket (fun _ => rfl) fun _ _ h => h.enterScope

theorem inTry {j : FrameId} (hx : Blind i o x) : Blind i o (Eval.inTry j x) :=
  hx.bracket (fun _ => rfl) fun _ _ h => h.enterTry

theorem inHandler (hx : Blind i o x) : Blind i o (Eval.inHandler x) :=
  hx.bracket (fun _ => rfl) fun _ _ h => h.enterHandler

/- The operations on the machine. -/

theorem alloc (f : Frame) : Blind i o (Eval.alloc f) where
  restores := Restores.pervasive.alloc f
  preserves h := by
    cases h
    exact .push _ _
  same _ _ := rfl

theorem building (b : Build α) : Blind i o (Eval.building b) where
  restores := .building b
  preserves h := by
    obtain ⟨r, -, rfl⟩ := Eval.building_eq_ok.mp h
    exact .refl _
  same {m c} _ _ := by
    simp only [Eval.building, Machine.withControl]
    cases b m.registry <;> rfl

theorem create (c : Class) : Blind i o (Eval.create c) where
  restores := Restores.pervasive.create c
  preserves h := by
    obtain ⟨frames, -, -, rfl⟩ := Eval.create_eq_ok h
    exact .pushAll _ _
  same _ _ := by
    simp only [Eval.create]
    cases c.fieldFrames <;> rfl

theorem println (line : String) : Blind i o (Eval.println line) where
  restores := Restores.pervasive.println line
  preserves h := by
    cases h
    exact .refl _
  same _ _ := rfl

theorem readLine : Blind i o Eval.readLine where
  restores := Restores.pervasive.readLine
  preserves h := by
    cases h
    exact .refl _
  same _ _ := rfl

theorem checkAccess (name : String) : Blind i o (Eval.checkAccess name) := by
  refine get_bind (fun m => ?_) ?_
  · split
    · exact fail _
    · exact pure _
  · rintro m c - ⟨above, below, -, rfl⟩
    rfl

theorem lookup {name : String} (hname : o.Lacks name) : Blind i o (Eval.lookup name) := by
  refine (checkAccess name).bind fun _ => get_bind (fun m => ?_) ?_
  · split
    · exact pure _
    · exact fail _
  · intro m c hi hc
    simp only [Machine.withControl, hc.lookup_eq (hname.get?_eq hi)]

theorem checkVisible {name : String} (hname : o.Lacks name) :
    Blind i o (Eval.checkVisible name) := by
  refine (checkAccess name).bind fun _ => get_bind (fun m => ?_) ?_
  · split
    · exact fail _
    · exact pure _
  · intro m c hi hc
    simp only [Machine.withControl, hc.contains_eq (hname.get?_eq hi)]

theorem assign {name : String} (hname : o.Lacks name) (v : Value) :
    Blind i o (Eval.assign name v) where
  restores := Restores.pervasive.assign name v
  preserves {m _ _} h := by
    obtain ⟨_, _, hget, h⟩ := bind_eq_ok.mp h
    cases hget
    cases ha : m.store.assignment name v m.control.scopes with
    | error e =>
      rw [ha] at h
      cases e <;> cases h
    | ok target =>
      rw [ha] at h
      cases h
      obtain ⟨_, _, x, -, -, hx, hy⟩ := Store.assignment_eq_ok ha
      exact .set hx (Variable.assign_declared hy)
  same {m c} hi hc := by
    have ha : (m.withControl c).store.assignment name v (m.withControl c).control.scopes =
        m.store.assignment name v m.control.scopes := hc.assignment_eq (hname.get?_eq hi) v
    refine (bind_ok (x := get) rfl _).trans ?_
    refine Eq.trans ?_ (congrArg _ (bind_ok (x := get) rfl _).symm)
    rw [ha]
    cases m.store.assignment name v m.control.scopes with
    | ok target => rfl
    | error e => cases e <;> rfl

theorem raise (hname : o.Lacks exceptionName) (v : Value) : Blind i o (Eval.raise v) where
  restores := Restores.pervasive.raise v
  preserves {m a s} h := by
    have htraces : Traces m [v] (Eval.raise v) fun _ => [] := .raise (by simp)
    obtain ⟨hand, hsteps, -⟩ := htraces.steps (k := []) (List.Subset.refl [v]) h
    exact hsteps.preserves
  same {m c} hi hc := by
    have hcontains : (m.withControl c).store.contains (m.withControl c).control.scopes
        exceptionName = m.store.contains m.control.scopes exceptionName :=
      hc.contains_eq (hname.get?_eq hi)
    cases h : m.store.contains m.control.scopes exceptionName with
    | true =>
      rw [Eval.raise_of_contains h, Eval.raise_of_contains (hcontains.trans h)]
      exact (assign hname v).same hi hc
    | false =>
      rw [Eval.raise_of_not_contains h, Eval.raise_of_not_contains (hcontains.trans h)]
      simp only [Machine.withControl, hc.alike.1]
      cases m.store.get? m.control.ambient exceptionName with
      | none => rfl
      | some x =>
        simp only
        cases x.assign v <;> rfl

theorem messageIn (frame : FrameId) : Blind i o (Eval.messageIn frame) := by
  refine get_bind (fun m => ?_) fun _ _ _ _ => rfl
  split
  · exact pure _
  · exact pure _

theorem activation (shape : Shape) : Blind i o (Eval.activation shape) := by
  refine get_bind (fun m => ?_) ?_
  · split
    · exact pure _
    · exact fail _
  · rintro m c - ⟨above, below, -, rfl⟩
    rfl

theorem superView : Blind i o Eval.superView := by
  refine (activation _).bind fun a => ?_
  simp only
  split
  · exact pure _
  · exact fail _

/-- A call replaces the scopes, and the frame with them. -/
theorem callMethod (n : Nat) (receiver : View) (name : String) (vs : List Value) :
    Blind i o (Eval.callMethod (exec n) receiver name vs) where
  restores := Restores.pervasive.callMethod (restores_exec n) receiver name vs
  preserves {m _ _} h := by
    have htraces : Traces m (.object receiver :: vs) (Eval.callMethod (exec n) receiver name vs)
        Value.held :=
      .callMethod (traces_exec n) (restores_exec n) (.inl List.mem_cons_self)
        (List.subset_cons_self _ _)
    obtain ⟨hand, hsteps, -⟩ := htraces.steps (k := []) (List.Subset.refl _) h
    exact hsteps.preserves
  same _ hc := Eval.callMethod_withControl (restores_exec n) receiver name vs hc.alike

/- One level of the evaluator is blind to the frame if the code inside it is. -/

section Levels

variable {n : Nat} (heval : ∀ f : Form, f.Within o.Lacks → Blind i o (eval n f))
  (hexec : ∀ f : Form, f.Within o.Lacks → Blind i o (exec n f))

include heval in
theorem arguments {fs : List Form} (hfs : ∀ f ∈ fs, f.Within o.Lacks) :
    Blind i o (Eval.arguments (eval n) fs) := by
  induction fs with
  | nil => exact pure _
  | cons f fs ih =>
    rw [List.forall_mem_cons] at hfs
    refine (heval f hfs.1).bind fun a => ?_
    split
    · exact pure _
    · exact (ih hfs.2).bind fun _ => pure _

include heval in
theorem callWith (receiver : View) (method : String) {args : List Form}
    (hargs : ∀ f ∈ args, f.Within o.Lacks) :
    Blind i o (Eval.callWith (eval n) (exec n) receiver method args) := by
  refine (arguments heval hargs).bind fun vs => ?_
  split
  · exact callMethod n _ _ _
  · exact pure _

include heval in
theorem call {target : Target} (method : String) {args : List Form}
    (htarget : ∀ f, target = .value f → f.Within o.Lacks)
    (hargs : ∀ f ∈ args, f.Within o.Lacks) :
    Blind i o (Eval.call (eval n) (exec n) target method args) := by
  cases target with
  | super => exact superView.bind fun v => callWith heval v method hargs
  | value f =>
    refine (heval f (htarget f rfl)).bind fun a => ?_
    split
    · exact callWith heval _ _ hargs
    · exact pure _
    · exact fail _
    · exact fail _
    · exact fail _

include heval in
theorem binary (op : Operator) {left right : Form} (hleft : left.Within o.Lacks)
    (hright : right.Within o.Lacks) : Blind i o (Eval.binary (eval n) op left right) := by
  refine (heval left hleft).bind fun a => ?_
  split
  · exact pure _
  · refine (heval right hright).bind fun b => ?_
    split
    · exact pure _
    · exact get_bind (fun _ => ofExcept _) fun _ _ _ _ => rfl

include heval in
theorem negation {operand : Form} (h : operand.Within o.Lacks) :
    Blind i o (Eval.negation (eval n) operand) := by
  refine (heval operand h).bind fun a => ?_
  simp only
  split
  · exact pure _
  · exact ofExcept _

include heval in
theorem expression {e : Expression} (he : e.Within o.Lacks) :
    Blind i o (Eval.expression (eval n) (exec n) e) := by
  cases e with
  | literal l => exact pure _
  | self => exact ((activation _).bind fun _ => pure _).bind fun _ => pure _
  | name token => exact (lookup he).bind fun _ => pure _
  | call target method args => exact (call heval method he.1 he.2).bind fun _ => pure _
  | create cls =>
    exact ((building _).bind fun _ => (create _).bind fun _ => pure _).bind fun _ => pure _
  | negation operand => exact (negation heval he).bind fun _ => pure _
  | binary op left right => exact (binary heval op he.1 he.2).bind fun _ => pure _
  | invalid e => exact fail e

include heval in
theorem withValue {f : Form} (hf : f.Within o.Lacks) {k : Value → Eval Completion}
    (hk : ∀ v, Blind i o (k v)) : Blind i o (Eval.withValue (eval n) f k) := by
  refine (heval f hf).bind fun a => ?_
  split
  · exact pure _
  · exact hk _

include hexec in
theorem block {fs : List Form} (hfs : ∀ f ∈ fs, f.Within o.Lacks) :
    Blind i o (Eval.block (exec n) fs) := by
  induction fs with
  | nil => exact pure _
  | cons f fs ih =>
    rw [List.forall_mem_cons] at hfs
    refine (hexec f hfs.1).bind fun done => ?_
    split
    · exact ih hfs.2
    · exact pure _

include heval in
theorem printLine (line : String) {fs : List Form} (hfs : ∀ f ∈ fs, f.Within o.Lacks) :
    Blind i o (Eval.printLine (eval n) line fs) := by
  induction fs generalizing line with
  | nil => exact (println line).bind fun _ => pure _
  | cons f fs ih =>
    rw [List.forall_mem_cons] at hfs
    exact withValue heval hfs.1 fun v => (ofExcept _).bind fun _ => ih _ hfs.2

include heval in
theorem condition (form : Conditional) {f : Form} (hf : f.Within o.Lacks) :
    Blind i o (Eval.condition (eval n) form f) := by
  refine (heval f hf).bind fun a => ?_
  split
  · exact pure _
  · exact pure _
  · exact fail _

include heval hexec in
theorem branch {test consequent : Form} {alternative : Option Form} (htest : test.Within o.Lacks)
    (hconsequent : consequent.Within o.Lacks)
    (halternative : ∀ f, alternative = some f → f.Within o.Lacks) :
    Blind i o (Eval.branch (eval n) (exec n) test consequent alternative) := by
  refine (condition heval _ htest).bind fun b => ?_
  split
  · exact pure _
  · exact hexec _ hconsequent
  · split
    · exact hexec _ (halternative _ rfl)
    · exact pure _

include heval hexec in
theorem loop {test body : Form} (htest : test.Within o.Lacks) (hbody : body.Within o.Lacks)
    (rounds : Nat) : Blind i o (Eval.loop (eval n) (exec n) test body rounds) := by
  induction rounds with
  | zero => exact throw _
  | succ rounds ih =>
    refine (condition heval _ htest).bind fun b => ?_
    split
    · exact pure _
    · exact pure _
    · refine (hexec body hbody).bind fun done => ?_
      split
      · exact ih
      · exact pure _

include heval in
theorem initial {l : Local} (hl : ∀ f, l.init = some f → f.Within o.Lacks) :
    Blind i o (Eval.initial (eval n) l) := by
  refine (building _).bind fun _ => ?_
  cases hinit : l.init with
  | none => exact pure _
  | some f =>
    refine (heval f (hl f hinit)).bind fun a => ?_
    split
    · exact pure _
    · exact (ofExcept _).bind fun _ => pure _

include heval in
theorem locals (frame : Frame) {ds : List Form} (hds : ∀ d ∈ ds, d.Within o.Lacks) :
    Blind i o (Eval.locals (eval n) frame ds) := by
  induction ds generalizing frame with
  | nil => exact pure _
  | cons d ds ih =>
    rw [List.forall_mem_cons] at hds
    refine ofExcept_bind fun l hl => ?_
    refine (initial heval fun f hf => Local.within_ofForm hds.1 hl hf).bind fun x => ?_
    split
    · exact pure _
    · split
      · exact ih _ hds.2
      · exact fail _

include heval hexec in
theorem letBlock {decls body : List Form} (hdecls : ∀ d ∈ decls, d.Within o.Lacks)
    (hbody : ∀ f ∈ body, f.Within o.Lacks) :
    Blind i o (Eval.letBlock (eval n) (exec n) decls body) := by
  refine (locals heval _ hdecls).bind fun frame => ?_
  split
  · exact pure _
  · exact (alloc _).bind fun _ => inScope (block hexec hbody)

theorem input (kind : InputKind) {name : String} (hname : o.Lacks name) :
    Blind i o (Eval.input kind name) :=
  (checkVisible hname).bind fun _ => readLine.bind fun _ => (ofExcept _).bind fun v =>
    (assign hname v).bind fun _ => pure _

include heval in
theorem result {value : Option Form} (hvalue : ∀ f, value = some f → f.Within o.Lacks) :
    Blind i o (Eval.result (eval n) value) := by
  refine (activation _).bind fun a => ?_
  cases value with
  | none => exact pure _
  | some f => exact withValue heval (hvalue f rfl) fun v => pure _

include hexec in
theorem guarded {body handler : Form} (hbody : body.Within o.Lacks)
    (hhandler : handler.Within o.Lacks) : Blind i o (Eval.guarded (exec n) body handler) := by
  refine (hexec body hbody).bind fun done => ?_
  split
  · exact inHandler (hexec handler hhandler)
  · exact pure _

variable (hexception : o.Lacks exceptionName)

include hexception

theorem rethrown (frame : FrameId) (done : Completion) :
    Blind i o (Eval.rethrown frame done) := by
  unfold Eval.rethrown
  split
  · exact (messageIn frame).bind fun v => (raise hexception v).bind fun _ => pure _
  · exact pure _

include hexec in
theorem attempt {body handler : Form} (hbody : body.Within o.Lacks)
    (hhandler : handler.Within o.Lacks) : Blind i o (Eval.attempt (exec n) body handler) :=
  (alloc _).bind fun frame =>
    (inTry (guarded hexec hbody hhandler)).bind (rethrown hexception frame)

include heval hexec in
theorem statement (fuel : Nat) {e : Statement} (he : e.Within o.Lacks) :
    Blind i o (Eval.statement fuel (eval n) (exec n) e) := by
  cases e with
  | print operands => exact printLine heval "" he
  | assign name value =>
    exact (checkVisible he.1).bind fun _ =>
      withValue heval he.2 fun v => (assign he.1 v).bind fun _ => pure _
  | block body => exact block hexec he
  | branch test consequent alternative => exact branch heval hexec he.1 he.2.1 he.2.2
  | loop test body => exact loop heval hexec he.1 he.2 fuel
  | bind decls body => exact letBlock heval hexec he.1 he.2
  | input kind name => exact input kind he
  | result value => exact result heval he
  | attempt body handler => exact attempt hexec hexception he.1 he.2
  | throw message =>
    exact withValue heval he fun v => (raise hexception v).bind fun _ => pure _
  | expression f => exact withValue heval he fun _ => pure _
  | invalid e => exact fail e

end Levels

end Blind

/-- Induction on the fuel: each level only runs code of the level below, or calls methods. -/
theorem blind_evaluator {i : FrameId} {o : Outline} (hexception : o.Lacks exceptionName) (n : Nat) :
    (∀ f : Form, f.Within o.Lacks → Blind i o (eval n f)) ∧
      ∀ f : Form, f.Within o.Lacks → Blind i o (exec n f) := by
  induction n with
  | zero => exact ⟨fun _ _ => .throw _, fun _ _ => .throw _⟩
  | succ n ih =>
    refine ⟨fun f hf => ?_, fun f hf => ?_⟩
    · exact .expression ih.1 (Expression.within_ofForm hf)
    · exact .statement ih.1 ih.2 hexception n (Statement.within_ofForm hf)

/-- Nothing leads to a new frame. -/
theorem Reachable.spares_push {r : Registry} {sink : Sink} {source : Source} {limit : Option Nat}
    {m : Machine} (hm : Reachable (Machine.start r sink source limit) m) {frame : Frame}
    (hframe : ∀ b ∈ frame.bindings, ∀ v, b.2.value = .object v → m.store.Holds v.object) :
    Moment.Spares m.store.next ⟨{ m with store := m.store.push frame }, [], []⟩ := by
  obtain ⟨k, hand, hsteps⟩ := hm.steps
  have hlayered : m.store.Layered := hsteps.layered
  have hlocated := hsteps.keeps (fun _ _ => Step.located) (located_start r sink source limit)
  have hnew : ∀ {v : View}, v.Located m.store → ¬ v.Occupies m.store.next := by
    intro v hv hoccupies
    obtain ⟨d, hd⟩ := hv.outline?_of_occupies hoccupies
    exact Nat.lt_irrefl _ (Store.lt_next_of_outline? hd)
  have hapart : ∀ {j : FrameId}, m.store.Apart j → m.store.next ≠ j := by
    rintro j ⟨o, ho, -⟩
    exact Nat.ne_of_gt (Store.lt_next_of_outline? ho)
  obtain ⟨above, hscopes, happart⟩ := hsteps.scoped
  refine ⟨Store.lt_next_of_outline? (Store.outline?_push_next _ frame), ?_, by simp, ?_, ?_⟩
  · intro c hc
    rw [List.mem_singleton.mp hc]
    refine ⟨fun hmem => ?_, hapart (happart _ List.mem_cons_self)⟩
    obtain hmem | hmem := List.mem_append.mp (hscopes ▸ hmem)
    · exact hapart (happart _ (List.mem_cons_of_mem _ hmem)) rfl
    · obtain ⟨a, ha, heq⟩ := Option.map_eq_some_iff.mp (Option.mem_toList.mp hmem)
      have hreceiver := hlocated.receivers _ List.mem_cons_self a ha
      exact hnew hreceiver (heq ▸ a.receiver.occupies_frame)
  · refine (hlocated.store.mono fun x hx v hv => hnew (hx v hv)).push fun b hb v hv => ?_
    exact hnew (hlayered.located (hframe b hb v hv))
  · intro c hc a ha
    rw [List.mem_singleton.mp hc] at ha
    exact hnew (hlocated.receivers _ List.mem_cons_self a ha)

/-- Scopes can be weakened. Take a frame that nothing leads to and that binds neither an atom of a
statement nor a message. With the frame on top of the scopes the statement ends as it does without:
with the same result or error, on a machine that differs in the scopes only, and the frame is as it
was. A new frame, put on the store of any machine that runs of a program pass through, is one that
nothing leads to, if the objects in it are in the store. -/
theorem unrelated_frames_are_ignored (r : Registry) (sink : Sink) (source : Source)
    (limit : Option Nat) :
    (∀ (m : Machine) (i : FrameId) (frame : Frame) (f : Form) (n : Nat),
      Moment.Spares i ⟨m, [], []⟩ → m.store.frame? i = some frame →
      (∀ name ∈ f.atoms, frame.get? name = none) → frame.get? exceptionName = none →
      exec n f (m.withControl (m.control.enterScope i)) =
          Ending.withControl (m.control.enterScope i) (exec n f m) ∧
        (after (exec n f) (m.withControl (m.control.enterScope i))).store.frame? i =
          some frame) ∧
    ∀ m, Reachable (Machine.start r sink source limit) m → ∀ frame : Frame,
      (∀ b ∈ frame.bindings, ∀ v, b.2.value = .object v → m.store.Holds v.object) →
      Moment.Spares m.store.next ⟨{ m with store := m.store.push frame }, [], []⟩ := by
  refine ⟨?_, fun m hm frame hframe => hm.spares_push hframe⟩
  intro m i frame f n hspares hi hatoms hexception
  have houtline : m.store.outline? i = some frame.outline := by
    rw [Store.outline?, hi]
    rfl
  have hlacks : ∀ name, frame.get? name = none → frame.outline.Lacks name := by
    intro name hname
    rw [Outline.Lacks, Frame.lookup_outline, hname]
    rfl
  have hblind := (blind_evaluator (i := i) (hlacks _ hexception) n).2 f
    fun name hname => hlacks name (hatoms name hname)
  have hsame : exec n f (m.withControl (m.control.enterScope i)) =
      Ending.withControl (m.control.enterScope i) (exec n f m) :=
    hblind.same houtline ⟨[], m.control.scopes, rfl, rfl⟩
  refine ⟨hsame, ?_⟩
  obtain ⟨hand, hsteps, -⟩ := traces_exec n f m [] [] (List.Subset.refl _)
  have hkept := (hsteps.spares hspares).trans hi
  have hafter : (after (exec n f) (m.withControl (m.control.enterScope i))).store =
      (after (exec n f) m).store := by
    simp only [after, hsame]
    cases exec n f m <;> rfl
  rw [hafter]
  exact hkept

/-- In the sample, a frame with a variable `n` is put on the scopes of a call. The method that is
called sets the field `n`, with the frame and without. -/
theorem sample_unrelated_frame_is_ignored :
    let frame : Frame := ⟨.locals, [("n", ⟨.int, .int 9⟩)]⟩
    let m := { Sample.counted with store := Sample.counted.store.push frame }
    let weakened := m.withControl (m.control.enterScope 3)
    Moment.Spares 3 ⟨m, [], []⟩ ∧
      exec 8 Sample.callBump weakened =
        Ending.withControl weakened.control (exec 8 Sample.callBump m) ∧
      (after (exec 8 Sample.callBump) weakened).store.frame? 3 = some frame ∧
      (after (exec 8 Sample.callBump) weakened).store.get? 1 "n" = some ⟨.int, .int 7⟩ := by
  intro frame m weakened
  obtain ⟨hignored, hspares⟩ :=
    unrelated_frames_are_ignored ⟨[Sample.counter], []⟩ (.buffer "") (.queue []) none
  have hm : Reachable Sample.counting Sample.counted := .started Sample.occurs_masking
  have hfree : Moment.Spares 3 ⟨m, [], []⟩ := hspares _ hm frame (by simp [frame])
  obtain ⟨hsame, hkept⟩ := hignored m 3 frame Sample.callBump 8 hfree rfl (by decide) rfl
  exact ⟨hfree, hsame, hkept, rfl⟩

end ObjectLang
