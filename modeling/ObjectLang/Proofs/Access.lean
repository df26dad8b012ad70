import ObjectLang.Proofs.Lineage
import ObjectLang.Proofs.Position
import ObjectLang.Proofs.Safety

/-!
Access to the message. The flag that gives access is set when a handler starts, cleared when a
method starts, and put back when either ends. So it is set at a position of a method's body if and
only if the position lies inside a handler of that body, whatever the callers are doing.
-/

namespace ObjectLang

/-- The work that is done at a site. An expression statement is executed and then evaluated. -/
inductive Site.Gives : Site → Work → Prop
  | executed {f : Form} : Gives (.statement f) (.exec f)
  | evaluated {f : Form} : Gives (.expression f) (.eval f)
  | expressed {f : Form} (hf : Statement.ofForm f = .expression f) : Gives (.statement f) (.eval f)

inductive AwaitsAt : Task → List Nat → Task → Prop
  | receiver (hf : Expression.ofForm f = .call (.value g) name args) :
      AwaitsAt ⟨n + 1, .eval f, m⟩ [1] ⟨n, .eval g, m⟩
  | argument (hf : Expression.ofForm f = .call target name (before ++ g :: rest))
      (hv : target.Gives n m m₁ v) (hvs : Eval.arguments (eval n) before m₁ = .ok (some vs) m₂) :
      AwaitsAt ⟨n + 1, .eval f, m⟩ [before.length + 3] ⟨n, .eval g, m₂⟩
  | operand (hf : Expression.ofForm f = .negation g) :
      AwaitsAt ⟨n + 1, .eval f, m⟩ [1] ⟨n, .eval g, m⟩
  | left (hf : Expression.ofForm f = .binary op g right) :
      AwaitsAt ⟨n + 1, .eval f, m⟩ [1] ⟨n, .eval g, m⟩
  | right (hf : Expression.ofForm f = .binary op left g) (ha : eval n left m = .ok a m₁)
      (hx : a.value.isException = false) : AwaitsAt ⟨n + 1, .eval f, m⟩ [2] ⟨n, .eval g, m₁⟩
  | printed (hf : Statement.ofForm f = .print (before ++ g :: rest))
      (hvs : Eval.arguments (eval n) before m = .ok (some vs) m₁)
      (hp : ∀ v ∈ vs, ∃ text, Eval.printed v = .ok text) :
      AwaitsAt ⟨n + 1, .exec f, m⟩ [before.length + 1] ⟨n, .eval g, m₁⟩
  | assigned (hf : Statement.ofForm f = .assign name g)
      (hv : Eval.checkVisible name m = .ok () m) :
      AwaitsAt ⟨n + 1, .exec f, m⟩ [2] ⟨n, .eval g, m⟩
  | inBlock (hf : Statement.ofForm f = .block (before ++ g :: rest))
      (hb : Eval.block (exec n) before m = .ok .normal m₁) :
      AwaitsAt ⟨n + 1, .exec f, m⟩ [before.length + 1] ⟨n, .exec g, m₁⟩
  | test (hf : Statement.ofForm f = .branch g consequent alternative) :
      AwaitsAt ⟨n + 1, .exec f, m⟩ [1] ⟨n, .eval g, m⟩
  | consequent (hf : Statement.ofForm f = .branch test g alternative)
      (hc : Eval.condition (eval n) .branch test m = .ok (some true) m₁) :
      AwaitsAt ⟨n + 1, .exec f, m⟩ [2] ⟨n, .exec g, m₁⟩
  | alternative (hf : Statement.ofForm f = .branch test consequent (some g))
      (hc : Eval.condition (eval n) .branch test m = .ok (some false) m₁) :
      AwaitsAt ⟨n + 1, .exec f, m⟩ [3] ⟨n, .exec g, m₁⟩
  | loopTest (hf : Statement.ofForm f = .loop g body) (hr : Rounds n g body k m m₁) (hk : k < n) :
      AwaitsAt ⟨n + 1, .exec f, m⟩ [1] ⟨n, .eval g, m₁⟩
  | loopBody (hf : Statement.ofForm f = .loop test g) (hr : Rounds n test g k m m₁) (hk : k < n)
      (hc : Eval.condition (eval n) .loop test m₁ = .ok (some true) m₂) :
      AwaitsAt ⟨n + 1, .exec f, m⟩ [2] ⟨n, .exec g, m₂⟩
  | initializer (hf : Statement.ofForm f = .bind (before ++ d :: rest) body)
      (hb : Eval.locals (eval n) (.empty .locals) before m = .ok (some frame) m₁)
      (hd : Local.ofForm d = .ok l) (hi : l.init = some g)
      (ht : Eval.building (Registry.resolveType l.type) m₁ = .ok () m₂) :
      AwaitsAt ⟨n + 1, .exec f, m⟩ [1, before.length, 2] ⟨n, .eval g, m₂⟩
  | inLet (hf : Statement.ofForm f = .bind decls (before ++ g :: rest))
      (hd : Eval.locals (eval n) (.empty .locals) decls m = .ok (some frame) m₁)
      (hb : Eval.block (exec n) before (m₁.enterLet frame) = .ok .normal m₂) :
      AwaitsAt ⟨n + 1, .exec f, m⟩ [before.length + 2] ⟨n, .exec g, m₂⟩
  | result (hf : Statement.ofForm f = .result (some g)) (ha : m.control.activation = some a) :
      AwaitsAt ⟨n + 1, .exec f, m⟩ [1] ⟨n, .eval g, m⟩
  | message (hf : Statement.ofForm f = .throw g) : AwaitsAt ⟨n + 1, .exec f, m⟩ [1] ⟨n, .eval g, m⟩
  | expression (hf : Statement.ofForm f = .expression g) :
      AwaitsAt ⟨n + 1, .exec f, m⟩ [] ⟨n, .eval g, m⟩

inductive StartsAt : Task → List Nat → Task → Prop
  | awaits (h : AwaitsAt t place u) : StartsAt t place u
  | guards (h : Guards t u) : StartsAt t [1] u
  | handles (h : Handles t u) : StartsAt t [2] u

/-- The task does what stands at this position of the body. -/
inductive Performs (body : Task) : List Nat → Task → Prop
  | body : Performs body [] body
  | part {p : List Nat} (h : Performs body p t) (hu : StartsAt t place u) :
      Performs body (p ++ place) u

variable {t u : Task} {place : List Nat} {s : Site}

/- Every expression and statement of a run has its position. -/

theorem AwaitsAt.awaits (h : AwaitsAt t place u) : Awaits t u := by
  cases h with
  | receiver hf => exact .receiver hf
  | argument hf hv hvs => exact .argument hf hv hvs
  | operand hf => exact .operand hf
  | left hf => exact .left hf
  | right hf ha hx => exact .right hf ha hx
  | printed hf hvs hp => exact .printed hf hvs hp
  | assigned hf hv => exact .assigned hf hv
  | inBlock hf hb => exact .inBlock hf hb
  | test hf => exact .test hf
  | consequent hf hc => exact .consequent hf hc
  | alternative hf hc => exact .alternative hf hc
  | loopTest hf hr hk => exact .loopTest hf hr hk
  | loopBody hf hr hk hc => exact .loopBody hf hr hk hc
  | initializer hf hb hd hi ht => exact .initializer hf hb hd hi ht
  | inLet hf hd hb => exact .inLet hf hd hb
  | result hf ha => exact .result hf ha
  | message hf => exact .message hf
  | expression hf => exact .expression hf

/-- A call enters a body, a call expression starts a call, and all else is a part at its place. -/
theorem Awaits.cases_at (h : Awaits t u) :
    (∃ a, Calls t a u) ∨ (∃ receiver name vs, u.work = .call receiver name vs) ∨
      ∃ place, AwaitsAt t place u := by
  cases h with
  | body hs hl hb => exact .inl ⟨_, .body hs hl hb⟩
  | invocation => exact .inr (.inl ⟨_, _, _, rfl⟩)
  | receiver hf => exact .inr (.inr ⟨_, .receiver hf⟩)
  | argument hf hv hvs => exact .inr (.inr ⟨_, .argument hf hv hvs⟩)
  | operand hf => exact .inr (.inr ⟨_, .operand hf⟩)
  | left hf => exact .inr (.inr ⟨_, .left hf⟩)
  | right hf ha hx => exact .inr (.inr ⟨_, .right hf ha hx⟩)
  | printed hf hvs hp => exact .inr (.inr ⟨_, .printed hf hvs hp⟩)
  | assigned hf hv => exact .inr (.inr ⟨_, .assigned hf hv⟩)
  | inBlock hf hb => exact .inr (.inr ⟨_, .inBlock hf hb⟩)
  | test hf => exact .inr (.inr ⟨_, .test hf⟩)
  | consequent hf hc => exact .inr (.inr ⟨_, .consequent hf hc⟩)
  | alternative hf hc => exact .inr (.inr ⟨_, .alternative hf hc⟩)
  | loopTest hf hr hk => exact .inr (.inr ⟨_, .loopTest hf hr hk⟩)
  | loopBody hf hr hk hc => exact .inr (.inr ⟨_, .loopBody hf hr hk hc⟩)
  | initializer hf hb hd hi ht => exact .inr (.inr ⟨_, .initializer hf hb hd hi ht⟩)
  | inLet hf hd hb => exact .inr (.inr ⟨_, .inLet hf hd hb⟩)
  | result hf ha => exact .inr (.inr ⟨_, .result hf ha⟩)
  | message hf => exact .inr (.inr ⟨_, .message hf⟩)
  | expression hf => exact .inr (.inr ⟨_, .expression hf⟩)

theorem StartsAt.starts (h : StartsAt t place u) : Starts t u := by
  cases h with
  | awaits h => exact .awaits h.awaits
  | guards h => exact .guards h
  | handles h => exact .handles h

theorem Starts.cases_at (h : Starts t u) :
    (∃ a, Calls t a u) ∨ (∃ receiver name vs, u.work = .call receiver name vs) ∨
      ∃ place, StartsAt t place u := by
  cases h with
  | awaits h => exact h.cases_at.imp_right fun h => h.imp_right fun ⟨_, h⟩ => ⟨_, .awaits h⟩
  | guards h => exact .inr (.inr ⟨_, .guards h⟩)
  | handles h => exact .inr (.inr ⟨_, .handles h⟩)

/-- The parts of a call have no place in a form. -/
theorem StartsAt.work_ne_call (h : StartsAt t place u) (receiver : View) (name : String)
    (vs : List Value) : t.work ≠ .call receiver name vs := by
  intro hcall
  cases h with
  | awaits h => cases h <;> cases hcall
  | guards h =>
    cases h
    cases hcall
  | handles h =>
    cases h
    cases hcall

theorem Occurs.performs {start : Machine} (h : Occurs start t)
    (hwork : ∀ receiver name vs, t.work ≠ .call receiver name vs) :
    ∃ call a body p, Occurs start call ∧ Calls call a body ∧ Performs body p t := by
  obtain ⟨fuels, fuel, launched, hl, hr⟩ := h
  induction hr with
  | refl =>
    obtain ⟨c, main, m₁, m₂, -, -, rfl⟩ := hl
    exact absurd rfl (hwork _ _ _)
  | @tail t u hreach hstep ih =>
    have ht : Occurs start t := ⟨fuels, fuel, launched, hl, hreach⟩
    obtain ⟨a, hc⟩ | ⟨receiver, name, vs, hcall⟩ | ⟨place, hplace⟩ := hstep.cases_at
    · exact ⟨t, a, u, [], ht, hc, .body⟩
    · exact absurd hcall (hwork _ _ _)
    · obtain ⟨call, a, body, p, hcall, hc, hp⟩ := ih hplace.work_ne_call
      exact ⟨call, a, body, p ++ place, hcall, hc, hp.part hplace⟩

/- Parts of tasks are parts of their sites. -/

def Work.part? : Work → Nat → Option Site
  | .eval f, i => (Expression.ofForm f).part? i
  | .exec f, i => (Statement.ofForm f).part? i
  | .call _ _ _, _ => none

theorem Site.Gives.part?_eq {w : Work} (h : s.Gives w) (i : Nat) : s.part? i = w.part? i := by
  cases h with
  | executed => rfl
  | evaluated => rfl
  | expressed hf => simp [Site.part?, hf, Statement.part?, Work.part?]

theorem Site.Gives.work_cases {w : Work} (h : s.Gives w) :
    w = .eval s.form ∨ w = .exec s.form := by
  cases h with
  | executed => exact .inr rfl
  | evaluated => exact .inl rfl
  | expressed => exact .inl rfl

theorem Site.Gives.ne_call {w : Work} (h : s.Gives w) (receiver : View) (name : String)
    (vs : List Value) : w ≠ .call receiver name vs := by
  rintro rfl
  cases h

/-- Only a statement is executed. -/
theorem Site.Gives.eq_of_exec {f : Form} (h : s.Gives (.exec f)) : s = .statement f := by
  cases h
  rfl

theorem AwaitsAt.site (h : AwaitsAt t place u) (hs : s.Gives t.work) :
    ∃ s', s.at? place = some s' ∧ s'.Gives u.work := by
  cases h with
  | initializer hf hb hd hi ht =>
    obtain rfl := hs.eq_of_exec
    exact ⟨_, Site.at?_initializer hf hd hi, .evaluated⟩
  | expression hf =>
    obtain rfl := Statement.eq_of_expression hf
    obtain rfl := hs.eq_of_exec
    exact ⟨_, rfl, .expressed hf⟩
  | inBlock hf | inLet hf | consequent hf | alternative hf | loopBody hf =>
    refine ⟨_, ?_, .executed⟩
    rw [Site.at?_single, hs.part?_eq]
    simp [Work.part?, hf, Statement.part?]
  | receiver hf | operand hf | left hf | right hf =>
    refine ⟨_, ?_, .evaluated⟩
    rw [Site.at?_single, hs.part?_eq]
    simp [Work.part?, hf, Expression.part?]
  | @argument _ target _ _ _ _ _ _ _ _ _ _ hf =>
    refine ⟨_, ?_, .evaluated⟩
    rw [Site.at?_single, hs.part?_eq]
    cases target <;> simp [Work.part?, hf, Expression.part?]
  | printed hf | assigned hf | test hf | loopTest hf | result hf | message hf =>
    refine ⟨_, ?_, .evaluated⟩
    rw [Site.at?_single, hs.part?_eq]
    simp [Work.part?, hf, Statement.part?]

/- Where the flag is set. -/

/-- A `try` awaits nothing: it guards its body and handles what comes of it. -/
theorem Awaits.isTry_eq_false (h : Awaits t u) (hs : s.Gives t.work) : s.isTry = false := by
  obtain ⟨n, work, m⟩ := t
  cases hs with
  | executed => cases h <;> simp [Site.isTry, *]
  | evaluated => rfl
  | expressed hf => simp [Site.isTry, hf]

theorem AwaitsAt.not_inHandler (h : AwaitsAt t place u) (hs : s.Gives t.work) :
    ¬ s.InHandler place := by
  have htry := h.awaits.isTry_eq_false hs
  cases h with
  | expression => exact s.not_inHandler_nil
  | initializer hf =>
    obtain rfl := hs.eq_of_exec
    exact Site.not_inHandler_initializer hf
  | _ => exact Site.not_inHandler_single fun _ => htry

theorem Awaits.handling (h : Awaits t u) (hcalls : ∀ a, ¬ Calls t a u) :
    u.machine.control.handling = t.machine.control.handling := by
  by_cases hopens : ∃ b, Opens t b u
  · obtain ⟨b, hb⟩ := hopens
    cases hb with
    | @inLet _ _ _ _ _ n _ frame m₁ m₂ _ hd hb =>
      have hlocals := (Restores.pervasive.locals (restores_eval _) _ _).of_ok hd
      have hblock := (Restores.pervasive.block (restores_exec _) _).of_ok hb
      calc m₂.control.handling = (m₁.enterLet frame).control.handling := by rw [hblock]
        _ = m₁.control.handling := rfl
        _ = _ := by rw [hlocals]
    | inTry hf => rfl
    | inHandler hf hb => cases h <;> cases hf.symm.trans ‹Statement.ofForm _ = _›
  · exact congrArg Control.handling (Continues.control ⟨h, hcalls, not_exists.mp hopens⟩)

theorem StartsAt.not_calls (h : StartsAt t place u) (a : Activation) : ¬ Calls t a u := by
  rintro ⟨hs, hl, hb⟩
  exact h.work_ne_call _ _ _ rfl

theorem StartsAt.activation (h : StartsAt t place u) :
    u.machine.control.activation = t.machine.control.activation := by
  obtain ⟨a, hc⟩ | ⟨b, hb⟩ | hcontinues := h.starts.cases
  · exact absurd hc (h.not_calls a)
  · exact hb.control.2.1
  · rw [hcontinues.control]

theorem StartsAt.site (h : StartsAt t place u) (hs : s.Gives t.work) :
    ∃ s', s.at? place = some s' ∧ s'.Gives u.work := by
  cases h with
  | awaits h => exact h.site hs
  | guards h | handles h =>
    obtain ⟨hf⟩ := h
    refine ⟨_, ?_, .executed⟩
    rw [Site.at?_single, hs.part?_eq]
    simp [Work.part?, hf, Statement.part?]

/-- The flag is set in the parts of a task if it is set in the task, and in its handler. -/
theorem StartsAt.handling (h : StartsAt t place u) (hs : s.Gives t.work) :
    u.machine.control.handling = true ↔
      t.machine.control.handling = true ∨ s.InHandler place := by
  have hcalls := h.not_calls
  cases h with
  | awaits h => rw [h.awaits.handling hcalls, or_iff_left (h.not_inHandler hs)]
  | guards h =>
    obtain ⟨hf⟩ := h
    have hplace : ¬ s.InHandler [1] := Site.not_inHandler_single fun h => absurd h (by decide)
    rw [or_iff_left hplace]
    rfl
  | handles h =>
    obtain ⟨hf, hb⟩ := h
    obtain rfl := hs.eq_of_exec
    exact iff_of_true rfl (.inr ⟨[], [], _, rfl, rfl, by simp [Site.isTry, hf]⟩)

section

variable {call body : Task} {a : Activation} {p : List Nat}

/-- What stands at the position is what is done, and the flag says whether it is inside a handler.
-/
theorem Performs.lexical (h : Performs body p t) (hc : Calls call a body) :
    t.machine.control.activation = some a ∧
      ∃ s, (Site.statement a.method.body).at? p = some s ∧ s.Gives t.work ∧
        (t.machine.control.handling = true ↔ a.method.body.InHandler p) := by
  induction h with
  | body =>
    cases hc
    exact ⟨rfl, _, rfl, .executed, iff_of_false Bool.false_ne_true (Site.not_inHandler_nil _)⟩
  | part _ hu ih =>
    obtain ⟨hactive, s, hs, hgives, hflag⟩ := ih
    obtain ⟨s', hs', hgives'⟩ := hu.site hgives
    refine ⟨hu.activation.trans hactive, s', ?_, hgives', ?_⟩
    · rw [Site.at?_append, hs, Option.bind_some, hs']
    · rw [hu.handling hgives, hflag, Form.InHandler, Form.InHandler, Site.inHandler_append hs]

theorem Performs.occurs {start : Machine} (h : Performs body p t) (hcall : Occurs start call)
    (hc : Calls call a body) : Occurs start t := by
  induction h with
  | body => exact hcall.starts hc.starts
  | part _ hu ih => exact ih.starts hu.starts

end

/- What the flag decides. -/

structure Machine.ShowsMessage (m : Machine) : Prop where
  read : ∃ x, m.store.lookup m.control.scopes exceptionName = some x ∧
    ∀ n, eval (n + 1) (.atom exceptionName) m = .ok (.typed x.value x.declared) m
  assign : ∀ {f value}, Statement.ofForm f = .assign exceptionName value → ∀ n,
    exec (n + 1) f m = Eval.withValue (eval n) value (fun v => do
      Eval.assign exceptionName v
      return .normal) m
  input : ∀ {f kind}, Statement.ofForm f = .input kind exceptionName → ∀ n,
    exec (n + 1) f m = (do
      Eval.assign exceptionName (← Eval.ofExcept (Eval.received (← Eval.readLine) kind))
      return .normal : Eval Completion) m

structure Machine.HidesMessage (m : Machine) : Prop where
  read : ∀ n, eval (n + 1) (.atom exceptionName) m = .error (.failed .exceptionOutsideHandler) m
  assign : ∀ {f value}, Statement.ofForm f = .assign exceptionName value → ∀ n,
    exec (n + 1) f m = .error (.failed .exceptionOutsideHandler) m
  input : ∀ {f kind}, Statement.ofForm f = .input kind exceptionName → ∀ n,
    exec (n + 1) f m = .error (.failed .exceptionOutsideHandler) m

theorem Store.exists_lookup {st : Store} {scopes : Scopes} {name : String}
    (h : st.contains scopes name = true) : ∃ x, st.lookup scopes name = some x := by
  rw [← Option.isSome_iff_exists]
  simpa [lookup, contains, List.any_eq_true] using h

theorem Expression.ofToken_exceptionName : ofToken exceptionName = .name exceptionName := by
  rfl

variable {m : Machine}

theorem Machine.showsMessage (hflag : m.control.handling = true)
    (hcontains : m.store.contains m.control.scopes exceptionName = true) : m.ShowsMessage := by
  have hvisible : Eval.checkVisible exceptionName m = .ok () m :=
    Eval.checkVisible_eq_ok.mpr ⟨fun _ => hflag, hcontains, rfl⟩
  refine ⟨?_, ?_, ?_⟩
  · obtain ⟨x, hx⟩ := Store.exists_lookup hcontains
    have hfinds : m.Finds exceptionName x := ⟨Expression.ofToken_exceptionName, fun _ => hflag, hx⟩
    exact ⟨x, hx, hfinds.eval⟩
  · intro f value hf n
    rw [exec, hf]
    exact bind_ok hvisible _
  · intro f kind hf n
    rw [exec, hf]
    exact bind_ok hvisible _

theorem Machine.hidesMessage (hflag : m.control.handling = false) : m.HidesMessage := by
  have haccess : Eval.checkAccess exceptionName m =
      .error (.failed .exceptionOutsideHandler) m := by
    refine (bind_ok (x := get) rfl _).trans ?_
    simp only [hflag]
    rfl
  have hvisible : Eval.checkVisible exceptionName m =
      .error (.failed .exceptionOutsideHandler) m := bind_error haccess _
  refine ⟨?_, ?_, ?_⟩
  · intro n
    rw [eval, Expression.ofForm, Expression.ofToken_exceptionName]
    have hlookup : Eval.lookup exceptionName m = .error (.failed .exceptionOutsideHandler) m :=
      bind_error haccess _
    exact bind_error hlookup _
  · intro f value hf n
    rw [exec, hf]
    exact bind_error hvisible _
  · intro f kind hf n
    rw [exec, hf]
    exact bind_error hvisible _

/-- Access to the message is lexical. Every expression and statement of a run is at some position of
the body of a method that is called. While it is done that method runs, and the flag is set if and
only if the position lies inside the handler of some `try` of the body. There the name of the
message is that of a variable; anywhere else it is an error, whatever variables of the name are in
scope. -/
theorem access_to_the_message_is_lexical (r : Registry) (sink : Sink) (source : Source)
    (limit : Option Nat) :
    let start := Machine.start r sink source limit
    (∀ t, Occurs start t → (∀ receiver name vs, t.work ≠ .call receiver name vs) →
      ∃ call a body p, Occurs start call ∧ Calls call a body ∧ Performs body p t) ∧
    (∀ call a body p t, Occurs start call → Calls call a body → Performs body p t →
      (∃ f, a.method.body.at? p = some f ∧ (t.work = .eval f ∨ t.work = .exec f)) ∧
      ∀ m, t.Passes m → m.control.activation = some a ∧
        (m.control.handling = true ↔ a.method.body.InHandler p) ∧
        (a.method.body.InHandler p → m.ShowsMessage) ∧
        (¬ a.method.body.InHandler p → m.HidesMessage)) ∧
    Error.exceptionOutsideHandler.kind = .name := by
  refine ⟨fun t ht hwork => ht.performs hwork, fun call a body p t hcall hc hp => ?_, rfl⟩
  obtain ⟨hactive, s, hs, hgives, hflag⟩ := hp.lexical hc
  refine ⟨⟨_, Site.form_at? hs, hgives.work_cases⟩, fun m hm => ?_⟩
  rw [← hflag, hm.control]
  refine ⟨hactive, .rfl, fun h => ?_, fun h => ?_⟩
  · have hcontains := (hp.occurs hcall hc).contains_message hm hgives.ne_call
    exact Machine.showsMessage (by rw [hm.control, h]) hcontains
  · exact Machine.hidesMessage (by rw [hm.control, Bool.eq_false_iff.mpr h])

/-- In the body of the `try` the name is an error though a local variable has it, and in the handler
it is read. -/
theorem sample_access_is_lexical :
    ∃ s, exec 4 Sample.shadowing Sample.shadowedMain.enterTry = .ok .raised s ∧
      s.enterHandler.ShowsMessage ∧
      Sample.shadowedThrow.store.lookup Sample.shadowedThrow.control.scopes exceptionName =
        some ⟨.string, .string "x"⟩ ∧
      Sample.shadowedThrow.HidesMessage := by
  have hcall : Occurs Sample.shadowedStart ⟨5, .call ⟨1, Sample.shadowed, []⟩ "main" [],
      after (Eval.create Sample.shadowed) Sample.shadowedStart⟩ :=
    ⟨[], 5, _, ⟨Sample.shadowed, _, Sample.shadowedStart, _, rfl, rfl, rfl⟩, .refl⟩
  have hc : Calls ⟨5, .call ⟨1, Sample.shadowed, []⟩ "main" [],
      after (Eval.create Sample.shadowed) Sample.shadowedStart⟩
      ⟨⟨1, Sample.shadowed, []⟩, Sample.losing⟩
      ⟨5, .exec Sample.losing.body, Sample.shadowedMain⟩ := .body rfl rfl rfl
  obtain ⟨s, hs⟩ : ∃ s, exec 4 Sample.shadowing Sample.shadowedMain.enterTry = .ok .raised s :=
    exists_raised (by decide +kernel)
  have hbody : Statement.ofForm Sample.losing.body =
      .attempt Sample.shadowing (.list [.atom "print", .atom "exception"]) := rfl
  have hlocals : Statement.ofForm Sample.shadowing =
      .bind [.list [.atom "string", .atom "exception", .atom "\"x\""]]
        ([] ++ [Sample.throwing]) := rfl
  have hlet : AwaitsAt ⟨4, .exec Sample.shadowing, Sample.shadowedMain.enterTry⟩
      [([] : List Form).length + 2] ⟨3, .exec Sample.throwing, Sample.shadowedThrow⟩ :=
    .inLet hlocals rfl rfl
  have hthrow : Performs ⟨5, .exec Sample.losing.body, Sample.shadowedMain⟩ [1, 2]
      ⟨3, .exec Sample.throwing, Sample.shadowedThrow⟩ :=
    (Performs.body.part (.guards (.body hbody))).part (.awaits hlet)
  have hprint : Performs ⟨5, .exec Sample.losing.body, Sample.shadowedMain⟩ [2]
      ⟨4, .exec (.list [.atom "print", .atom "exception"]), s.enterHandler⟩ :=
    Performs.body.part (.handles (.handler hbody hs))
  obtain ⟨-, hlexical, -⟩ := access_to_the_message_is_lexical ⟨[Sample.shadowed], []⟩ (.buffer "")
    (.queue []) none
  obtain ⟨-, -, hshows, -⟩ := (hlexical _ _ _ _ _ hcall hc hprint).2 _ .started
  obtain ⟨-, -, -, hhides⟩ := (hlexical _ _ _ _ _ hcall hc hthrow).2 _ .started
  exact ⟨s, hs, hshows (by decide +kernel), rfl, hhides (by decide +kernel)⟩

end ObjectLang
