import ObjectLang.Proofs.Comparison

/-!
What a method returns. A returned value passes the blocks and loops around the `return` unchanged, and
the call checks it. A variable whose type fits the declared type can be returned unless it holds null
and is of a type derived from the declared one: such a null keeps the tag of its variable, which the
declared class does not accept, though a variable of the declared type would take it.
-/

namespace ObjectLang

variable {v : Value} {m m₁ m₂ s : Machine} {n : Nat} {t u body : Task} {a : Activation}

def Task.Returns (t : Task) (v : Value) (s : Machine) : Prop :=
  ∃ f, t.work = .exec f ∧ exec t.fuel f t.machine = .ok (.returned v) s

/- A returned value on its way out of the method. -/

theorem Rounds.returns {test body : Form} {k j : Nat} (hr : Rounds n test body k m m₁) (hk : k < j)
    (hc : Eval.condition (eval n) .loop test m₁ = .ok (some true) m₂)
    (hb : exec n body m₂ = .ok (.returned v) s) :
    Eval.loop (eval n) (exec n) test body j m = .ok (.returned v) s := by
  obtain ⟨j, rfl⟩ := Nat.exists_eq_succ_of_ne_zero (Nat.ne_of_gt (Nat.zero_lt_of_lt hk))
  induction hr generalizing j with
  | none => exact (bind_ok hc _).trans ((bind_ok hb _).trans rfl)
  | more htest hbody _ ih =>
    obtain ⟨j, rfl⟩ :=
      Nat.exists_eq_succ_of_ne_zero (Nat.ne_of_gt (Nat.zero_lt_of_lt (Nat.lt_of_succ_lt_succ hk)))
    exact (Eval.loop_cons _ htest hbody).trans (ih hc j (Nat.lt_of_succ_lt_succ hk))

theorem Eval.attempt_of_returned {f handler : Form}
    (h : guarded (exec n) f handler m.enterTry = .ok (.returned v) s) :
    attempt (exec n) f handler m = .ok (.returned v) { s with control := m.control } := by
  have htry : (alloc .forException >>= fun frame => inTry frame (guarded (exec n) f handler)) m =
      .ok (.returned v) { s with control := m.control } :=
    (Restores.guarded (restores_exec n) f handler).inTry_eq_ok.mpr ⟨s, h, rfl⟩
  exact (attempt_eq (exec n) f handler m).trans ((bind_ok htry _).trans rfl)

theorem Continues.returns (h : Continues t u) (hu : u.Returns v s) : t.Returns v s := by
  obtain ⟨ha, hcalls, hopens⟩ := h
  obtain ⟨g, hg, hexec⟩ := hu
  cases ha with
  | inBlock hf hb =>
    cases hg
    refine ⟨_, rfl, (congrFun (exec_eq hf) _).trans ?_⟩
    exact (Eval.block_append hb _).trans ((bind_ok hexec _).trans rfl)
  | consequent hf hc | alternative hf hc =>
    cases hg
    exact ⟨_, rfl, (congrFun (exec_eq hf) _).trans ((bind_ok hc _).trans hexec)⟩
  | loopBody hf hr hk hc =>
    cases hg
    exact ⟨_, rfl, (congrFun (exec_eq hf) _).trans (hr.returns hk hc hexec)⟩
  | body hs hl hb => exact absurd (.body hs hl hb) (hcalls _)
  | inLet hf hd hb => exact absurd (.inLet hf hd hb) (hopens _)
  | _ => cases hg

theorem Opens.returns {b : Block} (h : Opens t b u) (hu : u.Returns v s) :
    t.Returns v { s with control := t.machine.control } := by
  obtain ⟨g, hg, hexec⟩ := hu
  cases h with
  | inLet hf hd hb =>
    cases hg
    have hcontrol := (Restores.pervasive.locals (restores_eval _) _ _).of_ok hd
    refine ⟨_, rfl, (congrFun (exec_eq hf) _).trans ((bind_ok hd _).trans ?_)⟩
    refine bind_eq_ok.mpr ⟨_, _, rfl, ?_⟩
    refine (Restores.pervasive.block (restores_exec _) _).inScope_eq_ok.mpr ⟨s, ?_, ?_⟩
    · exact (Eval.block_append hb _).trans ((bind_ok hexec _).trans rfl)
    · exact congrArg (fun c => { s with control := c }) hcontrol.symm
  | inTry hf =>
    cases hg
    refine ⟨_, rfl, (congrFun (exec_eq hf) _).trans (Eval.attempt_of_returned ?_)⟩
    exact (bind_ok hexec _).trans rfl
  | @inHandler f body _ n m₁ m hf hb =>
    cases hg
    have hguarded : Eval.guarded (exec n) body g m.enterTry =
        .ok (.returned v) { s with control := m₁.control } :=
      (bind_ok hb _).trans ((restores_exec n g).inHandler_eq_ok.mpr ⟨s, hexec, rfl⟩)
    have hend := Eval.attempt_of_returned hguarded
    exact ⟨f, rfl, (congrFun (exec_eq hf) m).trans hend⟩

/-- What a statement in the body of a method returns, the body returns. -/
theorem Inside.returns {blocks : List Block} (h : Inside body blocks t) (ht : t.Returns v s) :
    body.Returns v { s with control := body.machine.control } := by
  induction h generalizing s with
  | body =>
    obtain ⟨f, hf, hexec⟩ := ht
    have hcontrol := (restores_exec _ _).of_ok hexec
    rw [← hcontrol]
    exact ⟨f, hf, hexec⟩
  | opened _ hb ih =>
    have hbody := ih (hb.returns ht)
    exact hbody
  | continued _ hu ih => exact ih (hu.returns ht)

/-- The call ends with what its check makes of the value that the body returns. -/
theorem Calls.finish {receiver : View} {name : String} {vs : List Value}
    (h : Calls ⟨n, .call receiver name vs, m⟩ a body) (hbody : body.Returns v s) :
    Eval.callMethod (exec n) receiver name vs m =
      Eval.ofExcept (s.registry.returnValue a.method (.returned v))
        { s with control := m.control } := by
  obtain ⟨hs, hl, hb⟩ := h
  obtain ⟨f, hf, hexec⟩ := hbody
  cases hf
  refine (Eval.callMethod_eq_invoke hs hl).trans ?_
  refine (bind_ok (Eval.ofExcept_eq_ok.mpr ⟨hb, rfl⟩) _).trans ?_
  refine (bind_ok (x := Eval.alloc _) rfl _).trans ?_
  exact bind_ok ((restores_exec _ _).inCall_eq_ok.mpr ⟨s, hexec, rfl⟩) _

/- The check of a variable's value. -/

theorem exec_return {f : Form} {b : Operand} (ha : m.control.activation = some a)
    (hb : eval n f m = .ok b m₁) (hv : b.value ≠ .exception) :
    exec (n + 1) (.list [.atom "return", f]) m =
      .ok (.returned (Eval.tagNull a.method.returns b.value)) m₁ := by
  have hform : Statement.ofForm (.list [.atom "return", f]) = .result (some f) := rfl
  refine (congrFun (exec_eq hform) m).trans ?_
  refine (bind_ok (Eval.activation_eq_ok.mpr ⟨ha, rfl⟩) _).trans ?_
  exact Eval.withValue_of_yields ⟨b, hb, rfl, Value.isException_eq_false.mpr hv⟩

theorem Registry.returnValue_of_isReference {r : Registry} {method : Method}
    (hv : v.isReference = true) :
    r.returnValue method (.returned v) = r.checkReturn method v := by
  cases v with
  | null tag => rfl
  | object v => rfl
  | _ => cases hv

def Variable.NullBelow (x : Variable) (t : TypeTag) : Prop :=
  x.declared ≠ t ∧ ∃ tag, x.value = .null tag

section Runs

variable {forms : List Form} {r : Registry} {sink : Sink} {source : Source} {limit : Option Nat}
  (hload : Registry.load forms = .ok r) (hm : Reachable (Machine.start r sink source limit) m)
  {token : String} {x : Variable} (hx : m.Finds token x)

include hload hm hx

theorem Reachable.tagNull_eq {sub : String} (hsub : x.declared = .ofClass sub) (t : TypeTag) :
    Eval.tagNull t x.value = x.value := by
  obtain hv | ⟨w, hv, -⟩ := hm.class_cases hload hx.found hsub <;> rw [hv] <;> rfl

/-- A variable of the declared type would take the value, whatever it is. -/
theorem Reachable.admits_value {sup sub : String} {k : Nat} (hsub : x.declared = .ofClass sub)
    (habove : m.registry.Above sup sub k) : (TypeTag.ofClass sup).admits x.value = true := by
  obtain hv | ⟨w, hv, hclass, haccepts⟩ := hm.class_cases hload hx.found hsub
  · rw [hv]
    rfl
  · rw [hv]
    exact habove.accepts (hm.orderly (Registry.orderly_load hload)) hclass haccepts

theorem Reachable.returnValue_ok {method : Method} {sup sub : String} {k : Nat}
    (hreturns : method.returns = .ofClass sup) (hsub : x.declared = .ofClass sub)
    (habove : m.registry.Above sup sub k) (hfits : ¬ x.NullBelow (.ofClass sup)) :
    m.registry.returnValue method (.returned x.value) = .ok (x.value.retag (.ofClass sup)) := by
  have hadmits := hm.admits_value hload hx hsub habove
  obtain hv | ⟨w, hv, -⟩ := hm.class_cases hload hx.found hsub
  · have hsame : sub = sup := by
      refine Decidable.of_not_not fun hne => hfits ⟨?_, _, hv⟩
      rw [hsub]
      exact fun heq => hne (TypeTag.ofClass.inj heq)
    subst hsame
    obtain ⟨c, hc, -⟩ := habove
    have haccepts : m.registry.classAccepts (.ofClass sub) (.ofClass sub) = true :=
      (Registry.Above.self hc).classAccepts
    rw [hv, Registry.returnValue_of_isReference rfl, Registry.checkReturn, hreturns, if_pos]
    exact haccepts
  · rw [hv] at hadmits ⊢
    rw [Registry.returnValue_of_isReference rfl, Registry.checkReturn, hreturns, if_pos]
    exact hadmits

theorem Reachable.returnValue_error {method : Method} {sup sub : String} {k : Nat}
    (hreturns : method.returns = .ofClass sup) (hsub : x.declared = .ofClass sub)
    (habove : m.registry.Above sup sub k) (hno : x.NullBelow (.ofClass sup)) :
    m.registry.returnValue method (.returned x.value) =
      .error (.returnMismatch method.name (.ofClass sup) (.ofClass sub)) := by
  have horderly := hm.orderly (Registry.orderly_load hload)
  obtain ⟨hne, tag, hnull⟩ := hno
  obtain hv | ⟨w, hv, -⟩ := hm.class_cases hload hx.found hsub
  · have hrefused : m.registry.classAccepts (.ofClass sup) (.ofClass sub) = false := by
      cases k with
      | zero => exact absurd (habove.eq_of_zero ▸ hsub) hne
      | succ k =>
        refine Bool.eq_false_iff.mpr fun h => ?_
        obtain ⟨c, hc, hvalid⟩ := Registry.classAccepts_iff.mp h
        rw [← Registry.accepts_iff, habove.not_accepts horderly hc] at hvalid
        cases hvalid
    have hreturnable : m.registry.returnable (.ofClass sup) (.null (some (.ofClass sub))) = false :=
      hrefused
    rw [hv, Registry.returnValue_of_isReference rfl, Registry.checkReturn, hreturns, hreturnable]
    rfl
  · cases hv.symm.trans hnull

end Runs

/-- In a method that declares a class type, a variable of that type or of one derived from it can be
returned, unless it is of a derived type and holds null: the call ends with its value, a null retagged.
A null of a derived type is an error of the call, although an assignment to a variable of the declared
type would take it. While a run goes on in which the program has been loaded, the declared type is
registered, so variables of the declared type itself can always be returned. -/
theorem returned_variables_fit {forms : List Form} {r : Registry}
    (hload : Registry.load forms = .ok r) {sink : Sink} {source : Source} {limit : Option Nat}
    {m : Machine} (hm : Reachable (Machine.start r sink source limit) m) :
    (∀ a sup, m.control.activation = some a → a.method.returns = .ofClass sup →
      ∀ token x sub k, m.Finds token x → x.declared = .ofClass sub → m.registry.Above sup sub k →
        (TypeTag.ofClass sup).admits x.value = true ∧
        (∀ fuel, exec (fuel + 2) (.list [.atom "return", .atom token]) m =
          .ok (.returned x.value) m) ∧
        (¬ x.NullBelow (.ofClass sup) →
          m.registry.returnValue a.method (.returned x.value) =
            .ok (x.value.retag (.ofClass sup)) ∧
          ∀ fuel n receiver name vs outer body blocks,
            Calls ⟨n, .call receiver name vs, outer⟩ a body →
            Inside body blocks ⟨fuel + 2, .exec (.list [.atom "return", .atom token]), m⟩ →
            Eval.callMethod (exec n) receiver name vs outer =
              .ok (x.value.retag (.ofClass sup)) { m with control := outer.control }) ∧
        (x.NullBelow (.ofClass sup) →
          m.registry.returnValue a.method (.returned x.value) =
            .error (.returnMismatch a.method.name (.ofClass sup) (.ofClass sub)) ∧
          ∀ fuel n receiver name vs outer body blocks,
            Calls ⟨n, .call receiver name vs, outer⟩ a body →
            Inside body blocks ⟨fuel + 2, .exec (.list [.atom "return", .atom token]), m⟩ →
            Eval.callMethod (exec n) receiver name vs outer =
              .error (.failed (.returnMismatch a.method.name (.ofClass sup) (.ofClass sub)))
                { m with control := outer.control })) ∧
    (Underway (Machine.start r sink source limit) m →
      ∀ a sup, m.control.activation = some a → a.method.returns = .ofClass sup →
        m.registry.Above sup sup 0) := by
  constructor
  · intro a sup ha hreturns token x sub k hx hsub habove
    have hexec : ∀ fuel, exec (fuel + 2) (.list [.atom "return", .atom token]) m =
        .ok (.returned x.value) m := by
      intro fuel
      rw [exec_return ha (hx.eval fuel) (hm.ne_exception hload hx)]
      exact congrArg (fun v => EStateM.Result.ok (Completion.returned v) m)
        (hm.tagNull_eq hload hx hsub _)
    have hcall : ∀ fuel n receiver name vs outer body blocks,
        Calls ⟨n, .call receiver name vs, outer⟩ a body →
        Inside body blocks ⟨fuel + 2, .exec (.list [.atom "return", .atom token]), m⟩ →
        Eval.callMethod (exec n) receiver name vs outer =
          Eval.ofExcept (m.registry.returnValue a.method (.returned x.value))
            { m with control := outer.control } := by
      intro fuel n receiver name vs outer body blocks hcalls hinside
      have hend := hcalls.finish (hinside.returns ⟨_, rfl, hexec fuel⟩)
      exact hend
    refine ⟨hm.admits_value hload hx hsub habove, hexec, ?_, ?_⟩
    · intro hfits
      have hvalue := hm.returnValue_ok hload hx hreturns hsub habove hfits
      refine ⟨hvalue, fun fuel n receiver name vs outer body blocks hcalls hinside => ?_⟩
      rw [hcall fuel n receiver name vs outer body blocks hcalls hinside, hvalue]
      rfl
    · intro hno
      have herror := hm.returnValue_error hload hx hreturns hsub habove hno
      refine ⟨herror, fun fuel n receiver name vs outer body blocks hcalls hinside => ?_⟩
      rw [hcall fuel n receiver name vs outer body blocks hcalls hinside, herror]
      rfl
  · intro hunderway a sup ha hreturns
    obtain ⟨c, hc⟩ := Option.isSome_iff_exists.mp (hunderway.knows_returns hload ha sup hreturns)
    exact .self hc

/- A program that returns a null of a derived type. -/

namespace Sample

def returning : Method := ⟨"main", .ofClass "main", [], .list [.atom "return", .atom "x"]⟩

def owner : Class :=
  ⟨⟨"main", [⟨"x", .ofClass "sub", none⟩, ⟨"y", .ofClass "main", none⟩], [returning]⟩, []⟩

def owned : Class := ⟨⟨"sub", [], []⟩, owner.line⟩

def ownerForms : List Form :=
  [.list [.atom "class", .atom "main", .list [.atom "field", .atom "sub", .atom "x"],
      .list [.atom "field", .atom "main", .atom "y"],
      .list [.atom "method", .atom "main", .atom "main", .list [], returning.body]],
    .list [.atom "class", .atom "sub", .atom "inherits", .atom "main"]]

def owning : Machine := Machine.start ⟨[owner, owned], []⟩ (.buffer "") (.queue []) none

def asked : Machine :=
  (after (Eval.create owner) owning).enterCall ⟨1, owner, []⟩ returning []

theorem calls_asked :
    Calls ⟨8, .call ⟨1, owner, []⟩ "main" [], after (Eval.create owner) owning⟩
      ⟨⟨1, owner, []⟩, returning⟩ ⟨8, .exec returning.body, asked⟩ :=
  .body rfl rfl rfl

theorem underway_asked : Underway owning asked :=
  .started ⟨owner, _, owning, _, rfl, rfl, rfl⟩ (.single calls_asked.starts)

theorem above_owned : asked.registry.Above "main" "sub" 1 :=
  .of_parent (c := owned) rfl rfl (by decide)

end Sample

/-- The program of the sample ends with a type error, for its null has the tag of a derived type. -/
theorem null_of_derived_type_is_not_returned :
    ∃ x, Registry.load Sample.ownerForms = .ok Sample.owning.registry ∧
      Underway Sample.owning Sample.asked ∧ Sample.asked.Finds "x" x ∧
      x.declared = .ofClass "sub" ∧ Sample.asked.registry.Above "main" "sub" 1 ∧
      Sample.asked.control.activation = some ⟨⟨1, Sample.owner, []⟩, Sample.returning⟩ ∧
      Sample.returning.returns = .ofClass "main" ∧
      ∃ s, Eval.run 9 Sample.owning =
        .error (.failed (.returnMismatch "main" (.ofClass "main") (.ofClass "sub"))) s :=
  ⟨_, rfl, Sample.underway_asked, ⟨rfl, nofun, rfl⟩, rfl, Sample.above_owned, rfl, rfl, _, rfl⟩

/-- In the sample, the null of the declared type could be returned, and returning the other ends the
call with an error. -/
theorem sample_null_is_returned :
    Registry.load Sample.ownerForms = .ok Sample.owning.registry ∧
      Reachable Sample.owning Sample.asked ∧
      (∃ y, Sample.asked.Finds "y" y ∧ y.declared = .ofClass "main" ∧
        Sample.asked.registry.returnValue Sample.returning (.returned y.value) =
          .ok (.null (some (.ofClass "main")))) ∧
      ∃ s, Eval.callMethod (exec 8) ⟨1, Sample.owner, []⟩ "main" []
          (after (Eval.create Sample.owner) Sample.owning) =
        .error (.failed (.returnMismatch "main" (.ofClass "main") (.ofClass "sub"))) s := by
  have hload : Registry.load Sample.ownerForms = .ok Sample.owning.registry := rfl
  have hx : Sample.asked.Finds "x" ⟨.ofClass "sub", .null (some (.ofClass "sub"))⟩ :=
    ⟨rfl, nofun, rfl⟩
  have hy : Sample.asked.Finds "y" ⟨.ofClass "main", .null (some (.ofClass "main"))⟩ :=
    ⟨rfl, nofun, rfl⟩
  obtain ⟨hreturned, hself⟩ := returned_variables_fit hload Sample.underway_asked.reachable
  obtain ⟨-, -, hfits, -⟩ := hreturned ⟨⟨1, Sample.owner, []⟩, Sample.returning⟩ _ rfl rfl _ _ _ 0 hy
    rfl (hself Sample.underway_asked _ _ rfl rfl)
  obtain ⟨-, -, -, hno⟩ := hreturned ⟨⟨1, Sample.owner, []⟩, Sample.returning⟩ _ rfl rfl _ _ _ 1 hx
    rfl Sample.above_owned
  obtain ⟨-, hcall⟩ := hno ⟨by decide, _, rfl⟩
  exact ⟨hload, Sample.underway_asked.reachable, ⟨_, hy, rfl, (hfits fun h => h.1 rfl).1⟩, _,
    hcall 6 8 _ _ _ _ _ [] Sample.calls_asked .body⟩

end ObjectLang
