import ObjectLang.Proofs.Failure
import ObjectLang.Proofs.Fitting
import ObjectLang.Proofs.Privacy

/-!
Variables of type `void`. No field and no parameter has this type: a class with such a declaration is
not loaded, and a template that comes to one is not expanded. Locals are not checked, so that a `let`
that declares a local with this type has it in its frame.
-/

namespace ObjectLang

/- Declarations that are refused. -/

inductive Form.DeclaresVoid : Form → Prop
  | field (name : String) (value : List Form) :
      DeclaresVoid (.list (.atom "field" :: .atom "void" :: .atom name :: value))
  | parameter (returns method name : String) (body : Form) {params : List Form}
      (h : .list [.atom "void", .atom name] ∈ params) :
      DeclaresVoid (.list [.atom "method", .atom returns, .atom method, .list params, body])

theorem Param.extend_void (method name : String) (before after : List Param) :
    extend method before (.list [.atom "void", .atom name]) ≠ .ok after := by
  intro h
  rw [extend] at h
  split at h
  · cases h
  · rw [if_pos (by rfl : TypeTag.ofName "void" = .void)] at h
    cases h

namespace Form.DeclaresVoid

variable {d : Form} (h : d.DeclaresVoid)
include h

theorem ne_atom (token : String) : d ≠ .atom token := by
  cases h <;> nofun

theorem not_added (b b' : ClassBody) : b.add d ≠ .ok b' := by
  intro hadd
  cases h with
  | field name value =>
    obtain ⟨f, hf, -⟩ := except_bind_eq_ok.mp hadd
    obtain _ | ⟨v, _ | ⟨w, rest⟩⟩ := value <;> cases hf
  | parameter returns method name body hmem =>
    obtain ⟨m, hm, -⟩ := except_bind_eq_ok.mp hadd
    obtain ⟨params, hparams, -⟩ := except_map_eq_ok.mp hm
    obtain ⟨before, after, hextend⟩ := exists_of_foldlM hparams hmem
    exact Param.extend_void method name before after hextend

theorem not_ofForms {decls : List Form} (hd : d ∈ decls) (name : String) (b : ClassBody) :
    ClassBody.ofForms name decls ≠ .ok b := by
  intro hok
  obtain ⟨b₁, b₂, hadd⟩ := exists_of_foldlM hok hd
  exact h.not_added b₁ b₂ hadd

theorem not_addHeir {rest : List Form} (hd : d ∈ rest) (r r' : Registry) (name : String) :
    r.addHeir name rest ≠ .ok r' := by
  intro hok
  unfold Registry.addHeir at hok
  split at hok
  · split at hok
    · split at hok
      · obtain ⟨body, hbody, -⟩ := except_map_eq_ok.mp hok
        have hmem := List.mem_of_ne_of_mem (h.ne_atom _) (List.mem_of_ne_of_mem (h.ne_atom _) hd)
        exact h.not_ofForms hmem name body hbody
      · cases hok
    · cases hok
  · obtain ⟨body, hbody, -⟩ := except_map_eq_ok.mp hok
    exact h.not_ofForms hd name body hbody

theorem not_declared {rest : List Form} (hd : d ∈ rest) (r r' : Registry) :
    r.declare (.list (.atom "class" :: rest)) ≠ .ok r' := by
  intro hok
  change r.declareClass _ = _ at hok
  unfold Registry.declareClass at hok
  split at hok
  · rename_i heq
    cases heq
    obtain ⟨_, -, hok⟩ := except_bind_eq_ok.mp hok
    exact h.not_addHeir (List.mem_of_ne_of_mem (h.ne_atom _) hd) r r' _ hok
  · cases hok

theorem load_fails {forms rest : List Form} (hd : d ∈ rest)
    (hclass : .list (.atom "class" :: rest) ∈ forms) :
    ∃ e, Registry.load forms = .error (.failed e) := by
  unfold Registry.load
  cases hr : Registry.declareAll forms with
  | error e => exact ⟨e, rfl⟩
  | ok r =>
    obtain ⟨r₁, r₂, hok⟩ := exists_of_foldlM hr hclass
    exact absurd hok (h.not_declared hd r₁ r₂)

/-- The request for an instance with such a declaration leaves the registry as it is. -/
theorem resolve_fails {r : Registry} {name template : String} {args : List String} {t : Template}
    {decls : List Form} (hd : d ∈ decls) (hfind : r.find? name = none)
    (hs : CompositeName.split? name = some (template, args)) (ht : r.template? template = some t)
    (hexpand : t.expand args = .ok decls) :
    ∃ e, Registry.resolve name r = .error (.failed e) r := by
  cases hc : r.expand name with
  | error e => exact ⟨e, Registry.resolve_of_expand_error hfind hc⟩
  | ok c =>
    obtain ⟨template', args', t', decls', hs', ht', hexpand', -, hbody, -⟩ :=
      Registry.expand_eq_ok.mp hc
    cases hs.symm.trans hs'
    cases ht.symm.trans ht'
    cases hexpand.symm.trans hexpand'
    exact absurd hbody (h.not_ofForms hd name c.own)

end Form.DeclaresVoid

/- Where the frames of a run come from. -/

/-- A frame of a run holds the fields of an object or the message of the run, or has been added by a
task of the run. -/
inductive Machine.Accounts (start : Machine) : Outline → Prop
  | fields (c : Class) : start.Accounts (.fields c)
  | message : start.Accounts .message
  | added {t : Task} {o : Outline} (ht : Occurs start t) (h : t.Adds o) : start.Accounts o

theorem Task.Writes.outline? {t : Task} {s s' : Store} (h : t.Writes s s') (i : FrameId) :
    s'.outline? i = s.outline? i := by
  cases h with
  | target _ _ ha | message _ ha =>
    obtain ⟨_, _, x, -, -, hx, hy⟩ := Store.assignment_eq_ok ha
    exact Store.outline?_set hx (Variable.assign_declared hy) i
  | ambient _ hx ha => exact Store.outline?_set hx (Variable.assign_declared ha) i

theorem lasts_accounts (start : Machine) :
    Lasts start fun s => ∀ i o, s.outline? i = some o → start.Accounts o where
  frame ht h hs i o ho := by
    obtain ho | ⟨-, rfl⟩ := Store.outline?_push ho
    · exact hs i o ho
    · exact .added ht h
  object hc hs i o ho := by
    obtain ho | ⟨j, -, hj⟩ := Store.outline?_pushAll ho
    · exact hs i o ho
    · obtain ⟨d, -, -, rfl⟩ := Class.outline_fieldFrames hc hj
      exact .fields d
  write _ _ h hs i o ho := hs i o (h.outline? i ▸ ho)

section Runs

variable {r : Registry} {sink : Sink} {source : Source} {limit : Option Nat} {m : Machine}

theorem Reachable.accounts (hm : Reachable (Machine.start r sink source limit) m) {i : FrameId}
    {o : Outline} (ho : m.store.outline? i = some o) :
    (Machine.start r sink source limit).Accounts o := by
  refine hm.lasts (lasts_accounts _) (fun i o ho => ?_) i o ho
  obtain ho | ⟨-, rfl⟩ := Store.outline?_push ho
  · simp [Store.empty, Store.outline?, Store.frame?] at ho
  · exact .message

/-- The fields in the store are those of registered classes. -/
theorem Reachable.fields_declared (h : r.Orderly)
    (hm : Reachable (Machine.start r sink source limit) m) {i : FrameId} {c : Class}
    (ho : m.store.outline? i = some (.fields c)) : c.own.Declared := by
  obtain ⟨k, hand, hsteps⟩ := hm.steps
  have hregistered :=
    hsteps.keeps (fun _ _ => Step.registered) (registered_start h sink source limit)
  exact hregistered.registry.declared c (hregistered.classes ho) c.own List.mem_cons_self

/-- The method whose body starts is declared in a registered class. -/
theorem Occurs.called_declared (h : r.Orderly) {t u : Task} {a : Activation}
    (ht : Occurs (Machine.start r sink source limit) t) (hcall : Calls t a u) :
    a.receiver.cls.own.Declared ∧ a.method ∈ a.receiver.cls.own.methods := by
  have hu : Reachable (Machine.start r sink source limit) u.machine :=
    .started (ht.starts hcall.starts)
  have ha : u.machine.control.activation = some a := by
    cases hcall
    rfl
  have hclass := hu.mem_classes h (hu.holds_receiver ha)
  exact ⟨(hu.orderly h).declared _ hclass _ List.mem_cons_self, hu.mem_methods ha⟩

end Runs

/- Variables by their names and types. -/

def Frame.Has (f : Frame) (name : String) (type : TypeTag) : Prop :=
  ∃ x, (name, x) ∈ f.bindings ∧ x.declared = type

theorem Frame.has_iff {f : Frame} {name : String} {type : TypeTag} :
    f.Has name type ↔ (name, type) ∈ f.outline.entries := by
  simp [Has, outline]

def Local.Declares (decls : List Form) (name : String) (type : TypeTag) : Prop :=
  ∃ d ∈ decls, ∃ l, ofForm d = .ok l ∧ l.name = name ∧ l.type = type

theorem Local.declares_iff {decls : List Form} {ls : List Local} (h : decls.mapM ofForm = .ok ls)
    {name : String} {type : TypeTag} :
    Declares decls name type ↔ (name, type) ∈ (Outline.locals ls).entries := by
  simp only [Outline.locals, List.mem_map, Prod.mk.injEq]
  constructor
  · rintro ⟨d, hd, l, hl, hname, htype⟩
    obtain ⟨l', hl', hd'⟩ := exists_of_mapM h hd
    cases hl.symm.trans hd'
    exact ⟨l, hl', hname, htype⟩
  · rintro ⟨l, hl, hname, htype⟩
    obtain ⟨d, hd, hd'⟩ := mem_of_mapM h hl
    exact ⟨d, hd, l, hd', hname, htype⟩

/-- In all runs of a loaded program, the only variables of type `void` are locals: each has been
declared so by a `let` that was executed in a method of a registered class, and the frame of a `let`
has just those variables of this type that the `let` declares. A class with a field or a parameter of
this type is not loaded, and a template that comes to such a declaration is not expanded. -/
theorem only_locals_are_void {forms : List Form} {r : Registry}
    (hload : Registry.load forms = .ok r) {sink : Sink} {source : Source} {limit : Option Nat} :
    (∀ m, Reachable (Machine.start r sink source limit) m →
      ∀ i f name, m.store.frame? i = some f → f.Has name .void →
        f.role = .locals ∧ ∃ t a g decls body, Occurs (Machine.start r sink source limit) t ∧
          t.work = .exec g ∧ Statement.ofForm g = .bind decls body ∧
          Local.Declares decls name .void ∧ t.machine.control.activation = some a ∧
          a.receiver.cls ∈ t.machine.registry.classes ∧ a.method ∈ a.receiver.cls.own.methods ∧
          a.method.body.Encloses g) ∧
      (∀ t id decls u, Opens t (.locals id decls) u →
        ∃ f, u.machine.store.frame? id = some f ∧
          ∀ name, f.Has name .void ↔ Local.Declares decls name .void) ∧
      (∀ forms' rest d, .list (.atom "class" :: rest) ∈ forms' → d ∈ rest → d.DeclaresVoid →
        ∃ e, Registry.load forms' = .error (.failed e)) ∧
      ∀ (r' : Registry) name template args t decls d, r'.find? name = none →
        CompositeName.split? name = some (template, args) → r'.template? template = some t →
        t.expand args = .ok decls → d ∈ decls → d.DeclaresVoid →
        ∃ e, Registry.resolve name r' = .error (.failed e) r' := by
  have horderly := Registry.orderly_load hload
  refine ⟨?_, ?_, fun _ _ _ hclass hd h => h.load_fails hd hclass,
    fun _ _ _ _ _ _ _ hfind hs ht hexpand hd h => h.resolve_fails hd hfind hs ht hexpand⟩
  · intro m hm i f name hf hvoid
    have ho : m.store.outline? i = some f.outline := by rw [Store.outline?, hf]; rfl
    have hentry := Frame.has_iff.mp hvoid
    have hrole : f.role = f.outline.role := rfl
    rw [hrole]
    generalize f.outline = o at ho hentry
    cases hm.accounts ho with
    | message => simp [Outline.message] at hentry
    | fields c =>
      obtain ⟨field, hfield, heq⟩ := List.mem_map.mp hentry
      have hdeclared := (hm.fields_declared horderly ho).fields_declarable field hfield
      exact absurd (congrArg Prod.snd heq) hdeclared.2
    | @added t _ ht h =>
      cases h with
      | message => simp [Outline.message] at hentry
      | arguments hcall =>
        obtain ⟨hdeclared, hmem⟩ := ht.called_declared horderly hcall
        obtain ⟨p, hp, heq⟩ := List.mem_map.mp hentry
        have hparam := hdeclared.params_declarable _ hmem p hp
        exact absurd (congrArg Prod.snd heq) hparam.2
      | locals hw hg hls =>
        obtain ⟨call, a, blocks, ha, -, hmethod, hencloses⟩ := ht.running hw
        have hstarted : Reachable (Machine.start r sink source limit) t.machine := .started ht
        have hclass := hstarted.mem_classes horderly (hstarted.holds_receiver ha)
        exact ⟨rfl, t, a, _, _, _, ht, hw, hg, (Local.declares_iff hls).mpr hentry, ha, hclass,
          hmethod, hencloses⟩
  · intro t id decls u hopens
    obtain ⟨ls, hls, ho⟩ := hopens.framed
    obtain ⟨f, hf, houtline⟩ := Option.map_eq_some_iff.mp ho
    refine ⟨f, hf, fun name => ?_⟩
    rw [Frame.has_iff, houtline, Local.declares_iff hls]

/- A program that keeps in a local what a method without a result gives. -/

namespace Sample

def idle : Method := ⟨"nop", .void, [], .list [.atom "begin"]⟩

def kept : Form :=
  .list [.atom "void", .atom "x", .list [.atom "call", .atom "me", .atom "nop"]]

def report : Form := .list [.atom "print", .atom "\"stored\""]

def storing : Method := ⟨"main", .void, [], .list [.atom "let", .list [kept], report]⟩

def store : Class := ⟨⟨"main", [], [idle, storing]⟩, []⟩

def storeForms : List Form :=
  [.list [.atom "class", .atom "main",
    .list [.atom "method", .atom "void", .atom "nop", .list [], idle.body],
    .list [.atom "method", .atom "void", .atom "main", .list [], storing.body]]]

def stored : Machine := Machine.start ⟨[store], []⟩ (.buffer "") (.queue []) none

def storingBody : Task :=
  ⟨8, .exec storing.body, (after (Eval.create store) stored).enterCall ⟨1, store, []⟩ storing []⟩

theorem occurs_storingBody : Occurs stored storingBody := by
  have hmain : Awaits ⟨8, .call ⟨1, store, []⟩ "main" [], after (Eval.create store) stored⟩
      storingBody := .body rfl rfl rfl
  exact ⟨[], 8, _, ⟨store, _, stored, _, rfl, rfl, rfl⟩, .single (.awaits hmain)⟩

def voidBox : Template :=
  ⟨"box", ["t"], [.list [.atom "field", .atom "t", .atom "item"]]⟩

end Sample

/-- The program is loaded and completes, with a variable of type `void` in its store. -/
theorem void_local_is_stored :
    ∃ r m, Registry.load Sample.storeForms = .ok r ∧
      Eval.run 9 (Machine.start r (.buffer "") (.queue []) none) = .ok .completed m ∧
      m.sink = .buffer "stored\n" ∧ ∃ f, m.store.frame? 4 = some f ∧ f.Has "x" .void := by
  have hruns : EStateM.run' (do
      let outcome ← Eval.run 9
      let m ← get
      return (outcome, m.sink, m.store.outline? 4)) Sample.stored =
        some (.completed, .buffer "stored\n", some ⟨.locals, [("x", .void)]⟩) := by
    cbv
  cases hrun : Eval.run 9 Sample.stored with
  | error _ _ => simp [EStateM.run', EStateM.run, bind, EStateM.bind, hrun] at hruns
  | ok outcome m =>
    simp only [EStateM.run', EStateM.run, bind, EStateM.bind, hrun, get, getThe, MonadStateOf.get,
      EStateM.get, pure, EStateM.pure, Option.some.injEq, Prod.mk.injEq] at hruns
    obtain ⟨rfl, hsink, ho⟩ := hruns
    obtain ⟨f, hf, houtline⟩ := Option.map_eq_some_iff.mp ho
    exact ⟨_, m, rfl, hrun, hsink, f, hf, Frame.has_iff.mpr (by simp [houtline])⟩

theorem sample_local_is_void :
    Registry.load Sample.storeForms = .ok Sample.stored.registry ∧
      (∃ u, Occurs Sample.stored u ∧ Opens Sample.storingBody (.locals 4 [Sample.kept]) u ∧
        ∃ f, u.machine.store.frame? 4 = some f ∧ f.Has "x" .void ∧ f.role = .locals) ∧
      (∃ e, Registry.load [.list [.atom "class", .atom "main",
        .list [.atom "field", .atom "void", .atom "x"]]] = .error (.failed e)) ∧
      ∃ e, Registry.resolve "box@void" ⟨[], [Sample.voidBox]⟩ =
        .error (.failed e) ⟨[], [Sample.voidBox]⟩ := by
  have hload : Registry.load Sample.storeForms = .ok Sample.stored.registry := rfl
  obtain ⟨hvoid, hframe, hclass, htemplate⟩ :=
    @only_locals_are_void _ _ hload (.buffer "") (.queue []) none
  obtain ⟨frame, m₁, hd, hnext⟩ : ∃ frame m₁, Eval.locals (eval 7) (.empty .locals) [Sample.kept]
      Sample.storingBody.machine = .ok (some frame) m₁ ∧ m₁.store.next = 4 := ⟨_, _, rfl, rfl⟩
  have hbody : Statement.ofForm Sample.storing.body =
      .bind [Sample.kept] ([] ++ [Sample.report]) := rfl
  have hopens : Opens Sample.storingBody (.locals m₁.store.next [Sample.kept])
      ⟨7, .exec Sample.report, m₁.enterLet frame⟩ := .inLet hbody hd rfl
  rw [hnext] at hopens
  have hu := Sample.occurs_storingBody.starts hopens.starts
  obtain ⟨f, hf, hiff⟩ := hframe _ _ _ _ hopens
  have hx : f.Has "x" .void := (hiff "x").mpr ⟨Sample.kept, List.mem_cons_self, _, rfl, rfl, rfl⟩
  obtain ⟨hrole, -⟩ := hvoid _ (.started hu) 4 f "x" hf hx
  refine ⟨hload, ⟨_, hu, hopens, f, hf, hx, hrole⟩, ?_, ?_⟩
  · exact hclass _ _ _ List.mem_cons_self (by simp) (.field "x" [])
  · exact htemplate _ "box@void" "box" ["void"] Sample.voidBox _ _ rfl rfl rfl rfl
      List.mem_cons_self (.field "item" [])

end ObjectLang
