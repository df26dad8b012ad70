import ObjectLang.Proofs.Effect
import ObjectLang.Proofs.Heap

/-!
Privacy of fields. A method has in scope the fields of one level of its receiver: those of the class
that declares the method. So the fields of a class are written by the statements of its own methods
only, and one that none of these names keeps the value that it has in a new object.
-/

namespace ObjectLang

/- The statements of a method. -/

def Statement.inner : Statement → List Form
  | .block body | .bind _ body => body
  | .branch _ consequent alternative => consequent :: alternative.toList
  | .loop _ body => [body]
  | .attempt body handler => [body, handler]
  | _ => []

def Form.Encloses : Form → Form → Prop :=
  Relation.ReflTransGen fun f g => g ∈ (Statement.ofForm f).inner

def Method.Targets (m : Method) (name : String) : Prop :=
  ∃ f, m.body.Encloses f ∧ (Statement.ofForm f).target? = some name

def Class.Writes (c : Class) (name : String) : Prop :=
  ∃ method ∈ c.own.methods, method.Targets name

theorem Form.encloses_of_inner_nil {f g : Form} (hf : (Statement.ofForm f).inner = [])
    (h : f.Encloses g) : g = f := by
  obtain rfl | ⟨_, hmem, -⟩ := h.cases_head
  · rfl
  · simp [hf] at hmem

/-- Statements are started by statements around them, or as the bodies of methods. -/
theorem Starts.mem_inner {t u : Task} {g : Form} (h : Starts t u) (hu : u.work = .exec g) :
    (∃ a, Calls t a u) ∨ ∃ f, t.work = .exec f ∧ g ∈ (Statement.ofForm f).inner := by
  cases h with
  | awaits h =>
    cases h with
    | body hs hl hb => exact .inl ⟨_, .body hs hl hb⟩
    | inBlock hf | inLet hf | consequent hf | alternative hf | loopBody hf =>
      cases hu
      exact .inr ⟨_, rfl, by simp [hf, Statement.inner]⟩
    | _ => cases hu
  | guards h =>
    obtain ⟨hf⟩ := h
    cases hu
    exact .inr ⟨_, rfl, by simp [hf, Statement.inner]⟩
  | handles h =>
    obtain ⟨hf, -⟩ := h
    cases hu
    exact .inr ⟨_, rfl, by simp [hf, Statement.inner]⟩

theorem Inside.encloses {body t : Task} {blocks : List Block} {f g : Form}
    (h : Inside body blocks t) (hf : body.work = .exec f) (hg : t.work = .exec g) :
    f.Encloses g := by
  -- Expressions start no statements, so each one came straight from the statement around it.
  induction h generalizing g with
  | body =>
    rw [hf] at hg
    cases hg
    exact .refl
  | opened _ hb ih =>
    obtain ⟨a, hc⟩ | ⟨e, he, hmem⟩ := hb.starts.mem_inner hg
    · cases hc
      cases hb
    · exact (ih he).tail hmem
  | continued _ hu ih =>
    obtain ⟨a, hc⟩ | ⟨e, he, hmem⟩ := (Starts.awaits hu.1).mem_inner hg
    · exact absurd hc (hu.2.1 a)
    · exact (ih he).tail hmem

section Runs

variable {r : Registry} {sink : Sink} {source : Source} {limit : Option Nat}

/-- A statement that is executed stands in a method of the class at whose level the receiver is
seen. -/
theorem Occurs.running {t : Task} {f : Form} (ht : Occurs (Machine.start r sink source limit) t)
    (hw : t.work = .exec f) :
    ∃ call a blocks, t.machine.control.activation = some a ∧ Stacked call a blocks t.machine ∧
      a.method ∈ a.receiver.cls.own.methods ∧ a.method.body.Encloses f := by
  obtain ⟨fuels, fuel, hl⟩ | ⟨call, a, body, blocks, hcall, hc, hin⟩ := ht.inside
  · obtain ⟨c, main, m₁, m₂, -, -, rfl⟩ := hl
    cases hw
  · obtain ⟨-, hactive, hstacked⟩ := hin.stacked (located_start r sink source limit)
      (ambient_start r sink source limit) hcall hc
    refine ⟨call, a, blocks, hactive, hstacked, ?_⟩
    cases hc with
    | body hs hl hb =>
      obtain ⟨-, hmem, -⟩ := Registry.selectMethod?_spec hs
      exact ⟨hmem, hin.encloses rfl hw⟩

end Runs

/- Fields that no method writes to. -/

/-- If the frame holds the fields of a class, those that the class does not write to are as they are
in a new object. -/
def Frame.Pristine (f : Frame) : Prop :=
  ∀ c, f.role = .fields c → ∃ g, c.fieldFrame = .ok g ∧
    ∀ name, ¬ c.Writes name → f.get? name = g.get? name

theorem Frame.Pristine.set {f : Frame} {name : String} (h : f.Pristine)
    (hwrites : ∀ c, f.role = .fields c → c.Writes name) (x : Variable) :
    (f.set name x).Pristine := by
  intro c hc
  obtain ⟨g, hg, hsame⟩ := h c hc
  refine ⟨g, hg, fun other hother => ?_⟩
  have hne : other ≠ name := by
    rintro rfl
    exact hother (hwrites c hc)
  rw [Frame.get?_set_of_ne f hne, hsame other hother]

theorem Class.pristine_fieldFrame {c : Class} {f : Frame} (h : c.fieldFrame = .ok f) :
    f.Pristine := by
  intro d hd
  have hrole : FrameRole.fields c = .fields d :=
    (congrArg Outline.role (fieldFrame_spec h).1).symm.trans hd
  cases hrole
  exact ⟨f, h, fun _ _ => rfl⟩

/-- Each frame of a new object is that of a class on the line. -/
theorem Class.exists_fieldFrame {own : ClassBody} {ancestors : List ClassBody}
    {frames : List Frame} (h : fieldFramesFrom own ancestors = .ok frames) :
    ∀ f ∈ frames, ∃ d : Class, d.fieldFrame = .ok f := by
  induction ancestors generalizing own frames with
  | nil =>
    obtain ⟨g, hg, rfl⟩ := except_map_eq_ok.mp h
    intro f hf
    rw [List.mem_singleton.mp hf]
    exact ⟨_, hg⟩
  | cons p ps ih =>
    obtain ⟨fs, hfs, h⟩ := except_bind_eq_ok.mp h
    obtain ⟨g, hg, rfl⟩ := except_map_eq_ok.mp h
    intro f hf
    obtain hf | hf := List.mem_append.mp hf
    · exact ih hfs f hf
    · rw [List.mem_singleton.mp hf]
      exact ⟨_, hg⟩

namespace Store

def Pristine (s : Store) : Prop := ∀ i f, s.frame? i = some f → f.Pristine

namespace Pristine

variable {s : Store}

theorem push (hs : s.Pristine) {f : Frame} (hf : f.Pristine) : (s.push f).Pristine := by
  intro i g hg
  obtain hg | ⟨-, rfl⟩ := frame?_push_eq_some hg
  · exact hs i g hg
  · exact hf

theorem pushAll (hs : s.Pristine) {fs : List Frame} (hfs : ∀ f ∈ fs, f.Pristine) :
    (s.pushAll fs).Pristine := by
  induction fs generalizing s with
  | nil => exact hs
  | cons f fs ih =>
    rw [List.forall_mem_cons] at hfs
    exact ih (hs.push hfs.1) hfs.2

theorem set (hs : s.Pristine) {i : FrameId} {name : String}
    (h : ∀ f c, s.frame? i = some f → f.role = .fields c → c.Writes name) (x : Variable) :
    (s.set i name x).Pristine := by
  intro j g hg
  by_cases hj : j = i
  · subst hj
    rw [frame?_set_self] at hg
    obtain ⟨f, hf, rfl⟩ := Option.map_eq_some_iff.mp hg
    exact (hs j f hf).set (fun c hc => h f c hf hc) x
  · rw [frame?_set_of_ne s hj] at hg
    exact hs j g hg

theorem set_of_apart (hs : s.Pristine) {i : FrameId} (hi : s.Apart i) (name : String)
    (x : Variable) : (s.set i name x).Pristine := by
  refine hs.set (fun f c hf hc => ?_) x
  obtain ⟨o, ho, hrole⟩ := hi
  rw [outline?, hf] at ho
  cases ho
  exact absurd hc (hrole c)

end Pristine

end Store

section Runs

variable {r : Registry} {sink : Sink} {source : Source} {limit : Option Nat}

/-- A write to a field names it, in a method of the class that declares it; a message is never
written to a field. -/
theorem Task.Writes.pristine {t : Task} {s s' : Store} (h : t.Writes s s')
    (ht : Occurs (Machine.start r sink source limit) t) (hp : t.machine.store.Preserves s)
    (hs : s.Pristine) : s'.Pristine := by
  obtain ⟨k, hand, hsteps, -⟩ := ht.steps
  have hscoped : t.machine.control.Scoped s := hsteps.scoped.preserves hp
  obtain ⟨above, hscopes, hapart⟩ := hscoped
  cases h with
  | @target f name s i x v hw hf ha =>
    obtain ⟨call, a, blocks, hactive, hstacked, hmethod, hencloses⟩ := ht.running hw
    obtain ⟨_, _, _, hmem, -⟩ := Store.assignment_eq_ok ha
    have hi : i ∈ above ++ [a.receiver.frame] := by
      have hi : i ∈ t.machine.control.scopes := by simp [hmem]
      rwa [hscopes, hactive] at hi
    -- The only fields in scope are those of the receiver, at the class whose method is running.
    obtain hi | hi := List.mem_append.mp hi
    · exact hs.set_of_apart (hapart i (List.mem_cons_of_mem _ hi)) name x
    · refine hs.set (fun g c hg hc => ?_) x
      have houtline := hp _ _ hstacked.fields
      rw [← List.mem_singleton.mp hi, Store.outline?, hg] at houtline
      have hrole : FrameRole.fields c = .fields a.receiver.cls :=
        hc.symm.trans (congrArg Outline.role (Option.some.inj houtline))
      cases hrole
      exact ⟨a.method, hmethod, f, hencloses, hf⟩
  | message hw ha =>
    obtain ⟨call, a, blocks, -, hstacked, -⟩ := ht.running hw
    have hstacked : Stacked call a blocks { t.machine with store := s } :=
      hstacked.preserves rfl hp
    -- The ambient frame stands in scope above the fields and binds the name.
    obtain ⟨hmessage, nearer, further, heq, hlocal⟩ := hstacked.nearest
    obtain ⟨y, hy⟩ := Store.get?_message hmessage
    have heq : t.machine.control.scopes = nearer ++ t.machine.control.ambient :: further := heq
    rw [heq] at ha
    obtain ⟨rfl, -⟩ | ⟨hi, -⟩ := Store.assignment_nearest hy ha
    · exact hs.set_of_apart (hapart _ List.mem_cons_self) _ _
    · obtain ⟨o, ho, hrole⟩ := hlocal _ hi
      refine hs.set_of_apart ⟨o, ho, fun cls hcls => ?_⟩ _ _
      rw [hcls] at hrole
      cases hrole
  | ambient => exact hs.set_of_apart (hapart _ List.mem_cons_self) _ _

theorem lasts_pristine : Lasts (Machine.start r sink source limit) Store.Pristine where
  frame _ hf hs := hs.push fun c hc => absurd hc (hf.role_ne c)
  object hc hs := hs.pushAll fun f hf => by
    obtain ⟨d, hd⟩ := Class.exists_fieldFrame hc f hf
    exact Class.pristine_fieldFrame hd
  write ht hp h hs := h.pristine ht hp hs

theorem Reachable.pristine {m : Machine} (hm : Reachable (Machine.start r sink source limit) m) :
    m.store.Pristine := by
  have hempty : Store.empty.Pristine := by
    intro i f hf
    simp [Store.empty, Store.frame?] at hf
  refine hm.lasts lasts_pristine (hempty.push ?_)
  intro c hc
  cases hc

end Runs

/-- The frame of a class on the line is in a new object what it is in any other. -/
theorem Class.getElem?_fieldFrames {c d : Class} {frames : List Frame} {g : Frame}
    (h : c.fieldFrames = .ok frames) (hd : d.line <:+ c.line) (hg : d.fieldFrame = .ok g) :
    frames[d.depth]? = some g := by
  obtain ⟨-, houtlines, -⟩ := fieldFramesFrom_spec h
  obtain ⟨f, hf, houtline⟩ := Option.map_eq_some_iff.mp (houtlines d hd)
  obtain ⟨e, he⟩ := exists_fieldFrame h f (List.mem_of_getElem? hf)
  rw [(fieldFrame_spec he).1] at houtline
  cases Outline.fields_inj houtline
  rw [hg] at he
  cases he
  exact hf

theorem Frame.get?_field {f : Frame} {c : Class} {field : Field} (h : f.outline = .fields c)
    (hf : field ∈ c.own.fields) : ∃ x, f.get? field.name = some x := by
  have hlookup : (f.outline.entries.lookup field.name).isSome := by
    rw [h, List.lookup_isSome_iff]
    exact ⟨_, List.mem_map_of_mem hf, by simp⟩
  rw [f.lookup_outline, Option.isSome_map] at hlookup
  exact Option.isSome_iff_exists.mp hlookup

/-- Fields are private to the class that declares them. If none of the methods that the class itself
declares has a statement that assigns to a field or reads input into it, then on all machines that
runs pass through, every object of the store has at the level of the class the value of the field
that is in a fresh frame of the class, and that every creation of such an object gives it. -/
theorem fields_are_private {r : Registry} {sink : Sink} {source : Source} {limit : Option Nat}
    {m : Machine} (hm : Reachable (Machine.start r sink source limit) m) {o : Instance}
    (ho : m.store.Holds o) {w : View} (hw : w ∈ o.levels) {field : Field}
    (hfield : field ∈ w.cls.own.fields)
    (hwrites : ∀ method ∈ w.cls.own.methods, ¬ method.Targets field.name) :
    ∃ fresh x, w.cls.fieldFrame = .ok fresh ∧ fresh.get? field.name = some x ∧
      m.store.get? w.frame field.name = some x ∧
      ∀ m₀ v m₁, Eval.create o.cls m₀ = .ok v m₁ →
        m₁.store.get? (v.base + w.level) field.name = some x := by
  obtain ⟨k, hand, hsteps⟩ := hm.steps
  have hlayered : m.store.Layered := hsteps.layered
  obtain ⟨f, hframe, houtline⟩ := Option.map_eq_some_iff.mp (hlayered.level ho hw)
  obtain ⟨x, hx⟩ := Frame.get?_field houtline hfield
  have hrole : f.role = .fields w.cls := congrArg Outline.role houtline
  obtain ⟨fresh, hok, hsame⟩ := hm.pristine w.frame f hframe w.cls hrole
  have hfresh : fresh.get? field.name = some x := by
    rw [← hsame field.name fun ⟨method, hmem, h⟩ => hwrites method hmem h, hx]
  refine ⟨fresh, x, hok, hfresh, by simp [Store.get?, hframe, hx], ?_⟩
  intro m₀ v m₁ hv
  obtain ⟨frames, hframes, rfl, rfl⟩ := Eval.create_eq_ok hv
  have hlevel := Class.getElem?_fieldFrames hframes (Instance.mem_levels hw).2 hok
  simp [Store.get?, Store.frame?_pushAll, View.level, hlevel, hfresh]

/- A program whose class declares a field of its parent once more and writes to it, and handles an
exception that a method of the parent throws. The parent has a field with the name of messages. -/

namespace Sample

def alarm : Method := ⟨"fail", .void, [], throwing⟩

def keeper : Class :=
  ⟨⟨"base", [⟨"exception", .string, some (.string "kept")⟩, ⟨"n", .int, none⟩], [alarm]⟩, []⟩

def overwrite : Form :=
  .list [.atom "begin", .list [.atom "set", .atom "n", .atom "1"],
    .list [.atom "try", .list [.atom "call", .atom "me", .atom "fail"],
      .list [.atom "set", .atom "exception", .atom "\"caught\""]]]

def overwriting : Method := ⟨"main", .void, [], overwrite⟩

def heir : Class := ⟨⟨"main", [⟨"n", .int, none⟩], [overwriting]⟩, keeper.line⟩

def keeping : Machine := Machine.start ⟨[heir, keeper], []⟩ (.buffer "") (.queue []) none

def overwritten : Task :=
  ⟨8, .exec overwriting.body,
    (after (Eval.create heir) keeping).enterCall ⟨1, heir, []⟩ overwriting []⟩

theorem occurs_overwritten : Occurs keeping overwritten := by
  have hmain : Awaits ⟨8, .call ⟨1, heir, []⟩ "main" [], after (Eval.create heir) keeping⟩
      ⟨8, .exec overwriting.body, overwritten.machine⟩ := .body rfl rfl rfl
  exact ⟨[], 8, _, ⟨heir, _, keeping, _, rfl, rfl, rfl⟩, .single (.awaits hmain)⟩

end Sample

/-- In the sample, the message of the parent's `throw` goes to the `try`, where the handler replaces
it, and the parent's field of that name keeps its value. -/
theorem sample_fields_are_private :
    Reachable Sample.keeping Sample.overwritten.final ∧
      ((Sample.overwritten.final.store.get? 4 "exception").map fun x => x.value.render) =
        some "caught" ∧
      ((Sample.overwritten.final.store.get? 2 "n").map fun x => x.value.render) = some "1" ∧
      Sample.overwritten.final.store.get? 1 "exception" = some ⟨.string, .string "kept"⟩ := by
  have hm : Reachable Sample.keeping Sample.overwritten.final :=
    .ended Sample.occurs_overwritten
  have ho : Sample.overwritten.final.store.Holds ⟨1, Sample.heir⟩ := by
    obtain ⟨k, hand, hsteps⟩ := hm.steps
    have hcontrol : Sample.overwritten.final.control = Sample.overwritten.machine.control :=
      Sample.overwritten.control_final
    exact hsteps.whole.receivers _ List.mem_cons_self ⟨⟨1, Sample.heir, []⟩, Sample.overwriting⟩
      (by rw [hcontrol]; rfl)
  have hw : ⟨1, Sample.keeper, [Sample.heir.own]⟩ ∈ Instance.levels ⟨1, Sample.heir⟩ :=
    List.mem_cons_self
  have hwrites : ∀ method ∈ Sample.keeper.own.methods, ¬ method.Targets "exception" := by
    rintro method hmem ⟨f, hf, htarget⟩
    rw [List.mem_singleton.mp hmem] at hf
    rw [Form.encloses_of_inner_nil rfl hf] at htarget
    cases htarget
  have hfield : ⟨"exception", .string, some (.string "kept")⟩ ∈ Sample.keeper.own.fields :=
    List.mem_cons_self
  obtain ⟨fresh, x, hok, hx, hkept, -⟩ := fields_are_private hm ho hw hfield hwrites
  cases hok
  cases hx
  exact ⟨hm, by decide +kernel, by decide +kernel, hkept⟩

end ObjectLang
