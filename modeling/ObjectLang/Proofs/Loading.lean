import Mathlib
import ObjectLang.Proofs.Declared
import ObjectLang.Proofs.Termination

/-!
What loading registers: the declared classes, and whatever is needed for the types that registered
classes name. This depends on the declarations only, not on the order in which they are resolved.
-/

namespace ObjectLang

namespace Registry

/-- The names that are needed: those of the classes, and those of the types that a needed class
names. -/
inductive Needs (r : Registry) : String → Prop
  | declared {name : String} : (r.find? name).isSome → Needs r name
  | named {name other : String} {c : Class} : Needs r name → r.meaning? name = some c →
      .ofClass other ∈ c.own.referencedTypes → Needs r other

theorem needs_closed (r : Registry) : r.Closed r.Needs := by
  intro a c ha hf hc b hb
  exact .named ha (by simp [meaning?, hf, hc, Except.toOption]) hb

structure Sound (r : Registry) : Prop where
  found : ∀ c ∈ r.classes, r.find? c.name = some c
  line : ∀ c ∈ r.classes, ∀ b ∈ c.line, ∃ d ∈ r.classes, d.own = b

theorem Sound.insert {r : Registry} {c : Class} (h : r.Sound) (hf : r.find? c.name = none)
    (hanc : c.ancestors = [] ∨ ∃ p ∈ r.classes, c.ancestors = p.line) : (r.insert c).Sound := by
  have hold : ∀ d ∈ r.classes, d ∈ (r.insert c).classes := fun d hd => List.mem_append_left _ hd
  have hnew : c ∈ (r.insert c).classes := by simp [Registry.insert]
  constructor
  · intro d hd
    cases List.mem_append.mp hd with
    | inl hd => exact find?_insert_of_some (h.found d hd)
    | inr hd =>
      rw [List.mem_singleton.mp hd]
      exact find?_insert_self hf
  · intro d hd b hb
    have hinherited : ∀ p ∈ r.classes, b ∈ p.line → ∃ d ∈ (r.insert c).classes, d.own = b := by
      intro p hp hb
      obtain ⟨e, he, rfl⟩ := h.line p hp b hb
      exact ⟨e, hold e he, rfl⟩
    cases List.mem_append.mp hd with
    | inl hd => exact hinherited d hd hb
    | inr hd =>
      rw [List.mem_singleton.mp hd] at hb
      cases List.mem_cons.mp hb with
      | inl hb => exact ⟨c, hnew, hb.symm⟩
      | inr hb =>
        obtain hanc | ⟨p, hp, hanc⟩ := hanc
        · simp [hanc] at hb
        · exact hinherited p hp (hanc ▸ hb)

theorem Sound.declare {r r' : Registry} {form : Form} (h : r.Sound)
    (hd : r.declare form = .ok r') : r'.Sound := by
  obtain ⟨t, rfl⟩ | ⟨name, decls, c, hf, hbody, hanc, rfl⟩ := declare_cases hd
  · exact ⟨h.found, h.line⟩
  · have hname : c.name = name := ClassBody.ofForms_name hbody
    exact h.insert (hname ▸ hf) hanc

theorem sound_declareAll {forms : List Form} {r : Registry} (h : declareAll forms = .ok r) :
    r.Sound :=
  foldlM_keeps (fun _ _ _ hr hd => Sound.declare hr hd) ⟨by simp [empty], by simp [empty]⟩ h

theorem find?_isSome_of_mem {r : Registry} {c : Class} (h : c ∈ r.classes) :
    (r.find? c.name).isSome := by
  rw [find?, List.find?_isSome]
  exact ⟨c, h, by simp⟩

/-- New classes have no ancestors, and one name has one expansion. -/
theorem Sound.grown {P : String → Prop} {r r' : Registry} (h : r.Sound) (hr : r.Grown P r') :
    r'.Sound := by
  constructor
  · intro c hc
    obtain hold | ⟨hf, hexpand⟩ := hr.mem_or_expand hc
    · exact hr.find?_of_some (h.found c hold)
    · obtain ⟨d, hd⟩ := Option.isSome_iff_exists.mp (find?_isSome_of_mem hc)
      have heq := (hr.expand_of_find? hf hd).2
      rw [hexpand] at heq
      cases heq
      exact hd
  · intro c hc b hb
    obtain hold | ⟨-, hexpand⟩ := hr.mem_or_expand hc
    · obtain ⟨d, hd, rfl⟩ := h.line c hold b hb
      exact ⟨d, hr.mem hd, rfl⟩
    · obtain ⟨_, _, _, _, -, -, -, -, -, hanc⟩ := expand_eq_ok.mp hexpand
      rw [Class.line, hanc, List.mem_singleton] at hb
      exact ⟨c, hc, hb.symm⟩

/-- The registry has what the declarations need, and nothing else. -/
structure Completes (r₀ r : Registry) : Prop where
  grown : r₀.Grown r₀.Needs r
  settled : ∀ c ∈ r.classes, ∀ n, .ofClass n ∈ c.own.referencedTypes → (r.find? n).isSome

namespace Completes

variable {r₀ r r' : Registry}

theorem find?_isSome (h : r₀.Completes r) (name : String) :
    (r.find? name).isSome ↔ r₀.Needs name := by
  constructor
  · intro hsome
    cases hf : r₀.find? name with
    | some c => exact .declared (by simp [hf])
    | none =>
      obtain ⟨c, hc⟩ := Option.isSome_iff_exists.mp hsome
      exact (h.grown.expand_of_find? hf hc).1
  · -- By induction on why the name is needed: a needed class is registered, so its types are.
    intro hneeds
    induction hneeds with
    | declared hsome => exact h.grown.find?_isSome hsome
    | named _ hmeaning hnamed ih =>
      obtain ⟨d, hd⟩ := Option.isSome_iff_exists.mp ih
      rw [← h.grown.meaning?_eq] at hmeaning
      simp only [meaning?, hd, Option.some_or, Option.some.injEq] at hmeaning
      subst hmeaning
      exact h.settled d (find?_mem hd).1 _ hnamed

/-- What is found under a needed name is what the name stands for. -/
theorem find?_eq (h : r₀.Completes r) {name : String} (hn : r₀.Needs name) :
    r.find? name = r₀.meaning? name := by
  obtain ⟨c, hc⟩ := Option.isSome_iff_exists.mp ((h.find?_isSome name).mpr hn)
  rw [← h.grown.meaning?_eq]
  simp [meaning?, hc]

theorem unique (h : r₀.Completes r) (h' : r₀.Completes r') : r'.find? = r.find? := by
  funext name
  by_cases hn : r₀.Needs name
  · rw [h.find?_eq hn, h'.find?_eq hn]
  · have hnone : ∀ {r : Registry}, r₀.Completes r → r.find? name = none := by
      intro r h
      rw [← h.find?_isSome] at hn
      simpa using hn
    rw [hnone h, hnone h']

/-- A needed name with no expansion leaves the declarations incomplete. -/
theorem not_error (h : r₀.Completes r) {name : String} {e : Error} (hn : r₀.Needs name)
    (hf : r₀.find? name = none) : r₀.expand name ≠ .error e := by
  intro he
  have hsome := (h.find?_isSome name).mpr hn
  simp [h.find?_eq hn, meaning?, hf, he, Except.toOption] at hsome

end Completes

end Registry

namespace Schedule

variable {s : Schedule}

theorem resolveMembers_resolved {P : String → Prop} {r : Registry} {classes : List Class}
    (hclosed : r.Closed P)
    (h : ∀ c ∈ classes, ∀ n, .ofClass n ∈ c.own.referencedTypes → P n) :
    Resolved P False r
      (fun _ r' => ∀ c ∈ classes, ∀ n, .ofClass n ∈ c.own.referencedTypes → (r'.find? n).isSome)
      (s.resolveMembers classes r) := by
  induction classes generalizing r with
  | nil => exact .pure (by simp)
  | cons c cs ih =>
    rw [List.forall_mem_cons] at h
    have htypes : Resolved P False r
        (fun _ r' => ∀ n, .ofClass n ∈ s.types r c.own → (r'.find? n).isSome)
        (Build.resolveEach s.resolveType (s.types r c.own) r) := by
      refine resolveEach_resolved hclosed fun n hn => h.1 n ?_
      rwa [(s.types_perm r c.own).mem_iff] at hn
    refine htypes.bind fun _ r' hr hc => ?_
    refine (ih (hclosed.grown hr) h.2).mono (fun _ h => h) (fun h => h) ?_
    intro _ r'' hr' hcs
    rw [List.forall_mem_cons]
    refine ⟨?_, hcs⟩
    intro n hn
    exact hr'.find?_isSome (hc n ((s.types_perm r c.own).mem_iff.mpr hn))

/-- Loading completes the declarations, or a needed name has no expansion. -/
theorem load_cases {forms : List Form} {r₀ : Registry} (h : Registry.declareAll forms = .ok r₀) :
    (∃ r, s.load forms = .ok r ∧ r₀.Completes r) ∨
      ∃ e n, s.load forms = .error (.failed e) ∧ r₀.Needs n ∧ r₀.find? n = none ∧
        r₀.expand n = .error e := by
  have hsound := Registry.sound_declareAll h
  have hneeds : ∀ c ∈ s.classes r₀.classes, ∀ n, .ofClass n ∈ c.own.referencedTypes →
      r₀.Needs n := by
    intro c hc n hn
    rw [(s.classes_perm r₀.classes).mem_iff] at hc
    have hfound := hsound.found c hc
    have hneeded : r₀.Needs c.name := .declared (by simp [hfound])
    exact .named hneeded (by simp [Registry.meaning?, hfound]) hn
  have hresolved := s.resolveMembers_resolved r₀.needs_closed hneeds
  unfold load
  simp only [h]
  cases hres : s.resolveMembers (s.classes r₀.classes) r₀ with
  | ok _ r =>
    rw [hres] at hresolved
    obtain ⟨hr, hsettled, hdeclared⟩ := hresolved
    refine .inl ⟨r, rfl, hr, ?_⟩
    intro c hc
    obtain hold | hall := hsettled c hc
    · exact hdeclared c ((s.classes_perm r₀.classes).mem_iff.mpr hold)
    · exact hall
  | error e r =>
    rw [hres] at hresolved
    cases e with
    | failed e =>
      obtain ⟨-, n, hn, hf, hexpand⟩ := hresolved
      exact .inr ⟨e, n, rfl, hn, hf, hexpand⟩
    | outOfFuel => exact hresolved.elim

theorem load_eq_error {forms : List Form} {e : Error} (h : Registry.declareAll forms = .error e) :
    s.load forms = .error (.failed e) := by
  simp only [load, h]

theorem completes_of_load {forms : List Form} {r : Registry} (h : s.load forms = .ok r) :
    ∃ r₀, Registry.declareAll forms = .ok r₀ ∧ r₀.Completes r := by
  cases hr₀ : Registry.declareAll forms with
  | error e =>
    rw [load_eq_error hr₀] at h
    cases h
  | ok r₀ =>
    obtain ⟨r', hload, hr'⟩ | ⟨e, n, hload, -⟩ := s.load_cases hr₀
    · rw [h] at hload
      cases hload
      exact ⟨r₀, rfl, hr'⟩
    · rw [h] at hload
      cases hload

/-- Under any two schedules loading succeeds with the same classes, or it fails. -/
theorem load_agrees (s s' : Schedule) (forms : List Form) :
    (∃ r r', s.load forms = .ok r ∧ s'.load forms = .ok r' ∧ r'.find? = r.find?) ∨
      ∃ e e', s.load forms = .error (.failed e) ∧ s'.load forms = .error (.failed e') := by
  cases hr₀ : Registry.declareAll forms with
  | error e => exact .inr ⟨e, e, load_eq_error hr₀, load_eq_error hr₀⟩
  | ok r₀ =>
    obtain ⟨r, hload, hr⟩ | ⟨e, n, hload, hn, hf, hexpand⟩ := s.load_cases hr₀
    · obtain ⟨r', hload', hr'⟩ | ⟨e', n, -, hn, hf, hexpand⟩ := s'.load_cases hr₀
      · exact .inl ⟨r, r', hload, hload', hr.unique hr'⟩
      · exact absurd hexpand (hr.not_error hn hf)
    · obtain ⟨r', -, hr'⟩ | ⟨e', _, hload', -⟩ := s'.load_cases hr₀
      · exact absurd hexpand (hr'.not_error hn hf)
      · exact .inr ⟨e, e', hload, hload'⟩

end Schedule

/-- A loaded program has the least set of names that contains those of the declared classes and that
of every type that a class in it names, its own or inherited. Each class of it is declared, or the
expansion of its name. In whatever order the classes and their types are resolved, loading succeeds
on the same programs and finds the same class under every name; the order of declaration is one of
them. -/
theorem loading_registers_what_is_needed (forms : List Form) (s : Schedule) :
    Schedule.inOrder.load forms = Registry.load forms ∧
    (∀ r, s.load forms = .ok r → ∃ r₀, Registry.declareAll forms = .ok r₀ ∧
      (∀ n, (r.find? n).isSome ↔ r₀.Needs n) ∧
      (∀ c ∈ r.classes, r.find? c.name = some c ∧
        (c ∈ r₀.classes ∨ r₀.find? c.name = none ∧ r₀.expand c.name = .ok c) ∧
        ∀ b ∈ c.line, ∀ n, .ofClass n ∈ b.referencedTypes → (r.find? n).isSome)) ∧
    ((∃ r r', Registry.load forms = .ok r ∧ s.load forms = .ok r' ∧ r'.find? = r.find?) ∨
      ∃ e e', Registry.load forms = .error (.failed e) ∧ s.load forms = .error (.failed e')) := by
  have hinOrder := Schedule.load_inOrder forms
  refine ⟨hinOrder, ?_, hinOrder ▸ Schedule.inOrder.load_agrees s forms⟩
  intro r hload
  obtain ⟨r₀, hr₀, hcomplete⟩ := s.completes_of_load hload
  have hsound := (Registry.sound_declareAll hr₀).grown hcomplete.grown
  refine ⟨r₀, hr₀, hcomplete.find?_isSome, ?_⟩
  intro c hc
  refine ⟨hsound.found c hc, hcomplete.grown.mem_or_expand hc, ?_⟩
  intro b hb n hn
  obtain ⟨d, hd, rfl⟩ := hsound.line c hc b hb
  exact hcomplete.settled d hd n hn

def Sample.twinForms : List Form :=
  [.list [.atom "tclass", .atom "a", .list [.atom "t"],
      .list [.atom "field", .atom "b@t", .atom "x"]],
    .list [.atom "tclass", .atom "b", .list [.atom "t"],
      .list [.atom "field", .atom "a@t", .atom "y"]],
    .list [.atom "class", .atom "main", .list [.atom "field", .atom "a@int", .atom "f"],
      .list [.atom "field", .atom "b@bool", .atom "g"]]]

/-- Backwards, `b@bool` comes first, and all four instances are registered all the same. -/
theorem twins_load_backwards :
    ∃ r r', Registry.load Sample.twinForms = .ok r ∧
      Schedule.backwards.load Sample.twinForms = .ok r' ∧ r'.find? = r.find? ∧
      ∃ r₀, Registry.declareAll Sample.twinForms = .ok r₀ ∧
        r₀.Needs "a@int" ∧ r₀.Needs "b@int" ∧ r₀.Needs "a@bool" ∧ r₀.Needs "b@bool" := by
  obtain ⟨-, hneeds, hsame⟩ := loading_registers_what_is_needed Sample.twinForms .backwards
  have hload : (Schedule.backwards.load Sample.twinForms).toOption.map
      (fun r => ["a@int", "b@int", "a@bool", "b@bool"].all fun n => (r.find? n).isSome) =
        some true := by cbv
  obtain ⟨r, r', hr, hr', hfind⟩ | ⟨e, e', -, he'⟩ := hsame
  · obtain ⟨r₀, hr₀, hnames, -⟩ := hneeds r' hr'
    simp only [hr', Except.toOption, Option.map_some, Option.some.injEq, List.all_cons,
      List.all_nil, Bool.and_eq_true, hnames, and_true] at hload
    exact ⟨r, r', hr, hr', hfind, r₀, hr₀, hload⟩
  · simp [he', Except.toOption] at hload

end ObjectLang
