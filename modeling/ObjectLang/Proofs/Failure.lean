import Mathlib
import ObjectLang.Program
import ObjectLang.Proofs.Termination

/-!
Resolutions that fail. A name with no expansion leaves the registry as it is, and fails again. A
class whose types cannot be resolved stays registered, so that the same request succeeds the next
time.
-/

namespace ObjectLang

namespace Schedule

variable {s : Schedule} {r r' : Registry} {name : String} {c : Class} {e : Stop}

/-- Classes that are registered stay so when a type cannot be resolved. -/
theorem grown_of_resolveEach {ts : List TypeTag}
    (h : Build.resolveEach s.resolveType ts r = .error e r') : r.Grown (fun _ => True) r' := by
  rw [← after_of_error h]
  exact (resolveEach_resolved r.closed_true fun _ _ => trivial).grown

/-- The class of a failed request is registered if its name has an expansion. -/
theorem find?_of_resolve_error (h : s.resolve name r = .error e r') (hc : r.expand name = .ok c) :
    r'.find? name = some c := by
  rw [resolve_level] at h
  unfold level at h
  cases hf : r.find? name with
  | some d =>
    simp only [hf] at h
    cases h
  | none =>
    simp only [hf, hc] at h
    cases htypes : Build.resolveEach s.resolveType (s.types (r.insert c) c.own) (r.insert c) with
    | ok _ r₁ =>
      have hok := (bind_ok htypes fun _ => pure c).symm.trans h
      cases hok
    | error e₁ r₁ =>
      have herror := (bind_error htypes fun _ => pure c).symm.trans h
      cases herror
      exact (grown_of_resolveEach htypes).find?_of_some (Registry.find?_insert_expand hf hc)

theorem find?_eq_none_of_resolve_error (h : s.resolve name r = .error e r') :
    r.find? name = none := by
  cases hf : r.find? name with
  | none => rfl
  | some c =>
    rw [resolve_of_find? hf] at h
    cases h

theorem resolveType_eq_error {t : TypeTag} : s.resolveType t r = .error e r' ↔
    ∃ name, t = .ofClass name ∧ s.resolve name r = .error e r' := by
  cases t with
  | ofClass name =>
    cases hres : s.resolve name r with
    | ok c r₁ =>
      have hok : s.resolveType (.ofClass name) r = .ok () r₁ := bind_ok hres _
      simp [hok, hres]
    | error e₁ r₁ =>
      have herror : s.resolveType (.ofClass name) r = .error e₁ r₁ := bind_error hres _
      simp [herror, hres]
  | _ => simp [resolveType, Build.ofType, pure, EStateM.pure]

end Schedule

/-- A failed request for a class, or for a type, leaves the registry as it was if and only if the
name has no expansion, and then it fails again in the same way. Otherwise the class that it asked
for is registered, although a type that it names is not, and the next request succeeds. This holds
in whatever order the types of a class are resolved; the order of declaration is one of them. -/
theorem failed_resolution_is_kept {s : Schedule} {r r' : Registry} {name : String} {e : Stop}
    (h : s.resolve name r = .error e r' ∨ s.resolveType (.ofClass name) r = .error e r') :
    (Schedule.inOrder.resolve = Registry.resolve ∧
      Schedule.inOrder.resolveType = Registry.resolveType) ∧
    (r' = r ↔ ∃ err, r.expand name = .error err) ∧
    (r' = r → s.resolve name r' = .error e r' ∧
      s.resolveType (.ofClass name) r' = .error e r') ∧
    (r' ≠ r → ∃ c, r.expand name = .ok c ∧ r'.find? name = some c ∧
      s.resolve name r' = .ok c r' ∧ s.resolveType (.ofClass name) r' = .ok () r') := by
  refine ⟨⟨Schedule.resolve_inOrder, Schedule.resolveType_inOrder⟩, ?_⟩
  have hres : s.resolve name r = .error e r' := by
    obtain h | h := h
    · exact h
    · obtain ⟨_, hname, hres⟩ := Schedule.resolveType_eq_error.mp h
      cases hname
      exact hres
  have hf := Schedule.find?_eq_none_of_resolve_error hres
  cases hc : r.expand name with
  | error err =>
    have heq : r' = r := by
      rw [Schedule.resolve_of_expand_error hf hc] at hres
      cases hres
      rfl
    subst heq
    refine ⟨by simp, fun _ => ⟨hres, ?_⟩, fun hne => absurd rfl hne⟩
    exact Schedule.resolveType_eq_error.mpr ⟨name, rfl, hres⟩
  | ok c =>
    have hfound := Schedule.find?_of_resolve_error hres hc
    have hne : r' ≠ r := by
      intro heq
      rw [heq, hf] at hfound
      cases hfound
    have hagain : s.resolve name r' = .ok c r' := Schedule.resolve_of_find? hfound
    refine ⟨by simp [hne], fun heq => absurd heq hne, fun _ => ⟨c, rfl, hfound, hagain, ?_⟩⟩
    exact bind_ok hagain _

namespace Sample

def ghostForms : List Form :=
  [.list [.atom "tclass", .atom "box", .list [.atom "t"],
      .list [.atom "field", .atom "ghost", .atom "item"]],
    .list [.atom "class", .atom "main",
      .list [.atom "method", .atom "void", .atom "main", .list [],
        .list [.atom "let", .list [.list [.atom "box@int", .atom "b"]],
          .list [.atom "print", .atom "\"made\""]]]]]

def ghostBox : Class := ⟨⟨"box@int", [⟨"item", .ofClass "ghost", none⟩], []⟩, []⟩

end Sample

/-- The box is registered by the request that fails. -/
theorem ghost_box_is_kept :
    ∃ r, Registry.load Sample.ghostForms = .ok r ∧
      Registry.resolve "box@int" r =
        .error (.failed (.unknownClass "ghost")) (r.insert Sample.ghostBox) ∧
      Registry.resolve "box@int" (r.insert Sample.ghostBox) =
        .ok Sample.ghostBox (r.insert Sample.ghostBox) := by
  obtain ⟨r, hload, hfail⟩ : ∃ r, Registry.load Sample.ghostForms = .ok r ∧
      Registry.resolve "box@int" r =
        .error (.failed (.unknownClass "ghost")) (r.insert Sample.ghostBox) := by
    refine ⟨_, rfl, ?_⟩
    cbv
  have hne : r.insert Sample.ghostBox ≠ r := by
    intro h
    simpa [Registry.insert] using congrArg (List.length ∘ Registry.classes) h
  rw [← Schedule.resolve_inOrder] at hfail ⊢
  obtain ⟨-, -, -, hkept⟩ := failed_resolution_is_kept (.inl hfail)
  obtain ⟨c, -, hc, hagain, -⟩ := hkept hne
  have hnone := Schedule.find?_eq_none_of_resolve_error hfail
  have hfound : (r.insert Sample.ghostBox).find? "box@int" = some Sample.ghostBox :=
    Registry.find?_insert_self (c := Sample.ghostBox) hnone
  rw [hfound] at hc
  cases hc
  exact ⟨r, hload, hfail, hagain⟩

/-- The program that fails for want of a class completes when it is run once more. -/
theorem ghost_box_is_made_the_second_time :
    ∃ r m m', Registry.load Sample.ghostForms = .ok r ∧
      Eval.run 9 (.start r (.buffer "") (.queue []) none) =
        .error (.failed (.unknownClass "ghost")) m ∧
      r.find? "box@int" = none ∧ (m.registry.find? "box@int").isSome ∧
      Eval.run 9 m = .ok .completed m' ∧ m'.sink = .buffer "made\n" := by
  have hruns : ∃ r, Registry.load Sample.ghostForms = .ok r ∧ r.find? "box@int" = none ∧
      (match Eval.run 9 (.start r (.buffer "") (.queue []) none) with
      | .error e m =>
        match Eval.run 9 m with
        | .ok outcome m' => some (e, (m.registry.find? "box@int").isSome, outcome, m'.sink)
        | .error _ _ => none
      | .ok _ _ => none) =
        some (.failed (.unknownClass "ghost"), true, .completed, .buffer "made\n") := by
    refine ⟨_, rfl, ?_, ?_⟩
    · cbv
    · cbv
  obtain ⟨r, hload, hnone, hruns⟩ := hruns
  cases hfirst : Eval.run 9 (.start r (.buffer "") (.queue []) none) with
  | ok _ _ => simp [hfirst] at hruns
  | error e m =>
    cases hsecond : Eval.run 9 m with
    | error _ _ => simp [hfirst, hsecond] at hruns
    | ok outcome m' =>
      simp only [hfirst, hsecond, Option.some.injEq, Prod.mk.injEq] at hruns
      obtain ⟨rfl, hfound, rfl, hsink⟩ := hruns
      exact ⟨r, m, m', hload, hfirst, hnone, hfound, hsecond, hsink⟩

end ObjectLang
