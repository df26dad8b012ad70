import ObjectLang.Proofs.Control
import ObjectLang.Proofs.Outcome
import ObjectLang.Proofs.Shallow

/-!
Computations under a limit on nested calls. To compare a computation with the limit and without it,
it is watched: it is cut by the limit if one of the tasks that it starts without the limit is, and
else it ends in the same way. The operations on the machine start no task and do not read the limit,
so that it does not cut them.
-/

namespace ObjectLang

variable {α β : Type}

def Machine.under (limit : Option Nat) (m : Machine) : Machine := { m with limit }

abbrev Ending (α : Type) := EStateM.Result Stop Machine α

namespace Ending

def under (limit : Option Nat) : Ending α → Ending α
  | .ok a m => .ok a (m.under limit)
  | .error e m => .error e (m.under limit)

def Cut (limit : Nat) (x : Ending α) : Prop :=
  ∃ m, x = .error (.failed (.callDepthExceeded limit)) m

theorem cut_error {limit : Nat} {e : Stop} {m : Machine} :
    Cut limit (.error e m : Ending α) ↔ e = .failed (.callDepthExceeded limit) := by
  simp [Cut]

instance (limit : Nat) : (x : Ending α) → Decidable (x.Cut limit)
  | .ok _ _ => isFalse (by simp [Cut])
  | .error _ _ => decidable_of_iff _ cut_error.symm

end Ending

def Task.Cut (limit : Nat) (t : Task) : Prop :=
  match t.work with
  | .eval f => Ending.Cut limit (eval t.fuel f (t.machine.under (some limit)))
  | .exec f => Ending.Cut limit (exec t.fuel f (t.machine.under (some limit)))
  | .call receiver name vs =>
    Ending.Cut limit (Eval.callMethod (exec t.fuel) receiver name vs (t.machine.under (some limit)))

/-- The computation, on a machine with no limit, starts the tasks in `parts`. Under the limit it is
cut if one of them is, and else it ends as it does without. -/
structure Watched (limit : Nat) (m : Machine) (parts : Task → Prop) (x : Eval α) : Prop where
  cut : ∀ u, parts u → u.Cut limit → Ending.Cut limit (x (m.under (some limit)))
  kept : (∀ u, parts u → ¬ u.Cut limit) →
    x (m.under (some limit)) = Ending.under (some limit) (x m)
  shallow : ∀ k s, x m ≠ .error (.failed (.callDepthExceeded k)) s
  unlimited : ∀ a s, x m = .ok a s → s.limit = none

def Calm (limit : Nat) (m : Machine) (x : Eval α) : Prop := Watched limit m (fun _ => False) x

namespace Watched

variable {limit : Nat} {m s : Machine} {parts parts' : Task → Prop}
  {x : Eval α} {f : α → Eval β}

theorem iff (h : Watched limit m parts' x) (hparts : ∀ u, parts u ↔ parts' u) :
    Watched limit m parts x := by
  have heq : parts = parts' := funext fun u => propext (hparts u)
  rwa [heq]

theorem calm (h : x (m.under (some limit)) = Ending.under (some limit) (x m))
    (hshallow : ∀ k s, x m ≠ .error (.failed (.callDepthExceeded k)) s)
    (hlimit : ∀ a s, x m = .ok a s → s.limit = none) : Calm limit m x :=
  ⟨fun _ hu => hu.elim, fun _ => h, hshallow, hlimit⟩

theorem pure (a : α) (hm : m.limit = none) : Calm limit m (pure a) := by
  refine calm rfl nofun ?_
  intro b s h
  cases h
  exact hm

theorem throw {e : Stop} (h : ∀ k, e ≠ .failed (.callDepthExceeded k)) :
    Calm limit m (throw e : Eval α) := by
  refine calm rfl ?_ nofun
  intro k s heq
  cases heq
  exact h k rfl

theorem fail {e : Error} (h : ∀ k, e ≠ .callDepthExceeded k) :
    Calm limit m (Eval.fail e : Eval α) := by
  refine throw ?_
  intro k heq
  cases heq
  exact h k rfl

theorem ofExcept {r : Except Error α} (h : Shallow r) (hm : m.limit = none) :
    Calm limit m (Eval.ofExcept r) := by
  cases r with
  | ok a => exact pure a hm
  | error e => exact fail (Error.ne_callDepthExceeded (h e rfl))

theorem modify {g : Machine → Machine} (h : ∀ m l, g (m.under l) = (g m).under l)
    (hlimit : (g m).limit = none) : Calm limit m (modify g : Eval Unit) := by
  refine calm (congrArg (EStateM.Result.ok ()) (h m (some limit))) nofun ?_
  intro _ s hs
  cases hs
  exact hlimit

/-- What is read of the machine is not its limit. -/
theorem get_bind {f : Machine → Eval β} (h : Watched limit m parts (f m))
    (hf : f (m.under (some limit)) = f m) : Watched limit m parts (get >>= f) := by
  have hunder : (get >>= f) (m.under (some limit)) = f m (m.under (some limit)) :=
    congrFun hf (m.under (some limit))
  have hread : (get >>= f) m = f m m := rfl
  exact ⟨fun u hu hc => hunder ▸ h.cut u hu hc, fun hu => by rw [hunder, hread, h.kept hu],
    h.shallow, h.unlimited⟩

/-- The parts of a sequence are those of its first half and, if that goes well, of its second. -/
theorem bind (hx : Watched limit m parts x) (next : α → Machine → Task → Prop)
    (hf : ∀ a s, x m = .ok a s → s.limit = none → Watched limit s (next a s) (f a)) :
    Watched limit m (fun u => parts u ∨ ∃ a s, x m = .ok a s ∧ next a s u) (x >>= f) := by
  have hfirst : Ending.Cut limit (x (m.under (some limit))) →
      Ending.Cut limit ((x >>= f) (m.under (some limit))) := by
    rintro ⟨s, hs⟩
    exact ⟨s, bind_error hs f⟩
  cases hres : x m with
  | ok a s =>
    have hnext := hf a s hres (hx.unlimited a s hres)
    have hkept : (∀ u, parts u → ¬ u.Cut limit) →
        (x >>= f) (m.under (some limit)) = f a (s.under (some limit)) := by
      intro hparts
      have hunder := hx.kept hparts
      rw [hres] at hunder
      exact bind_ok hunder f
    refine ⟨?_, ?_, ?_, ?_⟩
    · rintro u (hu | ⟨b, t, hb, hu⟩) hcut
      · exact hfirst (hx.cut u hu hcut)
      · cases hb
        by_cases hparts : ∀ u, parts u → ¬ u.Cut limit
        · rw [hkept hparts]
          exact hnext.cut u hu hcut
        · -- A part of the first half is cut, so the second does not start.
          simp only [Classical.not_forall, Classical.not_not] at hparts
          obtain ⟨v, hv, hcut'⟩ := hparts
          exact hfirst (hx.cut v hv hcut')
    · intro hparts
      rw [hkept fun u hu => hparts u (.inl hu), bind_ok hres]
      exact hnext.kept fun u hu => hparts u (.inr ⟨a, s, rfl, hu⟩)
    · rw [bind_ok hres]
      exact hnext.shallow
    · rw [bind_ok hres]
      exact hnext.unlimited
  | error e s =>
    have herror := bind_error hres f
    refine ⟨?_, ?_, ?_, ?_⟩
    · rintro u (hu | ⟨b, t, hb, -⟩) hcut
      · exact hfirst (hx.cut u hu hcut)
      · cases hb
    · intro hparts
      have hunder := hx.kept fun u hu => hparts u (.inl hu)
      rw [hres] at hunder
      rw [herror]
      exact bind_error hunder f
    · intro k t h
      rw [herror] at h
      cases h
      exact hx.shallow k s hres
    · rw [herror]
      nofun

/-- What follows starts no task. -/
theorem last (hx : Watched limit m parts x)
    (hf : ∀ a s, x m = .ok a s → s.limit = none → Calm limit s (f a)) :
    Watched limit m parts (x >>= f) :=
  (hx.bind _ hf).iff (by simp)

/-- What comes first starts no task. -/
theorem first (hx : Watched limit m (fun _ => False) x) (next : α → Machine → Task → Prop)
    (hf : ∀ a s, x m = .ok a s → s.limit = none → Watched limit s (next a s) (f a)) :
    Watched limit m (fun u => ∃ a s, x m = .ok a s ∧ next a s u) (x >>= f) :=
  (hx.bind _ hf).iff (by simp)

/-- Where there are no parts, there is nothing to watch. -/
theorem of_calm (h : Calm limit m x) (hparts : ∀ u, ¬ parts u) : Watched limit m parts x :=
  iff h fun u => iff_false_intro (hparts u)

theorem ofExcept_bind {r : Except Error α} (h : Shallow r)
    (hf : ∀ a, r = .ok a → Watched limit m parts (f a)) (hnone : ∀ u, parts u → ∃ a, r = .ok a)
    (hm : m.limit = none) : Watched limit m parts (Eval.ofExcept r >>= f) := by
  cases r with
  | ok a => exact hf a rfl
  | error e =>
    refine iff ((ofExcept h hm).last fun a s ha _ => ?_) ?_
    · cases ha
    · intro u
      refine ⟨fun hu => ?_, False.elim⟩
      obtain ⟨a, ha⟩ := hnone u hu
      cases ha

/- The operations on the machine do not read its limit. -/

variable {enter : Control → Control} {leave : Control → Control → Control}

theorem bracket (h : Watched limit { m with control := enter m.control } parts x) :
    Watched limit m parts (Eval.bracket enter leave x) := by
  refine ⟨?_, ?_, ?_, ?_⟩
  · intro u hu hcut
    obtain ⟨t, ht⟩ := h.cut u hu hcut
    exact ⟨_, Eval.bracket_of_error (m := m.under (some limit)) ht⟩
  · intro hparts
    have hkept := h.kept hparts
    cases hres : x { m with control := enter m.control } with
    | ok a t =>
      rw [hres] at hkept
      rw [Eval.bracket_of_ok hres]
      exact Eval.bracket_of_ok (m := m.under (some limit)) (t := t.under (some limit)) hkept
    | error e t =>
      rw [hres] at hkept
      rw [Eval.bracket_of_error hres]
      exact Eval.bracket_of_error (m := m.under (some limit)) (t := t.under (some limit)) hkept
  · intro k t heq
    cases hres : x { m with control := enter m.control } with
    | ok a t' =>
      rw [Eval.bracket_of_ok hres] at heq
      cases heq
    | error e t' =>
      rw [Eval.bracket_of_error hres] at heq
      cases heq
      exact h.shallow k t' hres
  · intro a t heq
    cases hres : x { m with control := enter m.control } with
    | ok b t' =>
      rw [Eval.bracket_of_ok hres] at heq
      cases heq
      exact h.unlimited _ t' hres
    | error e t' =>
      rw [Eval.bracket_of_error hres] at heq
      cases heq

theorem building {b : Build α}
    (h : ∀ r r' e, b r = .error (.failed e) r' → e.isAboutCalls = false)
    (hm : m.limit = none) : Calm limit m (Eval.building b) := by
  have hunder : ∀ l, Eval.building b (m.under l) = Ending.under l (Eval.building b m) := by
    intro l
    unfold Eval.building
    cases hres : b m.registry with
    | ok a r => simp only [Machine.under, hres, Ending.under]
    | error e r => simp only [Machine.under, hres, Ending.under]
  refine calm (hunder _) ?_ ?_
  · intro k s heq
    unfold Eval.building at heq
    cases hres : b m.registry with
    | ok a r =>
      rw [hres] at heq
      cases heq
    | error e r =>
      rw [hres] at heq
      cases heq
      exact Error.ne_callDepthExceeded (h _ r _ hres) k rfl
  · intro a s heq
    obtain ⟨r, -, rfl⟩ := Eval.building_eq_ok.mp heq
    exact hm

/-- What computes without the limit, and is the same under it, starts no task. -/
theorem operates : Operates fun _ x => ∀ m : Machine, m.limit = none → Calm limit m x where
  pure a _ hm := pure a hm
  fail h _ _ := fail (Error.ne_callDepthExceeded h)
  bind hx hf m hm := (hx m hm).last fun a s _ hs => hf a s hs
  read hk hsame m hm := get_bind (hk m m hm) (hsame m m.sink m.source (some limit))
  println _ _ hm := modify (fun _ _ => rfl) hm
  readLine m hm := by
    refine calm rfl nofun ?_
    intro a s hs
    cases hs
    exact hm
  building h _ hm := building h hm
  activation shape m hm := by
    refine get_bind ?_ rfl
    split
    · exact pure _ hm
    · exact fail nofun
  write := by
    intro g _ hsame m hm
    have hkept : ∀ m, g m = { g m with sink := m.sink, source := m.source, limit := m.limit } :=
      fun m => hsame m m.sink m.source m.limit
    have hlimit : (g m).limit = none := by rw [hkept, hm]
    refine modify (fun m l => ?_) hlimit
    have hunder := hsame m m.sink m.source l
    rw [hkept m]
    exact hunder

end Watched

end ObjectLang
