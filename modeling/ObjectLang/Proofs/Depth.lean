import Mathlib.Data.Nat.Find
import Mathlib.Order.Bounds.Defs
import ObjectLang.Proofs.Limit
import ObjectLang.Proofs.Scope

/-!
The depth of calls. It counts the methods under way, so it never exceeds the limit; and a run that
the limit does not cut is the same under every higher limit and without one.
-/

namespace ObjectLang

/- The methods under way. -/

/-- The task is a part of the launched one, inside these running methods, the innermost first. -/
inductive Nested (launched : Task) : List Activation → Task → Prop
  | launched : Nested launched [] launched
  | called (h : Nested launched active t) (hc : Calls t a u) : Nested launched (a :: active) u
  | within (h : Nested launched active t) (hs : Starts t u) (hc : ∀ a, ¬ Calls t a u) :
      Nested launched active u

theorem Reaches.nested {launched t : Task} (h : Reaches launched t) :
    ∃ active, Nested launched active t := by
  induction h with
  | refl => exact ⟨[], .launched⟩
  | @tail t u _ hs ih =>
    obtain ⟨active, ht⟩ := ih
    by_cases hc : ∃ a, Calls t a u
    · obtain ⟨a, hc⟩ := hc
      exact ⟨a :: active, ht.called hc⟩
    · exact ⟨active, ht.within hs (not_exists.mp hc)⟩

/-- Only calls change the number of calls under way. -/
theorem Opens.depth {t u : Task} {b : Block} (h : Opens t b u) :
    u.machine.control.depth = t.machine.control.depth := by
  cases h with
  | inLet _ hd hb =>
    have hlocals := congrArg Control.depth
      ((Restores.pervasive.locals (restores_eval _) _ _).of_ok hd)
    have hblock := congrArg Control.depth ((Restores.pervasive.block (restores_exec _) _).of_ok hb)
    exact hblock.trans hlocals
  | inTry => rfl
  | inHandler _ hb =>
    have hbody := congrArg Control.depth ((restores_exec _ _).of_ok hb)
    exact hbody

theorem Starts.depth {t u : Task} (h : Starts t u) (hc : ∀ a, ¬ Calls t a u) :
    u.machine.control.depth = t.machine.control.depth ∧
      u.machine.control.activation = t.machine.control.activation := by
  obtain ⟨a, hcall⟩ | ⟨b, hopens⟩ | hcontinues := h.cases
  · exact absurd hcall (hc a)
  · exact ⟨hopens.depth, hopens.control.2.1⟩
  · rw [hcontinues.control]
    exact ⟨rfl, rfl⟩

namespace Nested

variable {launched t : Task} {active : List Activation}

/-- The depth counts the running methods, and the innermost of them is the active one. -/
theorem control (h : Nested launched active t) (hstart : launched.machine.control = .start) :
    t.machine.control.depth = active.length ∧ t.machine.control.activation = active.head? := by
  induction h with
  | launched =>
    rw [hstart]
    exact ⟨rfl, rfl⟩
  | called _ hc ih =>
    cases hc
    exact ⟨congrArg (· + 1) ih.1, rfl⟩
  | within _ hs hc ih => exact ⟨(hs.depth hc).1.trans ih.1, (hs.depth hc).2.trans ih.2⟩

theorem limit (h : Nested launched active t) :
    t.machine.limit = launched.machine.limit := by
  induction h with
  | launched => rfl
  | called _ hc ih => exact hc.starts.limit.trans ih
  | within _ hs _ ih => exact hs.limit.trans ih

/-- A method is entered only below the limit. -/
theorem depth_le {limit : Nat} (h : Nested launched active t)
    (hstart : launched.machine.control = .start) (hlimit : launched.machine.limit = some limit) :
    t.machine.control.depth ≤ limit := by
  induction h with
  | launched =>
    rw [hstart]
    exact Nat.zero_le limit
  | @called _ t a u ht hc ih =>
    obtain ⟨-, hl, -⟩ := hc
    rw [Machine.atLimit?, ht.limit.trans hlimit] at hl
    simp only [Option.filter_some, decide_eq_true_eq, ite_eq_right_iff, reduceCtorEq, imp_false,
      Nat.not_le] at hl
    exact hl
  | within _ hs hc ih => exact (hs.depth hc).1 ▸ ih

end Nested

/- Runs under the limit. -/

theorem Launches.limit {fuel : Nat} {m : Machine} {t : Task} (h : Launches fuel m t) :
    t.machine.limit = m.limit := by
  obtain ⟨hand, hsteps, -⟩ := h.steps [] []
  exact hsteps.limit

/-- All that a run starts itself is the call of `main`. -/
theorem watched_run (limit fuel : Nat) {m : Machine} (hm : m.limit = none) :
    Watched limit m (Launches fuel m) (Eval.run fuel) := by
  have hresolve : Calm limit m (Eval.building (Registry.resolve "main")) :=
    Watched.operates.resolve "main" m hm
  refine (hresolve.first _ fun c m₁ _ h₁ => (Watched.operates.create c m₁ h₁).first
    (fun main m₂ t => t = ⟨fuel, .call main "main" [], m₂⟩) fun main m₂ _ h₂ => ?_).iff ?_
  · refine (watched_callMethod limit main "main" [] h₂).last fun v s _ hs => ?_
    split
    · exact (Watched.operates.ambientMessage s hs).last fun message _ _ h => .pure _ h
    · exact .pure _ hs
  · intro t
    constructor
    · rintro ⟨c, main, m₁, m₂, hc, hmain, rfl⟩
      exact ⟨c, m₁, hc, main, m₂, hmain, rfl⟩
    · rintro ⟨c, m₁, hc, main, m₂, hmain, rfl⟩
      exact ⟨c, main, m₁, m₂, hc, hmain, rfl⟩

/-- A call of the run finds a method, and with it this many calls are under way. -/
def CallDepth (fuel : Nat) (m : Machine) (d : Nat) : Prop :=
  ∃ launched n receiver name vs s, Launches fuel m launched ∧
    Reaches launched ⟨n, .call receiver name vs, s⟩ ∧
    (s.registry.selectMethod? receiver name (vs.map Value.runtimeType)).isSome ∧
    d = s.control.depth + 1

/-- The run with the limit is cut if and only if the run without it makes a call that is deeper. -/
theorem run_cut_iff (limit fuel : Nat) {m : Machine} (hm : m.limit = none) :
    Ending.Cut limit (Eval.run fuel (m.under (some limit))) ↔
      ∃ d, CallDepth fuel m d ∧ limit < d := by
  refine (watched_run limit fuel hm).cut_iff.trans ?_
  constructor
  · rintro ⟨launched, hl, hcut⟩
    obtain ⟨⟨n, work, s⟩, hreaches, hover⟩ :=
      (Task.cut_iff_reaches limit (hl.limit.trans hm)).mp hcut
    cases work with
    | eval f => exact hover.elim
    | exec f => exact hover.elim
    | call receiver name vs =>
      obtain ⟨hselect, hdepth⟩ := hover
      exact ⟨_, ⟨launched, n, receiver, name, vs, s, hl, hreaches, hselect, rfl⟩,
        Nat.lt_succ_of_le hdepth⟩
  · rintro ⟨_, ⟨launched, n, receiver, name, vs, s, hl, hreaches, hselect, rfl⟩, hdepth⟩
    refine ⟨launched, hl, (Task.cut_iff_reaches limit (hl.limit.trans hm)).mpr ?_⟩
    exact ⟨_, hreaches, hselect, Nat.le_of_lt_succ hdepth⟩

theorem run_unlimited {limit fuel : Nat} {m : Machine} (hm : m.limit = none)
    (h : ¬ Ending.Cut limit (Eval.run fuel (m.under (some limit)))) :
    Eval.run fuel (m.under (some limit)) = Ending.under (some limit) (Eval.run fuel m) :=
  (watched_run limit fuel hm).kept fun t ht hcut => h ((watched_run limit fuel hm).cut t ht hcut)

theorem Ending.under_under {α : Type} (limit limit' : Option Nat) (x : Ending α) :
    under limit (under limit' x) = under limit x := by
  cases x <;> rfl

theorem run_under_none (fuel : Nat) {m : Machine} (hm : m.limit = none) :
    Ending.under none (Eval.run fuel m) = Eval.run fuel m := by
  obtain ⟨hand, hsteps⟩ := steps_runs m [fuel] [] []
  have hlimit : (after (Eval.run fuel) m).limit = none := hsteps.limit.trans hm
  cases hres : Eval.run fuel m with
  | ok a s =>
    rw [after, hres] at hlimit
    simp [Ending.under, Machine.under, ← hlimit]
  | error e s =>
    rw [after, hres] at hlimit
    simp [Ending.under, Machine.under, ← hlimit]

/-- A higher limit cuts no more. -/
theorem run_cut_anti {limit limit' fuel : Nat} {m : Machine} (hm : m.limit = none)
    (hle : limit ≤ limit') (h : Ending.Cut limit' (Eval.run fuel (m.under (some limit')))) :
    Ending.Cut limit (Eval.run fuel (m.under (some limit))) := by
  obtain ⟨d, hd, hlt⟩ := (run_cut_iff limit' fuel hm).mp h
  exact (run_cut_iff limit fuel hm).mpr ⟨d, hd, Nat.lt_of_le_of_lt hle hlt⟩

/-- What a task starts is smaller, and at most one call deeper. -/
theorem Starts.depth_le {t u : Task} (h : Starts t u) :
    u.machine.control.depth + u.size ≤ t.machine.control.depth + t.size := by
  have hsize := h.size_lt
  by_cases hc : ∃ a, Calls t a u
  · obtain ⟨a, hc⟩ := hc
    have hdepth : u.machine.control.depth = t.machine.control.depth + 1 := by
      cases hc
      rfl
    omega
  · have hdepth := (h.depth (not_exists.mp hc)).1
    omega

theorem Reaches.depth_le {t u : Task} (h : Reaches t u) :
    u.machine.control.depth + u.size ≤ t.machine.control.depth + t.size := by
  induction h with
  | refl => exact Nat.le_refl _
  | tail _ h ih => exact Nat.le_trans h.depth_le ih

/-- A run that makes a call makes a deepest one. -/
theorem exists_deepest {fuel : Nat} {m : Machine} (h : ∃ d, CallDepth fuel m d) :
    ∃ d, IsGreatest {d | CallDepth fuel m d} d := by
  classical
  have hbound : ∀ d, CallDepth fuel m d → d ≤ m.control.depth + (2 * fuel + 1) + 1 := by
    rintro _ ⟨launched, n, receiver, name, vs, s, hl, hreaches, -, rfl⟩
    have hdepth := hreaches.depth_le
    have hcontrol := hl.control
    obtain ⟨c, main, m₁, m₂, -, -, rfl⟩ := hl
    rw [hcontrol] at hdepth
    simp only [Task.size] at hdepth
    omega
  obtain ⟨d, hd⟩ := h
  refine ⟨Nat.findGreatest (CallDepth fuel m) _, Nat.findGreatest_spec (hbound d hd) hd, ?_⟩
  intro e he
  exact Nat.le_findGreatest (hbound e he) he

/- The machines of a program, with the methods under way. -/

inductive Running (start : Machine) : List Activation → Machine → Prop
  | idle (fuels : List Nat) : Running start [] (start.runs fuels)
  | started {fuel : Nat} {fuels : List Nat} {launched t : Task} {active : List Activation}
      (hl : Launches fuel (start.runs fuels) launched) (h : Nested launched active t) :
      Running start active t.machine
  | ended {fuel : Nat} {fuels : List Nat} {launched t : Task} {active : List Activation}
      (hl : Launches fuel (start.runs fuels) launched) (h : Nested launched active t) :
      Running start active t.final

theorem Reachable.running {start m : Machine} (h : Reachable start m) :
    ∃ active, Running start active m := by
  cases h with
  | idle fuels => exact ⟨[], .idle fuels⟩
  | started h =>
    obtain ⟨fuels, fuel, launched, hl, hr⟩ := h
    obtain ⟨active, hn⟩ := hr.nested
    exact ⟨active, .started hl hn⟩
  | ended h =>
    obtain ⟨fuels, fuel, launched, hl, hr⟩ := h
    obtain ⟨active, hn⟩ := hr.nested
    exact ⟨active, .ended hl hn⟩

/-- The depth counts the running methods, within the limit. -/
theorem Running.depth {start m : Machine} {active : List Activation} (h : Running start active m)
    (hstart : start.control = .start) :
    m.control.depth = active.length ∧ m.control.activation = active.head? ∧
      ∀ limit, start.limit = some limit → m.control.depth ≤ limit := by
  have hruns : ∀ fuels, (start.runs fuels).control = .start :=
    fun fuels => (control_runs start fuels).trans hstart
  have hnested : ∀ {fuel fuels launched t}, Launches fuel (start.runs fuels) launched →
      Nested launched active t → t.machine.control.depth = active.length ∧
        t.machine.control.activation = active.head? ∧
        ∀ limit, start.limit = some limit → t.machine.control.depth ≤ limit := by
    intro fuel fuels launched t hl hn
    have hcontrol := hl.control.trans (hruns fuels)
    obtain ⟨hdepth, hactive⟩ := hn.control hcontrol
    refine ⟨hdepth, hactive, fun limit hlimit => hn.depth_le hcontrol ?_⟩
    obtain ⟨hand, hsteps⟩ := steps_runs start fuels [] []
    exact (hl.limit.trans hsteps.limit).trans hlimit
  cases h with
  | idle fuels =>
    rw [hruns]
    exact ⟨rfl, rfl, fun limit _ => Nat.zero_le limit⟩
  | started hl hn => exact hnested hl hn
  | @ended _ _ _ t _ hl hn =>
    rw [t.control_final]
    exact hnested hl hn

/-- The limit on nested calls only cuts. A run that it does not cut ends the same under every higher
limit and without one: with the same result, on a machine that differs in the limit alone. It cuts
exactly the runs whose deepest call goes beyond it. On every machine that runs pass through, the
depth counts the running methods, and it never exceeds the limit. -/
theorem limit_only_cuts (fuel : Nat) (r : Registry) (sink : Sink) (source : Source) :
    let start := Machine.start r sink source
    (∀ limit, ¬ Ending.Cut limit (Eval.run fuel (start (some limit))) →
      Eval.run fuel (start none) = Ending.under none (Eval.run fuel (start (some limit))) ∧
      ∀ limit', limit ≤ limit' → Eval.run fuel (start (some limit')) =
        Ending.under (some limit') (Eval.run fuel (start (some limit)))) ∧
    (∀ limit d, IsGreatest {d | CallDepth fuel (start none) d} d →
      (Ending.Cut limit (Eval.run fuel (start (some limit))) ↔ limit < d)) ∧
    ((∃ limit, Ending.Cut limit (Eval.run fuel (start (some limit)))) →
      ∃ d, IsGreatest {d | CallDepth fuel (start none) d} d) ∧
    ∀ limit m, Reachable (start (some limit)) m →
      (∃ active, Running (start (some limit)) active m) ∧
      ∀ active, Running (start (some limit)) active m →
        m.control.depth = active.length ∧ m.control.activation = active.head? ∧
        m.control.depth ≤ limit := by
  intro start
  have hstart : (start none).limit = none := rfl
  have hunder : ∀ limit, start limit = (start none).under limit := fun _ => rfl
  refine ⟨?_, ?_, ?_, ?_⟩
  · intro limit hcut
    have hkept := run_unlimited hstart hcut
    refine ⟨?_, fun limit' hle => ?_⟩
    · rw [hunder (some limit), hkept, Ending.under_under, run_under_none fuel hstart]
    · have hkept' := run_unlimited hstart fun h => hcut (run_cut_anti hstart hle h)
      rw [hunder (some limit'), hkept', hunder (some limit), hkept, Ending.under_under]
  · rintro limit d ⟨hd, hmax⟩
    refine (run_cut_iff limit fuel hstart).trans ⟨?_, fun hlt => ⟨d, hd, hlt⟩⟩
    rintro ⟨e, he, hlt⟩
    exact Nat.lt_of_lt_of_le hlt (hmax he)
  · rintro ⟨limit, hcut⟩
    obtain ⟨d, hd, -⟩ := (run_cut_iff limit fuel hstart).mp hcut
    exact exists_deepest ⟨d, hd⟩
  · intro limit m hm
    refine ⟨hm.running, fun active hactive => ?_⟩
    obtain ⟨hdepth, hinner, hle⟩ := hactive.depth rfl
    exact ⟨hdepth, hinner, hle limit rfl⟩

/-- The sample calls `fail` from `main`, so it needs a limit of two. -/
theorem sample_needs_limit_two :
    Ending.Cut 1 (Eval.run 9 (Machine.start ⟨[Sample.cls], []⟩ (.buffer "") (.queue []) (some 1))) ∧
      ¬ Ending.Cut 2
        (Eval.run 9 (Machine.start ⟨[Sample.cls], []⟩ (.buffer "") (.queue []) (some 2))) ∧
      IsGreatest {d | CallDepth 9 Sample.start d} 2 ∧
      Eval.run 9 Sample.start = Ending.under none
        (Eval.run 9 (Machine.start ⟨[Sample.cls], []⟩ (.buffer "") (.queue []) (some 2))) := by
  obtain ⟨hkept, hiff, hdeepest, -⟩ :=
    limit_only_cuts 9 ⟨[Sample.cls], []⟩ (.buffer "") (.queue [])
  have hone : Ending.Cut 1
      (Eval.run 9 (Machine.start ⟨[Sample.cls], []⟩ (.buffer "") (.queue []) (some 1))) := by
    decide +kernel
  have htwo : ¬ Ending.Cut 2
      (Eval.run 9 (Machine.start ⟨[Sample.cls], []⟩ (.buffer "") (.queue []) (some 2))) := by
    decide +kernel
  obtain ⟨d, hd⟩ := hdeepest ⟨1, hone⟩
  have hlower : 1 < d := (hiff 1 d hd).mp hone
  have hupper : ¬ 2 < d := fun h => htwo ((hiff 2 d hd).mpr h)
  have hd2 : d = 2 := by omega
  exact ⟨hone, htwo, hd2 ▸ hd, (hkept 2 htwo).1⟩

end ObjectLang
