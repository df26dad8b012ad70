import ObjectLang.Proofs.Trace

/-!
Reachable machines: those between the runs of a program, and those on which any task of a run starts
or which it leaves. Each is at the end of a sequence of steps from the machine the program was
loaded into, so what every step keeps holds of all of them.
-/

namespace ObjectLang

/-- A run with this fuel leads to the call of `main`, which does all its work. -/
def Launches (fuel : Nat) (m : Machine) (t : Task) : Prop :=
  ∃ c main m₁ m₂, Eval.building (Registry.resolve "main") m = .ok c m₁ ∧
    Eval.create c m₁ = .ok main m₂ ∧ t = ⟨fuel, .call main "main" [], m₂⟩

def Occurs (start : Machine) (t : Task) : Prop :=
  ∃ fuels fuel launched, Launches fuel (start.runs fuels) launched ∧ Reaches launched t

inductive Reachable (start : Machine) : Machine → Prop
  | idle (fuels : List Nat) : Reachable start (start.runs fuels)
  | started {t : Task} (h : Occurs start t) : Reachable start t.machine
  | ended {t : Task} (h : Occurs start t) : Reachable start t.final

def Task.Ready (t : Task) (k : List Control) (hand : List Value) : Prop :=
  match t.work with
  | .call receiver _ vs => Moment.Receives ⟨t.machine, k, hand⟩ receiver ∧ vs ⊆ hand
  | _ => True

def Leads (t u : Task) : Prop :=
  ∀ k hand, t.Ready k hand →
    ∃ k' hand', Steps ⟨t.machine, k, hand⟩ ⟨u.machine, k', hand'⟩ ∧ u.Ready k' hand'

section

variable {n : Nat} {k : List Control} {hand : List Value} {m m₁ : Machine}

theorem steps_eval {f : Form} {a : Operand} (h : eval n f m = .ok a m₁) :
    ∃ hand', Steps ⟨m, k, hand⟩ ⟨m₁, k, hand'⟩ := by
  obtain ⟨hand', hs, -⟩ := (traces_eval n f m).steps (List.nil_subset hand) h
  exact ⟨hand', hs⟩

theorem steps_arguments {fs : List Form} {vs : List Value}
    (h : Eval.arguments (eval n) fs m = .ok (some vs) m₁) :
    ∃ hand', Steps ⟨m, k, hand⟩ ⟨m₁, k, hand'⟩ ∧ vs ⊆ hand' :=
  (Traces.arguments (traces_eval n) fs).steps (List.nil_subset hand) h

theorem steps_condition {form : Conditional} {f : Form} {b : Option Bool}
    (h : Eval.condition (eval n) form f m = .ok b m₁) :
    ∃ hand', Steps ⟨m, k, hand⟩ ⟨m₁, k, hand'⟩ := by
  obtain ⟨hand', hs, -⟩ := (Traces.condition (traces_eval n) form f).steps (List.nil_subset hand) h
  exact ⟨hand', hs⟩

theorem steps_block {fs : List Form} {done : Completion}
    (h : Eval.block (exec n) fs m = .ok done m₁) :
    ∃ hand', Steps ⟨m, k, hand⟩ ⟨m₁, k, hand'⟩ := by
  obtain ⟨hand', hs, -⟩ := (Traces.block (traces_exec n) fs).steps (List.nil_subset hand) h
  exact ⟨hand', hs⟩

theorem steps_locals {fs : List Form} {frame : Frame}
    (h : Eval.locals (eval n) (.empty .locals) fs m = .ok (some frame) m₁) :
    ∃ hand', Steps ⟨m, k, hand⟩ ⟨m₁, k, hand'⟩ ∧ frame.values ⊆ hand' :=
  (Traces.locals (traces_eval n) _ fs (List.nil_subset hand)).steps (List.Subset.refl hand) h

theorem Rounds.steps {test body : Form} {j : Nat} (h : Rounds n test body j m m₁) :
    ∃ hand', Steps ⟨m, k, hand⟩ ⟨m₁, k, hand'⟩ := by
  induction h generalizing hand with
  | none m => exact ⟨hand, .refl _⟩
  | more htest hbody _ ih =>
    obtain ⟨hand₁, hs₁⟩ := steps_condition htest
    obtain ⟨hand₂, hs₂, -⟩ := (traces_exec n body _).steps (List.nil_subset hand₁) hbody
    obtain ⟨hand₃, hs₃⟩ := ih
    exact ⟨hand₃, (hs₁.trans hs₂).trans hs₃⟩

theorem Moment.Receives.mono {hand' : List Value} {v : View}
    (h : Moment.Receives ⟨m, k, hand⟩ v) (hc : m₁.control = m.control) (hsub : hand ⊆ hand') :
    Moment.Receives ⟨m₁, k, hand'⟩ v := by
  unfold Moment.Receives
  rw [hc]
  exact h.imp_left fun h => hsub h

theorem Target.Gives.steps {target : Target} {v : View} (h : target.Gives n m m₁ v) :
    ∃ hand', Steps ⟨m, k, hand⟩ ⟨m₁, k, hand'⟩ ∧ Moment.Receives ⟨m₁, k, hand'⟩ v := by
  cases target with
  | super =>
    obtain ⟨a, ha, hp, rfl⟩ := Eval.superView_eq_ok.mp h
    exact ⟨hand, .refl _, .inr ⟨a, ha, hp⟩⟩
  | value f =>
    obtain ⟨a, ha, hv⟩ := h
    obtain ⟨hand', hs, hg⟩ := (traces_eval n f m).steps (List.nil_subset hand) ha
    exact ⟨hand', hs, .inl (hg (by simp [hv, Value.held]))⟩

end

theorem Awaits.leads (h : Awaits t u) : Leads t u := by
  intro k hand ht
  cases h with
  | receiver | operand | left | assigned | test | result | message | expression =>
    exact ⟨k, hand, .refl _, trivial⟩
  | argument _ hv hvs =>
    obtain ⟨hand₁, hs₁, -⟩ := hv.steps
    obtain ⟨hand₂, hs₂, -⟩ := steps_arguments hvs
    exact ⟨k, hand₂, hs₁.trans hs₂, trivial⟩
  | invocation _ hv hvs =>
    obtain ⟨hand₁, hs₁, hr⟩ := hv.steps
    obtain ⟨hand₂, hs₂, hsub⟩ := steps_arguments hvs
    have hcontrol := (Restores.pervasive.arguments (restores_eval _) _).of_ok hvs
    exact ⟨k, hand₂, hs₁.trans hs₂, hr.mono hcontrol hs₂.hand_subset, hsub⟩
  | right _ ha _ =>
    obtain ⟨hand', hs⟩ := steps_eval ha
    exact ⟨k, hand', hs, trivial⟩
  | body hs hl hb =>
    exact ⟨_, hand, .of_step (.enterCall ht.1 ht.2 hs hl hb), trivial⟩
  | printed _ hvs _ =>
    obtain ⟨hand', hs, -⟩ := steps_arguments hvs
    exact ⟨k, hand', hs, trivial⟩
  | inBlock _ hb =>
    obtain ⟨hand', hs⟩ := steps_block hb
    exact ⟨k, hand', hs, trivial⟩
  | consequent _ hc | alternative _ hc =>
    obtain ⟨hand', hs⟩ := steps_condition hc
    exact ⟨k, hand', hs, trivial⟩
  | loopTest _ hr _ =>
    obtain ⟨hand', hs⟩ := hr.steps
    exact ⟨k, hand', hs, trivial⟩
  | loopBody _ hr _ hc =>
    obtain ⟨hand₁, hs₁⟩ := hr.steps
    obtain ⟨hand₂, hs₂⟩ := steps_condition hc
    exact ⟨k, hand₂, hs₁.trans hs₂, trivial⟩
  | initializer _ hb _ _ htype =>
    obtain ⟨hand₁, hs₁, -⟩ := steps_locals hb
    obtain ⟨hand₂, hs₂, -⟩ := (Traces.resolveType _).steps (List.nil_subset hand₁) htype
    exact ⟨k, hand₂, hs₁.trans hs₂, trivial⟩
  | inLet _ hd hb =>
    obtain ⟨hand₁, hs₁, hv⟩ := steps_locals hd
    obtain ⟨hrole, hmade⟩ := Eval.locals_made hd (by simp [Frame.empty])
    obtain ⟨hand₂, hs₂⟩ := steps_block hb
    exact ⟨_, hand₂, (hs₁.trans (.of_step (.enterLet hrole hmade hv))).trans hs₂, trivial⟩

theorem Starts.leads (h : Starts t u) : Leads t u := by
  cases h with
  | awaits h => exact h.leads
  | guards h =>
    cases h
    exact fun k hand _ => ⟨_, hand, .of_step .enterTry, trivial⟩
  | handles h =>
    obtain ⟨-, hb⟩ := h
    intro k hand _
    obtain ⟨hand', hs, -⟩ := (traces_exec _ _ _).steps (List.nil_subset hand) hb
    exact ⟨_, hand', ((Steps.of_step .enterTry).trans hs).trans (.of_step .enterHandler), trivial⟩

theorem Reaches.leads (h : Reaches t u) : Leads t u := by
  induction h with
  | refl => exact fun k hand ht => ⟨k, hand, .refl _, ht⟩
  | tail _ h ih =>
    intro k hand ht
    obtain ⟨k₁, hand₁, hs₁, hu⟩ := ih k hand ht
    obtain ⟨k₂, hand₂, hs₂, hw⟩ := h.leads k₁ hand₁ hu
    exact ⟨k₂, hand₂, hs₁.trans hs₂, hw⟩

theorem Task.Ready.final {t : Task} {k : List Control} {hand : List Value} (h : t.Ready k hand) :
    ∃ hand', Steps ⟨t.machine, k, hand⟩ ⟨t.final, k, hand'⟩ := by
  obtain ⟨n, work, m⟩ := t
  cases work with
  | eval f =>
    obtain ⟨hand', hs, -⟩ := traces_eval n f m k hand (List.nil_subset hand)
    exact ⟨hand', hs⟩
  | exec f =>
    obtain ⟨hand', hs, -⟩ := traces_exec n f m k hand (List.nil_subset hand)
    exact ⟨hand', hs⟩
  | call receiver name vs =>
    have ht : Traces m hand (Eval.callMethod (exec n) receiver name vs) Value.held :=
      .callMethod (traces_exec n) (restores_exec n) h.1 h.2
    obtain ⟨hand', hs, -⟩ := ht k hand (List.Subset.refl hand)
    exact ⟨hand', hs⟩

theorem steps_runs (m : Machine) (fuels : List Nat) (k : List Control) (hand : List Value) :
    ∃ hand', Steps ⟨m, k, hand⟩ ⟨m.runs fuels, k, hand'⟩ := by
  induction fuels generalizing m hand with
  | nil => exact ⟨hand, .refl _⟩
  | cons fuel fuels ih =>
    obtain ⟨hand₁, hs₁, -⟩ := traces_run fuel m k hand (List.nil_subset hand)
    obtain ⟨hand₂, hs₂⟩ := ih (after (Eval.run fuel) m) hand₁
    exact ⟨hand₂, hs₁.trans hs₂⟩

theorem Launches.steps {fuel : Nat} {m : Machine} {t : Task} (h : Launches fuel m t)
    (k : List Control) (hand : List Value) :
    ∃ hand', Steps ⟨m, k, hand⟩ ⟨t.machine, k, hand'⟩ ∧ t.Ready k hand' := by
  obtain ⟨c, main, m₁, m₂, hc, hmain, rfl⟩ := h
  obtain ⟨hand₁, hs₁, -⟩ := (Traces.resolve "main").steps (List.nil_subset hand) hc
  obtain ⟨r, hr, rfl⟩ := Eval.building_eq_ok.mp hc
  obtain ⟨hand₂, hs₂, hg⟩ :=
    (Traces.create (Registry.mem_of_resolve hr)).steps (List.nil_subset hand₁) hmain
  exact ⟨hand₂, hs₁.trans hs₂, .inl (hg (by simp)), List.nil_subset hand₂⟩

theorem Occurs.starts {start : Machine} {t u : Task} (h : Occurs start t) (hs : Starts t u) :
    Occurs start u := by
  obtain ⟨fuels, fuel, launched, hl, hr⟩ := h
  exact ⟨fuels, fuel, launched, hl, hr.tail hs⟩

theorem Occurs.steps {start : Machine} {t : Task} (h : Occurs start t) :
    ∃ k hand, Steps ⟨start, [], []⟩ ⟨t.machine, k, hand⟩ ∧ t.Ready k hand := by
  obtain ⟨fuels, fuel, launched, hl, hr⟩ := h
  obtain ⟨hand₁, hs₁⟩ := steps_runs start fuels [] []
  obtain ⟨hand₂, hs₂, hready⟩ := hl.steps [] hand₁
  obtain ⟨k, hand₃, hs₃, ht⟩ := hr.leads [] hand₂ hready
  exact ⟨k, hand₃, (hs₁.trans hs₂).trans hs₃, ht⟩

theorem Reachable.steps {start m : Machine} (h : Reachable start m) :
    ∃ k hand, Steps ⟨start, [], []⟩ ⟨m, k, hand⟩ := by
  cases h with
  | idle fuels =>
    obtain ⟨hand, hs⟩ := steps_runs start fuels [] []
    exact ⟨[], hand, hs⟩
  | started h =>
    obtain ⟨k, hand, hs, -⟩ := h.steps
    exact ⟨k, hand, hs⟩
  | ended h =>
    obtain ⟨k, hand₁, hs₁, ht⟩ := h.steps
    obtain ⟨hand₂, hs₂⟩ := ht.final
    exact ⟨k, hand₂, hs₁.trans hs₂⟩

theorem Sample.occurs_main : Occurs start ⟨8, .exec running.body, entered⟩ := by
  have hmain : Awaits ⟨8, .call ⟨1, cls, []⟩ "main" [], after (Eval.create cls) start⟩
      ⟨8, .exec running.body, entered⟩ := .body rfl rfl rfl
  exact ⟨[], 8, _, ⟨cls, _, start, _, rfl, rfl, rfl⟩, .single (.awaits hmain)⟩

end ObjectLang
