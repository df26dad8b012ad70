import ObjectLang.Proofs.Typing
import ObjectLang.Proofs.Unwinding

/-!
The origin of exceptions: a task of a run that ends with the marker got it from a `throw`, through
tasks that wait for each other and through handlers that raise in their turn.
-/

namespace ObjectLang

/-- How a task comes to raise: by a `throw` of its own, through a task that it waits for, or through
a handler, whose message it writes once more. -/
inductive Origin : Task → Machine → Prop
  | thrown (hf : Statement.ofForm f = .throw g) (hv : Yields (eval n g) m v w)
      (hr : Eval.raise v w = .ok () s) : Origin ⟨n + 1, .exec f, m⟩ s
  | unwound (h : Awaits t u) (hu : u.RaisesIn s) : Origin t { s with control := t.machine.control }
  | rethrown (h : Handles t u) (hu : u.RaisesIn s)
      (hr : Eval.raise s.message { s with control := t.machine.control } = .ok () s') : Origin t s'

/-- The task raises an exception that began with a `throw` of the value and leaves the machine `s`.
The machines of the list are those just before each write of a message, the last one first. -/
inductive Raises : Task → Value → List Machine → Machine → Prop
  | thrown (hf : Statement.ofForm f = .throw g) (hv : Yields (eval n g) m v w)
      (hr : Eval.raise v w = .ok () s) : Raises ⟨n + 1, .exec f, m⟩ v [w] s
  | unwound (h : Awaits t u) (hu : Raises u v writes s) :
      Raises t v writes { s with control := t.machine.control }
  | rethrown (h : Handles t u) (hu : Raises u v writes s)
      (hr : Eval.raise s.message { s with control := t.machine.control } = .ok () s') :
      Raises t v ({ s with control := t.machine.control } :: writes) s'

section Inversion

variable {n : Nat} {k : List Control} {hand : List Value} {m s : Machine}

theorem Origin.of_awaits {t u : Task} (ht : t.RaisesIn s) (h : Awaits t u) (hu : u.RaisesIn s) :
    Origin t s := by
  have horigin := Origin.unwound h hu
  rwa [← ht.control] at horigin

theorem lookup_ne_exception {name : String} {x : Variable} (hm : m.store.Typed)
    (h : Eval.lookup name m = .ok x s) : x.value ≠ .exception := by
  obtain ⟨-, hx, -⟩ := Eval.lookup_eq_ok.mp h
  obtain ⟨i, -, hi⟩ := List.exists_of_findSome?_eq_some hx
  exact (hm.get? hi).unmarked

theorem origin_eval {f : Form} (hm : m.store.Typed) (h : Marks (eval n f) m s) :
    Origin ⟨n, .eval f, m⟩ s := by
  have ht : Task.RaisesIn ⟨n, .eval f, m⟩ s := h
  cases n with
  | zero =>
    obtain ⟨a, ha, -⟩ := h
    cases ha
  | succ n =>
    cases hf : Expression.ofForm f <;> rw [marks_eval hf] at h
    case literal l =>
      obtain ⟨a, ha, hv⟩ := h
      cases ha
      cases l <;> cases hv
    case self =>
      obtain ⟨a, ha, hv⟩ := h
      obtain ⟨v, m₁, -, ha⟩ := bind_eq_ok.mp ha
      cases ha
      cases hv
    case name token =>
      obtain ⟨a, ha, hv⟩ := h
      obtain ⟨x, m₁, hx, ha⟩ := bind_eq_ok.mp ha
      cases ha
      exact absurd hv (lookup_ne_exception hm hx)
    case call target method args =>
      cases Eval.call_eq_ok.mp (marks_temporary.mp h) with
      | inl h =>
        obtain ⟨g, rfl, hg, -⟩ := h
        exact .of_awaits ht (.receiver hf) hg
      | inr h' =>
        obtain ⟨w, m₁, hw, h⟩ := h'
        cases Eval.callWith_eq_ok.mp h with
        | inl h' =>
          obtain ⟨h, -⟩ := h'
          obtain ⟨before, g, rest, vs, m₂, rfl, hvs, hg⟩ := Eval.arguments_eq_none.mp h
          exact .of_awaits ht (.argument hf hw hvs) hg
        | inr h' =>
          obtain ⟨vs, m₂, hvs, h⟩ := h'
          exact .of_awaits ht (.invocation hf hw hvs) h
    case create cls =>
      obtain ⟨c, m₁, -, h⟩ := bind_eq_ok.mp (marks_temporary.mp h)
      obtain ⟨v, m₂, -, h⟩ := bind_eq_ok.mp h
      cases h
    case negation operand =>
      exact .of_awaits ht (.operand hf) (Eval.marks_of_negation (marks_temporary.mp h))
    case binary op left right =>
      cases Eval.marks_of_binary (marks_temporary.mp h) with
      | inl hl => exact .of_awaits ht (.left hf) hl
      | inr h =>
        obtain ⟨a, m₁, ha, hx, hr⟩ := h
        exact .of_awaits ht (.right hf ha hx) hr
    case invalid e =>
      obtain ⟨a, ha, -⟩ := h
      cases ha

theorem origin_exec {f : Form} (h : exec n f m = .ok .raised s) : Origin ⟨n, .exec f, m⟩ s := by
  have ht : Task.RaisesIn ⟨n, .exec f, m⟩ s := h
  cases n with
  | zero => cases h
  | succ n =>
    cases hf : Statement.ofForm f <;> rw [exec_eq hf] at h
    case print operands =>
      obtain ⟨before, g, rest, vs, m₁, rfl, hb, hvs, hg⟩ := Eval.printLine_eq_raised.mp h
      exact .of_awaits ht (.printed hf hb hvs) hg
    case assign name value =>
      obtain ⟨_, m₁, hv, hk⟩ := bind_eq_ok.mp h
      obtain ⟨-, -, rfl⟩ := Eval.checkVisible_eq_ok.mp hv
      cases Eval.withValue_eq_ok.mp hk with
      | inl h =>
        obtain ⟨hg, -⟩ := h
        exact .of_awaits ht (.assigned hf hv) hg
      | inr h =>
        obtain ⟨v, m₂, -, hk⟩ := h
        obtain ⟨_, m₃, -, hk⟩ := bind_eq_ok.mp hk
        cases hk
    case block body =>
      obtain ⟨before, g, rest, m₁, rfl, hb, hg⟩ := Eval.block_eq_raised.mp h
      exact .of_awaits ht (.inBlock hf hb) hg
    case branch test consequent alternative =>
      obtain hg | ⟨m₁, hc, hg⟩ | ⟨m₁, g, hc, rfl, hg⟩ := Eval.branch_eq_raised.mp h
      · exact .of_awaits ht (.test hf) hg
      · exact .of_awaits ht (.consequent hf hc) hg
      · exact .of_awaits ht (.alternative hf hc) hg
    case loop test body =>
      obtain ⟨j, m₁, hr, hj, hg | ⟨m₂, hc, hg⟩⟩ := Eval.loop_eq_raised.mp h
      · exact .of_awaits ht (.loopTest hf hr hj) hg
      · exact .of_awaits ht (.loopBody hf hr hj hc) hg
    case bind decls body =>
      cases (Eval.letBlock_eq_raised (restores_exec n)).mp h with
      | inl h =>
        obtain ⟨before, d, rest, frame, m₁, l, rfl, hb, hl, hi⟩ := Eval.locals_eq_none.mp h
        obtain ⟨g, m₂, hg, htype, hmarks⟩ := Eval.initial_eq_none.mp hi
        exact .of_awaits ht (.initializer hf hb hl hg htype) hmarks
      | inr h =>
        obtain ⟨frame, m₁, t, hd, hb, rfl⟩ := h
        obtain ⟨before, g, rest, m₂, rfl, hbefore, hg⟩ := Eval.block_eq_raised.mp hb
        rw [(Restores.pervasive.locals (restores_eval n) _ decls).of_ok hd]
        exact .unwound (.inLet hf hd hbefore) hg
    case input kind name =>
      obtain ⟨_, m₁, -, hk⟩ := bind_eq_ok.mp h
      obtain ⟨line, m₂, -, hk⟩ := bind_eq_ok.mp hk
      obtain ⟨v, m₃, -, hk⟩ := bind_eq_ok.mp hk
      obtain ⟨_, m₄, -, hk⟩ := bind_eq_ok.mp hk
      cases hk
    case result value =>
      obtain ⟨a, m₁, ha, hk⟩ := bind_eq_ok.mp h
      obtain ⟨ha, rfl⟩ := Eval.activation_eq_ok.mp ha
      cases value with
      | none => cases hk
      | some g =>
        cases Eval.withValue_eq_ok.mp hk with
        | inl h =>
          obtain ⟨hg, -⟩ := h
          exact .of_awaits ht (.result hf ha) hg
        | inr h =>
          obtain ⟨v, m₂, -, hk⟩ := h
          cases hk
    case attempt body handler =>
      obtain ⟨m₁, m₂, hbody, hhandler, hr⟩ := (Eval.attempt_eq_raised (restores_exec n)).mp h
      exact .rethrown (.handler hf hbody) hhandler hr
    case throw message =>
      cases Eval.withValue_eq_ok.mp h with
      | inl h =>
        obtain ⟨hg, -⟩ := h
        exact .of_awaits ht (.message hf) hg
      | inr h =>
        obtain ⟨v, w, hv, hk⟩ := h
        obtain ⟨_, m₁, hr, hk⟩ := bind_eq_ok.mp hk
        cases hk
        exact .thrown hf hv hr
    case expression g =>
      cases Eval.withValue_eq_ok.mp h with
      | inl h =>
        obtain ⟨hg, -⟩ := h
        exact .of_awaits ht (.expression hf) hg
      | inr h =>
        obtain ⟨v, w, hv, hk⟩ := h
        cases hk
    case invalid e => cases h

/-- A body never returns the marker, so a method that gives it has a body that raises. -/
theorem origin_call {receiver : View} {name : String} {vs : List Value}
    (hp : Moment.Typed ⟨m, k, hand⟩) (hready : Task.Ready ⟨n, .call receiver name vs, m⟩ k hand)
    (h : Eval.callMethod (exec n) receiver name vs m = .ok .exception s) :
    Origin ⟨n, .call receiver name vs, m⟩ s := by
  obtain ⟨view, method, bindings, done, t, hs, hl, hb, hbody, hv, rfl⟩ :=
    (Eval.callMethod_eq_ok (restores_exec n)).mp h
  obtain ⟨rfl, -⟩ | ⟨w, hw, -, hx⟩ := Registry.returnValue_eq_ok hv
  · exact .unwound (.body hs hl hb) hbody
  · have hexception : w = .exception := by
      cases w <;> cases hx
      rfl
    exfalso
    cases hw with
    | inl hw =>
      subst hw
      have henter := (Step.enterCall hready.1 hready.2 hs hl hb).typed hp
      obtain ⟨hand', hsteps, hheld⟩ := (traces_exec n method.body _).steps (List.nil_subset _) hbody
      have htyped := hsteps.keeps (fun _ _ => Step.typed) henter
      exact htyped.unmarked (hheld (hexception ▸ List.mem_cons_self))
    | inr hw =>
      subst hw
      exact Value.ne_exception_of_isPlain (Value.isPlain_zero _) hexception

theorem Task.RaisesIn.origin {t : Task} (h : t.RaisesIn s)
    (hp : Moment.Typed ⟨t.machine, k, hand⟩) (hready : t.Ready k hand) : Origin t s := by
  obtain ⟨n, work, m⟩ := t
  cases work with
  | eval f => exact origin_eval hp.store h
  | exec f => exact origin_exec h
  | call receiver name vs => exact origin_call hp hready h

end Inversion

/- A task is larger than those it starts. -/

def Task.size (t : Task) : Nat :=
  match t.work with
  | .eval _ | .exec _ => 2 * t.fuel
  | .call .. => 2 * t.fuel + 1

theorem Awaits.size_lt {t u : Task} (h : Awaits t u) : u.size < t.size := by
  cases h <;> simp only [Task.size] <;> omega

theorem Handles.size_lt {t u : Task} (h : Handles t u) : u.size < t.size := by
  cases h
  simp only [Task.size]
  omega

theorem Raises.raisesIn {t : Task} {v : Value} {writes : List Machine} {s : Machine}
    (h : Raises t v writes s) : t.RaisesIn s := by
  induction h with
  | thrown hf hv hr =>
    refine Task.raisesIn_exec hf ((Eval.withValue_of_yields hv).trans ?_)
    exact (bind_ok hr _).trans rfl
  | unwound ha _ ih => exact ha.raisesIn ih
  | rethrown hh _ hr ih =>
    obtain ⟨hf, hb⟩ := hh
    refine Task.raisesIn_exec hf ?_
    exact (Eval.attempt_eq_raised (restores_exec _)).mpr ⟨_, _, hb, ih, hr⟩

/-- Every exception of a run began with a `throw`. -/
theorem exists_raises {start : Machine} (hstart : Moment.Typed ⟨start, [], []⟩) {t : Task}
    {s : Machine} (ht : Occurs start t) (h : t.RaisesIn s) : ∃ v writes, Raises t v writes s := by
  induction hn : t.size using Nat.strongRecOn generalizing t s with
  | _ n ih =>
    subst hn
    obtain ⟨k, hand, hsteps, hready⟩ := ht.steps
    have htyped := hsteps.keeps (fun _ _ => Step.typed) hstart
    cases h.origin htyped hready with
    | thrown hf hv hr => exact ⟨_, _, .thrown hf hv hr⟩
    | unwound ha hu =>
      obtain ⟨v, writes, hraises⟩ := ih _ ha.size_lt (ht.starts (.awaits ha)) hu rfl
      exact ⟨v, writes, .unwound ha hraises⟩
    | rethrown hh hu hr =>
      obtain ⟨v, writes, hraises⟩ := ih _ hh.size_lt (ht.starts (.handles hh)) hu rfl
      exact ⟨v, _, .rethrown hh hraises hr⟩

end ObjectLang
