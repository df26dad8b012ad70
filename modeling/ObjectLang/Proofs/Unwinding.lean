import ObjectLang.Proofs.Completion

/-!
Exceptions unwind without further effects: a task that waits for another one which raises ends with
the marker itself, in the state in which the other one ended.
-/

namespace ObjectLang

theorem Task.RaisesIn.control {t : Task} {s : Machine} (h : t.RaisesIn s) :
    s.control = t.machine.control := by
  obtain ⟨n, work, m⟩ := t
  cases work with
  | eval f =>
    obtain ⟨a, ha, -⟩ := h
    exact (restores_eval n f).of_ok ha
  | exec f => exact (restores_exec n f).of_ok h
  | call receiver name vs => exact (Restores.pervasive.callMethod (restores_exec n) _ _ _).of_ok h

theorem Task.raisesIn_eval {n : Nat} {f : Form} {e : Expression} {m s : Machine} {x : Eval Value}
    (hf : Expression.ofForm f = e)
    (he : Eval.expression (eval n) (exec n) e = do return .temporary (← x))
    (h : x m = .ok .exception s) : Task.RaisesIn ⟨n + 1, .eval f, m⟩ s := by
  have hmarks : Marks (Eval.expression (eval n) (exec n) e) m s := by
    rw [he]
    exact marks_temporary.mpr h
  exact (marks_eval hf).mpr hmarks

theorem Task.raisesIn_exec {n : Nat} {f : Form} {e : Statement} {m s : Machine}
    (hf : Statement.ofForm f = e) (h : Eval.statement n (eval n) (exec n) e m = .ok .raised s) :
    Task.RaisesIn ⟨n + 1, .exec f, m⟩ s := by
  have heq : exec (n + 1) f m = Eval.statement n (eval n) (exec n) e m := by rw [exec_eq hf]
  exact heq.trans h

/-- One level: a task raises if the one it waits for does, and changes nothing but the control. -/
theorem Awaits.raises {t u : Task} {s : Machine} (h : Awaits t u) (hu : u.RaisesIn s) :
    ∃ c, t.RaisesIn { s with control := c } := by
  cases h with
  | receiver hf =>
    refine ⟨s.control, Task.raisesIn_eval hf rfl ?_⟩
    exact Eval.call_eq_ok.mpr (.inl ⟨_, rfl, hu, rfl⟩)
  | argument hf hv hvs =>
    refine ⟨s.control, Task.raisesIn_eval hf rfl ?_⟩
    refine Eval.call_eq_ok.mpr (.inr ⟨_, _, hv, Eval.callWith_eq_ok.mpr (.inl ⟨?_, rfl⟩)⟩)
    exact Eval.arguments_eq_none.mpr ⟨_, _, _, _, _, rfl, hvs, hu⟩
  | invocation hf hv hvs =>
    refine ⟨s.control, Task.raisesIn_eval hf rfl ?_⟩
    exact Eval.call_eq_ok.mpr (.inr ⟨_, _, hv, Eval.callWith_eq_ok.mpr (.inr ⟨_, _, hvs, hu⟩)⟩)
  | operand hf =>
    refine ⟨s.control, Task.raisesIn_eval hf rfl ?_⟩
    obtain ⟨a, ha, hv⟩ := hu
    refine (bind_ok ha _).trans ?_
    rw [hv]
    rfl
  | left hf =>
    refine ⟨s.control, Task.raisesIn_eval hf rfl ?_⟩
    obtain ⟨a, ha, hv⟩ := hu
    refine (bind_ok ha _).trans ?_
    rw [hv]
    rfl
  | right hf ha hx =>
    refine ⟨s.control, Task.raisesIn_eval hf rfl ?_⟩
    obtain ⟨b, hb, hv⟩ := hu
    refine (bind_ok ha _).trans ?_
    simp only [hx]
    refine (bind_ok hb _).trans ?_
    rw [hv]
    rfl
  | body hs hl hb =>
    exact ⟨_, (Eval.callMethod_eq_ok (restores_exec _)).mpr
      ⟨_, _, _, .raised, s, hs, hl, hb, hu, rfl, rfl⟩⟩
  | printed hf hvs hp =>
    refine ⟨s.control, Task.raisesIn_exec hf ?_⟩
    exact Eval.printLine_eq_raised.mpr ⟨_, _, _, _, _, rfl, hvs, hp, hu⟩
  | assigned hf hv =>
    refine ⟨s.control, Task.raisesIn_exec hf ?_⟩
    exact (bind_ok hv _).trans (Eval.withValue_of_marks hu)
  | inBlock hf hb =>
    refine ⟨s.control, Task.raisesIn_exec hf ?_⟩
    exact Eval.block_eq_raised.mpr ⟨_, _, _, _, rfl, hb, hu⟩
  | test hf =>
    refine ⟨s.control, Task.raisesIn_exec hf ?_⟩
    exact Eval.branch_eq_raised.mpr (.inl hu)
  | consequent hf hc =>
    refine ⟨s.control, Task.raisesIn_exec hf ?_⟩
    exact Eval.branch_eq_raised.mpr (.inr (.inl ⟨_, hc, hu⟩))
  | alternative hf hc =>
    refine ⟨s.control, Task.raisesIn_exec hf ?_⟩
    exact Eval.branch_eq_raised.mpr (.inr (.inr ⟨_, _, hc, rfl, hu⟩))
  | loopTest hf hr hk =>
    refine ⟨s.control, Task.raisesIn_exec hf ?_⟩
    exact Eval.loop_eq_raised.mpr ⟨_, _, hr, hk, .inl hu⟩
  | loopBody hf hr hk hc =>
    refine ⟨s.control, Task.raisesIn_exec hf ?_⟩
    exact Eval.loop_eq_raised.mpr ⟨_, _, hr, hk, .inr ⟨_, hc, hu⟩⟩
  | initializer hf hb hd hi ht =>
    refine ⟨s.control, Task.raisesIn_exec hf ?_⟩
    have hnone := Eval.initial_eq_none.mpr ⟨_, _, hi, ht, hu⟩
    refine (Eval.letBlock_eq_raised (restores_exec _)).mpr (.inl ?_)
    exact Eval.locals_eq_none.mpr ⟨_, _, _, _, _, _, rfl, hb, hd, hnone⟩
  | inLet hf hd hb =>
    refine ⟨_, Task.raisesIn_exec hf ((Eval.letBlock_eq_raised (restores_exec _)).mpr
      (.inr ⟨_, _, s, hd, ?_, rfl⟩))⟩
    exact Eval.block_eq_raised.mpr ⟨_, _, _, _, rfl, hb, hu⟩
  | result hf ha =>
    refine ⟨s.control, Task.raisesIn_exec hf ?_⟩
    exact (bind_ok (Eval.activation_eq_ok.mpr ⟨ha, rfl⟩) _).trans (Eval.withValue_of_marks hu)
  | message hf =>
    refine ⟨s.control, Task.raisesIn_exec hf ?_⟩
    exact Eval.withValue_of_marks hu
  | expression hf =>
    refine ⟨s.control, Task.raisesIn_exec hf ?_⟩
    exact Eval.withValue_of_marks hu

theorem Awaits.raisesIn {t u : Task} {s : Machine} (h : Awaits t u) (hu : u.RaisesIn s) :
    t.RaisesIn { s with control := t.machine.control } := by
  obtain ⟨c, hc⟩ := h.raises hu
  have hcontrol : c = t.machine.control := hc.control
  rwa [← hcontrol]

/-- Through any nesting of tasks that wait for each other, whole calls and loops included, the
marker of the innermost one becomes the outcome of the outermost. All variables, the output, the
rest of the input and the registry are as the innermost one left them, whatever stands after it. -/
theorem unwinding_has_no_effects {t u : Task} {s : Machine}
    (h : Relation.ReflTransGen Awaits t u) (hu : u.RaisesIn s) :
    t.RaisesIn { s with control := t.machine.control } := by
  induction h using Relation.ReflTransGen.head_induction_on with
  | refl =>
    have hcontrol := hu.control
    rwa [← hcontrol]
  | head h _ ih =>
    have hraises := h.raisesIn ih
    exact hraises

theorem printed_call_raises :
    ∃ s, Relation.ReflTransGen Awaits ⟨7, .exec Sample.print, Sample.entered.enterTry⟩
        ⟨4, .exec Sample.failing.body, Sample.failed⟩ ∧
      Task.RaisesIn ⟨4, .exec Sample.failing.body, Sample.failed⟩ s ∧
      Task.RaisesIn ⟨7, .exec Sample.print, Sample.entered.enterTry⟩
        { s with control := Sample.entered.enterTry.control } := by
  have hf : Statement.ofForm Sample.print = .print ([.atom "\"x\""] ++ Sample.sum :: []) := rfl
  have hvs : Eval.arguments (eval 6) [.atom "\"x\""] Sample.entered.enterTry =
      .ok (some [.string "x"]) Sample.entered.enterTry := rfl
  have hprinted : Awaits ⟨7, .exec Sample.print, Sample.entered.enterTry⟩
      ⟨6, .eval Sample.sum, Sample.entered.enterTry⟩ :=
    .printed hf hvs (by simp [Eval.printed])
  have hright : Awaits ⟨6, .eval Sample.sum, Sample.entered.enterTry⟩
      ⟨5, .eval Sample.call, Sample.entered.enterTry⟩ := .right rfl rfl rfl
  have hinvocation : Awaits ⟨5, .eval Sample.call, Sample.entered.enterTry⟩
      ⟨4, .call ⟨1, Sample.cls, []⟩ "fail" [.string "b"], Sample.entered.enterTry⟩ :=
    .invocation rfl ⟨_, rfl, rfl⟩ rfl
  have hbody : Awaits
      ⟨4, .call ⟨1, Sample.cls, []⟩ "fail" [.string "b"], Sample.entered.enterTry⟩
      ⟨4, .exec Sample.failing.body, Sample.failed⟩ := .body rfl rfl rfl
  have hcall := (Relation.ReflTransGen.single hprinted).tail hright
  have hchain := (hcall.tail hinvocation).tail hbody
  obtain ⟨s, hs⟩ : ∃ s, exec 4 Sample.failing.body Sample.failed = .ok .raised s :=
    exists_raised (by decide +kernel)
  exact ⟨s, hchain, hs, unwinding_has_no_effects hchain hs⟩

end ObjectLang
