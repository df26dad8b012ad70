import ObjectLang.Proofs.Computation
import ObjectLang.Proofs.Pervasive

/-!
Control is restored: whatever an expression or a statement does and however it ends, the scopes,
the activation, the ambient frame, the handling flag and the depth are afterwards what they were.
-/

namespace ObjectLang

variable {α β : Type}

namespace Eval

variable {enter : Control → Control} {leave : Control → Control → Control} {x : Eval α}
  {m t : Machine}

theorem bracket_of_ok {a : α} (h : x { m with control := enter m.control } = .ok a t) :
    bracket enter leave x m = .ok a { t with control := leave m.control t.control } := by
  simp only [bracket, h]

theorem bracket_of_error {e : Stop} (h : x { m with control := enter m.control } = .error e t) :
    bracket enter leave x m = .error e { t with control := leave m.control t.control } := by
  simp only [bracket, h]

end Eval

def Restores (x : Eval α) : Prop := ∀ c, Keeps (fun m => m.control = c) x

namespace Restores

variable {x : Eval α} {f : α → Eval β}

theorem after (h : Restores x) (m : Machine) : (after x m).control = m.control :=
  (h m.control).after rfl

theorem of_ok (h : Restores x) {m s : Machine} {a : α} (hx : x m = .ok a s) :
    s.control = m.control :=
  Triple.ok (h m.control) rfl hx

theorem pure (a : α) : Restores (pure a) := fun _ => .pure a

theorem throw (e : Stop) : Restores (throw e : Eval α) := fun _ => .throw e

theorem fail (e : Error) : Restores (Eval.fail e : Eval α) := throw _

theorem ofExcept (r : Except Error α) : Restores (Eval.ofExcept r) := by
  cases r with
  | ok a => exact pure a
  | error e => exact fail e

theorem bind (hx : Restores x) (hf : ∀ a, Restores (f a)) : Restores (x >>= f) :=
  fun c => (hx c).bind fun a => hf a c

theorem get : Restores get := fun _ => .get

theorem modify {g : Machine → Machine} (h : ∀ m, (g m).control = m.control) :
    Restores (modify g) :=
  fun _ => .modify fun m hm => (h m).trans hm

/-- A change of control is undone if leaving undoes entering. -/
theorem bracket {enter : Control → Control} {leave : Control → Control → Control}
    (hx : Restores x) (hl : ∀ c, leave c (enter c) = c) :
    Restores (Eval.bracket enter leave x) := by
  intro c m hm
  have hr := hx (enter m.control) { m with control := enter m.control } rfl
  unfold Eval.bracket
  cases h : x { m with control := enter m.control } with
  | ok a t =>
    rw [h] at hr
    simpa only [h, hr, hl] using hm
  | error e t =>
    rw [h] at hr
    simpa only [h, hr, hl] using hm

theorem bracket_eq_ok {enter : Control → Control} {leave : Control → Control → Control}
    (hx : Restores x) (hl : ∀ c, leave c (enter c) = c) {m s : Machine} {a : α} :
    Eval.bracket enter leave x m = .ok a s ↔
      ∃ t, x { m with control := enter m.control } = .ok a t ∧
        s = { t with control := m.control } := by
  unfold Eval.bracket
  cases h : x { m with control := enter m.control } with
  | ok b t =>
    have ht : t.control = enter m.control := hx.of_ok h
    simp only [h, ht, hl, EStateM.Result.ok.injEq]
    constructor
    · intro h
      obtain ⟨rfl, rfl⟩ := h
      exact ⟨t, ⟨rfl, rfl⟩, rfl⟩
    · intro h
      obtain ⟨u, ⟨rfl, rfl⟩, rfl⟩ := h
      exact ⟨rfl, rfl⟩
  | error e t => simp [h]

section

variable {m s : Machine} {a : α} {frame : FrameId} {view : View} {method : Method}

theorem inScope_eq_ok (hx : Restores x) :
    Eval.inScope frame x m = .ok a s ↔
      ∃ t, x { m with control := m.control.enterScope frame } = .ok a t ∧
        s = { t with control := m.control } :=
  bracket_eq_ok hx fun _ => rfl

theorem inTry (hx : Restores x) : Restores (Eval.inTry frame x) := bracket hx fun _ => rfl

theorem inTry_eq_ok (hx : Restores x) :
    Eval.inTry frame x m = .ok a s ↔
      ∃ t, x { m with control := m.control.enterTry frame } = .ok a t ∧
        s = { t with control := m.control } :=
  bracket_eq_ok hx fun _ => rfl

theorem inHandler (hx : Restores x) : Restores (Eval.inHandler x) := bracket hx fun _ => rfl

theorem inHandler_eq_ok (hx : Restores x) :
    Eval.inHandler x m = .ok a s ↔
      ∃ t, x { m with control.handling := true } = .ok a t ∧ s = { t with control := m.control } :=
  bracket_eq_ok hx fun _ => rfl

theorem inCall_eq_ok (hx : Restores x) :
    Eval.inCall view method frame x m = .ok a s ↔
      ∃ t, x { m with control := m.control.enterCall view method frame } = .ok a t ∧
        s = { t with control := m.control } :=
  bracket_eq_ok hx fun _ => rfl

end

theorem building (b : Build α) : Restores (Eval.building b) := by
  intro c m hm
  unfold Eval.building
  cases b m.registry <;> exact hm

theorem activation (shape : Shape) : Restores (Eval.activation shape) := by
  refine get.bind fun m => ?_
  split
  · exact pure _
  · exact fail _

/-- The operations on the machine do not touch the control, and brackets undo what they change. -/
theorem pervasive : Pervasive fun _ x => Restores x where
  pure := pure
  fail _ := fail _
  bind := bind
  read hk _ := get.bind hk
  println _ := modify fun _ => rfl
  readLine := get.bind fun _ => bind (modify fun _ => rfl) fun _ => pure _
  building _ := building _
  activation := activation
  write hcontrol _ := modify hcontrol
  starve := throw _
  checkDepth := by
    refine get.bind fun m => ?_
    split
    · exact fail _
    · exact pure _
  bracket hleave _ hx := bracket hx hleave

end Restores

def Eval.guarded (exec : Form → Eval Completion) (body handler : Form) : Eval Completion := do
  match ← exec body with
  | .raised => inHandler (exec handler)
  | done => return done

def Eval.rethrown (frame : FrameId) : Completion → Eval Completion
  | .raised => do
    raise (← messageIn frame)
    return .raised
  | done => return done

theorem Eval.attempt_eq (exec : Form → Eval Completion) (body handler : Form) (m : Machine) :
    attempt exec body handler m =
      ((alloc .forException >>= fun frame => inTry frame (guarded exec body handler)) >>=
        rethrown m.store.next) m :=
  rfl

namespace Restores

theorem guarded {exec : Form → Eval Completion} (hexec : ∀ f, Restores (exec f))
    (body handler : Form) : Restores (Eval.guarded exec body handler) := by
  refine (hexec body).bind fun done => ?_
  split
  · exact inHandler (hexec handler)
  · exact pure _

end Restores

theorem restores_eval (fuel : Nat) (f : Form) : Restores (eval fuel f) :=
  Restores.pervasive.eval fuel f

theorem restores_exec (fuel : Nat) (f : Form) : Restores (exec fuel f) :=
  Restores.pervasive.exec fuel f

theorem restores_run (fuel : Nat) : Restores (Eval.run fuel) := Restores.pervasive.run fuel

def Machine.runs (m : Machine) (fuels : List Nat) : Machine :=
  fuels.foldl (fun m fuel => after (Eval.run fuel) m) m

theorem control_runs (m : Machine) (fuels : List Nat) : (m.runs fuels).control = m.control := by
  induction fuels generalizing m with
  | nil => rfl
  | cons fuel fuels ih => exact (ih _).trans ((restores_run fuel).after m)

/-- Statements and expressions leave the control as they found it, however they end. So after any
number of runs, each ended in any way, a machine is ready to be run again: no scope, activation or
handler is left, no call is under way and the first frame takes the messages. -/
theorem control_restored :
    (∀ (fuel : Nat) (f : Form) (m : Machine), (after (exec fuel f) m).control = m.control) ∧
    (∀ (fuel : Nat) (f : Form) (m : Machine), (after (eval fuel f) m).control = m.control) ∧
    ∀ (r : Registry) (sink : Sink) (source : Source) (limit : Option Nat) (fuels : List Nat),
      ((Machine.start r sink source limit).runs fuels).control =
        { scopes := [], activation := none, ambient := 0, handling := false, depth := 0 } := by
  refine ⟨fun fuel f m => ?_, fun fuel f m => ?_, fun r sink source limit fuels => ?_⟩
  · exact (restores_exec fuel f).after m
  · exact (restores_eval fuel f).after m
  · rw [control_runs]
    rfl

end ObjectLang
