import ObjectLang.CommandLine
import ObjectLang.Proofs.Completion
import ObjectLang.Proofs.Lines
import ObjectLang.Proofs.Loading
import ObjectLang.Proofs.Pervasive

/-!
The command line and the embedded interpreter. A run looks at its channels only to print a line or
to read one, so that it does the same on channels that answer the same. Standard output takes what
a buffer captures, and standard input gives the lines of its text.
-/

namespace ObjectLang

/-- Which channels stand for each other: they stay so under the same lines of output, and give the
same lines of input. -/
structure Wiring where
  sinks : Sink → Sink → Prop
  sources : Source → Source → Prop
  println {s s' : Sink} (line : String) : sinks s s' → sinks (s.println line) (s'.println line)
  readLine {s s' : Source} : sources s s' →
    s'.readLine.1.getD "" = s.readLine.1.getD "" ∧ sources s.readLine.2 s'.readLine.2

namespace Wiring

variable {w : Wiring} {m m' : Machine} {α : Type}

def Links (w : Wiring) (m m' : Machine) : Prop :=
  ∃ sink source, m' = { m with sink, source } ∧ w.sinks m.sink sink ∧ w.sources m.source source

inductive Ends (w : Wiring) : EStateM.Result Stop Machine α → EStateM.Result Stop Machine α → Prop
  | ok {m m' : Machine} (a : α) : w.Links m m' → Ends w (.ok a m) (.ok a m')
  | error {m m' : Machine} (e : Stop) : w.Links m m' → Ends w (.error e m) (.error e m')

def Carries (w : Wiring) (x : Eval α) : Prop := ∀ m m', w.Links m m' → w.Ends (x m) (x m')

theorem Carries.read {k : Machine → Eval α} (hk : ∀ m, w.Carries (k m))
    (hsame : ∀ m sink source, k { m with sink, source } = k m) : w.Carries (get >>= k) := by
  rintro m _ ⟨sink, source, rfl, hsink, hsource⟩
  have hright : (get >>= k) { m with sink, source } = k m { m with sink, source } :=
    congrFun (hsame m sink source) _
  rw [hright]
  exact hk m m _ ⟨sink, source, rfl, hsink, hsource⟩

theorem Carries.write {g : Machine → Machine}
    (hsame : ∀ m sink source, g { m with sink, source } = { g m with sink, source }) :
    w.Carries (modify g) := by
  rintro m _ ⟨sink, source, rfl, hsink, hsource⟩
  have hkept : g m = { g m with sink := m.sink, source := m.source } := hsame m m.sink m.source
  have hsink' : (g m).sink = m.sink := by rw [hkept]
  have hsource' : (g m).source = m.source := by rw [hkept]
  refine .ok () ⟨sink, source, hsame m sink source, ?_, ?_⟩
  · rwa [hsink']
  · rwa [hsource']

theorem pervasive (w : Wiring) : Pervasive fun _ x => w.Carries x where
  pure a m m' h := .ok a h
  starve m m' h := .error _ h
  fail _ m m' h := .error _ h
  bind := by
    intro α β x f hx hf m m' h
    have hends := hx m m' h
    cases hm : x m <;> cases hm' : x m' <;> rw [hm, hm'] at hends <;> cases hends
    · rename_i hlinks
      rw [bind_ok hm, bind_ok hm']
      exact hf _ _ _ hlinks
    · rename_i hlinks
      rw [bind_error hm, bind_error hm']
      exact .error _ hlinks
  read hk hsame := .read hk fun m sink source => hsame m sink source m.limit
  write _ hsame := .write fun m sink source => by
    have hkept := hsame m m.sink m.source m.limit
    rw [hsame m sink source m.limit, hkept]
  println := by
    rintro line m _ ⟨sink, source, rfl, hsink, hsource⟩
    exact .ok () ⟨sink.println line, source, rfl, w.println line hsink, hsource⟩
  readLine := by
    rintro m _ ⟨sink, source, rfl, hsink, hsource⟩
    obtain ⟨hline, hrest⟩ := w.readLine hsource
    have hright : Eval.readLine { m with sink, source } =
        .ok (m.source.readLine.1.getD "") { m with sink, source := source.readLine.2 } := by
      rw [← hline]
      rfl
    rw [hright]
    exact .ok _ ⟨sink, source.readLine.2, rfl, hsink, hrest⟩
  building := by
    rintro α b - m _ ⟨sink, source, rfl, hsink, hsource⟩
    unfold Eval.building
    cases b m.registry with
    | ok a r => exact .ok a ⟨sink, source, rfl, hsink, hsource⟩
    | error e r => exact .error e ⟨sink, source, rfl, hsink, hsource⟩
  bracket := by
    rintro α enter leave x - - hx m _ ⟨sink, source, rfl, hsink, hsource⟩
    have hends := hx { m with control := enter m.control }
      { m with control := enter m.control, sink, source } ⟨sink, source, rfl, hsink, hsource⟩
    unfold Eval.bracket
    simp only
    generalize x { m with control := enter m.control } = r at hends ⊢
    generalize x { m with control := enter m.control, sink, source } = r' at hends ⊢
    cases hends with
    | ok a h =>
      obtain ⟨sink, source, rfl, hsink, hsource⟩ := h
      exact .ok a ⟨sink, source, rfl, hsink, hsource⟩
    | error e h =>
      obtain ⟨sink, source, rfl, hsink, hsource⟩ := h
      exact .error e ⟨sink, source, rfl, hsink, hsource⟩
  checkDepth := by
    refine .read (fun m => ?_) fun _ _ _ => rfl
    cases m.atLimit? with
    | none => exact fun _ _ h => .ok () h
    | some limit => exact fun _ _ h => .error _ h
  activation shape := by
    refine .read (fun m => ?_) fun _ _ _ => rfl
    cases m.control.activation with
    | none => exact fun _ _ h => .error _ h
    | some a => exact fun _ _ h => .ok a h

def commandLine : Wiring where
  sinks s s' := ∃ text, s = .console text ∧ s' = .buffer text
  sources := Source.Feeds
  println := by
    rintro _ _ line ⟨text, rfl, rfl⟩
    exact ⟨text ++ line ++ "\n", rfl, rfl⟩
  readLine h := ⟨congrArg (Option.getD · "") h.readLine.1.symm, h.readLine.2⟩

def muted : Wiring where
  sinks _ s' := s' = .silent
  sources := Eq
  println := by
    rintro _ _ _ rfl
    rfl
  readLine := by
    rintro s _ rfl
    exact ⟨rfl, rfl⟩

end Wiring

/- Loading gives a registry or a reason why there is none. -/

theorem Registry.load_ends (forms : List Form) : Registry.load forms ≠ .error .outOfFuel := by
  rw [← Schedule.load_inOrder]
  cases hd : Registry.declareAll forms with
  | error e => simp [Schedule.load_eq_error hd]
  | ok r =>
    obtain ⟨_, h, -⟩ | ⟨_, _, h, -⟩ := Schedule.load_cases (s := .inOrder) hd <;> simp [h]

theorem Program.ofSource_ends (source : String) :
    ofSource source ≠ .error (.stopped .outOfFuel) := by
  intro h
  unfold ofSource at h
  split at h
  · cases h
  · split at h
    · rename_i hload
      cases h
      exact Registry.load_ends _ hload
    · cases h

def Ending.result {α : Type} : EStateM.Result Stop Machine α → Except Stop α
  | .ok a _ => .ok a
  | .error e _ => .error e

theorem Ending.of_result {α : Type} {x : EStateM.Result Stop Machine α} {a : α}
    (h : result x = .ok a) : ∃ m, x = .ok a m := by
  cases x with
  | ok b m =>
    cases h
    exact ⟨m, rfl⟩
  | error e m => cases h

/-- A loaded program, run by a host that queues the lines of input. -/
def Program.embedded (fuel : Nat) (r : Registry) (sink : Sink) (lines : List String)
    (limit : Option Nat) : EStateM.Result Stop Machine Outcome :=
  Eval.run fuel (Machine.start r sink (.queue lines) (Mode.interpret.limitOr limit))

/-- On this program and standard input, both in UTF-8, the command ends with this exit code and
this text on standard output. -/
def Command.shows (fuel : Nat) (command : Command) (source stdin : String) (code : Nat)
    (out : String) : Prop :=
  ∃ err, command.report fuel (some source.toUTF8) stdin.toUTF8.toList = some ⟨code, out, err⟩

/- The two runs of a loaded program. -/

theorem Wiring.ends_commandLine (fuel : Nat) (r : Registry) (stdin : String)
    (limit : Option Nat) :
    commandLine.Ends
      (Eval.run fuel (Machine.start r Mode.interpret.sink (.stream stdin.toUTF8.toList)
        (Mode.interpret.limitOr limit)))
      (Program.embedded fuel r (.buffer "") (Source.inputLines stdin.toList) limit) := by
  refine commandLine.pervasive.run fuel _ _ ⟨.buffer "", .queue _, rfl, ⟨"", rfl, rfl⟩, ?_⟩
  exact ⟨stdin.toList, congrArg Source.stream (toList_toUTF8 stdin), rfl⟩

theorem Wiring.ends_muted (fuel : Nat) (r : Registry) (sink : Sink) (lines : List String)
    (limit : Option Nat) :
    muted.Ends (Program.embedded fuel r sink lines limit)
      (Program.embedded fuel r .silent lines limit) :=
  muted.pervasive.run fuel _ _ ⟨.silent, _, rfl, rfl, rfl⟩

theorem Wiring.Ends.result {w : Wiring} {α : Type} {x x' : EStateM.Result Stop Machine α}
    (h : w.Ends x x') : Ending.result x' = Ending.result x := by
  cases h <;> rfl

theorem Wiring.Links.captured {m m' : Machine} (h : commandLine.Links m m') :
    m'.sink.captured = m.sink.written := by
  obtain ⟨sink, source, rfl, ⟨text, hconsole, rfl⟩, -⟩ := h
  rw [hconsole]
  rfl

/- What the command line shows of a program. -/

namespace Command

variable {fuel : Nat} {path : String} {limit : Option Nat} {ignored : List String}
  {source stdin out : String} {code : Nat} {r : Registry}

theorem shows_run : (run path limit ignored).shows fuel source stdin code out ↔
    ∃ err, runReport fuel path limit (some source.toUTF8) stdin.toUTF8.toList =
      some ⟨code, out, err⟩ := by
  constructor
  · rintro ⟨err, h⟩
    obtain ⟨⟨_, _, err'⟩, hr, heq⟩ := Option.map_eq_some_iff.mp h
    cases heq
    exact ⟨err', hr⟩
  · rintro ⟨err, h⟩
    exact ⟨_, Option.map_eq_some_iff.mpr ⟨_, h, rfl⟩⟩

theorem runReport_toUTF8 (input : List UInt8) :
    runReport fuel path limit (some source.toUTF8) input =
      match Program.ofSource source with
      | .error e => loadFailure path e
      | .ok r => runLoaded fuel path limit r input := by
  cases h : Program.ofSource source <;> simp only [runReport, readText, fromUTF8?_toUTF8, h]

/-- A program that does not load is a failure without output. -/
theorem shows_of_load_error {e : LoadError} (h : Program.ofSource source = .error e) :
    (run path limit ignored).shows fuel source stdin code out ↔ code = 1 ∧ out = "" := by
  rw [shows_run, runReport_toUTF8, h]
  cases e with
  | unreadable e => simp [loadFailure, failure, eq_comm]
  | stopped reason =>
    cases reason with
    | failed e => simp [loadFailure, failure, eq_comm]
    | outOfFuel => exact absurd h (Program.ofSource_ends source)

/-- A program that loads shows what its embedded run captures, once that has ended. -/
theorem shows_of_load (h : Program.ofSource source = .ok r) :
    (run path limit ignored).shows fuel source stdin code out ↔
      match Program.embedded fuel r (.buffer "") (Source.inputLines stdin.toList) limit with
      | .ok .completed m => code = 0 ∧ out = m.sink.captured
      | .ok (.uncaught _) m => code = 2 ∧ out = m.sink.captured
      | .error (.failed _) m => code = 1 ∧ out = m.sink.captured
      | .error .outOfFuel _ => False := by
  rw [shows_run, runReport_toUTF8, h]
  simp only [runLoaded]
  have hends := Wiring.ends_commandLine fuel r stdin limit
  generalize Eval.run fuel _ = x at hends ⊢
  generalize Program.embedded _ _ _ _ _ = x' at hends ⊢
  cases hends with
  | ok o hlinks => cases o <;> simp [hlinks.captured, eq_comm]
  | error e hlinks => cases e <;> simp [hlinks.captured, eq_comm]

end Command

/- What a `print` adds to the output: a line at the end, or nothing of its own. -/

namespace Eval

variable {eval : Form → Eval Operand} {m s : Machine} {line : String} {fs : List Form}

theorem printed_eq_render {v : Value} {text : String} (h : printed v = .ok text) :
    v.render = text := by
  cases v <;> cases h <;> rfl

theorem printLine_cons {f : Form} {v : Value} {m₁ : Machine} {text : String}
    (hv : Yields (eval f) m v m₁) (ht : printed v = .ok text) :
    printLine eval line (f :: fs) m = printLine eval (line ++ text) fs m₁ := by
  rw [printLine, withValue_of_yields hv, ht]
  rfl

theorem printLine_eq_normal :
    printLine eval line fs m = .ok .normal s ↔
      ∃ vs m₁, arguments eval fs m = .ok (some vs) m₁ ∧
        (∀ v ∈ vs, ∃ text, printed v = .ok text) ∧
        s = { m₁ with sink := m₁.sink.println (line ++ String.join (vs.map Value.render)) } := by
  constructor
  · intro h
    induction fs generalizing m line with
    | nil =>
      cases h
      exact ⟨[], m, rfl, by simp, by simp⟩
    | cons f fs ih =>
      obtain ⟨-, hraised⟩ | ⟨v, m₁, hv, hk⟩ := withValue_eq_ok.mp h
      · cases hraised
      · cases hp : printed v with
        | error e =>
          rw [hp] at hk
          cases hk
        | ok text =>
          rw [printLine_cons hv hp] at h
          obtain ⟨vs, m₂, hvs, hall, rfl⟩ := ih h
          refine ⟨v :: vs, m₂, arguments_cons_eq_some.mpr ⟨v, vs, m₁, hv, hvs, rfl⟩, ?_, ?_⟩
          · exact List.forall_mem_cons.mpr ⟨⟨text, hp⟩, hall⟩
          · simp [printed_eq_render hp, String.append_assoc]
  · rintro ⟨vs, m₁, hvs, hall, rfl⟩
    induction fs generalizing m vs line with
    | nil =>
      cases hvs
      simp [printLine, println]
      rfl
    | cons f fs ih =>
      obtain ⟨v, ws, m₂, hv, hws, rfl⟩ := arguments_cons_eq_some.mp hvs
      rw [List.forall_mem_cons] at hall
      obtain ⟨⟨text, ht⟩, hall⟩ := hall
      rw [printLine_cons hv ht, ih ws hws hall]
      simp [printed_eq_render ht, String.append_assoc]

/-- A line that is not printed ends with the operand that keeps it from being printed. -/
theorem after_printLine (h : ∀ s, printLine eval line fs m ≠ .ok .normal s) :
    ∃ before g rest vs m₁, fs = before ++ g :: rest ∧
      arguments eval before m = .ok (some vs) m₁ ∧
      after (printLine eval line fs) m = after (eval g) m₁ := by
  induction fs generalizing m line with
  | nil => exact absurd rfl (h _)
  | cons f fs ih =>
    -- Unless the first operand gives a text, it is the one that the line ends with.
    have hfirst : after (printLine eval line (f :: fs)) m = after (eval f) m →
        ∃ before g rest vs m₁, f :: fs = before ++ g :: rest ∧
          arguments eval before m = .ok (some vs) m₁ ∧
          after (printLine eval line (f :: fs)) m = after (eval g) m₁ :=
      fun hafter => ⟨[], f, fs, [], m, rfl, rfl, hafter⟩
    cases hf : eval f m with
    | error e s =>
      refine hfirst ?_
      rw [after_of_error hf]
      exact after_of_error (bind_error hf _)
    | ok a s =>
      rw [after_of_ok hf] at hfirst
      obtain hv | hv := marks_or_yields hf
      · exact hfirst (after_of_ok (withValue_of_marks hv))
      · cases ht : printed a.value with
        | error e =>
          refine hfirst (after_of_error (e := .failed e) ?_)
          rw [printLine, withValue_of_yields hv, ht]
          rfl
        | ok text =>
          rw [printLine_cons hv ht] at h
          obtain ⟨before, g, rest, vs, m₁, rfl, hvs, hafter⟩ := ih h
          refine ⟨f :: before, g, rest, a.value :: vs, m₁, rfl,
            arguments_cons_eq_some.mpr ⟨_, vs, s, hv, hvs, rfl⟩, ?_⟩
          rw [← hafter, after, after, printLine_cons hv ht]

end Eval

/-- The command line refines the embedded interpreter. It shows what a run in interpret mode, with
the lines of standard input queued, leaves in a buffer, with the exit code for the way that run
ends; the outcome is the same if the output is discarded. A `print` that completes adds one line to
the output after what its operands print, and any other leaves the output to its operands. -/
theorem command_line_refines_embedding (fuel : Nat) (path : String) (limit : Option Nat)
    (ignored : List String) (source stdin : String) :
    let shows := (Command.run path limit ignored).shows fuel source stdin
    let embedded r sink :=
      Program.embedded fuel r sink (Source.inputLines stdin.toList) limit
    Source.Cuts (Source.linesOf stdin.toList) stdin.toList ∧
    (∀ e, Program.ofSource source = .error e →
      ∀ code out, shows code out ↔ code = 1 ∧ out = "") ∧
    (∀ r, Program.ofSource source = .ok r →
      (∀ out, shows 0 out ↔
        ∃ m, embedded r (.buffer "") = .ok .completed m ∧ out = m.sink.captured) ∧
      (∀ out, shows 2 out ↔ ∃ message m,
        embedded r (.buffer "") = .ok (.uncaught message) m ∧ out = m.sink.captured) ∧
      (∀ out, shows 1 out ↔ ∃ e m,
        embedded r (.buffer "") = .error (.failed e) m ∧ out = m.sink.captured) ∧
      (∀ code out, shows code out → code = 0 ∨ code = 1 ∨ code = 2) ∧
      Ending.result (embedded r .silent) = Ending.result (embedded r (.buffer ""))) ∧
    ∀ n f operands m, Statement.ofForm f = .print operands →
      (∀ s, exec (n + 1) f m = .ok .normal s ↔
        ∃ vs m₁, Eval.arguments (eval n) operands m = .ok (some vs) m₁ ∧
          (∀ v ∈ vs, ∃ text, Eval.printed v = .ok text) ∧
          s = { m₁ with sink := m₁.sink.println (String.join (vs.map Value.render)) }) ∧
      ((∀ s, exec (n + 1) f m ≠ .ok .normal s) →
        ∃ before g rest vs m₁, operands = before ++ g :: rest ∧
          Eval.arguments (eval n) before m = .ok (some vs) m₁ ∧
          after (exec (n + 1) f) m = after (eval n g) m₁) := by
  intro shows embedded
  refine ⟨Source.cuts_linesOf _, fun e h code out => Command.shows_of_load_error h,
    fun r h => ?_, ?_⟩
  · have hshows : ∀ code out, shows code out ↔ _ := fun code out => Command.shows_of_load h
    have hsilent : Ending.result (embedded r .silent) = Ending.result (embedded r (.buffer "")) :=
      (Wiring.ends_muted fuel r (.buffer "") _ limit).result
    refine ⟨?_, ?_, ?_, ?_, hsilent⟩
    all_goals
      simp only [hshows, embedded]
      generalize Program.embedded _ _ _ _ _ = x
      match x with
      | .ok .completed m => simp
      | .ok (.uncaught _) m => simp
      | .error (.failed _) m => simp
      | .error .outOfFuel m => simp
  · intro n f operands m hf
    have hexec : exec (n + 1) f m = Eval.printLine (eval n) "" operands m :=
      congrFun (exec_eq hf) m
    refine ⟨fun s => ?_, fun h => ?_⟩
    · rw [hexec, Eval.printLine_eq_normal]
      simp
    · simp only [hexec] at h
      rw [after, hexec]
      exact Eval.after_printLine h

def Sample.echo : String :=
  "(class main (method void main () (let ((string s))
    (inputs s) (print s) (inputs s) (print s) (throw s))))"

/-- The last line has no newline of its own, but gets one when it is printed. -/
theorem sample_echo_is_shown :
    ∃ r, Program.ofSource Sample.echo = .ok r ∧
      (Command.run "echo.brew" (some 1) []).shows 9 Sample.echo "a\r\nb" 2 "a\nb\n" := by
  obtain ⟨r, hr⟩ : ∃ r, Program.ofSource Sample.echo = .ok r := by
    have hok : (Program.ofSource Sample.echo).toOption.isSome = true := by decide +kernel
    obtain ⟨r, hr⟩ := Option.isSome_iff_exists.mp hok
    exact ⟨r, except_toOption_eq_some.mp hr⟩
  have hresult : (Program.ofSource Sample.echo).toOption.map (fun r => Ending.result
      (Program.embedded 9 r (.buffer "") (Source.inputLines "a\r\nb".toList) (some 1))) =
        some (.ok (.uncaught "b")) := by decide +kernel
  have htext : (Program.ofSource Sample.echo).toOption.map (fun r => (after (Eval.run 9)
      (Machine.start r (.buffer "") (.queue (Source.inputLines "a\r\nb".toList))
        (some 1))).sink.captured) = some "a\nb\n" := by decide +kernel
  rw [hr] at hresult htext
  obtain ⟨m, hm⟩ := Ending.of_result (Option.some.inj hresult)
  have hcaptured : m.sink.captured = "a\nb\n" := by
    rw [← after_of_ok hm]
    exact Option.some.inj htext
  obtain ⟨-, -, hloaded, -⟩ :=
    command_line_refines_embedding 9 "echo.brew" (some 1) [] Sample.echo "a\r\nb"
  obtain ⟨-, huncaught, -⟩ := hloaded r hr
  exact ⟨r, hr, (huncaught _).mpr ⟨"b", m, hm, hcaptured.symm⟩⟩

end ObjectLang
