import ObjectLang.Proofs.Lockstep

/-!
What a registry holds besides the loaded classes cannot be seen. A program does the same whichever
names have been resolved before it runs; so it does the same when it is run again after runs that
ended well, on input that they have not read.
-/

namespace ObjectLang

open Movable (moved Fits)
open Pairing (Later)

variable {m m' : Machine} {p : Pairing}

/- The message of an uncaught exception. -/

theorem Variable.text_moved (k : Nat) (x : Variable) : (moved k x).text = x.text := by
  obtain ⟨t, v⟩ := x
  cases v <;> rfl

/-- Unless one was written, the message is the one that was there before. -/
theorem Agrees.ambientMessage (h : p.Mirrors m m') (hambient : m.control.ambient = 0)
    (hheld : m.store.frame? 0 = some (.ofMessage p.held) → p.held' = p.held) :
    Agrees p m m' Eval.ambientMessage Eval.ambientMessage := by
  obtain ⟨x, x', hx, hx', -, -, hcase⟩ := h.stores.first
  have hambient' : m'.control.ambient = 0 := by
    rw [h.ambient_eq, hambient]
    rfl
  have hget : m.store.get? m.control.ambient exceptionName = some x := by
    rw [hambient, Store.get?, hx]
    exact Frame.get?_ofMessage x exceptionName
  have hget' : m'.store.get? m'.control.ambient exceptionName = some x' := by
    rw [hambient', Store.get?, hx']
    exact Frame.get?_ofMessage x' exceptionName
  have htext : x'.text = x.text := by
    obtain rfl | ⟨rfl, rfl⟩ := hcase
    · exact x.text_moved p.offset
    · rw [hheld hx]
  exact of_ok (Eval.ambientMessage_of_get? hget) (Eval.ambientMessage_of_get? hget') h (.refl m)
    trivial htext

theorem agrees_run (h : p.Mirrors m m') (hambient : m.control.ambient = 0) (fuel : Nat)
    (hheld : ∀ o t, Eval.run fuel m = .ok o t → t.store.frame? 0 = some (.ofMessage p.held) →
      p.held' = p.held) :
    Agrees p m m' (Eval.run fuel) (Eval.run fuel) := by
  refine (Agrees.resolve h "main").bind fun c m₁ m₁' hc h₁ hl₁ hcls => ?_
  refine (Agrees.create h₁ hcls).bind fun main m₂ m₂' hmain h₂ hl₂ hview => ?_
  have hnone : Fits p.floor m₂.registry ([] : List Value) := fun v hv => absurd hv List.not_mem_nil
  refine (Agrees.callMethod (fun f _ _ => agrees_exec p fuel f) h₂ "main" hview hnone).bind
    fun v t t' hv ht hl₃ _ => ?_
  cases v with
  | exception =>
    have hcontrol := (hl₁.trans (hl₂.trans hl₃)).control
    refine (Agrees.ambientMessage ht (hcontrol ▸ hambient) fun hfirst => ?_).bind
      fun text u u' _ hu _ _ => .pure hu trivial rfl
    obtain ⟨x, -, hx, -⟩ := ht.stores.first
    have hget : t.store.get? t.control.ambient exceptionName = some x := by
      rw [hcontrol, hambient, Store.get?, hx]
      exact Frame.get?_ofMessage x exceptionName
    have hrun : Eval.run fuel m = .ok (.uncaught x.text) t :=
      (bind_ok hc _).trans ((bind_ok hmain _).trans ((bind_ok hv _).trans
        (bind_ok (Eval.ambientMessage_of_get? hget) _)))
    exact hheld _ t hrun hfirst
  | _ => exact .pure ht trivial rfl

/- Machines between runs. -/

/-- Nothing is under way, and the first frame has a message. -/
structure Machine.Idle (m : Machine) : Prop where
  control : m.control = .start
  first : ∃ x, m.store.frame? 0 = some (.ofMessage x) ∧ x.declared = .string

theorem Machine.idle_start (r : Registry) (sink : Sink) (source : Source) (limit : Option Nat) :
    (start r sink source limit).Idle :=
  ⟨rfl, _, rfl, rfl⟩

theorem Machine.Idle.next_pos (h : m.Idle) : 0 < m.store.next := by
  obtain ⟨x, hx, -⟩ := h.first
  exact Store.lt_next_of_frame? hx

def Sink.printAll (s : Sink) (lines : List String) : Sink :=
  lines.foldl (fun s line => s.println line) s

def Pairing.ofIdle (m m' : Machine) (hm : 0 < m.store.next) (x x' : Variable) : Pairing where
  floor := m.store.next
  floor_pos := hm
  offset := m'.store.next - m.store.next
  sinks s s' := ∃ lines, s = m.sink.printAll lines ∧ s' = m'.sink.printAll lines
  println := by
    rintro line s s' ⟨lines, rfl, rfl⟩
    exact ⟨lines ++ [line], by simp [Sink.printAll], by simp [Sink.printAll]⟩
  held := x
  held' := x'

theorem Pairing.mirrors_ofIdle (hm : m.Idle) (hm' : m'.Idle) (hc : m.registry.Complete)
    (hw : m.registry.Within m'.registry) (hnext : m.store.next ≤ m'.store.next)
    (hsource : m'.source = m.source) (hlimit : m'.limit = m.limit) {x x' : Variable}
    (hx : m.store.frame? 0 = some (.ofMessage x)) (hx' : m'.store.frame? 0 = some (.ofMessage x')) :
    (ofIdle m m' hm.next_pos x x').Mirrors m m' := by
  have hbeyond : ∀ {s : Store} {i : FrameId}, s.next ≤ i → s.frame? i = none :=
    fun h => Array.getElem?_eq_none h
  have hstring : ∀ {m : Machine} {x : Variable}, m.Idle → m.store.frame? 0 = some (.ofMessage x) →
      x.declared = .string := by
    intro m x hm hx
    obtain ⟨y, hy, ht⟩ := hm.first
    rw [hx] at hy
    cases hy
    exact ht
  refine ⟨?_, ?_, ?_, hc, hw, ⟨[], rfl, rfl⟩, hsource, hlimit⟩
  · rw [hm.control, hm'.control]
    rfl
  · rw [hm.control]
    exact ⟨fun i hi => absurd hi List.not_mem_nil, nofun, .inl rfl, nofun⟩
  · refine ⟨Nat.le_refl _, (Nat.add_sub_cancel' hnext).symm, ?_, ?_, ?_⟩
    · intro i hi
      have hi' : m'.store.next ≤ i + (m'.store.next - m.store.next) :=
        Nat.le_trans (Nat.le_of_eq (Nat.add_sub_cancel' hnext).symm) (Nat.add_le_add_right hi _)
      rw [hbeyond hi]
      exact hbeyond hi'
    · intro i f hi hf
      rw [hbeyond hi] at hf
      cases hf
    · exact ⟨x, x', hx, hx', hstring hm hx, hstring hm' hx', .inr ⟨rfl, rfl⟩⟩

/-- Two idle machines of which the second has more classes and more frames run alike, if what is
left in their first frames cannot make a difference. -/
theorem Machine.Idle.run (hm : m.Idle) (hm' : m'.Idle) (hc : m.registry.Complete)
    (hw : m.registry.Within m'.registry) (hnext : m.store.next ≤ m'.store.next)
    (hsource : m'.source = m.source) (hlimit : m'.limit = m.limit) (fuel : Nat)
    (hheld : ∀ o t, Eval.run fuel m = .ok o t → t.store.frame? 0 = m.store.frame? 0 →
      m'.store.frame? 0 = m.store.frame? 0) :
    (∃ o t t' lines, Eval.run fuel m = .ok o t ∧ Eval.run fuel m' = .ok o t' ∧ t.Idle ∧
      t.registry.Complete ∧ Later m t ∧ t.sink = m.sink.printAll lines ∧
      t'.sink = m'.sink.printAll lines ∧ t'.source = t.source) ∨
    ∃ e t t' lines, Eval.run fuel m = .error e t ∧ Eval.run fuel m' = .error e t' ∧
      t.sink = m.sink.printAll lines ∧ t'.sink = m'.sink.printAll lines ∧ t'.source = t.source := by
  obtain ⟨x, hx, -⟩ := hm.first
  obtain ⟨x', hx', -⟩ := hm'.first
  have hmirrors := Pairing.mirrors_ofIdle hm hm' hc hw hnext hsource hlimit hx hx'
  have hambient : m.control.ambient = 0 := by
    rw [hm.control]
    rfl
  have hagrees := agrees_run hmirrors hambient fuel fun o t hrun hfirst => by
    have heq := hheld o t hrun (hfirst.trans hx.symm)
    rw [hx, hx'] at heq
    cases heq
    rfl
  obtain ⟨o, t, t', hrun, hrun', ht, hl, -⟩ | ⟨e, t, t', hrun, hrun', ⟨lines, hs, hs'⟩, hsource⟩ :=
    hagrees.cases
  · obtain ⟨lines, hs, hs'⟩ := ht.sinks
    obtain ⟨y, -, hy, -, hstring, -⟩ := ht.stores.first
    exact .inl ⟨o, t, t', lines, hrun, hrun', ⟨hl.control.trans hm.control, y, hy, hstring⟩,
      ht.complete, hl, hs, hs', ht.source⟩
  · exact .inr ⟨e, t, t', lines, hrun, hrun', hs, hs', hsource⟩

/-- A run that ends well leaves an idle machine, whose classes name registered types only. -/
theorem Machine.Idle.after (hm : m.Idle) (hc : m.registry.Complete) {fuel : Nat} {o : Outcome}
    {t : Machine} (h : Eval.run fuel m = .ok o t) :
    t.Idle ∧ t.registry.Complete ∧ Later m t := by
  obtain ⟨o', t', -, -, hrun, -, hidle, hcomplete, hl, -⟩ | ⟨e, t', -, -, hrun, -⟩ :=
    hm.run hm hc (.refl _) (Nat.le_refl _) rfl rfl fuel fun _ _ _ _ => rfl
  · rw [h] at hrun
    cases hrun
    exact ⟨hidle, hcomplete, hl⟩
  · rw [h] at hrun
    cases hrun

/- Resolving names before a run, and running again. -/

def Registry.Resolutions : Registry → Registry → Prop :=
  Relation.ReflTransGen fun r r' => ∃ name c, resolve name r = .ok c r'

theorem Registry.Resolutions.within {r r' : Registry} (h : r.Resolutions r') (hr : r.Complete) :
    r'.Complete ∧ r.Within r' := by
  induction h with
  | refl => exact ⟨hr, .refl r⟩
  | tail _ hstep ih =>
    obtain ⟨name, c, hc⟩ := hstep
    obtain ⟨hcomplete, hwithin, -⟩ := ih.1.resolve hc
    exact ⟨hcomplete, ih.2.trans hwithin⟩

def Machine.EndsWell : Machine → Machine → Prop :=
  Relation.ReflTransGen fun m t => ∃ fuel o, Eval.run fuel m = .ok o t

theorem Machine.EndsWell.idle {start m : Machine} (h : start.EndsWell m) (hs : start.Idle)
    (hc : start.registry.Complete) : m.Idle ∧ m.registry.Complete := by
  induction h with
  | refl => exact ⟨hs, hc⟩
  | tail _ hrun ih =>
    obtain ⟨fuel, o, hrun⟩ := hrun
    obtain ⟨hidle, hcomplete, -⟩ := ih.1.after ih.2 hrun
    exact ⟨hidle, hcomplete⟩

def Machine.observed (fuel : Nat) (m : Machine) : Except Stop Outcome × Sink × Source :=
  match Eval.run fuel m with
  | .ok o t => (.ok o, t.sink, t.source)
  | .error e t => (.error e, t.sink, t.source)

/-- Whatever names have been resolved since a program was loaded, a run of it ends in the same way,
with the same output and the same input left. And a program that is run again after runs that ended
well, the last of which has read nothing, ends as it did that time and prints the same lines again.
Of the runs before it none may have failed, for one that fails to resolve a class leaves it behind
without the types that it names. -/
theorem instances_are_transparent {forms : List Form} {r r' : Registry}
    (hload : Registry.load forms = .ok r) (hr' : r.Resolutions r') (sink : Sink) (source : Source)
    (limit : Option Nat) :
    (∀ fuel, (Machine.start r' sink source limit).observed fuel =
      (Machine.start r sink source limit).observed fuel) ∧
    ∀ m, (Machine.start r' sink source limit).EndsWell m →
      ∀ fuel o m₁, Eval.run fuel m = .ok o m₁ → m₁.source = m.source →
        ∃ m₂ lines, Eval.run fuel m₁ = .ok o m₂ ∧ m₁.sink = m.sink.printAll lines ∧
          m₂.sink = m₁.sink.printAll lines ∧ m₂.source = m₁.source := by
  have hc := Registry.complete_of_load hload
  obtain ⟨hc', hwithin⟩ := hr'.within hc
  have hidle := Machine.idle_start r sink source limit
  have hidle' := Machine.idle_start r' sink source limit
  refine ⟨?_, ?_⟩
  · intro fuel
    obtain ⟨o, t, t', lines, hrun, hrun', -, -, -, hs, hs', hsource⟩ |
        ⟨e, t, t', lines, hrun, hrun', hs, hs', hsource⟩ :=
      hidle.run hidle' hc hwithin (Nat.le_refl _) rfl rfl fuel fun _ _ _ _ => rfl
    · simp only [Machine.observed, hrun, hrun', hs, hs', hsource]
      rfl
    · simp only [Machine.observed, hrun, hrun', hs, hs', hsource]
      rfl
  · intro m hm fuel o m₁ hrun hsource
    obtain ⟨hidle, hcomplete⟩ := hm.idle hidle' hc'
    obtain ⟨hidle₁, -, hl⟩ := hidle.after hcomplete hrun
    -- If the first run has left the first frame as it was, the second finds it as the first did.
    have hheld : ∀ o t, Eval.run fuel m = .ok o t → t.store.frame? 0 = m.store.frame? 0 →
        m₁.store.frame? 0 = m.store.frame? 0 := by
      intro o' t ht hframe
      rw [hrun] at ht
      cases ht
      exact hframe
    obtain ⟨o', t, m₂, lines, ht, hrun', -, -, -, hs, hs', hsource'⟩ | ⟨e, t, -, -, ht, -⟩ :=
      hidle.run hidle₁ hcomplete hl.within hl.store.next_le hsource hl.limit fuel hheld
    · rw [hrun] at ht
      cases ht
      exact ⟨m₂, lines, hrun', hs, hs', hsource'⟩
    · rw [hrun] at ht
      cases ht

/- A program that makes an instance of a template when it runs. -/

namespace Sample

def making : Form :=
  .list [.atom "let",
    .list [.list [.atom "box@int", .atom "b", .list [.atom "new", .atom "box@int"]]],
    .list [.atom "print", .atom "\"made\""]]

def boxForms : List Form :=
  [.list [.atom "tclass", .atom "box", .list [.atom "t"],
      .list [.atom "field", .atom "t", .atom "item"]],
    .list [.atom "class", .atom "main",
      .list [.atom "method", .atom "void", .atom "main", .list [], making]]]

def boxes : Registry :=
  ⟨[⟨⟨"main", [], [⟨"main", .void, [], making⟩]⟩, []⟩],
    [⟨"box", ["t"], [.list [.atom "field", .atom "t", .atom "item"]]⟩]⟩

end Sample

theorem exists_completed {x : EStateM.Result Stop Machine Outcome}
    (h : (x matches .ok .completed ⟨_, _, _, _, .queue [], _⟩) = true) :
    ∃ m, x = .ok .completed m ∧ m.source = .queue [] := by
  split at h
  · exact ⟨_, rfl, rfl⟩
  · cases h

/-- With the instance made before the run and without it the sample does the same, and so it does
when it is run again. -/
theorem sample_does_the_same_again :
    ∃ c r' m₁ m₂ lines, Registry.load Sample.boxForms = .ok Sample.boxes ∧
      Sample.boxes.find? "box@int" = none ∧
      Registry.resolve "box@int" Sample.boxes = .ok c r' ∧
      (Machine.start r' (.buffer "") (.queue []) none).observed 9 =
        (Machine.start Sample.boxes (.buffer "") (.queue []) none).observed 9 ∧
      Eval.run 9 (Machine.start Sample.boxes (.buffer "") (.queue []) none) =
        .ok .completed m₁ ∧
      Eval.run 9 m₁ = .ok .completed m₂ ∧ m₁.sink = (Sink.buffer "").printAll lines ∧
      m₂.sink = m₁.sink.printAll lines := by
  have hload : Registry.load Sample.boxForms = .ok Sample.boxes := rfl
  obtain ⟨c, r', hresolve⟩ : ∃ c r', Registry.resolve "box@int" Sample.boxes = .ok c r' := by
    have hok : ((Registry.resolve "box@int").run' Sample.boxes).isSome := by decide +kernel
    cases hres : Registry.resolve "box@int" Sample.boxes with
    | ok c r' => exact ⟨c, r', rfl⟩
    | error e r' => simp [EStateM.run', EStateM.run, hres] at hok
  have hsame := (instances_are_transparent hload (.single ⟨"box@int", c, hresolve⟩) (.buffer "")
    (.queue []) none).1 9
  obtain ⟨m₁, hrun, hsource⟩ := exists_completed
    (x := Eval.run 9 (Machine.start Sample.boxes (.buffer "") (.queue []) none))
    (by decide +kernel)
  obtain ⟨m₂, lines, hrun', hs, hs', -⟩ := (instances_are_transparent hload .refl (.buffer "")
    (.queue []) none).2 _ .refl 9 .completed m₁ hrun hsource
  exact ⟨c, r', m₁, m₂, lines, hload, rfl, hresolve, hsame, hrun, hrun', hs, hs'⟩

end ObjectLang
