/-!
Specifications of computations that carry a state and may stop. A triple says what holds of the
result and the state when the computation ends, and of the reason and the state when it stops.
-/

namespace ObjectLang

variable {ε σ α β : Type}

def after (x : EStateM ε σ α) (s : σ) : σ :=
  match x s with
  | .ok _ t => t
  | .error _ t => t

theorem after_of_ok {x : EStateM ε σ α} {s t : σ} {a : α} (h : x s = .ok a t) : after x s = t := by
  simp only [after, h]

theorem after_of_error {x : EStateM ε σ α} {s t : σ} {e : ε} (h : x s = .error e t) :
    after x s = t := by
  simp only [after, h]

theorem bind_ok {x : EStateM ε σ α} {s t : σ} {a : α} (h : x s = .ok a t)
    (f : α → EStateM ε σ β) : (x >>= f) s = f a t := by
  simp only [bind, EStateM.bind, h]

theorem bind_error {x : EStateM ε σ α} {s t : σ} {e : ε} (h : x s = .error e t)
    (f : α → EStateM ε σ β) : (x >>= f) s = .error e t := by
  simp only [bind, EStateM.bind, h]

theorem after_bind_of_ok {x : EStateM ε σ α} {s t : σ} {a : α} (h : x s = .ok a t)
    (f : α → EStateM ε σ β) : after (x >>= f) s = after (f a) t := by
  simp only [after, bind_ok h]

theorem after_bind_of_error {x : EStateM ε σ α} {s t : σ} {e : ε} (h : x s = .error e t)
    (f : α → EStateM ε σ β) : after (x >>= f) s = after x s := by
  simp only [after, bind_error h, h]

theorem bind_eq_ok {x : EStateM ε σ α} {f : α → EStateM ε σ β} {s u : σ} {b : β} :
    (x >>= f) s = .ok b u ↔ ∃ a t, x s = .ok a t ∧ f a t = .ok b u := by
  constructor
  · intro h
    cases hx : x s with
    | ok a t => exact ⟨a, t, rfl, by rwa [bind_ok hx] at h⟩
    | error e t => simp [bind, EStateM.bind, hx] at h
  · intro h
    obtain ⟨a, t, hx, hf⟩ := h
    rwa [bind_ok hx]

/-- Started with `P`, the computation ends with `Q` or stops with `E`. -/
def Triple (P : σ → Prop) (x : EStateM ε σ α) (Q : α → σ → Prop) (E : ε → σ → Prop) : Prop :=
  ∀ s, P s → match x s with
    | .ok a t => Q a t
    | .error e t => E e t

namespace Triple

variable {P P' : σ → Prop} {Q Q' : α → σ → Prop} {R : β → σ → Prop} {E E' : ε → σ → Prop}
  {x : EStateM ε σ α} {f : α → EStateM ε σ β}

theorem ok (h : Triple P x Q E) {s t : σ} {a : α} (hs : P s) (hx : x s = .ok a t) : Q a t := by
  have hr := h s hs
  rwa [hx] at hr

theorem pure {a : α} (h : ∀ s, P s → Q a s) : Triple P (pure a : EStateM ε σ α) Q E :=
  fun s hs => h s hs

theorem throw {e : ε} (h : ∀ s, P s → E e s) : Triple P (throw e : EStateM ε σ α) Q E :=
  fun s hs => h s hs

theorem bind (hx : Triple P x Q E) (hf : ∀ a, Triple (Q a) (f a) R E) : Triple P (x >>= f) R E := by
  intro s hs
  have hr := hx s hs
  cases h : x s with
  | ok a t =>
    rw [h] at hr
    rw [bind_ok h]
    exact hf a t hr
  | error e t =>
    rw [h] at hr
    simpa only [Bind.bind, EStateM.bind, h] using hr

/-- What is read is the state itself. -/
theorem get : Triple P (get : EStateM ε σ σ) (fun a s => a = s ∧ P s) E := fun _ hs => ⟨rfl, hs⟩

theorem modify {g : σ → σ} {Q : σ → Prop} (h : ∀ s, P s → Q (g s)) :
    Triple P (modify g : EStateM ε σ Unit) (fun _ => Q) E :=
  fun s hs => h s hs

theorem mono (h : Triple P x Q E) (hp : ∀ s, P' s → P s) (hq : ∀ a s, Q a s → Q' a s)
    (he : ∀ e s, E e s → E' e s) : Triple P' x Q' E' := by
  intro s hs
  have hr := h s (hp s hs)
  cases hx : x s with
  | ok a t =>
    rw [hx] at hr
    exact hq a t hr
  | error e t =>
    rw [hx] at hr
    exact he e t hr

end Triple

def Keeps (P : σ → Prop) (x : EStateM ε σ α) : Prop := Triple P x (fun _ => P) fun _ => P

namespace Keeps

variable {P : σ → Prop} {x : EStateM ε σ α} {f : α → EStateM ε σ β}

theorem after (h : Keeps P x) {s : σ} (hs : P s) : P (after x s) := by
  have hr := h s hs
  unfold ObjectLang.after
  split <;> simp_all

theorem pure (a : α) : Keeps P (pure a : EStateM ε σ α) := Triple.pure fun _ h => h

theorem throw (e : ε) : Keeps P (throw e : EStateM ε σ α) := Triple.throw fun _ h => h

theorem bind (hx : Keeps P x) (hf : ∀ a, Keeps P (f a)) : Keeps P (x >>= f) := Triple.bind hx hf

theorem get_bind {f : σ → EStateM ε σ β} (h : ∀ s, P s → Keeps P (f s)) : Keeps P (get >>= f) :=
  fun s hs => h s hs s hs

theorem get : Keeps P (get : EStateM ε σ σ) :=
  Triple.get.mono (fun _ h => h) (fun _ _ h => h.2) fun _ _ h => h

theorem modify {g : σ → σ} (h : ∀ s, P s → P (g s)) : Keeps P (modify g : EStateM ε σ Unit) :=
  Triple.modify h

end Keeps

/- Results that may be errors, and folds and maps that give them. -/

theorem except_bind_eq_ok {r : Except ε α} {f : α → Except ε β} {b : β} :
    r.bind f = .ok b ↔ ∃ a, r = .ok a ∧ f a = .ok b := by
  cases r <;> simp [Except.bind]

theorem except_map_eq_ok {r : Except ε α} {f : α → β} {b : β} :
    r.map f = .ok b ↔ ∃ a, r = .ok a ∧ f a = b := by
  cases r <;> simp [Except.map]

theorem except_toOption_eq_some {r : Except ε α} {a : α} : r.toOption = some a ↔ r = .ok a := by
  cases r <;> simp [Except.toOption]

theorem foldlM_keeps {P : β → Prop} {f : β → α → Except ε β}
    (hf : ∀ b a b', P b → f b a = .ok b' → P b') {l : List α} {b b' : β} (hb : P b)
    (h : l.foldlM f b = .ok b') : P b' := by
  induction l generalizing b with
  | nil =>
    cases h
    exact hb
  | cons a l ih =>
    rw [List.foldlM_cons] at h
    cases ha : f b a with
    | error e =>
      rw [ha] at h
      cases h
    | ok c =>
      rw [ha] at h
      exact ih (hf b a c hb ha) h

/-- What each element of the list keeps holds at the end of the fold. -/
theorem foldlM_keeps_of_mem {P : β → Prop} {f : β → α → Except ε β} {l : List α}
    (hf : ∀ a ∈ l, ∀ b b', P b → f b a = .ok b' → P b') {b b' : β} (hb : P b)
    (h : l.foldlM f b = .ok b') : P b' := by
  induction l generalizing b with
  | nil =>
    cases h
    exact hb
  | cons a l ih =>
    rw [List.forall_mem_cons] at hf
    rw [List.foldlM_cons] at h
    obtain ⟨c, hc, h⟩ := except_bind_eq_ok.mp h
    exact ih hf.2 (hf.1 b c hb hc) h

/-- Each element of the list has been folded in. -/
theorem exists_of_foldlM {f : β → α → Except ε β} {l : List α} {b b' : β}
    (h : l.foldlM f b = .ok b') {a : α} (ha : a ∈ l) : ∃ c c', f c a = .ok c' := by
  induction l generalizing b with
  | nil => cases ha
  | cons d l ih =>
    rw [List.foldlM_cons] at h
    obtain ⟨c, hc, h⟩ := except_bind_eq_ok.mp h
    obtain rfl | ha := List.mem_cons.mp ha
    · exact ⟨b, c, hc⟩
    · exact ih h ha

theorem mem_of_mapM {f : α → Except ε β} {l : List α} {bs : List β} (h : l.mapM f = .ok bs)
    {b : β} (hb : b ∈ bs) : ∃ a ∈ l, f a = .ok b := by
  induction l generalizing bs with
  | nil =>
    cases h
    cases hb
  | cons a l ih =>
    rw [List.mapM_cons] at h
    cases ha : f a with
    | error e =>
      rw [ha] at h
      cases h
    | ok c =>
      rw [ha] at h
      cases hl : l.mapM f with
      | error e =>
        simp only [hl] at h
        cases h
      | ok cs =>
        simp only [hl] at h
        cases h
        cases List.mem_cons.mp hb with
        | inl h =>
          subst h
          exact ⟨a, List.mem_cons_self, ha⟩
        | inr hb =>
          obtain ⟨d, hd, hfd⟩ := ih hl hb
          exact ⟨d, List.mem_cons_of_mem a hd, hfd⟩

theorem exists_of_mapM {f : α → Except ε β} {l : List α} {bs : List β}
    (h : l.mapM f = .ok bs) {a : α} (ha : a ∈ l) : ∃ b ∈ bs, f a = .ok b := by
  induction l generalizing bs with
  | nil => cases ha
  | cons d l ih =>
    rw [List.mapM_cons] at h
    obtain ⟨c, hc, h⟩ := except_bind_eq_ok.mp h
    obtain ⟨cs, hcs, h⟩ := except_bind_eq_ok.mp h
    cases h
    obtain rfl | ha := List.mem_cons.mp ha
    · exact ⟨c, List.mem_cons_self, hc⟩
    · obtain ⟨b, hb, hab⟩ := ih hcs ha
      exact ⟨b, List.mem_cons_of_mem c hb, hab⟩

end ObjectLang
