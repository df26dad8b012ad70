import ObjectLang.Text

/-!
Composite names: the name of a template and its type arguments, joined by `@`.
-/

namespace ObjectLang.CompositeName

def separator : Char := '@'

def parts (name : String) : List String :=
  let (first, rest) := Text.pieces separator name.toList
  String.ofList first :: rest.map String.ofList

def split? (name : String) : Option (String × List String) :=
  match Text.pieces separator name.toList with
  | (_, []) => none
  | (first, rest) => some (String.ofList first, rest.map String.ofList)

def join (template : String) (args : List String) : String :=
  String.ofList (template.toList ++ args.flatMap fun arg => separator :: arg.toList)

/-- Joining the parts of a composite name gives the name back. -/
theorem join_of_split? {name template : String} {args : List String}
    (h : split? name = some (template, args)) : join template args = name := by
  have hp := Text.pieces_rejoin separator name.toList
  unfold split? at h
  split at h
  · cases h
  · next first rest _ heq =>
    rw [heq] at hp
    obtain ⟨rfl, rfl⟩ := Prod.mk.inj (Option.some.inj h)
    simpa [join, List.flatMap_map, Function.comp_def, String.toList_ofList, ← String.toList_inj]
      using hp

def Plain (name : String) : Prop := separator ∉ name.toList

theorem plain_of_mem_parts {name part : String} (h : part ∈ parts name) : Plain part := by
  have hp := Text.not_mem_of_mem_pieces separator name.toList
  have hparts : part ∈ ((Text.pieces separator name.toList).1 ::
      (Text.pieces separator name.toList).2).map String.ofList := h
  obtain ⟨p, hmem, rfl⟩ := List.mem_map.mp hparts
  simpa [Plain] using hp p hmem

theorem parts_of_plain {name : String} (h : Plain name) : parts name = [name] := by
  simp [parts, Text.pieces_of_not_mem h]

theorem split?_of_plain {name : String} (h : Plain name) : split? name = none := by
  simp [split?, Text.pieces_of_not_mem h]

theorem parts_of_split? {name template : String} {args : List String}
    (h : split? name = some (template, args)) : parts name = template :: args := by
  unfold split? at h
  split at h
  · cases h
  · next first rest _ heq =>
    obtain ⟨rfl, rfl⟩ := Prod.mk.inj (Option.some.inj h)
    simp [parts, heq]

theorem plain_of_split? {name template : String} {args : List String}
    (h : split? name = some (template, args)) : Plain template ∧ ∀ arg ∈ args, Plain arg := by
  rw [← List.forall_mem_cons, ← parts_of_split? h]
  exact fun _ => plain_of_mem_parts

theorem parts_join {template : String} {args : List String} (ht : Plain template)
    (hargs : ∀ arg ∈ args, Plain arg) : parts (join template args) = template :: args := by
  induction args generalizing template with
  | nil => simpa [join] using parts_of_plain ht
  | cons arg args ih =>
    rw [List.forall_mem_cons] at hargs
    have hrest := ih hargs.1 hargs.2
    have hjoin : (join template (arg :: args)).toList =
        template.toList ++ separator :: (join arg args).toList := by simp [join]
    simp only [parts] at hrest
    simp [parts, hjoin, Text.pieces_append ht, hrest]

theorem parts_of_split?_none {name : String} (h : split? name = none) : parts name = [name] := by
  have hp := Text.pieces_rejoin separator name.toList
  cases hpieces : Text.pieces separator name.toList with
  | mk first rest =>
    cases rest with
    | nil =>
      rw [hpieces] at hp
      simp only [List.flatMap_nil, List.append_nil] at hp
      simp [parts, hpieces, hp]
    | cons p ps =>
      simp only [split?, hpieces] at h
      cases h

theorem plain_of_split?_none {name : String} (h : split? name = none) : Plain name :=
  plain_of_mem_parts (parts_of_split?_none h ▸ List.mem_singleton_self name)

/-- A composite name is one with parts after the first. -/
theorem split?_eq_some {name template : String} {args : List String} :
    split? name = some (template, args) ↔ parts name = template :: args ∧ args ≠ [] := by
  cases hp : Text.pieces separator name.toList with
  | mk first rest =>
    cases rest with
    | nil =>
      simp only [split?, parts, hp, List.map_nil]
      constructor
      · intro h
        cases h
      · intro h
        obtain ⟨h, hargs⟩ := h
        exact absurd (List.cons.inj h).2.symm hargs
    | cons p ps =>
      simp only [split?, parts, hp, Option.some.injEq, Prod.mk.injEq, List.cons.injEq]
      constructor
      · intro h
        obtain ⟨hfirst, rfl⟩ := h
        exact ⟨⟨hfirst, rfl⟩, by simp⟩
      · exact fun h => h.1

theorem split?_join {template : String} {args : List String} (ht : Plain template)
    (hargs : ∀ arg ∈ args, Plain arg) (hne : args ≠ []) :
    split? (join template args) = some (template, args) :=
  split?_eq_some.mpr ⟨parts_join ht hargs, hne⟩

end ObjectLang.CompositeName
