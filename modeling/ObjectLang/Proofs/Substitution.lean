import Mathlib.Data.List.Forall2
import Mathlib.Data.List.Nodup
import ObjectLang.Proofs.Expansion

/-!
Substitutions one after another. Each part of a name is replaced at most once, and joining the parts
again makes no new parts out of plain ones. So a template can be expanded for placeholders first and
for its arguments later, whatever names the arguments are.
-/

namespace ObjectLang

open CompositeName

namespace Form

mutual

theorem mapAtoms_mapAtoms (g h : String → String) (f : Form) :
    (f.mapAtoms g).mapAtoms h = f.mapAtoms fun token => h (g token) := by
  cases f with
  | atom token => rfl
  | list items => simp only [mapAtoms, mapAtomsOf_mapAtomsOf g h items]

theorem mapAtomsOf_mapAtomsOf (g h : String → String) (fs : List Form) :
    mapAtomsOf h (mapAtomsOf g fs) = mapAtomsOf (fun token => h (g token)) fs := by
  cases fs with
  | nil => rfl
  | cons f fs => simp only [mapAtomsOf, mapAtoms_mapAtoms g h f, mapAtomsOf_mapAtomsOf g h fs]

end

theorem mapAtomsOf_eq_map (g : String → String) (fs : List Form) :
    mapAtomsOf g fs = fs.map (mapAtoms g) := by
  induction fs with
  | nil => rfl
  | cons f fs ih => rw [mapAtomsOf, ih, List.map_cons]

mutual

/-- Only the atoms of the form matter. -/
theorem mapAtoms_congr {g h : String → String} (f : Form)
    (heq : f.Within fun token => g token = h token) : f.mapAtoms g = f.mapAtoms h := by
  cases f with
  | atom token => simp only [mapAtoms, within_atom.mp heq]
  | list items =>
    simp only [mapAtoms, mapAtomsOf_congr items fun f hf => within_list.mp heq f hf]

theorem mapAtomsOf_congr {g h : String → String} (fs : List Form)
    (heq : ∀ f ∈ fs, f.Within fun token => g token = h token) :
    mapAtomsOf g fs = mapAtomsOf h fs := by
  cases fs with
  | nil => rfl
  | cons f fs =>
    rw [List.forall_mem_cons] at heq
    simp only [mapAtomsOf, mapAtoms_congr f heq.1, mapAtomsOf_congr fs heq.2]

end

mutual

/-- The forms have one shape, and `R` holds of the atoms in the same places. -/
def Matches (R : String → String → Prop) : Form → Form → Prop
  | .atom a, .atom b => R a b
  | .list fs, .list gs => MatchesAll R fs gs
  | _, _ => False

def MatchesAll (R : String → String → Prop) : List Form → List Form → Prop
  | [], [] => True
  | f :: fs, g :: gs => f.Matches R g ∧ MatchesAll R fs gs
  | _, _ => False

end

mutual

theorem matches_mapAtoms {R : String → String → Prop} {g : String → String}
    (h : ∀ token, R token (g token)) (f : Form) : f.Matches R (f.mapAtoms g) := by
  cases f with
  | atom token =>
    rw [mapAtoms, Matches]
    exact h token
  | list items =>
    rw [mapAtoms, Matches]
    exact matchesAll_mapAtomsOf h items

theorem matchesAll_mapAtomsOf {R : String → String → Prop} {g : String → String}
    (h : ∀ token, R token (g token)) (fs : List Form) : MatchesAll R fs (mapAtomsOf g fs) := by
  cases fs with
  | nil => trivial
  | cons f fs =>
    rw [mapAtomsOf, MatchesAll]
    exact ⟨matches_mapAtoms h f, matchesAll_mapAtomsOf h fs⟩

end

end Form

namespace CompositeName

def Quoted (name : String) : Prop := name.toList.head? = some '"'

instance (name : String) : Decidable (Quoted name) :=
  inferInstanceAs (Decidable (name.toList.head? = some '"'))

instance (name : String) : Decidable (Plain name) :=
  inferInstanceAs (Decidable (separator ∉ name.toList))

/-- A name that is joined to parts starts as it does alone. -/
theorem quoted_join (template : String) (args : List String) :
    Quoted (join template args) ↔ Quoted template := by
  cases htemplate : template.toList with
  | nil => cases args <;> simp [Quoted, join, htemplate, separator]
  | cons c cs => simp [Quoted, join, htemplate]

/-- A composite name keeps its template, whatever its arguments are replaced by. -/
theorem split?_join_of_ne_nil {template : String} {args : List String} (ht : Plain template)
    (hne : args ≠ []) : ∃ args', split? (join template args) = some (template, args') := by
  obtain ⟨arg, rest, rfl⟩ := List.exists_cons_of_ne_nil hne
  have hjoin : (join template (arg :: rest)).toList =
      template.toList ++ separator :: (join arg rest).toList := by simp [join]
  refine ⟨parts (join arg rest), split?_eq_some.mpr ⟨?_, List.cons_ne_nil _ _⟩⟩
  simp [parts, hjoin, Text.pieces_append ht]

end CompositeName

namespace Substitution

variable {s s' : Substitution} {name token template arg : String} {args : List String}

theorem lookup_eq_none (h : ∀ b ∈ s, b.1 ≠ name) : s.lookup name = none := by
  rw [List.lookup_eq_none_iff]
  intro b hb
  simpa using Ne.symm (h b hb)

/- What a substitution does to a token, by the kind of token. -/

theorem token_of_quoted (h : Quoted token) : s.token token = token := if_pos h

theorem token_of_lookup (hq : ¬ Quoted token) (h : s.lookup token = some arg) :
    s.token token = arg := by
  simp only [Substitution.token, if_neg (show ¬ token.toList.head? = some '"' from hq), h]

theorem token_of_split? (hq : ¬ Quoted token) (h : s.lookup token = none)
    (hsplit : split? token = some (template, args)) :
    s.token token = join template (args.map s.part) := by
  simp only [Substitution.token, if_neg (show ¬ token.toList.head? = some '"' from hq), h, hsplit]

theorem token_of_split?_none (hq : ¬ Quoted token) (hsplit : split? token = none) :
    s.token token = s.part token := by
  unfold Substitution.token part
  rw [if_neg (show ¬ token.toList.head? = some '"' from hq), hsplit]
  cases s.lookup token <;> rfl

/-- What stays of a token: a string literal stays as it is, and a composite name has the template
that it had. -/
structure Retains (token token' : String) : Prop where
  literal : Quoted token → token' = token
  template : ∀ template args, ¬ Quoted token → split? token = some (template, args) →
    ∃ args', split? token' = some (template, args')

theorem retains_token (hkeys : ∀ b ∈ s, Plain b.1) (token : String) :
    Retains token (s.token token) := by
  refine ⟨token_of_quoted, ?_⟩
  intro template args hq hsplit
  obtain ⟨-, hargs⟩ := split?_eq_some.mp hsplit
  have hnone : s.lookup token = none := by
    refine lookup_eq_none fun b hb => ?_
    rintro rfl
    rw [split?_of_plain (hkeys b hb)] at hsplit
    cases hsplit
  rw [token_of_split? hq hnone hsplit]
  exact split?_join_of_ne_nil (plain_of_split? hsplit).1 (by simpa using hargs)

theorem fst_mem_of_mem_ofLists {formals args : List String} {b : String × String}
    (h : b ∈ ofLists formals args) : b.1 ∈ formals :=
  (List.of_mem_zip (List.mem_reverse.mp h)).1

/- The rule of replacement, by the positions of parameters and arguments. -/

/-- The parameter of this name stands for the argument in its position. Of parameters of one name
the last one counts. -/
inductive Stands : List String → List String → String → String → Prop
  | here {name arg : String} {formals args : List String} (h : name ∉ formals) :
      Stands (name :: formals) (arg :: args) name arg
  | there {name arg formal other : String} {formals args : List String}
      (h : Stands formals args name arg) : Stands (formal :: formals) (other :: args) name arg

def Replaces (formals args : List String) (part part' : String) : Prop :=
  Stands formals args part part' ∨ part ∉ formals ∧ part' = part

inductive Rewrites (formals args : List String) : String → String → Prop
  | literal {token : String} (hq : Quoted token) : Rewrites formals args token token
  | formal {token arg : String} (hq : ¬ Quoted token) (h : Stands formals args token arg) :
      Rewrites formals args token arg
  | composite {token template : String} {ps qs : List String} (hq : ¬ Quoted token)
      (hn : token ∉ formals) (hsplit : split? token = some (template, ps))
      (h : List.Forall₂ (Replaces formals args) ps qs) :
      Rewrites formals args token (join template qs)
  | other {token : String} (hn : token ∉ formals) (hsplit : split? token = none) :
      Rewrites formals args token token

section

variable {formals args : List String} {name arg : String}

theorem lookup_ofLists_eq_none (h : name ∉ formals) :
    (ofLists formals args).lookup name = none :=
  lookup_eq_none fun _ hb heq => h (heq ▸ fst_mem_of_mem_ofLists hb)

theorem ofLists_cons (formal first : String) (formals args : List String) :
    ofLists (formal :: formals) (first :: args) = ofLists formals args ++ [(formal, first)] :=
  List.reverse_cons

theorem lookup_of_stands (h : Stands formals args name arg) :
    (ofLists formals args).lookup name = some arg := by
  induction h with
  | here h => simp [ofLists_cons, List.lookup_append, lookup_ofLists_eq_none h]
  | there _ ih => simp [ofLists_cons, List.lookup_append, ih]

/-- With as many arguments as parameters, each parameter stands for one. -/
theorem exists_stands (hlength : args.length = formals.length) (h : name ∈ formals) :
    ∃ arg, Stands formals args name arg := by
  induction formals generalizing args with
  | nil => cases h
  | cons formal formals ih =>
    obtain ⟨first, rest, rfl⟩ := List.exists_cons_of_length_eq_add_one hlength
    by_cases hlater : name ∈ formals
    · obtain ⟨arg, harg⟩ := ih (Nat.succ.inj hlength) hlater
      exact ⟨arg, .there harg⟩
    · obtain rfl | h := List.mem_cons.mp h
      · exact ⟨first, .here hlater⟩
      · exact absurd h hlater

theorem replaces_part (hlength : args.length = formals.length) (name : String) :
    Replaces formals args name ((ofLists formals args).part name) := by
  by_cases h : name ∈ formals
  · obtain ⟨arg, harg⟩ := exists_stands hlength h
    rw [part, lookup_of_stands harg, Option.getD_some]
    exact .inl harg
  · rw [part, lookup_ofLists_eq_none h, Option.getD_none]
    exact .inr ⟨h, rfl⟩

theorem rewrites_token (hlength : args.length = formals.length) (token : String) :
    Rewrites formals args token ((ofLists formals args).token token) := by
  by_cases hq : Quoted token
  · rw [token_of_quoted hq]
    exact .literal hq
  · by_cases h : token ∈ formals
    · obtain ⟨arg, harg⟩ := exists_stands hlength h
      rw [token_of_lookup hq (lookup_of_stands harg)]
      exact .formal hq harg
    · have hnone : (ofLists formals args).lookup token = none := lookup_ofLists_eq_none h
      cases hsplit : split? token with
      | none =>
        rw [token_of_split?_none hq hsplit, part, hnone, Option.getD_none]
        exact .other h hsplit
      | some pair =>
        obtain ⟨template, ps⟩ := pair
        rw [token_of_split? hq hnone hsplit]
        refine .composite hq h hsplit ?_
        rw [List.forall₂_map_right_iff, List.forall₂_same]
        exact fun p _ => replaces_part hlength p

end

/- Two substitutions. -/

def followedBy (s s' : Substitution) : Substitution := s.map fun b => (b.1, s'.part b.2)

theorem lookup_followedBy (s s' : Substitution) (name : String) :
    (s.followedBy s').lookup name = (s.lookup name).map s'.part := by
  induction s with
  | nil => rfl
  | cons b s ih =>
    obtain ⟨key, arg⟩ := b
    cases h : name == key with
    | true => simp [followedBy, List.lookup_cons, h]
    | false => simpa [followedBy, List.lookup_cons, h] using ih

structure Misses (s : Substitution) (token : String) : Prop where
  plain : ∀ b ∈ s, Plain b.1
  absent : ¬ Quoted token → ∀ b ∈ s, b.1 ∉ parts token

theorem part_followedBy (h : ∀ b ∈ s', b.1 ≠ name) :
    s'.part (s.part name) = (s.followedBy s').part name := by
  unfold part
  rw [lookup_followedBy]
  cases s.lookup name with
  | none => simp [lookup_eq_none h]
  | some arg => rfl

/-- Substitutions compose on a token that the second one misses, where the first puts plain names
that are no string literals. -/
theorem token_followedBy (hs : ∀ b ∈ s, Plain b.2 ∧ ¬ Quoted b.2) (hs' : s'.Misses token) :
    s'.token (s.token token) = (s.followedBy s').token token := by
  by_cases hq : Quoted token
  · rw [token_of_quoted hq, token_of_quoted hq, token_of_quoted hq]
  have habsent := hs'.absent hq
  cases hlookup : s.lookup token with
  | some arg =>
    obtain ⟨before, after, hb, -⟩ := List.lookup_eq_some_iff.mp hlookup
    obtain ⟨hplain, hquoted⟩ := hs (token, arg) (by simp [hb])
    have hfollowed : (s.followedBy s').lookup token = some (s'.part arg) := by
      rw [lookup_followedBy, hlookup, Option.map_some]
    rw [token_of_lookup hq hlookup, token_of_lookup hq hfollowed,
      token_of_split?_none hquoted (split?_of_plain hplain)]
  | none =>
    have hfollowed : (s.followedBy s').lookup token = none := by
      rw [lookup_followedBy, hlookup, Option.map_none]
    cases hsplit : split? token with
    | none =>
      have hself : ∀ b ∈ s', b.1 ≠ token := by
        rintro b hb rfl
        exact habsent b hb (parts_of_split?_none hsplit ▸ List.mem_singleton_self _)
      have hkept : s.part token = token := by rw [part, hlookup, Option.getD_none]
      rw [token_of_split?_none (s := s) hq hsplit, hkept, token_of_split?_none hq hsplit,
        token_of_split?_none hq hsplit, ← part_followedBy hself, hkept]
    | some pair =>
      obtain ⟨template, args⟩ := pair
      obtain ⟨hparts, hne⟩ := split?_eq_some.mp hsplit
      obtain ⟨htemplate, hplain⟩ := plain_of_split? hsplit
      have hreplaced := plain_map_part (fun b hb => (hs b hb).1) hplain
      -- The parts are plain, so the token that they are joined to splits into them again.
      have hagain : split? (join template (args.map s.part)) = some (template, args.map s.part) :=
        split?_join htemplate hreplaced (by simpa using hne)
      have hq' : ¬ Quoted (join template (args.map s.part)) := by
        rwa [quoted_join, ← quoted_join template args, join_of_split? hsplit]
      have hnone : s'.lookup (join template (args.map s.part)) = none := by
        refine lookup_eq_none fun b hb heq => ?_
        rw [← heq, split?_of_plain (hs'.plain b hb)] at hagain
        cases hagain
      rw [token_of_split? hq hlookup hsplit, token_of_split? hq hfollowed hsplit,
        token_of_split? hq' hnone hagain, List.map_map]
      refine congrArg (join template) (List.map_congr_left fun a ha => part_followedBy ?_)
      rintro b hb rfl
      exact habsent b hb (hparts ▸ List.mem_cons_of_mem _ ha)

/- Substitutions for the parameters of a template. -/

theorem lookup_of_mem (hkeys : (s.map Prod.fst).Nodup) (h : (name, arg) ∈ s) :
    s.lookup name = some arg := by
  obtain ⟨before, after, rfl⟩ := List.append_of_mem h
  refine List.lookup_eq_some_iff.mpr ⟨before, after, rfl, ?_⟩
  intro b hb
  rw [List.map_append, List.map_cons, List.nodup_append] at hkeys
  simpa using (hkeys.2.2 b.1 (List.mem_map_of_mem hb) name List.mem_cons_self).symm

/-- Distinct parameters stand for their own arguments. -/
theorem map_part_ofLists {formals args : List String} (hlength : args.length = formals.length)
    (hnodup : formals.Nodup) : formals.map (ofLists formals args).part = args := by
  have hfst : (formals.zip args).map Prod.fst = formals := List.map_fst_zip (by omega)
  have hsnd : (formals.zip args).map Prod.snd = args := List.map_snd_zip (by omega)
  have hkeys : ((ofLists formals args).map Prod.fst).Nodup := by
    rwa [ofLists, List.map_reverse, hfst, List.nodup_reverse]
  have hfirst : ∀ g : String → String,
      formals.map g = (formals.zip args).map fun b => g b.1 := by
    intro g
    conv_lhs => rw [← hfst, List.map_map]
    rfl
  calc
    formals.map (ofLists formals args).part
        = (formals.zip args).map fun b => (ofLists formals args).part b.1 := hfirst _
    _ = (formals.zip args).map Prod.snd := by
          refine List.map_congr_left fun b hb => ?_
          have hlookup : (ofLists formals args).lookup b.1 = some b.2 :=
            lookup_of_mem hkeys (List.mem_reverse.mpr hb)
          rw [part, hlookup, Option.getD_some]
    _ = args := hsnd

theorem ofLists_followedBy {formals names args : List String}
    (hnames : names.length = formals.length) (hargs : args.length = formals.length)
    (hnodup : names.Nodup) :
    (ofLists formals names).followedBy (ofLists names args) = ofLists formals args := by
  have hmap := map_part_ofLists (hargs.trans hnames.symm) hnodup
  calc
    (ofLists formals names).followedBy (ofLists names args)
        = (formals.zip (names.map (ofLists names args).part)).reverse := by
          rw [List.zip_map_right, followedBy]
          exact List.map_reverse
    _ = ofLists formals args := by rw [hmap, ofLists]

end Substitution

namespace Template

variable {t : Template} {names args : List String} {decls : List Form}

/-- Names that can stand in for the parameters of the template: as many distinct plain names, which
are neither string literals nor parts of anything else in the declarations. -/
structure Fresh (t : Template) (names : List String) : Prop where
  length : names.length = t.formals.length
  nodup : names.Nodup
  plain : ∀ name ∈ names, Plain name ∧ ¬ Quoted name
  absent : ∀ token ∈ Form.atomsOf t.decls, ¬ Quoted token →
    ∀ name ∈ names, name ∉ CompositeName.parts token

def Retains (before after : List Form) : Prop :=
  List.Forall₂ Substitution.Retains (Form.atomsOf before) (Form.atomsOf after)

theorem retains_expand (hformals : ∀ formal ∈ t.formals, Plain formal)
    (h : t.expand args = .ok decls) : Retains t.decls decls := by
  obtain ⟨-, rfl⟩ := expand_eq_ok.mp h
  rw [Retains, ← Form.mapAtomsOf_eq_map, Form.atomsOf_mapAtomsOf, List.forall₂_map_right_iff,
    List.forall₂_same]
  intro token _
  exact Substitution.retains_token
    (fun b hb => hformals b.1 (Substitution.fst_mem_of_mem_ofLists hb)) token

def Rewrites (formals args : List String) (before after : List Form) : Prop :=
  Form.MatchesAll (Substitution.Rewrites formals args) before after

theorem rewrites_expand (h : t.expand args = .ok decls) :
    Rewrites t.formals args t.decls decls := by
  obtain ⟨hlength, rfl⟩ := expand_eq_ok.mp h
  rw [Rewrites, ← Form.mapAtomsOf_eq_map]
  exact Form.matchesAll_mapAtomsOf (Substitution.rewrites_token hlength) t.decls

/-- Expanded for other parameters, the declarations are still to be expanded for the arguments. -/
theorem expand_expand (hnames : t.Fresh names) (hargs : args.length = t.formals.length)
    (h : t.expand names = .ok decls) : expand ⟨t.name, names, decls⟩ args = t.expand args := by
  obtain ⟨-, rfl⟩ := expand_eq_ok.mp h
  rw [expand, expand, if_pos hargs, if_pos (hargs.trans hnames.length.symm), List.map_map]
  refine congrArg Except.ok (List.map_congr_left fun f hf => ?_)
  rw [Function.comp_apply, Form.mapAtoms_mapAtoms]
  refine Form.mapAtoms_congr f fun token htoken => ?_
  have hmisses : (Substitution.ofLists names args).Misses token := by
    refine ⟨fun b hb => ?_, fun hq b hb => ?_⟩
    · exact (hnames.plain b.1 (Substitution.fst_mem_of_mem_ofLists hb)).1
    · exact hnames.absent token (Form.mem_atomsOf.mpr ⟨f, hf, htoken⟩) hq b.1
        (Substitution.fst_mem_of_mem_ofLists hb)
  have hplain : ∀ b ∈ Substitution.ofLists t.formals names, Plain b.2 ∧ ¬ Quoted b.2 :=
    fun b hb => hnames.plain b.2 (Substitution.snd_mem_of_mem_ofLists hb)
  rw [← Substitution.ofLists_followedBy hnames.length hargs hnames.nodup]
  exact Substitution.token_followedBy hplain hmisses

end Template

/-- Expansion composes. A template whose parameters are plain names expands for arguments of their
number, whatever these are, and it can be expanded for fresh names first: expanding that again, with
the fresh names as its parameters, gives the declarations of the direct expansion. On each of the
three ways string literals stay as they are and composite names have the templates that they had. A
word that is a parameter becomes its argument, the arguments in a composite name are replaced one by
one, and nothing else changes. -/
theorem expansion_composes {t : Template} {names args : List String}
    (hformals : ∀ formal ∈ t.formals, CompositeName.Plain formal) (hnames : t.Fresh names)
    (hargs : args.length = t.formals.length) :
    ∃ generic decls, t.expand names = .ok generic ∧ t.expand args = .ok decls ∧
      Template.expand ⟨t.name, names, generic⟩ args = .ok decls ∧
      (Template.Retains t.decls generic ∧ Template.Retains generic decls ∧
        Template.Retains t.decls decls) ∧
      Template.Rewrites t.formals names t.decls generic ∧
      Template.Rewrites names args generic decls ∧
      Template.Rewrites t.formals args t.decls decls := by
  obtain ⟨generic, hgeneric⟩ : ∃ generic, t.expand names = .ok generic :=
    ⟨_, if_pos hnames.length⟩
  obtain ⟨decls, hdecls⟩ : ∃ decls, t.expand args = .ok decls := ⟨_, if_pos hargs⟩
  have hagain := (Template.expand_expand hnames hargs hgeneric).trans hdecls
  have hplain : ∀ name ∈ names, CompositeName.Plain name :=
    fun name hname => (hnames.plain name hname).1
  refine ⟨generic, decls, hgeneric, hdecls, hagain, ⟨?_, ?_, ?_⟩, ?_, ?_, ?_⟩
  · exact Template.retains_expand hformals hgeneric
  · exact Template.retains_expand (t := ⟨t.name, names, generic⟩) hplain hagain
  · exact Template.retains_expand hformals hdecls
  · exact Template.rewrites_expand hgeneric
  · exact Template.rewrites_expand (t := ⟨t.name, names, generic⟩) hagain
  · exact Template.rewrites_expand hdecls

def Sample.entangled : Template :=
  ⟨"a", ["a", "b"], [.list [.atom "field", .atom "a", .atom "x"],
    .list [.atom "field", .atom "a@b", .atom "y"],
    .list [.atom "method", .atom "b", .atom "f", .list [], .atom "\"a@b\""]]⟩

/-- The arguments are the parameters the other way round, or one of them for both. -/
theorem entangled_composes :
    ∃ generic, Sample.entangled.expand ["p", "q"] = .ok generic ∧
      Template.expand ⟨"a", ["p", "q"], generic⟩ ["b", "a"] =
        Sample.entangled.expand ["b", "a"] ∧
      Template.expand ⟨"a", ["p", "q"], generic⟩ ["b", "b"] =
        Sample.entangled.expand ["b", "b"] := by
  have hformals : ∀ formal ∈ Sample.entangled.formals, CompositeName.Plain formal := by decide
  have hfresh : Sample.entangled.Fresh ["p", "q"] :=
    ⟨rfl, by decide, by decide, by decide⟩
  have hswapped : ["b", "a"].length = Sample.entangled.formals.length := rfl
  have hdoubled : ["b", "b"].length = Sample.entangled.formals.length := rfl
  obtain ⟨generic, decls, hgeneric, hdecls, hagain, -⟩ :=
    expansion_composes hformals hfresh hswapped
  obtain ⟨generic', decls', hgeneric', hdecls', hagain', -⟩ :=
    expansion_composes hformals hfresh hdoubled
  cases hgeneric.symm.trans hgeneric'
  exact ⟨generic, hgeneric, hagain.trans hdecls.symm, hagain'.trans hdecls'.symm⟩

end ObjectLang
