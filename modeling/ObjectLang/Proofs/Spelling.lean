import Mathlib
import ObjectLang.Statement.Exec
import ObjectLang.Proofs.Arithmetic
import ObjectLang.Proofs.Outcome

/-!
Values written back. The value that a literal stands for has a spelling that is a literal of the same
value, whatever way the value was read. The decimal numeral of an integer is read as this integer,
by the program and, between blanks, from its input.
-/

namespace ObjectLang

/- Blanks around a text. -/

namespace Text

theorem not_isBlank_of_isDigit {c : Char} (h : c.isDigit = true) : isBlank c = false := by
  have hc : 48 ≤ c.toNat ∧ c.toNat ≤ 57 := by simpa [Char.isDigit, UInt32.le_iff_toNat_le] using h
  simp only [isBlank, Bool.or_eq_false_iff, Bool.and_eq_false_iff, decide_eq_false_iff_not,
    beq_eq_false_iff_ne]
  omega

theorem dropWhile_blanks {before cs : List Char} (hbefore : ∀ c ∈ before, isBlank c = true) :
    (before ++ cs).dropWhile isBlank = cs.dropWhile isBlank := by
  rw [List.dropWhile_append, List.dropWhile_eq_nil_iff.mpr hbefore]
  rfl

theorem dropWhile_of_not_blank {cs : List Char} (h : ∀ c ∈ cs, isBlank c = false)
    (rest : List Char) (hcs : cs ≠ []) : (cs ++ rest).dropWhile isBlank = cs ++ rest := by
  cases cs with
  | nil => exact absurd rfl hcs
  | cons c cs => exact List.dropWhile_cons_of_neg (by simp [h c List.mem_cons_self])

def Pads (cs line : List Char) : Prop :=
  ∃ before after, (∀ c ∈ before, isBlank c = true) ∧ (∀ c ∈ after, isBlank c = true) ∧
    line = before ++ cs ++ after

theorem Pads.trim {cs line : List Char} (h : Pads cs line) (hcs : cs ≠ [])
    (hblank : ∀ c ∈ cs, isBlank c = false) : trim line = cs := by
  obtain ⟨before, after, hbefore, hafter, rfl⟩ := h
  have hafter' : ∀ c ∈ after.reverse, isBlank c = true := by simpa using hafter
  have hblank' : ∀ c ∈ cs.reverse, isBlank c = false := by simpa using hblank
  have hcs' : cs.reverse ≠ [] := by simpa using hcs
  have hend : cs.reverse.dropWhile isBlank = cs.reverse := by
    simpa using dropWhile_of_not_blank hblank' [] hcs'
  rw [Text.trim, List.append_assoc, dropWhile_blanks hbefore,
    dropWhile_of_not_blank hblank after hcs, List.reverse_append, dropWhile_blanks hafter', hend,
    List.reverse_reverse]

end Text

/- The digits of a number. -/

namespace Decimal

theorem isDigit_of_mem {n : Nat} {c : Char} (h : c ∈ Nat.toDigits 10 n) : c.isDigit = true :=
  Nat.isDigit_of_mem_toDigits (by decide) (by decide) h

theorem ofDigits_toDigits (n : Nat) : ofDigits (Nat.toDigits 10 n) = n :=
  Nat.ofDigitChars_ten_toDigits

theorem natural?_toDigits (n : Nat) : natural? (Nat.toDigits 10 n) = some n := by
  have hall : (Nat.toDigits 10 n).all Char.isDigit = true :=
    List.all_eq_true.mpr fun c hc => isDigit_of_mem hc
  simp [natural?, hall, Nat.toDigits_ne_nil, ofDigits_toDigits]

def numeral (z : Int) : List Char :=
  if z < 0 then '-' :: Nat.toDigits 10 z.natAbs else Nat.toDigits 10 z.natAbs

theorem toList_render (n : Int64) : (Integer.render n).toList = numeral n.toInt := by
  rw [Integer.render, numeral]
  cases n.toInt with
  | ofNat k =>
    have hk : ¬ Int.ofNat k < 0 := Int.not_lt.mpr (Int.natCast_nonneg k)
    rw [if_neg hk]
    change (toString k).toList = _
    rw [Nat.toString_eq_ofList_toDigits, String.toList_ofList]
    rfl
  | negSucc k =>
    rw [if_pos (Int.negSucc_lt_zero k)]
    change ("-" ++ toString (k + 1)).toList = _
    rw [Nat.toString_eq_ofList_toDigits, String.toList_append]
    exact congrArg (['-'] ++ ·) String.toList_ofList

theorem splitSign_digits (n : Nat) (rest : List Char) :
    splitSign (Nat.toDigits 10 n ++ rest) = (false, Nat.toDigits 10 n ++ rest) := by
  cases hdigits : Nat.toDigits 10 n with
  | nil => exact absurd hdigits Nat.toDigits_ne_nil
  | cons c cs =>
    have hc : c.isDigit = true := isDigit_of_mem (n := n) (by simp [hdigits])
    rw [List.cons_append]
    unfold splitSign
    split
    · next heq =>
      cases heq
      cases hc
    · next heq =>
      cases heq
      cases hc
    · rfl

theorem splitSign_numeral (z : Int) (rest : List Char) :
    splitSign (numeral z ++ rest) = (decide (z < 0), Nat.toDigits 10 z.natAbs ++ rest) := by
  unfold numeral
  split
  · next h => simp [splitSign, h]
  · next h => simp [splitSign_digits, h]

theorem signed_natAbs (z : Int) : signed (decide (z < 0)) z.natAbs = z := by
  unfold signed
  split
  · next h => exact (Int.eq_neg_natAbs_of_nonpos (of_decide_eq_true h).le).symm
  · next h => exact Int.natAbs_of_nonneg (by simpa using h)

theorem integer?_numeral (z : Int) : integer? (numeral z) = some z := by
  have hsplit := splitSign_numeral z []
  rw [List.append_nil, List.append_nil] at hsplit
  simp [integer?, hsplit, natural?_toDigits, signed_natAbs]

theorem word?_numeral (n : Int64) : word? (numeral n.toInt) = some n := by
  rw [word?, integer?_numeral]
  exact Integer.ofInt?_eq_some.mpr rfl

theorem numeral_ne_nil (z : Int) : numeral z ≠ [] := by
  unfold numeral
  split
  · exact List.cons_ne_nil _ _
  · exact Nat.toDigits_ne_nil

theorem not_isBlank_of_mem_numeral {z : Int} {c : Char} (h : c ∈ numeral z) :
    Text.isBlank c = false := by
  unfold numeral at h
  split at h
  · obtain rfl | h := List.mem_cons.mp h
    · rfl
    · exact Text.not_isBlank_of_isDigit (isDigit_of_mem h)
  · exact Text.not_isBlank_of_isDigit (isDigit_of_mem h)

end Decimal

/- Tokens that start with a numeral. -/

namespace Literal

theorem looksNumeric_digits (n : Nat) (rest : List Char) :
    looksNumeric (Nat.toDigits 10 n ++ rest) = true := by
  cases hdigits : Nat.toDigits 10 n with
  | nil => exact absurd hdigits Nat.toDigits_ne_nil
  | cons c cs =>
    have hc : c.isDigit = true := Decimal.isDigit_of_mem (n := n) (by simp [hdigits])
    cases hrest : cs ++ rest with
    | nil => simp [hrest, looksNumeric, hc]
    | cons d ds => simp [hrest, looksNumeric, hc]

theorem looksNumeric_numeral (z : Int) (rest : List Char) :
    looksNumeric (Decimal.numeral z ++ rest) = true := by
  unfold Decimal.numeral
  split
  · cases hdigits : Nat.toDigits 10 z.natAbs with
    | nil => exact absurd hdigits Nat.toDigits_ne_nil
    | cons c cs =>
      have hc : c.isDigit = true := Decimal.isDigit_of_mem (n := z.natAbs) (by simp [hdigits])
      simp [looksNumeric, hc]
  · exact looksNumeric_digits z.natAbs rest

/-- A token that looks like a number is neither a string nor a word. -/
theorem ofChars?_of_looksNumeric {cs : List Char} (h : looksNumeric cs = true) :
    ofChars? cs = (number? cs).map .int := by
  have hunquote : unquote? cs = none := by
    unfold unquote?
    split
    · next rest => cases rest <;> cases h
    · rfl
  have hword : ∀ token ∈ ["true", "false", "null"], cs ≠ token.toList := by
    intro token htoken hcs
    have hlooks : ∀ t ∈ ["true", "false", "null"], looksNumeric t.toList = false := by decide
    rw [hcs, hlooks token htoken] at h
    cases h
  simp only [List.forall_mem_cons] at hword
  obtain ⟨htrue, hfalse, hnull, -⟩ := hword
  simp only [ofChars?, hunquote, if_neg htrue, if_neg hfalse, if_neg hnull]

theorem number?_numeral (n : Int64) : number? (Decimal.numeral n.toInt) = some n := by
  have hlooks := looksNumeric_numeral n.toInt []
  rw [List.append_nil] at hlooks
  simp only [number?, hlooks, if_true, Decimal.word?_numeral]

theorem ofToken?_render (n : Int64) : ofToken? (Integer.render n) = some (.int n) := by
  have hlooks := looksNumeric_numeral n.toInt []
  rw [List.append_nil] at hlooks
  rw [ofToken?, Decimal.toList_render, ofChars?_of_looksNumeric hlooks, number?_numeral]
  rfl

theorem unquote?_quote (text : List Char) : unquote? ('"' :: (text ++ ['"'])) = some text := by
  simp [unquote?]

end Literal

def Value.spelling : Value → String
  | .string text => String.ofList ('"' :: (text.toList ++ ['"']))
  | v => v.render

theorem Literal.ofToken?_spelling (l : Literal) :
    ofToken? (Value.ofLiteral l).spelling = some l := by
  cases l with
  | int n => exact ofToken?_render n
  | bool b => cases b <;> rfl
  | string text =>
    simp only [ofToken?, Value.ofLiteral, Value.spelling, String.toList_ofList, ofChars?,
      unquote?_quote, String.ofList_toList]
  | null => rfl

/- Integers from the input. -/

namespace Eval

theorem received_of_pads {n : Int64} {line : String}
    (h : Text.Pads (Integer.render n).toList line.toList) :
    received line .integer = .ok (.int n) := by
  rw [Decimal.toList_render] at h
  have htrim : Text.trim line.toList = Decimal.numeral n.toInt :=
    h.trim (Decimal.numeral_ne_nil _) fun c => Decimal.not_isBlank_of_mem_numeral
  rw [received, htrim, Decimal.word?_numeral]

theorem input_of_received {kind : InputKind} {name line : String} {v : Value} {m : Machine}
    {rest : Source} (hline : m.source.readLine = (some line, rest))
    (hv : received line kind = .ok v) (hvisible : checkVisible name m = .ok () m) :
    input kind name m = (do assign name v; return .normal : Eval Completion) { m with source := rest } := by
  have hread : readLine m = .ok line { m with source := rest } := by
    refine (bind_ok (x := get) rfl _).trans ?_
    rw [hline]
    rfl
  refine (bind_ok hvisible _).trans ((bind_ok hread _).trans ?_)
  rw [hv]
  rfl

/-- A variable that takes the value has it afterwards. -/
theorem assign_lookup {name : String} {x y : Variable} {v : Value} {m : Machine}
    (hx : lookup name m = .ok x m) (hy : x.assign v = .ok y) :
    ∃ s, assign name v m = .ok () s ∧ lookup name s = .ok y s := by
  obtain ⟨hname, hx, -⟩ := lookup_eq_ok.mp hx
  obtain ⟨above, i, below, hscopes, hi, habove⟩ := List.findSome?_eq_some_iff.mp hx
  have htarget : m.store.assignment name v m.control.scopes = .ok (i, y) := by
    rw [hscopes, Store.assignment_append habove, Store.assignment, hi]
    simp only [hy]
  refine ⟨{ m with store := m.store.set i name y }, ?_, lookup_eq_ok.mpr ⟨hname, ?_, rfl⟩⟩
  · refine (bind_ok (x := get) rfl _).trans ?_
    rw [htarget]
    rfl
  · refine List.findSome?_eq_some_iff.mpr
      ⟨above, i, below, hscopes, Store.get?_set_self hi, fun j hj => ?_⟩
    have hne : j ≠ i := by
      rintro rfl
      rw [habove j hj] at hi
      cases hi
    rw [Store.get?_set_of_ne m.store hne, habove j hj]

end Eval

/-- Values survive being written back. The spelling of what a literal token stands for is a token for
the same, and the decimal numeral of an integer is a token for this integer. A line with this numeral
and any blanks around it is read as the integer too: the statement that reads an integer assigns it
to the name, so that a variable for integers then has this value. -/
theorem values_survive_being_written :
    (∀ token l, Literal.ofToken? token = some l →
        Literal.ofToken? (Value.ofLiteral l).spelling = some l) ∧
      (∀ n : Int64, Literal.ofToken? (Integer.render n) = some (.int n)) ∧
      ∀ (n : Int64) (line : String), Text.Pads (Integer.render n).toList line.toList →
        ∀ (fuel : Nat) (name : String) (m : Machine) (rest : Source),
          m.source.readLine = (some line, rest) → Eval.checkVisible name m = .ok () m →
          exec (fuel + 1) (.list [.atom "inputi", .atom name]) m =
              (do Eval.assign name (.int n); return .normal : Eval Completion)
                { m with source := rest } ∧
            ∀ x, Eval.lookup name m = .ok x m → x.declared = .int →
              ∃ s, exec (fuel + 1) (.list [.atom "inputi", .atom name]) m = .ok .normal s ∧
                Eval.lookup name s = .ok ⟨.int, .int n⟩ s := by
  refine ⟨fun _ l _ => Literal.ofToken?_spelling l, Literal.ofToken?_render, ?_⟩
  intro n line hline fuel name m rest hread hvisible
  have hexec : exec (fuel + 1) (.list [.atom "inputi", .atom name]) m =
      (do Eval.assign name (.int n); return .normal : Eval Completion)
        { m with source := rest } :=
    Eval.input_of_received hread (Eval.received_of_pads hline) hvisible
  refine ⟨hexec, fun x hx hint => ?_⟩
  have hassign : x.assign (.int n) = .ok ⟨.int, .int n⟩ :=
    Variable.assign_eq_ok.mpr ⟨by rw [hint]; rfl, by rw [hint]; rfl⟩
  obtain ⟨hname, hx, -⟩ := Eval.lookup_eq_ok.mp hx
  obtain ⟨s, hs, hresult⟩ := Eval.assign_lookup (m := { m with source := rest })
    (Eval.lookup_eq_ok.mpr ⟨hname, hx, rfl⟩) hassign
  exact ⟨s, by rw [hexec]; exact bind_ok hs _, hresult⟩

def Sample.reading : Machine :=
  { control := { Control.start with scopes := [0] }
    store := ⟨#[⟨.locals, [("n", .zeroed .int)]⟩]⟩
    registry := .empty
    sink := .buffer ""
    source := .queue ["\t-42 "]
    limit := none }

theorem sample_values_survive_being_written :
    Literal.ofToken? "\"a\"b\"" = some (.string "a\"b") ∧
      Literal.ofToken? (Value.ofLiteral (.string "a\"b")).spelling = some (.string "a\"b") ∧
      Text.Pads (Integer.render (-42)).toList "\t-42 ".toList ∧
      Sample.reading.source.readLine = (some "\t-42 ", .queue []) ∧
      Eval.checkVisible "n" Sample.reading = .ok () Sample.reading ∧
      Eval.lookup "n" Sample.reading = .ok (.zeroed .int) Sample.reading ∧
      ∃ s, exec 1 (.list [.atom "inputi", .atom "n"]) Sample.reading = .ok .normal s ∧
        Eval.lookup "n" s = .ok ⟨.int, .int (-42)⟩ s := by
  obtain ⟨hspelling, -, hinput⟩ := values_survive_being_written
  have htoken : Literal.ofToken? "\"a\"b\"" = some (.string "a\"b") := rfl
  have hpads : Text.Pads (Integer.render (-42)).toList "\t-42 ".toList :=
    ⟨['\t'], [' '], by simp [Text.isBlank], by simp [Text.isBlank], rfl⟩
  have hvisible : Eval.checkVisible "n" Sample.reading = .ok () Sample.reading := rfl
  have hlookup : Eval.lookup "n" Sample.reading = .ok (.zeroed .int) Sample.reading := rfl
  obtain ⟨-, hread⟩ := hinput (-42) _ hpads 0 "n" Sample.reading (.queue []) rfl hvisible
  exact ⟨htoken, hspelling _ _ htoken, hpads, rfl, hvisible, hlookup, hread _ hlookup rfl⟩

end ObjectLang
