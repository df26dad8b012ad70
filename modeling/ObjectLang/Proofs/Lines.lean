import Mathlib
import ObjectLang.Channel

/-!
The lines of input. A text is cut after each newline, and nothing follows the last one. The bytes of
the text, read from a stream, give these lines one after another, as a queue of them does.
-/

namespace ObjectLang

def bytesOf (text : List Char) : List UInt8 := text.flatMap String.utf8EncodeChar

theorem toList_loop (bytes : ByteArray) (i : Nat) (read : List UInt8) :
    ByteArray.toList.loop bytes i read = read.reverse ++ bytes.data.toList.drop i := by
  induction i, read using ByteArray.toList.loop.induct bytes with
  | case1 i read h ih =>
    have hi : i < bytes.data.toList.length := by simpa using h
    have hget : bytes.get! i = bytes.data.toList[i] := by
      simp only [ByteArray.get!, Array.getElem_toList]
      grind
    rw [ByteArray.toList.loop, if_pos h, ih, List.drop_eq_getElem_cons hi, hget]
    simp
  | case2 i read h =>
    have hi : bytes.data.toList.length ≤ i := by simpa using h
    rw [ByteArray.toList.loop, if_neg h, List.drop_eq_nil_of_le hi, List.append_nil]

theorem toList_toUTF8 (text : String) : text.toUTF8.toList = bytesOf text.toList := by
  rw [ByteArray.toList, toList_loop, String.toUTF8, ← String.utf8Encode_toList]
  simp [List.utf8Encode, bytesOf]

theorem fromUTF8?_bytesOf (text : List Char) :
    String.fromUTF8? (bytesOf text).toByteArray = some (String.ofList text) :=
  dif_pos (ByteArray.isValidUTF8_utf8Encode (l := text))

theorem fromUTF8?_toUTF8 (text : String) : String.fromUTF8? text.toUTF8 = some text := by
  have hbytes : text.toUTF8 = (bytesOf text.toList).toByteArray := String.utf8Encode_toList.symm
  rw [hbytes, fromUTF8?_bytesOf, String.ofList_toList]

namespace Source

/-- No other character has the byte of a newline in it. -/
theorem newline_notMem {c : Char} (h : c ≠ '\n') : newline ∉ String.utf8EncodeChar c := by
  have hbyte : ∀ n : Nat, n < 256 → newline = UInt8.ofNat n → n = 10 := by
    intro n hn heq
    have hnat := congrArg UInt8.toNat heq
    rw [UInt8.toNat_ofNat_of_lt' hn] at hnat
    exact hnat.symm
  have hval : c.val.toNat ≠ 10 := by
    intro hval
    refine h (Char.ext (UInt32.toNat_inj.mp ?_))
    exact hval
  intro hmem
  rw [String.utf8EncodeChar] at hmem
  -- The bytes of a longer character all have their highest bit set.
  split at hmem
  · have hn := hbyte _ (by omega) (List.mem_singleton.mp hmem)
    exact hval hn
  · split at hmem
    · simp only [List.mem_cons, List.not_mem_nil, or_false] at hmem
      obtain heq | heq := hmem <;> have hn := hbyte _ (by omega) heq <;> omega
    · split at hmem
      · simp only [List.mem_cons, List.not_mem_nil, or_false] at hmem
        obtain heq | heq | heq := hmem <;> have hn := hbyte _ (by omega) heq <;> omega
      · simp only [List.mem_cons, List.not_mem_nil, or_false] at hmem
        obtain heq | heq | heq | heq := hmem <;> have hn := hbyte _ (by omega) heq <;> omega

def linesOf : List Char → List (List Char)
  | [] => []
  | c :: cs =>
    if c = '\n' then [c] :: linesOf cs
    else
      match linesOf cs with
      | [] => [[c]]
      | line :: rest => (c :: line) :: rest

/-- The lines make up the text. Each ends with its first newline; only the last may have none. -/
structure Cuts (lines : List (List Char)) (text : List Char) : Prop where
  whole : lines.flatten = text
  ne_nil : ∀ line ∈ lines, line ≠ []
  inner : ∀ line ∈ lines, '\n' ∉ line.dropLast
  ended : ∀ line ∈ lines.dropLast, line.getLast? = some '\n'

theorem cuts_linesOf (text : List Char) : Cuts (linesOf text) text := by
  induction text with
  | nil => exact ⟨rfl, by simp [linesOf], by simp [linesOf], by simp [linesOf]⟩
  | cons c cs ih =>
    rw [linesOf]
    split
    · rename_i hc
      subst hc
      refine ⟨by simp [ih.whole], by simpa using ih.ne_nil, by simpa using ih.inner, ?_⟩
      cases hlines : linesOf cs with
      | nil => simp
      | cons line rest => simpa [hlines] using ih.ended
    · rename_i hc
      split
      · rename_i hlines
        rw [hlines] at ih
        have hcs : cs = [] := ih.whole.symm
        exact ⟨by simp [hcs], by simp, by simp, by simp⟩
      · rename_i line rest hlines
        rw [hlines] at ih
        obtain ⟨hwhole, hne, hinner, hended⟩ := ih
        have hline : line ≠ [] := hne line List.mem_cons_self
        refine ⟨by simpa using hwhole, ?_, ?_, ?_⟩
        · simpa using fun l hl => hne l (List.mem_cons_of_mem _ hl)
        · simp only [List.mem_cons, forall_eq_or_imp] at hinner ⊢
          refine ⟨?_, hinner.2⟩
          rw [List.dropLast_cons_of_ne_nil hline, List.mem_cons, not_or]
          exact ⟨Ne.symm hc, hinner.1⟩
        · cases rest with
          | nil => simp
          | cons next rest =>
            simp only [List.dropLast_cons_cons, List.mem_cons, forall_eq_or_imp] at hended ⊢
            refine ⟨?_, hended.2⟩
            rw [List.getLast?_cons, hended.1]
            rfl

def inputLines (text : List Char) : List String :=
  (linesOf text).map fun line => String.ofList (chomp line)

theorem splitLine_append {front : List UInt8} (h : newline ∉ front) (bytes : List UInt8) :
    splitLine (front ++ bytes) = (front ++ (splitLine bytes).1, (splitLine bytes).2) := by
  induction front with
  | nil => rfl
  | cons b front ih =>
    rw [List.mem_cons, not_or] at h
    rw [List.cons_append, splitLine, if_neg (Ne.symm h.1), ih h.2]
    rfl

/-- The first line of a text is what its bytes are split into first. -/
theorem splitLine_bytesOf {text : List Char} (h : text ≠ []) :
    ∃ line rest, linesOf text = line :: linesOf rest ∧
      splitLine (bytesOf text) = (bytesOf line, bytesOf rest) := by
  induction text with
  | nil => exact absurd rfl h
  | cons c cs ih =>
    by_cases hc : c = '\n'
    · subst hc
      exact ⟨['\n'], cs, by simp [linesOf], rfl⟩
    · have hsplit : splitLine (bytesOf (c :: cs)) =
          (String.utf8EncodeChar c ++ (splitLine (bytesOf cs)).1, (splitLine (bytesOf cs)).2) :=
        splitLine_append (newline_notMem hc) (bytesOf cs)
      cases cs with
      | nil => exact ⟨[c], [], by simp [linesOf, hc], hsplit⟩
      | cons d ds =>
        obtain ⟨line, rest, hlines, hrest⟩ := ih (List.cons_ne_nil d ds)
        refine ⟨c :: line, rest, ?_, ?_⟩
        · rw [linesOf, if_neg hc, hlines]
        · rw [hsplit, hrest]
          rfl

def Feeds (stream queue : Source) : Prop :=
  ∃ text, stream = .stream (bytesOf text) ∧ queue = .queue (inputLines text)

/-- The two give the same line, at the end of the text too, and leave the same lines to come. -/
theorem Feeds.readLine {stream queue : Source} (h : Feeds stream queue) :
    stream.readLine.1 = queue.readLine.1 ∧ Feeds stream.readLine.2 queue.readLine.2 := by
  obtain ⟨text, rfl, rfl⟩ := h
  by_cases htext : text = []
  · subst htext
    exact ⟨rfl, [], rfl, rfl⟩
  · obtain ⟨line, rest, hlines, hsplit⟩ := splitLine_bytesOf htext
    obtain ⟨b, bs, hbytes⟩ : ∃ b bs, bytesOf text = b :: bs := by
      cases text with
      | nil => exact absurd rfl htext
      | cons c cs =>
        cases hc : String.utf8EncodeChar c with
        | nil => exact absurd hc (String.utf8EncodeChar_ne_nil)
        | cons b bs => exact ⟨b, bs ++ bytesOf cs, by simp [bytesOf, hc]⟩
    have hstream : (Source.stream (bytesOf text)).readLine =
        (some (String.ofList (chomp line)), .stream (bytesOf rest)) := by
      rw [hbytes, Source.readLine, ← hbytes, hsplit]
      simp [decodeLine?, fromUTF8?_bytesOf]
    have hqueue : (Source.queue (inputLines text)).readLine =
        (some (String.ofList (chomp line)), .queue (inputLines rest)) := by
      simp [inputLines, hlines, Source.readLine]
    rw [hstream, hqueue]
    exact ⟨rfl, rest, rfl, rfl⟩

end Source

end ObjectLang
