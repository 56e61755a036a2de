import Mathlib.Algebra.Group.Nat.Defs
import SourceRepair.Json.Write
import SourceRepair.Proofs.Json.Grammar

/-!
# Reading what was written

A string in quotes reads back as itself, and so does a natural number of 64 bits. A larger number
reads back as no integer, if it reads back at all.
-/

namespace SourceRepair.Json

-- The equations of what is opened below are made here once, not by each proof that waits for them.
attribute [local grind =] readStringRest Digits.append readMembers readValue Value.render escape

/-! ### Strings -/

theorem hexValue?_hexDigit : ∀ n < 16, hexValue? (hexDigit n) = some n := by decide

theorem readStringRest_quote (rest seen : List Char) :
    readStringRest ('"' :: rest) seen = some (String.ofList seen.reverse, rest) := by
  rw [readStringRest]

theorem readStringRest_short {c x : Char} (known : shortEscape? c = some x) (rest seen : List Char) :
    readStringRest ('\\' :: c :: rest) seen = readStringRest rest (x :: seen) := by
  have other : c ≠ 'u' := by
    rintro rfl
    simp [shortEscape?] at known
  rw [readStringRest]
  · simp [known]
  · intro _ _ _ _ _ _ _ _ _ same
    exact absurd same other
  · intro _ _ _ _ _ same
    exact absurd same other

theorem readStringRest_plain {c : Char} (quote : c ≠ '"') (slash : c ≠ '\\') (printed : ¬c.toNat < 32)
    (rest seen : List Char) : readStringRest (c :: rest) seen = readStringRest rest (c :: seen) := by
  rw [readStringRest] <;> simp [quote, slash, printed]

/-- An escape of a number that is no surrogate reads as its character, whatever follows. -/
theorem readStringRest_unicode {a b c d : Char} {n : Nat} (number : hexQuad? a b c d = some n)
    (high : isHighSurrogate n = false) (low : isLowSurrogate n = false) (rest seen : List Char) :
    readStringRest ('\\' :: 'u' :: a :: b :: c :: d :: rest) seen =
      readStringRest rest (Char.ofNat n :: seen) := by
  have surrogate : (isHighSurrogate n || isLowSurrogate n) = false := by simp [high, low]
  rw [readStringRest.eq_def]
  split
  case h_1 | h_6 => simp_all
  case h_2 e f g h after same =>
    simp only [List.cons.injEq, true_and] at same
    obtain ⟨rfl, rfl, rfl, rfl, rfl⟩ := same
    have alone : ∀ k, surrogatePair? n k = none := fun k => by simp [surrogatePair?, high]
    cases hexQuad? e f g h <;> simp [number, surrogate, alone]
  case h_3 after _ same =>
    simp only [List.cons.injEq, true_and] at same
    obtain ⟨rfl, rfl, rfl, rfl, rfl⟩ := same
    simp [number, surrogate]
  case h_4 apart same =>
    simp only [List.cons.injEq, true_and] at same
    exact (apart _ _ _ _ _ same.1.symm same.2.symm).elim
  case h_5 apart same =>
    simp only [List.cons.injEq] at same
    exact (apart _ _ same.1.symm same.2.symm).elim

theorem readStringRest_pair {a b c d e f g h x : Char} {n m : Nat} (first : hexQuad? a b c d = some n)
    (second : hexQuad? e f g h = some m) (both : surrogatePair? n m = some x) (rest seen : List Char) :
    readStringRest ('\\' :: 'u' :: a :: b :: c :: d :: '\\' :: 'u' :: e :: f :: g :: h :: rest) seen =
      readStringRest rest (x :: seen) := by
  rw [readStringRest]
  simp only [first, second, both]

theorem readStringRest_spelling {c : Char} {u : List Char} (spelled : Spelling c u) (rest seen : List Char) :
    readStringRest (u ++ rest) seen = readStringRest rest (c :: seen) := by
  cases spelled with
  | plain quote slash printed => exact readStringRest_plain quote slash printed rest seen
  | short known => exact readStringRest_short known rest seen
  | code quad high low => exact readStringRest_unicode quad high low rest seen
  | pair first second both => exact readStringRest_pair first second both rest seen

theorem readStringRest_spells {cs u : List Char} (spelled : Spells cs u) (rest seen : List Char) :
    readStringRest (u ++ '"' :: rest) seen = some (String.ofList (seen.reverse ++ cs), rest) := by
  induction spelled generalizing seen with
  | nil => simp [readStringRest_quote]
  | cons first _ ih =>
    rw [List.append_assoc, readStringRest_spelling first, ih]
    simp

theorem spelling_escape (c : Char) : Spelling c (escape c) := by
  unfold escape
  split
  case h_6 quote slash _ _ _ =>
    split
    · rename_i code
      have same : c = Char.ofNat 8 := by rw [← beq_iff_eq.mp code, Char.ofNat_toNat]
      exact same ▸ .short rfl
    split
    · rename_i code
      have same : c = Char.ofNat 12 := by rw [← beq_iff_eq.mp code, Char.ofNat_toNat]
      exact same ▸ .short rfl
    split
    · rename_i low
      have upper := hexValue?_hexDigit (c.toNat / 16) (by omega)
      have lower := hexValue?_hexDigit (c.toNat % 16) (by omega)
      have zero : hexValue? '0' = some 0 := rfl
      have quad : hexQuad? '0' '0' (hexDigit (c.toNat / 16)) (hexDigit (c.toNat % 16)) = some c.toNat := by
        simp only [hexQuad?, zero, upper, lower, Option.bind_eq_bind, Option.bind_some, Option.pure_def,
          Option.some.injEq]
        omega
      have code := Spelling.code quad (by simp [isHighSurrogate]; omega) (by simp [isLowSurrogate]; omega)
      rwa [Char.ofNat_toNat] at code
    · rename_i printed
      exact .plain quote slash printed
  all_goals exact .short rfl

theorem spells_escape (cs : List Char) : Spells cs (cs.flatMap escape) := by
  induction cs with
  | nil => exact .nil
  | cons c cs ih => exact .cons (spelling_escape c) ih

/-- A string without its opening quote reads back. -/
theorem readStringRest_escape (cs rest seen : List Char) :
    readStringRest (cs.flatMap escape ++ '"' :: rest) seen =
      some (String.ofList (seen.reverse ++ cs), rest) := readStringRest_spells (spells_escape cs) rest seen

/-! ### Natural numbers -/

theorem le_ofDigitChars (cs : List Char) (n : Nat) : n ≤ Nat.ofDigitChars 10 cs n := by
  induction cs generalizing n with
  | nil => simp
  | cons c cs ih =>
    rw [Nat.ofDigitChars_cons]
    have := ih (10 * n + (c.toNat - '0'.toNat))
    omega

theorem append_fits {cs : List Char} {n : Nat} (taken : Nat) (fits : Nat.ofDigitChars 10 cs n ≤ maxWord) :
    Digits.append ⟨n, taken, 0⟩ cs = ⟨Nat.ofDigitChars 10 cs n, taken + cs.length, 0⟩ := by
  induction cs generalizing n taken with
  | nil => simp [Digits.append]
  | cons c cs ih =>
    rw [Nat.ofDigitChars_cons, Nat.mul_comm] at fits ⊢
    have small := Nat.le_trans (le_ofDigitChars cs _) fits
    have digit : '0'.toNat = 48 := rfl
    rw [digit] at fits small ⊢
    simp only [Digits.append, beq_self_eq_true, small, decide_true, Bool.and_self, if_true, ih _ fits,
      List.length_cons]
    grind

theorem append_dropped {cs : List Char} {d : Digits} (dropped : d.dropped ≠ 0) :
    (Digits.append d cs).dropped ≠ 0 := by
  induction cs generalizing d with
  | nil => exact dropped
  | cons c cs ih =>
    simp only [Digits.append, beq_false_of_ne dropped, Bool.false_and, Bool.false_eq_true, if_false]
    exact ih (by simp)

theorem append_overflows {cs : List Char} {n : Nat} (taken : Nat) (small : n ≤ maxWord)
    (large : maxWord < Nat.ofDigitChars 10 cs n) : (Digits.append ⟨n, taken, 0⟩ cs).dropped ≠ 0 := by
  induction cs generalizing n taken with
  | nil =>
    rw [Nat.ofDigitChars_nil] at large
    omega
  | cons c cs ih =>
    rw [Nat.ofDigitChars_cons, Nat.mul_comm] at large
    simp only [Digits.append, beq_self_eq_true, Bool.true_and, decide_eq_true_eq]
    split
    · rename_i next
      exact ih _ next large
    · exact append_dropped (by simp)

theorem head_toDigits {n : Nat} (positive : n ≠ 0) : (Nat.toDigits 10 n).head? ≠ some '0' := by
  induction n using Nat.strongRecOn with
  | ind n ih =>
    by_cases small : n < 10
    · rw [Nat.toDigits_of_lt_base small]
      have digits : ∀ k < 10, k ≠ 0 → [k.digitChar].head? ≠ some '0' := by decide
      exact digits n small positive
    · rw [Nat.toDigits_of_base_le (by omega) (by omega), List.head?_append]
      have inner := ih (n / 10) (by omega) (by omega)
      cases found : (Nat.toDigits 10 (n / 10)).head? with
      | none => exact absurd (List.head?_eq_none_iff.mp found) Nat.toDigits_ne_nil
      | some c => simpa [found] using inner

/-- No number goes on here. -/
def Stops (rest : List Char) : Prop :=
  ∀ c ∈ rest.head?, c.isDigit = false ∧ c ≠ '.' ∧ c ≠ 'e' ∧ c ≠ 'E'

theorem takeWhile_digits {n : Nat} {rest : List Char} (stops : Stops rest) :
    (Nat.toDigits 10 n ++ rest).takeWhile Char.isDigit = Nat.toDigits 10 n := by
  have digits : ∀ c ∈ Nat.toDigits 10 n, c.isDigit = true :=
    fun c member => Nat.isDigit_of_mem_toDigits (by decide) (by decide) member
  rw [List.takeWhile_append_of_pos digits]
  cases rest with
  | nil => simp
  | cons c cs => simp [(stops c rfl).1]

/-- Digits of which none goes on as anything else are read for themselves. -/
theorem readNumber_eq {n : Nat} {rest : List Char} (stops : Stops rest) :
    readNumber false (Nat.toDigits 10 n ++ rest) =
      let d := Digits.append ⟨0, 0, 0⟩ (Nat.toDigits 10 n)
      if d.dropped ≠ 0 then readExponent false d.value d.dropped rest
      else some (.int d.value, rest) := by
  have after : (Nat.toDigits 10 n ++ rest).drop (Nat.toDigits 10 n).length = rest := by simp
  have regular : ((Nat.toDigits 10 n).isEmpty ||
      ((Nat.toDigits 10 n).head? == some '0' && decide (1 < (Nat.toDigits 10 n).length))) = false := by
    have full : (Nat.toDigits 10 n).isEmpty = false := by simp
    by_cases zero : n = 0
    · rw [zero]
      decide
    · simp [full, head_toDigits zero]
  have power : rest.head?.any (fun c => c == 'e' || c == 'E') = false := by
    cases rest with
    | nil => rfl
    | cons c cs =>
      have := stops c rfl
      simp [this.2.2.1, this.2.2.2]
  simp only [readNumber, takeWhile_digits stops, after, regular, Bool.false_eq_true, if_false,
    Bool.not_false, if_true]
  split
  · exact absurd rfl (stops '.' rfl).2.1
  · simp [power]

/-- A number of 64 bits reads back. -/
theorem readNumber_fits {n : Nat} {rest : List Char} (fits : n ≤ maxWord) (stops : Stops rest) :
    readNumber false (Nat.toDigits 10 n ++ rest) = some (.int n, rest) := by
  have written : Nat.ofDigitChars 10 (Nat.toDigits 10 n) 0 = n := Nat.ofDigitChars_ten_toDigits
  rw [readNumber_eq stops]
  simp [append_fits 0 (by rwa [written]), written]

/-- A larger number reads as a double, if at all. -/
theorem readNumber_overflows {n : Nat} (large : maxWord < n) :
    ∃ x : Option Float, ∀ rest, Stops rest →
      readNumber false (Nat.toDigits 10 n ++ rest) = x.map fun x => (.float x, rest) := by
  have written : Nat.ofDigitChars 10 (Nat.toDigits 10 n) 0 = n := Nat.ofDigitChars_ten_toDigits
  have dropped := append_overflows 0 (Nat.zero_le maxWord) (by rwa [written])
  generalize read : Digits.append ⟨0, 0, 0⟩ (Nat.toDigits 10 n) = d at dropped
  refine ⟨scaleFloat 20 (wordFloat d.value) d.dropped, fun rest stops => ?_⟩
  simp only [readNumber_eq stops, read, dropped, ne_eq, not_false_eq_true, if_true]
  cases rest with
  | nil => simp [readExponent, floatOf, Function.comp_def]
  | cons c cs =>
    have := stops c rfl
    simp [readExponent, floatOf, Function.comp_def, this.2.2.1, this.2.2.2]

/-! ### Objects -/

theorem quote_toList (s : String) : (quote s).toList = '"' :: (s.toList.flatMap escape ++ ['"']) := by
  simp [quote]

/-- The text of a value reads as `o`, and reading it stops where it ends. -/
def ReadsAs (item : Reader Value) (text : List Char) (o : Option Value) : Prop :=
  (∀ c ∈ text.head?, isBlank c = false) ∧ text ≠ [] ∧
    ∀ rest, Stops rest → item (text ++ rest) = o.map (·, rest)

theorem skipBlanks_text {item : Reader Value} {text rest : List Char} {o : Option Value}
    (reads : ReadsAs item text o) : skipBlanks (' ' :: (text ++ rest)) = text ++ rest := by
  cases text with
  | nil => exact absurd rfl reads.2.1
  | cons c cs =>
    have bare : isBlank c = false := reads.1 c rfl
    simp [skipBlanks, bare, show isBlank ' ' = true from rfl]

/-- The text of a member of an object. -/
def memberText (key : String) (v : Value) : List Char :=
  (quote key).toList ++ ':' :: ' ' :: (v.render .pretty 1).toList

theorem skipBlanks_member (key : String) (v : Value) (rest : List Char) :
    skipBlanks ('\n' :: ' ' :: ' ' :: (memberText key v ++ rest)) = memberText key v ++ rest := by
  rw [memberText, quote_toList]
  rfl

/-- One member, up to what stands behind it. -/
theorem readMembers_member {item : Reader Value} {key : String} {v : Value} {o : Option Value}
    {cs rest : List Char} {fuel : Nat} (start : skipBlanks cs = memberText key v ++ rest)
    (reads : ReadsAs item (v.render .pretty 1).toList o) (stops : Stops rest) :
    readMembers item (fuel + 1) cs = o.bind fun v =>
      match skipBlanks rest with
      | ',' :: rest => (readMembers item fuel rest).bind fun (ms, rest) => some ((key, v) :: ms, rest)
      | '\x7d' :: rest => some ([(key, v)], rest)
      | _ => none := by
  have opened : skipBlanks cs = '"' :: (key.toList.flatMap escape ++
      '"' :: ':' :: ' ' :: ((v.render .pretty 1).toList ++ rest)) := by
    rw [start, memberText, quote_toList]
    simp
  rw [readMembers, opened]
  simp only [Option.bind_eq_bind, readStringRest_escape, Option.bind_some, List.reverse_nil,
    List.nil_append, String.ofList_toList]
  have colon : skipBlanks (':' :: ' ' :: ((v.render .pretty 1).toList ++ rest)) =
      ':' :: ' ' :: ((v.render .pretty 1).toList ++ rest) := rfl
  simp only [colon, skipBlanks_text reads, reads.2.2 rest stops]
  cases o with
  | none => rfl
  | some v => rfl

theorem renderMembers_cons (key : String) (v : Value) (ms : List (String × Value)) :
    (String.intercalate ",\n  " (renderMembers .pretty 1 ((key, v) :: ms))).toList =
      memberText key v ++ match ms with
        | [] => []
        | _ => ',' :: '\n' :: ' ' :: ' ' ::
          (String.intercalate ",\n  " (renderMembers .pretty 1 ms)).toList := by
  have text : (quote key ++ Layout.pretty.colon ++ v.render .pretty 1).toList = memberText key v := by
    simp [memberText, Layout.pretty]
  cases ms with
  | nil => simp [renderMembers, text]
  | cons m ms =>
    obtain ⟨key', v'⟩ := m
    simp only [renderMembers, String.intercalate_cons_cons, String.toList_append, text]
    simp

theorem stops_of_ne {c : Char} {cs : List Char} (digit : c.isDigit = false) (point : c ≠ '.')
    (lower : c ≠ 'e') (upper : c ≠ 'E') : Stops (c :: cs) := by
  rintro _ ⟨⟩
  exact ⟨digit, point, lower, upper⟩

/-- The members of an object read back, each as its text reads. -/
theorem readMembers_render {item : Reader Value} {o : Value → Option Value} {rest : List Char}
    (ms : List (String × Value)) (full : ms ≠ [])
    (reads : ∀ m ∈ ms, ReadsAs item (m.2.render .pretty 1).toList (o m.2)) (cs : List Char)
    (fuel : Nat) (enough : ms.length ≤ fuel)
    (start : skipBlanks cs = (String.intercalate ",\n  " (renderMembers .pretty 1 ms)).toList ++
      '\n' :: '\x7d' :: rest) :
    readMembers item fuel cs =
      (ms.mapM fun m => (o m.2).map fun v => (m.1, v)).map fun read => (read, rest) := by
  induction ms generalizing cs fuel with
  | nil => exact absurd rfl full
  | cons m ms ih =>
    obtain ⟨key, v⟩ := m
    obtain ⟨fuel, rfl⟩ : ∃ n, fuel = n + 1 := ⟨fuel - 1, by simp at enough; omega⟩
    rw [renderMembers_cons, List.append_assoc] at start
    have first := reads _ List.mem_cons_self
    rw [List.mapM_cons]
    cases ms with
    | nil =>
      rw [readMembers_member start first (stops_of_ne (by decide) (by decide) (by decide) (by decide))]
      simp only [List.nil_append, show skipBlanks ('\n' :: '\x7d' :: rest) = '\x7d' :: rest from rfl]
      cases o v <;> rfl
    | cons m ms =>
      rw [readMembers_member start first (stops_of_ne (by decide) (by decide) (by decide) (by decide))]
      simp only [List.cons_append, show ∀ cs, skipBlanks (',' :: cs) = ',' :: cs from fun _ => rfl]
      have inner := ih (by simp) (fun m member => reads m (List.mem_cons_of_mem _ member))
        ('\n' :: ' ' :: ' ' ::
          ((String.intercalate ",\n  " (renderMembers .pretty 1 (m :: ms))).toList ++
            '\n' :: '\x7d' :: rest)) fuel (by simpa using enough) (by
          rw [renderMembers_cons, List.append_assoc]
          exact skipBlanks_member _ _ _)
      simp only [inner]
      cases o v with
      | none => rfl
      | some v => cases List.mapM (fun m => (o m.2).map fun v => (m.1, v)) (m :: ms) <;> rfl

theorem length_le_render (ms : List (String × Value)) :
    ms.length ≤ (String.intercalate ",\n  " (renderMembers .pretty 1 ms)).toList.length := by
  induction ms with
  | nil => simp
  | cons m ms ih =>
    rw [renderMembers_cons, memberText]
    cases ms with
    | nil =>
      simp only [List.length_append, List.length_cons, List.length_nil]
      omega
    | cons m ms =>
      simp only [List.length_append, List.length_cons] at ih ⊢
      omega

/-- An object reads back, each member as its text reads. -/
theorem readValue_object {depth : Nat} {o : Value → Option Value} {ms : List (String × Value)}
    (full : ms ≠ [])
    (reads : ∀ m ∈ ms, ReadsAs (readValue depth) (m.2.render .pretty 1).toList (o m.2))
    (rest : List Char) :
    readValue (depth + 1) ('\x7b' :: '\n' :: ' ' :: ' ' ::
        ((String.intercalate ",\n  " (renderMembers .pretty 1 ms)).toList ++ '\n' :: '\x7d' :: rest)) =
      (ms.mapM fun m => (o m.2).map fun v => (m.1, v)).map fun read => (.object read, rest) := by
  have enough := length_le_render ms
  obtain ⟨⟨key, v⟩, more, rfl⟩ := List.exists_cons_of_ne_nil full
  generalize body : (String.intercalate ",\n  " (renderMembers .pretty 1 ((key, v) :: more))).toList ++
    '\n' :: '\x7d' :: rest = text
  -- The text of the members starts with a quote, so the object is not empty.
  have opened : ∃ cs, text = '"' :: cs := by
    rw [← body, renderMembers_cons, memberText, quote_toList]
    exact ⟨_, rfl⟩
  obtain ⟨cs, rfl⟩ := opened
  have blank : skipBlanks ('\n' :: ' ' :: ' ' :: '"' :: cs) = '"' :: cs := rfl
  have same : skipBlanks ('"' :: cs) = '"' :: cs := rfl
  have length := congrArg List.length body
  rw [List.length_append] at length
  have inner := readMembers_render _ full reads ('"' :: cs) (('"' :: cs).length + 1) (by omega)
    (same.trans body.symm)
  rw [readValue, blank]
  show Option.map _ (readMembers (readValue depth) (('"' :: cs).length + 1) ('"' :: cs)) = _
  rw [inner, Option.map_map]
  rfl

/-- A document of one object reads back, each member as its text reads. -/
theorem read?_object {o : Value → Option Value} (ms : List (String × Value)) (full : ms ≠ [])
    (reads : ∀ depth, ∀ m ∈ ms, ReadsAs (readValue depth) (m.2.render .pretty 1).toList (o m.2)) :
    read? (Value.object ms).pretty =
      (ms.mapM fun m => (o m.2).map fun v => (m.1, v)).map .object := by
  have text : (Value.object ms).pretty.toList = '\x7b' :: '\n' :: ' ' :: ' ' ::
      ((String.intercalate ",\n  " (renderMembers .pretty 1 ms)).toList ++ ['\n', '\x7d']) := by
    obtain ⟨⟨key, v⟩, more, rfl⟩ := List.exists_cons_of_ne_nil full
    simp [Value.pretty, Value.render, renderMembers, Layout.list, Layout.pretty, List.replicate]
  have bare : skipBlanks (Value.object ms).pretty.toList = (Value.object ms).pretty.toList := by
    rw [text]
    rfl
  rw [read?, bare, text, show depthLimit = 126 + 1 from rfl, readValue_object full (reads 126)]
  cases ms.mapM fun m => (o m.2).map fun v => (m.1, v) <;> rfl

/-! ### Values that hold no others -/

theorem readsAs_scalar {text : List Char} {o : Option Value}
    (bare : ∀ c ∈ text.head?, isBlank c = false ∧ c ≠ '[' ∧ c ≠ '\x7b') (full : text ≠ [])
    (reads : ∀ rest, Stops rest → readScalar (text ++ rest) = o.map (·, rest)) (depth : Nat) :
    ReadsAs (readValue depth) text o := by
  refine ⟨fun c first => (bare c first).1, full, fun rest stops => ?_⟩
  rw [← reads rest stops]
  obtain ⟨c, cs, rfl⟩ := List.exists_cons_of_ne_nil full
  obtain ⟨_, array, object⟩ := bare c rfl
  cases depth with
  | zero => rw [readValue]
  | succ depth =>
    rw [List.cons_append, readValue]
    · intro _ same
      exact array (List.cons.inj same).1
    · intro _ same
      exact object (List.cons.inj same).1

theorem readsAs_string (s : String) (depth : Nat) :
    ReadsAs (readValue depth) (Value.render .pretty 1 (.string s)).toList (some (.string s)) := by
  have text : (Value.render .pretty 1 (.string s)).toList = '"' :: (s.toList.flatMap escape ++ ['"']) :=
    quote_toList s
  rw [text]
  refine readsAs_scalar (by simp [isBlank]) (by simp) (fun rest _ => ?_) depth
  rw [List.cons_append, List.append_assoc, List.singleton_append, readScalar, readStringRest_escape]
  simp

/-- A number of 64 bits reads back, and a larger one as no integer. -/
theorem readsAs_nat (n : Nat) : ∃ o : Option Value,
    (∀ depth, ReadsAs (readValue depth) (Value.render .pretty 1 (.nat n)).toList o) ∧
    (n < 2 ^ 64 → o = some (.nat n)) ∧ (2 ^ 64 ≤ n → ∀ v ∈ o, ∃ x, v = .float x) := by
  have text : (Value.render .pretty 1 (.nat n)).toList = Nat.toDigits 10 n := by
    rw [← Nat.toList_repr]
    rfl
  have digit : ∀ c ∈ (Nat.toDigits 10 n).head?, c.isDigit = true := fun c first =>
    Nat.isDigit_of_mem_toDigits (by decide) (by decide) (List.mem_of_mem_head? first)
  have other : ∀ c d : Char, c.isDigit = true → d.isDigit = false → c ≠ d := by
    rintro c _ yes no rfl
    rw [yes] at no
    cases no
  have bare : ∀ c ∈ (Nat.toDigits 10 n).head?, isBlank c = false ∧ c ≠ '[' ∧ c ≠ '\x7b' := by
    intro c first
    have apart := fun d => other c d (digit c first)
    simp [isBlank, apart]
  -- Digits are no start of any other value.
  have scalar : ∀ rest, readScalar (Nat.toDigits 10 n ++ rest) =
      (readNumber false (Nat.toDigits 10 n ++ rest)).map fun p => (.number p.1, p.2) := by
    intro rest
    obtain ⟨c, cs, same⟩ := List.exists_cons_of_ne_nil (Nat.toDigits_ne_nil (n := n) (b := 10))
    have apart := fun d => other c d (digit c (by simp [same]))
    rw [same, List.cons_append, readScalar]
    all_goals
      intro _ shape
      exact apart _ (by decide) (List.cons.inj shape).1
  rw [text]
  by_cases fits : n < 2 ^ 64
  · refine ⟨some (.nat n), readsAs_scalar bare Nat.toDigits_ne_nil fun rest stops => ?_,
      fun _ => rfl, fun large => absurd fits (by omega)⟩
    rw [scalar, readNumber_fits (by simp only [maxWord, UInt64.size]; omega) stops]
    rfl
  · obtain ⟨x, overflows⟩ := readNumber_overflows (n := n) (by simp only [maxWord, UInt64.size]; omega)
    refine ⟨x.map .float, readsAs_scalar bare Nat.toDigits_ne_nil fun rest stops => ?_,
      fun small => absurd small fits, fun _ v found => ?_⟩
    · rw [scalar, overflows rest stops]
      cases x <;> rfl
    · obtain ⟨x, _, rfl⟩ := Option.map_eq_some_iff.mp found
      exact ⟨x, rfl⟩

end SourceRepair.Json
