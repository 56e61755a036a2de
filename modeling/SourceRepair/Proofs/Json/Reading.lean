import Mathlib.Data.List.TakeWhile
import SourceRepair.Proofs.Json.Grammar
import SourceRepair.Proofs.Json.RoundTrip

/-!
# What the reader accepts

A text is read as a value if and only if it is plain JSON for that value and its lists are not nested deeper
than the reader follows them: `read?_eq_some_iff`.
-/

namespace SourceRepair.Json

open Relation (Comp)

/-! ### Strings -/

/-- What is read as the rest of a string is spelled in front of its closing quote. -/
theorem spells_of_readStringRest {t seen rest : List Char} {s : String}
    (read : readStringRest t seen = some (s, rest)) :
    ∃ cs u, Spells cs u ∧ t = u ++ '"' :: rest ∧ s = String.ofList (seen.reverse ++ cs) := by
  -- One character more in front of what the rest of the text spells.
  have more {t seen u : List Char} {c : Char} (first : Spelling c u)
      (ih : ∃ cs w, Spells cs w ∧ t = w ++ '"' :: rest ∧ s = String.ofList ((c :: seen).reverse ++ cs)) :
      ∃ cs w, Spells cs w ∧ u ++ t = w ++ '"' :: rest ∧ s = String.ofList (seen.reverse ++ cs) := by
    obtain ⟨cs, w, spelled, rfl, rfl⟩ := ih
    exact ⟨c :: cs, u ++ w, .cons first spelled, by simp, by simp⟩
  have single {n : Nat} (other : ¬(isHighSurrogate n || isLowSurrogate n) = true) :
      isHighSurrogate n = false ∧ isLowSurrogate n = false := by simpa using other
  fun_induction readStringRest t seen
  case case1 =>
    cases read
    exact ⟨[], [], .nil, rfl, by simp⟩
  case case2 second first x both ih => exact more (.pair first second both) (ih read)
  case case4 first _ other ih | case6 first other ih | case9 first other ih =>
    exact more (.code first (single other).1 (single other).2) (ih read)
  case case11 known ih => exact more (.short known) (ih read)
  case case14 quote _ _ _ printed ih =>
    simp only [Bool.or_eq_true, decide_eq_true_eq, beq_iff_eq, not_or] at printed
    exact more (.plain quote printed.2 printed.1) (ih read)
  all_goals cases read

theorem readString_isString {x : String} {w : List Char} (string : IsString x w) (rest : List Char) :
    readScalar (w ++ rest) = some (.string x, rest) := by
  obtain ⟨u, spelled, rfl⟩ := string
  have read := readStringRest_spells spelled rest []
  simp only [List.cons_append, List.append_assoc, List.nil_append, readScalar, read]
  simp

/-! ### Numbers -/

/-- Digits up to where they end. -/
theorem takeWhile_digits_append {w rest : List Char} (digits : ∀ c ∈ w, c.isDigit)
    (apart : ∀ c ∈ rest.head?, c.isDigit = false) : (w ++ rest).takeWhile Char.isDigit = w := by
  rw [List.takeWhile_append_of_pos digits]
  cases rest with
  | nil => simp
  | cons c cs => simp [apart c rfl]

/-- Any text is its first digits and a text that does not go on with one. -/
theorem takeWhile_digits_rest (t : List Char) :
    t = t.takeWhile Char.isDigit ++ t.drop (t.takeWhile Char.isDigit).length ∧
      ∀ c ∈ (t.drop (t.takeWhile Char.isDigit).length).head?, c.isDigit = false := by
  have parts := List.takeWhile_append_dropWhile (p := Char.isDigit) (l := t)
  have rest : t.drop (t.takeWhile Char.isDigit).length = t.dropWhile Char.isDigit :=
    (congrArg (List.drop _) parts).symm.trans List.drop_left
  rw [rest, parts]
  refine ⟨rfl, fun c first => ?_⟩
  have apart := List.head?_dropWhile_not Char.isDigit t
  rw [Option.mem_def.mp first] at apart
  simpa using apart

/-- The sign of an exponent, and what is left behind it. -/
def readSign : List Char → Bool × List Char
  | '-' :: rest => (true, rest)
  | '+' :: rest => (false, rest)
  | rest => (false, rest)

theorem readSign_digits {sign w : List Char} (signed : sign = [] ∨ sign = ['+'] ∨ sign = ['-'])
    (digits : AreDigits w) (rest : List Char) : readSign (sign ++ (w ++ rest)) = (sign == ['-'], w ++ rest) := by
  obtain ⟨c, cs, rfl⟩ := List.exists_cons_of_ne_nil digits.1
  have digit : c.isDigit := digits.2 c List.mem_cons_self
  have plus : c ≠ '+' := by
    rintro rfl
    cases digit
  have minus : c ≠ '-' := by
    rintro rfl
    cases digit
  rcases signed with rfl | rfl | rfl
  · simp [readSign, plus, minus]
  · rfl
  · rfl

/-- Every text is a sign and what is left behind it. -/
theorem readSign_eq (t : List Char) :
    ∃ sign, (sign = [] ∨ sign = ['+'] ∨ sign = ['-']) ∧ t = sign ++ (readSign t).2 := by
  unfold readSign
  split
  · exact ⟨['-'], .inr (.inr rfl), rfl⟩
  · exact ⟨['+'], .inr (.inl rfl), rfl⟩
  · exact ⟨[], .inl rfl, rfl⟩

/-- The number with some digits of an exponent. -/
def numberOf (negative : Bool) (significand : Nat) (exponent : Int) (down : Bool) (digits : List Char) :
    Option Number :=
  match exponentValue? digits with
  | some n => floatOf negative significand (if down then exponent - n else exponent + n)
  | none => hugeExponent negative significand down

theorem readExponent_letter {e : Char} (letter : e = 'e' ∨ e = 'E') (negative : Bool) (significand : Nat)
    (exponent : Int) (t : List Char) :
    readExponent negative significand exponent (e :: t) =
      let (down, rest) := readSign t
      let digits := rest.takeWhile Char.isDigit
      if digits.isEmpty then none
      else (numberOf negative significand exponent down digits).map (·, rest.drop digits.length) := by
  have found : (e == 'e' || e == 'E') = true := by simpa using letter
  simp only [readExponent, found, if_true]
  rfl

theorem readExponent_other {rest : List Char} (other : ∀ c ∈ rest.head?, c ≠ 'e' ∧ c ≠ 'E') (negative : Bool)
    (significand : Nat) (exponent : Int) :
    readExponent negative significand exponent rest = (floatOf negative significand exponent).map (·, rest) := by
  cases rest with
  | nil => rfl
  | cons c cs =>
    have apart := other c rfl
    simp [readExponent, apart.1, apart.2]

/-- The exponent ends in front of a text that does not go on with it or, where there is none, starts one. -/
structure EndsPower (exponent rest : List Char) : Prop where
  digit : ∀ c ∈ rest.head?, c.isDigit = false
  letter : exponent = [] → ∀ c ∈ rest.head?, c ≠ 'e' ∧ c ≠ 'E'

theorem EndsPower.nil (exponent : List Char) : EndsPower exponent [] := ⟨by simp, by simp⟩

/-- The number depends on the exponent only. -/
theorem readExponent_shape {exponent : List Char} (shape : IsExponent exponent) (negative : Bool)
    (significand : Nat) (power : Int) : ∃ n : Option Number, ∀ rest, EndsPower exponent rest →
      readExponent negative significand power (exponent ++ rest) = n.map (·, rest) := by
  cases shape with
  | none => exact ⟨_, fun rest ends => readExponent_other (ends.letter rfl) negative significand power⟩
  | @power e sign w letter signed digits =>
    refine ⟨numberOf negative significand power (sign == ['-']) w, fun rest ends => ?_⟩
    rw [List.cons_append, List.append_assoc, readExponent_letter letter, readSign_digits signed digits]
    simp [takeWhile_digits_append digits.2 ends.digit, digits.1]

/-- What is read behind digits is an exponent or nothing. -/
theorem exponent_of_readExponent {t rest : List Char} {negative : Bool} {significand : Nat} {power : Int}
    {n : Number} (apart : ∀ c ∈ t.head?, c.isDigit = false)
    (read : readExponent negative significand power t = some (n, rest)) :
    ∃ exponent, IsExponent exponent ∧ EndsPower exponent rest ∧ t = exponent ++ rest := by
  by_cases other : ∀ c ∈ t.head?, c ≠ 'e' ∧ c ≠ 'E'
  · rw [readExponent_other other, Option.map_eq_some_iff] at read
    obtain ⟨_, _, same⟩ := read
    cases same
    exact ⟨[], .none, ⟨apart, fun _ => other⟩, rfl⟩
  · obtain ⟨e, cs, rfl, letter⟩ : ∃ e cs, t = e :: cs ∧ (e = 'e' ∨ e = 'E') := by
      cases t with
      | nil => simp at other
      | cons e cs => exact ⟨e, cs, rfl, by simpa [Decidable.or_iff_not_imp_left] using other⟩
    obtain ⟨sign, signed, front⟩ := readSign_eq cs
    rw [readExponent_letter letter] at read
    generalize readSign cs = split at front read
    obtain ⟨down, after⟩ := split
    obtain ⟨parts, ends⟩ := takeWhile_digits_rest after
    simp only at front read
    split at read
    · cases read
    · rename_i full
      obtain ⟨_, _, same⟩ := Option.map_eq_some_iff.mp read
      cases same
      refine ⟨e :: (sign ++ after.takeWhile Char.isDigit), .power letter signed ⟨by simpa using full, ?_⟩,
        ⟨ends, by simp⟩, ?_⟩
      · exact List.all_eq_true.mp List.all_takeWhile
      · rw [front, List.cons_append, List.append_assoc, ← parts]

/-- A number with its whole part read. -/
def readFraction (negative : Bool) (d : Digits) : Reader Number
  | '.' :: rest =>
    let fraction := rest.takeWhile Char.isDigit
    let rest := rest.drop fraction.length
    if fraction.isEmpty then none
    else
      let f := Digits.append ⟨d.value, 0, 0⟩ fraction
      readExponent negative f.value ((d.dropped : Int) - f.taken) rest
  | rest =>
    if d.dropped != 0 || rest.head?.any (fun c => c == 'e' || c == 'E') then
      readExponent negative d.value d.dropped rest
    else if !negative then some (.int d.value, rest)
    else if d.value == 0 || 1 <<< 63 < d.value then some (.float (-(wordFloat d.value)), rest)
    else some (.int (-(d.value : Int)), rest)

theorem readNumber_fraction (negative : Bool) (t : List Char) :
    readNumber negative t =
      let whole := t.takeWhile Char.isDigit
      if whole.isEmpty || (whole.head? == some '0' && 1 < whole.length) then none
      else readFraction negative (Digits.append ⟨0, 0, 0⟩ whole) (t.drop whole.length) := rfl

/-- The whole part, and the text behind it. -/
theorem readNumber_whole {whole rest : List Char} (shape : IsWhole whole)
    (apart : ∀ c ∈ rest.head?, c.isDigit = false) (negative : Bool) :
    readNumber negative (whole ++ rest) = readFraction negative (Digits.append ⟨0, 0, 0⟩ whole) rest := by
  have full : whole.isEmpty = false := by simpa using shape.1.1
  have zero : (whole.head? == some '0' && decide (1 < whole.length)) = false := by
    by_cases first : whole.head? = some '0'
    · simp [shape.2 first]
    · simp [first]
  simp only [readNumber_fraction, takeWhile_digits_append shape.1.2 apart, full, zero, Bool.or_false,
    Bool.false_eq_true, if_false, List.drop_left]

/-- Behind a whole part that is not followed by a point, the number depends on nothing else. -/
theorem readFraction_other {rest : List Char} (other : ∀ c ∈ rest.head?, c ≠ '.') (negative : Bool) (d : Digits) :
    readFraction negative d rest =
      if d.dropped != 0 || rest.head?.any (fun c => c == 'e' || c == 'E') then
        readExponent negative d.value d.dropped rest
      else if !negative then some (.int d.value, rest)
      else if d.value == 0 || 1 <<< 63 < d.value then some (.float (-(wordFloat d.value)), rest)
      else some (.int (-(d.value : Int)), rest) := by
  unfold readFraction
  split
  · exact absurd rfl (other '.' rfl)
  · rfl

/-- The number ends in front of a text that does not go on with it. -/
structure EndsNumber (fraction exponent rest : List Char) : Prop extends EndsPower exponent rest where
  point : fraction = [] → exponent = [] → ∀ c ∈ rest.head?, c ≠ '.'

theorem readFraction_shape {fraction exponent : List Char} (point : IsFraction fraction)
    (power : IsExponent exponent) (negative : Bool) (d : Digits) : ∃ n : Option Number, ∀ rest,
      EndsNumber fraction exponent rest →
      readFraction negative d (fraction ++ (exponent ++ rest)) = n.map (·, rest) := by
  cases point with
  | none =>
    obtain ⟨n, read⟩ := readExponent_shape power negative d.value d.dropped
    cases power with
    | none =>
      by_cases dropped : d.dropped = 0
      · refine ⟨if !negative then some (.int d.value)
          else if d.value == 0 || 1 <<< 63 < d.value then some (.float (-(wordFloat d.value)))
          else some (.int (-(d.value : Int))), fun rest ends => ?_⟩
        have letter : rest.head?.any (fun c => c == 'e' || c == 'E') = false := by
          cases rest with
          | nil => rfl
          | cons c cs => simpa using ends.letter rfl c rfl
        rw [List.nil_append, List.nil_append, readFraction_other (ends.point rfl rfl)]
        simp only [dropped, letter, bne_self_eq_false, Bool.or_self, Bool.false_eq_true, if_false]
        split
        · rfl
        · split <;> rfl
      · refine ⟨n, fun rest ends => ?_⟩
        rw [← read rest ends.toEndsPower, List.nil_append, List.nil_append, readFraction_other (ends.point rfl rfl)]
        simp [dropped]
    | power letter signed digits =>
      refine ⟨n, fun rest ends => ?_⟩
      rw [← read rest ends.toEndsPower, List.nil_append, List.cons_append, readFraction_other]
      · simp [letter]
      · rcases letter with rfl | rfl <;> simp
  | @point w digits =>
    obtain ⟨n, read⟩ := readExponent_shape power negative (Digits.append ⟨d.value, 0, 0⟩ w).value
      ((d.dropped : Int) - (Digits.append ⟨d.value, 0, 0⟩ w).taken)
    refine ⟨n, fun rest ends => ?_⟩
    have apart : ∀ c ∈ (exponent ++ rest).head?, c.isDigit = false := by
      cases power with
      | none => exact ends.digit
      | power letter _ _ => rcases letter with rfl | rfl <;> simp
    rw [← read rest ends.toEndsPower]
    simp only [readFraction, List.cons_append, takeWhile_digits_append digits.2 apart, List.drop_left]
    simp [digits.1]

/-- What is read behind a whole part is a fraction and an exponent, each of them or none. -/
theorem fraction_of_readFraction {t rest : List Char} {negative : Bool} {d : Digits} {n : Number}
    (apart : ∀ c ∈ t.head?, c.isDigit = false) (read : readFraction negative d t = some (n, rest)) :
    ∃ fraction exponent, IsFraction fraction ∧ IsExponent exponent ∧ EndsNumber fraction exponent rest ∧
      t = fraction ++ (exponent ++ rest) := by
  by_cases other : ∀ c ∈ t.head?, c ≠ '.'
  · rw [readFraction_other other] at read
    split at read
    · obtain ⟨exponent, power, ends, rfl⟩ := exponent_of_readExponent apart read
      exact ⟨[], exponent, .none, power, ⟨ends, fun _ empty => by simpa [empty] using other⟩, rfl⟩
    · rename_i plain
      have same : t = rest := by
        repeat' split at read
        all_goals cases read; rfl
      subst same
      have letter : ∀ c ∈ t.head?, c ≠ 'e' ∧ c ≠ 'E' := by
        cases t with
        | nil => simp
        | cons c cs => simpa using (by simpa using plain : _ ∧ _).2
      exact ⟨[], [], .none, .none, ⟨⟨apart, fun _ => letter⟩, fun _ _ => other⟩, rfl⟩
  · obtain ⟨cs, rfl⟩ : ∃ cs, t = '.' :: cs := by
      cases t with
      | nil => simp at other
      | cons c cs => exact ⟨cs, by simpa using other⟩
    obtain ⟨parts, ends⟩ := takeWhile_digits_rest cs
    simp only [readFraction] at read
    split at read
    · cases read
    · rename_i full
      obtain ⟨exponent, power, after, rest⟩ := exponent_of_readExponent ends read
      refine ⟨'.' :: cs.takeWhile Char.isDigit, exponent,
        .point ⟨by simpa using full, List.all_eq_true.mp List.all_takeWhile⟩, power, ⟨after, by simp⟩, ?_⟩
      rw [← rest, List.cons_append, ← parts]

/-- The number depends on its parts only. -/
theorem readNumber_parts {whole fraction exponent : List Char} (digits : IsWhole whole)
    (point : IsFraction fraction) (power : IsExponent exponent) (negative : Bool) : ∃ n : Option Number, ∀ rest,
      EndsNumber fraction exponent rest →
      readNumber negative (whole ++ (fraction ++ (exponent ++ rest))) = n.map (·, rest) := by
  obtain ⟨n, read⟩ := readFraction_shape point power negative (Digits.append ⟨0, 0, 0⟩ whole)
  refine ⟨n, fun rest ends => ?_⟩
  rw [← read rest ends, readNumber_whole digits]
  cases point with
  | point digits => simp
  | none =>
    cases power with
    | power letter _ _ => rcases letter with rfl | rfl <;> simp
    | none => exact ends.digit

theorem readNumber_stops {w rest : List Char} {negative : Bool} {n : Number} (shape : IsMagnitude w)
    (value : readNumber negative w = some (n, [])) (stops : Stops rest) :
    readNumber negative (w ++ rest) = some (n, rest) := by
  cases shape with
  | @parts whole fraction exponent digits point power =>
    obtain ⟨m, read⟩ := readNumber_parts digits point power negative
    have alone := read [] ⟨.nil _, by simp⟩
    have same : m = some n := by
      rw [List.append_nil, value] at alone
      obtain ⟨k, rfl, same⟩ := Option.map_eq_some_iff.mp alone.symm
      cases same
      rfl
    have ends : EndsNumber fraction exponent rest :=
      ⟨⟨fun c first => (stops c first).1, fun _ c first => (stops c first).2.2⟩,
        fun _ _ c first => (stops c first).2.1⟩
    rw [List.append_assoc, List.append_assoc, read rest ends, same]
    rfl

/-- What is read as a number is written as one. -/
theorem magnitude_of_readNumber {t rest : List Char} {negative : Bool} {n : Number}
    (read : readNumber negative t = some (n, rest)) :
    ∃ w, IsMagnitude w ∧ readNumber negative w = some (n, []) ∧ t = w ++ rest := by
  obtain ⟨front, ends⟩ := takeWhile_digits_rest t
  have inner := read
  rw [readNumber_fraction] at inner
  simp only at inner
  split at inner
  · cases inner
  · rename_i regular
    obtain ⟨fraction, exponent, point, power, after, behind⟩ := fraction_of_readFraction ends inner
    have digits : IsWhole (t.takeWhile Char.isDigit) := by
      generalize whole : t.takeWhile Char.isDigit = w at regular
      refine ⟨⟨?_, whole ▸ List.all_eq_true.mp List.all_takeWhile⟩, fun first => ?_⟩
      · rintro rfl
        simp at regular
      · cases w with
        | nil => simp at regular
        | cons c cs =>
          cases cs with
          | nil => simpa using first
          | cons c' cs =>
            rw [first] at regular
            simp at regular
    refine ⟨_, .parts digits point power, ?_, ?_⟩
    · obtain ⟨m, parts⟩ := readNumber_parts digits point power negative
      have whole := parts rest after
      rw [← behind, ← front, read] at whole
      have alone := parts [] ⟨.nil _, by simp⟩
      rw [List.append_nil] at alone
      obtain ⟨k, rfl, same⟩ := Option.map_eq_some_iff.mp whole.symm
      cases same
      exact alone
    · rw [List.append_assoc, List.append_assoc, ← behind, ← front]

/-! ### Values that hold no others -/

theorem readWord_append (word : String) (v : Value) (rest : List Char) :
    readWord word v (word.toList ++ rest) = some (v, rest) := by
  simp [readWord, ← String.length_toList]

theorem eq_of_readWord {word : String} {v v' : Value} {t rest : List Char}
    (read : readWord word v t = some (v', rest)) : v' = v ∧ t = word.toList ++ rest := by
  unfold readWord at read
  split at read
  · rename_i front
    cases read
    obtain ⟨rest, rfl⟩ := List.isPrefixOf_iff_prefix.mp front
    simp [← String.length_toList]
  · cases read

/-- A digit starts no other scalar. -/
theorem readScalar_digit {c : Char} (digit : c.isDigit) (cs : List Char) :
    readScalar (c :: cs) = (readNumber false (c :: cs)).map fun (n, r) => (.number n, r) := by
  have apart : ∀ d : Char, d.isDigit = false → c ≠ d := by
    rintro d other rfl
    rw [digit] at other
    cases other
  rw [readScalar]
  all_goals
    intro _ same
    exact apart _ (by decide) (List.cons.inj same).1

theorem readScalar_word {v : Value} {w rest : List Char} (word : IsWord v w) (stops : Stops rest) :
    readScalar (w ++ rest) = some (v, rest) := by
  cases word with
  | null => exact readWord_append "ull" .null rest
  | yes => exact readWord_append "rue" (.bool true) rest
  | no => exact readWord_append "alse" (.bool false) rest
  | number numeral =>
    cases numeral with
    | positive shape value =>
      have read := readNumber_stops shape value stops
      obtain ⟨c, cs, rfl, digit⟩ := shape.head
      rw [List.cons_append, readScalar_digit digit, ← List.cons_append, read]
      rfl
    | negative shape value =>
      rw [List.cons_append, readScalar, readNumber_stops shape value stops]
      rfl

/-- What is read as a scalar is written as one. -/
theorem of_readScalar {t rest : List Char} {v : Value} (read : readScalar t = some (v, rest)) :
    (∃ x w, v = .string x ∧ IsString x w ∧ t = w ++ rest) ∨ ∃ w, IsWord v w ∧ t = w ++ rest := by
  unfold readScalar at read
  split at read
  · obtain ⟨⟨s, r⟩, inner, same⟩ := Option.map_eq_some_iff.mp read
    cases same
    obtain ⟨cs, u, spelled, rfl, rfl⟩ := spells_of_readStringRest inner
    exact .inl ⟨_, _, rfl, ⟨u, by simpa using spelled, rfl⟩, by simp⟩
  · obtain ⟨⟨n, r⟩, inner, same⟩ := Option.map_eq_some_iff.mp read
    cases same
    obtain ⟨w, shape, value, rfl⟩ := magnitude_of_readNumber inner
    exact .inr ⟨_, .number (.negative shape value), rfl⟩
  · obtain ⟨rfl, rfl⟩ := eq_of_readWord read
    exact .inr ⟨_, .null, rfl⟩
  · obtain ⟨rfl, rfl⟩ := eq_of_readWord read
    exact .inr ⟨_, .yes, rfl⟩
  · obtain ⟨rfl, rfl⟩ := eq_of_readWord read
    exact .inr ⟨_, .no, rfl⟩
  · obtain ⟨⟨n, r⟩, inner, same⟩ := Option.map_eq_some_iff.mp read
    cases same
    obtain ⟨w, shape, value, rfl⟩ := magnitude_of_readNumber inner
    exact .inr ⟨_, .number (.positive shape value), rfl⟩

/-! ### Blanks and marks -/

theorem skipBlanks_append {g : List Char} (blanks : AreBlanks g) (t : List Char) :
    skipBlanks (g ++ t) = skipBlanks t := List.dropWhile_append_of_pos blanks

theorem skipBlanks_bare {c : Char} (bare : isBlank c = false) (t : List Char) : skipBlanks (c :: t) = c :: t := by
  simp [skipBlanks, bare]

/-- Every text is blanks and what is left behind them. -/
theorem skipBlanks_front (t : List Char) : ∃ g, AreBlanks g ∧ t = g ++ skipBlanks t :=
  ⟨t.takeWhile isBlank, List.all_eq_true.mp List.all_takeWhile, List.takeWhile_append_dropWhile.symm⟩

theorem skipBlanks_skipBlanks (t : List Char) : skipBlanks (skipBlanks t) = skipBlanks t := by
  obtain ⟨g, blanks, front⟩ := skipBlanks_front t
  rw [← skipBlanks_append blanks, ← front]

theorem readItems_skipBlanks (item : Reader Value) (fuel : Nat) (t : List Char) :
    readItems item fuel (skipBlanks t) = readItems item fuel t := by
  cases fuel <;> simp [readItems, skipBlanks_skipBlanks]

theorem readMembers_skipBlanks (item : Reader Value) (fuel : Nat) (t : List Char) :
    readMembers item fuel (skipBlanks t) = readMembers item fuel t := by
  cases fuel <;> simp [readMembers, skipBlanks_skipBlanks]

theorem skipBlanks_mark {c : Char} {t r : List Char} (bare : isBlank c = false) (front : Style.plain.mark c t r) :
    skipBlanks t = c :: r := by
  obtain ⟨g, blanks, rfl⟩ := front
  rw [skipBlanks_append blanks, skipBlanks_bare bare]

theorem mark_of_skipBlanks {c : Char} {t r : List Char} (skipped : skipBlanks t = c :: r) :
    Style.plain.mark c t r := by
  obtain ⟨g, blanks, front⟩ := skipBlanks_front t
  exact ⟨g, blanks, by rw [← skipped, ← front]⟩

theorem plain_close {full : Bool} {c : Char} {t r : List Char} :
    Style.plain.close full c t r ↔ Style.plain.mark c t r := by
  simp [Style.close, Style.plain]

theorem stops_mark {c : Char} {t r : List Char} (end_ : c = ',' ∨ c = ']' ∨ c = '\x7d')
    (front : Style.plain.mark c t r) : Stops t := by
  obtain ⟨g, blanks, rfl⟩ := front
  have apart {d : Char} (known : isBlank d ∨ d = ',' ∨ d = ']' ∨ d = '\x7d') :
      d.isDigit = false ∧ d ≠ '.' ∧ d ≠ 'e' ∧ d ≠ 'E' := by
    simp only [isBlank, Bool.or_eq_true, beq_iff_eq] at known
    rcases known with (((rfl | rfl) | rfl) | rfl) | rfl | rfl | rfl <;> decide
  cases g with
  | nil =>
    rintro _ ⟨⟩
    exact apart (.inr end_)
  | cons d g =>
    rintro _ ⟨⟩
    exact apart (.inl (blanks d List.mem_cons_self))

/-! ### Texts get shorter -/

theorem length_skipBlanks_le (t : List Char) : (skipBlanks t).length ≤ t.length :=
  (List.dropWhile_suffix isBlank).length_le

/-- Every piece of plain JSON takes something off the text behind its blanks. -/
theorem plain_shorter :
    Style.plain.Carried (fun X _ => ∀ t r, X t r → r.length < (skipBlanks t).length) Style.plain := by
  have marked {c : Char} (bare : isBlank c = false) (t r : List Char) (front : Style.plain.mark c t r) :
      r.length < (skipBlanks t).length := by
    simp [skipBlanks_mark bare front]
  have comma {X : Front} (shorter : ∀ t r, X t r → r.length < (skipBlanks t).length) (t r : List Char)
      (front : Comp (Style.plain.mark ',') X t r) : r.length < (skipBlanks t).length := by
    obtain ⟨u, mark, rest⟩ := front
    have := marked rfl t u mark
    have := shorter u r rest
    have := length_skipBlanks_le u
    omega
  have quoted (x : String) (t r : List Char) (front : Style.plain.quoted x t r) :
      r.length < (skipBlanks t).length := by
    obtain ⟨g, _, blanks, ⟨u, _, rfl⟩, rfl⟩ := front
    rw [skipBlanks_append blanks, List.cons_append, skipBlanks_bare rfl]
    simp only [List.length_cons, List.length_append]
    omega
  constructor
  case comp =>
    rintro X _ Y _ first rest t r ⟨u, front, back⟩
    have := first t u front
    have := rest u r back
    have := length_skipBlanks_le u
    omega
  case mark =>
    intro c known
    exact marked (by simp at known; rcases known with rfl | rfl | rfl <;> rfl)
  case close =>
    intro full c known t r front
    exact marked (by rcases known with rfl | rfl <;> rfl) t r (plain_close.mp front)
  case quoted => exact quoted
  case word =>
    rintro v _ r ⟨g, w, _, blanks, word, rfl, rfl⟩
    obtain ⟨c, cs, rfl, bare, _⟩ := word.head
    rw [skipBlanks_append blanks, List.cons_append, skipBlanks_bare bare]
    simp only [List.length_cons, List.length_append]
    omega
  case item => exact fun v shorter => comma shorter
  case key => exact fun x => comma (quoted x)

theorem length_moreItems (vs : List Value) {t r : List Char} (more : MoreItems .plain vs t r) :
    vs.length + r.length < t.length := by
  have shorter := length_skipBlanks_le t
  induction vs generalizing t with
  | nil => simpa using Nat.lt_of_lt_of_le (plain_shorter.items [] t r more) shorter
  | cons v vs ih =>
    obtain ⟨m, first, rest⟩ := more
    have := plain_shorter.item v (plain_shorter.starts v) _ _ first
    have := ih rest (length_skipBlanks_le m)
    simp only [List.length_cons]
    omega

theorem length_moreMembers (ms : List (String × Value)) {t r : List Char} (more : MoreMembers .plain ms t r) :
    ms.length + r.length < t.length := by
  have shorter := length_skipBlanks_le t
  induction ms generalizing t with
  | nil => simpa using Nat.lt_of_lt_of_le (plain_shorter.members [] t r more) shorter
  | cons m ms ih =>
    obtain ⟨m, first, rest⟩ := more
    have := plain_shorter.key _ _ _ first
    obtain ⟨_, colon, n, value, rest⟩ := rest
    have := plain_shorter.mark _ (by simp) _ _ colon
    have := plain_shorter.starts _ _ _ value
    have := ih rest (length_skipBlanks_le n)
    have := length_skipBlanks_le m
    grind [length_skipBlanks_le]

/-! ### What is read is written so -/

/-- What the reader takes for a value is written as one, and its lists are nested at most so deep. -/
def Sound (item : Reader Value) (depth : Nat) : Prop := ∀ g t v r, AreBlanks g → item t = some (v, r) →
  v.Starts .plain (g ++ t) r ∧ v.nesting ≤ depth

theorem Sound.skip {item : Reader Value} {depth : Nat} (sound : Sound item depth) {t r : List Char} {v : Value}
    (read : item (skipBlanks t) = some (v, r)) : v.Starts .plain t r ∧ v.nesting ≤ depth := by
  obtain ⟨g, blanks, front⟩ := skipBlanks_front t
  have starts := sound g _ v r blanks read
  rwa [← front] at starts

theorem Sound.items {item : Reader Value} {depth : Nat} (sound : Sound item depth) {fuel : Nat} {t r : List Char}
    {vs : List Value} (read : readItems item fuel t = some (vs, r)) : ∃ v more, vs = v :: more ∧
      Comp (v.Starts .plain) (MoreItems .plain more) t r ∧ itemsNesting vs ≤ depth := by
  induction fuel generalizing t vs with
  | zero => cases read
  | succ fuel ih =>
    simp only [readItems, Option.bind_eq_bind, Option.bind_eq_some_iff, Prod.exists] at read
    obtain ⟨v, u, first, rest⟩ := read
    obtain ⟨starts, nested⟩ := sound.skip first
    split at rest
    · rename_i after comma
      simp only [Option.bind_eq_some_iff, Prod.exists, Option.pure_def, Option.some.injEq, Prod.mk.injEq] at rest
      obtain ⟨more, _, inner, rfl, rfl⟩ := rest
      obtain ⟨v', more, rfl, ⟨m, starts', behind⟩, nested'⟩ := ih inner
      refine ⟨v, v' :: more, rfl, ⟨u, starts, ?_⟩, Nat.max_le.mpr ⟨nested, nested'⟩⟩
      exact ⟨m, ⟨after, mark_of_skipBlanks comma, starts'⟩, behind⟩
    · rename_i after close
      cases rest
      exact ⟨v, [], rfl, ⟨u, starts, plain_close.mpr (mark_of_skipBlanks close)⟩,
        Nat.max_le.mpr ⟨nested, Nat.zero_le _⟩⟩
    · cases rest

theorem quoted_of_readStringRest {x : String} {t u r : List Char} (skipped : skipBlanks t = '"' :: u)
    (read : readStringRest u [] = some (x, r)) : Style.plain.quoted x t r := by
  obtain ⟨g, blanks, rfl⟩ := mark_of_skipBlanks skipped
  obtain ⟨cs, w, spelled, rfl, rfl⟩ := spells_of_readStringRest read
  exact ⟨g, _, blanks, ⟨w, by simpa using spelled, rfl⟩, by simp⟩

theorem Sound.members {item : Reader Value} {depth : Nat} (sound : Sound item depth) {fuel : Nat}
    {t r : List Char} {ms : List (String × Value)} (read : readMembers item fuel t = some (ms, r)) :
    ∃ k v more, ms = (k, v) :: more ∧ Comp (Style.plain.quoted k)
      (Comp (Style.plain.mark ':') (Comp (v.Starts .plain) (MoreMembers .plain more))) t r ∧
      membersNesting ms ≤ depth := by
  induction fuel generalizing t ms with
  | zero => cases read
  | succ fuel ih =>
    simp only [readMembers] at read
    split at read
    · rename_i key quote
      simp only [Option.bind_eq_bind, Option.bind_eq_some_iff, Prod.exists] at read
      obtain ⟨k, colon, string, read⟩ := read
      split at read
      · rename_i value mark
        simp only [Option.bind_eq_some_iff, Prod.exists] at read
        obtain ⟨v, u, inner, rest⟩ := read
        obtain ⟨starts, nested⟩ := sound.skip inner
        have front := quoted_of_readStringRest quote string
        split at rest
        · rename_i after comma
          simp only [Option.bind_eq_some_iff, Prod.exists, Option.pure_def, Option.some.injEq,
            Prod.mk.injEq] at rest
          obtain ⟨more, _, inner, rfl, rfl⟩ := rest
          obtain ⟨k', v', more, rfl, ⟨m, starts', behind⟩, nested'⟩ := ih inner
          exact ⟨k, v, (k', v') :: more, rfl,
            ⟨colon, front, value, mark_of_skipBlanks mark, u, starts, m,
              ⟨after, mark_of_skipBlanks comma, starts'⟩, behind⟩, Nat.max_le.mpr ⟨nested, nested'⟩⟩
        · rename_i after close
          cases rest
          exact ⟨k, v, [], rfl,
            ⟨colon, front, value, mark_of_skipBlanks mark, u, starts, plain_close.mpr (mark_of_skipBlanks close)⟩,
            Nat.max_le.mpr ⟨nested, Nat.zero_le _⟩⟩
        · cases rest
      · cases read
    · cases read

theorem sound_readScalar (depth : Nat) : Sound readScalar depth := by
  intro g t v r blanks read
  obtain ⟨x, w, rfl, string, rfl⟩ | ⟨w, word, rfl⟩ := of_readScalar read
  · exact ⟨⟨g, w, blanks, string, rfl⟩, Nat.zero_le _⟩
  · have starts : Style.plain.word v (g ++ (w ++ r)) r := ⟨g, w, w, blanks, word, rfl, rfl⟩
    cases word <;> exact ⟨starts, Nat.zero_le _⟩

theorem sound_readValue (depth : Nat) : Sound (readValue depth) depth := by
  induction depth with
  | zero =>
    intro g t v r blanks read
    rw [readValue] at read
    exact sound_readScalar 0 g t v r blanks read
  | succ depth ih =>
    intro g t v r blanks read
    have mark (c : Char) (cs : List Char) : Style.plain.mark c (g ++ c :: cs) cs := ⟨g, blanks, rfl⟩
    unfold readValue at read
    split at read
    case h_1 same => cases same
    case h_2 n after same =>
      cases same
      split at read
      · rename_i close
        cases read
        exact ⟨⟨_, mark '[' after, plain_close.mpr (mark_of_skipBlanks close)⟩,
          by simp [Value.nesting, itemsNesting]⟩
      · obtain ⟨⟨vs, _⟩, inner, same⟩ := Option.map_eq_some_iff.mp read
        cases same
        obtain ⟨v, more, rfl, items, nested⟩ := ih.items ((readItems_skipBlanks _ _ _).symm.trans inner)
        exact ⟨⟨after, mark '[' after, items⟩, by simpa [Value.nesting] using nested⟩
    case h_3 n after same =>
      cases same
      split at read
      · rename_i close
        cases read
        exact ⟨⟨_, mark '\x7b' after, plain_close.mpr (mark_of_skipBlanks close)⟩,
          by simp [Value.nesting, membersNesting]⟩
      · obtain ⟨⟨ms, _⟩, inner, same⟩ := Option.map_eq_some_iff.mp read
        cases same
        obtain ⟨k, v, more, rfl, ⟨u, key, behind⟩, nested⟩ :=
          ih.members ((readMembers_skipBlanks _ _ _).symm.trans inner)
        exact ⟨⟨u, ⟨after, mark '\x7b' after, key⟩, behind⟩, by simpa [Value.nesting] using nested⟩
    case h_4 => exact sound_readScalar (depth + 1) g _ v r blanks read

/-! ### What is written so is read -/

/-- The reader takes the values that are nested at most so deep off any text that starts with them. -/
def Complete (item : Reader Value) (depth : Nat) : Prop := ∀ (v : Value) t r, v.nesting ≤ depth → Stops r →
  v.Starts .plain t r → item (skipBlanks t) = some (v, r)

theorem Complete.items {item : Reader Value} {depth : Nat} (complete : Complete item depth) (vs : List Value)
    {v : Value} {fuel : Nat} {t r : List Char} (nested : itemsNesting (v :: vs) ≤ depth) (enough : vs.length < fuel)
    (starts : Comp (v.Starts .plain) (MoreItems .plain vs) t r) : readItems item fuel t = some (v :: vs, r) := by
  induction vs generalizing v fuel t with
  | nil =>
    obtain ⟨u, first, close⟩ := starts
    have mark := plain_close.mp close
    have read := complete v t u (by simpa [itemsNesting] using nested) (stops_mark (.inr (.inl rfl)) mark) first
    obtain ⟨fuel, rfl⟩ := Nat.exists_eq_add_one_of_ne_zero (by omega : fuel ≠ 0)
    simp [readItems, read, skipBlanks_mark rfl mark]
  | cons v' vs ih =>
    obtain ⟨u, first, m, ⟨after, comma, second⟩, rest⟩ := starts
    obtain ⟨nested, nested'⟩ := Nat.max_le.mp nested
    have read := complete v t u nested (stops_mark (.inl rfl) comma) first
    obtain ⟨fuel, rfl⟩ := Nat.exists_eq_add_one_of_ne_zero (by omega : fuel ≠ 0)
    have inner := ih nested' (by simpa using enough) ⟨m, second, rest⟩
    simp [readItems, read, skipBlanks_mark rfl comma, inner]

theorem readStringRest_quoted {x : String} {t r : List Char} (quoted : Style.plain.quoted x t r) :
    ∃ u, skipBlanks t = '"' :: u ∧ readStringRest u [] = some (x, r) := by
  obtain ⟨g, _, blanks, ⟨u, spelled, rfl⟩, rfl⟩ := quoted
  refine ⟨u ++ '"' :: r, ?_, ?_⟩
  · rw [skipBlanks_append blanks]
    simp [skipBlanks_bare (show isBlank '"' = false from rfl)]
  · simpa using readStringRest_spells spelled r []

theorem Complete.members {item : Reader Value} {depth : Nat} (complete : Complete item depth)
    (ms : List (String × Value)) {k : String} {v : Value} {fuel : Nat} {t r : List Char}
    (nested : membersNesting ((k, v) :: ms) ≤ depth) (enough : ms.length < fuel)
    (starts : Comp (Style.plain.quoted k)
      (Comp (Style.plain.mark ':') (Comp (v.Starts .plain) (MoreMembers .plain ms))) t r) :
    readMembers item fuel t = some ((k, v) :: ms, r) := by
  induction ms generalizing k v fuel t with
  | nil =>
    obtain ⟨_, key, _, colon, u, first, close⟩ := starts
    have mark := plain_close.mp close
    obtain ⟨_, quote, string⟩ := readStringRest_quoted key
    have read := complete v _ u (by simpa [membersNesting] using nested) (stops_mark (.inr (.inr rfl)) mark) first
    obtain ⟨fuel, rfl⟩ := Nat.exists_eq_add_one_of_ne_zero (by omega : fuel ≠ 0)
    simp [readMembers, quote, string, skipBlanks_mark rfl colon, read, skipBlanks_mark rfl mark]
  | cons m ms ih =>
    obtain ⟨_, key, _, colon, u, first, n, ⟨after, comma, key'⟩, rest⟩ := starts
    obtain ⟨_, quote, string⟩ := readStringRest_quoted key
    obtain ⟨nested, nested'⟩ := Nat.max_le.mp nested
    have read := complete v _ u nested (stops_mark (.inl rfl) comma) first
    obtain ⟨fuel, rfl⟩ := Nat.exists_eq_add_one_of_ne_zero (by omega : fuel ≠ 0)
    have inner := ih nested' (by simpa using enough) ⟨n, key', rest⟩
    simp [readMembers, quote, string, skipBlanks_mark rfl colon, read, skipBlanks_mark rfl comma, inner]

theorem readValue_scalar {depth : Nat} {t : List Char} (bare : ∀ c ∈ t.head?, c ≠ '[' ∧ c ≠ '\x7b') :
    readValue depth t = readScalar t := by
  cases depth with
  | zero => rw [readValue]
  | succ depth =>
    rw [readValue]
    · rintro _ rfl
      exact (bare _ rfl).1 rfl
    · rintro _ rfl
      exact (bare _ rfl).2 rfl

theorem complete_word {v : Value} {depth : Nat} {t r : List Char} (stops : Stops r) (word : Style.plain.word v t r) :
    readValue depth (skipBlanks t) = some (v, r) := by
  obtain ⟨g, w, _, blanks, word, rfl, rfl⟩ := word
  have read := readScalar_word word stops
  obtain ⟨c, cs, rfl, blank, bracket, brace⟩ := word.head
  rw [List.cons_append] at read ⊢
  rw [skipBlanks_append blanks, skipBlanks_bare blank, readValue_scalar (by simp [bracket, brace]), read]

theorem complete_scalar {v : Value} {depth : Nat} {t r : List Char} (flat : v.nesting = 0) (stops : Stops r)
    (starts : v.Starts .plain t r) : readValue depth (skipBlanks t) = some (v, r) := by
  cases v with
  | null => exact complete_word stops starts
  | bool => exact complete_word stops starts
  | number => exact complete_word stops starts
  | string x =>
    obtain ⟨u, quote, string⟩ := readStringRest_quoted starts
    rw [quote, readValue_scalar (by simp), readScalar, string]
    rfl
  | array | object => simp [Value.nesting] at flat

theorem readItems_close (depth fuel : Nat) (t : List Char) : readItems (readValue depth) fuel (']' :: t) = none := by
  have refused : readValue depth (']' :: t) = none := by
    rw [readValue_scalar (by simp)]
    simp [readScalar, readNumber]
  cases fuel <;> simp [readItems, skipBlanks_bare (show isBlank ']' = false from rfl), refused]

theorem complete_readValue (depth : Nat) : Complete (readValue depth) depth := by
  induction depth with
  | zero => exact fun v t r nested => complete_scalar (Nat.le_zero.mp nested)
  | succ depth ih =>
    intro v t r nested stops starts
    cases v with
    | null | bool | number | string => exact complete_scalar rfl stops starts
    | array vs =>
      cases vs with
      | nil =>
        obtain ⟨u, mark, close⟩ := starts
        simp [skipBlanks_mark rfl mark, readValue, skipBlanks_mark rfl (plain_close.mp close)]
      | cons v vs =>
        obtain ⟨u, mark, starts⟩ := starts
        have enough : vs.length < (skipBlanks u).length + 1 := by
          obtain ⟨m, first, more⟩ := starts
          have := plain_shorter.starts _ _ _ first
          have := length_moreItems vs more
          omega
        have read := ih.items vs (Nat.succ_le_succ_iff.mp nested) enough starts
        rw [← readItems_skipBlanks] at read
        rw [skipBlanks_mark rfl mark, readValue]
        split
        · rename_i close
          rw [close, readItems_close] at read
          cases read
        · rw [read]
          rfl
    | object ms =>
      cases ms with
      | nil =>
        obtain ⟨u, mark, close⟩ := starts
        simp [skipBlanks_mark rfl mark, readValue, skipBlanks_mark rfl (plain_close.mp close)]
      | cons m ms =>
        obtain ⟨m, ⟨u, mark, key⟩, starts⟩ := starts
        have enough : ms.length < (skipBlanks u).length + 1 := by
          have := plain_shorter.quoted _ _ _ key
          obtain ⟨_, colon, n, value, more⟩ := starts
          have := plain_shorter.mark _ (by simp) _ _ colon
          have := plain_shorter.starts _ _ _ value
          have := length_moreMembers ms more
          grind [length_skipBlanks_le]
        have read := ih.members ms (Nat.succ_le_succ_iff.mp nested) enough ⟨m, key, starts⟩
        rw [← readMembers_skipBlanks] at read
        obtain ⟨_, quote, _⟩ := readStringRest_quoted key
        rw [skipBlanks_mark rfl mark, readValue]
        split
        · rename_i close
          rw [quote] at close
          cases close
        · rw [read]
          rfl

/-! ### Whole texts -/

theorem stops_blanks {r : List Char} (blanks : AreBlanks r) : Stops r := by
  cases r with
  | nil => simp [Stops]
  | cons c cs =>
    have blank := blanks c List.mem_cons_self
    rintro _ ⟨⟩
    simp only [isBlank, Bool.or_eq_true, beq_iff_eq] at blank
    rcases blank with ((rfl | rfl) | rfl) | rfl <;> decide

theorem skipBlanks_eq_nil {r : List Char} : skipBlanks r = [] ↔ AreBlanks r := List.dropWhile_eq_nil_iff

/-- Plain JSON is read for the value that it holds where its lists are nested no deeper than the reader goes,
and nothing else is read. -/
theorem read?_eq_some_iff {text : String} {v : Value} :
    read? text = some v ↔ Document .plain v text.toList ∧ v.nesting ≤ depthLimit := by
  unfold read?
  constructor
  · intro read
    split at read
    · rename_i w r inner
      obtain ⟨starts, nested⟩ := (sound_readValue depthLimit).skip inner
      split at read
      · rename_i ends
        cases read
        exact ⟨⟨r, starts, skipBlanks_eq_nil.mp (by simpa using ends)⟩, nested⟩
      · cases read
    · cases read
  · rintro ⟨⟨r, starts, ends⟩, nested⟩
    rw [complete_readValue depthLimit v _ r nested (stops_blanks ends) starts]
    simp [skipBlanks_eq_nil.mpr ends]

/-- A text is plain JSON for one value at most. -/
theorem Document.unique {v v' : Value} {t : List Char} (one : Document .plain v t) (other : Document .plain v' t) :
    v = v' := by
  obtain ⟨r, starts, ends⟩ := one
  obtain ⟨r', starts', ends'⟩ := other
  have read := complete_readValue (max v.nesting v'.nesting) v t r (Nat.le_max_left _ _) (stops_blanks ends) starts
  rw [complete_readValue _ v' t r' (Nat.le_max_right _ _) (stops_blanks ends') starts'] at read
  cases read
  rfl

end SourceRepair.Json
