import SourceRepair.Script.Shape

/-!
# What a check tells

Tests are evaluated by the rules for `&&`, `||`, parentheses, `typeof` and the four (in)equalities, whatever their
other operands evaluate to. Then a test that is recognised as a check for a name is truthy only if the name is
defined, and one that is recognised as a check against it is falsy only if the name is defined.
-/

namespace SourceRepair.Script

/-! ### Values -/

namespace Evaluation

/-- A number, as truth and equality see it: the sign of zero does not count. -/
inductive Number where
  | nan
  | infinite (negative : Bool)
  | finite (value : Rat)
deriving DecidableEq, Repr, Inhabited

/-- What an expression evaluates to. Symbols and objects are told apart by their numbers. -/
inductive Value where
  | undefined
  | null
  | boolean (b : Bool)
  | number (x : Number)
  | bigint (n : Int)
  | string (text : String)
  | symbol (id : Nat)
  | object (id : Nat) (callable : Bool)
deriving DecidableEq, Repr, Inhabited

namespace Value

/-- The value counts as true. -/
def truthy : Value → Bool
  | undefined | null | number .nan => false
  | boolean b => b
  | number (.finite x) => x != 0
  | bigint n => n != 0
  | string text => text != ""
  | number (.infinite _) | symbol _ | object _ _ => true

/-- The word that `typeof` gives for the value. -/
def typeName : Value → String
  | undefined => "undefined"
  | null => "object"
  | boolean _ => "boolean"
  | number _ => "number"
  | bigint _ => "bigint"
  | string _ => "string"
  | symbol _ => "symbol"
  | object _ callable => if callable then "function" else "object"

/-- Equality without conversion. The number that is none differs from itself. -/
def same : Value → Value → Bool
  | number .nan, _ => false
  | v, w => v == w

end Value

end Evaluation

open Evaluation (Value)

/-! ### Evaluation -/

/-- What tests are evaluated with: the values of names, of which one that is not declared has none, the values of
all operands that the rules do not go into, of which one that throws has none, and whether two values of different
kinds are equal when they are converted. -/
structure Evaluation where
  names : String → Option Value
  operands : Expr → Option Value
  converted : Value → Value → Bool

namespace Evaluation

/-- The name is declared, and its value is not `undefined`. -/
def Defined (ρ : Evaluation) (root : String) : Prop := ∃ v, ρ.names root = some v ∧ v ≠ .undefined

/-- The word that `typeof` gives for a name, which need not be declared. -/
def typeofName (ρ : Evaluation) (name : String) : String := ((ρ.names name).map Value.typeName).getD "undefined"

/-- Equality with conversion. -/
def alike (ρ : Evaluation) : Value → Value → Bool
  | .undefined, .null | .null, .undefined => true
  | v, w => if v.ctorIdx = w.ctorIdx then v.same w else ρ.converted v w

/-- What an (in)equality says of two values. -/
def comparison? (ρ : Evaluation) : BinaryOp → Option (Value → Value → Bool)
  | .eq => some ρ.alike
  | .notEq => some fun v w => !ρ.alike v w
  | .strictEq => some Value.same
  | .strictNotEq => some fun v w => !v.same w
  | _ => none

/-- The value of an expression. The right operand of `&&` and `||` is evaluated only if the left one does not decide. -/
def value? (ρ : Evaluation) : Expr → Option Value
  | .paren inner _ => ρ.value? inner
  | .logical .and left right _ => do
    let v ← ρ.value? left
    if v.truthy then ρ.value? right else some v
  | .logical .or left right _ => do
    let v ← ρ.value? left
    if v.truthy then some v else ρ.value? right
  | .binary op left right span =>
    match ρ.comparison? op with
    | some compare => do
      let v ← ρ.value? left
      let w ← ρ.value? right
      return .boolean (compare v w)
    | none => ρ.operands (.binary op left right span)
  | .unary .typeof argument _ =>
    match argument.identifier? with
    | some name => some (.string (ρ.typeofName name))
    | none => (ρ.value? argument).map fun v => .string v.typeName
  | .string text _ => some (.string text)
  | .identifier text _ => ρ.names text
  | e => ρ.operands e

variable {ρ : Evaluation} {root text : String} {e test left right : Expr} {ops : List BinaryOp} {v : Value}

theorem defined_of_typeofName (known : ρ.typeofName root ≠ "undefined") : ρ.Defined root := by
  unfold typeofName at known
  cases found : ρ.names root with
  | none =>
    rw [found] at known
    exact absurd rfl known
  | some v =>
    refine ⟨v, found, ?_⟩
    rintro rfl
    rw [found] at known
    exact known rfl

/-! ### Comparisons of types -/

theorem value?_stripParens (ρ : Evaluation) (e : Expr) : ρ.value? e.stripParens = ρ.value? e := by
  fun_induction Tree.stripParens e with
  | case1 inner span ih => exact ih
  | case2 e => rfl

theorem value?_of_string? (found : e.string? = some text) : ρ.value? e = some (.string text) := by
  fun_induction Tree.string? e with
  | case1 value span =>
    cases found
    rfl
  | case2 inner span ih => exact ih found
  | case3 => cases found

theorem value?_of_isTypeofOf (reads : Tree.isTypeofOf root e) :
    ρ.value? e = some (.string (ρ.typeofName root)) := by
  rw [← value?_stripParens]
  unfold Tree.isTypeofOf at reads
  split at reads
  · rename_i argument span bare
    rw [bare, value?, beq_iff_eq.mp reads]
  · cases reads

/-- The operator says of two texts whether they are equal, or whether they are not. -/
def Compares (ρ : Evaluation) (equal : Bool) (op : BinaryOp) : Prop :=
  ∃ compare, ρ.comparison? op = some compare ∧ ∀ s t : String, compare (.string s) (.string t) = ((s == t) == equal)

/-- A comparison of `typeof root` with `"undefined"` says whether that is the word for the name. -/
theorem value?_of_comparesTypeof {equal : Bool} (compares : ∀ op ∈ ops, ρ.Compares equal op)
    (check : e.comparesTypeof root ops) :
    ρ.value? e = some (.boolean ((ρ.typeofName root == "undefined") == equal)) := by
  unfold Tree.comparesTypeof at check
  split at check
  · rename_i op left right span
    obtain ⟨listed, operands⟩ := Bool.and_eq_true_iff.mp check
    obtain ⟨compare, known, texts⟩ := compares op (List.contains_iff_mem.mp listed)
    simp only [Bool.or_eq_true, Bool.and_eq_true, beq_iff_eq] at operands
    rw [value?, known]
    rcases operands with ⟨reads, literal⟩ | ⟨reads, literal⟩
    · simp [value?_of_isTypeofOf reads, value?_of_string? literal, texts]
    · simp [value?_of_isTypeofOf reads, value?_of_string? literal, texts, BEq.comm (a := "undefined")]
  · cases check

theorem same_string (s t : String) : Value.same (.string s) (.string t) = (s == t) :=
  Bool.eq_iff_iff.mpr (by simp [Value.same])

/-- Texts are of one kind, so none of them is converted. -/
theorem alike_string (ρ : Evaluation) (s t : String) : ρ.alike (.string s) (.string t) = (s == t) := by
  have kind : (Value.string s).ctorIdx = (Value.string t).ctorIdx := rfl
  simp only [alike, kind, if_true, same_string]

theorem compares_unequal (ρ : Evaluation) : ∀ op ∈ [.strictNotEq, .notEq], ρ.Compares false op := by
  simp [Compares, comparison?, alike_string, same_string]

theorem compares_equal (ρ : Evaluation) : ∀ op ∈ [.strictEq, .eq], ρ.Compares true op := by
  simp [Compares, comparison?, alike_string, same_string]

/-! ### Tests -/

/-- A conjunction is truthy only if both operands are. -/
theorem value?_and {span : Span} (found : ρ.value? (.logical .and left right span) = some v) (truthy : v.truthy = true) :
    (∃ u, ρ.value? left = some u ∧ u.truthy = true) ∧ ρ.value? right = some v := by
  rw [value?] at found
  cases first : ρ.value? left with
  | none =>
    rw [first] at found
    cases found
  | some u =>
    simp only [first, bind, Option.bind] at found
    split at found
    · rename_i holds
      exact ⟨⟨u, rfl, holds⟩, found⟩
    · rename_i fails
      cases found
      exact absurd truthy fails

/-- A disjunction is falsy only if both operands are. -/
theorem value?_or {span : Span} (found : ρ.value? (.logical .or left right span) = some v) (falsy : v.truthy = false) :
    (∃ u, ρ.value? left = some u ∧ u.truthy = false) ∧ ρ.value? right = some v := by
  rw [value?] at found
  cases first : ρ.value? left with
  | none =>
    rw [first] at found
    cases found
  | some u =>
    simp only [first, bind, Option.bind] at found
    split at found
    · rename_i holds
      cases found
      rw [holds] at falsy
      cases falsy
    · rename_i fails
      exact ⟨⟨u, rfl, Bool.eq_false_iff.mpr fails⟩, found⟩

theorem defined_of_testsDefined (check : test.testsDefined root = true) (found : ρ.value? test = some v)
    (truthy : v.truthy = true) : ρ.Defined root := by
  fun_induction Tree.testsDefined root test generalizing v with
  | case1 inner span ih => exact ih check found truthy
  | case2 left right span first second =>
    obtain ⟨⟨u, value, holds⟩, value'⟩ := value?_and found truthy
    rcases Bool.or_eq_true_iff.mp check with check | check
    · exact first check value holds
    · exact second check value' truthy
  | case3 e =>
    rw [value?_of_comparesTypeof (compares_unequal ρ) check] at found
    cases found
    exact defined_of_typeofName (by simpa [Value.truthy] using truthy)

theorem defined_of_testsUndefined (check : test.testsUndefined root = true) (found : ρ.value? test = some v)
    (falsy : v.truthy = false) : ρ.Defined root := by
  fun_induction Tree.testsUndefined root test generalizing v with
  | case1 inner span ih => exact ih check found falsy
  | case2 left right span first second =>
    obtain ⟨⟨u, value, fails⟩, value'⟩ := value?_or found falsy
    rcases Bool.or_eq_true_iff.mp check with check | check
    · exact first check value fails
    · exact second check value' falsy
  | case3 e =>
    rw [value?_of_comparesTypeof (compares_equal ρ) check] at found
    cases found
    exact defined_of_typeofName (by simpa [Value.truthy] using falsy)

/-- A test that checks for a name and is truthy, or checks against it and is falsy, tells that the name is defined,
whatever the other operands evaluate to. -/
theorem checks_tell (ρ : Evaluation) (root : String) (test : Expr) (v : Value) (found : ρ.value? test = some v) :
    (test.testsDefined root → v.truthy → ρ.Defined root) ∧ (test.testsUndefined root → ¬ v.truthy → ρ.Defined root) :=
  ⟨fun check truthy => defined_of_testsDefined check found truthy,
    fun check falsy => defined_of_testsUndefined check found (Bool.eq_false_iff.mpr falsy)⟩

theorem checks_tell_nested :
    let ρ : Evaluation := ⟨fun name => if name = "window" then some (.object 0 false) else none,
      fun | .call _ _ _ _ => some (.number (.finite 0)) | _ => some (.string "b"), fun _ _ => true⟩
    let check : Expr := .paren (.binary .notEq (.string "undefined" ⟨8, 19⟩)
      (.unary .typeof (.paren (.identifier "window" ⟨31, 37⟩) ⟨30, 38⟩) ⟨23, 38⟩) ⟨8, 38⟩) ⟨7, 39⟩
    let both : Expr := .logical .and (.member (.identifier "a" ⟨0, 1⟩) ⟨"b", ⟨2, 3⟩⟩ false ⟨0, 3⟩) check ⟨0, 39⟩
    let against : Expr := .binary .strictEq (.unary .typeof (.identifier "window" ⟨7, 13⟩) ⟨0, 13⟩)
      (.string "undefined" ⟨18, 29⟩) ⟨0, 29⟩
    let either : Expr := .logical .or against (.call (.identifier "f" ⟨33, 34⟩) [] false ⟨33, 36⟩) ⟨0, 36⟩
    (both.testsDefined "window" ∧ ρ.value? both = some (.boolean true) ∧ ρ.Defined "window") ∧
      either.testsUndefined "window" ∧ ρ.value? either = some (.number (.finite 0)) ∧ ρ.Defined "window" := by
  intro ρ check both against either
  have holds : ρ.value? both = some (.boolean true) := by decide +kernel
  have fails : ρ.value? either = some (.number (.finite 0)) := by decide +kernel
  have checks : both.testsDefined "window" = true := by decide +kernel
  have rules : either.testsUndefined "window" = true := by decide +kernel
  exact ⟨⟨checks, holds, (checks_tell ρ _ _ _ holds).1 checks rfl⟩,
    rules, fails, (checks_tell ρ _ _ _ fails).2 rules (by decide +kernel)⟩

end Evaluation

end SourceRepair.Script
