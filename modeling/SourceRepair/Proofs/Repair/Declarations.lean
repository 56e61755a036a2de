import SourceRepair.Proofs.Repair.Given
import SourceRepair.Proofs.Script.Walk
import SourceRepair.Repair.Catalogue
import SourceRepair.Script.Scope

/-!
# Declarations that become block scoped

A declaration becomes block scoped if no other one by `var` has its names and nothing reads them in front of
it. Parameters, functions and patterns are not counted, and neither is what its own values read.
-/

namespace SourceRepair.Repair

open Script

/-- The declaration by `var` at a node of the walk. -/
def declaration? (v : Visit) : Option VarDeclaration :=
  match v.node with
  | .tree .variableDeclaration (.declaration .var ds span) =>
    some ⟨span, ds.map declaratorName?, isScopeTop v.ancestors⟩
  | _ => none

/-- The declarations that are made by `let`. -/
def converted (src : Source) : List VarDeclaration :=
  let all := varDeclarations src.program
  all.filter fun d =>
    d.convertible src.program all && ['v', 'a', 'r'].isPrefixOf (Text.slice src.text d.span)

/-! ### What a converted declaration is safe from -/

/-- A name that is declared once in all is declared by one of them, and once there. -/
theorem declared_once {all : List VarDeclaration} {d e : VarDeclaration} {name : Option String}
    (once : (all.flatMap VarDeclaration.names).count name = 1) (first : d ∈ all) (second : e ∈ all)
    (named : name ∈ d.names) (named' : name ∈ e.names) : e = d ∧ d.names.count name = 1 := by
  have positive := List.count_pos_iff.mpr named
  have positive' := List.count_pos_iff.mpr named'
  obtain ⟨before, behind, rfl⟩ := List.append_of_mem first
  rw [List.flatMap_append, List.flatMap_cons, List.count_append, List.count_append] at once
  refine ⟨?_, by omega⟩
  -- Another declaration of the name would count as well.
  have among : ∀ {ds : List VarDeclaration}, e ∈ ds → 0 < (ds.flatMap VarDeclaration.names).count name :=
    fun member => List.count_pos_iff.mpr (List.mem_flatMap.mpr ⟨e, member, named'⟩)
  rcases List.mem_append.mp second with other | same
  · have := among other
    omega
  · rcases List.mem_cons.mp same with rfl | other
    · rfl
    · have := among other
      omega

/-- A declaration that becomes block scoped stands at the top of a program or a function body. Each of its
names is a plain one that no other declarator by `var` has, and what is read by that name stands inside of the
declaration or behind it. -/
theorem converted_declared_once {file : SourceFile} {cs : List Char} {p : Program} {v : Visit} {d : VarDeclaration}
    {name : Option String} (laid : p.Laid) (visited : v ∈ p.walk) (declared : declaration? v = some d)
    (kept : d ∈ converted ⟨p, cs, file⟩) (named : name ∈ d.names) :
    isScopeTop v.ancestors ∧ d.names.count name = 1 ∧
      (∀ w ∈ p.walk, ∀ e, declaration? w = some e → name ∈ e.names → e = d) ∧
      ∃ text, name = some text ∧ ∀ w ∈ p.walk, ∀ s, w.node = .tree .expression (.identifier text s) →
        v.node ∈ w.ancestors ∨ v.node.span.stop ≤ s.start := by
  obtain ⟨among, kept⟩ := List.mem_filter.mp kept
  rw [Bool.and_eq_true] at kept
  obtain ⟨top, names⟩ := Bool.and_eq_true_iff.mp kept.1
  have counted := List.all_eq_true.mp names name named
  obtain ⟨span, atTop⟩ : v.node.span = d.span ∧ isScopeTop v.ancestors = d.atTop := by
    unfold declaration? at declared
    split at declared
    · rename_i same
      cases declared
      exact ⟨by rw [same]; rfl, rfl⟩
    · cases declared
  cases name with
  | none => cases counted
  | some text =>
    rw [Bool.and_eq_true] at counted
    obtain ⟨once, reads⟩ := counted
    have once := eq_of_beq once
    refine ⟨atTop.trans top, (declared_once once among among named named).2, ?_, text, rfl, ?_⟩
    · intro w visited' e found named'
      exact (declared_once once among (List.mem_filterMap.mpr ⟨w, visited', found⟩) named named').1
    · intro w visited' s same
      have read : s.start ∈ usesOf p text :=
        List.mem_filterMap.mpr ⟨w, visited', by simp [same]⟩
      have behind := of_decide_eq_true (List.all_eq_true.mp reads _ read)
      have wide : s.start < s.stop := by
        have laid' := laid.of_mem_walk visited'
        rw [same] at laid'
        obtain ⟨lo, hi, order⟩ := laid'
        exact order.sound
      have other : v ≠ w := by
        rintro rfl
        rw [declaration?, same] at declared
        cases declared
      rcases laid.before_or_before visited visited' other with (⟨above, -⟩ | before) | (⟨-, c, child, -⟩ | before)
      · exact .inl above
      · exact .inr (by rwa [same] at before)
      · rw [same] at child
        cases child
      · rw [same, span] at before
        change s.stop ≤ _ at before
        omega

set_option maxRecDepth 100000

/-- A declaration that is read above it stays. -/
example : (parse? .strict ⟨false, false, true, .module⟩ "f(x);\nvar x = 1;\n").map (fun p =>
    (converted ⟨p, "f(x);\nvar x = 1;\n".toList,
      ⟨⟨"a.js"⟩, .script ⟨false, false, true, .module⟩, none⟩⟩).length) = some 0 := by
  decide +kernel

theorem converted_declared_once_read :
    let file : SourceFile := ⟨⟨"a.js"⟩, .script ⟨false, false, true, .module⟩, none⟩
    let text := "var x = 1;\nf(x);\n"
    ∃ (p : Program) (v : Visit) (d : VarDeclaration),
      parseScript .strict file text = .ok p ∧ v ∈ p.walk ∧ declaration? v = some d ∧
      d ∈ converted ⟨p, text.toList, file⟩ ∧ some "x" ∈ d.names ∧ d.names.count (some "x") = 1 ∧
      (∀ w ∈ p.walk, ∀ e, declaration? w = some e → some "x" ∈ e.names → e = d) ∧
      ∀ w ∈ p.walk, ∀ s, w.node = .tree .expression (.identifier "x" s) →
        v.node ∈ w.ancestors ∨ v.node.span.stop ≤ s.start := by
  intro file text
  have found : (parse? .strict ⟨false, false, true, .module⟩ text).map (fun p =>
      (p.stands text.toList 20, p.walk.any fun v => (declaration? v).any fun d =>
        d ∈ converted ⟨p, text.toList, file⟩ ∧ some "x" ∈ d.names)) = some (true, true) := by
    decide +kernel
  obtain ⟨p, read, found⟩ := Option.map_eq_some_iff.mp found
  obtain ⟨stands, found⟩ := Prod.mk.inj found
  obtain ⟨v, visited, shown⟩ := List.any_eq_true.mp found
  obtain ⟨d, declared, shown⟩ := (Option.any_eq_true ..).mp shown
  obtain ⟨kept, named⟩ := of_decide_eq_true shown
  obtain ⟨-, once, others, text, same, reads⟩ :=
    converted_declared_once (Program.Standing.of_stands stands).laid visited declared kept named
  cases same
  exact ⟨p, v, d, parseScript_of_parse rfl read, visited, declared, kept, named, once, others, reads⟩

/-! ### What else declares its names -/

/-- The names that are declared in the scope of a declaration with some nodes around it, which stands at
the top of a program or of the body of a function. -/
def scopeNames : List Node → List String
  | .tree .statement _ :: .program p :: _ => Tree.bodyNames p.body
  | .tree .statement _ :: .tree .functionBody (.body _ statements _) :: .tree _ (.function _ params _) :: _
  | .tree .statement _ :: .tree .functionBody (.body _ statements _) :: .tree _ (.arrow _ params _) :: _ =>
    patternNames params ++ Tree.bodyNames statements
  | _ => []

/-- In `function f(a) { var a = 1; }` the parameter is declared once more by what becomes a `let`. -/
theorem parameter_redeclared :
    let file : SourceFile := ⟨⟨"a.js"⟩, .script ⟨false, false, true, .module⟩, none⟩
    let text := "function f(a) \x7b\n  var a = 1;\n\x7d\n"
    ∃ (p : Program) (v : Visit) (d : VarDeclaration) (done : Rewrite),
      parseScript .strict file text = .ok p ∧ v ∈ p.walk ∧ declaration? v = some d ∧
      d ∈ converted ⟨p, text.toList, file⟩ ∧ some "a" ∈ d.names ∧
      (scopeNames v.ancestors).count "a" = 2 ∧
      applyAll [varToLet] .strict file text = .ok done ∧
      done.code = "function f(a) \x7b\n  let a = 1;\n\x7d\n" := by
  intro file text
  let dialect : Dialect := ⟨false, false, true, .module⟩
  let code := "function f(a) \x7b\n  let a = 1;\n\x7d\n"
  let d : Draft := .change [.replace ⟨18, 21⟩ "let"] .apiMigrated "replaced \x60var\x60 with \x60let\x60" 18
  obtain ⟨p, read⟩ : ∃ p, parse? .strict dialect text = some p :=
    Option.isSome_iff_exists.mp (by decide +kernel)
  have drafted : (parse? .strict dialect text).map
      (fun p => varToLet.draft ⟨p, text.toList, file⟩) = some d := by
    decide +kernel
  have spliced : (Edit.splice d.edits 0 text.toList).toOption = some code.toList := by
    decide +kernel
  have finished := d.finish_of_text (by decide) (by decide) spliced
  have found : (parse? .strict dialect text).map (fun p => p.walk.any fun v =>
      (declaration? v).any fun d => d ∈ converted ⟨p, text.toList, file⟩ ∧ some "a" ∈ d.names ∧
        (scopeNames v.ancestors).count "a" = 2) = some true := by
    decide +kernel
  rw [read] at found
  obtain ⟨v, visited, shown⟩ := List.any_eq_true.mp (Option.some.inj found)
  cases same : declaration? v with
  | none =>
    rw [same] at shown
    cases shown
  | some declared =>
    rw [same] at shown
    obtain ⟨kept, named, twice⟩ := of_decide_eq_true shown
    exact ⟨p, v, declared, _, parseScript_of_parse rfl read, visited, same, kept, named, twice,
      applyAll_of_draft rfl drafted finished (by decide +kernel), rfl⟩

end SourceRepair.Repair
