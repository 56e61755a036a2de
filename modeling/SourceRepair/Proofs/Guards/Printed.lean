import SourceRepair.Proofs.Guards.Outline
import SourceRepair.Proofs.Repair.Given

/-!
# The text of the guarded program

Guards are printed as text around the spans of their nodes, and what the whole text then means is
left to the next reader of it.
-/

namespace SourceRepair.Repair

open Script

/-- The first statement is a test with two sides. -/
def firstHasElse (p : Program) : Bool :=
  match p.body with
  | .ifThen _ _ (some _) _ :: _ => true
  | _ => false

/-- One repair whose text is valid. -/
theorem applyAll_singleton {r : Repair} {leniency : Leniency} {file : SourceFile} {text : String}
    {p q : Program} {done : Rewrite} (script : file.isScript)
    (read : parseScript leniency file text = .ok p)
    (printed : (r.draft ⟨p, text.toList, file⟩).finish text = .ok done)
    (again : parseScript .strict file done.code = .ok q) :
    applyAll [r] leniency file text = .ok done := by
  have valid : validate file done.code = .ok () := by
    unfold SourceFile.isScript SourceFile.dialect? at script
    unfold validate
    cases kind : file.kind with
    | script => rw [again]; rfl
    | json => rw [kind] at script; cases script
  have stepped : step leniency file ⟨text, [], []⟩ r = .ok done := by
    rw [step, read]
    change (do let pass ← (r.draft ⟨p, text.toList, file⟩).finish text; _) = _
    rw [printed]
    rfl
  rw [applyAll, List.foldlM_cons, stepped]
  change (do validate file done.code; pure done) = _
  rw [valid]
  rfl

set_option maxRecDepth 100000

/-- In `if (a) window.f(); else b();` the text of the guard takes the `else` away from the outer
test: what is printed reads without fault, but not as the guarded program. -/
theorem guard_takes_else :
    ∃ (file : SourceFile) (text : String) (p q : Program) (done : Rewrite),
      parseScript .strict file text = .ok p ∧
      applyAll [browserGlobalGuards] .strict file text = .ok done ∧
      parseScript .strict file done.code = .ok q ∧
      q.outline [] ≠ p.outline (guards p) := by
  let dialect : Dialect := ⟨false, false, true, .module⟩
  let file : SourceFile := ⟨⟨"a.js"⟩, .script dialect, none⟩
  let text := "if (a) window.f(); else b();\n"
  let code := "if (a) if (typeof window !== \"undefined\") \x7b window.f(); \x7d else b();\n"
  let edits := Edit.wrap ⟨7, 18⟩ "if (typeof window !== \"undefined\") \x7b " " \x7d" 2
  let note := "guarded \x60window\x60 access with a typeof check"
  obtain ⟨p, read⟩ : ∃ p, parse? .strict dialect text = some p :=
    Option.isSome_iff_exists.mp (by decide +kernel)
  obtain ⟨q, again⟩ : ∃ q, parse? .strict dialect code = some q :=
    Option.isSome_iff_exists.mp (by decide +kernel)
  have dialected : file.dialect? = some dialect := rfl
  have readFile : parseScript .strict file text = .ok p := by
    simp only [parseScript, dialected, read]
  have readAgain : parseScript .strict file code = .ok q := by
    simp only [parseScript, dialected, again]
  have drafted : browserGlobalGuards.draft ⟨p, text.toList, file⟩ =
      ⟨edits, [(.guardAdded, note, 7)], []⟩ := by
    have found : (parse? .strict dialect text).map
        (fun p => browserGlobalGuards.draft ⟨p, text.toList, file⟩) =
          some ⟨edits, [(.guardAdded, note, 7)], []⟩ := by
      decide +kernel
    rw [read] at found
    exact Option.some.inj found
  have spliced : Edit.applyAll edits text = .ok code := by
    have found : (Edit.splice edits 0 text.toList).toOption = some code.toList := by
      decide +kernel
    rw [Edit.applyAll, Edit.sorted_of_pairwise (by decide), ok_of_toOption found]
    exact congrArg Except.ok String.ofList_toList
  have printed : (browserGlobalGuards.draft ⟨p, text.toList, file⟩).finish text =
      .ok ⟨code, [⟨.guardAdded, note, some (Text.location text.toList 7)⟩], []⟩ := by
    rw [drafted, Draft.finish]
    change (do let code ← Edit.applyAll edits text; _) = _
    rw [spliced]
    rfl
  have first : firstHasElse (p.outline (guards p)) = true := by
    have found : (parse? .strict dialect text).map
        (fun p => firstHasElse (p.outline (guards p))) = some true := by
      decide +kernel
    rw [read] at found
    exact Option.some.inj found
  have second : firstHasElse (q.outline []) = false := by
    have found : (parse? .strict dialect code).map (fun q => firstHasElse (q.outline [])) =
        some false := by
      decide +kernel
    rw [again] at found
    exact Option.some.inj found
  refine ⟨file, text, p, q, _, readFile, applyAll_singleton rfl readFile printed readAgain,
    readAgain, fun same => ?_⟩
  rw [same, first] at second
  cases second

end SourceRepair.Repair
