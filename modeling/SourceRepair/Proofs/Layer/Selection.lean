import SourceRepair.Layer.Catalogue
import SourceRepair.Layer.Detect
import SourceRepair.Proofs.Conflicts.Basic
import SourceRepair.Proofs.Guards.Found
import SourceRepair.Proofs.Pipeline.Response

/-!
# What is not selected has nothing to do

Layers are selected by a look at the tree of a script, and the guards of browser globals are found by another look
that knows scopes, checks and chains. Both start at the same nodes, so where the first finds no browser global the
second finds no use to guard. A layer is judged by the text it is given: what an earlier layer wrote is another text.
-/

namespace SourceRepair

open Backup (Archive)
open Disk (Machine)

namespace Layer

open Script (Program)

variable {file : SourceFile} {code : String} {p : Program}

/-! ### Scripts that are read -/

theorem isScript_of_parseScript {leniency : Script.Leniency} (read : parseScript leniency file code = .ok p) :
    file.isScript = true := by
  obtain ⟨dialect, kind, -⟩ := parse_of_parseScript read
  rw [SourceFile.isScript, SourceFile.dialect?, kind]
  rfl

/-- What is read without faults is read the same when faults are forgiven. -/
theorem parseScript_recover (strict : parseScript .strict file code = .ok p) :
    parseScript .recover file code = .ok p := by
  obtain ⟨dialect, kind, parsed⟩ := parse_of_parseScript strict
  have forgiven : Script.parse? .recover dialect code = some p := by
    unfold Script.parse? at parsed ⊢
    split at parsed
    · rename_i program faults source
      split at parsed
      · cases parsed
        rfl
      · cases parsed
    · cases parsed
  exact parseScript_of_parse kind forgiven

theorem validate_of_parseScript (strict : parseScript .strict file code = .ok p) : validate file code = .ok () := by
  obtain ⟨dialect, kind, parsed⟩ := parse_of_parseScript strict
  exact validate_of_parse kind (by rw [parsed]; rfl)

/-! ### What is selected -/

/-- On a script that does not configure the project a layer is selected if it is worth running. -/
theorem mem_select (plain : file.config = none) (script : file.isScript = true) (id : LayerId) :
    id ∈ select file code ↔ (Signals.of file code).wants file id = true := by
  have every : id ∈ LayerId.all := by cases id <;> decide
  rw [select, plain, script]
  simp [every]

theorem wants_hydration (strict : parseScript .strict file code = .ok p) :
    (Signals.of file code).wants file .hydration = p.walk.any (showsBrowserGlobal ·.node) := by
  rw [Signals.of, parseScript_recover strict]
  rfl

/-! ### Nothing to guard -/

/-- Where no node is a browser global no use of one needs a guard. -/
theorem guards_eq_nil (none : p.walk.any (showsBrowserGlobal ·.node) = false) : Repair.guards p = [] := by
  refine List.eq_nil_iff_forall_not_mem.mpr fun g member => ?_
  rcases Repair.of_mem_collect member with first | ⟨v, visited, found, added⟩
  · cases first
  · obtain ⟨root, s, node, isGlobal, -⟩ := Repair.nextGuard?_eq_some (Option.mem_toList.mp added)
    have shown : showsBrowserGlobal v.node = true := by
      rw [node]
      exact List.contains_iff_mem.mpr isGlobal
    exact List.any_eq_false.mp none v visited shown

/-- A layer whose only repair drafts nothing leaves the text as it is. -/
theorem run_of_empty {id : LayerId} {applies : SourceFile → Bool} {repair : Repair}
    (strict : parseScript .strict file code = .ok p) (applied : applies file = true)
    (empty : repair.draft ⟨p, code.toList, file⟩ = {}) :
    (ofRepairs id applies [repair] .strict).run file code = .passthrough id code .unchanged := by
  have valid := validate_of_parseScript strict
  have transformed : (ofRepairs id applies [repair] .strict).transform file code = .ok ⟨code, [], []⟩ := by
    show Repair.applyAll [repair] .strict file code = _
    rw [Repair.applyAll_of_read strict, empty]
    show (do
      validate file code
      return (⟨code, [], []⟩ : Rewrite)) = _
    rw [valid]
    rfl
  have staged : (ofRepairs id applies [repair] .strict).treeStage file code = .ok ⟨code, [], []⟩ := by
    rw [treeStage, transformed]
    simp only [bind, Except.bind, valid]
    rfl
  have applied : (ofRepairs id applies [repair] .strict).applies file = true := applied
  rw [run, applied, staged]
  simp [LayerResult.finished, LayerResult.passthrough, ofRepairs]

theorem hydration_left_out (plain : file.config = none) (strict : parseScript .strict file code = .ok p)
    (out : .hydration ∉ select file code) : hydration.run file code = .passthrough .hydration code .unchanged := by
  have script := isScript_of_parseScript strict
  rw [mem_select plain script, wants_hydration strict, Bool.not_eq_true] at out
  refine run_of_empty strict script ?_
  show Draft.join ((Repair.guards p).map _) = {}
  rw [guards_eq_nil out]
  rfl

theorem testing_left_out (plain : file.config = none) (strict : parseScript .strict file code = .ok p)
    (out : .testing ∉ select file code) : testing.run file code = .passthrough .testing code .skipped := by
  have script := isScript_of_parseScript strict
  rw [mem_select plain script, Signals.wants, Bool.not_eq_true] at out
  have applied : testing.applies file = false := by
    show (file.isScript && file.isTest) = false
    rw [out, Bool.and_false]
  rw [run, applied]
  rfl

theorem id_ofId (store : Learning.Store) (id : LayerId) : (ofId store id).id = id := by
  cases id <;> rfl

end Layer

namespace Pipeline

open Layer (select hydration testing ofId)

variable {a : Archive} {file : SourceFile} {start : String} {layers all : List Layer}

/-! ### Results of a run -/

/-- The result is what one of the layers gives for the text that it took up, with that text again if the new one
could not be written. -/
def Stems (file : SourceFile) (layers : List Layer) (l : LayerResult) : Prop :=
  ∃ layer ∈ layers, l.layer = layer.id ∧ l.changes = (layer.run file l.originalCode).changes ∧
    (l.code = (layer.run file l.originalCode).code ∨ l.code = l.originalCode)

theorem stems_run {layer : Layer} (member : layer ∈ all) (code : String) : Stems file all (layer.run file code) := by
  have taken := (layer.run_outcome file code).originalCode
  refine ⟨layer, member, (layer.run_outcome file code).layer, ?_, .inl ?_⟩ <;> rw [taken]

theorem stems_concat {ls : List LayerResult} {l : LayerResult} (before : ∀ k ∈ ls, Stems file all k)
    (last : Stems file all l) : ∀ k ∈ ls ++ [l], Stems file all k :=
  List.forall_mem_append.mpr ⟨before, List.forall_mem_singleton.mpr last⟩

theorem Course.stems {s s' : Standing} {books books' : Bookkeeping} {m m' : Machine} {ms : List Disk.Move}
    (course : Course a file start layers s books m s' books' m' ms) (among : layers ⊆ all)
    (before : ∀ l ∈ s.response.layers, Stems file all l) : ∀ l ∈ s'.response.layers, Stems file all l := by
  induction course with
  | done => exact before
  | failed _ ended =>
    rw [(halt_gives ended).1]
    exact stems_concat before (stems_run (among List.mem_cons_self) _)
  | unchanged _ _ _ ih =>
    exact ih (List.subset_of_cons_subset among) (stems_concat before (stems_run (among List.mem_cons_self) _))
  | written _ _ _ _ ih =>
    refine ih (List.subset_of_cons_subset among) (stems_concat before ?_)
    exact stems_run (among List.mem_cons_self) _
  | refused _ _ _ ended =>
    obtain ⟨layer, member, id, changes, -⟩ : Stems file all (Layer.run _ file _) :=
      stems_run (among List.mem_cons_self) _
    rw [(halt_gives ended).1]
    exact stems_concat before ⟨layer, member, id, changes, .inr rfl⟩

theorem stems_chain (among : layers ⊆ all) (code : String) : ∀ l ∈ chain file layers code, Stems file all l := by
  induction layers generalizing code with
  | nil => exact List.forall_mem_nil _
  | cons layer rest ih =>
    exact List.forall_mem_cons.mpr
      ⟨stems_run (among List.mem_cons_self) code, ih (List.subset_of_cons_subset among) _⟩

/-- Whatever a run does, each of its results is what one of its layers gives for a text. -/
theorem stems_of_run (a : Archive) (layers : List Layer) (file : SourceFile) (code : String) (options : Options)
    (books : Bookkeeping) (m : Machine) :
    ∀ l ∈ (((run a layers file code options).run books).run m).1.1.layers, Stems file layers l := by
  obtain ⟨write, applyFixes⟩ := options
  cases write with
  | false =>
    rw [run_dry]
    have listed : (forecast file layers code).response.layers = chain file layers code :=
      (layers_foldl_advance _ _).trans (List.nil_append _)
    show ∀ l ∈ (forecast file layers code).response.layers, Stems file layers l
    rw [listed]
    exact stems_chain (List.Subset.refl _) code
  | true =>
    obtain ⟨s, course, ended⟩ := course_of_run (Disk.Program.gives_run
      ((run a layers file code ⟨true, applyFixes⟩).run books) m)
    rw [ended]
    exact course.stems (List.Subset.refl _) (List.forall_mem_nil _)

/-! ### Selected by hand or by content -/

/-- On a text that can be read, the layers of guards and of tests do nothing where they are not selected by its
content. So in a run of any layers none of their results changes a text for which they would not be selected. -/
theorem selection_misses_nothing (file : SourceFile) (plain : file.config = none) :
    (∀ code program, parseScript .strict file code = .ok program →
      (.hydration ∉ select file code → hydration.run file code = .passthrough .hydration code .unchanged) ∧
      (.testing ∉ select file code → testing.run file code = .passthrough .testing code .skipped)) ∧
    ∀ (a : Archive) (store : Learning.Store) (ids : List LayerId) (code : String) (options : Options)
      (books : Bookkeeping) (m : Machine),
      ∀ l ∈ (((run a (ids.map (ofId store)) file code options).run books).run m).1.1.layers,
        l.layer = .hydration ∨ l.layer = .testing → l.layer ∉ select file l.originalCode →
          (∃ program, parseScript .strict file l.originalCode = .ok program) →
            l.changes = [] ∧ l.code = l.originalCode := by
  have idle : ∀ code program, parseScript .strict file code = .ok program →
      (.hydration ∉ select file code → hydration.run file code = .passthrough .hydration code .unchanged) ∧
      (.testing ∉ select file code → testing.run file code = .passthrough .testing code .skipped) :=
    fun code program strict => ⟨Layer.hydration_left_out plain strict, Layer.testing_left_out plain strict⟩
  refine ⟨idle, fun a store ids code options books m l member either out ⟨program, strict⟩ => ?_⟩
  obtain ⟨layer, listed, id, changes, codes⟩ := stems_of_run a _ file code options books m l member
  obtain ⟨id', -, rfl⟩ := List.mem_map.mp listed
  rw [Layer.id_ofId] at id
  subst id
  have passed : ∃ strategy, (ofId store l.layer).run file l.originalCode =
      .passthrough l.layer l.originalCode strategy := by
    rcases either with which | which
    · rw [which] at out ⊢
      exact ⟨_, (idle _ program strict).1 out⟩
    · rw [which] at out ⊢
      exact ⟨_, (idle _ program strict).2 out⟩
  obtain ⟨strategy, passed⟩ := passed
  rw [passed] at changes codes
  exact ⟨changes, codes.elim id id⟩

theorem selection_misses_nothing_small :
    let file : SourceFile := ⟨⟨"a.js"⟩, .script ⟨false, false, true, .module⟩, none⟩
    file.config = none ∧ (∃ p, parseScript .strict file "a" = .ok p) ∧ .hydration ∉ select file "a" ∧
      hydration.run file "a" = .passthrough .hydration "a" .unchanged ∧
      testing.run file "a" = .passthrough .testing "a" .skipped := by
  intro file
  have read : (Script.parse? .strict ⟨false, false, true, .module⟩ "a").isSome = true := by decide +kernel
  obtain ⟨p, read⟩ := Option.isSome_iff_exists.mp read
  have strict : parseScript .strict file "a" = .ok p := parseScript_of_parse rfl read
  have guards : .hydration ∉ select file "a" := by decide +kernel
  have tests : .testing ∉ select file "a" := by decide +kernel
  have idle := (selection_misses_nothing file rfl).1 "a" p strict
  exact ⟨rfl, ⟨p, strict⟩, guards, idle.1 guards, idle.2 tests⟩

end Pipeline

end SourceRepair
