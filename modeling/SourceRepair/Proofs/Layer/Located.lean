import SourceRepair.Layer.Catalogue
import SourceRepair.Proofs.Layer.Run
import SourceRepair.Proofs.Repair.Constructs
import SourceRepair.Proofs.Repair.Given
import SourceRepair.Proofs.Repair.Recorded
import SourceRepair.Proofs.Text.Line

/-!
# Where changes are located

Each repair of a layer is given the text that the repairs before it left, and locates its changes in
that. So the line and column of a change are those of its construct in the text of the layer as long as
the text before the construct is still that of the layer, and certainly if no repair before it reported
anything; where an earlier repair took a line away they are not.
-/

/-!
## A layer that changes its text says so

Whether the text of a layer is written is decided by the number of its changes. So each stage of each
layer must report a change whenever it gives another text: the repairs of the tree, the completion of
JSON files, the pattern rules and the rules that were learned.
-/

namespace SourceRepair

variable {file : SourceFile} {text : String}

/-! ### Pattern rules -/

namespace Fallback

theorem leadsTo_of_step (file : SourceFile) (done : Rewrite) (r : Rule) :
    done.LeadsTo (step file done r) := by
  unfold step
  cases applied : r.apply file done.code.toList with
  | none => exact .refl _
  | some result =>
    obtain ⟨code, count⟩ := result
    refine ⟨_, rfl, fun none => ?_⟩
    -- a rule that applies has changed some place
    have some : 0 < count := by
      unfold Rule.apply at applied
      split at applied
      · split at applied
        · rename_i both
          cases applied
          simp only [Bool.and_eq_true, decide_eq_true_eq] at both
          exact both.1
        · cases applied
      · cases applied
    rw [List.replicate_eq_nil_iff] at none
    omega

theorem code_of_apply {layer : LayerId} (none : (apply layer file text).changes = []) :
    (apply layer file text).code = text := by
  suffices leads : ∀ (rules : List Rule) (done : Rewrite), done.LeadsTo (rules.foldl (step file) done) from
    (leads (rulesFor layer) ⟨text, [], []⟩).code_eq none
  intro rules
  induction rules with
  | nil => exact .refl
  | cons r rest ih => exact fun done => (leadsTo_of_step file done r).trans (ih _)

end Fallback

/-! ### Learned rules -/

namespace Learning.Store

/-- A rule leaves everything as it was, or its description is added. -/
theorem applyRule_cases (s : Store) (done : Applied) (r : Rule) :
    s.applyRule done r = done ∨
      (s.applyRule done r).descriptions = done.descriptions ++ [r.description] := by
  unfold applyRule
  split
  · exact .inl rfl
  · split
    · exact .inr rfl
    · exact .inl rfl

theorem code_of_applyRules {s : Store} (none : (s.applyRules text).descriptions = []) :
    (s.applyRules text).code = text := by
  suffices leads : ∀ (rules : List Rule) (done : Applied), ∃ more,
      (rules.foldl s.applyRule done).descriptions = done.descriptions ++ more ∧
        (more = [] → (rules.foldl s.applyRule done).code = done.code) by
    obtain ⟨more, added, same⟩ := leads s.active ⟨text, []⟩
    exact same (added.symm.trans none)
  intro rules
  induction rules with
  | nil => exact fun done => ⟨[], by simp, fun _ => rfl⟩
  | cons r rest ih =>
    intro done
    obtain ⟨more, added, same⟩ := ih (s.applyRule done r)
    rw [List.foldl_cons]
    rcases applyRule_cases s done r with idle | described
    · rw [idle] at added same ⊢
      exact ⟨more, added, same⟩
    · exact ⟨r.description :: more, by rw [added, described, List.append_assoc]; rfl, nofun⟩

end Learning.Store

/-! ### Layers -/

namespace Layer

/-- How the tree stage of a layer makes its text: by repairs, by completing JSON, or by the rules of the
store. -/
inductive Means (store : Learning.Store) (file : SourceFile) (text : String) :
    Except Failure Rewrite → Prop
  | repairs (repairs : List Repair) (leniency : Script.Leniency)
      (known : ∀ r ∈ repairs, r ∈ Repair.catalogue) :
      Means store file text (Repair.applyAll repairs leniency file text)
  | json : Means store file text (Repair.normalizeJson file text)
  | rules : Means store file text ((adaptive store).transform file text)

theorem means_of_transform (store : Learning.Store) (id : LayerId) (file : SourceFile)
    (text : String) : Means store file text ((ofId store id).transform file text) := by
  cases id with
  | config =>
    simp only [ofId, builtin?, Option.getD_some, config]
    split
    · exact .json
    · exact .repairs _ _ (by simp [Repair.catalogue])
  | adaptive => exact .rules
  | _ =>
    simp only [ofId, builtin?, Option.getD_some, patterns, components, hydration, framework, testing,
      ofRepairs]
    exact .repairs _ _ (by simp [Repair.catalogue])

/-- The tree stage of a layer that reports no change leaves its text. -/
theorem code_of_transform {store : Learning.Store} {id : LayerId} {done : Rewrite}
    (ran : (ofId store id).transform file text = .ok done) (none : done.changes = []) :
    done.code = text := by
  have means := means_of_transform store id file text
  generalize (ofId store id).transform file text = result at ran means
  subst ran
  generalize same : Except.ok done = result at means
  cases means with
  | repairs repairs leniency known =>
    exact Repair.code_of_applyAll
      (fun r member => Repair.records_of_mem_catalogue r (known r member)) same.symm none
  | json => exact Repair.code_of_normalizeJson same.symm none
  | rules =>
    obtain rfl := Except.ok.inj same
    exact Learning.Store.code_of_applyRules (List.map_eq_nil_iff.mp none)

theorem code_of_fallback {store : Learning.Store} {id : LayerId}
    (none : ((ofId store id).fallback file text).changes = []) :
    ((ofId store id).fallback file text).code = text := by
  have rules : (ofId store id).fallback file text = Fallback.apply id file text := by
    cases id <;> simp only [ofId, builtin?, Option.getD_some, Option.getD_none, config, patterns,
      components, hydration, framework, testing, adaptive, ofRepairs]
  rw [rules] at none ⊢
  exact Fallback.code_of_apply none

/-- A layer whose result has another text reports a change, and one that reports none gives its text
back. So do its two stages, each by itself. -/
theorem changed_of_code (store : Learning.Store) (id : LayerId) (file : SourceFile) (code : String) :
    let l := ofId store id
    (∀ done, l.transform file code = .ok done → done.changes = [] → done.code = code) ∧
    ((l.fallback file code).changes = [] → (l.fallback file code).code = code) ∧
    ((l.run file code).code ≠ code → 0 < (l.run file code).changeCount) ∧
    ((l.run file code).changes = [] → (l.run file code).code = code) := by
  intro l
  have kept : (l.run file code).changes = [] → (l.run file code).code = code := by
    have ended := l.run_outcome file code
    generalize l.run file code = r at ended
    intro none
    cases ended with
    | finished produced =>
      rcases produced with transformed | rfl
      · exact code_of_transform transformed none
      · exact code_of_fallback none
    | _ => rfl
  refine ⟨fun _ => code_of_transform, code_of_fallback, fun other => ?_, kept⟩
  rw [(l.run_outcome file code).changeCount, List.length_pos_iff]
  exact fun none => other (kept none)

end Layer

end SourceRepair

/-! ## Locations -/

namespace SourceRepair

variable {leniency : Script.Leniency} {file : SourceFile} {text code : String} {c : Change} {offset : Nat}

/-- What the change is about starts at the offset in the text, and the location of the change is that of
the offset. -/
def Change.LocatedIn (leniency : Script.Leniency) (file : SourceFile) (text : String) (c : Change)
    (offset : Nat) : Prop :=
  ∃ program, parseScript leniency file text = .ok program ∧
    Repair.Construct ⟨program, text.toList, file⟩ c.kind c.description offset ∧
    c.location = some (Text.location text.toList offset)

/-- What a change from `var` to `let` is about is the keyword. -/
theorem Repair.Construct.var_stands {src : Source} {kind : ChangeKind} {description : String}
    (construct : Construct src kind description offset) (migrated : kind = .apiMigrated)
    (told : description = "replaced \x60var\x60 with \x60let\x60") :
    Text.StandsAt "var".toList src.text offset := by
  cases construct with
  | keyword _ stands => exact stands
  | router | anchor | rendering | reactDom => exact absurd told (by decide)
  | _ => cases migrated

/-! ### Repairs in order -/

namespace Repair

variable {start done next : Rewrite} {r : Repair} {repairs : List Repair}

theorem located_of_step (points : r.Points) (ran : step leniency file start r = .ok next)
    (member : c ∈ next.changes) :
    c ∈ start.changes ∨ ∃ offset, c.LocatedIn leniency file start.code offset := by
  obtain ⟨program, pass, read, finished, rfl⟩ := step_ok ran
  rcases List.mem_append.mp member with before | new
  · exact .inl before
  · rw [(Draft.finish_ok finished).1] at new
    obtain ⟨note, noted, rfl⟩ := List.mem_map.mp new
    exact .inr ⟨note.2.2, program, read, points _ note noted, rfl⟩

/-- Each change that is added by repairs in order is located in the text that its repair was given. -/
theorem located_of_foldlM (points : ∀ r ∈ repairs, r.Points)
    (ran : repairs.foldlM (step leniency file) start = .ok done) (member : c ∈ done.changes) :
    c ∈ start.changes ∨ ∃ (before : List Repair) (r : Repair) (after : List Repair)
      (earlier : Rewrite) (offset : Nat), repairs = before ++ r :: after ∧
      before.foldlM (step leniency file) start = .ok earlier ∧
      c.LocatedIn leniency file earlier.code offset := by
  induction repairs generalizing start with
  | nil =>
    cases ran
    exact .inl member
  | cons r rest ih =>
    rw [List.foldlM_cons] at ran
    obtain ⟨next, stepped, ran⟩ := bind_ok ran
    -- the changes of the first repair are the ones that the rest start with
    rcases ih (fun q inside => points q (List.mem_cons_of_mem _ inside)) ran with
      early | ⟨before, q, after, earlier, offset, rfl, gone, located⟩
    · rcases located_of_step (points r List.mem_cons_self) stepped early with older | ⟨offset, located⟩
      · exact .inl older
      · exact .inr ⟨[], r, rest, start, offset, rfl, rfl, located⟩
    · refine .inr ⟨r :: before, q, after, earlier, offset, rfl, ?_, located⟩
      rw [List.foldlM_cons, stepped]
      exact gone

end Repair

/-! ### Layers -/

namespace Layer

variable {l : Layer} {done : Rewrite} {repairs : List Repair}

/-- A layer whose tree stage succeeds reports the changes of that stage. -/
theorem changes_of_treeStage (passed : l.treeStage file code = .ok done) :
    (l.run file code).changes = if l.applies file then done.changes else [] := by
  unfold run
  cases l.applies file with
  | false => rfl
  | true =>
    rw [passed]
    rfl

/-- Each change of a layer whose tree stage runs repairs in order is located in the text that its repair
was given. If no repair before it reported a change that is the text of the layer, and if the two texts
are the same up to what the change is about, its line and column are those in the text of the layer. A
change from `var` to `let` is located at the keyword. -/
theorem change_located (known : ∀ r ∈ repairs, r ∈ Repair.catalogue)
    (built : l.transform file code = Repair.applyAll repairs leniency file code)
    (passed : l.treeStage file code = .ok done) (member : c ∈ (l.run file code).changes) :
    ∃ (before : List Repair) (r : Repair) (after : List Repair) (earlier : Rewrite) (offset : Nat),
      repairs = before ++ r :: after ∧
      before.foldlM (Repair.step leniency file) ⟨code, [], []⟩ = .ok earlier ∧
      c.LocatedIn leniency file earlier.code offset ∧
      (earlier.changes = [] → c.LocatedIn leniency file code offset) ∧
      (Text.SameUpTo offset earlier.code.toList code.toList →
        c.location = some (Text.location code.toList offset)) ∧
      (c.kind = .apiMigrated → c.description = "replaced \x60var\x60 with \x60let\x60" →
        Text.StandsAt "var".toList earlier.code.toList offset ∧
        (Text.SameUpTo (offset + 3) earlier.code.toList code.toList →
          Text.StandsAt "var".toList code.toList offset)) := by
  have produced : c ∈ done.changes := by
    rw [changes_of_treeStage passed] at member
    split at member
    · exact member
    · cases member
  obtain ⟨ran, _⟩ := Repair.applyAll_ok (built.symm.trans (treeStage_ok passed).1)
  rcases Repair.located_of_foldlM (fun r inside => Repair.points_of_mem_catalogue r (known r inside))
    ran produced with none | ⟨before, r, after, earlier, offset, rfl, gone, located⟩
  · cases none
  obtain ⟨program, read, construct, told⟩ := located
  refine ⟨before, r, after, earlier, offset, rfl, gone, ⟨program, read, construct, told⟩,
    fun quiet => ?_, fun same => ?_, fun migrated described => ?_⟩
  · -- edits are recorded, so a text without changes has not been edited
    have recorded : ∀ q ∈ before, q.Records := fun q inside =>
      Repair.records_of_mem_catalogue q (known q (List.mem_append_left _ inside))
    have same : earlier.code = code := (Repair.leadsTo_of_foldlM recorded gone).code_eq quiet
    exact same ▸ ⟨program, read, construct, told⟩
  · rw [told, Text.location_of_sameUpTo same]
  · have stands := construct.var_stands migrated described
    exact ⟨stands, fun same => stands.transfer same⟩

/-- The repairs of the second layer, one after the other. -/
theorem treeStage_patterns {decoded cleared : Rewrite}
    (first : Repair.step .strict file ⟨code, [], []⟩ Repair.decodeEntities = .ok decoded)
    (second : Repair.step .strict file decoded Repair.removeDiagnostics = .ok cleared)
    (third : Repair.step .strict file cleared Repair.varToLet = .ok done)
    (valid : validate file done.code = .ok ()) : patterns.treeStage file code = .ok done := by
  have transformed : patterns.transform file code = .ok done := by
    change Repair.applyAll [Repair.decodeEntities, Repair.removeDiagnostics, Repair.varToLet] .strict
      file code = .ok done
    simp only [Repair.applyAll, List.foldlM_cons, List.foldlM_nil, first, second, third, valid, bind,
      Except.bind, pure, Except.pure]
  simp only [treeStage, transformed, valid, bind, Except.bind, pure, Except.pure]

set_option maxRecDepth 100000

/-- In a module of one declaration the keyword is replaced where it stands. -/
theorem change_located_small :
    let file : SourceFile := ⟨⟨"a.js"⟩, .script ⟨false, false, true, .module⟩, none⟩
    let code := "var a = 1;\n"
    let c : Change := ⟨.apiMigrated, "replaced \x60var\x60 with \x60let\x60", some ⟨1, 1⟩⟩
    let repairs := [Repair.decodeEntities, Repair.removeDiagnostics, Repair.varToLet]
    (∀ r ∈ repairs, r ∈ Repair.catalogue) ∧
      patterns.transform file code = Repair.applyAll repairs .strict file code ∧
      patterns.treeStage file code = .ok ⟨"let a = 1;\n", [c], []⟩ ∧
      c ∈ (patterns.run file code).changes ∧
      ∃ (before : List Repair) (r : Repair) (after : List Repair) (earlier : Rewrite) (offset : Nat),
        repairs = before ++ r :: after ∧
        before.foldlM (Repair.step .strict file) ⟨code, [], []⟩ = .ok earlier ∧
        c.LocatedIn .strict file earlier.code offset ∧
        (earlier.changes = [] → c.LocatedIn .strict file code offset) ∧
        (Text.SameUpTo offset earlier.code.toList code.toList →
          c.location = some (Text.location code.toList offset)) ∧
        (c.kind = .apiMigrated → c.description = "replaced \x60var\x60 with \x60let\x60" →
          Text.StandsAt "var".toList earlier.code.toList offset ∧
          (Text.SameUpTo (offset + 3) earlier.code.toList code.toList →
            Text.StandsAt "var".toList code.toList offset)) := by
  intro file code c repairs
  have known : ∀ r ∈ repairs, r ∈ Repair.catalogue := by simp [repairs, Repair.catalogue]
  have decoded : Repair.step .strict file ⟨code, [], []⟩ Repair.decodeEntities =
      .ok ⟨code, [], []⟩ :=
    Repair.step_of_idle rfl (by decide +kernel)
  have removed : Repair.step .strict file ⟨code, [], []⟩ Repair.removeDiagnostics =
      .ok ⟨code, [], []⟩ :=
    Repair.step_of_idle rfl (by decide +kernel)
  have drafted : (Script.parse? .strict ⟨false, false, true, .module⟩ code).map
      (fun p => Repair.varToLet.draft ⟨p, code.toList, file⟩) =
        some (.change [.replace ⟨0, 3⟩ "let"] .apiMigrated c.description 0) := by
    decide +kernel
  have spliced : (Edit.splice [.replace ⟨0, 3⟩ "let"] 0 code.toList).toOption =
      some "let a = 1;\n".toList := by
    decide +kernel
  have located : Text.location code.toList 0 = ⟨1, 1⟩ := by decide +kernel
  have migrated : Repair.step .strict file ⟨code, [], []⟩ Repair.varToLet =
      .ok ⟨"let a = 1;\n", [c], []⟩ :=
    Repair.step_of_edit rfl drafted spliced located
  have passed : patterns.treeStage file code = .ok ⟨"let a = 1;\n", [c], []⟩ :=
    treeStage_patterns decoded removed migrated (validate_of_parse rfl (by decide +kernel))
  have member : c ∈ (patterns.run file code).changes := by
    rw [changes_of_treeStage passed, if_pos (show patterns.applies file = true from rfl)]
    exact List.mem_singleton_self c
  exact ⟨known, rfl, passed, member, change_located known rfl passed member⟩

/-- Behind a removed line the keyword is reported a line above the only place where it stands. -/
theorem location_after_removed_line :
    let file : SourceFile := ⟨⟨"a.js"⟩, .script ⟨false, false, true, .module⟩, none⟩
    let code := "console.log(1);\nvar a = 1;\n"
    ∃ (done : Rewrite) (c : Change), patterns.treeStage file code = .ok done ∧ c ∈ (patterns.run file code).changes ∧
      c.kind = .apiMigrated ∧ c.description = "replaced \x60var\x60 with \x60let\x60" ∧
      c.location = some ⟨1, 1⟩ ∧
      ∀ offset, Text.StandsAt "var".toList code.toList offset →
        Text.location code.toList offset = ⟨2, 1⟩ := by
  intro file code
  let diagnostic : Change := ⟨.diagnosticRemoved, "removed \x60console.log\x60 statement", some ⟨1, 1⟩⟩
  let c : Change := ⟨.apiMigrated, "replaced \x60var\x60 with \x60let\x60", some ⟨1, 1⟩⟩
  let rest := "var a = 1;\n"
  have decoded : Repair.step .strict file ⟨code, [], []⟩ Repair.decodeEntities =
      .ok ⟨code, [], []⟩ :=
    Repair.step_of_idle rfl (by decide +kernel)
  have found : (Script.parse? .strict ⟨false, false, true, .module⟩ code).map
      (fun p => Repair.removeDiagnostics.draft ⟨p, code.toList, file⟩) =
        some (.change [.remove ⟨0, 16⟩] .diagnosticRemoved diagnostic.description 0) := by
    decide +kernel
  have cut : (Edit.splice [.remove ⟨0, 16⟩] 0 code.toList).toOption = some rest.toList := by
    decide +kernel
  have atStart : Text.location code.toList 0 = ⟨1, 1⟩ := by decide +kernel
  have removed : Repair.step .strict file ⟨code, [], []⟩ Repair.removeDiagnostics =
      .ok ⟨rest, [diagnostic], []⟩ :=
    Repair.step_of_edit rfl found cut atStart
  have drafted : (Script.parse? .strict ⟨false, false, true, .module⟩ rest).map
      (fun p => Repair.varToLet.draft ⟨p, rest.toList, file⟩) =
        some (.change [.replace ⟨0, 3⟩ "let"] .apiMigrated c.description 0) := by
    decide +kernel
  have spliced : (Edit.splice [.replace ⟨0, 3⟩ "let"] 0 rest.toList).toOption =
      some "let a = 1;\n".toList := by
    decide +kernel
  have located : Text.location rest.toList 0 = ⟨1, 1⟩ := by decide +kernel
  have migrated : Repair.step .strict file ⟨rest, [diagnostic], []⟩ Repair.varToLet =
      .ok ⟨"let a = 1;\n", [diagnostic, c], []⟩ :=
    Repair.step_of_edit rfl drafted spliced located
  have passed : patterns.treeStage file code = .ok ⟨"let a = 1;\n", [diagnostic, c], []⟩ :=
    treeStage_patterns decoded removed migrated (validate_of_parse rfl (by decide +kernel))
  refine ⟨_, c, passed, ?_, rfl, rfl, rfl, fun offset stands => ?_⟩
  · rw [changes_of_treeStage passed, if_pos (show patterns.applies file = true from rfl)]
    exact List.mem_cons_of_mem _ (List.mem_singleton_self c)
  · obtain ⟨k, short, prefixed, rfl⟩ := stands.exists_drop
    have only : ∀ k ≤ code.toList.length, "var".toList <+: code.toList.drop k → k = 16 := by
      decide +kernel
    obtain rfl := only k short prefixed
    decide +kernel

end Layer

end SourceRepair
