import SourceRepair.Repair.Catalogue

/-!
# Edits are recorded

Whatever a repair edits it records as a change: a draft without changes has no edits. So repairs that
report nothing leave the text as it is, however many run one after the other, and the same holds of the
completion of JSON files.
-/

namespace SourceRepair

theorem bind_ok {ε α β : Type} {x : Except ε α} {f : α → Except ε β} {b : β}
    (done : x >>= f = .ok b) : ∃ a, x = .ok a ∧ f a = .ok b := by
  cases x with
  | error => cases done
  | ok a => exact ⟨a, rfl, done⟩

/-- Where there are edits there are changes. -/
def Draft.Recorded (d : Draft) : Prop := d.changes = [] → d.edits = []

/-- The second rewrite goes on from the first: it adds changes, and if it adds none it has the same
text. -/
def Rewrite.LeadsTo (a b : Rewrite) : Prop :=
  ∃ more, b.changes = a.changes ++ more ∧ (more = [] → b.code = a.code)

namespace Rewrite.LeadsTo

variable {a b c : Rewrite}

theorem refl (a : Rewrite) : a.LeadsTo a := ⟨[], by simp, fun _ => rfl⟩

theorem trans (first : a.LeadsTo b) (second : b.LeadsTo c) : a.LeadsTo c := by
  obtain ⟨some, added, same⟩ := first
  obtain ⟨more, further, still⟩ := second
  refine ⟨some ++ more, by rw [further, added, List.append_assoc], fun none => ?_⟩
  obtain ⟨rfl, rfl⟩ := List.append_eq_nil_iff.mp none
  exact (still rfl).trans (same rfl)

/-- A rewrite that goes on from a text without changes and has none has that text. -/
theorem code_eq {text : String} (leads : (Rewrite.mk text [] []).LeadsTo b) (none : b.changes = []) :
    b.code = text := by
  obtain ⟨more, added, same⟩ := leads
  exact same (by simpa [none] using added.symm)

end Rewrite.LeadsTo

namespace Draft

@[simp] theorem changes_append (a b : Draft) : (a ++ b).changes = a.changes ++ b.changes := rfl

@[simp] theorem edits_append (a b : Draft) : (a ++ b).edits = a.edits ++ b.edits := rfl

theorem recorded_none (warnings : List String) : Recorded ⟨[], [], warnings⟩ := fun _ => rfl

theorem recorded_empty : Recorded {} := fun _ => rfl

theorem recorded_change (edits : List Edit) (kind : ChangeKind) (description : String) (offset : Nat) :
    Recorded (.change edits kind description offset) := nofun

theorem recorded_of_changes {d : Draft} (some : d.changes ≠ []) : d.Recorded :=
  fun none => absurd none some

theorem Recorded.append {a b : Draft} (first : a.Recorded) (second : b.Recorded) : (a ++ b).Recorded := by
  intro none
  rw [changes_append, List.append_eq_nil_iff] at none
  rw [edits_append, first none.1, second none.2]
  rfl

theorem recorded_join {ds : List Draft} (all : ∀ d ∈ ds, d.Recorded) : (join ds).Recorded := by
  intro none
  refine List.flatMap_eq_nil_iff.mpr fun d member => all d member ?_
  exact List.flatMap_eq_nil_iff.mp none d member

/-- The drafts of those items for which there is one. -/
theorem recorded_join_filterMap {α : Type} {items : List α} {draft? : α → Option Draft}
    (all : ∀ a d, draft? a = some d → d.Recorded) : (join (items.filterMap draft?)).Recorded :=
  recorded_join (List.forall_mem_filterMap.mpr fun a _ => all a)

theorem recorded_join_map {α : Type} {items : List α} {draft : α → Draft}
    (all : ∀ a ∈ items, (draft a).Recorded) : (join (items.map draft)).Recorded :=
  recorded_join (List.forall_mem_map.mpr all)

/-- What finishing a draft gives: its changes with their locations, and the text if it has no edits. -/
theorem finish_ok {d : Draft} {text : String} {r : Rewrite} (done : d.finish text = .ok r) :
    r.changes = d.changes.map (fun c =>
      ⟨c.1, c.2.1, some (Text.location text.toList c.2.2)⟩) ∧ (d.edits = [] → r.code = text) := by
  unfold finish at done
  by_cases none : d.edits = []
  · simp only [none, List.isEmpty_nil, if_true] at done
    cases done
    exact ⟨rfl, fun _ => rfl⟩
  · rw [if_neg (by simpa using none)] at done
    obtain ⟨code, _, done⟩ := bind_ok done
    cases done
    exact ⟨rfl, fun empty => absurd empty none⟩

end Draft

namespace Repair

/-- The repair records a change wherever it edits. -/
def Records (r : Repair) : Prop := ∀ src, (r.draft src).Recorded

open Draft (recorded_change recorded_empty recorded_none recorded_of_changes recorded_join
  recorded_join_filterMap recorded_join_map)

/-! ### Each repair -/

theorem records_nextConfigFlags : nextConfigFlags.Records := by
  intro src
  unfold nextConfigFlags
  dsimp only
  split
  · refine recorded_join_filterMap fun v d shown => ?_
    split at shown
    · split at shown
      · cases shown
      · rename_i removed some
        cases shown
        refine recorded_of_changes ?_
        simpa [objectDraft] using some
    · cases shown
  · exact recorded_empty

theorem records_decodeEntities : decodeEntities.Records := by
  refine fun src => recorded_join_filterMap fun span d shown => ?_
  obtain ⟨decoded, _, rfl⟩ := Option.map_eq_some_iff.mp shown
  exact recorded_change _ _ _ _

theorem records_removeDiagnostics : removeDiagnostics.Records :=
  fun _ => recorded_join_map fun _ _ => recorded_change _ _ _ _

theorem records_varToLet : varToLet.Records :=
  fun _ => recorded_join_map fun _ _ => recorded_change _ _ _ _

theorem records_listKeys : listKeys.Records := by
  refine fun src => recorded_join_filterMap fun f d shown => ?_
  obtain ⟨e, _, shown⟩ := Option.bind_eq_some_iff.mp shown
  split at shown
  · cases shown
  · obtain ⟨index, _, shown⟩ := Option.bind_eq_some_iff.mp shown
    cases shown
    exact recorded_change _ _ _ _

theorem records_intrinsicAttributes : intrinsicAttributes.Records := by
  refine fun src => recorded_join_map fun e _ => recorded_join_filterMap fun required d shown => ?_
  obtain ⟨tag, key, text⟩ := required
  dsimp only at shown
  split at shown
  · cases shown
    exact recorded_change _ _ _ _
  · cases shown

theorem records_mergeImports : mergeImports.Records := by
  refine fun src => recorded_join_map fun group _ => ?_
  unfold mergeGroup
  split
  · exact recorded_of_changes (by simp)
  · exact recorded_empty

theorem records_reactImport : reactImport.Records := by
  intro src
  unfold reactImport
  dsimp only
  split
  · exact recorded_empty
  · split <;> exact recorded_change _ _ _ _

theorem records_effectCleanup : effectCleanup.Records := by
  refine fun src => recorded_join_map fun statements _ => ?_
  unfold effectDraft
  split
  · exact recorded_empty
  · split
    · exact recorded_empty
    · dsimp only
      split
      · exact recorded_none _
      · rename_i some
        exact recorded_of_changes (by simpa using some)

theorem records_browserGlobalGuards : browserGlobalGuards.Records :=
  fun _ => recorded_join_map fun _ _ => recorded_change _ _ _ _

theorem records_clientDirective : clientDirective.Records := by
  intro src
  unfold clientDirective
  dsimp only
  split
  · exact recorded_empty
  · split
    · intro none
      simpa using none
    · exact recorded_of_changes (by simp [Draft.change])

theorem records_navigationImports : navigationImports.Records := by
  intro src
  unfold navigationImports
  dsimp only
  split
  · exact recorded_join_map fun _ _ => recorded_change _ _ _ _
  · exact recorded_empty

theorem records_linkChildren : linkChildren.Records := by
  refine fun src => recorded_join_filterMap fun link d shown => ?_
  obtain ⟨⟨anchor, closing⟩, _, shown⟩ := Option.bind_eq_some_iff.mp shown
  dsimp only at shown
  split at shown
  · cases shown
  · cases shown
    exact recorded_change _ _ _ _

theorem recorded_of_renderDraft? {text : List Char} {e : Script.Expr} {d : Draft}
    (shown : renderDraft? text e = some d) : d.Recorded := by
  unfold renderDraft? at shown
  split at shown
  · split at shown
    · cases shown
      exact recorded_change _ _ _ _
    · cases shown
  · cases shown

theorem records_createRoot : createRoot.Records := by
  intro src
  unfold createRoot
  dsimp only
  split
  · exact recorded_empty
  · refine .append (recorded_join_filterMap fun v d shown => ?_)
      (recorded_join_map fun _ _ => recorded_change _ _ _ _)
    split at shown
    · exact recorded_of_renderDraft? shown
    · cases shown

theorem records_testingLibraryImports : testingLibraryImports.Records := by
  intro src
  unfold testingLibraryImports
  dsimp only
  split
  · exact recorded_empty
  · rename_i some
    exact recorded_of_changes (by simpa using some)

theorem records_jestDomImport : jestDomImport.Records := by
  intro src
  unfold jestDomImport
  dsimp only
  split
  · exact recorded_empty
  · exact recorded_change _ _ _ _

theorem records_asyncTestCallbacks : asyncTestCallbacks.Records :=
  fun _ => recorded_join_map fun _ _ => recorded_change _ _ _ _

theorem records_of_mem_catalogue : ∀ r ∈ catalogue, r.Records := by
  simp only [catalogue, List.forall_mem_cons, List.not_mem_nil, false_imp_iff, implies_true, and_true]
  exact ⟨records_nextConfigFlags, records_decodeEntities, records_removeDiagnostics, records_varToLet,
    records_listKeys, records_intrinsicAttributes, records_mergeImports, records_reactImport,
    records_effectCleanup, records_browserGlobalGuards, records_clientDirective,
    records_navigationImports, records_linkChildren, records_createRoot,
    records_testingLibraryImports, records_jestDomImport, records_asyncTestCallbacks⟩

/-! ### Repairs in order -/

variable {leniency : Script.Leniency} {file : SourceFile}

/-- One repair reads the text, finishes its draft and adds what it found. -/
theorem step_ok {done next : Rewrite} {r : Repair} (ran : step leniency file done r = .ok next) :
    ∃ program pass, parseScript leniency file done.code = .ok program ∧
      (r.draft ⟨program, done.code.toList, file⟩).finish done.code = .ok pass ∧
      next = ⟨pass.code, done.changes ++ pass.changes, done.warnings ++ pass.warnings⟩ := by
  unfold step at ran
  obtain ⟨program, read, ran⟩ := bind_ok ran
  obtain ⟨pass, finished, ran⟩ := bind_ok ran
  cases ran
  exact ⟨program, pass, read, finished, rfl⟩

theorem leadsTo_of_step {done next : Rewrite} {r : Repair} (records : r.Records)
    (ran : step leniency file done r = .ok next) : done.LeadsTo next := by
  obtain ⟨program, pass, _, finished, rfl⟩ := step_ok ran
  obtain ⟨changes, same⟩ := Draft.finish_ok finished
  refine ⟨pass.changes, rfl, fun none => same (records _ ?_)⟩
  exact List.map_eq_nil_iff.mp (changes.symm.trans none)

theorem leadsTo_of_foldlM {repairs : List Repair} {start done : Rewrite}
    (records : ∀ r ∈ repairs, r.Records) (ran : repairs.foldlM (step leniency file) start = .ok done) :
    start.LeadsTo done := by
  induction repairs generalizing start with
  | nil =>
    cases ran
    exact .refl _
  | cons r rest ih =>
    rw [List.foldlM_cons] at ran
    obtain ⟨next, stepped, ran⟩ := bind_ok ran
    exact (leadsTo_of_step (records r List.mem_cons_self) stepped).trans
      (ih (fun q member => records q (List.mem_cons_of_mem _ member)) ran)

theorem applyAll_ok {repairs : List Repair} {text : String} {done : Rewrite}
    (ran : applyAll repairs leniency file text = .ok done) :
    repairs.foldlM (step leniency file) ⟨text, [], []⟩ = .ok done ∧
      validate file done.code = .ok () := by
  unfold applyAll at ran
  obtain ⟨last, gone, ran⟩ := bind_ok ran
  obtain ⟨_, valid, ran⟩ := bind_ok ran
  cases ran
  exact ⟨gone, valid⟩

/-- Repairs that report no change leave the text. -/
theorem code_of_applyAll {repairs : List Repair} {text : String} {done : Rewrite}
    (records : ∀ r ∈ repairs, r.Records) (ran : applyAll repairs leniency file text = .ok done)
    (none : done.changes = []) : done.code = text :=
  (leadsTo_of_foldlM records (applyAll_ok ran).1).code_eq none

/-! ### JSON files -/

theorem code_of_normalizeJson {text : String} {done : Rewrite}
    (ran : normalizeJson file text = .ok done) (none : done.changes = []) : done.code = text := by
  unfold normalizeJson at ran
  split at ran
  · cases ran
    rfl
  · cases ran
    rfl
  · rename_i kind _ _
    obtain ⟨v, _, ran⟩ := bind_ok ran
    cases v with
    | object root =>
      change (if (normalizeRoot kind root).2.isEmpty then _ else _ : Except Failure Rewrite) = _ at ran
      split at ran
      · cases ran
        rfl
      · rename_i some
        cases ran
        have notes : (normalizeRoot kind root).2 = [] := List.map_eq_nil_iff.mp none
        exact absurd notes (by simpa using some)
    | _ =>
      cases ran
      rfl

end Repair

end SourceRepair
