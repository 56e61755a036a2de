import Mathlib.Data.List.Forall2
import SourceRepair.Proofs.Json.Commented
import SourceRepair.Proofs.Json.Rendered
import SourceRepair.Repair.ProjectConfig

/-!
# Completed project files

The JSON files that configure a project are read, completed and written again. Every member stays what and where
it was, but for the entries that are completed, and a completed file is left alone.
-/

namespace SourceRepair.Repair

open Json (Members Value depthLimit)

/-! ### What may differ -/

/-- Members stay in order, each as it is or with an allowed change, and allowed ones with new keys may follow. -/
def Extends (change : String → Value → Value → Prop) (added : String → Value → Prop) (ms ns : Members) : Prop :=
  ∃ kept extra, ns = kept ++ extra ∧
    List.Forall₂ (fun m n => n.1 = m.1 ∧ (n.2 = m.2 ∨ change m.1 m.2 n.2)) ms kept ∧
    ∀ m ∈ extra, m.1 ∉ ms.map Prod.fst ∧ added m.1 m.2

/-- The target of a compiler is too old. -/
def IsLegacy (target : String) : Prop := String.ofList (target.toList.map Char.toLower) ∈ legacyTargets

instance (target : String) : Decidable (IsLegacy target) := inferInstanceAs (Decidable (_ ∈ legacyTargets))

/-- An old target is raised. -/
def TargetRaised (key : String) (v w : Value) : Prop :=
  key = "target" ∧ (∃ target, v = .string target ∧ IsLegacy target) ∧ w = .string modernTarget

/-- A required option is set. -/
def OptionAdded (key : String) (v : Value) : Prop := key ∈ requiredOptions ∧ v = .bool true

/-- A script of a package that may depend on the framework. -/
def ScriptAdded (framework : Bool) (key : String) (v : Value) : Prop :=
  key = "lint" ∧ v = .string (if framework then "next lint" else "eslint .") ∨
    key = "type-check" ∧ v = .string "tsc --noEmit"

/-- The members of an object under a key are extended. -/
def SectionChanged (name : String) (extended : Members → Members → Prop) (key : String) (v w : Value) : Prop :=
  key = name ∧ ∃ ms ns, v = .object ms ∧ w = .object ns ∧ extended ms ns

/-- A missing object is added. -/
def SectionAdded (name : String) (extended : Members → Members → Prop) (key : String) (v : Value) : Prop :=
  key = name ∧ ∃ ns, v = .object ns ∧ extended [] ns

def SectionExtended (name : String) (extended : Members → Members → Prop) : Members → Members → Prop :=
  Extends (SectionChanged name extended) (SectionAdded name extended)

/-- The members of a file may differ in the entries that are completed. -/
def Completed : ConfigKind → Members → Members → Prop
  | .tsConfig, root => SectionExtended "compilerOptions" (Extends TargetRaised OptionAdded) root
  | .packageJson, root =>
    SectionExtended "scripts" (Extends (fun _ _ _ => False) (ScriptAdded (dependsOn root "next"))) root
  | .nextConfig, root => Eq root

/-- The file has a section of its kind, and all entries in it, unless something else stands in its place. -/
def Complete : ConfigKind → Members → Prop
  | .tsConfig, root => ∀ options, section? root "compilerOptions" = some options →
    (∀ target, options.get? "target" = some (.string target) → ¬IsLegacy target) ∧
      ∀ key ∈ requiredOptions, options.has key
  | .packageJson, root => ∀ scripts, section? root "scripts" = some scripts →
    scripts.has "lint" ∧ scripts.has "type-check"
  | .nextConfig, _ => True

/-! ### Members -/

theorem get?_eq_none {ms : Members} {key : String} : ms.get? key = none ↔ key ∉ ms.map Prod.fst := by
  rw [Members.get?, List.lookup_eq_none_iff]
  simp only [List.mem_map, not_exists, not_and, bne_iff_ne, ne_eq, eq_comm (a := key)]

theorem has_eq_false {ms : Members} {key : String} : ms.has key = false ↔ key ∉ ms.map Prod.fst := by
  rw [← get?_eq_none, Members.has]
  simp

theorem has_iff {ms : Members} {key : String} : ms.has key = true ↔ key ∈ ms.map Prod.fst := by
  rw [← not_iff_not, Bool.not_eq_true, has_eq_false]

theorem get?_cons (k : String) (u : Value) (ms : Members) (key : String) :
    Members.get? ((k, u) :: ms) key = if k = key then some u else ms.get? key := by
  rw [Members.get?, List.lookup_cons]
  by_cases same : k = key
  · simp [same]
  · have other : (key == k) = false := by simpa using Ne.symm same
    rw [other, if_neg same]
    rfl

theorem get?_set {ms : Members} {key : String} {v : Value} : (ms.set key v).get? key = some v := by
  induction ms with
  | nil => simp [Members.set, get?_cons]
  | cons m ms ih =>
    obtain ⟨k, u⟩ := m
    by_cases same : k = key
    · simp [Members.set, get?_cons, same]
    · simp [Members.set, get?_cons, same, ih]

section

variable {change : String → Value → Value → Prop} {added : String → Value → Prop} {ms ns : Members}

theorem kept_refl (ms : Members) : List.Forall₂ (fun m n => n.1 = m.1 ∧ (n.2 = m.2 ∨ change m.1 m.2 n.2)) ms ms :=
  List.forall₂_same.mpr fun _ _ => ⟨rfl, .inl rfl⟩

theorem Extends.refl (ms : Members) : Extends change added ms ms :=
  ⟨ms, [], (List.append_nil ms).symm, kept_refl ms, by simp⟩

theorem kept_set {key : String} {u v : Value} (found : ms.get? key = some u) (changed : change key u v) :
    List.Forall₂ (fun m n => n.1 = m.1 ∧ (n.2 = m.2 ∨ change m.1 m.2 n.2)) ms (ms.set key v) := by
  induction ms with
  | nil => cases found
  | cons m ms ih =>
    obtain ⟨k, w⟩ := m
    by_cases same : k = key
    · subst same
      have first : w = u := by simpa [get?_cons] using found
      subst first
      rw [Members.set, if_pos (beq_self_eq_true k)]
      exact .cons ⟨rfl, .inr changed⟩ (kept_refl ms)
    · rw [Members.set, if_neg (by simpa using same)]
      rw [get?_cons, if_neg same] at found
      exact .cons ⟨rfl, .inl rfl⟩ (ih found)

theorem keys_kept (kept : List.Forall₂ (fun m n => n.1 = m.1 ∧ (n.2 = m.2 ∨ change m.1 m.2 n.2)) ms ns) :
    ns.map Prod.fst = ms.map Prod.fst := by
  induction kept with
  | nil => rfl
  | cons same _ ih => rw [List.map_cons, List.map_cons, same.1, ih]

/-- Wanted members whose keys are missing are put at the end. -/
theorem addMissing_eq {describe : String → String} {wanted : List (String × Value)}
    (distinct : (ms.map Prod.fst).Nodup) (apart : (wanted.map Prod.fst).Nodup) :
    (addMissing describe wanted ms).1 = ms ++ wanted.filter fun m => !ms.has m.1 := by
  refine Members.foldl_set ms ?_
  rw [List.map_append, List.nodup_append']
  refine ⟨distinct, apart.sublist (List.filter_sublist.map Prod.fst), fun key member other => ?_⟩
  obtain ⟨m, listed, rfl⟩ := List.mem_map.mp other
  have missing := (List.mem_filter.mp listed).2
  rw [Bool.not_eq_true', has_eq_false] at missing
  exact missing member

theorem addMissing_notes {describe : String → String} {wanted : List (String × Value)} :
    (addMissing describe wanted ms).2 = [] ↔ ∀ m ∈ wanted, ms.has m.1 := by
  simp [addMissing, List.filter_eq_nil_iff]

/-- No wanted key is missing afterwards. -/
theorem has_addMissing {describe : String → String} {wanted : List (String × Value)}
    (distinct : (ms.map Prod.fst).Nodup) (apart : (wanted.map Prod.fst).Nodup) {m : String × Value}
    (listed : m ∈ wanted) : (addMissing describe wanted ms).1.has m.1 := by
  rw [addMissing_eq distinct apart, has_iff, List.map_append, List.mem_append]
  by_cases there : ms.has m.1 = true
  · exact .inl (has_iff.mp there)
  · exact .inr (List.mem_map_of_mem (List.mem_filter.mpr ⟨listed, by simpa using there⟩))

theorem addMissing_extends {describe : String → String} {wanted : List (String × Value)}
    (kept : List.Forall₂ (fun m n => n.1 = m.1 ∧ (n.2 = m.2 ∨ change m.1 m.2 n.2)) ms ns)
    (distinct : (ms.map Prod.fst).Nodup) (apart : (wanted.map Prod.fst).Nodup)
    (allowed : ∀ m ∈ wanted, added m.1 m.2) : Extends change added ms (addMissing describe wanted ns).1 := by
  have keys := keys_kept kept
  refine ⟨ns, _, addMissing_eq (by rwa [keys]) apart, kept, fun m member => ?_⟩
  obtain ⟨listed, missing⟩ := List.mem_filter.mp member
  rw [Bool.not_eq_true', has_eq_false, keys] at missing
  exact ⟨missing, allowed m listed⟩

theorem section_extends {name : String} {extended : Members → Members → Prop} {root : Members}
    (found : section? root name = some ms) (extends_ : extended ms ns) :
    SectionExtended name extended root (root.set name (.object ns)) := by
  unfold section? at found
  split at found
  · rename_i missing
    cases found
    have absent := get?_eq_none.mp missing
    refine ⟨root, [(name, .object ns)], Members.set_missing absent _, kept_refl root, ?_⟩
    rintro m member
    obtain rfl := List.mem_singleton.mp member
    exact ⟨absent, rfl, ns, rfl, extends_⟩
  · rename_i v present
    cases v with
    | object members =>
      cases found
      exact ⟨_, [], (List.append_nil _).symm, kept_set present ⟨rfl, ms, ns, rfl, rfl, extends_⟩, by simp⟩
    | _ => cases found

end

/-! ### Compiler options -/

theorem raiseTarget_kept (options : Members) : List.Forall₂
    (fun m n => n.1 = m.1 ∧ (n.2 = m.2 ∨ TargetRaised m.1 m.2 n.2)) options (raiseTarget options).1 := by
  unfold raiseTarget
  split
  · rename_i target found
    split
    · rename_i legacy
      exact kept_set found ⟨rfl, ⟨target, rfl, by simpa [IsLegacy] using legacy⟩, rfl⟩
    · exact kept_refl options
  · exact kept_refl options

/-- Nothing is raised exactly where no old target stands. -/
theorem raiseTarget_notes {options : Members} : (raiseTarget options).2 = [] ↔
    ∀ target, options.get? "target" = some (.string target) → ¬IsLegacy target := by
  unfold raiseTarget
  split
  · rename_i target found
    split
    · rename_i legacy
      simp only [List.cons_ne_nil, false_iff, not_forall, not_not]
      exact ⟨target, found, by simpa [IsLegacy] using legacy⟩
    · rename_i modern
      refine iff_of_true rfl fun other same => ?_
      rw [found] at same
      cases same
      simpa [IsLegacy] using modern
  · rename_i other
    exact iff_of_true rfl fun target found => absurd found (other target)

theorem target_raised {options : Members} {target : String}
    (found : (raiseTarget options).1.get? "target" = some (.string target)) : ¬IsLegacy target := by
  unfold raiseTarget at found
  split at found
  · rename_i old same
    split at found
    · rw [get?_set] at found
      cases found
      decide +kernel
    · rename_i modern
      rw [same] at found
      cases found
      simpa [IsLegacy] using modern
  · rename_i other
    exact absurd found (other target)

theorem get?_append (ms ns : Members) (key : String) :
    Members.get? (ms ++ ns) key = (ms.get? key).or (ns.get? key) := List.lookup_append

theorem options_apart : ((requiredOptions.map fun key => (key, Value.bool true)).map Prod.fst).Nodup := by decide

/-- The options of a compiler after they are completed. -/
def completedOptions (options : Members) : Members :=
  (addMissing ("added compilerOptions." ++ ·) (requiredOptions.map (·, .bool true)) (raiseTarget options).1).1

theorem completedOptions_extends {options : Members} (distinct : (options.map Prod.fst).Nodup) :
    Extends TargetRaised OptionAdded options (completedOptions options) :=
  addMissing_extends (raiseTarget_kept options) distinct options_apart fun m member => by
    obtain ⟨key, listed, rfl⟩ := List.mem_map.mp member
    exact ⟨listed, rfl⟩

theorem completedOptions_complete {options : Members} (distinct : (options.map Prod.fst).Nodup) :
    (∀ target, (completedOptions options).get? "target" = some (.string target) → ¬IsLegacy target) ∧
      ∀ key ∈ requiredOptions, (completedOptions options).has key := by
  have raised : ((raiseTarget options).1.map Prod.fst).Nodup := by rwa [keys_kept (raiseTarget_kept options)]
  refine ⟨fun target found => ?_, fun key required =>
    has_addMissing raised options_apart (List.mem_map_of_mem (f := (·, Value.bool true)) required)⟩
  rw [completedOptions, addMissing_eq raised options_apart, get?_append] at found
  -- The target is none of the options that are added.
  have none : Members.get? ((requiredOptions.map (·, Value.bool true)).filter
      fun m => !(raiseTarget options).1.has m.1) "target" = none := by
    rw [get?_eq_none]
    intro member
    obtain ⟨m, listed, same⟩ := List.mem_map.mp member
    obtain ⟨key, required, rfl⟩ := List.mem_map.mp (List.mem_filter.mp listed).1
    subst same
    exact absurd required (by decide)
  rw [none, Option.or_none] at found
  exact target_raised found

theorem normalizeOptions_eq {root options : Members} (found : section? root "compilerOptions" = some options) :
    (normalizeOptions root).1 = root.set "compilerOptions" (.object (completedOptions options)) := by
  simp only [normalizeOptions, found]
  rfl

theorem normalizeOptions_notes {root : Members} : (normalizeOptions root).2 = [] ↔ Complete .tsConfig root := by
  unfold normalizeOptions
  split
  · rename_i other
    simp [Complete, other]
  · rename_i options found
    simp only [List.append_eq_nil_iff, raiseTarget_notes, addMissing_notes, Complete, found, Option.some.injEq,
      forall_eq', List.forall_mem_map]
    refine and_congr_right fun modern => ?_
    have same : (raiseTarget options).1.map Prod.fst = options.map Prod.fst := keys_kept (raiseTarget_kept options)
    simp only [has_iff, same]

/-! ### Scripts -/

/-- The scripts that a package should have. -/
def wantedScripts (root : Members) : List (String × Value) :=
  [("lint", .string (if dependsOn root "next" then "next lint" else "eslint .")),
    ("type-check", .string "tsc --noEmit")]

theorem scripts_apart (root : Members) : ((wantedScripts root).map Prod.fst).Nodup := by
  simp [wantedScripts]

def completedScripts (root scripts : Members) : Members :=
  (addMissing (fun key => "added the \"" ++ key ++ "\" script") (wantedScripts root) scripts).1

theorem completedScripts_extends {root scripts : Members} (distinct : (scripts.map Prod.fst).Nodup) :
    Extends (fun _ _ _ => False) (ScriptAdded (dependsOn root "next")) scripts (completedScripts root scripts) :=
  addMissing_extends (@kept_refl (fun _ _ _ => False) scripts) distinct (scripts_apart root) fun m member => by
    simp only [wantedScripts, List.mem_cons, List.not_mem_nil, or_false] at member
    rcases member with rfl | rfl
    · exact .inl ⟨rfl, rfl⟩
    · exact .inr ⟨rfl, rfl⟩

theorem completedScripts_complete {root scripts : Members} (distinct : (scripts.map Prod.fst).Nodup) :
    (completedScripts root scripts).has "lint" ∧ (completedScripts root scripts).has "type-check" :=
  ⟨has_addMissing distinct (scripts_apart root) List.mem_cons_self,
    has_addMissing distinct (scripts_apart root) (List.mem_cons_of_mem _ List.mem_cons_self)⟩

theorem normalizeScripts_eq {root scripts : Members} (found : section? root "scripts" = some scripts) :
    (normalizeScripts root).1 = root.set "scripts" (.object (completedScripts root scripts)) := by
  simp only [normalizeScripts, found]
  rfl

theorem normalizeScripts_notes {root : Members} : (normalizeScripts root).2 = [] ↔ Complete .packageJson root := by
  unfold normalizeScripts
  split
  · rename_i other
    simp [Complete, other]
  · rename_i scripts found
    simp [addMissing_notes, Complete, found]

/-! ### What is written is read -/

theorem mem_of_get? {ms : Members} {key : String} {v : Value} (found : ms.get? key = some v) : (key, v) ∈ ms := by
  induction ms with
  | nil => cases found
  | cons m ms ih =>
    obtain ⟨k, u⟩ := m
    rw [get?_cons] at found
    split at found
    · rename_i same
      cases found
      exact same ▸ List.mem_cons_self
    · exact List.mem_cons_of_mem _ (ih found)

section

variable {root ms : Members} {key : String} {depth : Nat}

theorem fits_set {v : Value} (fits : (Value.object ms).Fits (depth + 1)) (new : v.Fits depth) :
    (Value.object (ms.set key v)).Fits (depth + 1) := by
  cases fits with
  | object distinct members =>
    refine .object (Members.nodup_set distinct) fun m member => ?_
    rcases Members.mem_set member with rfl | member
    · exact new
    · exact members m member

theorem fits_addMissing {describe : String → String} {wanted : List (String × Value)}
    (fits : (Value.object ms).Fits (depth + 1)) (new : ∀ m ∈ wanted, m.2.Fits depth) :
    (Value.object (addMissing describe wanted ms).1).Fits (depth + 1) := by
  cases fits with
  | object distinct members =>
    refine .object (Members.foldl_set_nodup ms distinct) fun m member => ?_
    rcases Members.mem_foldl_set ms member with member | member
    · exact members m member
    · exact new m (List.mem_of_mem_filter member)

theorem fits_section (fits : (Value.object root).Fits (depth + 2)) (found : section? root key = some ms) :
    (Value.object ms).Fits (depth + 1) := by
  unfold section? at found
  split at found
  · cases found
    exact .object List.nodup_nil (by simp)
  · rename_i v present
    cases v with
    | object members =>
      cases found
      cases fits with
      | object _ all => exact all _ (mem_of_get? present)
    | _ => cases found

theorem fits_completedOptions (fits : (Value.object ms).Fits (depth + 1)) :
    (Value.object (completedOptions ms)).Fits (depth + 1) := by
  have raised : (Value.object (raiseTarget ms).1).Fits (depth + 1) := by
    unfold raiseTarget
    split
    · split
      · exact fits_set fits (.string _ _)
      · exact fits
    · exact fits
  refine fits_addMissing raised fun m member => ?_
  obtain ⟨key, _, rfl⟩ := List.mem_map.mp member
  exact .bool _ _

theorem fits_completedScripts (fits : (Value.object ms).Fits (depth + 1)) :
    (Value.object (completedScripts root ms)).Fits (depth + 1) := by
  refine fits_addMissing fits fun m member => ?_
  simp only [wantedScripts, List.mem_cons, List.not_mem_nil, or_false] at member
  rcases member with rfl | rfl <;> exact .string _ _

theorem distinct_of_fits {ms : Members} (fits : (Value.object ms).Fits depth) : (ms.map Prod.fst).Nodup := by
  cases fits with
  | object distinct _ => exact distinct

/-- What becomes of the members of a file. -/
structure Normalized.Law (kind : ConfigKind) (root done : Members) (depth : Nat) : Prop where
  completed : Completed kind root done
  complete : Complete kind done
  fits : (Value.object done).Fits depth

/-- Where one section is completed, the other members are kept and the section is the completed one. -/
theorem section_completed {extended : Members → Members → Prop} {ns : Members}
    (fits : (Value.object root).Fits (depth + 2)) (found : section? root key = some ms) (extends_ : extended ms ns)
    (inner : (Value.object ns).Fits (depth + 1)) :
    SectionExtended key extended root (root.set key (.object ns)) ∧ section? (root.set key (.object ns)) key = some ns ∧
      (Value.object (root.set key (.object ns))).Fits (depth + 2) :=
  ⟨section_extends found extends_, by simp [section?, get?_set, Value.members?], fits_set fits inner⟩

theorem normalizeRoot_law (kind : ConfigKind) (fits : (Value.object root).Fits (depth + 2)) :
    Normalized.Law kind root (normalizeRoot kind root).1 (depth + 2) := by
  cases kind with
  | nextConfig => exact ⟨rfl, trivial, fits⟩
  | tsConfig =>
    cases found : section? root "compilerOptions" with
    | none =>
      have same : (normalizeRoot .tsConfig root).1 = root := by simp [normalizeRoot, normalizeOptions, found]
      rw [same]
      exact ⟨.refl root, by simp [Complete, found], fits⟩
    | some options =>
      have inner := fits_section fits found
      have distinct := distinct_of_fits inner
      obtain ⟨extended, there, fits⟩ :=
        section_completed fits found (completedOptions_extends distinct) (fits_completedOptions inner)
      have same : (normalizeRoot .tsConfig root).1 = _ := normalizeOptions_eq found
      rw [same]
      exact ⟨extended, by simpa [Complete, there] using completedOptions_complete distinct, fits⟩
  | packageJson =>
    cases found : section? root "scripts" with
    | none =>
      have same : (normalizeRoot .packageJson root).1 = root := by simp [normalizeRoot, normalizeScripts, found]
      rw [same]
      exact ⟨.refl root, by simp [Complete, found], fits⟩
    | some scripts =>
      have inner := fits_section fits found
      have distinct := distinct_of_fits inner
      obtain ⟨extended, there, fits⟩ :=
        section_completed fits found (completedScripts_extends distinct) (fits_completedScripts inner)
      have same : (normalizeRoot .packageJson root).1 = _ := normalizeScripts_eq found
      rw [same]
      exact ⟨extended, by simpa [Complete, there] using completedScripts_complete distinct, fits⟩

theorem normalizeRoot_notes (kind : ConfigKind) : (normalizeRoot kind root).2 = [] ↔ Complete kind root := by
  cases kind with
  | tsConfig => exact normalizeOptions_notes
  | packageJson => exact normalizeScripts_notes
  | nextConfig => exact iff_of_true rfl trivial

end

/-! ### Files -/

section

variable {file : SourceFile} {kind : ConfigKind} {comments : Bool} {text : String} {v : Value}

theorem parseJson_eq_ok (read : parseJson file comments text = .ok v) :
    ∃ u : Value, u.nesting ≤ depthLimit ∧ v = u.collapse := by
  simp only [parseJson] at read
  generalize (if comments then String.ofList (Json.stripped text.toList) else text) = plain at read
  cases found : Json.read? plain with
  | none => simp [found] at read
  | some u => exact ⟨u, (Json.read?_eq_some_iff.mp found).2, by simpa [found] using read.symm⟩

/-- The text of a value is read as the value, as plain JSON and with comments. -/
theorem parseJson_pretty (fits : v.Fits depthLimit) : parseJson file comments (v.pretty ++ "\n") = .ok v := by
  have read := Value.read?_pretty fits
  have plain : (if comments then String.ofList (Json.stripped (v.pretty ++ "\n").toList) else v.pretty ++ "\n") =
      v.pretty ++ "\n" := by
    split
    · rw [Json.stripped_plain (Json.read?_eq_some_iff.mp read).1, String.ofList_toList]
    · rfl
  simp only [parseJson, plain, read, fits.collapse_eq]

/-- What is made of a file that is read as a value. -/
def rewritten (kind : ConfigKind) (text : String) : Value → Rewrite
  | .object root =>
    if (normalizeRoot kind root).2 = [] then ⟨text, [], []⟩
    else ⟨(Value.object (normalizeRoot kind root).1).pretty ++ "\n",
      (normalizeRoot kind root).2.map fun note => ⟨.configNormalized, note, none⟩, []⟩
  | _ => ⟨text, [], []⟩

theorem normalizeJson_eq (config : file.config = some kind) (json : kind ≠ .nextConfig) (text : String) :
    normalizeJson file text = (parseJson file (kind == .tsConfig) text).map (rewritten kind text) := by
  unfold normalizeJson
  rw [config]
  split
  · rename_i same
    cases same
    exact absurd rfl json
  · rename_i same
    cases same
  · rename_i same
    cases same
    cases parseJson file (kind == .tsConfig) text with
    | error e => rfl
    | ok v =>
      cases v with
      | object root =>
        by_cases none : (normalizeRoot kind root).2 = [] <;>
          simp [rewritten, Except.map, bind, Except.bind, pure, Except.pure, none]
      | _ => rfl

/-- Members of which only the entries of the kind differ, or any other value. -/
def MayBecome (kind : ConfigKind) : Value → Value → Prop
  | .object root, w => ∃ done, w = .object done ∧ Completed kind root done
  | v, w => w = v

/-- Nothing is to be completed in the value. -/
def Settled (kind : ConfigKind) : Value → Prop
  | .object root => Complete kind root
  | _ => True

theorem rewritten_settled (text : String) (settled : Settled kind v) : rewritten kind text v = ⟨text, [], []⟩ := by
  cases v with
  | object root => exact if_pos ((normalizeRoot_notes kind).mpr settled)
  | _ => rfl

theorem mayBecome_refl (kind : ConfigKind) (v : Value) : MayBecome kind v v := by
  cases v with
  | object root =>
    refine ⟨root, rfl, ?_⟩
    cases kind with
    | nextConfig => rfl
    | tsConfig | packageJson => exact .refl root
  | _ => rfl

theorem normalizeJson_settled (config : file.config = some kind) (json : kind ≠ .nextConfig)
    (read : parseJson file (kind == .tsConfig) text = .ok v) (settled : Settled kind v) :
    normalizeJson file text = .ok ⟨text, [], []⟩ := by
  rw [normalizeJson_eq config json, read, Except.map, rewritten_settled text settled]

/-- A file whose numbers are integers of 64 bits is read again when it was completed, as the same value but for the
entries that are completed. A file with nothing to complete is left alone, which is what a completed one is. -/
theorem normalizeJson_completes {out : Rewrite} (config : file.config = some kind) (json : kind ≠ .nextConfig)
    (accepted : normalizeJson file text = .ok out)
    (whole : ∀ v, parseJson file (kind == .tsConfig) text = .ok v → v.Whole) :
    ∃ v w, parseJson file (kind == .tsConfig) text = .ok v ∧
      parseJson file (kind == .tsConfig) out.code = .ok w ∧ MayBecome kind v w ∧
      (Settled kind v → out = ⟨text, [], []⟩) ∧ Settled kind w ∧
      normalizeJson file out.code = .ok ⟨out.code, [], []⟩ := by
  rw [normalizeJson_eq config json] at accepted
  obtain ⟨v, read, rfl⟩ : ∃ v, parseJson file (kind == .tsConfig) text = .ok v ∧ rewritten kind text v = out := by
    cases parsed : parseJson file (kind == .tsConfig) text with
    | error e => simp [parsed, Except.map] at accepted
    | ok v => exact ⟨v, rfl, by simpa [parsed, Except.map] using accepted⟩
  by_cases settled : Settled kind v
  · rw [rewritten_settled text settled]
    exact ⟨v, v, read, read, mayBecome_refl kind v, fun _ => rfl, settled, normalizeJson_settled config json read settled⟩
  · obtain ⟨u, nested, same⟩ := parseJson_eq_ok read
    have fits : v.Fits depthLimit := same ▸ Value.fits_collapse nested (same ▸ whole v read)
    cases v with
    | object root =>
      have law := normalizeRoot_law kind fits
      have notes : (normalizeRoot kind root).2 ≠ [] := fun none => settled ((normalizeRoot_notes kind).mp none)
      have code : (rewritten kind text (.object root)).code =
          (Value.object (normalizeRoot kind root).1).pretty ++ "\n" := by
        simp [rewritten, notes]
      have again : parseJson file (kind == .tsConfig) (rewritten kind text (.object root)).code = .ok _ :=
        code ▸ parseJson_pretty law.fits
      exact ⟨_, _, read, again, ⟨_, rfl, law.completed⟩, fun settled' => absurd settled' settled, law.complete,
        normalizeJson_settled config json again law.complete⟩
    | _ => exact absurd trivial settled

theorem normalizeJson_completes_small :
    let file := SourceFile.ofPath ⟨"tsconfig.json"⟩
    let v := Value.object [("compilerOptions", .object [("target", .string "ES5")]), ("n", .nat 1)]
    ∃ out w, normalizeJson file (v.pretty ++ "\n") = .ok out ∧ parseJson file true out.code = .ok w ∧
      MayBecome .tsConfig v w ∧ Settled .tsConfig w ∧ normalizeJson file out.code = .ok ⟨out.code, [], []⟩ := by
  intro file v
  have config : file.config = some .tsConfig := by decide +kernel
  have options : (Value.object [("target", .string "ES5")]).Fits 126 :=
    .object (by simp) (by simpa using Value.Fits.string _ _)
  have number : (Value.nat 1).Fits 126 := .number _ (by decide) (by decide)
  have fits : v.Fits depthLimit := .object (by decide) (by simp [options, number])
  have read : parseJson file (ConfigKind.tsConfig == .tsConfig) (v.pretty ++ "\n") = .ok v := parseJson_pretty fits
  have accepted : normalizeJson file (v.pretty ++ "\n") = .ok (rewritten .tsConfig (v.pretty ++ "\n") v) := by
    rw [normalizeJson_eq config nofun, read]
    rfl
  obtain ⟨v', w, read', again, becomes, _, settled, stays⟩ := normalizeJson_completes config nofun accepted
    fun u parsed => by
      rw [read] at parsed
      cases parsed
      exact fits.whole
  rw [read] at read'
  cases read'
  exact ⟨_, w, accepted, again, becomes, settled, stays⟩

end

end SourceRepair.Repair
