import Mathlib.Data.List.Induction
import SourceRepair.Proofs.Conflicts.Statements
import SourceRepair.Repair.Catalogue

/-!
# What is imported

Imports that bind names only are merged by module and kind. The merged import has the texts of all
specifiers of its group, each once; attributes are not looked at and not written.
-/

namespace SourceRepair.Script

/-- What an import gives a name to. -/
inductive Imported where
  | named (text : String)
  | whole
  | star
deriving DecidableEq, Repr, Inhabited

/-- A name that is imported: from which module, whether for types only, with which attributes, and what it
names here. -/
structure Import where
  source : String
  isType : Bool
  attributes : List ImportAttribute
  imported : Imported
  bound : String
deriving DecidableEq, Repr, Inhabited

def ImportSpecifier.imported : ImportSpecifier → Imported
  | .named i _ _ _ => .named i.text
  | .whole _ _ => .whole
  | .star _ _ => .star

/-- The specifier binds a type. -/
def ImportSpecifier.isType : ImportSpecifier → Bool
  | .named _ _ isType _ => isType
  | .whole _ _ | .star _ _ => false

/-- The names that a declaration imports. -/
def ImportDecl.entries (d : ImportDecl) : List Import :=
  (d.specifiers.getD []).map fun s =>
    ⟨d.source, d.isType || s.isType, d.attributes, s.imported, s.bound.text⟩

/-- The names that a program imports. -/
def Program.entries (p : Program) : List Import := p.imports.flatMap ImportDecl.entries

end SourceRepair.Script

namespace SourceRepair.Repair

open Script
open Text (Inked slice)

variable {leniency : Leniency} {file : SourceFile} {text : String} {p : Program} {cs : List Char}

/-! ### Groups -/

/-- The imports in groups: those of one module and one kind are in one group, in the order of the text. -/
structure InGroups (ds : List ImportDecl) (gs : List (List ImportDecl)) : Prop where
  perm : gs.flatten.Perm ds
  order : ∀ g ∈ gs, g.Sublist ds
  alike : ∀ g ∈ gs, ∀ a ∈ g, ∀ b ∈ g, sameImport a b
  unlike : gs.Pairwise fun g h => ∀ a ∈ g, ∀ b ∈ h, sameImport a b = false

theorem sameImport_comm (a b : ImportDecl) : sameImport a b = sameImport b a := by
  rw [Bool.eq_iff_iff, sameImport_iff, sameImport_iff]
  exact ⟨fun ⟨source, kind⟩ => ⟨source.symm, kind.symm⟩, fun ⟨source, kind⟩ => ⟨source.symm, kind.symm⟩⟩

theorem sameImport_congr {a b : ImportDecl} (same : sameImport a b) (c : ImportDecl) :
    sameImport a c = sameImport b c := by
  obtain ⟨source, kind⟩ := sameImport_iff.mp same
  simp only [sameImport, source, kind]

theorem addToGroup_sublist {d : ImportDecl} {ds : List ImportDecl} {gs : List (List ImportDecl)}
    (order : ∀ g ∈ gs, g.Sublist ds) : ∀ g ∈ addToGroup d gs, g.Sublist (ds ++ [d]) := by
  induction gs with
  | nil =>
    rw [addToGroup, List.forall_mem_singleton]
    exact List.sublist_append_right ds [d]
  | cons first rest ih =>
    obtain ⟨one, others⟩ := List.forall_mem_cons.mp order
    have longer : ds.Sublist (ds ++ [d]) := List.sublist_append_left ds [d]
    unfold addToGroup
    split
    · exact List.forall_mem_cons.mpr ⟨one.append (.refl [d]), fun g member => (others g member).trans longer⟩
    · exact List.forall_mem_cons.mpr ⟨one.trans longer, ih others⟩

theorem addToGroup_unlike {d : ImportDecl} {gs : List (List ImportDecl)}
    (unlike : gs.Pairwise fun g h => ∀ a ∈ g, ∀ b ∈ h, sameImport a b = false) :
    (addToGroup d gs).Pairwise fun g h => ∀ a ∈ g, ∀ b ∈ h, sameImport a b = false := by
  induction gs with
  | nil => exact List.pairwise_singleton _ _
  | cons first rest ih =>
    obtain ⟨one, others⟩ := List.pairwise_cons.mp unlike
    unfold addToGroup
    split
    · rename_i fits
      obtain ⟨k, member, same⟩ := List.any_eq_true.mp fits
      refine List.pairwise_cons.mpr ⟨fun h listed a inside b there => ?_, others⟩
      rcases List.mem_append.mp inside with before | last
      · exact one h listed a before b there
      · rw [List.mem_singleton.mp last, sameImport_congr same]
        exact one h listed k member b there
    · rename_i fits
      refine List.pairwise_cons.mpr ⟨fun h listed a inside b there => ?_, ih others⟩
      rcases List.mem_cons.mp ((addToGroup_perm d rest).mem_iff.mp (List.mem_flatten_of_mem listed there)) with
        rfl | before
      · rw [sameImport_comm]
        simpa using fun same => fits (List.any_eq_true.mpr ⟨a, inside, same⟩)
      · obtain ⟨g, group, member⟩ := List.mem_flatten.mp before
        exact one g group a inside b member

theorem inGroups_groupImports (ds : List ImportDecl) : InGroups ds (groupImports ds) where
  perm := groupImports_perm ds
  alike g group a inside b there := (grouped_groupImports ds g group a inside).2 b there
  order := by
    induction ds using List.reverseRecOn with
    | nil => exact nofun
    | append_singleton ds d ih =>
      rw [groupImports, List.foldl_append]
      exact addToGroup_sublist ih
  unlike := by
    induction ds using List.reverseRecOn with
    | nil => exact .nil
    | append_singleton ds d ih =>
      rw [groupImports, List.foldl_append]
      exact addToGroup_unlike ih

/-! ### Specifiers -/

theorem nodup_firstOccurrences {α : Type} [BEq α] [LawfulBEq α] (xs : List α) :
    (firstOccurrences xs).Nodup ∧ ∀ x, x ∈ firstOccurrences xs ↔ x ∈ xs := by
  induction xs using List.reverseRecOn with
  | nil => exact ⟨.nil, fun _ => .rfl⟩
  | append_singleton xs y ih =>
    obtain ⟨distinct, same⟩ := ih
    have step : firstOccurrences (xs ++ [y]) =
        if (firstOccurrences xs).contains y then firstOccurrences xs else firstOccurrences xs ++ [y] := by
      rw [firstOccurrences, List.foldl_append]
      rfl
    rw [step]
    split
    · rename_i seen
      rw [List.contains_iff_mem, same] at seen
      refine ⟨distinct, fun x => ?_⟩
      rw [same, List.mem_append, List.mem_singleton]
      exact ⟨.inl, fun either => either.elim id fun new => new ▸ seen⟩
    · rename_i unseen
      rw [List.contains_iff_mem] at unseen
      refine ⟨?_, fun x => by rw [List.mem_append, List.mem_append, same]⟩
      exact List.nodup_append.mpr ⟨distinct, List.nodup_singleton y, fun x first z second =>
        (List.mem_singleton.mp second) ▸ ne_of_mem_of_not_mem first unseen⟩

/-- Each specifier of a group is written once. -/
theorem specifierTexts_spec (cs : List Char) (g : List ImportDecl) :
    (specifierTexts cs g).Nodup ∧ ∀ t, t ∈ specifierTexts cs g ↔
      ∃ d ∈ g, ∃ s ∈ d.specifiers.getD [], String.ofList (slice cs s.span) = t := by
  obtain ⟨distinct, same⟩ := nodup_firstOccurrences (g.flatMap fun d =>
    (d.specifiers.getD []).map fun s => String.ofList (slice cs s.span))
  refine ⟨distinct, fun t => (same t).trans ?_⟩
  simp only [List.mem_flatMap, List.mem_map]

/-! ### The merged text -/

/-- A group of imports as one. -/
def mergedText (cs : List Char) (first : ImportDecl) (g : List ImportDecl) : String :=
  (if first.isType then "import type" else "import") ++ " \x7b " ++
    String.intercalate ", " (specifierTexts cs g) ++ " \x7d from " ++
    sourceQuote cs first ++ first.source ++ sourceQuote cs first ++ ";"

/-- The first import of a group is written for all of them. -/
def mergePatches (cs : List Char) : List ImportDecl → List Patch
  | first :: second :: others =>
    ⟨first.span, some (mergedText cs first (first :: second :: others))⟩ ::
      (second :: others).map fun d => ⟨d.span, none⟩
  | _ => []

theorem edits_mergeGroup (cs : List Char) (g : List ImportDecl) :
    (mergeGroup cs g).edits = (mergePatches cs g).map (Patch.edit cs) := by
  cases g with
  | nil => rfl
  | cons first rest =>
    cases rest with
    | nil => rfl
    | cons second others =>
      refine congrArg (_ :: ·) ?_
      rw [List.map_map]
      rfl

theorem spans_mergePatches (cs : List Char) (g : List ImportDecl) :
    ((mergePatches cs g).map Patch.span).Sublist (g.map ImportDecl.span) := by
  cases g with
  | nil => exact .slnil
  | cons first rest =>
    cases rest with
    | nil => exact List.nil_sublist _
    | cons second others =>
      rw [mergePatches, List.map_cons, List.map_map]
      exact .refl _

theorem spans_flatMap_mergePatches (cs : List Char) (gs : List (List ImportDecl)) :
    ((gs.flatMap (mergePatches cs)).map Patch.span).Sublist (gs.flatten.map ImportDecl.span) := by
  induction gs with
  | nil => exact .slnil
  | cons g gs ih =>
    rw [List.flatMap_cons, List.flatten_cons, List.map_append, List.map_append]
    exact (spans_mergePatches cs g).append ih

/-- Patches that are apart, in the order of the text. -/
theorem exists_ordered (all : List Patch) (wide : ∀ q ∈ all, q.span.start < q.span.stop)
    (apart : all.Pairwise fun a b => a.span.stop ≤ b.span.start ∨ b.span.stop ≤ a.span.start) :
    ∃ patches : List Patch, patches.Perm all ∧ patches.Pairwise fun a b => a.span.stop ≤ b.span.start := by
  let patches := all.mergeSort fun a b => a.span.start ≤ b.span.start
  have perm : patches.Perm all := List.mergeSort_perm ..
  have ranked : patches.Pairwise fun a b => decide (a.span.start ≤ b.span.start) := by
    refine List.pairwise_mergeSort (fun a b c first second => ?_) (fun a b => ?_) all
    · exact decide_eq_true ((of_decide_eq_true first).trans (of_decide_eq_true second))
    · simpa using Nat.le_total a.span.start b.span.start
  have apart : patches.Pairwise fun a b => a.span.stop ≤ b.span.start ∨ b.span.stop ≤ a.span.start :=
    (perm.pairwise_iff Or.symm).mpr apart
  refine ⟨patches, perm, (ranked.and apart).imp_of_mem ?_⟩
  rintro a b first second ⟨le, before | behind⟩
  · exact before
  · have le := of_decide_eq_true le
    have := wide b (perm.mem_iff.mp second)
    omega

/-- The entry for an import that goes into an earlier one. -/
def mergeChange (text : String) (d : ImportDecl) : Change :=
  ⟨.importMerged, "merged duplicate import from \"" ++ d.source ++ "\"",
    some (Text.location text.toList d.span.start)⟩

/-- Imports that bind names only are merged by module and kind: in each group the first is written with the
texts of all specifiers, and the others are taken away. -/
theorem imports_merged (read : parseScript leniency file text = .ok p) (standing : p.Standing text.toList) :
    let groups := groupImports (p.imports.filter bindsNamesOnly)
    InGroups (p.imports.filter bindsNamesOnly) groups ∧
    (∀ g ∈ groups, (specifierTexts text.toList g).Nodup ∧ ∀ t, t ∈ specifierTexts text.toList g ↔
      ∃ d ∈ g, ∃ s ∈ d.specifiers.getD [], String.ofList (slice text.toList s.span) = t) ∧
    ∃ patches code, patches.Perm (groups.flatMap (mergePatches text.toList)) ∧
      Patched [] patches text.toList code.toList ∧
      applyAll [mergeImports] leniency file text = (do
        validate file code
        return ⟨code, groups.flatMap fun g => (g.drop 1).map (mergeChange text), []⟩) := by
  intro groups
  have grouped := inGroups_groupImports (p.imports.filter bindsNamesOnly)
  refine ⟨grouped, fun g _ => specifierTexts_spec text.toList g, ?_⟩
  let all := groups.flatMap (mergePatches text.toList)
  have spans : (all.map Patch.span).Sublist (groups.flatten.map ImportDecl.span) :=
    spans_flatMap_mergePatches text.toList groups
  have inked : ∀ q ∈ all, Inked text.toList q.span := by
    intro q member
    obtain ⟨d, listed, same⟩ := List.mem_map.mp (spans.subset (List.mem_map_of_mem member))
    rw [← same]
    exact inked_of_mem_imports standing (List.mem_of_mem_filter (grouped.perm.mem_iff.mp listed))
  have apart : all.Pairwise fun a b => a.span.stop ≤ b.span.start ∨ b.span.stop ≤ a.span.start := by
    have named : groups.flatten.Pairwise ImportsApart :=
      (grouped.perm.pairwise_iff Or.symm).mpr (((imports_pairwise standing).filter bindsNamesOnly).imp .inl)
    have inOrder : (groups.flatten.map ImportDecl.span).Pairwise fun s t => s.stop ≤ t.start ∨ t.stop ≤ s.start :=
      List.pairwise_map.mpr named
    exact List.pairwise_map.mp (inOrder.sublist spans)
  obtain ⟨patches, perm, ordered⟩ := exists_ordered all (fun q member => (inked q member).start_lt_stop) apart
  have edits : (mergeImports.draft ⟨p, text.toList, file⟩).edits = all.map (Patch.edit text.toList) := by
    refine (List.flatMap_map ..).trans (.trans ?_ (List.map_flatMap ..).symm)
    exact congrArg (List.flatMap · groups) (funext (edits_mergeGroup text.toList))
  obtain ⟨code, applied, patched⟩ := Edit.applyAll_patches (edits ▸ (perm.map _).symm)
    (fun q member => inked q (perm.mem_iff.mp member)) ordered
  refine ⟨patches, code, perm, patched, ?_⟩
  have changes : (mergeImports.draft ⟨p, text.toList, file⟩).located text =
      groups.flatMap fun g => (g.drop 1).map (mergeChange text) := by
    change List.map _ (List.flatMap Draft.changes (groups.map _)) = _
    rw [List.flatMap_map, List.map_flatMap]
    refine congrArg (List.flatMap · groups) (funext fun g => ?_)
    cases g with
    | nil => rfl
    | cons first rest =>
      cases rest with
      | nil => rfl
      | cons second others => exact List.map_map
  have warnings : (mergeImports.draft ⟨p, text.toList, file⟩).warnings = [] := by
    refine (List.flatMap_map ..).trans (List.flatMap_eq_nil_iff.mpr fun g _ => ?_)
    unfold mergeGroup
    split <;> rfl
  rw [applyAll_of_read read, Draft.finish_of_applyAll applied, changes, warnings]
  rfl

set_option maxRecDepth 100000

theorem imports_merged_twice :
    let file : SourceFile := ⟨⟨"a.js"⟩, .script ⟨false, false, true, .module⟩, none⟩
    let text := "import \x7ba\x7d from 'x';\nimport b from 'y';\nimport \x7ba, c\x7d from 'x';\n"
    ∃ p, parseScript .strict file text = .ok p ∧ p.Standing text.toList ∧
      ∃ patches code, patches.Perm
          ((groupImports (p.imports.filter bindsNamesOnly)).flatMap (mergePatches text.toList)) ∧
        patches.length = 2 ∧ Patched [] patches text.toList code.toList ∧
        applyAll [mergeImports] .strict file text = (do
          validate file code
          return ⟨code, (groupImports (p.imports.filter bindsNamesOnly)).flatMap fun g =>
            (g.drop 1).map (mergeChange text), []⟩) := by
  intro file text
  have found : (parse? .strict ⟨false, false, true, .module⟩ text).map (fun p => (p.stands text.toList 20,
      ((groupImports (p.imports.filter bindsNamesOnly)).flatMap (mergePatches text.toList)).length)) =
        some (true, 2) := by
    decide +kernel
  obtain ⟨p, read, found⟩ := Option.map_eq_some_iff.mp found
  obtain ⟨stands, two⟩ := Prod.mk.inj found
  have standing := Program.Standing.of_stands stands
  have read : parseScript .strict file text = .ok p := parseScript_of_parse rfl read
  obtain ⟨-, -, patches, code, perm, patched, merged⟩ := imports_merged read standing
  exact ⟨p, read, standing, patches, code, perm, perm.length_eq.trans two, patched, merged⟩

/-! ### Attributes -/

/-- Two imports of JSON become one that is written without its attributes. -/
theorem attributes_lost :
    let file : SourceFile := ⟨⟨"a.js"⟩, .script ⟨false, false, true, .module⟩, none⟩
    let text := "import \x7ba\x7d from 'x' with \x7btype: 'json'\x7d\nimport \x7bb\x7d from 'x' with \x7btype: 'json'\x7d\n"
    ∃ (p q : Program) (done : Rewrite),
      parseScript .strict file text = .ok p ∧ applyAll [mergeImports] .strict file text = .ok done ∧
      parseScript .strict file done.code = .ok q ∧ ¬ ∀ e, e ∈ q.entries ↔ e ∈ p.entries := by
  intro file text
  let dialect : Dialect := ⟨false, false, true, .module⟩
  let code := "import \x7b a, b \x7d from 'x';\n"
  let d : Draft := ⟨[.replace ⟨0, 39⟩ "import \x7b a, b \x7d from 'x';", .remove ⟨40, 80⟩],
    [(.importMerged, "merged duplicate import from \"x\"", 40)], []⟩
  obtain ⟨p, read⟩ : ∃ p, parse? .strict dialect text = some p :=
    Option.isSome_iff_exists.mp (by decide +kernel)
  obtain ⟨q, again⟩ : ∃ q, parse? .strict dialect code = some q :=
    Option.isSome_iff_exists.mp (by decide +kernel)
  have drafted : (parse? .strict dialect text).map
      (fun p => mergeImports.draft ⟨p, text.toList, file⟩) = some d := by
    decide +kernel
  have spliced : (Edit.splice d.edits 0 text.toList).toOption = some code.toList := by
    decide +kernel
  have finished := d.finish_of_text (by decide) (by decide) spliced
  let e : Import := ⟨"x", false, [], .named "a", "a"⟩
  have gained : e ∈ q.entries := by
    have found : (parse? .strict dialect code).map (fun q => decide (e ∈ q.entries)) = some true := by
      decide +kernel
    rw [again] at found
    exact of_decide_eq_true (Option.some.inj found)
  have missing : e ∉ p.entries := by
    have found : (parse? .strict dialect text).map (fun p => decide (e ∈ p.entries)) = some false := by
      decide +kernel
    rw [read] at found
    exact of_decide_eq_false (Option.some.inj found)
  exact ⟨p, q, _, parseScript_of_parse rfl read, applyAll_of_draft rfl drafted finished (by decide +kernel),
    parseScript_of_parse rfl again, fun same => missing ((same e).mp gained)⟩

end SourceRepair.Repair
