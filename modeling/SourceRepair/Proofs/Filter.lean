import SourceRepair.Filter
import SourceRepair.Proofs.Components

/-!
# One answer for one file

A filter looks at the names on the way from the root of the project to a file. Paths without steps up that mean
the same file have the same names there, so they get the same answer. A step up is left out of the way, so a path
with one is judged by names that are not those of its file.
-/

namespace SourceRepair

open Disk (Location)

namespace Path

variable {p q : Path} {cs : List Component} {current : Location}

/-- Inner components without a step up are names. -/
theorem eq_map_name (inner : ∀ c ∈ cs, c.IsInner) (level : .up ∉ cs) :
    cs = (cs.filterMap Component.name?).map .name := by
  induction cs with
  | nil => rfl
  | cons c cs ih =>
    obtain ⟨first, rest⟩ := List.forall_mem_cons.mp inner
    have names := ih rest fun member => level (List.mem_cons_of_mem c member)
    cases c with
    | root | here => cases first
    | up => exact absurd List.mem_cons_self level
    | name s => exact congrArg (Component.name s :: ·) names

/-- Without steps up an absolute path is the names in it. -/
theorem components_of_level (level : .up ∉ p.components) (absolute : p.isAbsolute = true) :
    p.components = .root :: p.names.map .name := by
  obtain ⟨front, inner, whole, all, start⟩ := components_cases p
  obtain ⟨rfl, _⟩ := start.resolve_right fun relative => by simp [absolute] at relative
  have names := eq_map_name all fun member => level (whole ▸ List.mem_append_right _ member)
  rw [Path.names, whole]
  exact congrArg (Component.root :: ·) names

/-- Without steps up a relative path means its names behind the directory it is joined to. -/
theorem resolve_join_names (dir : Path) (level : .up ∉ p.components) (relative : p.isAbsolute = false) :
    (dir.join p).resolve current = dir.resolve current ++ p.names := by
  by_cases empty : dir.text = ""
  · have none : dir = ⟨""⟩ := by
      cases dir
      simpa using empty
    have same : dir.join p = p := by simp [join, empty]
    rw [same, resolve_eq level, relative, none]
    rfl
  · have components := components_eq p
    rw [componentsOf] at components
    have inner : ∀ c ∈ (Text.pieces '/' p.text.toList).filterMap component?, c.IsInner := fun c => isInner_of_mem
    have names : p.names = ((Text.pieces '/' p.text.toList).filterMap component?).filterMap Component.name? := by
      rw [Path.names, components, List.filterMap_append]
      rcases headOf_cases (Text.pieces '/' p.text.toList) with head | head | head
      all_goals
        rw [head]
        rfl
    rw [resolve, components_join empty relative, List.foldl_append, names]
    exact foldl_step _ inner fun member => level (components ▸ List.mem_append_right _ member)

end Path

namespace Filter

open Path (ofComponents)

variable {f : Filter} {p q : Path}

/-- The path from the root, or the whole path where it does not lead there. -/
def inside (f : Filter) (p : Path) : Path := if p.isAbsolute then (p.relativeTo? f.root).getD p else p

theorem relative_eq (f : Filter) (p : Path) : f.relative p = (String.intercalate "/" (f.inside p).names).toList := rfl

/-- What a filter says about a path depends on the names from the root only. -/
theorem allows_congr (same : (f.inside p).names = (f.inside q).names) : f.relative p = f.relative q ∧
    f.isExcluded p = f.isExcluded q ∧ f.isIncluded p = f.isIncluded q ∧ f.allows p = f.allows q := by
  have relative : f.relative p = f.relative q := by rw [relative_eq, relative_eq, same]
  simp [isExcluded, isIncluded, allows, relative]

/-- A path whose components go on from those of the root by names has these names from there. -/
theorem names_of_components {ns : List String} (absolute : p.isAbsolute = true)
    (whole : p.components = f.root.components ++ ns.map .name) : (f.inside p).names = ns := by
  rw [inside, if_pos absolute, Path.relativeTo?_eq whole, Option.getD_some, Path.names,
    Path.components_ofComponents ⟨_, whole.symm⟩, List.filterMap_map]
  exact List.filterMap_some

/-- A path with more names than the root has the others from there. -/
theorem names_inside {ns : List String} (level : .up ∉ p.components) (absolute : p.isAbsolute = true)
    (root : .up ∉ f.root.components) (rooted : f.root.isAbsolute = true) (more : p.names = f.root.names ++ ns) :
    (f.inside p).names = ns := by
  refine names_of_components absolute ?_
  rw [Path.components_of_level level absolute, Path.components_of_level root rooted, more, List.map_append,
    List.cons_append]

/-- An absolute path and a relative one that mean the same file from everywhere have the same names from the root. -/
theorem names_inside_mixed (level : .up ∉ p.components) (level' : .up ∉ q.components)
    (root : .up ∉ f.root.components) (absolute : p.isAbsolute = true) (relative : q.isAbsolute = false)
    (same : ∀ current, (f.root.join p).resolve current = (f.root.join q).resolve current) :
    (f.inside p).names = (f.inside q).names := by
  have names : ∀ current, p.names = f.root.resolve current ++ q.names := by
    intro current
    have joined : f.root.join p = p := by simp [Path.join, absolute]
    rw [← Path.resolve_join_names f.root level' relative, ← same, joined, Path.resolve_eq level, if_pos absolute,
      List.nil_append]
  have behind : f.inside q = q := by simp [inside, relative]
  rw [behind]
  by_cases rooted : f.root.isAbsolute = true
  · refine names_inside level absolute root rooted ?_
    rw [names [], Path.resolve_eq root, if_pos rooted, List.nil_append]
  · -- From a relative root the relative path would mean another file in each directory.
    have lengths := fun current => congrArg List.length (names current)
    simp only [Path.resolve_eq root, if_neg rooted, List.length_append] at lengths
    have none := lengths []
    have one := lengths [""]
    simp only [List.length_nil, List.length_singleton] at none one
    omega

/-- Paths without steps up that mean the same file get the same answer, whatever the patterns are. -/
theorem allows_of_same_file (f : Filter) {p q : Path} (level : .up ∉ p.components) (level' : .up ∉ q.components)
    (root : .up ∉ f.root.components ∨ p.isAbsolute = q.isAbsolute)
    (same : ∀ current, (f.root.join p).resolve current = (f.root.join q).resolve current) :
    f.relative p = f.relative q ∧ f.isExcluded p = f.isExcluded q ∧ f.isIncluded p = f.isIncluded q ∧
      f.allows p = f.allows q := by
  refine allows_congr ?_
  cases absolute : p.isAbsolute <;> cases absolute' : q.isAbsolute
  · have names := same []
    rw [Path.resolve_join_names f.root level absolute, Path.resolve_join_names f.root level' absolute'] at names
    simpa [inside, absolute, absolute'] using names
  · rw [absolute, absolute'] at root
    exact (names_inside_mixed level' level (root.resolve_right nofun) absolute' absolute fun c => (same c).symm).symm
  · rw [absolute, absolute'] at root
    exact names_inside_mixed level level' (root.resolve_right nofun) absolute absolute' same
  · have names := same []
    have joined : ∀ r : Path, r.isAbsolute = true → f.root.join r = r := fun r absolute => by simp [Path.join, absolute]
    rw [joined p absolute, joined q absolute', Path.resolve_eq level, Path.resolve_eq level', absolute, absolute'] at names
    have names : p.names = q.names := by simpa using names
    have components : p.components = q.components := by
      rw [Path.components_of_level level absolute, Path.components_of_level level' absolute', names]
    simp only [inside, absolute, absolute', if_true, Path.relativeTo?, components]
    split <;> simp [names]

theorem allows_of_same_file_small :
    let f : Filter := ⟨⟨"/r"⟩, [], []⟩
    (∀ current, (f.root.join ⟨"/r/./a.js"⟩).resolve current = (f.root.join ⟨"a.js"⟩).resolve current) ∧
      f.relative ⟨"/r/./a.js"⟩ = f.relative ⟨"a.js"⟩ := by
  intro f
  have whole : (f.root.join ⟨"/r/./a.js"⟩).components = (f.root.join ⟨"a.js"⟩).components := by decide +kernel
  have same : ∀ current, (f.root.join ⟨"/r/./a.js"⟩).resolve current = (f.root.join ⟨"a.js"⟩).resolve current :=
    fun current => by rw [Path.resolve, Path.resolve, whole]
  exact ⟨same, (allows_of_same_file f (by decide +kernel) (by decide +kernel) (.inl (by decide +kernel)) same).1⟩

/-- The project without the packages it installs. -/
def ownFiles : Filter :=
  ⟨⟨"/r"⟩, [], [⟨"node_modules/**", "node_modules/".toList.map .char ++ [.directories]⟩]⟩

/-- A path that reaches an excluded directory through a step up is allowed, and one that only passes through it is
not, though each means a file that is treated the other way round. -/
theorem step_up_left_out : ofPatterns ⟨"/r"⟩ [] ["node_modules/**"] = .ok ownFiles ∧
    (∀ current, (ownFiles.root.join ⟨"src/../node_modules/x.js"⟩).resolve current =
      (ownFiles.root.join ⟨"node_modules/x.js"⟩).resolve current) ∧
    ownFiles.allows ⟨"src/../node_modules/x.js"⟩ = true ∧ ownFiles.allows ⟨"node_modules/x.js"⟩ = false ∧
    (∀ current, (ownFiles.root.join ⟨"node_modules/../src/a.js"⟩).resolve current =
      (ownFiles.root.join ⟨"src/a.js"⟩).resolve current) ∧
    ownFiles.allows ⟨"node_modules/../src/a.js"⟩ = false ∧ ownFiles.allows ⟨"src/a.js"⟩ = true := by
  have reaches : (ownFiles.root.join ⟨"src/../node_modules/x.js"⟩).components =
      [.root, .name "r", .name "src", .up, .name "node_modules", .name "x.js"] := by decide +kernel
  have direct : (ownFiles.root.join ⟨"node_modules/x.js"⟩).components =
      [.root, .name "r", .name "node_modules", .name "x.js"] := by decide +kernel
  have passes : (ownFiles.root.join ⟨"node_modules/../src/a.js"⟩).components =
      [.root, .name "r", .name "node_modules", .up, .name "src", .name "a.js"] := by decide +kernel
  have plain : (ownFiles.root.join ⟨"src/a.js"⟩).components =
      [.root, .name "r", .name "src", .name "a.js"] := by decide +kernel
  refine ⟨by decide +kernel, fun current => ?_, by decide +kernel, by decide +kernel, fun current => ?_,
    by decide +kernel, by decide +kernel⟩
  · rw [Path.resolve, Path.resolve, reaches, direct]
    rfl
  · rw [Path.resolve, Path.resolve, passes, plain]
    rfl

end Filter

end SourceRepair
