import Mathlib.Data.List.Induction
import SourceRepair.Proofs.Components
import SourceRepair.Proofs.Disk.Staged

/-!
# The directories on the way

What a path lies in has a front of its components. So where a staged write makes directories and puts
its temporary files can be said without a look at the disk.
-/

namespace SourceRepair

open Disk (Location)

namespace Path

variable {p q dir : Path} {cs : List Component} {limit : Nat} {l current : Location}

/-- The location that the components of a path start from. -/
def origin (current : Location) (p : Path) : Location := if p.isAbsolute then [] else current

/-- The location of a directory on the way to a path, or the one that the path means. -/
def OnWay (current : Location) (p : Path) (l : Location) : Prop :=
  ∃ cs, cs <+: p.components ∧ l = cs.foldl Component.step (p.origin current)

theorem isAbsolute_iff_head : p.isAbsolute = true ↔ p.components.head? = some .root := by
  obtain ⟨front, inner, whole, all, start⟩ := components_cases p
  rw [whole]
  rcases start with ⟨rfl, absolute⟩ | ⟨rfl | rfl, relative⟩
  · simp [absolute]
  · simp [relative]
  · cases inner with
    | nil => simp [relative]
    | cons c cs =>
      have first : c.IsInner := all c List.mem_cons_self
      have other : c ≠ .root := by
        rintro rfl
        exact first
      simp [relative, other]

theorem resolve_origin (p : Path) : p.resolve (p.origin current) = p.resolve current := by
  unfold origin
  split
  · rename_i absolute
    exact resolve_of_isAbsolute absolute _ _
  · rfl

theorem onWay_resolve (p : Path) : p.OnWay current (p.resolve current) :=
  ⟨p.components, List.prefix_refl _, (resolve_origin p).symm⟩

theorem components_ne_nil (full : p.text ≠ "") : p.components ≠ [] := by
  intro none
  have pieces := components_eq p
  rw [none] at pieces
  obtain ⟨start, rest⟩ := List.append_eq_nil_iff.mp pieces.symm
  cases split : Text.pieces '/' p.text.toList with
  | nil => exact Text.pieces_ne_nil _ split
  | cons first others =>
    rw [split] at start rest
    have void : first = [] ∨ first = ['.'] := by
      have unnamed := List.filterMap_eq_nil_iff.mp rest first List.mem_cons_self
      unfold component? at unnamed
      grind
    rcases void with rfl | rfl
    · have alone : others = [] := by simpa [headOf] using start
      rw [alone] at split
      exact full (String.toList_eq_nil_iff.mp (eq_nil_of_pieces split))
    · simp [headOf] at start

/-- A front of the components of a path starts where the path does. -/
theorem origin_of_front (inside : q.components <+: p.components) (some : q.components ≠ []) :
    q.origin current = p.origin current := by
  obtain ⟨back, whole⟩ := inside
  have same : p.components.head? = q.components.head? := by
    obtain ⟨c, cs, split⟩ := List.exists_cons_of_ne_nil some
    rw [← whole, split, List.cons_append, List.head?_cons, List.head?_cons]
  have both : p.isAbsolute = true ↔ q.isAbsolute = true := by
    rw [isAbsolute_iff_head, isAbsolute_iff_head, same]
  simp only [origin, both]

theorem OnWay.of_front (way : q.OnWay current l) (inside : q.components <+: p.components)
    (some : q.components ≠ []) : p.OnWay current l := by
  obtain ⟨cs, front, rfl⟩ := way
  exact ⟨cs, front.trans inside, by rw [origin_of_front inside some]⟩

theorem of_mem_parents (member : q ∈ parents limit p) :
    q.components <+: p.components ∧ q.text ≠ "" := by
  induction limit generalizing p with
  | zero => cases member
  | succ limit ih =>
    rw [parents] at member
    split at member
    · cases member
    · rename_i r parent
      have front : r.components <+: p.components := by
        rw [components_parent parent]
        exact List.dropLast_prefix _
      split at member
      · cases member
      · rename_i full
        rcases List.mem_cons.mp member with rfl | member
        · exact ⟨front, by simpa using full⟩
        · exact ⟨(ih member).1.trans front, (ih member).2⟩

theorem onWay_of_mem_enclosing (member : q ∈ p.enclosing) : p.OnWay current (q.resolve current) := by
  rw [enclosing] at member
  split at member
  · cases member
  · rcases List.mem_cons.mp member with rfl | member
    · exact onWay_resolve q
    · obtain ⟨front, full⟩ := of_mem_parents member
      exact (onWay_resolve q).of_front front (components_ne_nil full)

/-- Without a step up a front of a path leads on by its names. -/
theorem foldl_front (front : cs <+: p.components) (level : .up ∉ cs) :
    cs.foldl Component.step (p.origin current) = p.origin current ++ cs.filterMap Component.name? := by
  obtain ⟨start, inner, whole, all, either⟩ := components_cases p
  rw [whole] at front
  have later : ∀ ds, ds <+: inner → .up ∉ ds →
      ds.foldl Component.step (p.origin current) = p.origin current ++ ds.filterMap Component.name? :=
    fun ds inside level => foldl_step _ (fun c member => all c (inside.subset member)) level
  rcases either with ⟨rfl, absolute⟩ | ⟨rfl | rfl, _⟩
  · rcases List.prefix_cons_iff.mp front with rfl | ⟨ds, rfl, inside⟩
    · exact later [] List.nil_prefix (by simp)
    · have same := later ds inside fun member => level (List.mem_cons_of_mem _ member)
      rw [origin, if_pos absolute] at same ⊢
      exact same
  · rcases List.prefix_cons_iff.mp front with rfl | ⟨ds, rfl, inside⟩
    · exact later [] List.nil_prefix (by simp)
    · exact later ds inside fun member => level (List.mem_cons_of_mem _ member)
  · exact later cs front level

end Path

namespace Disk.Files

variable {fs gs : Files} {p : Path} {k l d : Location} {n : Node} {pieces : List String}

/-! ### Paths without a step up -/

/-- What something lies in is a directory. -/
theorem WellFormed.directory_of_front (wf : fs.WellFormed) (taken : fs.get? l = some n)
    (inside : k <+: l) (other : k ≠ l) : fs.get? k = some .directory := by
  induction l using List.reverseRecOn generalizing n with
  | nil => exact absurd (List.prefix_nil.mp inside) other
  | append_singleton front name ih =>
    have directory : fs.get? front = some .directory := by
      have parent := wf.enclosed _ _ taken
      rwa [List.dropLast_concat] at parent
    have within := (List.prefix_concat_iff.mp inside).resolve_left other
    by_cases same : k = front
    · exact same ▸ directory
    · exact ih directory within same

theorem follow_front (level : ".." ∉ pieces) (led : fs.follow d pieces = .ok l) : d <+: l := by
  induction pieces generalizing d with
  | nil =>
    cases led
    exact List.prefix_refl _
  | cons piece rest ih =>
    obtain ⟨_, _, led⟩ := follow_cons.mp led
    have further := ih (fun member => level (List.mem_cons_of_mem _ member)) led
    have other : piece ≠ ".." := fun same => level (by simp [same])
    have step : d <+: stepTo d piece := by
      unfold stepTo
      split
      · exact List.prefix_refl _
      · rw [if_neg (by simpa using other)]
        exact List.prefix_append _ _
    exact step.trans further

theorem not_mem_piecesOf (level : .up ∉ p.components) : ".." ∉ piecesOf p := by
  intro member
  obtain ⟨piece, inside, same⟩ := List.mem_map.mp member
  have dots : piece = ['.', '.'] := by simpa using congrArg String.toList same
  have shown : Component.up ∈ (Text.pieces '/' p.text.toList).filterMap Path.component? :=
    List.mem_filterMap.mpr ⟨piece, (List.mem_filter.mp inside).1, by rw [dots]; rfl⟩
  rw [Path.components_eq] at level
  exact level (List.mem_append_right _ shown)

/-- Without a step up a path to something leads there on every disk that has it. -/
theorem locate_of_level (wf : fs.WellFormed) (current : gs.current = fs.current)
    (level : .up ∉ p.components) (led : gs.locate p = .ok l) (taken : gs.get? l = some n)
    (there : fs.get? l = some n) : fs.locate p = .ok l := by
  have walk : ∀ (pieces : List String) (d : Location), ".." ∉ pieces →
      gs.follow d pieces = .ok l → fs.follow d pieces = .ok l := by
    intro pieces
    induction pieces with
    | nil => exact fun d _ led => led
    | cons piece rest ih =>
      intro d level led
      have inside := follow_front level led
      obtain ⟨directory, short, led⟩ := follow_cons.mp led
      refine follow_cons.mpr ⟨?_, short, ih _ (fun member => level (List.mem_cons_of_mem _ member)) led⟩
      by_cases same : d = l
      · rw [same, taken] at directory
        rw [same, there, directory]
      · exact wf.directory_of_front there inside same
  obtain ⟨full, clean, led⟩ := locate_ok.mp led
  refine locate_ok.mpr ⟨full, clean, walk _ _ (not_mem_piecesOf level) ?_⟩
  rwa [startOf, ← current]

end Disk.Files

namespace Disk.Staged

open Path (IsPlain OnWay)

variable {target dir : Path} {l current : Location} {name nonce : String}

/-! ### The directory of a target -/

theorem directoryOf_cases (target : Path) :
    directoryOf target = ⟨"."⟩ ∧ target.components.dropLast = [] ∨
      (directoryOf target).components = target.components.dropLast ∧
        (directoryOf target).components ≠ [] := by
  unfold directoryOf
  cases parent : target.parent? with
  | none =>
    refine .inl ⟨rfl, ?_⟩
    rcases Path.components_of_no_parent parent with none | root
    · rw [none]
      rfl
    · rw [root]
      rfl
  | some q =>
    have components := Path.components_parent parent
    dsimp only
    split
    · rename_i empty
      have blank : q = ⟨""⟩ := by
        cases q
        simpa using empty
      refine .inl ⟨rfl, ?_⟩
      rw [← components, blank]
      rfl
    · rename_i full
      exact .inr ⟨components, Path.components_ne_nil (by simpa using full)⟩

/-- A target with a name lies in its directory. -/
theorem resolve_target (named : target.fileName? = some name) (current : Location) :
    target.resolve current = (directoryOf target).resolve current ++ [name] := by
  obtain ⟨front, split⟩ := List.getLast?_eq_some_iff.mp (Path.fileName?_eq_some.mp named)
  have whole : target.resolve current = front.foldl Component.step current ++ [name] := by
    rw [Path.resolve, split, List.foldl_append]
    rfl
  have cut : target.components.dropLast = front := by rw [split, List.dropLast_concat]
  rw [whole]
  congr 1
  rcases directoryOf_cases target with ⟨dot, none⟩ | ⟨inner, _⟩
  · rw [dot, ← cut, none]
    rfl
  · rw [Path.resolve, inner, cut]

theorem resolve_temporaryPath (made : IsNonce nonce) (target : Path) (current : Location) :
    (temporaryPath target nonce).resolve current =
      (directoryOf target).resolve current ++ [temporaryName (baseOf target) nonce] :=
  Path.resolve_join _ (isPlain_temporaryName (not_slash_baseOf target) made) current

/-- On the way to the directory of a target lies nothing but what is on the way to the target before
its last component, or the current directory. -/
theorem onWay_directoryOf (way : (directoryOf target).OnWay current l) :
    l = current ∧ target.components.dropLast = [] ∨
      ∃ cs, cs <+: target.components.dropLast ∧ target.components.dropLast ≠ [] ∧
        l = cs.foldl Component.step (target.origin current) := by
  obtain ⟨cs, front, rfl⟩ := way
  rcases directoryOf_cases target with ⟨dot, none⟩ | ⟨inner, some⟩
  · left
    rw [dot] at front ⊢
    have single : (⟨"."⟩ : Path).components = [.here] := rfl
    rw [single, List.prefix_cons_iff] at front
    rcases front with rfl | ⟨ds, rfl, nothing⟩
    · exact ⟨rfl, none⟩
    · rw [List.prefix_nil.mp nothing]
      exact ⟨rfl, none⟩
  · right
    have inside : (directoryOf target).components <+: target.components := by
      rw [inner]
      exact List.dropLast_prefix _
    exact ⟨cs, inner ▸ front, inner ▸ some, by rw [Path.origin_of_front inside some]⟩

/-- The way to what is joined to a directory is the way to the directory. -/
theorem onWay_directoryOf_join (plain : IsPlain name)
    (way : (directoryOf (dir.join ⟨name⟩)).OnWay current l) : dir.OnWay current l := by
  by_cases empty : dir.text = ""
  · have blank : dir = ⟨""⟩ := by
      cases dir
      simpa using empty
    have joined : dir.join ⟨name⟩ = ⟨name⟩ := by simp [Path.join, empty]
    have single : (⟨name⟩ : Path).components.dropLast = [] := by
      rw [Path.components_eq, Path.componentsOf, Path.filterMap_plain plain, Text.pieces_plain plain.slash]
      simp [Path.headOf, plain.toList_ne_nil, plain.toList_ne_dot]
    rw [joined] at way
    rcases onWay_directoryOf way with ⟨rfl, _⟩ | ⟨_, _, some, _⟩
    · exact ⟨[], List.nil_prefix, by rw [blank]; rfl⟩
    · exact absurd single some
  · have whole : (dir.join ⟨name⟩).components.dropLast = dir.components := by
      rw [Path.components_join empty plain.not_absolute, Path.filterMap_plain plain, List.dropLast_concat]
    have some := Path.components_ne_nil empty
    rcases onWay_directoryOf way with ⟨_, none⟩ | ⟨cs, front, _, rfl⟩
    · exact absurd (whole.symm.trans none) some
    · have inside : dir.components <+: (dir.join ⟨name⟩).components := by
        rw [← whole]
        exact List.dropLast_prefix _
      exact ⟨cs, whole ▸ front, by rw [Path.origin_of_front inside some]⟩

/-- Without a step up a target does not lie on the way to its own directory. -/
theorem ne_of_onWay (named : target.fileName? = some name) (level : .up ∉ target.components)
    (way : (directoryOf target).OnWay current l) : l ≠ target.resolve current := by
  obtain ⟨front, split⟩ := List.getLast?_eq_some_iff.mp (Path.fileName?_eq_some.mp named)
  have whole : target.resolve current =
      target.origin current ++ (front.filterMap Component.name? ++ [name]) := by
    rw [← Path.resolve_origin, Path.resolve, Path.foldl_front (List.prefix_refl _) level, split,
      List.filterMap_append]
    rfl
  have cut : target.components.dropLast = front := by rw [split, List.dropLast_concat]
  intro same
  have length := congrArg List.length (same.trans whole)
  rcases onWay_directoryOf way with ⟨rfl, none⟩ | ⟨cs, inside, _, rfl⟩
  · have relative : target.isAbsolute = false := by
      rw [cut] at none
      rw [Bool.eq_false_iff, ne_eq, Path.isAbsolute_iff_head, split, none]
      simp
    simp [Path.origin, relative] at length
  · rw [cut] at inside
    have level : .up ∉ cs := fun member => level (split ▸ List.mem_append_left _ (inside.subset member))
    rw [Path.foldl_front (inside.trans (split ▸ List.prefix_append _ _)) level] at length
    have few := (inside.sublist.filterMap Component.name?).length_le
    simp only [List.length_append, List.length_singleton] at length
    omega

end Disk.Staged

end SourceRepair
