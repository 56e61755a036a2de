import Mathlib.Data.List.TakeWhile
import SourceRepair.Proofs.Disk.Files

/-!
# What paths mean by their components

The components of a path can be read off the pieces between its slashes, so it can be said what joining
a path to a directory, cutting off its last component and writing its components down again do to them.
A path that leads somewhere leads to where its components say.
-/

namespace SourceRepair

open Disk (Files Location)
open Disk.Files (piecesOf stepTo)

/-- One step on the way from a directory, without a look at the disk. -/
def Component.step (l : Location) : Component → Location
  | root => []
  | here => l
  | up => l.dropLast
  | name s => l ++ [s]

def Component.name? : Component → Option String
  | name s => some s
  | _ => none

/-- A component that can stand anywhere in a path. -/
def Component.IsInner : Component → Prop
  | up => True
  | name s => Path.IsPlain s
  | _ => False

namespace Path

variable {p q : Path} {ps qs : List (List Char)} {cs : List Component} {c : Component}

/-- The location that a path means if its dots are followed without a look at the disk. -/
def resolve (current : Location) (p : Path) : Location := p.components.foldl Component.step current

/-- The names in a path. -/
def names (p : Path) : List String := p.components.filterMap Component.name?

/-! ### Components from pieces -/

/-- The component that only the start of a path can have. -/
def headOf : List (List Char) → List Component
  | [] => []
  | first :: rest =>
    if first = [] ∧ rest ≠ [] then [.root] else if first = ['.'] then [.here] else []

/-- The components of a path with these pieces. -/
def componentsOf (ps : List (List Char)) : List Component := headOf ps ++ ps.filterMap component?

theorem isAbsolute_iff : p.isAbsolute = true ↔ headOf (Text.pieces '/' p.text.toList) = [.root] := by
  unfold isAbsolute
  cases p.text.toList with
  | nil => simp [Text.pieces, headOf]
  | cons c cs =>
    by_cases slash : c = '/'
    · simp [slash, Text.pieces, Text.pieces_ne_nil, headOf]
    · simp only [List.head?_cons, beq_iff_eq, Option.some.injEq, slash, Text.pieces, if_false, false_iff]
      split <;> grind [headOf]

theorem components_eq (p : Path) : p.components = componentsOf (Text.pieces '/' p.text.toList) := by
  unfold components componentsOf
  by_cases absolute : p.isAbsolute = true
  · rw [if_pos absolute, isAbsolute_iff.mp absolute]
    rfl
  · rw [if_neg absolute]
    rw [isAbsolute_iff] at absolute
    cases same : Text.pieces '/' p.text.toList with
    | nil => rfl
    | cons first rest =>
      rw [same] at absolute
      unfold headOf at absolute ⊢
      by_cases dot : first = ['.']
      · simp [dot]
      · simp_all

theorem isInner_of_component? {piece : List Char} (plain : '/' ∉ piece) (shown : component? piece = some c) :
    c.IsInner ∧ c.text.toList = piece := by
  unfold component? at shown
  split at shown
  · cases shown
  · rename_i void
    split at shown
    · rename_i dots
      cases shown
      exact ⟨trivial, (beq_iff_eq.mp dots).symm⟩
    · rename_i dots
      cases shown
      simp only [Bool.or_eq_true, beq_iff_eq, not_or] at void dots
      refine ⟨⟨?_, by simpa using plain, ?_, ?_⟩, by simp [Component.text]⟩
      · simpa using void.1
      · exact fun same => void.2 (by simpa using congrArg String.toList same)
      · exact fun same => dots (by simpa using congrArg String.toList same)

theorem component?_text (inner : c.IsInner) : component? c.text.toList = some c := by
  cases c with
  | root => cases inner
  | here => cases inner
  | up => rfl
  | name s => exact component?_plain inner

theorem not_slash_text (inner : c.IsInner) : '/' ∉ c.text.toList := by
  cases c with
  | root => cases inner
  | here => cases inner
  | up => decide
  | name s => exact inner.slash

theorem isInner_of_mem {text : String} (member : c ∈ (Text.pieces '/' text.toList).filterMap component?) :
    c.IsInner := by
  obtain ⟨piece, inside, shown⟩ := List.mem_filterMap.mp member
  exact (isInner_of_component? (Text.mem_pieces_plain inside) shown).1

theorem headOf_cases (ps : List (List Char)) : headOf ps = [.root] ∨ headOf ps = [.here] ∨ headOf ps = [] := by
  cases ps with
  | nil => exact .inr (.inr rfl)
  | cons first rest => grind [headOf]

/-- Only the first component can be one that is not inner. -/
theorem components_cases (p : Path) : ∃ front cs, p.components = front ++ cs ∧ (∀ c ∈ cs, c.IsInner) ∧
    (front = [.root] ∧ p.isAbsolute = true ∨ (front = [.here] ∨ front = []) ∧ p.isAbsolute = false) := by
  refine ⟨_, _, components_eq p, fun c => isInner_of_mem, ?_⟩
  by_cases absolute : p.isAbsolute = true
  · exact .inl ⟨isAbsolute_iff.mp absolute, absolute⟩
  · exact .inr ⟨(headOf_cases _).resolve_left (mt isAbsolute_iff.mpr absolute), by simpa using absolute⟩

/-- The names in a path are plain. -/
theorem isPlain_of_mem_components {name : String} (member : .name name ∈ p.components) : IsPlain name := by
  obtain ⟨front, inner, whole, all, start⟩ := components_cases p
  rw [whole, List.mem_append] at member
  refine all (.name name) (member.resolve_left fun first => ?_)
  rcases start with ⟨rfl, _⟩ | ⟨rfl | rfl, _⟩ <;> simp at first

/-! ### Writing components down -/

theorem headOf_append {xs : List (List Char)} (full : ps ≠ []) (some : xs ≠ []) (other : qs ≠ []) :
    headOf (ps ++ xs) = headOf (ps ++ qs) := by
  obtain ⟨p, ps, rfl⟩ := List.exists_cons_of_ne_nil full
  simp [headOf, some, other]

theorem components_joinPieces (plain : ∀ p ∈ ps, '/' ∉ p) :
    (⟨joinPieces ps⟩ : Path).components = componentsOf ps := by
  rw [components_eq, joinPieces, String.toList_ofList]
  by_cases empty : ps = []
  · subst empty
    rfl
  · rw [Text.pieces_intercalate empty plain]

theorem components_slash {text : String} : (⟨"/" ++ text⟩ : Path).components =
    .root :: (Text.pieces '/' text.toList).filterMap component? := by
  have pieces : Text.pieces '/' ("/" ++ text).toList = [] :: Text.pieces '/' text.toList := by
    simp [Text.pieces]
  rw [components_eq, pieces, componentsOf, headOf, if_pos ⟨rfl, Text.pieces_ne_nil _⟩]
  rfl

theorem filterMap_text (inner : ∀ c ∈ cs, c.IsInner) :
    (cs.map fun c => c.text.toList).filterMap component? = cs := by
  induction cs with
  | nil => rfl
  | cons c cs ih =>
    rw [List.map_cons, List.filterMap_cons, component?_text (inner c List.mem_cons_self),
      ih fun d member => inner d (List.mem_cons_of_mem _ member)]

theorem intercalate_text (cs : List Component) : String.intercalate "/" (cs.map Component.text) =
    joinPieces (cs.map fun c => c.text.toList) :=
  String.toList_injective (by simp [joinPieces, String.toList_intercalate, Function.comp_def])

theorem filterMap_joinPieces (plain : ∀ p ∈ ps, '/' ∉ p) :
    (Text.pieces '/' (joinPieces ps).toList).filterMap component? = ps.filterMap component? := by
  rw [joinPieces, String.toList_ofList]
  by_cases empty : ps = []
  · subst empty
    rfl
  · rw [Text.pieces_intercalate empty plain]

theorem isInner_of_suffix (suffix : c :: cs <:+ p.components) :
    (∀ d ∈ cs, d.IsInner) ∧ (c = .root ∨ c = .here ∨ c.IsInner) := by
  obtain ⟨pre, whole⟩ := suffix
  obtain ⟨front, inner, parts, all, start⟩ := components_cases p
  have inside : ∀ pre', pre' ++ c :: cs = inner → (∀ d ∈ cs, d.IsInner) ∧ c.IsInner := by
    rintro pre' rfl
    exact ⟨fun d member => all d (by simp [member]), all c (by simp)⟩
  rw [parts] at whole
  cases pre with
  | nil =>
    rcases start with ⟨rfl, _⟩ | ⟨rfl | rfl, _⟩
    · cases whole
      exact ⟨all, .inl rfl⟩
    · cases whole
      exact ⟨all, .inr (.inl rfl)⟩
    · exact (inside [] whole).imp_right fun inner => .inr (.inr inner)
  | cons first pre =>
    rcases start with ⟨rfl, _⟩ | ⟨rfl | rfl, _⟩
    · exact (inside pre (List.cons.inj whole).2).imp_right fun inner => .inr (.inr inner)
    · exact (inside pre (List.cons.inj whole).2).imp_right fun inner => .inr (.inr inner)
    · exact (inside (first :: pre) whole).imp_right fun inner => .inr (.inr inner)

/-- Components that are written down are read back. -/
theorem components_ofComponents (suffix : cs <:+ p.components) : (ofComponents cs).components = cs := by
  cases cs with
  | nil => rfl
  | cons c cs =>
    obtain ⟨all, either⟩ := isInner_of_suffix suffix
    have plain : ∀ piece ∈ cs.map fun c => c.text.toList, '/' ∉ piece := by
      intro piece member
      obtain ⟨d, inside, rfl⟩ := List.mem_map.mp member
      exact not_slash_text (all d inside)
    rcases either with rfl | rfl | inner
    · show (⟨"/" ++ String.intercalate "/" (cs.map Component.text)⟩ : Path).components = .root :: cs
      rw [components_slash, intercalate_text, filterMap_joinPieces plain, filterMap_text all]
    · show (⟨String.intercalate "/" ((Component.here :: cs).map Component.text)⟩ : Path).components = .here :: cs
      rw [intercalate_text, List.map_cons, components_joinPieces (List.forall_mem_cons.mpr ⟨by decide, plain⟩),
        componentsOf, List.filterMap_cons, filterMap_text all]
      rfl
    · have written : ofComponents (c :: cs) = ⟨String.intercalate "/" ((c :: cs).map Component.text)⟩ := by
        cases c with
        | root => cases inner
        | here | up | name => rfl
      have none : headOf (c.text.toList :: cs.map fun c => c.text.toList) = [] := by
        have shown := component?_text inner
        unfold component? at shown
        grind [headOf]
      rw [written, intercalate_text, List.map_cons,
        components_joinPieces (List.forall_mem_cons.mpr ⟨not_slash_text inner, plain⟩), componentsOf, none,
        List.nil_append]
      exact filterMap_text (List.forall_mem_cons.mpr ⟨inner, all⟩)

theorem relativeTo?_eq {base : Path} (inside : p.components = base.components ++ cs) :
    p.relativeTo? base = some (ofComponents cs) := by
  have within : base.components.isPrefixOf p.components = true :=
    List.isPrefixOf_iff_prefix.mpr ⟨cs, inside.symm⟩
  unfold relativeTo?
  dsimp only
  rw [if_pos within, inside, List.drop_left]

/-! ### The parent of a path -/

theorem component?_void {piece : List Char} (void : isVoid piece = true) : component? piece = none := if_pos void

theorem trimVoid_eq (ps : List (List Char)) : ∃ voids, ps = trimVoid ps ++ voids ∧ ∀ p ∈ voids, isVoid p = true := by
  refine ⟨(ps.reverse.takeWhile isVoid).reverse, ?_, fun p member => ?_⟩
  · rw [trimVoid, ← List.reverse_append, List.takeWhile_append_dropWhile, List.reverse_reverse]
  · exact List.mem_takeWhile_imp (List.mem_reverse.mp member)

theorem filterMap_trimVoid (ps : List (List Char)) :
    (trimVoid ps).filterMap component? = ps.filterMap component? := by
  obtain ⟨voids, whole, void⟩ := trimVoid_eq ps
  have none : voids.filterMap component? = [] :=
    List.filterMap_eq_nil_iff.mpr fun p member => component?_void (void p member)
  have all := congrArg (List.filterMap component?) whole
  rw [List.filterMap_append, none, List.append_nil] at all
  exact all.symm

theorem isVoid_getLast {piece : List Char} (last : (trimVoid ps).getLast? = some piece) :
    isVoid piece = false := by
  have first := List.head?_dropWhile_not isVoid ps.reverse
  rw [trimVoid, List.getLast?_reverse] at last
  rwa [last] at first

/-- Without its last piece that says something a path lacks its last component. -/
theorem filterMap_dropLastPiece (ps : List (List Char)) :
    (dropLastPiece ps).filterMap component? = (ps.filterMap component?).dropLast := by
  rw [dropLastPiece, filterMap_trimVoid, ← filterMap_trimVoid ps]
  cases last : (trimVoid ps).getLast? with
  | none => rw [List.getLast?_eq_none_iff.mp last]; rfl
  | some piece =>
    have full := isVoid_getLast last
    obtain ⟨front, split⟩ := List.getLast?_eq_some_iff.mp last
    have shown : ∃ c, component? piece = some c := by
      unfold component?
      rw [isVoid] at full
      rw [full]
      simp only [Bool.false_eq_true, if_false]
      split <;> exact ⟨_, rfl⟩
    obtain ⟨c, shown⟩ := shown
    rw [split, List.dropLast_concat, List.filterMap_append, List.filterMap_cons, shown, List.filterMap_nil,
      List.dropLast_concat]

theorem dropLastPiece_isFront (ps : List (List Char)) : dropLastPiece ps <+: ps := by
  have trimmed : ∀ ps : List (List Char), trimVoid ps <+: ps := fun ps =>
    ⟨_, (trimVoid_eq ps).choose_spec.1.symm⟩
  exact (trimmed _).trans ((List.dropLast_prefix _).trans (trimmed ps))

theorem headOf_of_front (front : qs <+: ps) (none : headOf ps = []) : headOf qs = [] := by
  obtain ⟨back, rfl⟩ := front
  cases qs with
  | nil => rfl
  | cons first rest => grind [headOf, List.append_eq_nil_iff]

/-- A component that only the start can have is the last of none but itself. -/
theorem components_of_last (last : p.components.getLast? = some c) (outer : ¬c.IsInner) :
    p.components = [c] := by
  obtain ⟨front, inner, whole, all, start⟩ := components_cases p
  rw [whole] at last ⊢
  cases split : inner.getLast? with
  | none =>
    rw [List.getLast?_eq_none_iff.mp split, List.append_nil] at last ⊢
    rcases start with ⟨rfl, _⟩ | ⟨rfl | rfl, _⟩ <;> simp_all
  | some d =>
    rw [List.getLast?_append, split, Option.some_or] at last
    cases last
    exact absurd (all c (List.mem_of_getLast? split)) outer

theorem dropLast_componentsOf (some : ps.filterMap component? ≠ []) :
    (componentsOf ps).dropLast = headOf ps ++ (ps.filterMap component?).dropLast :=
  List.dropLast_append_of_ne_nil some

/-- The parent of a path has its components but the last. -/
theorem components_parent (parent : p.parent? = some q) : q.components = p.components.dropLast := by
  unfold parent? at parent
  split at parent
  case h_1 | h_2 | h_3 => cases parent
  case h_4 last _ =>
    cases parent
    rw [components_of_last last id]
    rfl
  case h_5 c first rest root here last pieces =>
    have whole := components_eq p
    rw [pieces] at whole
    have plain : ∀ piece ∈ first :: rest, '/' ∉ piece := fun piece member =>
      Text.mem_pieces_plain (pieces ▸ member)
    have kept : ∀ piece ∈ dropLastPiece rest, '/' ∉ piece := fun piece member =>
      plain piece (List.mem_cons_of_mem _ (dropLastPiece_subset rest member))
    have some : (first :: rest).filterMap component? ≠ [] := by
      intro none
      rw [whole, componentsOf, none, List.append_nil] at last
      rcases headOf_cases (first :: rest) with same | same | same <;> rw [same] at last
      · exact root (Option.some.inj last).symm
      · exact here (Option.some.inj last).symm
      · cases last
    rw [whole, dropLast_componentsOf some]
    by_cases absolute : p.isAbsolute = true
    · have start := isAbsolute_iff.mp absolute
      rw [pieces] at start
      rw [if_pos absolute] at parent
      cases parent
      have void : first = [] := by grind [headOf]
      rw [components_slash, filterMap_joinPieces kept, filterMap_dropLastPiece, start, void]
      rfl
    · rw [if_neg absolute] at parent
      split at parent
      · rename_i dot
        cases parent
        rw [beq_iff_eq] at dot
        subst dot
        rw [components_joinPieces (List.forall_mem_cons.mpr ⟨by decide, kept⟩)]
        show Component.here :: (dropLastPiece rest).filterMap component? =
          Component.here :: (rest.filterMap component?).dropLast
        rw [filterMap_dropLastPiece]
      · rename_i other
        cases parent
        have none : headOf (first :: rest) = [] := by
          rw [isAbsolute_iff, pieces] at absolute
          grind [headOf]
        rw [components_joinPieces fun piece member => plain piece (dropLastPiece_subset _ member), componentsOf,
          headOf_of_front (dropLastPiece_isFront _) none, none, filterMap_dropLastPiece]

theorem components_of_no_parent (none : p.parent? = none) : p.components = [] ∨ p.components = [.root] := by
  unfold parent? at none
  split at none
  case h_1 last => exact .inl (List.getLast?_eq_none_iff.mp last)
  case h_2 last => exact .inr (components_of_last last id)
  case h_3 pieces _ _ => exact absurd pieces (Text.pieces_ne_nil _)
  case h_4 => cases none
  case h_5 => grind

/-! ### Joining -/

theorem eq_nil_of_pieces {cs : List Char} (void : Text.pieces '/' cs = [[]]) : cs = [] := by
  cases cs with
  | nil => rfl
  | cons c cs =>
    have some : Text.pieces '/' cs ≠ [] := Text.pieces_ne_nil cs
    rw [Text.pieces] at void
    grind

/-- A relative path that is joined to a directory goes on from there. -/
theorem components_join {base : Path} (full : base.text ≠ "") (relative : p.isAbsolute = false) :
    (base.join p).components =
      base.components ++ (Text.pieces '/' p.text.toList).filterMap component? := by
  have some : Text.pieces '/' p.text.toList ≠ [] := Text.pieces_ne_nil _
  have goOn : ∀ text : String, (⟨text ++ "/" ++ p.text⟩ : Path).components =
      headOf (Text.pieces '/' text.toList ++ Text.pieces '/' p.text.toList) ++
        ((Text.pieces '/' text.toList).filterMap component? ++
          (Text.pieces '/' p.text.toList).filterMap component?) := by
    intro text
    have parts : (text ++ "/" ++ p.text).toList = text.toList ++ '/' :: p.text.toList := by simp
    rw [components_eq, parts, Text.pieces_append, componentsOf, List.filterMap_append]
  unfold join
  rw [if_neg (by simp [relative, full])]
  split
  · rename_i last
    -- The slash at the end of the directory separates its pieces from an empty one.
    obtain ⟨front, split⟩ := List.getLast?_eq_some_iff.mp (by simpa using last)
    have whole : base.text = String.ofList front ++ "/" := String.toList_injective (by simp [split])
    have void : (Text.pieces '/' []).filterMap component? = [] := rfl
    rw [whole, goOn, components_eq base, split, Text.pieces_append, componentsOf, String.toList_ofList,
      headOf_append (Text.pieces_ne_nil _) some (Text.pieces_ne_nil []), List.filterMap_append, void,
      List.append_nil, List.append_assoc]
  · have start : headOf (Text.pieces '/' base.text.toList ++ Text.pieces '/' p.text.toList) =
        headOf (Text.pieces '/' base.text.toList) := by
      have void : Text.pieces '/' base.text.toList ≠ [[]] := fun same =>
        full (String.toList_eq_nil_iff.mp (eq_nil_of_pieces same))
      cases split : Text.pieces '/' base.text.toList with
      | nil => exact absurd split (Text.pieces_ne_nil _)
      | cons first rest => grind [headOf, List.append_eq_nil_iff]
    rw [goOn, start, components_eq base, componentsOf, List.append_assoc]

/-! ### Where paths lead -/

theorem resolve_of_isAbsolute (absolute : p.isAbsolute = true) (l l' : Location) :
    p.resolve l = p.resolve l' := by
  obtain ⟨front, inner, whole, _, start⟩ := components_cases p
  obtain ⟨rfl, _⟩ := start.resolve_right fun relative => by simp [absolute] at relative
  rw [resolve, resolve, whole]
  rfl

theorem fileName?_eq_some {name : String} :
    p.fileName? = some name ↔ p.components.getLast? = some (.name name) := by
  unfold fileName?
  split
  · rename_i s last
    simp [last]
  · rename_i other
    exact ⟨nofun, fun last => absurd last (other name)⟩

theorem filterMap_plain {name : String} (plain : IsPlain name) :
    (Text.pieces '/' name.toList).filterMap component? = [.name name] := by
  rw [Text.pieces_plain plain.slash, List.filterMap_cons, component?_plain plain, List.filterMap_nil]

/-- A plain name that is joined to a directory means a place in it. -/
theorem resolve_join (dir : Path) {name : String} (plain : IsPlain name) (current : Location) :
    (dir.join ⟨name⟩).resolve current = dir.resolve current ++ [name] := by
  have single := filterMap_plain plain
  by_cases empty : dir.text = ""
  · have none : dir = ⟨""⟩ := by
      cases dir
      simpa using empty
    have alone : (⟨name⟩ : Path).components = [.name name] := by
      rw [components_eq, componentsOf, single, Text.pieces_plain plain.slash]
      simp [headOf, plain.toList_ne_nil, plain.toList_ne_dot]
    rw [none, resolve, join, if_pos (by simp), alone]
    rfl
  · rw [resolve, components_join empty plain.not_absolute, single, List.foldl_append]
    rfl

/-- Without a step up inner components lead on by their names. -/
theorem foldl_step (l : Location) (inner : ∀ c ∈ cs, c.IsInner) (level : .up ∉ cs) :
    cs.foldl Component.step l = l ++ cs.filterMap Component.name? := by
  induction cs generalizing l with
  | nil => simp
  | cons c cs ih =>
    obtain ⟨first, rest⟩ := List.forall_mem_cons.mp inner
    have other : c ≠ .up := fun same => level (by simp [same])
    rw [List.foldl_cons, ih _ rest fun member => level (List.mem_cons_of_mem _ member)]
    cases c with
    | root | here => cases first
    | up => exact absurd rfl other
    | name s => simp [Component.step, Component.name?]

/-- Without a step up a path means its start and the names in it. -/
theorem resolve_eq {current : Location} (level : .up ∉ p.components) :
    p.resolve current = (if p.isAbsolute then [] else current) ++ p.names := by
  obtain ⟨front, inner, whole, all, start⟩ := components_cases p
  have level : .up ∉ inner := fun member => level (whole ▸ List.mem_append_right _ member)
  rw [resolve, names, whole, List.foldl_append, List.filterMap_append, foldl_step _ all level]
  rcases start with ⟨rfl, absolute⟩ | ⟨rfl | rfl, relative⟩
  · rw [absolute]
    rfl
  · rw [relative]
    rfl
  · rw [relative]
    rfl

theorem foldl_stepTo (ps : List (List Char)) (l : Location) :
    ((ps.filter (!·.isEmpty)).map String.ofList).foldl stepTo l = (ps.filterMap component?).foldl Component.step l := by
  induction ps generalizing l with
  | nil => rfl
  | cons piece ps ih =>
    by_cases empty : piece = []
    · subst empty
      exact ih l
    · have step : stepTo l (String.ofList piece) = ((component? piece).map (·.step l)).getD l := by
        by_cases dot : piece = ['.']
        · subst dot
          rfl
        · by_cases dots : piece = ['.', '.']
          · subst dots
            rfl
          · have plain : String.ofList piece ≠ "." ∧ String.ofList piece ≠ ".." :=
              ⟨fun same => dot (by simpa using congrArg String.toList same),
                fun same => dots (by simpa using congrArg String.toList same)⟩
            simp [component?, empty, dot, dots, stepTo, plain, Component.step]
      rw [List.filter_cons_of_pos (by simp [empty]), List.map_cons, List.foldl_cons, ih, step,
        List.filterMap_cons]
      cases component? piece <;> rfl

/-- A path that leads somewhere leads to where its components say. -/
theorem locate_resolve {fs : Files} {l : Location} (led : fs.locate p = .ok l) : l = p.resolve fs.current := by
  have follow : ∀ (pieces : List String) (d : Location), fs.follow d pieces = .ok l → l = pieces.foldl stepTo d := by
    intro pieces
    induction pieces with
    | nil => exact fun d led => (Except.ok.inj led).symm
    | cons piece rest ih => exact fun d led => ih _ (Files.follow_cons.mp led).2.2
  obtain ⟨_, _, led⟩ := Files.locate_ok.mp led
  rw [follow _ _ led, piecesOf, foldl_stepTo, resolve, components_eq, componentsOf, List.foldl_append, Files.startOf]
  congr 1
  by_cases absolute : p.isAbsolute = true
  · rw [if_pos absolute, isAbsolute_iff.mp absolute]
    rfl
  · rw [if_neg absolute]
    rcases (headOf_cases _).resolve_left (mt isAbsolute_iff.mpr absolute) with same | same <;> rw [same] <;> rfl

end Path

end SourceRepair
