import SourceRepair.Disk.Files

/-!
# Pieces of paths

What a path means on a disk is decided by the pieces between its slashes. A plain name that is joined
to a path is its last piece and its file name, and what encloses a path has no other pieces.
-/

namespace SourceRepair

namespace Text

variable {sep : Char}

theorem pieces_ne_nil (cs : List Char) : pieces sep cs ≠ [] := by
  cases cs with
  | nil => simp [pieces]
  | cons c cs =>
    simp only [pieces]
    split
    · simp
    · split <;> simp

theorem pieces_append (xs ys : List Char) :
    pieces sep (xs ++ sep :: ys) = pieces sep xs ++ pieces sep ys := by
  induction xs with
  | nil => simp [pieces]
  | cons c cs ih =>
    rw [List.cons_append, pieces, ih, pieces]
    split
    · rfl
    · cases found : pieces sep cs with
      | nil => exact absurd found (pieces_ne_nil cs)
      | cons p ps => rfl

theorem pieces_plain {xs : List Char} (plain : sep ∉ xs) : pieces sep xs = [xs] := by
  induction xs with
  | nil => rfl
  | cons c cs ih =>
    have other : (c == sep) = false := beq_false_of_ne fun same => plain (by simp [same])
    rw [pieces, other, ih fun member => plain (List.mem_cons_of_mem _ member)]
    rfl

theorem mem_pieces_plain {xs p : List Char} (member : p ∈ pieces sep xs) : sep ∉ p := by
  induction xs generalizing p with
  | nil =>
    rw [pieces, List.mem_singleton] at member
    simp [member]
  | cons c cs ih =>
    rw [pieces] at member
    split at member
    · rcases List.mem_cons.mp member with rfl | member
      · simp
      · exact ih member
    · rename_i other
      split at member
      · rename_i q qs found
        rcases List.mem_cons.mp member with rfl | member
        · have plain := ih (found ▸ List.mem_cons_self)
          simp only [List.mem_cons, not_or]
          exact ⟨fun same => other (by simp [same]), plain⟩
        · exact ih (found ▸ List.mem_cons_of_mem _ member)
      · rename_i found
        exact absurd found (pieces_ne_nil cs)

theorem pieces_intercalate {ps : List (List Char)} (some : ps ≠ []) (plain : ∀ p ∈ ps, sep ∉ p) :
    pieces sep (List.intercalate [sep] ps) = ps := by
  induction ps with
  | nil => exact absurd rfl some
  | cons p rest ih =>
    cases rest with
    | nil => simpa using pieces_plain (plain p List.mem_cons_self)
    | cons q rest =>
      rw [List.intercalate_cons_cons, List.append_assoc, List.singleton_append, pieces_append,
        pieces_plain (plain p List.mem_cons_self),
        ih (by simp) fun r member => plain r (List.mem_cons_of_mem _ member)]
      rfl

end Text

namespace Path

open Disk.Files (piecesOf endsInSlash endsInDots)

/-- A name that means itself wherever it stands in a path. -/
structure IsPlain (name : String) : Prop where
  nonempty : name ≠ ""
  slash : '/' ∉ name.toList
  dot : name ≠ "."
  dots : name ≠ ".."

/-- A name is plain if it has no slash and is longer than two dots. -/
theorem isPlain_of_length {name : String} (long : 3 ≤ name.length) (slash : '/' ∉ name.toList) :
    IsPlain name := by
  refine ⟨?_, slash, ?_, ?_⟩
  · rintro rfl
    exact absurd long (by decide)
  · rintro rfl
    exact absurd long (by decide)
  · rintro rfl
    exact absurd long (by decide)

theorem IsPlain.toList_ne_nil {name : String} (plain : IsPlain name) : name.toList ≠ [] :=
  fun empty => plain.nonempty (String.toList_injective (by simp [empty]))

theorem IsPlain.toList_ne_dot {name : String} (plain : IsPlain name) : name.toList ≠ ['.'] :=
  fun same => plain.dot (String.toList_injective (by simp [same]))

theorem IsPlain.not_absolute {name : String} (plain : IsPlain name) :
    (⟨name⟩ : Path).isAbsolute = false := by
  simp only [isAbsolute, beq_eq_false_iff_ne, ne_eq]
  intro first
  exact plain.slash (List.mem_of_mem_head? (by simp [first]))

theorem piecesOf_plain {name : String} (plain : IsPlain name) : piecesOf ⟨name⟩ = [name] := by
  simp [piecesOf, Text.pieces_plain plain.slash, plain.nonempty]

theorem piecesOf_append {text name : String} (plain : IsPlain name) :
    piecesOf ⟨text ++ "/" ++ name⟩ = piecesOf ⟨text⟩ ++ [name] := by
  have parts : (text ++ "/" ++ name).toList = text.toList ++ '/' :: name.toList := by simp
  simp only [piecesOf, parts, Text.pieces_append, Text.pieces_plain plain.slash]
  simp [plain.nonempty]

/-- A plain name that is joined to a path is its last piece. -/
theorem piecesOf_join (dir : Path) {name : String} (plain : IsPlain name) :
    piecesOf (dir.join ⟨name⟩) = piecesOf dir ++ [name] := by
  simp only [join, plain.not_absolute, Bool.false_or]
  split
  · rename_i empty
    have none : dir = ⟨""⟩ := by
      cases dir
      simpa using empty
    rw [none, piecesOf_plain plain]
    simp [piecesOf, Text.pieces]
  · split
    · rename_i last
      -- The slash at the end of the directory separates its pieces from an empty one.
      obtain ⟨front, split⟩ := List.getLast?_eq_some_iff.mp (by simpa using last)
      have whole : dir.text = String.ofList front ++ "/" := String.toList_injective (by simp [split])
      have trimmed : piecesOf dir = piecesOf ⟨String.ofList front⟩ := by
        simp [piecesOf, split, Text.pieces_append, Text.pieces]
      rw [trimmed, ← piecesOf_append plain, whole]
    · exact piecesOf_append plain

theorem endsInSlash_join (dir : Path) {name : String} (plain : IsPlain name) :
    endsInSlash (dir.join ⟨name⟩) = false := by
  have last : ∀ text : String, (text ++ name).toList.getLast? ≠ some '/' := by
    intro text ends
    rw [String.toList_append, List.getLast?_append] at ends
    cases found : name.toList.getLast? with
    | none => exact plain.toList_ne_nil (List.getLast?_eq_none_iff.mp found)
    | some c =>
      rw [found] at ends
      exact plain.slash (List.mem_of_getLast? (found.trans ends))
  simp only [join, plain.not_absolute, Bool.false_or, endsInSlash, beq_eq_false_iff_ne]
  split
  · simpa using last ""
  · split
    · exact last _
    · exact last _

/-- The text of a joined path has the characters of both, and starts as the first does. -/
theorem join_full {dir : Path} (full : dir.text ≠ "") {name : String} (plain : IsPlain name) :
    (dir.join ⟨name⟩).text ≠ "" ∧
    ((∀ c ∈ (dir.join ⟨name⟩).text.toList, c.toNat ≠ 0) ↔
      (∀ c ∈ dir.text.toList, c.toNat ≠ 0) ∧ ∀ c ∈ name.toList, c.toNat ≠ 0) ∧
    (dir.join ⟨name⟩).isAbsolute = dir.isAbsolute := by
  have starts : ∀ rest : String, (⟨dir.text ++ rest⟩ : Path).isAbsolute = dir.isAbsolute := by
    intro rest
    have some : dir.text.toList ≠ [] := fun none => full (String.toList_eq_nil_iff.mp none)
    obtain ⟨c, cs, split⟩ := List.exists_cons_of_ne_nil some
    simp only [isAbsolute, String.toList_append, split, List.cons_append, List.head?_cons]
  simp only [join, plain.not_absolute, Bool.false_or, beq_iff_eq, full, if_false]
  split
  · refine ⟨by simp [full], ?_, starts name⟩
    simp only [String.toList_append, List.forall_mem_append]
  · refine ⟨by simp [full], ?_, ?_⟩
    · rw [String.toList_append, String.toList_append, List.forall_mem_append, List.forall_mem_append]
      have clean : ∀ c ∈ "/".toList, c.toNat ≠ 0 := by simp
      exact ⟨fun all => ⟨all.1.1, all.2⟩, fun all => ⟨⟨all.1, clean⟩, all.2⟩⟩
    · rw [String.append_assoc]
      exact starts _

theorem join_ne_empty {dir : Path} (full : dir.text ≠ "") (p : Path) : (dir.join p).text ≠ "" := by
  unfold join
  split
  · rename_i either
    intro empty
    simp [isAbsolute, empty, full] at either
  · split <;> simp [full]

theorem endsInDots_of_pieces {p : Path} {front : List String} {name : String}
    (pieces : piecesOf p = front ++ [name]) (plain : IsPlain name) : endsInDots p = false := by
  simp [endsInDots, pieces, plain.dot, plain.dots]

theorem mem_piecesOf {p : Path} {piece : String} (member : piece ∈ piecesOf p) :
    piece ≠ "" ∧ '/' ∉ piece.toList := by
  obtain ⟨cs, found, rfl⟩ := List.mem_map.mp member
  obtain ⟨found, full⟩ := List.mem_filter.mp found
  refine ⟨fun empty => ?_, by simpa using Text.mem_pieces_plain found⟩
  simp [String.ofList_eq_empty_iff.mp empty] at full

theorem component?_plain {name : String} (plain : IsPlain name) :
    component? name.toList = some (.name name) := by
  have dots : name.toList ≠ ['.', '.'] :=
    fun same => plain.dots (String.toList_injective (by simp [same]))
  simp [component?, plain.toList_ne_nil, plain.toList_ne_dot, dots]

/-- Empty pieces are no components. -/
theorem filterMap_component? (ps : List (List Char)) :
    (ps.filter (!·.isEmpty)).filterMap component? = ps.filterMap component? := by
  induction ps with
  | nil => rfl
  | cons p rest ih =>
    cases p with
    | nil => simpa [show component? [] = none from rfl] using ih
    | cons c cs => simp only [List.filter_cons, List.isEmpty_cons, Bool.not_false, if_true,
        List.filterMap_cons, ih]

/-- A plain last piece is the file name. -/
theorem fileName?_of_pieces {p : Path} {front : List String} {name : String}
    (pieces : piecesOf p = front ++ [name]) (plain : IsPlain name) : p.fileName? = some name := by
  have full : (Text.pieces '/' p.text.toList).filter (!·.isEmpty) =
      front.map String.toList ++ [name.toList] := by
    have texts := congrArg (List.map String.toList) pieces
    simpa [piecesOf, Function.comp_def] using texts
  have last : p.components.getLast? = some (.name name) := by
    simp only [components, ← filterMap_component? (Text.pieces '/' p.text.toList), full,
      List.filterMap_append, List.filterMap_cons, component?_plain plain, List.filterMap_nil]
    split
    · simp [List.getLast?_cons]
    · split <;> simp [List.getLast?_cons]
  simp [fileName?, last]

theorem not_slash_fileName {p : Path} {name : String} (named : p.fileName? = some name) :
    '/' ∉ name.toList := by
  simp only [fileName?] at named
  split at named
  · rename_i s last
    cases named
    have member := List.mem_of_getLast? last
    -- Names among the components come from pieces.
    have pieces : Component.name name ∈ (Text.pieces '/' p.text.toList).filterMap component? := by
      simp only [components] at member
      split at member
      · exact (List.mem_cons.mp member).resolve_left (by simp)
      · split at member
        · exact (List.mem_cons.mp member).resolve_left (by simp)
        · exact member
    obtain ⟨piece, inside, shown⟩ := List.mem_filterMap.mp pieces
    have plain := Text.mem_pieces_plain inside
    simp only [component?] at shown
    split at shown
    · cases shown
    · split at shown
      · cases shown
      · cases shown
        simpa using plain
  · cases named

/-! ### What encloses a path -/

theorem piecesOf_joinPieces {ps : List (List Char)} (plain : ∀ p ∈ ps, '/' ∉ p) :
    piecesOf ⟨joinPieces ps⟩ = (ps.filter (!·.isEmpty)).map String.ofList := by
  by_cases empty : ps = []
  · simp [empty, piecesOf, joinPieces, Text.pieces]
  · simp [piecesOf, joinPieces, Text.pieces_intercalate empty plain]

theorem trimVoid_subset (ps : List (List Char)) : trimVoid ps ⊆ ps := by
  intro p member
  have kept := List.dropWhile_sublist isVoid |>.subset (List.mem_reverse.mp member)
  exact List.mem_reverse.mp kept

theorem dropLastPiece_subset (ps : List (List Char)) : dropLastPiece ps ⊆ ps := by
  intro p member
  exact trimVoid_subset _ (List.dropLast_subset _ (trimVoid_subset _ member))

theorem piecesOf_subset {p : Path} {ps : List (List Char)}
    (inside : ps ⊆ Text.pieces '/' p.text.toList) : piecesOf ⟨joinPieces ps⟩ ⊆ piecesOf p := by
  rw [piecesOf_joinPieces fun piece member => Text.mem_pieces_plain (inside member)]
  intro name member
  obtain ⟨piece, found, rfl⟩ := List.mem_map.mp member
  obtain ⟨found, full⟩ := List.mem_filter.mp found
  exact List.mem_map_of_mem (List.mem_filter.mpr ⟨inside found, full⟩)

theorem piecesOf_slash (text : String) : piecesOf ⟨"/" ++ text⟩ = piecesOf ⟨text⟩ := by
  simp [piecesOf, Text.pieces]

/-- The parent of a path has no piece of its own. -/
theorem piecesOf_parent {p q : Path} (parent : p.parent? = some q) : piecesOf q ⊆ piecesOf p := by
  unfold parent? at parent
  split at parent
  case h_1 | h_2 | h_3 => cases parent
  case h_4 =>
    cases parent
    simp [piecesOf, Text.pieces]
  case h_5 first rest _ _ _ pieces =>
    have later : rest ⊆ Text.pieces '/' p.text.toList := by
      rw [pieces]
      exact List.subset_cons_self _ _
    split at parent
    · cases parent
      rw [piecesOf_slash]
      exact piecesOf_subset fun _ member => later (dropLastPiece_subset _ member)
    · split at parent
      · cases parent
        refine piecesOf_subset fun piece member => ?_
        rcases List.mem_cons.mp member with rfl | member
        · simp [pieces]
        · exact later (dropLastPiece_subset _ member)
      · cases parent
        exact piecesOf_subset fun _ member => pieces ▸ dropLastPiece_subset _ member

theorem piecesOf_parents {limit : Nat} {p q : Path} (member : q ∈ parents limit p) :
    piecesOf q ⊆ piecesOf p := by
  induction limit generalizing p with
  | zero => cases member
  | succ limit ih =>
    rw [parents] at member
    split at member
    · cases member
    · rename_i r parent
      split at member
      · cases member
      · rcases List.mem_cons.mp member with rfl | member
        · exact piecesOf_parent parent
        · exact fun _ inside => piecesOf_parent parent (ih member inside)

/-- What a path lies in has no piece of its own. -/
theorem piecesOf_enclosing {p q : Path} (member : q ∈ p.enclosing) : piecesOf q ⊆ piecesOf p := by
  rw [enclosing] at member
  split at member
  · cases member
  · rcases List.mem_cons.mp member with rfl | member
    · exact fun _ inside => inside
    · exact piecesOf_parents member

end Path

end SourceRepair
