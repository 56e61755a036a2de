import SourceRepair.Proofs.Disk.Enclosing

/-!
# The directory of a target

The parent of a path is the path without its last piece, and without dots before that. So where there
is a place for a target, its directory is there as well: `Staged.find_directoryOf`.
-/

namespace SourceRepair

open Disk (Location Files)

namespace Text

variable {sep : Char}

theorem mem_of_mem_pieces {cs piece : List Char} {c : Char} (inside : piece ∈ pieces sep cs)
    (member : c ∈ piece) : c ∈ cs := by
  induction cs generalizing piece with
  | nil =>
    rw [pieces, List.mem_singleton] at inside
    simp [inside] at member
  | cons d ds ih =>
    rw [pieces] at inside
    split at inside
    · rcases List.mem_cons.mp inside with rfl | inside
      · cases member
      · exact List.mem_cons_of_mem _ (ih inside member)
    · split at inside
      · rename_i p ps split
        rcases List.mem_cons.mp inside with rfl | inside
        · rcases List.mem_cons.mp member with rfl | member
          · exact List.mem_cons_self
          · exact List.mem_cons_of_mem _ (ih (split ▸ List.mem_cons_self) member)
        · exact List.mem_cons_of_mem _ (ih (split ▸ List.mem_cons_of_mem _ inside) member)
      · rw [List.mem_singleton] at inside
        rw [inside, List.mem_singleton] at member
        exact member ▸ List.mem_cons_self

end Text

namespace Path

open Disk.Files (piecesOf)

variable {p q : Path} {ps : List (List Char)} {front : List String} {name : String}

/-- The pieces that say something. -/
def solid (ps : List (List Char)) : List String := (ps.filter (!·.isEmpty)).map String.ofList

theorem piecesOf_eq (p : Path) : piecesOf p = solid (Text.pieces '/' p.text.toList) := rfl

theorem solid_voids (void : ∀ p ∈ ps, isVoid p = true) : ∀ piece ∈ solid ps, piece = "." := by
  intro piece member
  obtain ⟨cs, inside, rfl⟩ := List.mem_map.mp member
  obtain ⟨inside, some⟩ := List.mem_filter.mp inside
  have either := void cs inside
  simp only [isVoid, Bool.or_eq_true, beq_iff_eq] at either
  rcases either with rfl | rfl
  · cases some
  · rfl

theorem solid_append (ps qs : List (List Char)) : solid (ps ++ qs) = solid ps ++ solid qs := by
  rw [solid, List.filter_append, List.map_append]
  rfl

/-- Without its last piece a path lacks its name, and dots before it. -/
theorem solid_dropLastPiece (whole : solid ps = front ++ [name]) (plain : IsPlain name) :
    ∃ dots, (∀ piece ∈ dots, piece = ".") ∧ front = solid (dropLastPiece ps) ++ dots := by
  obtain ⟨voids, split, void⟩ := trimVoid_eq ps
  have none : solid voids = [] := by
    rcases List.eq_nil_or_concat (solid voids) with none | ⟨xs, x, some⟩
    · exact none
    · have dot : x = "." := solid_voids void x (by rw [some, List.concat_eq_append]; simp)
      rw [split, solid_append, some, List.concat_eq_append, ← List.append_assoc] at whole
      have same := List.singleton_inj.mp (List.append_inj_right' whole rfl)
      exact absurd (same.symm.trans dot) plain.dot
  rw [split, solid_append, none, List.append_nil] at whole
  cases last : (trimVoid ps).getLast? with
  | none =>
    rw [List.getLast?_eq_none_iff.mp last] at whole
    simp [solid] at whole
  | some piece =>
    obtain ⟨rest, parts⟩ := List.getLast?_eq_some_iff.mp last
    have full := isVoid_getLast last
    have single : solid [piece] = [String.ofList piece] := by
      cases piece with
      | nil => cases full
      | cons c cs => rfl
    rw [parts, solid_append, single] at whole
    have cut : (trimVoid ps).dropLast = rest := by rw [parts, List.dropLast_concat]
    obtain ⟨voids', split', void'⟩ := trimVoid_eq rest
    refine ⟨solid voids', solid_voids void', ?_⟩
    rw [dropLastPiece, cut, ← solid_append, ← split']
    exact (List.append_inj_left' whole rfl).symm

theorem mem_joinPieces {c : Char} (member : c ∈ (joinPieces ps).toList) :
    c = '/' ∨ ∃ piece ∈ ps, c ∈ piece := by
  rw [joinPieces, String.toList_ofList, List.intercalate] at member
  induction ps with
  | nil => cases member
  | cons piece rest ih =>
    cases rest with
    | nil => exact .inr ⟨piece, List.mem_cons_self, by simpa using member⟩
    | cons next rest =>
      simp only [List.intersperse_cons_cons, List.flatten_cons, List.mem_append, List.mem_singleton] at member
      rcases member with inside | slash | later
      · exact .inr ⟨piece, List.mem_cons_self, inside⟩
      · exact .inl slash
      · rcases ih later with slash | ⟨other, inside, found⟩
        · exact .inl slash
        · exact .inr ⟨other, List.mem_cons_of_mem _ inside, found⟩

/-- The parent of a path with a plain last piece has the pieces before it, but for dots at the end. -/
theorem piecesOf_parent_eq (parent : p.parent? = some q) (whole : piecesOf p = front ++ [name])
    (plain : IsPlain name) : ∃ dots, (∀ piece ∈ dots, piece = ".") ∧ front = piecesOf q ++ dots := by
  rw [piecesOf_eq] at whole
  unfold parent? at parent
  split at parent
  case h_1 | h_2 | h_3 => cases parent
  case h_4 last _ =>
    have only : p.components = [.here] := components_of_last last id
    have named := fileName?_of_pieces whole plain
    rw [fileName?_eq_some, only] at named
    cases named
  case h_5 first rest _ _ _ pieces =>
    have clean : ∀ piece ∈ first :: rest, '/' ∉ piece := fun piece member =>
      Text.mem_pieces_plain (pieces ▸ member)
    have kept : ∀ piece ∈ dropLastPiece rest, '/' ∉ piece := fun piece member =>
      clean piece (List.mem_cons_of_mem _ (dropLastPiece_subset rest member))
    rw [pieces] at whole
    split at parent
    · rename_i absolute
      cases parent
      have void : first = [] := by
        have start := isAbsolute_iff.mp absolute
        rw [pieces] at start
        grind [headOf]
      rw [piecesOf_slash, piecesOf_joinPieces kept]
      rw [void] at whole
      exact solid_dropLastPiece whole plain
    · split at parent
      · rename_i dot
        cases parent
        obtain rfl : first = ['.'] := by simpa using dot
        rw [piecesOf_joinPieces (List.forall_mem_cons.mpr ⟨by decide, kept⟩)]
        have start : solid (['.'] :: rest) = "." :: solid rest := rfl
        rw [start] at whole
        cases front with
        | nil =>
          have same := (List.cons.inj whole).1
          exact absurd same.symm plain.dot
        | cons x front =>
          obtain ⟨rfl, others⟩ := List.cons.inj whole
          have later : solid rest = front ++ [name] := others
          obtain ⟨dots, all, rfl⟩ := solid_dropLastPiece later plain
          exact ⟨dots, all, rfl⟩
      · cases parent
        rw [piecesOf_joinPieces fun piece member => clean piece (dropLastPiece_subset _ member)]
        exact solid_dropLastPiece whole plain

theorem mem_text_parent {c : Char} (parent : p.parent? = some q) (member : c ∈ q.text.toList) :
    c = '/' ∨ c ∈ p.text.toList := by
  have inside : ∀ ps, ps ⊆ Text.pieces '/' p.text.toList → c ∈ (joinPieces ps).toList →
      c = '/' ∨ c ∈ p.text.toList := by
    intro ps subset member
    refine (mem_joinPieces member).imp_right fun ⟨piece, among, found⟩ => ?_
    exact Text.mem_of_mem_pieces (subset among) found
  unfold parent? at parent
  split at parent
  case h_1 | h_2 | h_3 => cases parent
  case h_4 =>
    cases parent
    simp at member
  case h_5 first rest _ _ _ pieces =>
    have later : dropLastPiece rest ⊆ Text.pieces '/' p.text.toList := by
      rw [pieces]
      exact fun _ member => List.mem_cons_of_mem _ (dropLastPiece_subset _ member)
    split at parent
    · cases parent
      rw [String.toList_append, List.mem_append] at member
      rcases member with slash | member
      · exact .inl (by simpa using slash)
      · exact inside _ later member
    · split at parent
      · cases parent
        exact inside _ (List.cons_subset.mpr ⟨by simp [pieces], later⟩) member
      · cases parent
        exact inside _ (pieces ▸ dropLastPiece_subset _) member

end Path

namespace Disk.Files

variable {fs : Files} {l d : Location} {xs ys : List String}

theorem follow_append :
    fs.follow l (xs ++ ys) = .ok d ↔ ∃ k, fs.follow l xs = .ok k ∧ fs.follow k ys = .ok d := by
  induction xs generalizing l with
  | nil => simp [follow]
  | cons x xs ih =>
    simp only [List.cons_append, follow_cons, ih]
    grind

theorem follow_dots (dots : ∀ x ∈ xs, x = ".") (led : fs.follow l xs = .ok d) : d = l := by
  induction xs generalizing l with
  | nil => exact (Except.ok.inj led).symm
  | cons x xs ih =>
    obtain ⟨_, _, led⟩ := follow_cons.mp led
    obtain rfl := dots x List.mem_cons_self
    exact ih (fun y member => dots y (List.mem_cons_of_mem _ member)) led

end Disk.Files

namespace Disk.Staged

variable {fs : Files} {target : Path} {l : Location}

/-- Where a target can be, its directory is. -/
theorem find_directoryOf (wf : fs.WellFormed) (led : fs.locate target = .ok l)
    (free : fs.get? l ≠ some .directory) : fs.find (directoryOf target) = .ok (l.dropLast, .directory) := by
  obtain ⟨front, name, pieces, plain⟩ := wf.plain_of_locate led free
  obtain ⟨d, rfl, directory, inside⟩ := Files.locate_plain pieces plain led
  obtain ⟨full, clean, _⟩ := Files.locate_ok.mp led
  rw [List.dropLast_concat]
  have found : ∀ q : Path, fs.locate q = .ok d → fs.find q = .ok (d, .directory) :=
    fun q led => Files.find_ok.mpr ⟨led, directory, fun no => absurd rfl no⟩
  -- Dots say nothing where there is a directory.
  have shorter : ∀ start xs dots, (∀ piece ∈ dots, piece = ".") → front = xs ++ dots →
      fs.follow start front = .ok d → fs.follow start xs = .ok d := by
    rintro start xs dots all rfl led
    obtain ⟨k, led, rest⟩ := Files.follow_append.mp led
    rwa [Files.follow_dots all rest]
  have named := Path.fileName?_of_pieces pieces plain
  have last := Path.fileName?_eq_some.mp named
  refine found _ ?_
  unfold directoryOf
  cases parent : target.parent? with
  | none =>
    rcases Path.components_of_no_parent parent with none | root
    · rw [none] at last
      cases last
    · rw [root] at last
      cases last
  | some q =>
    obtain ⟨dots, all, split⟩ := Path.piecesOf_parent_eq parent pieces plain
    have components := Path.components_parent parent
    have led := shorter _ _ dots all split inside
    dsimp only
    split
    · rename_i empty
      have blank : q = ⟨""⟩ := by
        cases q
        simpa using empty
      have relative : target.isAbsolute = false := by
        rw [blank] at components
        obtain ⟨before, whole⟩ := List.getLast?_eq_some_iff.mp last
        rw [whole, List.dropLast_concat] at components
        rw [Bool.eq_false_iff, ne_eq, Path.isAbsolute_iff_head, whole, ← components]
        simp [Path.components, Text.pieces, Path.isAbsolute, Path.component?]
      have here : d = fs.current := by
        rw [blank, Files.startOf, relative] at led
        exact (Except.ok.inj led).symm
      rw [here]
      have step : fs.follow fs.current ["."] = .ok fs.current :=
        Files.follow_cons.mpr ⟨wf.here, by decide, rfl⟩
      exact Files.locate_ok.mpr ⟨by decide, by simp, step⟩
    · rename_i full
      have full : q.text ≠ "" := by simpa using full
      have start : fs.startOf q = fs.startOf target := by
        have front : q.components <+: target.components := by
          rw [components]
          exact List.dropLast_prefix _
        exact Path.origin_of_front front (Path.components_ne_nil full)
      refine Files.locate_ok.mpr ⟨full, fun c member => ?_, start ▸ led⟩
      rcases Path.mem_text_parent parent member with rfl | member
      · decide
      · exact clean c member

end Disk.Staged

end SourceRepair
