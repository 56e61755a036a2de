import SourceRepair.Proofs.Json.Reading
import SourceRepair.Proofs.Json.Stripping
import SourceRepair.Repair.Basic

/-!
# JSON with comments

A text with comments and trailing commas is stripped to plain JSON for the same value, and plain JSON is not
touched. The file of a compiler is accepted for every text that is left as plain JSON, which are more than those
with comments and trailing commas.
-/

namespace SourceRepair.Json

open Relation (Comp)

/-! ### Styles -/

theorem Spread.refl {w : List Char} (full : w ≠ []) : Spread w w := by
  induction w with
  | nil => exact absurd rfl full
  | cons c w ih =>
    cases w with
    | nil => exact .last c
    | cons d w => exact .cons c .nil (ih (by simp))

theorem loose_allows_commented : Style.loose.Allows .commented where
  gap _ gap := gap
  ending _ ending := .ending ending
  spread := by
    rintro w _ full rfl
    exact .refl full
  comma _ _ := trivial

theorem commented_allows_plain : Style.commented.Allows .plain where
  gap _ blanks := AreBlanks.gap blanks
  ending _ blanks := .gap (AreBlanks.gap blanks)
  spread _ _ _ same := same
  comma _ never := never.elim

theorem spaced_allows_plain : Style.spaced.Allows .plain where
  gap _ blanks := blanks
  ending _ blanks := blanks
  spread _ _ _ same := same
  comma _ never := never.elim

/-! ### Plain JSON stays -/

/-- A reader that leaves the pieces of plain JSON as they are. -/
structure Sparing (f : List Char → List Char) : Prop where
  blanks {g : List Char} (blanks : AreBlanks g) (t : List Char) : f (g ++ t) = g ++ f t
  mark {c : Char} (mark : IsMark c) (other : c ≠ ',') (t : List Char) : f (c :: t) = c :: f t
  comma {t : List Char} (apart : closesList t = false) : f (',' :: t) = ',' :: f t
  string {x : String} {w : List Char} (string : IsString x w) (t : List Char) : f (w ++ t) = w ++ f t
  word {v : Value} {w : List Char} (word : IsWord v w) (t : List Char) : f (w ++ t) = w ++ f t
  nil : f [] = []

theorem sparing_comments : Sparing (stripComments .code) where
  blanks {g} blanks t := by
    induction g with
    | nil => rfl
    | cons c g ih =>
      have blank := blanks c List.mem_cons_self
      rw [List.cons_append, stripComments_bare (isBlank_ne blank rfl) (isBlank_ne blank rfl),
        ih fun d member => blanks d (List.mem_cons_of_mem c member), List.cons_append]
  mark mark _ t := stripComments_bare mark.bare.2.1 mark.bare.2.2 t
  comma _ := stripComments_bare (by decide) (by decide) _
  string string t := quoting_comments.isString string t
  word word t := by
    obtain ⟨c, cs, rfl, _⟩ := word.head
    exact stripComments_spread (.refl (by simp)) word.chars t
  nil := rfl

theorem sparing_commas : Sparing (stripCommas .code) where
  blanks blanks t := stripCommas_blanks blanks t
  mark mark other t := stripCommas_bare mark.bare.2.1 other t
  comma {t} apart := by rw [stripCommas_comma, apart]; rfl
  string string t := quoting_commas.isString string t
  word word t := stripCommas_word word.chars t
  nil := rfl

/-- What plain JSON starts with stays in front. -/
theorem Sparing.carried {f : List Char → List Char} (sparing : Sparing f) :
    Style.plain.Carried (fun X _ => ∀ t r, X t r → ∃ w, t = w ++ r ∧ f t = w ++ f r) Style.plain := by
  have comp {X Y : Front} (first : ∀ t r, X t r → ∃ w, t = w ++ r ∧ f t = w ++ f r)
      (rest : ∀ t r, Y t r → ∃ w, t = w ++ r ∧ f t = w ++ f r) (t r : List Char) (front : Comp X Y t r) :
      ∃ w, t = w ++ r ∧ f t = w ++ f r := by
    obtain ⟨u, front, back⟩ := front
    obtain ⟨w, rfl, left⟩ := first t u front
    obtain ⟨w', rfl, left'⟩ := rest u r back
    exact ⟨w ++ w', by simp, by simp [left, left']⟩
  have marked {c : Char} (mark : IsMark c) (other : c ≠ ',') (t r : List Char) (front : Style.plain.mark c t r) :
      ∃ w, t = w ++ r ∧ f t = w ++ f r := by
    obtain ⟨g, blanks, rfl⟩ := front
    exact ⟨g ++ [c], by simp, by simp [sparing.blanks blanks, sparing.mark mark other]⟩
  have quoted (x : String) (t r : List Char) (front : Style.plain.quoted x t r) :
      ∃ w, t = w ++ r ∧ f t = w ++ f r := by
    obtain ⟨g, w, blanks, string, rfl⟩ := front
    exact ⟨g ++ w, by simp, by simp [sparing.blanks blanks, sparing.string string]⟩
  have comma {X : Front} (spared : ∀ t r, X t r → ∃ w, t = w ++ r ∧ f t = w ++ f r)
      (apart : ∀ t r, X t r → closesList t = false) (t r : List Char) (front : Comp (Style.plain.mark ',') X t r) :
      ∃ w, t = w ++ r ∧ f t = w ++ f r := by
    obtain ⟨_, ⟨g, blanks, rfl⟩, back⟩ := front
    obtain ⟨w, rfl, left⟩ := spared _ r back
    exact ⟨g ++ ',' :: w, by simp, by simp [sparing.blanks blanks, sparing.comma (apart _ r back), left]⟩
  constructor
  case comp => exact comp
  case mark => exact fun c known => marked (.open known) (by rintro rfl; simp at known)
  case close =>
    rintro full c known t r (front | ⟨never, _⟩)
    · exact marked (.close known) (by rintro rfl; simp at known) t r front
    · exact never.elim
  case quoted => exact quoted
  case word =>
    rintro v t r ⟨g, w, _, blanks, word, rfl, rfl⟩
    exact ⟨g ++ w, by simp, by simp [sparing.blanks blanks, sparing.word word]⟩
  case item => exact fun v spared => comma spared fun t r front =>
    closesList_starts (spaced_allows_plain.carried.starts v t r front)
  case key => exact fun x => comma (quoted x) fun t r front => closesList_quoted (spaced_allows_plain.quoted front)

theorem Sparing.document {f : List Char → List Char} (sparing : Sparing f) {v : Value} {t : List Char}
    (document : Document .plain v t) : f t = t := by
  obtain ⟨r, starts, blanks⟩ := document
  obtain ⟨w, rfl, left⟩ := sparing.carried.starts v t r starts
  have same := sparing.blanks blanks []
  rw [sparing.nil, List.append_nil] at same
  rw [left, same]

theorem stripped_plain {v : Value} {t : List Char} (document : Document .plain v t) : stripped t = t := by
  rw [stripped, sparing_comments.document document, sparing_commas.document document]

/-! ### What is read -/

theorem read?_eq_of_document {text : String} {v : Value} (document : Document .plain v text.toList) :
    read? text = if v.nesting ≤ depthLimit then some v else none := by
  split
  · rename_i nested
    exact read?_eq_some_iff.mpr ⟨document, nested⟩
  · rename_i deep
    refine Option.eq_none_iff_forall_ne_some.mpr fun w read => ?_
    obtain ⟨other, nested⟩ := read?_eq_some_iff.mp read
    exact deep (document.unique other ▸ nested)

/-- A text in which comments and trailing commas may stand is stripped to plain JSON for the same value, which is
read where its lists are not nested deeper than the reader goes. Plain JSON is not touched. -/
theorem stripped_reads (v : Value) (t : List Char) :
    (Document .commented v t →
      Document .plain v (stripped t) ∧ (∀ w, Document .plain w (stripped t) → w = v) ∧
      read? (String.ofList (stripped t)) = (if v.nesting ≤ depthLimit then some v else none) ∧
      ∀ file : SourceFile, parseJson file true (String.ofList t) =
        if v.nesting ≤ depthLimit then .ok v.collapse else .error (.parse file.path.text "malformed JSON")) ∧
    (Document .plain v t → stripped t = t) := by
  refine ⟨fun document => ?_, stripped_plain⟩
  have plain := document_stripped.mpr (Document.of_allows loose_allows_commented document)
  have read : read? (String.ofList (stripped t)) = if v.nesting ≤ depthLimit then some v else none :=
    read?_eq_of_document (by simpa using plain)
  refine ⟨plain, fun w other => other.unique plain, read, fun file => ?_⟩
  simp only [parseJson, if_true, String.toList_ofList, read]
  by_cases nested : v.nesting ≤ depthLimit <;> simp [nested]

theorem stripped_reads_small :
    let v := Value.array [.string (String.ofList ['/', '/'])]
    let t := ['[', '"', '/', '/', '"', ',', '/', '*', '*', '/', ']', ' ', '/', '/']
    Document .commented v t ∧ stripped t = ['[', '"', '/', '/', '"', ']', ' '] ∧
      read? (String.ofList (stripped t)) = some v := by
  intro v t
  have gap : Style.commented.gap [] := .nil
  have spelled : Spells ['/', '/'] ['/', '/'] :=
    .cons (.plain (by decide) (by decide) (by decide)) (.cons (.plain (by decide) (by decide) (by decide)) .nil)
  have string : IsString (String.ofList ['/', '/']) ['"', '/', '/', '"'] :=
    ⟨['/', '/'], by rwa [String.toList_ofList], rfl⟩
  have block : IsGap ['/', '*', '*', '/'] := .block (.closed (b := []) (by simp)) .nil
  have document : Document .commented v t :=
    ⟨[' ', '/', '/'], ⟨_, ⟨[], gap, rfl⟩, _, ⟨[], _, gap, string, rfl⟩, .inr ⟨rfl, _, ⟨[], gap, rfl⟩, _, block, rfl⟩⟩,
      .line (g := [' ']) (.blank rfl .nil) (by simp)⟩
  exact ⟨document, rfl, ((stripped_reads v t).1 document).2.2.1⟩

/-- Lists in lists. -/
def nested : Nat → Value
  | 0 => .array []
  | n + 1 => .array [nested n]

/-- The text of lists in lists. -/
def brackets (n : Nat) : List Char := List.replicate (n + 1) '[' ++ List.replicate (n + 1) ']'

theorem nested_starts (n : Nat) (r : List Char) : (nested n).Starts .plain
    (List.replicate (n + 1) '[' ++ (List.replicate (n + 1) ']' ++ r)) r := by
  have mark (c : Char) (t : List Char) : Style.plain.mark c (c :: t) t := ⟨[], by simp [Style.plain, AreBlanks], rfl⟩
  induction n generalizing r with
  | zero => exact ⟨_, mark '[' _, .inl (mark ']' r)⟩
  | succ n ih =>
    have last : List.replicate (n + 1 + 1) ']' ++ r = List.replicate (n + 1) ']' ++ ']' :: r := by
      rw [List.replicate_succ', List.append_assoc]
      rfl
    rw [last, List.replicate_succ, List.cons_append]
    exact ⟨_, mark '[' _, _, ih (']' :: r), .inl (mark ']' r)⟩

theorem nesting_nested (n : Nat) : (nested n).nesting = n + 1 := by
  induction n with
  | zero => rfl
  | succ n ih => simp [nested, Value.nesting, itemsNesting, ih]

theorem brackets_document (n : Nat) : Document .plain (nested n) (brackets n) := by
  have starts := nested_starts n []
  rw [List.append_nil] at starts
  exact ⟨[], starts, by simp [Style.plain, AreBlanks]⟩

/-- Lists that are nested too deep are plain JSON and are not read. -/
theorem brackets_refused {n : Nat} (deep : depthLimit ≤ n) :
    Document .commented (nested n) (brackets n) ∧ Document .plain (nested n) (stripped (brackets n)) ∧
      read? (String.ofList (stripped (brackets n))) = none ∧
      ∀ file : SourceFile, parseJson file true (String.ofList (brackets n)) =
        .error (.parse file.path.text "malformed JSON") := by
  have plain := brackets_document n
  have refused : read? (String.ofList (stripped (brackets n))) = none := by
    rw [stripped_plain plain, read?_eq_of_document (v := nested n) (by rwa [String.toList_ofList]),
      if_neg (by rw [nesting_nested]; omega)]
  refine ⟨Document.of_allows commented_allows_plain plain, by rwa [stripped_plain plain], refused, fun file => ?_⟩
  simp only [parseJson, if_true, String.toList_ofList, refused]

theorem deep_lists_refused :
    Document .commented (nested 127) (brackets 127) ∧ Document .plain (nested 127) (stripped (brackets 127)) ∧
      read? (String.ofList (stripped (brackets 127))) = none ∧
      ∀ file : SourceFile, parseJson file true (String.ofList (brackets 127)) =
        .error (.parse file.path.text "malformed JSON") :=
  brackets_refused (Nat.le_refl 127)

/-! ### The file of a compiler -/

theorem config_comments {p : Path} (config : (SourceFile.ofPath p).config = some .tsConfig) :
    (SourceFile.ofPath p).kind = .json true := by
  simp only [SourceFile.ofPath] at config ⊢
  split at config
  · cases config
  · rename_i other
    split at config
    · rename_i named
      rw [if_pos (Bool.and_eq_true_iff.mp named).2, if_neg other, if_pos named]
      rfl
    · split at config <;> cases config

theorem validate_stripped {p : Path} (config : (SourceFile.ofPath p).config = some .tsConfig) (text : String) :
    validate (SourceFile.ofPath p) text = .ok () ↔
      ∃ v, Document .plain v (stripped text.toList) ∧ v.nesting ≤ depthLimit := by
  have read (v : Value) : read? (String.ofList (stripped text.toList)) = some v ↔
      Document .plain v (stripped text.toList) ∧ v.nesting ≤ depthLimit := by
    rw [read?_eq_some_iff, String.toList_ofList]
  simp only [← read, validate, config_comments config, parseJson, if_true]
  cases read? (String.ofList (stripped text.toList)) with
  | none =>
    constructor
    · intro accepted
      cases accepted
    · rintro ⟨v, found⟩
      cases found
  | some v => exact iff_of_true rfl ⟨v, rfl⟩

/-- The file of a compiler is accepted for the texts that are left as plain JSON. Besides comments between tokens
and a comma behind the last item these have comments inside words and numbers, a comma in an empty list or a last
comment without its end. -/
theorem validate_config {p : Path} (config : (SourceFile.ofPath p).config = some .tsConfig) (text : String) :
    validate (SourceFile.ofPath p) text = .ok () ↔ ∃ v, Document .loose v text.toList ∧ v.nesting ≤ depthLimit := by
  simp only [validate_stripped config, document_stripped]

theorem validate_config_small : (SourceFile.ofPath ⟨"tsconfig.json"⟩).config = some .tsConfig ∧
    validate (SourceFile.ofPath ⟨"tsconfig.json"⟩) "[/**/]" = .ok () := by
  have config : (SourceFile.ofPath ⟨"tsconfig.json"⟩).config = some .tsConfig := by decide +kernel
  have gap : Style.loose.gap [] := .nil
  have block : IsGap ['/', '*', '*', '/'] := .block (.closed (b := []) (by simp)) .nil
  have document : Document .loose (.array []) "[/**/]".toList :=
    ⟨[], ⟨_, ⟨[], gap, rfl⟩, .inl ⟨_, block, rfl⟩⟩, .ending (.gap .nil)⟩
  exact ⟨config, (validate_config config _).mpr ⟨_, document, by decide⟩⟩

theorem IsGap.front {c : Char} {g : List Char} (gap : IsGap (c :: g)) : isBlank c ∨ c = '/' := by
  generalize same : c :: g = t at gap
  cases gap with
  | nil => cases same
  | blank blank _ =>
    obtain ⟨rfl, _⟩ := List.cons.inj same
    exact .inl blank
  | line _ _ =>
    obtain ⟨rfl, _⟩ := List.cons.inj same
    exact .inr rfl
  | block block _ =>
    obtain ⟨_⟩ := block
    obtain ⟨rfl, _⟩ := List.cons.inj same
    exact .inr rfl

theorem IsGap.eq_nil {c : Char} {g t r : List Char} (gap : IsGap g) (same : c :: t = g ++ r)
    (bare : isBlank c = false) (slash : c ≠ '/') : g = [] := by
  cases g with
  | nil => rfl
  | cons d g =>
    obtain ⟨rfl, _⟩ := List.cons.inj same
    rcases gap.front with blank | front
    · rw [blank] at bare
      cases bare
    · exact absurd front slash

/-- A list of nothing but a comma is accepted, though no value is written so. -/
theorem bare_comma_accepted : validate (SourceFile.ofPath ⟨"tsconfig.json"⟩) "[,]" = .ok () ∧
    ¬∃ v, Document .commented v "[,]".toList := by
  have empty : Document .plain (.array []) (stripped "[,]".toList) := brackets_document 0
  refine ⟨(validate_stripped (by decide +kernel) _).mpr ⟨_, empty, by decide⟩, ?_⟩
  rintro ⟨v, document⟩
  obtain rfl := (document_stripped.mpr (Document.of_allows loose_allows_commented document)).unique empty
  obtain ⟨r, ⟨u, ⟨g, gap, opened⟩, closed⟩, _⟩ := document
  obtain rfl := gap.eq_nil opened rfl (by decide)
  obtain ⟨_, rfl⟩ := List.cons.inj opened
  obtain ⟨g, gap, bracket⟩ | ⟨never, _⟩ := closed
  · obtain rfl := gap.eq_nil bracket rfl (by decide)
    cases bracket
  · cases never

end SourceRepair.Json
