import SourceRepair.Proofs.Repair.Directive
import SourceRepair.Proofs.Text.Removal

/-!
# Lines of imports

A new import is put at the end of a line: that of the last import, of the last directive or of the hashbang.
Whatever else starts on that line and goes on behind it has the import in its middle then. Behind nothing but
lines of directives the import is the first statement for every reader.
-/

/-!
## Ends of lines

The end of the line of an offset lies inside of what stands behind it exactly if that starts on the same line
and goes on in the next one. So a place that is found as the end of a line is safe only if nothing else starts
on the line, or if what starts there ends there.
-/

namespace SourceRepair.Text

variable {cs front line rest part : List Char} {s : Span} {m n : Nat}

theorem lineEndAfter_newline (front rest : List Char) (none : '\n' ∉ line) :
    lineEndAfter (front ++ line ++ '\n' :: rest) (byteLength front) = byteLength (front ++ line) + 1 := by
  have first : firstLine (line ++ '\n' :: rest) = line := by
    rw [firstLine_append none]
    exact List.append_nil line
  rw [List.append_assoc]
  simp [lineEndAfter, splitAt_append, first]

/-- On one line the end of the line is the same. -/
theorem lineEndAfter_append (front rest : List Char) (none : '\n' ∉ line) :
    lineEndAfter (front ++ line ++ rest) (byteLength front) =
      lineEndAfter (front ++ line ++ rest) (byteLength (front ++ line)) := by
  have first : splitAt (byteLength front) (front ++ line ++ rest) = (front, line ++ rest) := by
    rw [List.append_assoc, splitAt_append]
  simp only [lineEndAfter, splitAt_append, first, firstLine_append none]
  simp [Nat.add_assoc]

theorem le_lineEndAfter (cs : List Char) (n : Nat) : n ≤ lineEndAfter cs n := by
  unfold lineEndAfter
  dsimp only
  omega

theorem lineEndAfter_mono (bound : IsBoundary cs m) (bound' : IsBoundary cs n) (le : m ≤ n) :
    lineEndAfter cs m ≤ lineEndAfter cs n := by
  obtain ⟨front, rest, rfl, rfl⟩ := bound.split
  obtain ⟨front', rest', whole, rfl⟩ := bound'.split
  obtain ⟨line, rfl⟩ : front <+: front' :=
    prefix_of_byteLength_le (List.prefix_append front rest) (whole ▸ List.prefix_append front' rest') le
  rw [whole]
  by_cases some : '\n' ∈ line
  · obtain ⟨line, more, rfl, none⟩ := List.eq_append_cons_of_mem some
    have first : front ++ (line ++ '\n' :: more) ++ rest' = front ++ line ++ '\n' :: (more ++ rest') := by simp
    have := le_lineEndAfter (front ++ (line ++ '\n' :: more) ++ rest') (byteLength (front ++ (line ++ '\n' :: more)))
    have newline : Char.utf8Size '\n' = 1 := rfl
    rw [first, lineEndAfter_newline front _ none]
    rw [first] at this
    simp only [byteLength_append, byteLength_cons, newline] at this ⊢
    omega
  · exact (lineEndAfter_append front rest' some).le

/-! ### Inside of what stands behind -/

/-- The offset lies in the span and at neither end of it. -/
def Inside (n : Nat) (s : Span) : Prop := s.start < n ∧ n < s.stop

instance : Decidable (Inside n s) := inferInstanceAs (Decidable (_ ∧ _))

/-- The span lies between characters, and no newline ends its text, which is not empty. -/
def Solid (cs : List Char) (s : Span) : Prop := (slice cs s).getLast?.any (· != '\n')

instance : Decidable (Solid cs s) := inferInstanceAs (Decidable (_ = true))

theorem Inked.solid (inked : Inked cs s) : Solid cs s := by
  obtain ⟨rest, c, same, ink⟩ := IsInk.exists_concat inked
  have other : c ≠ '\n' := by
    rintro rfl
    cases ink
  simpa [Solid, same] using other

theorem Solid.split (solid : Solid cs s) : ∃ front part back, cs = front ++ part ++ back ∧
    s = ⟨byteLength front, byteLength front + byteLength part⟩ ∧ slice cs s = part ∧
    part.getLast?.any (· != '\n') := by
  obtain ⟨front, back, whole, span⟩ := slice_split cs s fun none => by simp [Solid, none] at solid
  exact ⟨front, _, back, whole, span, rfl, solid⟩

theorem Solid.start_lt_stop (solid : Solid cs s) : s.start < s.stop := by
  obtain ⟨front, part, back, -, rfl, -, some⟩ := solid.split
  cases part with
  | nil => cases some
  | cons c part =>
    have := c.utf8Size_pos
    simp only [byteLength_cons]
    omega

/-- The end of the line of an offset lies inside of a span behind it exactly if the span starts on that line and
does not end on it. -/
theorem inside_lineEndAfter (bound : IsBoundary cs n) (solid : Solid cs s) (behind : n ≤ s.start) :
    Inside (lineEndAfter cs n) s ↔ '\n' ∉ slice cs ⟨n, s.start⟩ ∧ '\n' ∈ slice cs s := by
  obtain ⟨front, rest, whole, rfl⟩ := bound.split
  obtain ⟨front', part, back, cut, rfl, read, last⟩ := solid.split
  rw [read]
  clear read solid
  obtain ⟨gap, rfl⟩ : front <+: front' := by
    refine prefix_of_byteLength_le (whole ▸ List.prefix_append front rest) ?_ behind
    exact ⟨part ++ back, by rw [cut, List.append_assoc]⟩
  subst cut
  have between : slice (front ++ gap ++ part ++ back) ⟨byteLength front, byteLength (front ++ gap)⟩ = gap := by
    have found := slice_append front gap (part ++ back)
    rwa [← List.append_assoc, ← byteLength_append] at found
  have newline : Char.utf8Size '\n' = 1 := rfl
  rw [between, Inside]
  by_cases some : '\n' ∈ gap
  · -- The line ends in front of the span.
    obtain ⟨line, more, rfl, none⟩ := List.eq_append_cons_of_mem some
    have first : front ++ (line ++ '\n' :: more) ++ part ++ back = front ++ line ++ '\n' :: (more ++ part ++ back) := by
      simp
    rw [first, lineEndAfter_newline front _ none]
    simp only [byteLength_append, byteLength_cons, newline, some, not_true_eq_false, false_and, iff_false]
    omega
  · have same : lineEndAfter (front ++ gap ++ part ++ back) (byteLength front) =
        lineEndAfter (front ++ gap ++ part ++ back) (byteLength (front ++ gap)) := by
      rw [List.append_assoc]
      exact lineEndAfter_append front _ some
    rw [same]
    by_cases inner : '\n' ∈ part
    · -- It ends in the span, and not with its last character.
      obtain ⟨line, more, rfl, none⟩ := List.eq_append_cons_of_mem inner
      have first : front ++ gap ++ (line ++ '\n' :: more) ++ back = front ++ gap ++ line ++ '\n' :: (more ++ back) := by
        simp
      have more : 0 < byteLength more := by
        cases more with
        | nil => simp at last
        | cons c more =>
          have := c.utf8Size_pos
          rw [byteLength_cons]
          omega
      rw [first, lineEndAfter_newline (front ++ gap) _ none]
      simp only [byteLength_append, byteLength_cons, newline, some, inner, not_false_eq_true, and_self, iff_true]
      omega
    · -- It goes on behind the span.
      have far := le_lineEndAfter (front ++ gap ++ part ++ back) (byteLength (front ++ gap ++ part))
      rw [lineEndAfter_append (front ++ gap) back inner]
      simp only [byteLength_append, inner, and_false, iff_false] at far ⊢
      omega

end SourceRepair.Text

/-! ## Imports and their lines -/

namespace SourceRepair

open Text (Inked Inside Solid byteLength lineEndAfter slice)

namespace Script.Program

variable {p : Program} {cs : List Char} {a s : Span}

/-! ### Where imports are put -/

/-- What the line for an import without other imports is found by. -/
def prologueAnchor? (p : Program) : Option Span := (p.directives.getLast?.map (·.span)).or p.hashbang

/-- What the line for an import is found by. -/
def importsAnchor? (p : Program) : Option Span := (p.imports.getLast?.map (·.span)).or p.prologueAnchor?

/-- The end of the line of an anchor, or the start of the text. -/
def lineEndOf (cs : List Char) : Option Span → Nat
  | some a => lineEndAfter cs a.stop
  | none => 0

theorem prologueEnd_eq (p : Program) (cs : List Char) : p.prologueEnd cs = lineEndOf cs p.prologueAnchor? := by
  unfold prologueEnd prologueAnchor? hashbangEnd
  cases p.directives.getLast? with
  | some d => rfl
  | none => cases p.hashbang <;> rfl

theorem foldl_max_eq_getLast {ns : List Nat} (rising : ns.Pairwise (· ≤ ·)) (some : ns ≠ []) (least : Nat)
    (le : ∀ n ∈ ns, least ≤ n) : ns.foldl max least = ns.getLast some := by
  induction ns generalizing least with
  | nil => exact absurd rfl some
  | cons n ns ih =>
    obtain ⟨first, later⟩ := List.pairwise_cons.mp rising
    rw [List.foldl_cons, Nat.max_eq_right (le n List.mem_cons_self)]
    cases ns with
    | nil => rfl
    | cons m ns =>
      rw [ih later (List.cons_ne_nil m ns) n first]
      rfl

theorem importsEnd_eq (standing : p.Standing cs) : p.importsEnd cs = lineEndOf cs p.importsAnchor? := by
  unfold importsEnd importsAnchor?
  split
  · rename_i none
    rw [none, prologueEnd_eq]
    rfl
  · rename_i some
    have rising : (p.imports.map fun d => lineEndAfter cs d.span.stop).Pairwise (· ≤ ·) := by
      refine List.pairwise_map.mpr ((Repair.imports_pairwise standing).imp_of_mem fun {a b} first second before => ?_)
      have inked := Repair.inked_of_mem_imports standing first
      have inked' := Repair.inked_of_mem_imports standing second
      have := inked'.start_lt_stop
      exact Text.lineEndAfter_mono inked.isBoundary.2 inked'.isBoundary.2 (by omega)
    rw [foldl_max_eq_getLast rising (by simpa using some) 0 fun _ _ => Nat.zero_le _,
      List.getLast_map, List.getLast?_eq_getLast_of_ne_nil some]
    rfl

theorem prologueAnchor_bounded (standing : p.Standing cs) (anchor : a ∈ p.prologueAnchor?) :
    Text.IsBoundary cs a.stop := by
  rw [prologueAnchor?, Option.mem_def, Option.or_eq_some_iff] at anchor
  rcases anchor with listed | ⟨-, bang⟩
  · obtain ⟨d, last, rfl⟩ := Option.map_eq_some_iff.mp listed
    exact (standing.directive (List.mem_of_getLast? last)).1.isBoundary.2
  · exact standing.hashbang bang

theorem importsAnchor_bounded (standing : p.Standing cs) (anchor : a ∈ p.importsAnchor?) :
    Text.IsBoundary cs a.stop := by
  rw [importsAnchor?, Option.mem_def, Option.or_eq_some_iff] at anchor
  rcases anchor with imported | ⟨-, anchor⟩
  · obtain ⟨d, last, rfl⟩ := Option.map_eq_some_iff.mp imported
    exact (Repair.inked_of_mem_imports standing (List.mem_of_getLast? last)).isBoundary.2
  · exact prologueAnchor_bounded standing anchor

/-- The span stops in front of where the anchor does, or it starts behind the anchor. -/
def Aside (anchor : Option Span) (s : Span) : Prop := ∀ a ∈ anchor, s.stop ≤ a.stop ∨ a.stop ≤ s.start

/-- The span starts on the line of the anchor, behind it, and goes on in the next line. -/
def Crosses (cs : List Char) (anchor : Option Span) (s : Span) : Prop :=
  ∃ a ∈ anchor, a.stop ≤ s.start ∧ '\n' ∉ slice cs ⟨a.stop, s.start⟩ ∧ '\n' ∈ slice cs s

/-- A place at the end of a line lies inside of what crosses it, and inside of nothing else. -/
theorem inside_lineEndOf {anchor : Option Span} (bounded : ∀ a ∈ anchor, Text.IsBoundary cs a.stop)
    (solid : Solid cs s) (aside : Aside anchor s) : Inside (lineEndOf cs anchor) s ↔ Crosses cs anchor s := by
  unfold Crosses
  cases anchor with
  | none => simp [lineEndOf, Inside]
  | some a =>
    simp only [Aside, Option.mem_some_iff, forall_eq', exists_eq_left'] at bounded aside ⊢
    rcases aside with inner | behind
    · have := Text.le_lineEndAfter cs a.stop
      have := solid.start_lt_stop
      simp only [lineEndOf, Inside]
      omega
    · rw [and_iff_right behind]
      exact Text.inside_lineEndAfter bounded solid behind

/-- The span is that of a directive or of a statement at the top. -/
def IsTop (p : Program) (s : Span) : Prop := (∃ d ∈ p.directives, d.span = s) ∨ ∃ t ∈ p.body, t.span = s

theorem IsTop.inked (top : p.IsTop s) (standing : p.Standing cs) : Inked cs s := by
  rcases top with ⟨d, listed, rfl⟩ | ⟨t, member, rfl⟩
  · exact (standing.directive listed).1
  · exact standing.statement member

/-- Of two things in a list that stand one after the other, each lies aside of the other. -/
theorem aside_of_pairwise {α : Type} {xs : List α} {span : α → Span}
    (order : xs.Pairwise fun x y => (span x).stop ≤ (span y).start) (wide : ∀ x ∈ xs, (span x).start < (span x).stop)
    {x y : α} (first : x ∈ xs) (second : y ∈ xs) : (span y).stop ≤ (span x).stop ∨ (span x).stop ≤ (span y).start := by
  have apart : xs.Pairwise fun x y => (span x).stop ≤ (span y).start ∨ (span y).stop ≤ (span x).start := order.imp .inl
  have symmetric : Std.Symm fun x y => (span x).stop ≤ (span y).start ∨ (span y).stop ≤ (span x).start :=
    ⟨fun _ _ => Or.symm⟩
  by_cases same : x = y
  · exact .inl (same ▸ Nat.le.refl)
  · have := wide x first
    rcases apart.forall first second same with before | after <;> omega

theorem IsTop.aside_prologue (top : p.IsTop s) (standing : p.Standing cs) : Aside p.prologueAnchor? s := by
  intro a anchor
  rw [prologueAnchor?, Option.mem_def, Option.or_eq_some_iff] at anchor
  rcases anchor with listed | ⟨-, bang⟩
  · obtain ⟨d, last, rfl⟩ := Option.map_eq_some_iff.mp listed
    have member := List.mem_of_getLast? last
    rcases top with ⟨e, other, rfl⟩ | ⟨t, other, rfl⟩
    · exact aside_of_pairwise standing.directives (fun e found => (standing.directive found).1.start_lt_stop) member other
    · exact .inr ((standing.directive member).2 t other)
  · obtain ⟨-, directives, statements⟩ := (of_decide_eq_true standing.headed).1 a bang
    rcases top with ⟨e, other, rfl⟩ | ⟨t, other, rfl⟩
    · exact .inr (directives e other)
    · exact .inr (statements t other)

theorem IsTop.aside_imports (top : p.IsTop s) (standing : p.Standing cs) : Aside p.importsAnchor? s := by
  intro a anchor
  rw [importsAnchor?, Option.mem_def, Option.or_eq_some_iff] at anchor
  rcases anchor with imported | ⟨-, anchor⟩
  · obtain ⟨d, last, rfl⟩ := Option.map_eq_some_iff.mp imported
    have member := Repair.of_mem_imports (List.mem_of_getLast? last)
    rcases top with ⟨e, other, rfl⟩ | ⟨t, other, rfl⟩
    · have := (standing.directive other).2 _ member
      have := (standing.statement member).start_lt_stop
      exact .inl (by change _ ≤ d.span.start at *; change d.span.start < d.span.stop at *; omega)
    · exact aside_of_pairwise standing.body (fun u found => (standing.statement found).start_lt_stop) member other
  · exact top.aside_prologue standing a anchor

end Script.Program

namespace Repair

open Script
open Program (Aside Crosses)

variable {leniency : Leniency} {file : SourceFile} {text : String} {p : Program} {i : Importing} {c : ImportClause}
  {m : String} {front cs : List Char} {ds : List Directive}

/-! ### Passes that add imports -/

/-- A pass that adds imports. -/
inductive Importing where
  | react | helpers | matchers

def Importing.repair : Importing → Repair
  | react => reactImport
  | helpers => testingLibraryImports
  | matchers => jestDomImport

/-- The pass adds an import that the program lacks. -/
inductive Adds : Importing → Program → ImportClause → String → Prop
  | react {p : Program}
    (lacks : (p.importedNames.contains "React" || !refersToReact p || declaresVariable p "React") = false) :
    Adds .react p (.whole "React") "react"
  | helpers {p : Program} (lacks : missingHelpers p ≠ []) :
    Adds .helpers p (.names (missingHelpers p)) testingLibrary
  | matchers {p : Program} (lacks : (importsJestDom p || !usesMatchers p) = false) :
    Adds .matchers p .bare jestDom

theorem isBinding_react : IsBinding "React" where
  word := by simp [isWordText, Text.isIdentifierStart, Text.isIdentifierPart]
  free := by simp [reservedWords]
  unmarked := by simp [contextualWords]
  skips := skips_of_head (c := 'R') (by simp) fun _ _ _ _ => rfl

theorem isBinding_helper {h : String} (helper : h ∈ testHelpers) : IsBinding h := by
  simp only [testHelpers, List.mem_cons, List.not_mem_nil, or_false] at helper
  constructor
  case word => rcases helper with rfl | rfl | rfl <;> simp [isWordText, Text.isIdentifierStart, Text.isIdentifierPart]
  case free => rcases helper with rfl | rfl | rfl <;> simp [reservedWords]
  case unmarked => rcases helper with rfl | rfl | rfl <;> simp [contextualWords]
  case skips =>
    rcases helper with rfl | rfl | rfl
    · exact skips_of_head (c := 'r') (by simp) fun _ _ _ _ => rfl
    · exact skips_of_head (c := 's') (by simp) fun _ _ _ _ => rfl
    · exact skips_of_head (c := 'f') (by simp) fun _ _ _ _ => rfl

theorem Adds.sound (adds : Adds i p c m) : c.Sound ∧ isPlain m ∧ c.bound.length ≤ 3 := by
  cases adds with
  | react => exact ⟨⟨List.forall_mem_singleton.mpr isBinding_react, nofun⟩, by simp [isPlain], by decide⟩
  | helpers lacks =>
    refine ⟨⟨fun h member => ?_, fun none => lacks (ImportClause.names.inj none)⟩, by simp [isPlain, testingLibrary],
      List.length_filter_le ..⟩
    have missing : h ∈ missingHelpers p := member
    exact isBinding_helper (List.mem_of_mem_filter missing)
  | matchers => exact ⟨⟨nofun, nofun⟩, by simp [isPlain, jestDom], by decide⟩

theorem importLine_react : importLine (.whole "React") "react" = "import React from \"react\";\n" :=
  String.toList_inj.mp (by simp [importLine, ImportClause.text])

theorem importLine_names (ns : List String) (m : String) : importLine (.names ns) m =
    "import \x7b " ++ String.intercalate ", " ns ++ " \x7d from \"" ++ m ++ "\";\n" :=
  String.toList_inj.mp (by simp [importLine, ImportClause.text])

theorem importLine_bare (m : String) : importLine .bare m = "import \"" ++ m ++ "\";\n" :=
  String.toList_inj.mp (by simp [importLine, ImportClause.text])

/-- Without imports in the program the pass puts a line at the end of the directives. -/
theorem Adds.edits (adds : Adds i p c m) (none : p.imports = []) (cs : List Char) :
    (i.repair.draft ⟨p, cs, file⟩).edits = [.insert (p.prologueEnd cs) (importLine c m)] := by
  cases adds with
  | react lacks =>
    unfold Importing.repair reactImport
    dsimp only
    rw [lacks, none, importLine_react]
    rfl
  | helpers lacks =>
    have slot : helperSlot? p = Option.none := by rw [helperSlot?, none]; rfl
    have offset : p.importsEnd cs = p.prologueEnd cs := by rw [Program.importsEnd, none]
    unfold Importing.repair testingLibraryImports
    dsimp only
    rw [List.isEmpty_eq_false_iff.mpr lacks, slot, offset, importLine_names]
    rfl
  | matchers lacks =>
    have offset : p.importsEnd cs = p.prologueEnd cs := by rw [Program.importsEnd, none]
    unfold Importing.repair jestDomImport
    dsimp only
    rw [lacks, offset, importLine_bare]
    rfl

/-- A pass that lacks nothing drafts nothing. -/
theorem draft_of_not_adds (q : Program) (cs : List Char) (none : ∀ c m, ¬ Adds i q c m) :
    i.repair.draft ⟨q, cs, file⟩ = {} := by
  cases i with
  | react =>
    have idle : (q.importedNames.contains "React" || !refersToReact q || declaresVariable q "React") = true :=
      Bool.eq_true_of_not_eq_false fun lacks => none _ _ (.react lacks)
    unfold Importing.repair reactImport
    dsimp only
    rw [if_pos idle]
  | helpers =>
    have idle : missingHelpers q = [] := Classical.not_not.mp fun lacks => none _ _ (.helpers lacks)
    unfold Importing.repair testingLibraryImports
    dsimp only
    rw [idle]
    rfl
  | matchers =>
    have idle : (importsJestDom q || !usesMatchers q) = true :=
      Bool.eq_true_of_not_eq_false fun lacks => none _ _ (.matchers lacks)
    unfold Importing.repair jestDomImport
    dsimp only
    rw [if_pos idle]

theorem mem_imports_of_head {d : ImportDecl} (first : p.body.head? = some (.importDecl d)) : d ∈ p.imports :=
  List.mem_filterMap.mpr ⟨_, List.mem_of_head? first, rfl⟩

/-- Where the import stands first, another run adds names only that it lacks. -/
theorem Adds.again (adds : Adds i p c m) {q : Program} {d : ImportDecl} (first : q.body.head? = some (.importDecl d))
    (fits : d.Matches c m) {c' : ImportClause} {m' : String} (again : Adds i q c' m') :
    c'.bound ≠ [] ∧ c'.bound.Disjoint c.bound := by
  have imported := mem_imports_of_head first
  have named : ∀ n ∈ c.bound, n ∈ q.importedNames := by
    intro n member
    rw [← fits.bound] at member
    exact List.mem_flatMap.mpr ⟨d, imported, member⟩
  cases adds with
  | react =>
    cases again with
    | react lacks => simp [named "React" (List.mem_singleton_self _)] at lacks
  | helpers =>
    cases again with
    | helpers lacks =>
      refine ⟨lacks, fun h missing member => ?_⟩
      have found := (List.mem_filter.mp (show h ∈ missingHelpers q from missing)).2
      simp [named h member] at found
  | matchers =>
    cases again with
    | matchers lacks =>
      have found : importsJestDom q = true := by
        refine List.any_eq_true.mpr ⟨d, imported, ?_⟩
        rw [fits.source]
        exact List.isPrefixOf_iff_prefix.mpr List.prefix_rfl
      simp [found] at lacks

/-! ### What the passes leave -/

theorem prologueEnd_of_prologue (prologue : Prologue front p.hashbang p.directives) (cs : List Char) :
    p.prologueEnd (front ++ cs) = byteLength front := by
  generalize listed : p.directives = ds at prologue
  cases prologue with
  | lead lead =>
    rw [Program.prologueEnd, listed]
    exact hashbangEnd_of_lead lead cs
  | @line front _ ds quote v before quotes plain =>
    -- The newline stands right behind the last directive.
    have mark : Char.utf8Size quote = 1 := by rcases quotes with rfl | rfl <;> rfl
    have semicolon : Char.utf8Size ';' = 1 := rfl
    have newline : Char.utf8Size '\n' = 1 := rfl
    have stop : byteLength front + byteLength v.toList + 3 =
        byteLength (front ++ quote :: (v.toList ++ [quote, ';'])) := by
      simp only [Text.byteLength_append, Text.byteLength_cons, Text.byteLength_nil, mark, semicolon]
      omega
    have whole : front ++ quote :: (v.toList ++ [quote, ';', '\n']) ++ cs =
        front ++ quote :: (v.toList ++ [quote, ';']) ++ [] ++ '\n' :: cs := by simp
    rw [Program.prologueEnd, listed, List.getLast?_append, List.getLast?_singleton]
    simp only [Option.some_or, stop]
    rw [whole, Text.lineEndAfter_newline _ cs List.not_mem_nil]
    simp only [Text.byteLength_append, Text.byteLength_cons, Text.byteLength_nil, mark, semicolon, newline]
    omega

/-- Behind nothing but lines of directives the line of the import is put, and nothing else changes. -/
theorem Adds.applyAll (adds : Adds i p c m) (none : p.imports = []) (read : parseScript leniency file text = .ok p)
    (prologue : Prologue front p.hashbang p.directives) (whole : text.toList = front ++ cs) :
    ∃ code, code.toList = front ++ ((importLine c m).toList ++ cs) ∧
      Repair.applyAll [i.repair] leniency file text = (do
        validate file code
        return ⟨code, (i.repair.draft ⟨p, text.toList, file⟩).located text, (i.repair.draft ⟨p, text.toList, file⟩).warnings⟩) := by
  have offset := prologueEnd_of_prologue prologue cs
  rw [← whole] at offset
  have applied : Edit.applyAll (i.repair.draft ⟨p, text.toList, file⟩).edits text =
      .ok (String.ofList (front ++ ((importLine c m).toList ++ cs))) := by
    rw [adds.edits none, offset, Edit.applyAll_insert _ whole]
  exact ⟨_, String.toList_ofList, by rw [applyAll_of_read read, Draft.finish_of_applyAll applied]; rfl⟩

/-- The line of an import is longer than the list of its names. -/
theorem Adds.bound_le (adds : Adds i p c m) : c.bound.length ≤ byteLength (importLine c m).toList := by
  have short := adds.sound.2.2
  have long : byteLength "import ".toList ≤ byteLength (importLine c m).toList := by
    rw [importLine, String.append_assoc, String.append_assoc, String.append_assoc, String.toList_append,
      Text.byteLength_append]
    exact Nat.le_add_right ..
  exact short.trans (Nat.le_trans (by decide) long)

/-- Where the import stands first, another run of the pass does nothing, unless it finds helpers that it did
not find before. -/
theorem Adds.idle (adds : Adds i p c m) {q : Program} {d : ImportDecl}
    (first : q.body.head? = some (.importDecl d)) (fits : d.Matches c m) (cs : List Char) :
    i.repair.draft ⟨q, cs, file⟩ = {} ∨
      i = .helpers ∧ missingHelpers q ≠ [] ∧ (missingHelpers q).Disjoint c.bound := by
  by_cases more : ∃ c' m', Adds i q c' m'
  · obtain ⟨c', m', more⟩ := more
    obtain ⟨some, apart⟩ := adds.again first fits more
    cases adds with
    | react =>
      cases more with
      | react => exact absurd apart (by simp [ImportClause.bound])
    | helpers =>
      cases more with
      | helpers => exact .inr ⟨rfl, some, apart⟩
    | matchers =>
      cases more with
      | matchers => exact absurd rfl some
  · exact .inl (draft_of_not_adds q cs fun c' m' again => more ⟨c', m', again⟩)

/-- A place for an import lies inside of exactly what starts on the line that the place ends and goes on in the next
one, among statements, directives and all else that lies beside the last import. Behind nothing but lines of
directives the line of the import is put whole, every reader of the new text finds the import first, and another run
of the pass finds nothing to do, unless it finds helpers that it did not find before. -/
theorem import_placed (read : parseScript leniency file text = .ok p) (standing : p.Standing text.toList) :
    (∀ s, Solid text.toList s →
      (Aside p.prologueAnchor? s →
        (Inside (p.prologueEnd text.toList) s ↔ Crosses text.toList p.prologueAnchor? s)) ∧
      (Aside p.importsAnchor? s →
        (Inside (p.importsEnd text.toList) s ↔ Crosses text.toList p.importsAnchor? s))) ∧
    (∀ s, p.IsTop s → Solid text.toList s ∧ Aside p.prologueAnchor? s ∧ Aside p.importsAnchor? s) ∧
    ∀ i c m front cs, Adds i p c m → p.imports = [] → Prologue front p.hashbang p.directives →
      text.toList = front ++ cs →
      ∃ code, code.toList = front ++ ((importLine c m).toList ++ cs) ∧
        applyAll [i.repair] leniency file text = (do
          validate file code
          return ⟨code, (i.repair.draft ⟨p, text.toList, file⟩).located text,
            (i.repair.draft ⟨p, text.toList, file⟩).warnings⟩) ∧
        ∀ leniency' q, parseScript leniency' file code = .ok q →
          q.hashbang = p.hashbang ∧ q.directives = p.directives ∧
          (∃ d, q.body.head? = some (.importDecl d) ∧ d.Matches c m) ∧
          (i.repair.draft ⟨q, code.toList, file⟩ = {} ∨
            i = .helpers ∧ missingHelpers q ≠ [] ∧ (missingHelpers q).Disjoint c.bound) := by
  refine ⟨fun s solid => ⟨fun aside => ?_, fun aside => ?_⟩, fun s top => ?_, ?_⟩
  · rw [Program.prologueEnd_eq]
    exact Program.inside_lineEndOf (fun a anchor => Program.prologueAnchor_bounded standing anchor) solid aside
  · rw [Program.importsEnd_eq standing]
    exact Program.inside_lineEndOf (fun a anchor => Program.importsAnchor_bounded standing anchor) solid aside
  · exact ⟨(top.inked standing).solid, top.aside_prologue standing, top.aside_imports standing⟩
  · intro i c m front cs adds none prologue whole
    obtain ⟨code, put, applied⟩ := adds.applyAll none read prologue whole
    refine ⟨code, put, applied, fun leniency' q again => ?_⟩
    obtain ⟨dialect, -, again⟩ := parse_of_parseScript again
    have few : c.bound.length ≤ byteLength code.toList := by
      rw [put, Text.byteLength_append, Text.byteLength_append]
      have := adds.bound_le
      omega
    obtain ⟨bang, directives, d, first, fits⟩ :=
      import_first prologue adds.sound.1 adds.sound.2.1 few put again
    exact ⟨bang, directives, ⟨d, first, fits⟩, adds.idle first fits _⟩

set_option maxRecDepth 100000

theorem import_placed_directive :
    let file : SourceFile := ⟨⟨"a.js"⟩, .script ⟨false, false, true, .module⟩, none⟩
    let text := "#!x\n\x27use strict\x27;\nReact.a();\n"
    let front := "#!x\n\x27use strict\x27;\n".toList
    let cs := "React.a();\n".toList
    let i : Importing := .react
    let c : ImportClause := .whole "React"
    ∃ p, parseScript .strict file text = .ok p ∧ p.Standing text.toList ∧ Adds i p c "react" ∧ p.imports = [] ∧
      Prologue front p.hashbang p.directives ∧ text.toList = front ++ cs ∧
      ∃ code, code.toList = front ++ ((importLine c "react").toList ++ cs) ∧
        applyAll [i.repair] .strict file text = (do
          validate file code
          return ⟨code, (i.repair.draft ⟨p, text.toList, file⟩).located text,
            (i.repair.draft ⟨p, text.toList, file⟩).warnings⟩) ∧
        ∀ leniency' q, parseScript leniency' file code = .ok q →
          q.hashbang = p.hashbang ∧ q.directives = p.directives ∧
          (∃ d, q.body.head? = some (.importDecl d) ∧ d.Matches c "react") ∧
          (i.repair.draft ⟨q, code.toList, file⟩ = {} ∨
            i = .helpers ∧ missingHelpers q ≠ [] ∧ (missingHelpers q).Disjoint c.bound) := by
  intro file text front cs i c
  have found : (parse? .strict ⟨false, false, true, .module⟩ text).map (fun p =>
      (p.stands text.toList 20, p.imports.length,
        p.importedNames.contains "React" || !refersToReact p || declaresVariable p "React",
        p.hashbang, p.directives)) =
      some (true, 0, false, some ⟨0, 3⟩, [⟨"use strict", ⟨4, 17⟩⟩]) := by
    decide +kernel
  obtain ⟨p, read, found⟩ := Option.map_eq_some_iff.mp found
  simp only [Prod.mk.injEq] at found
  obtain ⟨stands, none, lacks, bang, directives⟩ := found
  have read := (parseScript_of_parse rfl read : parseScript .strict file text = .ok p)
  have none : p.imports = [] := List.length_eq_zero_iff.mp none
  have prologue : Prologue front p.hashbang p.directives := by
    rw [bang, directives]
    have bang : ∀ c ∈ ['x'], isLineEnd c = false := List.forall_mem_singleton.mpr rfl
    exact .line (v := "use strict") (.lead (.hashbang bang)) (.inr rfl) rfl
  have whole : text.toList = front ++ cs := by simp [text, front, cs]
  exact ⟨p, read, .of_stands stands, .react lacks, none, prologue, whole,
    (import_placed read (.of_stands stands)).2.2 i c "react" front cs (.react lacks) none prologue whole⟩

/-! ### A statement that goes on -/

/-- In `import 'a'; a = t; expect(a).toBeVisible();` with a template of two lines for `t` the template starts on the
line of the import. The new import is put into the template, so it is no statement, and another run of the pass
puts one more there. -/
theorem import_in_template :
    let file : SourceFile := ⟨⟨"a.test.js"⟩, .script ⟨false, false, true, .module⟩, none⟩
    let text := "import \x27a\x27; a = \x60x\ny\x60; expect(a).toBeVisible();\n"
    ∃ (p q : Program) (t : Stmt) (done : Rewrite),
      parseScript .strict file text = .ok p ∧ t ∈ p.body ∧ Inside (p.importsEnd text.toList) t.span ∧
      applyAll [jestDomImport] .strict file text = .ok done ∧
      parseScript .strict file done.code = .ok q ∧ importsJestDom q = false ∧
      (jestDomImport.draft ⟨q, done.code.toList, file⟩).changes ≠ [] := by
  intro file text
  let dialect : Dialect := ⟨false, false, true, .module⟩
  let code := "import \x27a\x27; a = \x60x\nimport \"@testing-library/jest-dom\";\ny\x60; expect(a).toBeVisible();\n"
  let d : Draft := .change [.insert 19 "import \"@testing-library/jest-dom\";\n"] .importAdded
    "imported @testing-library/jest-dom matchers" 19
  have before : (parse? .strict dialect text).map
      (fun p => (p.body.any fun t => decide (Inside (p.importsEnd text.toList) t.span),
        jestDomImport.draft ⟨p, text.toList, file⟩)) = some (true, d) := by
    decide +kernel
  have behind : (parse? .strict dialect code).map (fun q => (importsJestDom q,
      (jestDomImport.draft ⟨q, code.toList, file⟩).changes.length)) = some (false, 1) := by
    decide +kernel
  obtain ⟨p, read, crossed⟩ := Option.map_eq_some_iff.mp before
  obtain ⟨crossed, drafted⟩ := Prod.mk.inj crossed
  obtain ⟨t, member, inside⟩ := List.any_eq_true.mp crossed
  obtain ⟨q, again, found⟩ := Option.map_eq_some_iff.mp behind
  simp only [Prod.mk.injEq] at found
  obtain ⟨lacks, one⟩ := found
  have drafted : (parse? .strict dialect text).map
      (fun p => jestDomImport.draft ⟨p, text.toList, file⟩) = some d := by
    rw [read, Option.map_some, drafted]
  have spliced : (Edit.splice d.edits 0 text.toList).toOption = some code.toList := by
    decide +kernel
  have finished := d.finish_of_text (by decide) (by decide) spliced
  have valid : (parse? .strict dialect code).isSome = true := Option.isSome_iff_exists.mpr ⟨q, again⟩
  exact ⟨p, q, t, _, parseScript_of_parse rfl read, member, of_decide_eq_true inside,
    applyAll_of_draft rfl drafted finished valid, parseScript_of_parse rfl again, lacks,
    fun none => by simp [none] at one⟩

end Repair

end SourceRepair
