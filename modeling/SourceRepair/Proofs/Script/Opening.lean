import SourceRepair.Proofs.Script.Reading
import SourceRepair.Script.Parse

/-!
# How a source opens

A source that starts with a directive or with an import on a line of its own is read with that directive
or import first, whatever stands behind the line. A hashbang line and lines of directives may stand in front
of it.
-/

namespace SourceRepair.Script

open Reader
open Text (byteLength)

-- The rules are run through all their levels on a token that is given.
set_option maxRecDepth 100000

variable {g : Grammar} {s s' : ParseState} {cs rest : List Char} {n m : String}

/-! ### Names in imports -/

/-- The text is a name that means nothing else in an import, and blanks may stand in front of it. -/
structure IsBinding (n : String) : Prop where
  word : isWordText n
  free : n ∉ reservedWords
  unmarked : n ∉ contextualWords
  skips (rest : List Char) : SkipsTo (' ' :: (n.toList ++ rest)) (n.toList ++ rest)

/-- A blank in front of a text is skipped if nothing is skipped at its first character. -/
theorem skips_of_head {c : Char} (first : n.toList.head? = some c)
    (solid : ∀ cs sloppy o newline, skipGap sloppy .between (' ' :: c :: cs) o newline = ⟨c :: cs, o + 1, newline, false⟩)
    (rest : List Char) : SkipsTo (' ' :: (n.toList ++ rest)) (n.toList ++ rest) := by
  obtain ⟨more, same⟩ := List.head?_eq_some_iff.mp first
  rw [same]
  exact fun sloppy o newline => ⟨_, _, solid _ sloppy o newline⟩

theorem IsBinding.isWord {t : Token} (binding : IsBinding n) (spells : t.Says n) {w : String}
    (contextual : w ∈ contextualWords) : t.isWord w = false := by
  rw [spells.isWord]
  exact beq_false_of_ne (ne_of_mem_of_not_mem contextual binding.unmarked).symm

theorem bindingName_moved (binding : IsBinding n) (spells : s.token.Says n) :
    bindingName s = .ok ⟨n, s.token.span⟩ s.moved := by
  have awaits : n ≠ "await" := (ne_of_mem_of_not_mem (by decide) binding.unmarked).symm
  have yields : n ≠ "yield" := (ne_of_mem_of_not_mem (by decide) binding.unmarked).symm
  have checked : checkName s.token s = .ok () s := by
    refine (bind_ok (x := context) rfl).trans ?_
    rw [spells.text, beq_false_of_ne awaits, beq_false_of_ne yields, Bool.and_false, Bool.and_false]
    rfl
  refine (bind_ok (x := token) rfl).trans ?_
  refine (run_neg (by simp [spells.isIdentifier binding.free])).trans ?_
  refine (bind_ok checked).trans ?_
  rw [← spells.text]
  rfl

theorem importSpecifier_moved (binding : IsBinding n) (spells : s.token.Says n) (behind : s.next.kind ≠ .word) :
    ∃ span, importSpecifier s = .ok (.named ⟨n, s.token.span⟩ ⟨n, s.token.span⟩ false span) s.moved := by
  have exported : moduleExportName s = .ok ⟨n, s.token.span⟩ s.moved := by
    obtain ⟨_, _, ⟨_, _, _, _, _, _, _, _, _⟩⟩ := s
    obtain ⟨kind, text, -⟩ := spells
    cases kind
    cases text
    rfl
  have alone : s.moved.token.isWord "as" = false := by simp [Token.isWord, behind]
  have names : specifierNames s = .ok (false, ⟨n, s.token.span⟩, ⟨n, s.token.span⟩) s.moved := by
    refine (bind_ok (x := token) rfl).trans ?_
    refine (bind_ok (x := peek) rfl).trans ?_
    have untyped : s.token.isWord "type" = false := binding.isWord spells (by decide)
    refine Eq.trans (bind_ok (show _ = EStateM.Result.ok false s from ?_)) ?_
    · rw [untyped]
      rfl
    refine (run_neg (by simp)).trans ?_
    refine (bind_ok exported).trans ?_
    exact (bind_ok (eatWord_none alone)).trans rfl
  have free : reservedWords.contains n = false := by simpa using binding.free
  refine ⟨s.token.span, (bind_ok (x := start) rfl).trans ?_⟩
  refine (bind_ok names).trans ?_
  refine (bind_ok (x := spanFrom _) rfl).trans ?_
  refine (bind_ok (x := isTypescript) rfl).trans ?_
  refine (bind_ok (x := faultIf _) rfl).trans ?_
  rw [free]
  rfl

/-- Names between commas. -/
def listText (ns : List String) : List Char := (String.intercalate ", " ns).toList

theorem listText_cons_cons (n m : String) (ns : List String) :
    listText (n :: m :: ns) = n.toList ++ ',' :: ' ' :: listText (m :: ns) := by
  simp [listText]

theorem listText_cons (n : String) (ns : List String) : ∃ more, listText (n :: ns) = n.toList ++ more := by
  cases ns with
  | nil => exact ⟨[], by simp [listText]⟩
  | cons => exact ⟨_, listText_cons_cons ..⟩

theorem IsBinding.skips_listText {ns : List String} (binding : IsBinding n) (rest : List Char) :
    SkipsTo (' ' :: (listText (n :: ns) ++ rest)) (listText (n :: ns) ++ rest) := by
  obtain ⟨more, starts⟩ := listText_cons n ns
  rw [starts, List.append_assoc]
  exact binding.skips _

/-- One round of reading the specifiers of an import. -/
def specifierStep : List ImportSpecifier × Bool →
    Reader ((List ImportSpecifier × Bool) ⊕ (List ImportSpecifier × Bool))
  | (found, afterComma) => do
    let k ← kind
    if k == .rbrace || k == .eof then return .inr (found.reverse, afterComma && !found.isEmpty)
    if !afterComma then fail
    let a ← importSpecifier
    let comma ← eat .comma
    return .inl (a :: found, comma)

theorem specifierStep_moved (binding : IsBinding n) (spells : s.token.Says n) (behind : s.next.kind ≠ .word)
    {comma : Bool} (ate : eat .comma s.moved = .ok comma s') (found : List ImportSpecifier) :
    ∃ i : ImportSpecifier, i.bound.text = n ∧
      specifierStep (found, true) s = .ok (.inl (i :: found, comma)) s' := by
  obtain ⟨span, read⟩ := importSpecifier_moved binding spells behind
  refine ⟨.named ⟨n, s.token.span⟩ ⟨n, s.token.span⟩ false span, rfl, ?_⟩
  refine (bind_ok (x := kind) rfl).trans ?_
  refine (run_neg (by simp [spells.kind])).trans ?_
  refine (run_neg (by simp)).trans ?_
  exact (bind_ok read).trans (bind_ok ate)

/-- The names up to the closing brace, each once around. -/
theorem iterate_specifierStep {ns : List String} (bindings : ∀ n ∈ ns, IsBinding n) (some : ns ≠ [])
    (here : s.At (listText ns ++ ' ' :: '\x7d' :: rest)) {fuel : Nat} (enough : ns.length < fuel)
    (found : List ImportSpecifier) :
    ∃ items s', items.map (·.bound.text) = ns ∧
      iterate specifierStep fuel (found, true) s = .ok (found.reverse ++ items, false) s' ∧
      s'.token.kind = .rbrace ∧ s'.token.escaped = false ∧ s'.token.rest = rest := by
  induction ns generalizing s fuel found with
  | nil => exact absurd rfl some
  | cons n ns ih =>
    obtain ⟨binding, later⟩ := List.forall_mem_cons.mp bindings
    obtain ⟨fuel, rfl⟩ : ∃ k, fuel = k + 1 := ⟨fuel - 1, by omega⟩
    rw [List.length_cons] at enough
    cases ns with
    | nil =>
      obtain ⟨fuel, rfl⟩ : ∃ k, fuel = k + 1 := ⟨fuel - 1, by simp at enough; omega⟩
      have alone : listText [n] = n.toList := by simp [listText]
      rw [alone] at here
      obtain ⟨spells, behind⟩ := here.word binding.word rfl
      obtain ⟨closes, escaped, after⟩ :=
        (s.moved_at behind fun _ _ _ => ⟨_, _, rfl⟩).mark (c := '\x7d') (k := .rbrace) fun _ => rfl
      obtain ⟨i, named, step⟩ := specifierStep_moved binding spells (by simp_all)
        (eat_none (s := s.moved) (by simp_all)) found
      have last : specifierStep (i :: found, false) s.moved = .ok (.inr (found.reverse ++ [i], false)) s.moved := by
        refine (bind_ok (x := kind) rfl).trans ?_
        refine (run_pos (by simp_all)).trans ?_
        rw [List.reverse_cons]
        rfl
      exact ⟨[i], s.moved, by simp [named], (bind_ok step).trans (bind_ok last), closes, escaped, after⟩
    | cons m ms =>
      rw [listText_cons_cons, List.append_assoc] at here
      obtain ⟨spells, behind⟩ := here.word binding.word rfl
      obtain ⟨comma, escaped, after⟩ :=
        (s.moved_at behind fun _ _ _ => ⟨_, _, rfl⟩).mark (c := ',') (k := .comma) fun _ => rfl
      obtain ⟨i, named, step⟩ := specifierStep_moved binding spells (by simp_all)
        (eat_moved (s := s.moved) comma escaped) found
      have next := s.moved.moved_at after ((List.forall_mem_cons.mp later).1.skips_listText _)
      obtain ⟨items, s', names, read, final⟩ := ih later (by simp) next (show _ < fuel by omega) (i :: found)
      exact ⟨i :: items, s', by simp [named, names], ((bind_ok step).trans read).trans (by simp), final⟩

theorem importBraces_moved {ns : List String} (bindings : ∀ n ∈ ns, IsBinding n) (some : ns ≠ [])
    (here : s.At ('\x7b' :: ' ' :: (listText ns ++ ' ' :: '\x7d' :: rest))) (enough : ns.length < s.fuel) :
    ∃ (items : List ImportSpecifier) (s' : ParseState), items.map (·.bound.text) = ns ∧
      importBraces s = .ok items s'.moved ∧ s'.token.rest = rest := by
  obtain ⟨opens, escaped, behind⟩ := here.mark (k := .lbrace) fun _ => rfl
  have names : s.moved.At (listText ns ++ ' ' :: '\x7d' :: rest) := by
    refine s.moved_at behind ?_
    obtain ⟨n, ns, rfl⟩ := List.exists_cons_of_ne_nil some
    exact (bindings n List.mem_cons_self).skips_listText _
  obtain ⟨items, s', same, read, closes, plain, after⟩ := iterate_specifierStep bindings some names enough []
  refine ⟨items, s', same, ?_, after⟩
  refine (bind_ok (x := start) rfl).trans ?_
  refine (bind_ok (eat_none (by simp [opens]))).trans ?_
  refine (run_neg (by simp)).trans ?_
  refine (bind_ok (expect_moved opens escaped)).trans ?_
  refine (bind_ok read).trans ?_
  exact (bind_ok (expect_moved closes plain)).trans rfl

/-! ### Import declarations -/

/-- What the line of an import binds. -/
inductive ImportClause where
  | bare
  | whole (n : String)
  | names (ns : List String)

namespace ImportClause

def text : ImportClause → String
  | bare => ""
  | whole n => n ++ " from "
  | names ns => "\x7b " ++ String.intercalate ", " ns ++ " \x7d from "

/-- The names that the import binds. -/
def bound : ImportClause → List String
  | bare => []
  | whole n => [n]
  | names ns => ns

/-- The import binds names as they are written. -/
structure Sound (c : ImportClause) : Prop where
  bindings : ∀ n ∈ c.bound, IsBinding n
  some : c ≠ names []

end ImportClause

/-- An import of a module on a line of its own. -/
def importLine (c : ImportClause) (m : String) : String := "import " ++ c.text ++ "\"" ++ m ++ "\";\n"

/-- The import reads as the clause and the module say. -/
structure ImportDecl.Matches (d : ImportDecl) (c : ImportClause) (m : String) : Prop where
  source : d.source = m
  isType : d.isType = false
  bound : (d.specifiers.getD []).map (·.bound.text) = c.bound

theorem importSource_moved {first : Nat} {specifiers : Option (List ImportSpecifier)} {c : ImportClause}
    (here : s.At ('"' :: (m.toList ++ '"' :: ';' :: rest))) (plain : isPlain m)
    (bound : (specifiers.getD []).map (·.bound.text) = c.bound) :
    ∃ d s', importSource g first specifiers false s = .ok (.importDecl d) s' ∧ d.Matches c m := by
  obtain ⟨kind, text, escaped, behind⟩ := here.string (.inl rfl) plain
  obtain ⟨_, _, ⟨_, _, _, _, _, _, _, _, _⟩⟩ := s
  cases kind
  cases text
  cases escaped
  cases behind
  exact ⟨_, _, rfl, rfl, rfl, bound⟩

theorem importDeclaration_bare (escaped : s.token.escaped = false) (quoted : s.next.kind = .string) :
    importDeclaration g s = importSource g s.token.span.start none false s.moved := by
  refine (bind_ok (x := start) rfl).trans ?_
  refine (bind_ok (bump_moved escaped)).trans ?_
  refine (bind_ok (x := at? .string) rfl).trans ?_
  exact run_pos (beq_iff_eq.mpr quoted)

/-- An import from its names on. -/
def importNames (g : Grammar) (first : Nat) : Reader Stmt := do
  let nameStart ← start
  if (← token).isIdentifier then
    let n ← bindingName
    let whole := ImportSpecifier.whole n (← spanFrom nameStart)
    if (← at? .assign) && (← isTypescript) then
      return ← importAliasRest g first n false
    let more ← if ← eat .comma then importBraces else pure []
    faultIf (false && !more.isEmpty)
    expectWord "from"
    importSource g first (some (whole :: more)) false
  else
    let items ← importBraces
    expectWord "from"
    importSource g first (some items) false

/-- Without a phase and without `type` an import goes on with its names. -/
theorem importDeclaration_names (escaped : s.token.escaped = false) (unquoted : s.next.kind ≠ .string)
    (free : ∀ w ∈ ["type", "defer", "source"], s.next.isWord w = false) :
    importDeclaration g s = importNames g s.token.span.start s.moved := by
  refine (bind_ok (x := start) rfl).trans ?_
  refine (bind_ok (bump_moved escaped)).trans ?_
  refine (bind_ok (x := at? .string) rfl).trans ?_
  refine (run_neg (by simpa using unquoted)).trans ?_
  refine (bind_ok (x := token) rfl).trans ?_
  refine (bind_ok (x := peek) rfl).trans ?_
  refine (run_neg (by simp [free "type"])).trans ?_
  refine (bind_ok (x := pure false) rfl).trans ?_
  refine (run_neg (by simp [free "defer"])).trans ?_
  exact (run_neg (by simp [free "source"])).trans rfl

theorem importNames_whole {first : Nat} (binding : IsBinding n) (spells : s.token.Says n)
    (behind : s.next.Says "from") :
    importNames g first s =
      importSource g first (some [.whole ⟨n, s.token.span⟩ s.token.span]) false s.moved.moved := by
  refine (bind_ok (x := start) rfl).trans ?_
  refine (bind_ok (x := token) rfl).trans ?_
  refine (run_pos (spells.isIdentifier binding.free)).trans ?_
  refine (bind_ok (bindingName_moved binding spells)).trans ?_
  refine (bind_ok (x := spanFrom _) rfl).trans ?_
  refine (bind_ok (x := at? .assign) rfl).trans ?_
  refine (bind_ok (x := isTypescript) rfl).trans ?_
  refine (run_neg (by simp [behind.kind])).trans ?_
  refine (bind_ok (eat_none (by simp [behind.kind]))).trans ?_
  refine (run_neg (by simp)).trans ?_
  refine (bind_ok (x := pure []) rfl).trans ?_
  refine (bind_ok (x := faultIf _) rfl).trans ?_
  exact bind_ok (expectWord_moved (behind.isWord.trans (beq_self_eq_true _)) behind.escaped)

theorem importNames_braces {ns : List String} (first : Nat) (bindings : ∀ n ∈ ns, IsBinding n) (some : ns ≠ [])
    (here : s.At ('\x7b' :: ' ' :: (listText ns ++ ' ' :: '\x7d' :: ' ' :: ("from".toList ++ rest))))
    (ends : endsWord rest) (enough : ns.length < s.fuel) :
    ∃ (items : List ImportSpecifier) (s' : ParseState), items.map (·.bound.text) = ns ∧
      importNames g first s = importSource g first (Option.some items) false s'.moved ∧ s'.token.rest = rest := by
  obtain ⟨opens, -, -⟩ := here.mark (k := .lbrace) fun _ => rfl
  obtain ⟨items, s', names, read, behind⟩ := importBraces_moved bindings some here enough
  obtain ⟨spells, after⟩ := (s'.moved_at behind fun _ _ _ => ⟨_, _, rfl⟩).word (w := "from") rfl ends
  refine ⟨items, s'.moved, names, ?_, after⟩
  refine (bind_ok (x := start) rfl).trans ?_
  refine (bind_ok (x := token) rfl).trans ?_
  refine (run_neg (by simp [Token.isIdentifier, opens])).trans ?_
  refine (bind_ok read).trans ?_
  exact bind_ok (expectWord_moved (spells.isWord.trans (beq_self_eq_true _)) spells.escaped)

/-- A statement with the word `import` declares an import if neither a parenthesis nor a dot follows. -/
theorem statementRule_import (spells : s.token.Says "import") (call : s.next.kind ≠ .lparen)
    (property : s.next.kind ≠ .dot) : statementRule g .list s = importDeclaration g s := by
  have word : statementRule g .list s = (peek >>= fun next =>
      if next.kind == .lparen || next.kind == .dot then expressionOrLabel g else importDeclaration g) s := by
    obtain ⟨_, _, ⟨_, _, _, _, _, _, _, _, _⟩⟩ := s
    obtain ⟨kind, text, escaped⟩ := spells
    cases kind
    cases text
    cases escaped
    rfl
  have other : ¬ ((s.next.kind == .lparen || s.next.kind == .dot) = true) := by simp [call, property]
  rw [word]
  exact (bind_ok (x := peek) rfl).trans (run_neg other)

/-- The line of an import is read as that import. -/
theorem statementRule_importLine {c : ImportClause} (sound : c.Sound) (plain : isPlain m)
    (here : s.At ((importLine c m).toList ++ rest)) (enough : c.bound.length < s.fuel) :
    ∃ d s', statementRule g .list s = .ok (.importDecl d) s' ∧ d.Matches c m := by
  cases c with
  | bare =>
    have text : (importLine .bare m).toList ++ rest =
        "import".toList ++ ' ' :: '"' :: (m.toList ++ '"' :: ';' :: '\n' :: rest) := by
      simp [importLine, ImportClause.text]
    rw [text] at here
    obtain ⟨spells, behind⟩ := here.word rfl rfl
    have module := s.moved_at behind fun _ _ _ => ⟨_, _, rfl⟩
    have quoted := (module.string (.inl rfl) plain).1
    rw [ParseState.moved_token] at quoted
    rw [statementRule_import spells (by simp [quoted]) (by simp [quoted]), importDeclaration_bare spells.escaped quoted]
    exact importSource_moved module plain rfl
  | whole n =>
    have text : (importLine (.whole n) m).toList ++ rest = "import".toList ++ ' ' :: (n.toList ++ ' ' ::
        ("from".toList ++ ' ' :: '"' :: (m.toList ++ '"' :: ';' :: '\n' :: rest))) := by
      simp [importLine, ImportClause.text]
    have binding := sound.bindings n (List.mem_singleton_self n)
    rw [text] at here
    obtain ⟨spells, behind⟩ := here.word rfl rfl
    obtain ⟨names, after⟩ := (s.moved_at behind (binding.skips _)).word binding.word rfl
    have source : s.moved.moved.At ("from".toList ++ ' ' :: '"' :: (m.toList ++ '"' :: ';' :: '\n' :: rest)) :=
      s.moved.moved_at after fun _ _ _ => ⟨_, _, rfl⟩
    obtain ⟨from_, last⟩ := source.word rfl rfl
    have module := s.moved.moved.moved_at last fun _ _ _ => ⟨_, _, rfl⟩
    rw [ParseState.moved_token] at names
    have free : ∀ w ∈ ["type", "defer", "source"], s.next.isWord w = false := fun w member =>
      binding.isWord names (List.forall_mem_cons.mpr ⟨by decide, by decide⟩ w member)
    rw [statementRule_import spells (by simp [names.kind]) (by simp [names.kind]),
      importDeclaration_names spells.escaped (by simp [names.kind]) free, importNames_whole binding names from_]
    exact importSource_moved module plain rfl
  | names ns =>
    have text : (importLine (.names ns) m).toList ++ rest = "import".toList ++ ' ' :: '\x7b' :: ' ' ::
        (listText ns ++ ' ' :: '\x7d' :: ' ' ::
          ("from".toList ++ ' ' :: '"' :: (m.toList ++ '"' :: ';' :: '\n' :: rest))) := by
      simp [importLine, ImportClause.text, listText]
    have some : ns ≠ [] := fun none => sound.some (congrArg _ none)
    rw [text] at here
    obtain ⟨spells, behind⟩ := here.word rfl rfl
    have names := s.moved_at behind fun _ _ _ => ⟨_, _, rfl⟩
    obtain ⟨opens, -, -⟩ := names.mark (k := .lbrace) fun _ => rfl
    rw [ParseState.moved_token] at opens
    obtain ⟨items, s', bound, read, last⟩ := importNames_braces (g := g) s.token.span.start
      sound.bindings some names rfl enough
    have module := s'.moved_at last fun _ _ _ => ⟨_, _, rfl⟩
    rw [statementRule_import spells (by simp [opens]) (by simp [opens]),
      importDeclaration_names spells.escaped (by simp [opens]) (by simp [Token.isWord, opens]), read]
    exact importSource_moved module plain bound

/-! ### The first statement of a list -/

/-- What has been read once a statement that starts with a token is added. -/
def Statements.add (found : Statements) (t : Token) (s : Stmt) : Statements :=
  match found.prologue, s with
  | true, .expression (.string _ inner) span =>
    if inner.start == span.start then
      { found with directives := ⟨t.unquoted, span⟩ :: found.directives }
    else { found with body := s :: found.body, prologue := false }
  | _, _ => { found with body := s :: found.body, prologue := false }

/-- One round of reading a list of statements. -/
def statementStep (g : Grammar) (found : Statements) :
    Reader (Statements ⊕ (List Directive × List Stmt)) := do
  let t ← token
  if t.kind == .rbrace || t.kind == .eof then
    return .inr (found.directives.reverse, found.body.reverse)
  let s ← g.tree (.statement .list)
  return .inl (found.add t s)

theorem statementList_eq (g : Grammar) : statementList g = loop {} (statementStep g) := by
  unfold statementList statementStep
  congr 1
  funext found
  refine bind_congr fun t => ?_
  split
  · rfl
  · refine bind_congr fun s => ?_
    unfold Statements.add
    split
    · simp only [*]
      split <;> rfl
    · split
      · simp_all
      · rfl

theorem Statements.add_suffix (found : Statements) (t : Token) (s : Stmt) :
    found.directives <:+ (found.add t s).directives ∧ found.body <:+ (found.add t s).body := by
  unfold add
  split
  · split
    · exact ⟨List.suffix_cons _ _, List.suffix_rfl⟩
    · exact ⟨List.suffix_rfl, List.suffix_cons _ _⟩
  · exact ⟨List.suffix_rfl, List.suffix_cons _ _⟩

theorem Statements.add_closed (found : Statements) {t : Token} {s : Stmt} (behind : found.prologue = false) :
    found.add t s = { found with body := s :: found.body, prologue := false } := by
  simp [add, behind]

variable {ds : List Directive} {body : List Stmt} {found : Statements}

/-- What has been read stays in front of what is read later, and directives come in front of all else. -/
theorem of_iterate_statementStep {fuel : Nat}
    (ran : iterate (statementStep g) fuel found s = .ok (ds, body) s') :
    found.directives.reverse <+: ds ∧ found.body.reverse <+: body ∧
      (found.prologue = false → ds = found.directives.reverse) := by
  induction fuel generalizing found s with
  | zero => cases ran
  | succ fuel ih =>
    obtain ⟨r, s₁, step, ran⟩ := of_bind_ok ran
    obtain ⟨t, s₂, -, step⟩ := of_bind_ok step
    split at step
    · cases step
      cases ran
      exact ⟨List.prefix_rfl, List.prefix_rfl, fun _ => rfl⟩
    · obtain ⟨stmt, s₃, -, step⟩ := of_bind_ok step
      cases step
      obtain ⟨directives, statements, closed⟩ := ih ran
      obtain ⟨more, others⟩ := found.add_suffix t stmt
      refine ⟨(List.reverse_prefix.mpr more).trans directives, (List.reverse_prefix.mpr others).trans statements,
        fun behind => ?_⟩
      rw [found.add_closed behind] at closed
      exact closed rfl

/-- A statement that is read is added to what has been read. -/
theorem iterate_add {fuel : Nat} {first : Stmt} {s₁ : ParseState}
    (ran : iterate (statementStep g) fuel found s = .ok (ds, body) s')
    (starts : s.token.kind ≠ .rbrace ∧ s.token.kind ≠ .eof) (read : g.tree (.statement .list) s = .ok first s₁) :
    ∃ fuel, iterate (statementStep g) fuel (found.add s.token first) s₁ = .ok (ds, body) s' := by
  have step : statementStep g found s = .ok (.inl (found.add s.token first)) s₁ := by
    refine (bind_ok (x := token) rfl).trans ?_
    refine (run_neg (by simp [starts])).trans ?_
    exact (bind_ok read).trans rfl
  cases fuel with
  | zero => cases ran
  | succ fuel => exact ⟨fuel, (bind_ok step (f := _)).symm.trans ran⟩

theorem of_programRule (ran : programRule g s = .ok (ds, body) s') :
    ∃ s₁, iterate (statementStep g) s.fuel {} s = .ok (ds, body) s₁ := by
  obtain ⟨list, s₁, read, ran⟩ := of_bind_ok ran
  obtain ⟨atEnd, s₂, -, ran⟩ := of_bind_ok ran
  split at ran
  · obtain ⟨_, _, impossible, _⟩ := of_bind_ok ran
    cases impossible
  · cases ran
    rw [statementList_eq] at read
    obtain ⟨state, _, same, read⟩ := of_bind_ok read
    cases same
    exact ⟨s₁, read⟩

/-- A string with a semicolon behind it is a statement of its own. -/
theorem statement_string {fuel : Nat} (levels : Nat) (fuelled : s.fuel = fuel + 1) (kind : s.token.kind = .string)
    (escaped : s.token.escaped = false) (behind : s.token.rest = ';' :: rest) :
    (grammar (levels + 40)).tree (.statement .list) s =
      .ok (.expression (.string s.token.text s.token.span) ⟨s.token.span.start, s.token.span.stop + 1⟩)
        s.moved.moved := by
  obtain ⟨_, _, ⟨_, _, _, _, _, _, _, _, _⟩⟩ := s
  cases fuelled
  cases kind
  cases escaped
  cases behind
  rfl

theorem takeBytes_append (cs rest : List Char) : takeBytes (byteLength cs) (cs ++ rest) = cs := by
  induction cs with
  | nil => cases rest <;> rfl
  | cons c cs ih =>
    obtain ⟨k, size⟩ : ∃ k, c.utf8Size = k + 1 := ⟨c.utf8Size - 1, by have := c.utf8Size_pos; omega⟩
    rw [Text.byteLength_cons, size, Nat.add_right_comm, List.cons_append, takeBytes, size,
      show k + byteLength cs + 1 - (k + 1) = byteLength cs by omega, ih]

/-! ### Sources -/

/-- What can stand in front of the first line of statements, with the hashbang that is read from it. -/
inductive Lead : List Char → Option Span → Prop
  | none : Lead [] none
  | hashbang {line : List Char} (one : ∀ c ∈ line, isLineEnd c = false) :
    Lead ('#' :: '!' :: (line ++ ['\n'])) (some ⟨0, 2 + byteLength line⟩)

/-- What the lines in front of a statement say: a hashbang, and directives that end with semicolons. -/
inductive Prologue : List Char → Option Span → List Directive → Prop
  | lead {front : List Char} {bang : Option Span} (lead : Lead front bang) : Prologue front bang []
  | line {front : List Char} {bang : Option Span} {ds : List Directive} {quote : Char} {v : String}
    (before : Prologue front bang ds) (quotes : quote = '"' ∨ quote = '\x27') (plain : isPlain v) :
    Prologue (front ++ quote :: (v.toList ++ [quote, ';', '\n'])) bang
      (ds ++ [⟨v, ⟨byteLength front, byteLength front + byteLength v.toList + 3⟩⟩])

variable {front : List Char} {bang : Option Span} {leniency : Leniency} {dialect : Dialect} {text : String}
  {p : Program}

theorem hashbang?_line {line : List Char} (one : ∀ c ∈ line, isLineEnd c = false) (cs : List Char) :
    hashbang? ('#' :: '!' :: (line ++ '\n' :: cs)) = some (⟨0, 2 + byteLength line⟩, '\n' :: cs) := by
  have taken : (line ++ '\n' :: cs).takeWhile (!isLineEnd ·) = line := by
    rw [List.takeWhile_append_of_pos (by simpa using one)]
    exact List.append_nil line
  simp [hashbang?, taken]

/-- A source is read as a list of statements from its hashbang on. -/
theorem of_parse? {offset : Nat}
    (starts : hashbang? text.toList = none ∧ bang = none ∧ rest = text.toList ∧ offset = 0 ∨
      ∃ span, hashbang? text.toList = some (span, rest) ∧ bang = some span ∧ offset = span.stop)
    (read : parse? leniency dialect text = some p) :
    p.hashbang = bang ∧ ∃ s s', s.token = firstToken (dialect.goal == .script) rest offset ∧
      s.fuel = byteLength text.toList + 2 ∧
      programRule (grammar (32 * (byteLength text.toList + 2))) s = .ok (p.directives, p.body) s' := by
  unfold parse? at read
  split at read
  · rename_i program faults found
    obtain rfl : program = p := by
      split at read
      · exact Option.some.inj read
      · cases read
    rcases starts with ⟨none, rfl, rfl, rfl⟩ | ⟨span, some, rfl, rfl⟩
    · simp only [parseSource, none] at found
      split at found
      · rename_i ran
        cases found
        exact ⟨rfl, _, _, rfl, rfl, ran⟩
      · cases found
    · simp only [parseSource, some] at found
      split at found
      · rename_i ran
        cases found
        exact ⟨rfl, _, _, rfl, rfl, ran⟩
      · cases found
  · cases read

/-- The program is read from some statements on, with what has been read in front of them. -/
def ReadsOn (text : String) (p : Program) (s : ParseState) (found : Statements) : Prop :=
  s.fuel = byteLength text.toList + 2 ∧ ∃ fuel s',
    iterate (statementStep (grammar (32 * (byteLength text.toList + 2)))) fuel found s = .ok (p.directives, p.body) s'

/-- A source is read from its first line of statements on, at which nothing has to be skipped. -/
theorem Lead.readsOn (lead : Lead front bang) (whole : text.toList = front ++ cs) (bare : hashbang? cs = Option.none)
    (solid : ∀ sloppy o newline, skipGap sloppy .between cs o newline = ⟨cs, o, newline, false⟩)
    (read : parse? leniency dialect text = some p) :
    p.hashbang = bang ∧ ∃ s, ReadsOn text p s {} ∧
      s.token = (scanLexeme cs (byteLength front)).token ⟨cs, byteLength front, true, false⟩ := by
  cases lead with
  | none =>
    rw [List.nil_append] at whole
    obtain ⟨same, s, s', token, fuel, ran⟩ := of_parse? (.inl ⟨whole ▸ bare, rfl, rfl, rfl⟩) read
    obtain ⟨s₁, ran⟩ := of_programRule ran
    refine ⟨same, s, ⟨fuel, _, s₁, ran⟩, ?_⟩
    rw [token, firstToken, whole, solid]
    rfl
  | @hashbang line one =>
    have starts : hashbang? text.toList = some (⟨0, 2 + byteLength line⟩, '\n' :: cs) := by
      rw [whole]
      simpa using hashbang?_line one cs
    obtain ⟨same, s, s', token, fuel, ran⟩ := of_parse? (.inr ⟨_, starts, rfl, rfl⟩) read
    obtain ⟨s₁, ran⟩ := of_programRule ran
    refine ⟨same, s, ⟨fuel, _, s₁, ran⟩, ?_⟩
    -- The newline that ends the line is skipped.
    have newline (sloppy : Bool) : skipGap sloppy .between ('\n' :: cs) (2 + byteLength line) true =
        skipGap sloppy .between cs (2 + byteLength line + 1) true := rfl
    have length : 2 + byteLength line + 1 = byteLength ('#' :: '!' :: (line ++ ['\n'])) := by
      have hash : Char.utf8Size '#' = 1 := rfl
      have mark : Char.utf8Size '!' = 1 := rfl
      have feed : Char.utf8Size '\n' = 1 := rfl
      simp only [Text.byteLength_cons, Text.byteLength_append, Text.byteLength_nil, hash, mark, feed]
      omega
    rw [token, firstToken, newline, solid, length]

/-- A string with a semicolon behind it is a directive if nothing but directives stands in front of it. -/
theorem ReadsOn.directive {o : Nat} {quote : Char} {v : String} (reads : ReadsOn text p s found)
    (prologue : found.prologue = true) (quotes : quote = '"' ∨ quote = '\x27') (plain : isPlain v)
    (token : s.token = (scanLexeme (quote :: (v.toList ++ quote :: ';' :: rest)) o).token
      ⟨quote :: (v.toList ++ quote :: ';' :: rest), o, true, false⟩) :
    ReadsOn text p s.moved.moved
      { found with directives := ⟨v, ⟨o, o + byteLength v.toList + 3⟩⟩ :: found.directives } := by
  obtain ⟨fuel, k, s', ran⟩ := reads
  rw [scanLexeme_string quotes plain] at token
  have first := statement_string (32 * byteLength text.toList + 24) fuel
    (by rw [token]; rfl) (by rw [token]; rfl) (by rw [token]; rfl)
  rw [show 32 * byteLength text.toList + 24 + 40 = 32 * (byteLength text.toList + 2) by omega] at first
  obtain ⟨k, ran⟩ := iterate_add ran (by simp [token, Lexeme.token]) first
  have unquoted : s.token.unquoted = v := by
    rw [token]
    simp only [Token.unquoted, Lexeme.token, List.drop_one, List.tail_cons]
    rw [show o + 1 + byteLength v.toList + 1 - o - 2 = byteLength v.toList by omega,
      takeBytes_append, String.ofList_toList]
  have added : found.add s.token (.expression (.string s.token.text s.token.span)
      ⟨s.token.span.start, s.token.span.stop + 1⟩) =
        { found with directives := ⟨v, ⟨o, o + byteLength v.toList + 3⟩⟩ :: found.directives } := by
    simp only [Statements.add, prologue, beq_self_eq_true, if_true, unquoted]
    simp only [token, Lexeme.token, Statements.mk.injEq, List.cons.injEq, Directive.mk.injEq, Span.mk.injEq, true_and,
      and_true]
    omega
  rw [added] at ran
  exact ⟨fuel, k, s', ran⟩

/-- A source is read from its first line behind its directives on. -/
theorem Prologue.readsOn {ds : List Directive} (prologue : Prologue front bang ds)
    (whole : text.toList = front ++ cs) (bare : hashbang? cs = none)
    (solid : ∀ sloppy o newline, skipGap sloppy .between cs o newline = ⟨cs, o, newline, false⟩)
    (read : parse? leniency dialect text = some p) :
    p.hashbang = bang ∧ ∃ s, ReadsOn text p s ⟨ds.reverse, [], true⟩ ∧
      s.token = (scanLexeme cs (byteLength front)).token ⟨cs, byteLength front, true, false⟩ := by
  induction prologue generalizing cs with
  | lead lead => exact lead.readsOn whole bare solid read
  | @line front bang ds quote v before quotes plain ih =>
    have quoted : text.toList = front ++ quote :: (v.toList ++ quote :: ';' :: '\n' :: cs) := by simpa using whole
    obtain ⟨same, s, reads, token⟩ := ih quoted
      (by rcases quotes with rfl | rfl <;> rfl) (fun _ _ _ => by rcases quotes with rfl | rfl <;> rfl)
    refine ⟨same, s.moved.moved, ?_, ?_⟩
    · rw [List.reverse_append]
      exact reads.directive rfl quotes plain token
    · have behind : s.token.rest = ';' :: '\n' :: cs := by
        rw [token, scanLexeme_string quotes plain]
        rfl
      have stop : s.token.span.stop = byteLength front + 1 + byteLength v.toList + 1 := by
        rw [token, scanLexeme_string quotes plain]
        rfl
      have after : s.next.rest = '\n' :: cs ∧ s.next.span.stop = s.token.span.stop + 1 := by
        rw [ParseState.next, nextToken, behind]
        exact ⟨rfl, rfl⟩
      have newline (sloppy : Bool) (o : Nat) : skipGap sloppy .between ('\n' :: cs) o false =
          skipGap sloppy .between cs (o + 1) true := rfl
      have length : s.token.span.stop + 1 + 1 = byteLength (front ++ quote :: (v.toList ++ [quote, ';', '\n'])) := by
        have mark : Char.utf8Size quote = 1 := by rcases quotes with rfl | rfl <;> rfl
        have semicolon : Char.utf8Size ';' = 1 := rfl
        have feed : Char.utf8Size '\n' = 1 := rfl
        simp only [stop, Text.byteLength_cons, Text.byteLength_append, Text.byteLength_nil, mark, semicolon, feed]
        omega
      rw [ParseState.moved_token, ParseState.next, nextToken, ParseState.moved_token, after.1, after.2, newline, solid,
        length]

/-- A source that starts with a string on a line of its own has it as its first directive. -/
theorem directive_first {ds : List Directive} (prologue : Prologue front bang ds) {quote : Char}
    (quotes : quote = '"' ∨ quote = '\x27') {v : String} (plain : isPlain v)
    (whole : text.toList = front ++ quote :: (v.toList ++ quote :: ';' :: rest))
    (read : parse? leniency dialect text = some p) :
    p.hashbang = bang ∧
      ds ++ [⟨v, ⟨byteLength front, byteLength front + byteLength v.toList + 3⟩⟩] <+: p.directives := by
  obtain ⟨same, s, reads, token⟩ := prologue.readsOn whole (by rcases quotes with rfl | rfl <;> rfl)
    (fun _ _ _ => by rcases quotes with rfl | rfl <;> rfl) read
  obtain ⟨-, fuel, s', ran⟩ := reads.directive rfl quotes plain token
  refine ⟨same, ?_⟩
  simpa using (of_iterate_statementStep ran).1

/-- A source that starts with the line of an import has that import first. -/
theorem import_first {ds : List Directive} (prologue : Prologue front bang ds) {c : ImportClause} (sound : c.Sound)
    (plain : isPlain m) (few : c.bound.length ≤ byteLength text.toList)
    (whole : text.toList = front ++ ((importLine c m).toList ++ rest))
    (read : parse? leniency dialect text = some p) :
    p.hashbang = bang ∧ p.directives = ds ∧ ∃ d, p.body.head? = some (.importDecl d) ∧ d.Matches c m := by
  have starts : (importLine c m).toList ++ rest =
      "import".toList ++ (' ' :: ((c.text ++ "\"" ++ m ++ "\";\n").toList ++ rest)) := by
    simp [importLine]
  obtain ⟨same, s, ⟨fuel, k, s', ran⟩, token⟩ :=
    prologue.readsOn whole (by rw [starts]; rfl) (fun _ _ _ => by rw [starts]; rfl) read
  have here : s.At ((importLine c m).toList ++ rest) := ⟨_, _, token⟩
  obtain ⟨d, s₁, first, fits⟩ := statementRule_importLine (g := grammar (32 * byteLength text.toList + 63))
    sound plain here (by omega)
  rw [starts] at here
  obtain ⟨spells, -⟩ := here.word (w := "import") rfl rfl
  rw [show 32 * (byteLength text.toList + 2) = 32 * byteLength text.toList + 63 + 1 by omega] at ran
  obtain ⟨k, ran⟩ := iterate_add ran (by simp [spells.kind]) first
  obtain ⟨-, ⟨others, statements⟩, closed⟩ := of_iterate_statementStep ran
  exact ⟨same, by simpa [Statements.add] using closed rfl, d, by rw [← statements]; rfl, fits⟩

end SourceRepair.Script
