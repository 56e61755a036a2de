import SourceRepair.Proofs.Text.Offset
import SourceRepair.Script.Grammar.Basic

/-!
# Reading tokens of known texts

What a reader does at a word, a string or a mark is told from the text that is left: which token it
stands at, and where it stands behind it. So a rule is run on a known text one reader at a time, whatever
comes after that text.
-/

namespace SourceRepair.Script

open Reader
open Text (byteLength isIdentifierPart isIdentifierStart)

/-! ### Lexemes -/

theorem scanString_plain {quote : Char} {cs : List Char}
    (plain : ∀ c ∈ cs, c ≠ quote ∧ c ≠ '\n' ∧ c ≠ '\r' ∧ c ≠ '\\') (rest : List Char) (stop : Nat)
    (acc : List Char) (faults : Nat) : scanString quote (cs ++ quote :: rest) stop acc faults none =
      ⟨.string, collected (cs.reverse ++ acc), stop + byteLength cs + 1, rest, false, true, faults⟩ := by
  induction cs generalizing stop acc with
  | nil =>
    rw [List.nil_append, scanString.eq_def]
    simp
  | cons c cs ih =>
    obtain ⟨⟨closing, newline, back, slash⟩, later⟩ := List.forall_mem_cons.mp plain
    rw [List.cons_append, scanString.eq_def]
    simp only [beq_false_of_ne closing, beq_false_of_ne newline, beq_false_of_ne back, beq_false_of_ne slash,
      Bool.false_eq_true, if_false, Bool.or_self, ih later]
    simp [Nat.add_assoc]

/-- A word does not go on here. -/
def endsWord (rest : List Char) : Bool := rest.head?.all fun c => !isIdentifierPart c && c != '\\'

theorem scanWord_plain {cs rest : List Char} (parts : ∀ c ∈ cs, isIdentifierPart c) (ends : endsWord rest)
    (stop : Nat) (acc : List Char) : scanWord (cs ++ rest) stop acc false true none =
      ⟨.word, collected (cs.reverse ++ acc), stop + byteLength cs, rest, false, true, 0⟩ := by
  induction cs generalizing stop acc with
  | nil =>
    cases rest with
    | nil => simp [scanWord]
    | cons c rest =>
      have stops : isIdentifierPart c = false ∧ c ≠ '\\' := by simpa [endsWord] using ends
      rw [List.nil_append, scanWord.eq_def]
      simp [stops]
  | cons c cs ih =>
    obtain ⟨part, later⟩ := List.forall_mem_cons.mp parts
    rw [List.cons_append, scanWord.eq_def]
    simp only [part, if_true, ih later]
    simp [Nat.add_assoc]

/-- The text stands for itself between two quotes. -/
def isPlain (w : String) : Bool :=
  w.toList.all fun c => c != '"' && c != '\x27' && c != '\n' && c != '\r' && c != '\\'

theorem scanLexeme_string {quote : Char} (quotes : quote = '"' ∨ quote = '\x27') {w : String} (plain : isPlain w)
    (rest : List Char) (o : Nat) : scanLexeme (quote :: (w.toList ++ quote :: rest)) o =
      ⟨.string, w, o + 1 + byteLength w.toList + 1, rest, false, true, 0⟩ := by
  have inside : ∀ c ∈ w.toList, c ≠ quote ∧ c ≠ '\n' ∧ c ≠ '\r' ∧ c ≠ '\\' := by
    intro c member
    have := List.all_eq_true.mp plain c member
    rcases quotes with rfl | rfl <;> simp_all
  have scanned : scanLexeme (quote :: (w.toList ++ quote :: rest)) o =
      scanString quote (w.toList ++ quote :: rest) (o + 1) [] 0 none := by
    rcases quotes with rfl | rfl <;> rfl
  rw [scanned, scanString_plain inside]
  simp [collected]

/-- The text can be written as one word. -/
def isWordText (w : String) : Bool :=
  w.toList.head?.any isIdentifierStart && w.toList.all isIdentifierPart

theorem scanLexeme_word {w : String} (word : isWordText w) {rest : List Char} (ends : endsWord rest) (o : Nat) :
    scanLexeme (w.toList ++ rest) o = ⟨.word, w, o + byteLength w.toList, rest, false, true, 0⟩ := by
  obtain ⟨starts, parts⟩ := Bool.and_eq_true_iff.mp word
  have scanned : scanLexeme (w.toList ++ rest) o = scanWord (w.toList ++ rest) o [] false true none := by
    cases same : w.toList with
    | nil => simp [same] at starts
    | cons c cs =>
      have first : isIdentifierStart c = true := by simpa [same] using starts
      rw [List.cons_append, scanLexeme]
      simp [first]
  rw [scanned, scanWord_plain (List.all_eq_true.mp parts) ends]
  simp [collected]

/-! ### Running readers -/

variable {α β : Type} {s s' : ParseState} {w : String} {k : Kind} {cs rest : List Char}

namespace ParseState

/-- The token behind the current one. -/
def next (s : ParseState) : Token := nextToken (s.dialect.goal == .script) s.token.rest s.token.span.stop

/-- The state behind the current token. -/
def moved (s : ParseState) : ParseState :=
  { s with token := s.next, lastStop := s.token.span.stop, faults := s.faults + s.next.faults }

@[simp] theorem moved_token (s : ParseState) : s.moved.token = s.next := rfl

@[simp] theorem moved_fuel (s : ParseState) : s.moved.fuel = s.fuel := rfl

end ParseState

theorem bind_ok {x : Reader α} {f : α → Reader β} {a : α} (ran : x s = .ok a s') : (x >>= f) s = f a s' := by
  change EStateM.bind x f s = _
  rw [EStateM.bind, ran]

/-- What gives a value has run both parts. -/
theorem of_bind_ok {x : Reader α} {f : α → Reader β} {b : β} (ran : (x >>= f) s = .ok b s') :
    ∃ a s₁, x s = .ok a s₁ ∧ f a s₁ = .ok b s' := by
  change EStateM.bind x f s = _ at ran
  rw [EStateM.bind] at ran
  split at ran
  · exact ⟨_, _, ‹_›, ran⟩
  · cases ran

theorem run_pos {c : Prop} [Decidable c] {x y : Reader α} (holds : c) : (if c then x else y) s = x s := by
  rw [if_pos holds]

theorem run_neg {c : Prop} [Decidable c] {x y : Reader α} (fails : ¬ c) : (if c then x else y) s = y s := by
  rw [if_neg fails]

theorem at?_true (same : s.token.kind = k) : at? k s = .ok true s :=
  congrArg (EStateM.Result.ok · s) (beq_iff_eq.mpr same)

theorem at?_false (other : s.token.kind ≠ k) : at? k s = .ok false s :=
  congrArg (EStateM.Result.ok · s) (beq_false_of_ne other)

theorem bump_moved (plain : s.token.escaped = false) : bump s = .ok () s.moved := by
  refine (bind_ok (x := token) rfl).trans ?_
  rw [plain]
  rfl

theorem eat_none (other : s.token.kind ≠ k) : eat k s = .ok false s :=
  (bind_ok (at?_false other)).trans rfl

theorem eat_moved (same : s.token.kind = k) (plain : s.token.escaped = false) : eat k s = .ok true s.moved :=
  (bind_ok (at?_true same)).trans ((bind_ok (bump_moved plain)).trans rfl)

theorem expect_moved (same : s.token.kind = k) (plain : s.token.escaped = false) : expect k s = .ok () s.moved :=
  (bind_ok (at?_true same)).trans (bump_moved plain)

theorem eatWord_none (other : s.token.isWord w = false) : eatWord w s = .ok false s := by
  have absent : atWord? w s = .ok false s := congrArg (EStateM.Result.ok · s) other
  exact (bind_ok absent).trans rfl

theorem expectWord_moved (same : s.token.isWord w) (plain : s.token.escaped = false) :
    expectWord w s = .ok () s.moved := by
  have present : atWord? w s = .ok true s := congrArg (EStateM.Result.ok · s) same
  exact (bind_ok present).trans (bump_moved plain)

/-! ### Reading on in a text -/

/-- The current token is the first one of the text. -/
def ParseState.At (s : ParseState) (cs : List Char) : Prop :=
  ∃ o newline, s.token = (scanLexeme cs o).token ⟨cs, o, newline, false⟩

/-- Nothing but blanks stands in front of the second text. -/
def SkipsTo (cs ds : List Char) : Prop :=
  ∀ sloppy o newline, ∃ o' newline', skipGap sloppy .between cs o newline = ⟨ds, o', newline', false⟩

theorem ParseState.moved_at (s : ParseState) (behind : s.token.rest = rest) (skips : SkipsTo rest cs) :
    s.moved.At cs := by
  obtain ⟨o, newline, gap⟩ := skips (s.dialect.goal == .script) s.token.span.stop false
  refine ⟨o, newline, ?_⟩
  rw [moved_token, next, nextToken, behind, gap]

/-- The token is a word that is written without escapes. -/
structure Token.Says (t : Token) (w : String) : Prop where
  kind : t.kind = .word
  text : t.text = w
  escaped : t.escaped = false

theorem Token.Says.isWord {t : Token} {v : String} (spells : t.Says w) : t.isWord v = (w == v) := by
  rw [Token.isWord, spells.kind, spells.text]
  rfl

/-- A word that is not reserved names a variable. -/
theorem Token.Says.isIdentifier {t : Token} (spells : t.Says w) (free : w ∉ reservedWords) :
    t.isIdentifier = true := by
  rw [Token.isIdentifier, spells.kind, spells.text]
  simpa using free

namespace ParseState.At

theorem word (here : s.At (w.toList ++ rest)) (word : isWordText w) (ends : endsWord rest) :
    s.token.Says w ∧ s.token.rest = rest := by
  obtain ⟨o, newline, same⟩ := here
  rw [same, scanLexeme_word word ends]
  exact ⟨⟨rfl, rfl, rfl⟩, rfl⟩

theorem string {quote : Char} (here : s.At (quote :: (w.toList ++ quote :: rest)))
    (quotes : quote = '"' ∨ quote = '\x27') (plain : isPlain w) :
    s.token.kind = .string ∧ s.token.text = w ∧ s.token.escaped = false ∧ s.token.rest = rest := by
  obtain ⟨o, newline, same⟩ := here
  rw [same, scanLexeme_string quotes plain]
  exact ⟨rfl, rfl, rfl, rfl⟩

theorem mark {c : Char} (here : s.At (c :: rest))
    (scanned : ∀ o, scanLexeme (c :: rest) o = ⟨k, "", o + 1, rest, false, true, 0⟩) :
    s.token.kind = k ∧ s.token.escaped = false ∧ s.token.rest = rest := by
  obtain ⟨o, newline, same⟩ := here
  rw [same, scanned]
  exact ⟨rfl, rfl, rfl⟩

end ParseState.At

end SourceRepair.Script
