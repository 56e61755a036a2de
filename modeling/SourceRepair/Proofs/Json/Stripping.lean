import Mathlib.Data.List.TakeWhile
import SourceRepair.Json.Comments
import SourceRepair.Proofs.Json.Grammar

/-!
# Taking comments and commas out

Each of the two readers is followed through the grammar: what the first leaves of a text in which comments may
stand is the same value with blanks only, and what the second leaves of that is plain JSON. Nothing else leaves
plain JSON behind, so `document_stripped` says exactly which texts do.
-/

namespace SourceRepair.Json

open Relation (Comp)

/-! ### Strings -/

/-- What stands between quotes, as far as a reader of strings looks at it. -/
inductive IsBody : List Char → Prop
  | nil : IsBody []
  | plain {c : Char} {w : List Char} (quote : c ≠ '"') (slash : c ≠ '\\') (rest : IsBody w) : IsBody (c :: w)
  | escaped {c : Char} {w : List Char} (rest : IsBody w) : IsBody ('\\' :: c :: w)

theorem hexValue?_ne {c : Char} {n : Nat} (value : hexValue? c = some n) : c ≠ '"' ∧ c ≠ '\\' := by
  constructor
  all_goals
    rintro rfl
    cases value

theorem IsBody.quad {a b c d : Char} {n : Nat} {w : List Char} (number : hexQuad? a b c d = some n)
    (rest : IsBody w) : IsBody ('\\' :: 'u' :: a :: b :: c :: d :: w) := by
  simp only [hexQuad?, Option.bind_eq_bind, Option.bind_eq_some_iff] at number
  obtain ⟨_, ha, _, hb, _, hc, _, hd, _⟩ := number
  exact .escaped (.plain (hexValue?_ne ha).1 (hexValue?_ne ha).2 (.plain (hexValue?_ne hb).1 (hexValue?_ne hb).2
    (.plain (hexValue?_ne hc).1 (hexValue?_ne hc).2 (.plain (hexValue?_ne hd).1 (hexValue?_ne hd).2 rest))))

theorem Spells.body {cs u : List Char} (spelled : Spells cs u) : IsBody u := by
  induction spelled with
  | nil => exact .nil
  | cons first _ ih =>
    cases first with
    | plain quote slash _ => exact .plain quote slash ih
    | short _ => exact .escaped ih
    | code quad _ _ => exact .quad quad ih
    | pair first second _ => exact .quad first (.quad second ih)

/-- A reader that leaves strings alone, in its three states. -/
structure Quoting (code string escape : List Char → List Char) : Prop where
  slash (cs : List Char) : string ('\\' :: cs) = '\\' :: escape cs
  quote (cs : List Char) : string ('"' :: cs) = '"' :: code cs
  other (c : Char) (cs : List Char) (slash : c ≠ '\\') (quote : c ≠ '"') : string (c :: cs) = c :: string cs
  escaped (c : Char) (cs : List Char) : escape (c :: cs) = c :: string cs
  opened (cs : List Char) : code ('"' :: cs) = '"' :: string cs
  string_nil : string [] = []
  escape_nil : escape [] = []

namespace Quoting

variable {code string escape : List Char → List Char} (quoting : Quoting code string escape)
include quoting

theorem body {w : List Char} (body : IsBody w) (t : List Char) : string (w ++ t) = w ++ string t := by
  induction body with
  | nil => rfl
  | plain quote slash _ ih => rw [List.cons_append, quoting.other _ _ slash quote, ih, List.cons_append]
  | escaped _ ih => rw [List.cons_append, List.cons_append, quoting.slash, quoting.escaped, ih]; rfl

/-- Such a reader keeps each character of a string. -/
theorem head {t r : List Char} {c : Char} (left : string t = c :: r) : ∃ u, t = c :: u := by
  cases t with
  | nil => simp [quoting.string_nil] at left
  | cons d t =>
    by_cases slash : d = '\\'
    · subst slash
      rw [quoting.slash] at left
      exact ⟨t, by rw [(List.cons.inj left).1]⟩
    · by_cases quote : d = '"'
      · subst quote
        rw [quoting.quote] at left
        exact ⟨t, by rw [(List.cons.inj left).1]⟩
      · rw [quoting.other _ _ slash quote] at left
        exact ⟨t, by rw [(List.cons.inj left).1]⟩

/-- What such a reader leaves of a string up to its closing quote is what it was. -/
theorem of_body {w : List Char} (body : IsBody w) {t r : List Char} (left : string t = w ++ '"' :: r) :
    ∃ u, t = w ++ '"' :: u ∧ code u = r := by
  induction body generalizing t with
  | nil =>
    obtain ⟨u, rfl⟩ := quoting.head left
    exact ⟨u, rfl, by simpa [quoting.quote] using left⟩
  | plain quote slash _ ih =>
    obtain ⟨t, rfl⟩ := quoting.head left
    obtain ⟨u, rfl, rest⟩ := ih (by simpa [quoting.other _ _ slash quote] using left)
    exact ⟨u, rfl, rest⟩
  | escaped _ ih =>
    obtain ⟨t, rfl⟩ := quoting.head left
    cases t with
    | nil => simp [quoting.slash, quoting.escape_nil] at left
    | cons d t =>
      simp only [quoting.slash, quoting.escaped, List.cons_append, List.cons.injEq, true_and] at left
      obtain ⟨rfl, left⟩ := left
      obtain ⟨u, rfl, rest⟩ := ih left
      exact ⟨u, rfl, rest⟩

theorem isString {x : String} {w : List Char} (string : IsString x w) (t : List Char) :
    code (w ++ t) = w ++ code t := by
  obtain ⟨u, spelled, rfl⟩ := string
  simp [quoting.opened, quoting.body spelled.body, quoting.quote]

end Quoting

theorem quoting_comments :
    Quoting (stripComments .code) (stripComments .string) (stripComments .escape) where
  slash cs := rfl
  quote cs := rfl
  other c cs slash quote := by rw [stripComments] <;> simp [slash, quote]
  escaped c cs := rfl
  opened cs := rfl
  string_nil := rfl
  escape_nil := rfl

theorem quoting_commas : Quoting (stripCommas .code) (stripCommas .string) (stripCommas .escape) where
  slash cs := rfl
  quote cs := rfl
  other c cs slash quote := by rw [stripCommas] <;> simp [slash, quote]
  escaped c cs := rfl
  opened cs := rfl
  string_nil := rfl
  escape_nil := rfl

/-! ### Comments -/

/-- What the first characters of a text are to the reader that takes comments out. -/
inductive CommentStep : List Char → Prop
  | ends {b e : List Char} (blocks : AreBlocks b) (left : stripComments .code e = []) (ending : IsLooseEnding e) :
    CommentStep (b ++ e)
  | quote {b : List Char} (blocks : AreBlocks b) (u : List Char) : CommentStep (b ++ '"' :: u)
  | bare {b : List Char} (blocks : AreBlocks b) {c : Char} {u : List Char} (quote : c ≠ '"')
    (left : stripComments .code (c :: u) = c :: stripComments .code u) : CommentStep (b ++ c :: u)
  | line {b l : List Char} (blocks : AreBlocks b) (one : '\n' ∉ l) (u : List Char) :
    CommentStep (b ++ '/' :: '/' :: (l ++ '\n' :: u))

/-- Any text has no end of a comment in it, or a first one. -/
theorem first_close (t : List Char) : ¬['*', '/'] <:+: t ∨
    ∃ b u, ¬['*', '/'] <:+: b ∧ t = b ++ '*' :: '/' :: u := by
  induction t with
  | nil => simp
  | cons c t ih =>
    by_cases here : ['*', '/'] <+: c :: t
    · obtain ⟨u, same⟩ := here
      exact .inr ⟨[], u, by simp, same.symm⟩
    · obtain none | ⟨b, u, inside, rfl⟩ := ih
      · exact .inl fun infix' => (List.infix_cons_iff.mp infix').elim here none
      · refine .inr ⟨c :: b, u, fun infix' => ?_, rfl⟩
        obtain ⟨v, same⟩ | later := List.infix_cons_iff.mp infix'
        · exact here ⟨v ++ '*' :: '/' :: u, by rw [← List.append_assoc, same]; rfl⟩
        · exact inside later

theorem stripComments_block {b : List Char} (inside : ¬['*', '/'] <:+: b) (star : Bool)
    (front : star = true → b.head? ≠ some '/') (u : List Char) :
    stripComments (.block star) (b ++ '*' :: '/' :: u) = stripComments .code u ∧
      stripComments (.block star) b = [] := by
  induction b generalizing star with
  | nil => cases star <;> simp [stripComments]
  | cons c b ih =>
    have next : (c == '*') = true → b.head? ≠ some '/' := by
      rintro same first
      obtain rfl := beq_iff_eq.mp same
      obtain ⟨v, rfl⟩ := List.head?_eq_some_iff.mp first
      exact inside ⟨[], v, rfl⟩
    have later := ih (fun infix' => inside (infix'.trans (List.suffix_cons c b).isInfix)) _ next
    rw [List.cons_append, stripComments, stripComments]
    · exact later
    all_goals
      rintro rfl rfl
      exact front rfl rfl

theorem stripComments_line {l : List Char} (one : '\n' ∉ l) (u : List Char) :
    stripComments .line (l ++ '\n' :: u) = '\n' :: stripComments .code u ∧ stripComments .line l = [] := by
  induction l with
  | nil => simp [stripComments]
  | cons c l ih =>
    simp only [List.mem_cons, not_or] at one
    rw [List.cons_append, stripComments, stripComments]
    · exact ih one.2
    all_goals
      rintro rfl
      exact one.1 rfl

theorem stripComments_blocks {b : List Char} (blocks : AreBlocks b) (u : List Char) :
    stripComments .code (b ++ u) = stripComments .code u := by
  induction blocks with
  | nil => rfl
  | cons block _ ih =>
    obtain ⟨inside⟩ := block
    simpa [stripComments, (stripComments_block inside false (by simp) _).1] using ih

/-- A character that starts neither a string nor a comment stays. -/
theorem stripComments_bare {c : Char} (quote : c ≠ '"') (slash : c ≠ '/') (u : List Char) :
    stripComments .code (c :: u) = c :: stripComments .code u := by
  rw [stripComments] <;> simp [quote, slash]

theorem CommentStep.block {b t : List Char} (block : IsBlock b) (step : CommentStep t) : CommentStep (b ++ t) := by
  cases step with
  | ends blocks left ending => exact List.append_assoc b _ _ ▸ .ends (.cons block blocks) left ending
  | quote blocks u => exact List.append_assoc b _ _ ▸ .quote (.cons block blocks) u
  | bare blocks quote left => exact List.append_assoc b _ _ ▸ .bare (.cons block blocks) quote left
  | line blocks one u => exact List.append_assoc b _ _ ▸ .line (.cons block blocks) one u

theorem commentStep_slash (t : List Char) (ih : ∀ u : List Char, u.length < t.length → CommentStep u) :
    CommentStep ('/' :: t) := by
  cases t with
  | nil => exact .bare .nil (by decide) rfl
  | cons c t =>
    by_cases line : c = '/'
    · subst line
      by_cases member : '\n' ∈ t
      · obtain ⟨l, u, rfl, one⟩ := List.eq_append_cons_of_mem member
        exact .line .nil one u
      · exact .ends .nil (by simpa [stripComments] using (stripComments_line member []).2)
          (.ending (.line .nil member))
    · by_cases star : c = '*'
      · subst star
        obtain inside | ⟨b, u, inside, rfl⟩ := first_close t
        · exact .ends .nil (by simpa [stripComments] using (stripComments_block inside false (by simp) []).2)
            (.open .nil inside)
        · simpa using CommentStep.block (.closed inside) (ih u (by simp; omega))
      · exact .bare .nil (by decide) (by rw [stripComments] <;> simp [line, star])

theorem commentStep (t : List Char) : CommentStep t := by
  induction h : t.length using Nat.strongRecOn generalizing t with
  | ind n ih =>
    subst h
    cases t with
    | nil => exact .ends .nil rfl (.ending (.gap .nil))
    | cons c t =>
      by_cases quote : c = '"'
      · exact quote ▸ .quote .nil t
      · by_cases slash : c = '/'
        · subst slash
          exact commentStep_slash t fun u shorter => ih _ (Nat.lt_succ_of_lt shorter) u rfl
        · exact .bare .nil quote (stripComments_bare quote slash t)

/-- The first character that is left stood in the text behind comments, or it ended one. -/
inductive Left (c : Char) (r : List Char) : List Char → Prop
  | stays {b u : List Char} (blocks : AreBlocks b) (front : stripComments .code (c :: u) = c :: r)
    (rest : c ≠ '"' → stripComments .code u = r) : Left c r (b ++ c :: u)
  | line {b l u : List Char} (blocks : AreBlocks b) (one : '\n' ∉ l) (newline : c = '\n')
    (rest : stripComments .code u = r) : Left c r (b ++ '/' :: '/' :: (l ++ '\n' :: u))

theorem left_of_stripComments {t r : List Char} {c : Char} (left : stripComments .code t = c :: r) : Left c r t := by
  cases commentStep t with
  | ends blocks ends _ =>
    rw [stripComments_blocks blocks, ends] at left
    cases left
  | quote blocks u =>
    rw [stripComments_blocks blocks] at left
    obtain ⟨rfl, _⟩ := List.cons.inj left
    exact .stays blocks left fun quote => absurd rfl quote
  | bare blocks quote next =>
    rw [stripComments_blocks blocks, next] at left
    obtain ⟨rfl, rest⟩ := List.cons.inj left
    exact .stays blocks (next.trans left) fun _ => rest
  | line blocks one u =>
    rw [stripComments_blocks blocks, stripComments, (stripComments_line one u).1] at left
    obtain ⟨rfl, rest⟩ := List.cons.inj left
    exact .line blocks one rfl rest

theorem IsGap.append {g g' : List Char} (gap : IsGap g) (rest : IsGap g') : IsGap (g ++ g') := by
  induction gap with
  | nil => exact rest
  | blank blank _ ih => exact .blank blank ih
  | @line l g one _ ih => simpa using IsGap.line one ih
  | @block b g block _ ih => simpa using IsGap.block block ih

theorem AreBlanks.gap {g : List Char} (blanks : AreBlanks g) : IsGap g := by
  induction g with
  | nil => exact .nil
  | cons c g ih =>
    exact .blank (blanks c List.mem_cons_self) (ih fun d member => blanks d (List.mem_cons_of_mem c member))

theorem AreBlocks.gap {b : List Char} (blocks : AreBlocks b) : IsGap b := by
  induction blocks with
  | nil => exact .nil
  | cons block _ ih => exact .block block ih

theorem AreBlanks.cons {c : Char} {g : List Char} (blank : isBlank c) (rest : AreBlanks g) : AreBlanks (c :: g) := by
  rintro d (_ | ⟨_, member⟩)
  · exact blank
  · exact rest d member

theorem isBlank_ne {c d : Char} (blank : isBlank c) (bare : isBlank d = false) : c ≠ d := by
  rintro rfl
  rw [blank] at bare
  cases bare

/-- A gap leaves its blanks. -/
theorem stripComments_gap {g : List Char} (gap : IsGap g) :
    ∃ g', AreBlanks g' ∧ ∀ t, stripComments .code (g ++ t) = g' ++ stripComments .code t := by
  induction gap with
  | nil => exact ⟨[], by simp [AreBlanks], fun t => rfl⟩
  | @blank c g blank _ ih =>
    obtain ⟨g', blanks, left⟩ := ih
    refine ⟨c :: g', .cons blank blanks, fun t => ?_⟩
    rw [List.cons_append, stripComments_bare (isBlank_ne blank rfl) (isBlank_ne blank rfl), left, List.cons_append]
  | @line l g one _ ih =>
    obtain ⟨g', blanks, left⟩ := ih
    refine ⟨'\n' :: g', .cons rfl blanks, fun t => ?_⟩
    simpa [stripComments, left] using (stripComments_line one (g ++ t)).1
  | @block b g block _ ih =>
    obtain ⟨g', blanks, left⟩ := ih
    refine ⟨g', blanks, fun t => ?_⟩
    rw [List.append_assoc, ← left]
    simpa using stripComments_blocks (.cons block .nil) (g ++ t)

/-- Blanks in front of a character are left of a gap in front of it. -/
theorem gap_of_stripComments {g t r : List Char} {c : Char} (blanks : AreBlanks g) (bare : isBlank c = false)
    (left : stripComments .code t = g ++ c :: r) :
    ∃ g' u, IsGap g' ∧ t = g' ++ c :: u ∧ stripComments .code (c :: u) = c :: r := by
  induction g generalizing t with
  | nil =>
    cases left_of_stripComments left with
    | stays blocks front _ => exact ⟨_, _, blocks.gap, rfl, front⟩
    | line _ _ newline _ =>
      subst newline
      cases bare
  | cons d g ih =>
    have blank := blanks d List.mem_cons_self
    have inner : AreBlanks g := fun e member => blanks e (List.mem_cons_of_mem d member)
    cases left_of_stripComments left with
    | stays blocks _ rest =>
      obtain ⟨g', u, gap, rfl, front⟩ := ih inner (rest (isBlank_ne blank rfl))
      exact ⟨_, u, blocks.gap.append (.blank blank gap), by simp, front⟩
    | line blocks one _ rest =>
      obtain ⟨g', u, gap, rfl, front⟩ := ih inner rest
      exact ⟨_, u, blocks.gap.append (.line one gap), by simp, front⟩

theorem IsLooseEnding.append {g e : List Char} (gap : IsGap g) (rest : IsLooseEnding e) : IsLooseEnding (g ++ e) := by
  cases rest with
  | ending ending =>
    cases ending with
    | gap inner => exact .ending (.gap (gap.append inner))
    | line inner one =>
      rw [← List.append_assoc]
      exact .ending (.line (gap.append inner) one)
  | «open» inner inside =>
    rw [← List.append_assoc]
    exact .open (gap.append inner) inside

/-- Only blanks are left of an ending, and of no other text. -/
theorem areBlanks_stripComments {t : List Char} : AreBlanks (stripComments .code t) ↔ IsLooseEnding t := by
  constructor
  · intro blanks
    generalize left : stripComments .code t = g at blanks
    induction g generalizing t with
    | nil =>
      cases commentStep t with
      | ends blocks _ ending => exact ending.append blocks.gap
      | quote blocks u => simp [stripComments_blocks blocks, stripComments] at left
      | bare blocks _ next => simp [stripComments_blocks blocks, next] at left
      | line blocks one u => simp [stripComments_blocks blocks, stripComments, (stripComments_line one u).1] at left
    | cons c g ih =>
      have blank := blanks c List.mem_cons_self
      have inner : AreBlanks g := fun d member => blanks d (List.mem_cons_of_mem c member)
      cases left_of_stripComments left with
      | stays blocks _ rest =>
        have ending := (ih (rest (isBlank_ne blank rfl)) inner).append (blocks.gap.append (.blank blank .nil))
        simpa using ending
      | line blocks one _ rest =>
        have ending := (ih rest inner).append (blocks.gap.append (.line one .nil))
        simpa using ending
  · intro ending
    have left {g : List Char} (gap : IsGap g) {e : List Char} (none : stripComments .code e = []) :
        AreBlanks (stripComments .code (g ++ e)) := by
      obtain ⟨g', blanks, same⟩ := stripComments_gap gap
      rw [same, none, List.append_nil]
      exact blanks
    cases ending with
    | ending ending =>
      cases ending with
      | gap gap => simpa using left gap (e := []) rfl
      | line gap one => exact left gap (by simpa [stripComments] using (stripComments_line one []).2)
    | «open» gap inside =>
      exact left gap (by simpa [stripComments] using (stripComments_block inside false (by simp) []).2)

/-! ### Words -/

/-- The characters of words and numbers. -/
def IsWordChar (c : Char) : Prop := c.isAlphanum ∨ c = '+' ∨ c = '-' ∨ c = '.'

theorem AreDigits.chars {w : List Char} (digits : AreDigits w) : ∀ c ∈ w, IsWordChar c :=
  fun c member => .inl (by simp [Char.isAlphanum, digits.2 c member])

theorem IsMagnitude.chars {w : List Char} (shape : IsMagnitude w) : ∀ c ∈ w, IsWordChar c := by
  cases shape with
  | @parts whole fraction exponent digits point power =>
    intro c member
    rcases List.mem_append.mp member with member | member
    · exact digits.1.chars c member
    rcases List.mem_append.mp member with member | member
    · cases point with
      | none => cases member
      | point digits =>
        rcases List.mem_cons.mp member with rfl | member
        · exact .inr (.inr (.inr rfl))
        · exact digits.chars c member
    · cases power with
      | none => cases member
      | power letter signed digits =>
        rcases List.mem_cons.mp member with rfl | member
        · exact .inl (by rcases letter with rfl | rfl <;> rfl)
        rcases List.mem_append.mp member with member | member
        · rcases signed with rfl | rfl | rfl
          · cases member
          · exact .inr (.inl (List.mem_singleton.mp member))
          · exact .inr (.inr (.inl (List.mem_singleton.mp member)))
        · exact digits.chars c member

theorem IsWord.chars {v : Value} {w : List Char} (word : IsWord v w) : ∀ c ∈ w, IsWordChar c := by
  cases word with
  | number numeral =>
    cases numeral with
    | positive shape _ => exact shape.chars
    | negative shape _ =>
      intro c member
      rcases List.mem_cons.mp member with rfl | member
      · exact .inr (.inr (.inl rfl))
      · exact shape.chars c member
  | _ =>
    intro c member
    simp only [List.mem_cons, List.not_mem_nil, or_false] at member
    exact .inl (by rcases member with rfl | rfl | rfl | rfl | rfl <;> rfl)

theorem IsWordChar.ne {c d : Char} (known : IsWordChar c) (other : d.isAlphanum = false)
    (sign : d ≠ '+' ∧ d ≠ '-' ∧ d ≠ '.') : c ≠ d := by
  rintro rfl
  rcases known with known | rfl | rfl | rfl
  · rw [known] at other
    cases other
  · exact sign.1 rfl
  · exact sign.2.1 rfl
  · exact sign.2.2 rfl

theorem stripComments_spread {w w' : List Char} (spread : Spread w w') (chars : ∀ c ∈ w, IsWordChar c)
    (t : List Char) : stripComments .code (w' ++ t) = w ++ stripComments .code t := by
  have bare {c : Char} (known : IsWordChar c) (t : List Char) :
      stripComments .code (c :: t) = c :: stripComments .code t :=
    stripComments_bare (known.ne rfl (by decide)) (known.ne rfl (by decide)) t
  induction spread with
  | last c => exact bare (chars c List.mem_cons_self) t
  | cons c blocks _ ih =>
    rw [List.cons_append, bare (chars c List.mem_cons_self), List.append_assoc, stripComments_blocks blocks,
      ih fun d member => chars d (List.mem_cons_of_mem c member), List.cons_append]

/-- What a word is left of is the word with comments between its characters. -/
theorem spread_of_stripComments {w t r : List Char} (full : w ≠ []) (chars : ∀ c ∈ w, IsWordChar c)
    (left : stripComments .code t = w ++ r) :
    ∃ b w' u, AreBlocks b ∧ Spread w w' ∧ t = b ++ (w' ++ u) ∧ stripComments .code u = r := by
  induction w generalizing t with
  | nil => exact absurd rfl full
  | cons c w ih =>
    have known := chars c List.mem_cons_self
    cases left_of_stripComments left with
    | line _ _ newline _ => exact absurd newline (known.ne rfl (by decide))
    | @stays b u blocks _ rest =>
      have behind := rest (known.ne rfl (by decide))
      cases w with
      | nil => exact ⟨b, _, u, blocks, .last c, rfl, behind⟩
      | cons d w =>
        obtain ⟨b', w', u, blocks', spread, rfl, kept⟩ :=
          ih (by simp) (fun e member => chars e (List.mem_cons_of_mem c member)) behind
        exact ⟨b, _, u, blocks, .cons c blocks' spread, by simp, kept⟩

/-! ### From loose JSON to blanks -/

/-- What a reader leaves of a text starts in one way exactly where the text starts in another. -/
def Carries (f : List Char → List Char) (X X' : Front) : Prop := ∀ t r, X' (f t) r ↔ ∃ u, X t u ∧ f u = r

theorem Carries.comp {f : List Char → List Char} {X X' Y Y' : Front} (first : Carries f X X')
    (rest : Carries f Y Y') : Carries f (Comp X Y) (Comp X' Y') := by
  intro t r
  constructor
  · rintro ⟨m, front, back⟩
    obtain ⟨u, from_, rfl⟩ := (first t m).mp front
    obtain ⟨v, behind, rfl⟩ := (rest u r).mp back
    exact ⟨v, ⟨u, from_, behind⟩, rfl⟩
  · rintro ⟨v, ⟨u, front, back⟩, rfl⟩
    exact ⟨f u, (first t _).mpr ⟨u, front, rfl⟩, (rest u _).mpr ⟨v, back, rfl⟩⟩

/-- The marks of JSON. -/
def IsMark (c : Char) : Prop := c ∈ ['[', ']', '\x7b', '\x7d', ':', ',']

instance (c : Char) : Decidable (IsMark c) := inferInstanceAs (Decidable (c ∈ _))

theorem IsMark.open {c : Char} (mark : c ∈ ['[', '\x7b', ':']) : IsMark c := by
  simp only [List.mem_cons, List.not_mem_nil, or_false] at mark
  rcases mark with rfl | rfl | rfl <;> decide

theorem IsMark.close {c : Char} (mark : c = ']' ∨ c = '\x7d') : IsMark c := by
  rcases mark with rfl | rfl <;> decide

theorem IsMark.bare {c : Char} (mark : IsMark c) : isBlank c = false ∧ c ≠ '"' ∧ c ≠ '/' := by
  simp only [IsMark, List.mem_cons, List.not_mem_nil, or_false] at mark
  rcases mark with rfl | rfl | rfl | rfl | rfl | rfl <;> decide

theorem carries_mark_comments {c : Char} (mark : IsMark c) :
    Carries (stripComments .code) (Style.loose.mark c) (Style.spaced.mark c) := by
  obtain ⟨bare, quote, slash⟩ := mark.bare
  intro t r
  constructor
  · rintro ⟨g, blanks, left⟩
    obtain ⟨g', u, gap, rfl, front⟩ := gap_of_stripComments blanks bare left
    rw [stripComments_bare quote slash] at front
    exact ⟨u, ⟨g', gap, rfl⟩, (List.cons.inj front).2⟩
  · rintro ⟨u, ⟨g, gap, rfl⟩, rfl⟩
    obtain ⟨g', blanks, left⟩ := stripComments_gap gap
    exact ⟨g', blanks, by rw [left, stripComments_bare quote slash]⟩

theorem carries_quoted_comments (x : String) :
    Carries (stripComments .code) (Style.loose.quoted x) (Style.spaced.quoted x) := by
  intro t r
  constructor
  · rintro ⟨g, _, blanks, ⟨w, spelled, rfl⟩, left⟩
    obtain ⟨g', u, gap, rfl, front⟩ := gap_of_stripComments blanks rfl left
    obtain ⟨u, rfl, rest⟩ := quoting_comments.of_body (r := r) spelled.body (by simpa [stripComments] using front)
    exact ⟨u, ⟨g', _, gap, ⟨w, spelled, rfl⟩, by simp⟩, rest⟩
  · rintro ⟨u, ⟨g, w, gap, string, rfl⟩, rfl⟩
    obtain ⟨g', blanks, left⟩ := stripComments_gap gap
    exact ⟨g', w, blanks, string, by rw [left, quoting_comments.isString string]⟩

/-- In front of a word the blanks that are left end with a character that starts no string. -/
theorem carries_word_comments (v : Value) :
    Carries (stripComments .code) (Style.loose.word v) (Style.spaced.word v) := by
  intro t r
  constructor
  · rintro ⟨g, w, _, blanks, word, rfl, left⟩
    obtain ⟨c, cs, rfl, bare, _⟩ := word.head
    obtain ⟨g', u, gap, rfl, front⟩ := gap_of_stripComments blanks bare left
    obtain ⟨b, w', u', blocks, spread, same, rest⟩ := spread_of_stripComments (by simp) word.chars front
    exact ⟨u', ⟨g' ++ b, _, w', gap.append blocks.gap, word, spread, by simp [same]⟩, rest⟩
  · rintro ⟨u, ⟨g, w, w', gap, word, spread, rfl⟩, rfl⟩
    obtain ⟨g', blanks, left⟩ := stripComments_gap gap
    exact ⟨g', w, w, blanks, word, rfl, by rw [left, stripComments_spread spread word.chars]⟩

/-- Loose JSON is left with blanks only. -/
theorem carried_comments : Style.loose.Carried (Carries (stripComments .code)) Style.spaced where
  comp := Carries.comp
  mark c known := carries_mark_comments (.open known)
  close full c known := by
    have close := carries_mark_comments (.close known)
    have comma := (carries_mark_comments (c := ',') (by decide)).comp close
    intro t r
    simp only [Style.close, Style.loose, Style.spaced, true_and] at close comma ⊢
    constructor
    · rintro (front | front)
      · obtain ⟨u, front, rest⟩ := (close t r).mp front
        exact ⟨u, .inl front, rest⟩
      · obtain ⟨u, front, rest⟩ := (comma t r).mp front
        exact ⟨u, .inr front, rest⟩
    · rintro ⟨u, front | front, rest⟩
      · exact .inl ((close t r).mpr ⟨u, front, rest⟩)
      · exact .inr ((comma t r).mpr ⟨u, front, rest⟩)
  quoted := carries_quoted_comments
  word := carries_word_comments
  item v carried := (carries_mark_comments (by decide)).comp carried
  key x := (carries_mark_comments (by decide)).comp (carries_quoted_comments x)

/-! ### Commas -/

theorem isSpace_of_isBlank {c : Char} (blank : isBlank c) : Text.isSpace c = true := by
  simp only [isBlank, Bool.or_eq_true, beq_iff_eq] at blank
  rcases blank with ((rfl | rfl) | rfl) | rfl <;> decide

theorem IsWordChar.isSpace {c : Char} (known : IsWordChar c) : Text.isSpace c = false := by
  rcases known with known | rfl | rfl | rfl
  · unfold Char.isAlphanum Char.isAlpha Char.isUpper Char.isLower Char.isDigit at known
    simp only [Bool.or_eq_true, Bool.and_eq_true, decide_eq_true_eq, ge_iff_le, UInt32.le_iff_toNat_le] at known
    have code : c.toNat = c.val.toNat := rfl
    simp only [Text.isSpace, code]
    simp at known ⊢
    omega
  all_goals decide

theorem closesList_space {c : Char} (space : Text.isSpace c = true) (t : List Char) :
    closesList (c :: t) = closesList t := by
  simp [closesList, space]

theorem closesList_other {c : Char} (other : Text.isSpace c = false) (t : List Char) :
    closesList (c :: t) = (c == '\x7d' || c == ']') := by
  simp [closesList, other]

theorem closesList_blanks {g : List Char} (blanks : AreBlanks g) (t : List Char) :
    closesList (g ++ t) = closesList t := by
  induction g with
  | nil => rfl
  | cons c g ih =>
    rw [List.cons_append, closesList_space (isSpace_of_isBlank (blanks c List.mem_cons_self)),
      ih fun d member => blanks d (List.mem_cons_of_mem c member)]

theorem stripCommas_comma (t : List Char) :
    stripCommas .code (',' :: t) = if closesList t then stripCommas .code t else ',' :: stripCommas .code t := rfl

/-- A character that is no comma and starts no string stays. -/
theorem stripCommas_bare {c : Char} (quote : c ≠ '"') (comma : c ≠ ',') (t : List Char) :
    stripCommas .code (c :: t) = c :: stripCommas .code t := by
  rw [stripCommas] <;> simp [quote, comma]

theorem stripCommas_blanks {g : List Char} (blanks : AreBlanks g) (t : List Char) :
    stripCommas .code (g ++ t) = g ++ stripCommas .code t := by
  induction g with
  | nil => rfl
  | cons c g ih =>
    have blank := blanks c List.mem_cons_self
    rw [List.cons_append, stripCommas_bare (isBlank_ne blank rfl) (isBlank_ne blank rfl),
      ih fun d member => blanks d (List.mem_cons_of_mem c member), List.cons_append]

/-- The bracket that closes a list stays in front. -/
theorem closesList_stripCommas {t : List Char} (closes : closesList t = true) :
    closesList (stripCommas .code t) = true := by
  induction t with
  | nil => exact closes
  | cons c t ih =>
    by_cases space : Text.isSpace c = true
    · have apart {d : Char} (other : Text.isSpace d = false) : c ≠ d := by
        rintro rfl
        rw [space] at other
        cases other
      rw [closesList_space space] at closes
      rw [stripCommas_bare (apart (by decide)) (apart (by decide)), closesList_space space, ih closes]
    · have bracket := closes
      rw [closesList_other (by simpa using space)] at bracket
      have known : c = '\x7d' ∨ c = ']' := by simpa using bracket
      rw [stripCommas_bare (by rcases known with rfl | rfl <;> decide) (by rcases known with rfl | rfl <;> decide),
        closesList_other (by simpa using space), bracket]

/-- The first character that is left is the first of the text, or it stands behind a comma that closes a list. -/
theorem left_of_stripCommas {t r : List Char} {c : Char} (left : stripCommas .code t = c :: r) :
    (∃ u, t = c :: u ∧ (c ≠ '"' → stripCommas .code u = r) ∧ (c = ',' → closesList u = false)) ∨
      ∃ u, t = ',' :: u ∧ closesList u = true ∧ stripCommas .code u = c :: r := by
  cases t with
  | nil => cases left
  | cons d t =>
    by_cases quote : d = '"'
    · subst quote
      obtain ⟨rfl, _⟩ := List.cons.inj left
      exact .inl ⟨t, rfl, by simp, fun same => absurd same (by decide)⟩
    · by_cases comma : d = ','
      · subst comma
        rw [stripCommas_comma] at left
        split at left
        · rename_i closes
          exact .inr ⟨t, rfl, closes, left⟩
        · rename_i stays
          obtain ⟨rfl, rest⟩ := List.cons.inj left
          exact .inl ⟨t, rfl, fun _ => rest, fun _ => by simpa using stays⟩
      · rw [stripCommas_bare quote comma] at left
        obtain ⟨rfl, rest⟩ := List.cons.inj left
        exact .inl ⟨t, rfl, fun _ => rest, fun same => absurd same comma⟩

/-- Where no list is closed nothing was taken out in front. -/
theorem front_of_stripCommas {t r : List Char} {c : Char} (apart : closesList (c :: r) = false)
    (left : stripCommas .code t = c :: r) :
    ∃ u, t = c :: u ∧ (c ≠ '"' → stripCommas .code u = r) ∧ (c = ',' → closesList u = false) := by
  obtain front | ⟨u, _, closes, rest⟩ := left_of_stripCommas left
  · exact front
  · have := closesList_stripCommas closes
    rw [rest, apart] at this
    cases this

theorem blanks_of_stripCommas {g t r : List Char} (blanks : AreBlanks g) (apart : closesList r = false)
    (left : stripCommas .code t = g ++ r) : ∃ u, t = g ++ u ∧ stripCommas .code u = r := by
  induction g generalizing t with
  | nil => exact ⟨t, rfl, left⟩
  | cons c g ih =>
    have inner : AreBlanks g := fun d member => blanks d (List.mem_cons_of_mem c member)
    have blank := blanks c List.mem_cons_self
    obtain ⟨u, rfl, rest, _⟩ := front_of_stripCommas (by
      rw [closesList_space (isSpace_of_isBlank blank), ← apart]
      exact closesList_blanks inner r) left
    obtain ⟨v, rfl, behind⟩ := ih inner (rest (isBlank_ne blank rfl))
    exact ⟨v, rfl, behind⟩

theorem IsWordChar.closesList {c : Char} (known : IsWordChar c) (t : List Char) : closesList (c :: t) = false := by
  rw [closesList_other known.isSpace]
  simp [known.ne (d := '\x7d') rfl (by decide), known.ne (d := ']') rfl (by decide)]

theorem word_of_stripCommas {w t r : List Char} (chars : ∀ c ∈ w, IsWordChar c)
    (left : stripCommas .code t = w ++ r) : ∃ u, t = w ++ u ∧ stripCommas .code u = r := by
  induction w generalizing t with
  | nil => exact ⟨t, rfl, left⟩
  | cons c w ih =>
    have known := chars c List.mem_cons_self
    obtain ⟨u, rfl, rest, _⟩ := front_of_stripCommas (known.closesList _) left
    obtain ⟨v, rfl, behind⟩ :=
      ih (fun d member => chars d (List.mem_cons_of_mem c member)) (rest (known.ne rfl (by decide)))
    exact ⟨v, rfl, behind⟩

theorem stripCommas_word {w : List Char} (chars : ∀ c ∈ w, IsWordChar c) (t : List Char) :
    stripCommas .code (w ++ t) = w ++ stripCommas .code t := by
  induction w with
  | nil => rfl
  | cons c w ih =>
    have known := chars c List.mem_cons_self
    rw [List.cons_append, stripCommas_bare (known.ne rfl (by decide)) (known.ne rfl (by decide)),
      ih fun d member => chars d (List.mem_cons_of_mem c member), List.cons_append]

/-- In a text that goes on with the end of a list, what is left up to the bracket is what it was. -/
theorem closing_of_stripCommas {g t r : List Char} {c : Char} (blanks : AreBlanks g) (bracket : c = ']' ∨ c = '\x7d')
    (closes : closesList t = true) (left : stripCommas .code t = g ++ c :: r) :
    ∃ u, t = g ++ c :: u ∧ stripCommas .code u = r := by
  induction g generalizing t with
  | nil =>
    obtain ⟨u, rfl, rest, _⟩ | ⟨u, rfl, _, _⟩ := left_of_stripCommas left
    · exact ⟨u, rfl, rest (by rcases bracket with rfl | rfl <;> decide)⟩
    · rw [closesList_other rfl] at closes
      cases closes
  | cons d g ih =>
    have inner : AreBlanks g := fun e member => blanks e (List.mem_cons_of_mem d member)
    have blank := blanks d List.mem_cons_self
    obtain ⟨u, rfl, rest, _⟩ | ⟨u, rfl, _, _⟩ := left_of_stripCommas left
    · rw [closesList_space (isSpace_of_isBlank blank)] at closes
      obtain ⟨v, rfl, behind⟩ := ih inner closes (rest (isBlank_ne blank rfl))
      exact ⟨v, rfl, behind⟩
    · rw [closesList_other rfl] at closes
      cases closes

/-! ### From blanks to plain JSON -/

theorem carries_mark_commas {c : Char} (mark : c ∈ ['[', '\x7b', ':']) :
    Carries (stripCommas .code) (Style.spaced.mark c) (Style.plain.mark c) := by
  have bare : c ≠ '"' ∧ c ≠ ',' ∧ ∀ t, closesList (c :: t) = false := by
    simp only [List.mem_cons, List.not_mem_nil, or_false] at mark
    rcases mark with rfl | rfl | rfl <;> exact ⟨by decide, by decide, fun t => closesList_other rfl t⟩
  obtain ⟨quote, comma, apart⟩ := bare
  intro t r
  constructor
  · rintro ⟨g, blanks, left⟩
    obtain ⟨u, rfl, kept⟩ := blanks_of_stripCommas blanks (apart r) left
    obtain ⟨u, rfl, rest, _⟩ := front_of_stripCommas (apart r) kept
    exact ⟨u, ⟨g, blanks, rfl⟩, rest quote⟩
  · rintro ⟨u, ⟨g, blanks, rfl⟩, rfl⟩
    exact ⟨g, blanks, by rw [stripCommas_blanks blanks, stripCommas_bare quote comma]⟩

theorem spaced_close_cons {full : Bool} {c d : Char} {t r : List Char} (blank : isBlank d)
    (close : Style.spaced.close full c t r) : Style.spaced.close full c (d :: t) r := by
  obtain ⟨g, blanks, rfl⟩ | ⟨comma, u, ⟨g, blanks, rfl⟩, close⟩ := close
  · exact .inl ⟨d :: g, .cons blank blanks, rfl⟩
  · exact .inr ⟨comma, u, ⟨d :: g, .cons blank blanks, rfl⟩, close⟩

/-- Blanks and a bracket are left of the end of a list, which may have had a comma. -/
theorem carries_close_commas (full : Bool) {c : Char} (bracket : c = ']' ∨ c = '\x7d') :
    Carries (stripCommas .code) (Style.spaced.close full c) (Style.plain.close full c) := by
  have quote : c ≠ '"' := by rcases bracket with rfl | rfl <;> decide
  have comma : c ≠ ',' := by rcases bracket with rfl | rfl <;> decide
  have closes (t : List Char) : closesList (c :: t) = true := by
    rcases bracket with rfl | rfl <;> exact closesList_other rfl t
  intro t r
  simp only [Style.close, Style.plain, false_and, or_false]
  constructor
  · rintro ⟨g, blanks, left⟩
    induction g generalizing t with
    | nil =>
      obtain ⟨u, rfl, rest, _⟩ | ⟨u, rfl, closing, left⟩ := left_of_stripCommas left
      · exact ⟨u, .inl ⟨[], by simp [Style.spaced, AreBlanks], rfl⟩, rest quote⟩
      · obtain ⟨v, rfl, rest⟩ := closing_of_stripCommas (g := []) blanks bracket closing left
        exact ⟨v, .inr ⟨trivial, _, ⟨[], by simp [Style.spaced, AreBlanks], rfl⟩, [], blanks, rfl⟩, rest⟩
    | cons d g ih =>
      have inner : AreBlanks g := fun e member => blanks e (List.mem_cons_of_mem d member)
      have blank := blanks d List.mem_cons_self
      obtain ⟨u, rfl, rest, _⟩ | ⟨u, rfl, closing, left⟩ := left_of_stripCommas left
      · obtain ⟨v, close, behind⟩ := ih u inner (rest (isBlank_ne blank rfl))
        exact ⟨v, spaced_close_cons blank close, behind⟩
      · obtain ⟨v, rfl, rest⟩ := closing_of_stripCommas blanks bracket closing left
        exact ⟨v, .inr ⟨trivial, _, ⟨[], by simp [Style.spaced, AreBlanks], rfl⟩, d :: g, blanks, rfl⟩, rest⟩
  · rintro ⟨u, ⟨g, blanks, rfl⟩ | ⟨-, _, ⟨g, blanks, rfl⟩, g', blanks', rfl⟩, rfl⟩
    · exact ⟨g, blanks, by rw [stripCommas_blanks blanks, stripCommas_bare quote comma]⟩
    · refine ⟨g ++ g', fun d member => (List.mem_append.mp member).elim (blanks d) (blanks' d), ?_⟩
      rw [stripCommas_blanks blanks, stripCommas_comma, closesList_blanks blanks', closes, if_pos rfl,
        stripCommas_blanks blanks', stripCommas_bare quote comma, List.append_assoc]

theorem carries_quoted_commas (x : String) :
    Carries (stripCommas .code) (Style.spaced.quoted x) (Style.plain.quoted x) := by
  intro t r
  constructor
  · rintro ⟨g, _, blanks, ⟨w, spelled, rfl⟩, left⟩
    obtain ⟨u, rfl, kept⟩ := blanks_of_stripCommas blanks (closesList_other rfl _) left
    obtain ⟨u, rfl, _⟩ := front_of_stripCommas (closesList_other rfl _) kept
    obtain ⟨u, rfl, rest⟩ := quoting_commas.of_body (r := r) spelled.body (by simpa [stripCommas] using kept)
    exact ⟨u, ⟨g, _, blanks, ⟨w, spelled, rfl⟩, by simp⟩, rest⟩
  · rintro ⟨u, ⟨g, w, blanks, string, rfl⟩, rfl⟩
    exact ⟨g, w, blanks, string, by rw [stripCommas_blanks blanks, quoting_commas.isString string]⟩

theorem carries_word_commas (v : Value) : Carries (stripCommas .code) (Style.spaced.word v) (Style.plain.word v) := by
  intro t r
  constructor
  · rintro ⟨g, w, _, blanks, word, rfl, left⟩
    obtain ⟨c, cs, rfl, _⟩ := word.head
    obtain ⟨u, rfl, kept⟩ := blanks_of_stripCommas blanks ((word.chars c List.mem_cons_self).closesList _) left
    obtain ⟨u, rfl, rest⟩ := word_of_stripCommas word.chars kept
    exact ⟨u, ⟨g, _, _, blanks, word, rfl, rfl⟩, rest⟩
  · rintro ⟨u, ⟨g, w, _, blanks, word, rfl, rfl⟩, rfl⟩
    exact ⟨g, w, w, blanks, word, rfl, by rw [stripCommas_blanks blanks, stripCommas_word word.chars]⟩

/-- No list is closed where a string or a value starts. -/
theorem closesList_quoted {x : String} {t r : List Char} (front : Style.spaced.quoted x t r) :
    closesList t = false := by
  obtain ⟨g, _, blanks, ⟨w, _, rfl⟩, rfl⟩ := front
  exact (closesList_blanks blanks _).trans (closesList_other rfl _)

theorem closesList_starts {v : Value} {t r : List Char} (front : v.Starts .spaced t r) : closesList t = false := by
  have marked {c : Char} {t r : List Char} (front : Style.spaced.mark c t r) (other : c = '[' ∨ c = '\x7b') :
      closesList t = false := by
    obtain ⟨g, blanks, rfl⟩ := front
    rw [closesList_blanks blanks]
    rcases other with rfl | rfl <;> exact closesList_other rfl _
  have worded {v : Value} {t r : List Char} (front : Style.spaced.word v t r) : closesList t = false := by
    obtain ⟨g, w, _, blanks, word, rfl, rfl⟩ := front
    obtain ⟨c, cs, rfl, _⟩ := word.head
    exact (closesList_blanks blanks _).trans ((word.chars c List.mem_cons_self).closesList _)
  match v with
  | .null | .bool _ | .number _ => exact worded front
  | .string x => exact closesList_quoted front
  | .array [] | .array (_ :: _) =>
    obtain ⟨_, mark, _⟩ := front
    exact marked mark (.inl rfl)
  | .object [] =>
    obtain ⟨_, mark, _⟩ := front
    exact marked mark (.inr rfl)
  | .object ((_, _) :: _) =>
    obtain ⟨_, ⟨_, mark, _⟩, _⟩ := front
    exact marked mark (.inr rfl)

/-- A comma in front of what goes on with the list stays. -/
theorem carries_comma {X X' : Front} (carried : Carries (stripCommas .code) X X')
    (apart : ∀ t r, X t r → closesList t = false) :
    Carries (stripCommas .code) (Comp (Style.spaced.mark ',') X) (Comp (Style.plain.mark ',') X') := by
  intro t r
  constructor
  · rintro ⟨m, ⟨g, blanks, left⟩, back⟩
    obtain ⟨u, rfl, kept⟩ := blanks_of_stripCommas blanks (closesList_other rfl _) left
    obtain ⟨u, rfl, rest, _⟩ := front_of_stripCommas (closesList_other rfl _) kept
    obtain rfl := rest (by decide)
    obtain ⟨v, back, behind⟩ := (carried u r).mp back
    exact ⟨v, ⟨u, ⟨g, blanks, rfl⟩, back⟩, behind⟩
  · rintro ⟨v, ⟨u, ⟨g, blanks, rfl⟩, back⟩, rfl⟩
    refine ⟨stripCommas .code u, ⟨g, blanks, ?_⟩, (carried u _).mpr ⟨v, back, rfl⟩⟩
    rw [stripCommas_blanks blanks, stripCommas_comma, apart u v back]
    rfl

/-- JSON with blanks and commas is left as plain JSON. -/
theorem carried_commas : Style.spaced.Carried (Carries (stripCommas .code)) Style.plain where
  comp := Carries.comp
  mark _ known := carries_mark_commas known
  close full _ known := carries_close_commas full known
  quoted := carries_quoted_commas
  word := carries_word_commas
  item _ carried := carries_comma carried fun _ _ => closesList_starts
  key x := carries_comma (carries_quoted_commas x) fun _ _ => closesList_quoted

theorem stripCommas_eq_nil {t : List Char} (left : stripCommas .code t = []) : t = [] := by
  cases t with
  | nil => rfl
  | cons c t =>
    by_cases comma : c = ','
    · subst comma
      rw [stripCommas_comma] at left
      split at left
      · rename_i closes
        have := closesList_stripCommas closes
        rw [left] at this
        cases this
      · cases left
    · by_cases quote : c = '"'
      · subst quote
        cases left
      · rw [stripCommas_bare quote comma] at left
        cases left

theorem areBlanks_stripCommas {t : List Char} : AreBlanks (stripCommas .code t) ↔ AreBlanks t := by
  constructor
  · intro blanks
    obtain ⟨u, same, rest⟩ := blanks_of_stripCommas (r := []) blanks rfl (List.append_nil _).symm
    rw [same, stripCommas_eq_nil rest, List.append_nil]
    exact blanks
  · intro blanks
    have same := stripCommas_blanks blanks []
    rw [List.append_nil] at same
    rw [same]
    simpa [stripCommas] using blanks

/-- Exactly the loose texts are left as plain JSON when comments and commas are taken out. -/
theorem document_stripped {v : Value} {t : List Char} : Document .plain v (stripped t) ↔ Document .loose v t := by
  constructor
  · rintro ⟨r, starts, blanks⟩
    obtain ⟨u, spaced, rfl⟩ := (carried_commas.starts v _ r).mp starts
    obtain ⟨w, loose, rfl⟩ := (carried_comments.starts v t u).mp spaced
    exact ⟨w, loose, areBlanks_stripComments.mp (areBlanks_stripCommas.mp blanks)⟩
  · rintro ⟨w, loose, ending⟩
    have spaced := (carried_comments.starts v t _).mpr ⟨w, loose, rfl⟩
    exact ⟨_, (carried_commas.starts v _ _).mpr ⟨_, spaced, rfl⟩,
      areBlanks_stripCommas.mpr (areBlanks_stripComments.mpr ending)⟩

end SourceRepair.Json
