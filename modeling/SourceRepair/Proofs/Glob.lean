import Mathlib.Data.List.Chain
import SourceRepair.Config
import SourceRepair.Proofs.Filter

/-!
# What a pattern matches

A wildcard takes one character after another until the rest of the pattern matches, and gives up early when the
text is too short for that rest. For every pattern that can be read this finds a match exactly where there is one:
two stars stand behind a slash or at the start, so what is too short behind one directory is too short behind the
next. From this follows what the two shapes of patterns mean that keep directories away and choose files by their
ending.
-/

namespace SourceRepair

namespace Glob

/-- What is left of a text behind some characters. -/
def Behind (cs back : List Char) : Prop := ∃ front, cs = front ++ back

/-- What is left of a text behind a slash, or behind all of it. -/
def BehindSlash (cs back : List Char) : Prop := back = [] ∨ ∃ front, cs = front ++ '/' :: back

/-- What is left of a text behind whole directories, or behind all of it. -/
def BehindDirectories (cs back : List Char) : Prop := back = cs ∨ BehindSlash cs back

/-- What the tokens of a pattern stand for. -/
inductive Matches : List GlobToken → List Char → Prop
  | nil : Matches [] []
  | one {t : GlobToken} {c : Char} {ts cs} (accepted : accepts c t = true) (rest : Matches ts cs) :
      Matches (t :: ts) (c :: cs)
  | sequence {ts front back} (name : '/' ∉ front) (rest : Matches ts back) :
      Matches (.sequence :: ts) (front ++ back)
  | directories {ts cs back} (behind : BehindDirectories cs back) (rest : Matches ts back) :
      Matches (.directories :: ts) cs

variable {ts done : List GlobToken} {t : GlobToken} {c : Char} {cs front back word : List Char}
  {rest : List Char → Verdict} {meant : List Char → Prop} {reached : List Char → List Char → Prop}

/-! ### Giving up early -/

/-- A wildcard tries the rest of the pattern here, and then goes on. -/
def attempt (whole : Bool) (rest : List Char → Verdict) (cs : List Char) : Verdict :=
  match rest cs with
  | .differs => extend whole rest cs
  | verdict => verdict

/-- The rest of a pattern matches what is meant, and gives up only where nothing that is meant can be reached. -/
structure Exact (reached : List Char → List Char → Prop) (meant : List Char → Prop) (rest : List Char → Verdict) :
    Prop where
  matched (cs : List Char) : rest cs = .matched ↔ meant cs
  exhausted (cs back : List Char) : rest cs = .exhausted → reached cs back → ¬ meant back

theorem Exact.not_meant (exact : Exact reached meant rest) (differs : rest cs = .differs) : ¬ meant cs := by
  intro found
  rw [(exact.matched cs).mpr found] at differs
  cases differs

theorem Exact.mono {fewer : List Char → List Char → Prop} (exact : Exact reached meant rest)
    (less : ∀ cs back, fewer cs back → reached cs back) : Exact fewer meant rest :=
  ⟨exact.matched, fun cs back verdict there => exact.exhausted cs back verdict (less cs back there)⟩

theorem attempt_differs {whole : Bool} (differs : rest cs = .differs) :
    attempt whole rest cs = extend whole rest cs := by
  rw [attempt, differs]

theorem attempt_other {whole : Bool} (other : rest cs ≠ .differs) : attempt whole rest cs = rest cs := by
  unfold attempt
  split
  · contradiction
  · rfl

theorem attempt_nil (whole : Bool) (rest : List Char → Verdict) : attempt whole rest [] = rest [] := by
  by_cases differs : rest [] = .differs
  · rw [attempt_differs differs, extend]
  · exact attempt_other differs

theorem extend_name (rest : List Char → Verdict) (c : Char) (cs : List Char) :
    extend false rest (c :: cs) = if c = '/' then .differs else attempt false rest cs := by
  by_cases slash : c = '/'
  · simp [extend, slash]
  · cases verdict : rest cs <;> simp [extend, attempt, slash, verdict]

theorem extend_directories (rest : List Char → Verdict) (c : Char) (cs : List Char) :
    extend true rest (c :: cs) = if c = '/' then attempt true rest cs else extend true rest cs := by
  by_cases slash : c = '/'
  · cases verdict : rest cs <;> simp [extend, attempt, slash, verdict]
  · simp [extend, slash]

/-! ### One star -/

/-- A text without a slash and then something that is meant. -/
def BehindName (meant : List Char → Prop) (cs : List Char) : Prop :=
  ∃ front back, cs = front ++ back ∧ '/' ∉ front ∧ meant back

theorem behindName_nil : BehindName meant [] ↔ meant [] := by
  constructor
  · rintro ⟨front, back, whole, -, found⟩
    obtain ⟨rfl, rfl⟩ := List.nil_eq_append_iff.mp whole
    exact found
  · exact fun found => ⟨[], [], rfl, List.not_mem_nil, found⟩

theorem behindName_cons : BehindName meant (c :: cs) ↔ meant (c :: cs) ∨ c ≠ '/' ∧ BehindName meant cs := by
  constructor
  · rintro ⟨_ | ⟨d, front⟩, back, whole, plain, found⟩
    · rw [List.nil_append] at whole
      exact .inl (whole ▸ found)
    · obtain ⟨rfl, rfl⟩ := List.cons.inj whole
      rw [List.mem_cons, not_or] at plain
      exact .inr ⟨Ne.symm plain.1, front, back, rfl, plain.2, found⟩
  · rintro (found | ⟨other, front, back, rfl, plain, found⟩)
    · exact ⟨[], c :: cs, rfl, List.not_mem_nil, found⟩
    · exact ⟨c :: front, back, rfl, List.not_mem_cons_of_ne_of_not_mem (Ne.symm other) plain, found⟩

theorem BehindName.behind (found : BehindName meant cs) : ∃ back, Behind cs back ∧ meant back := by
  obtain ⟨front, back, whole, -, found⟩ := found
  exact ⟨back, ⟨front, whole⟩, found⟩

theorem Behind.trans {back' : List Char} (first : Behind cs back) (second : Behind back back') : Behind cs back' := by
  obtain ⟨front, rfl⟩ := first
  obtain ⟨front', rfl⟩ := second
  exact ⟨front ++ front', by simp⟩

/-- One star goes on until the rest matches, as long as no slash comes. -/
theorem exact_sequence (exact : Exact Behind meant rest) : Exact Behind (BehindName meant) (attempt false rest) := by
  have nowhere : ∀ {cs}, rest cs = .exhausted → ∀ back, Behind cs back → ¬ BehindName meant back := by
    intro cs verdict back behind found
    obtain ⟨back', behind', found⟩ := found.behind
    exact exact.exhausted cs back' verdict (behind.trans behind') found
  refine ⟨fun cs => ?_, fun cs => ?_⟩
  · induction cs with
    | nil => rw [attempt_nil, behindName_nil, exact.matched]
    | cons c cs ih =>
      by_cases differs : rest (c :: cs) = .differs
      · rw [attempt_differs differs, extend_name, behindName_cons, or_iff_right (exact.not_meant differs)]
        by_cases slash : c = '/'
        · simp [slash]
        · simpa [slash] using ih
      · rw [attempt_other differs]
        cases verdict : rest (c :: cs) with
        | matched => exact iff_of_true rfl (behindName_cons.mpr (.inl ((exact.matched _).mp verdict)))
        | differs => exact absurd verdict differs
        | exhausted => exact iff_of_false nofun (nowhere verdict _ ⟨[], rfl⟩)
  · induction cs with
    | nil =>
      rw [attempt_nil]
      exact fun back verdict => nowhere verdict back
    | cons c cs ih =>
      intro back verdict
      by_cases differs : rest (c :: cs) = .differs
      · rw [attempt_differs differs, extend_name] at verdict
        by_cases slash : c = '/'
        · simp [slash] at verdict
        · rw [if_neg slash] at verdict
          rintro ⟨_ | ⟨d, front⟩, whole⟩ found
          · rw [List.nil_append] at whole
            subst whole
            rcases behindName_cons.mp found with here | ⟨-, found⟩
            · exact exact.not_meant differs here
            · exact ih cs verdict ⟨[], rfl⟩ found
          · obtain ⟨rfl, rfl⟩ := List.cons.inj whole
            exact ih back verdict ⟨front, rfl⟩ found
      · rw [attempt_other differs] at verdict
        exact nowhere verdict back

/-! ### Two stars -/

theorem behindSlash_nil : BehindSlash [] back ↔ back = [] := by
  simp [BehindSlash]

theorem behindSlash_cons : BehindSlash (c :: cs) back ↔ BehindSlash cs back ∨ c = '/' ∧ back = cs := by
  constructor
  · rintro (rfl | ⟨_ | ⟨d, front⟩, whole⟩)
    · exact .inl (.inl rfl)
    · obtain ⟨rfl, rfl⟩ := List.cons.inj whole
      exact .inr ⟨rfl, rfl⟩
    · obtain ⟨rfl, rfl⟩ := List.cons.inj whole
      exact .inl (.inr ⟨front, rfl⟩)
  · rintro ((rfl | ⟨front, rfl⟩) | ⟨rfl, rfl⟩)
    · exact .inl rfl
    · exact .inr ⟨c :: front, rfl⟩
    · exact .inr ⟨[], rfl⟩

theorem BehindDirectories.trans {back' : List Char} (first : BehindDirectories cs back)
    (second : BehindDirectories back back') : BehindDirectories cs back' := by
  rcases first with rfl | rfl | ⟨front, rfl⟩
  · exact second
  · rcases second with rfl | second
    · exact .inr (.inl rfl)
    · exact .inr (.inl (behindSlash_nil.mp second))
  · rcases second with rfl | rfl | ⟨front', rfl⟩
    · exact .inr (.inr ⟨front, rfl⟩)
    · exact .inr (.inl rfl)
    · exact .inr (.inr ⟨front ++ '/' :: front', by simp⟩)

theorem BehindDirectories.behind (first : BehindDirectories cs back) : Behind cs back := by
  rcases first with rfl | rfl | ⟨front, rfl⟩
  · exact ⟨[], rfl⟩
  · exact ⟨cs, (List.append_nil cs).symm⟩
  · exact ⟨front ++ ['/'], by simp⟩

theorem exact_attempt (exact : Exact BehindDirectories meant rest)
    (later : (extend true rest cs = .matched ↔ ∃ back, BehindSlash cs back ∧ meant back) ∧
      (extend true rest cs = .exhausted → ∀ back, BehindSlash cs back → ¬ meant back)) :
    (attempt true rest cs = .matched ↔ ∃ back, BehindDirectories cs back ∧ meant back) ∧
      (attempt true rest cs = .exhausted → ∀ back, BehindDirectories cs back → ¬ meant back) := by
  by_cases differs : rest cs = .differs
  · have none := exact.not_meant differs
    rw [attempt_differs differs]
    refine ⟨later.1.trans ⟨fun ⟨back, behind, found⟩ => ⟨back, .inr behind, found⟩, ?_⟩, fun verdict back => ?_⟩
    · rintro ⟨back, rfl | behind, found⟩
      · exact absurd found none
      · exact ⟨back, behind, found⟩
    · rintro (rfl | behind)
      · exact none
      · exact later.2 verdict back behind
  · rw [attempt_other differs]
    cases verdict : rest cs with
    | matched => exact ⟨iff_of_true rfl ⟨cs, .inl rfl, (exact.matched cs).mp verdict⟩, nofun⟩
    | differs => exact absurd verdict differs
    | exhausted =>
      have nowhere := fun back => exact.exhausted cs back verdict
      exact ⟨iff_of_false nofun fun ⟨back, behind, found⟩ => nowhere back behind found, fun _ => nowhere⟩

/-- Two stars go on behind each slash, and at the end of the text. -/
theorem exact_extend (exact : Exact BehindDirectories meant rest) (cs : List Char) :
    (extend true rest cs = .matched ↔ ∃ back, BehindSlash cs back ∧ meant back) ∧
      (extend true rest cs = .exhausted → ∀ back, BehindSlash cs back → ¬ meant back) := by
  induction cs with
  | nil =>
    simp only [extend, behindSlash_nil, exists_eq_left, forall_eq]
    exact ⟨exact.matched [], fun verdict => exact.exhausted [] [] verdict (.inl rfl)⟩
  | cons c cs ih =>
    rw [extend_directories]
    simp only [behindSlash_cons]
    by_cases slash : c = '/'
    · have either : ∀ back, BehindSlash cs back ∨ c = '/' ∧ back = cs ↔ BehindDirectories cs back := fun back =>
        ⟨fun behind => behind.symm.imp_left And.right, fun behind => (behind.imp_left (⟨slash, ·⟩)).symm⟩
      simp only [either, if_pos slash]
      exact exact_attempt exact ih
    · simpa [slash] using ih

theorem exact_directories (exact : Exact BehindDirectories meant rest) :
    Exact BehindDirectories (fun cs => ∃ back, BehindDirectories cs back ∧ meant back) (attempt true rest) := by
  refine ⟨fun cs => (exact_attempt exact (exact_extend exact cs)).1, fun cs back verdict behind => ?_⟩
  rintro ⟨back', behind', found⟩
  exact (exact_attempt exact (exact_extend exact cs)).2 verdict back' (behind.trans behind') found

/-! ### Tokens in order -/

/-- Two stars stand at the start of a pattern, or behind a slash. -/
def Placed (ts : List GlobToken) : Prop :=
  ts.IsChain fun t u => u = .directories → t = .char '/' ∨ t = .directories

/-- Where the tokens may be tried in a text when they were tried at its start. -/
def Tried : List GlobToken → List Char → List Char → Prop
  | .directories :: _ => BehindDirectories
  | _ => Behind

theorem Tried.behindDirectories {ts : List GlobToken} (exact : Exact (Tried ts) meant rest) :
    Exact BehindDirectories meant rest := by
  refine exact.mono fun cs back behind => ?_
  unfold Tried
  split
  · exact behind
  · exact behind.behind

theorem compare_one (star : t ≠ .sequence) (stars : t ≠ .directories) (cs : List Char) :
    compare (t :: ts) (c :: cs) = if accepts c t then compare ts cs else .differs := by
  cases t with
  | sequence => exact absurd rfl star
  | directories => exact absurd rfl stars
  | char | anyChar | oneOf | noneOf => rw [compare] <;> simp

theorem compare_one_nil (star : t ≠ .sequence) (stars : t ≠ .directories) : compare (t :: ts) [] = .exhausted := by
  cases t with
  | sequence => exact absurd rfl star
  | directories => exact absurd rfl stars
  | char | anyChar | oneOf | noneOf => rw [compare] <;> simp

theorem matches_one (star : t ≠ .sequence) (stars : t ≠ .directories) :
    Matches (t :: ts) cs ↔ ∃ c rest, cs = c :: rest ∧ accepts c t = true ∧ Matches ts rest := by
  constructor
  · intro found
    cases found with
    | one accepted rest => exact ⟨_, _, rfl, accepted, rest⟩
    | sequence => exact absurd rfl star
    | directories => exact absurd rfl stars
  · rintro ⟨c, rest, rfl, accepted, found⟩
    exact .one accepted found

theorem matches_sequence : Matches (.sequence :: ts) cs ↔ BehindName (Matches ts) cs := by
  constructor
  · intro found
    cases found with
    | one accepted => cases accepted
    | sequence name rest => exact ⟨_, _, rfl, name, rest⟩
  · rintro ⟨front, back, rfl, name, rest⟩
    exact .sequence name rest

theorem matches_directories :
    Matches (.directories :: ts) cs ↔ ∃ back, BehindDirectories cs back ∧ Matches ts back := by
  constructor
  · intro found
    cases found with
    | one accepted => cases accepted
    | directories behind rest => exact ⟨_, behind, rest⟩
  · rintro ⟨back, behind, rest⟩
    exact .directories behind rest

/-- Behind a character that the first token takes, the other tokens may be tried. -/
theorem tried_one (placed : Placed (t :: ts)) (stars : t ≠ .directories) {d : Char} (accepted : accepts d t = true)
    (behind : Behind (c :: cs) (d :: back)) : Tried ts cs back := by
  have either : back = cs ∨ ∃ front, cs = front ++ d :: back := by
    obtain ⟨_ | ⟨e, front⟩, whole⟩ := behind
    · exact .inl (List.cons.inj whole).2.symm
    · exact .inr ⟨front, (List.cons.inj whole).2⟩
  unfold Tried
  split
  · have slash := (List.isChain_cons_cons.mp placed).1 rfl
    rw [slash.resolve_right stars, accepts, beq_iff_eq] at accepted
    exact either.imp_right fun ⟨front, whole⟩ => .inr ⟨front, accepted ▸ whole⟩
  · rcases either with rfl | ⟨front, rfl⟩
    · exact ⟨[], rfl⟩
    · exact ⟨front ++ [d], by simp⟩

theorem exact_one (placed : Placed (t :: ts)) (star : t ≠ .sequence) (stars : t ≠ .directories)
    (exact : Exact (Tried ts) (Matches ts) (compare ts)) : Exact Behind (Matches (t :: ts)) (compare (t :: ts)) := by
  refine ⟨fun cs => ?_, fun cs back verdict behind found => ?_⟩
  · rw [matches_one star stars]
    cases cs with
    | nil =>
      rw [compare_one_nil star stars]
      exact iff_of_false nofun nofun
    | cons c cs =>
      rw [compare_one star stars]
      by_cases accepted : accepts c t = true
      · simp [accepted, exact.matched]
      · simp [accepted]
  · obtain ⟨d, rest, rfl, accepted, found⟩ := (matches_one star stars).mp found
    cases cs with
    | nil =>
      obtain ⟨front, whole⟩ := behind
      simp at whole
    | cons c cs =>
      rw [compare_one star stars] at verdict
      split at verdict
      · exact exact.exhausted cs rest verdict (tried_one placed stars accepted behind) found
      · cases verdict

/-- The comparison matches what the tokens stand for, and gives up only where they match nowhere further on. -/
theorem exact_compare (placed : Placed ts) : Exact (Tried ts) (Matches ts) (compare ts) := by
  induction ts with
  | nil =>
    refine ⟨fun cs => ?_, fun cs back verdict => ?_⟩
    · cases cs with
      | nil => exact iff_of_true rfl .nil
      | cons c cs => exact iff_of_false nofun nofun
    · cases cs <;> cases verdict
  | cons t ts ih =>
    have exact := ih placed.tail
    cases t with
    | sequence =>
      -- Two stars never follow one star, so the rest may be tried anywhere.
      have anywhere : Tried ts = Behind := by
        unfold Tried
        split
        · exact absurd ((List.isChain_cons_cons.mp placed).1 rfl) (by simp)
        · rfl
      have same : Matches (.sequence :: ts) = BehindName (Matches ts) := funext fun _ => propext matches_sequence
      rw [same]
      exact exact_sequence (anywhere ▸ exact)
    | directories =>
      have same : Matches (.directories :: ts) = fun cs => ∃ back, BehindDirectories cs back ∧ Matches ts back :=
        funext fun _ => propext matches_directories
      rw [same]
      exact exact_directories (Tried.behindDirectories exact)
    | char | anyChar | oneOf | noneOf => exact exact_one placed nofun nofun exact

/-! ### What is read -/

/-- Where two stars may come next. -/
def Edge (before : Option Char) (done : List GlobToken) : Prop :=
  before.all (· == '/') = true → ∀ t ∈ done.getLast?, t = .char '/' ∨ t = .directories

theorem edge_other {before : Option Char} (other : before.all (· == '/') = false) : Edge before done := by
  intro free
  rw [other] at free
  cases free

theorem placed_concat (placed : Placed done)
    (behind : t = .directories → ∀ u ∈ done.getLast?, u = .char '/' ∨ u = .directories) : Placed (done ++ [t]) := by
  refine List.isChain_append.mpr ⟨placed, List.isChain_singleton t, fun u last v first => ?_⟩
  rw [List.head?_singleton, Option.mem_some_iff] at first
  exact fun stars => behind (first.trans stars) u last

theorem placed_addDirectories {before : Option Char} (placed : Placed done) (edge : Edge before done)
    (free : before.all (· == '/') = true) :
    Placed (addDirectories done) ∧ (addDirectories done).getLast? = some .directories := by
  unfold addDirectories
  split
  · rename_i already
    simp only [Bool.and_eq_true, beq_iff_eq] at already
    exact ⟨placed, already.2⟩
  · exact ⟨placed_concat placed fun _ => edge free, List.getLast?_concat⟩

/-- Two stars are read where they may stand only. -/
theorem placed_readStars {position : Nat} {before : Option Char} {result : List GlobToken × Char × List Char}
    (placed : Placed done) (edge : Edge before done) (read : readStars position before cs done = .ok result) :
    Placed result.1 ∧ Edge (some result.2.1) result.1 := by
  have directories : ∀ last, before.all (· == '/') = true →
      Placed (addDirectories done) ∧ Edge (some last) (addDirectories done) := by
    intro last free
    obtain ⟨placed, ends⟩ := placed_addDirectories placed edge free
    exact ⟨placed, fun _ t last => .inr (Option.mem_some_iff.mp (ends ▸ last)).symm⟩
  unfold readStars at read
  dsimp only at read
  split at read
  · cases read
  · split at read
    · cases read
      exact ⟨placed_concat placed nofun, edge_other rfl⟩
    · split at read
      · rename_i free
        split at read
        · cases read
          exact directories '*' free
        · cases read
          exact directories '/' free
        · cases read
      · cases read

/-- What is read has two stars where they may stand only. -/
theorem placed_readTokens {length fuel : Nat} {before : Option Char} (placed : Placed done) (edge : Edge before done)
    (read : readTokens length fuel before cs done = .ok ts) : Placed ts := by
  fun_induction readTokens length fuel before cs done with
  | case1 | case2 =>
    cases read
    exact placed
  | case3 _ _ _ _ _ question ih =>
    rw [beq_iff_eq] at question
    subst question
    exact ih (placed_concat placed nofun) (edge_other rfl) read
  | case4 fuel before c rest done position _ _ ih =>
    cases stars : readStars position before (c :: rest) done with
    | error fault =>
      rw [stars] at read
      cases read
    | ok result =>
      rw [stars] at read
      obtain ⟨placed, edge⟩ := placed_readStars placed edge stars
      exact ih _ _ _ placed edge read
  | case5 _ _ _ _ _ _ _ _ set after found ih =>
    refine ih (placed_concat placed ?_) (edge_other rfl) read
    rintro rfl
    unfold readSet? at found
    split at found
    all_goals
      obtain ⟨_, _, same⟩ := Option.map_eq_some_iff.mp found
      cases same
  | case6 => cases read
  | case7 _ _ c _ _ _ _ _ ih =>
    refine ih (placed_concat placed nofun) (fun slash t last => ?_) read
    rw [List.getLast?_concat, Option.mem_some_iff] at last
    rw [Option.all_some, beq_iff_eq] at slash
    exact .inl (last ▸ slash ▸ rfl)

/-- A pattern that can be read matches what its tokens stand for. -/
theorem isMatch_iff {source : String} {g : Glob} (read : Glob.read source = .ok g) :
    g.isMatch cs = true ↔ Matches g.tokens cs := by
  unfold Glob.read at read
  dsimp only at read
  cases tokens : readTokens source.toList.length source.toList.length none source.toList [] with
  | error fault =>
    rw [tokens] at read
    cases read
  | ok ts =>
    rw [tokens] at read
    cases read
    have placed := placed_readTokens List.isChain_nil (fun _ => nofun) tokens
    rw [isMatch, beq_iff_eq]
    exact (exact_compare placed).matched cs

/-! ### Words -/

/-- A character that stands for itself wherever it is in a pattern. -/
def IsOrdinary (c : Char) : Prop := c ≠ '?' ∧ c ≠ '*' ∧ c ≠ '['

theorem readTokens_word {length fuel : Nat} {before : Option Char} (ordinary : ∀ c ∈ word, IsOrdinary c) :
    readTokens length (fuel + word.length) before (word ++ cs) done =
      readTokens length fuel (word.getLast?.or before) cs (done ++ word.map .char) := by
  induction word generalizing before done with
  | nil => simp
  | cons c word ih =>
    obtain ⟨⟨question, star, bracket⟩, ordinary⟩ := List.forall_mem_cons.mp ordinary
    have last : (c :: word).getLast?.or before = word.getLast?.or (some c) := by
      cases h : word.getLast? <;> simp [List.getLast?_cons, h]
    rw [List.length_cons, ← Nat.add_assoc, List.cons_append, readTokens, if_neg (by simpa using question),
      if_neg (by simpa using star), if_neg (by simpa using bracket), ih ordinary, last, List.map_cons,
      List.append_assoc, List.singleton_append]

theorem matches_word : Matches (word.map .char ++ ts) cs ↔ ∃ back, cs = word ++ back ∧ Matches ts back := by
  induction word generalizing cs with
  | nil => simp
  | cons c word ih =>
    rw [List.map_cons, List.cons_append, matches_one (t := .char c) nofun nofun]
    simp only [accepts, beq_iff_eq, ih]
    constructor
    · rintro ⟨_, _, rfl, rfl, back, rfl, found⟩
      exact ⟨back, rfl, found⟩
    · rintro ⟨back, rfl, found⟩
      exact ⟨c, word ++ back, rfl, rfl, back, rfl, found⟩

theorem readTokens_stars {length fuel : Nat} {before : Option Char} {last : Char} {after : List Char}
    (stars : ∀ position, readStars position before ('*' :: cs) done = .ok (ts, last, after)) :
    readTokens length (fuel + 1) before ('*' :: cs) done = readTokens length fuel (some last) after ts := by
  rw [readTokens, if_neg (by decide), if_pos (by decide), stars]
  rfl

theorem readTokens_nil {length fuel : Nat} {before : Option Char} :
    readTokens length fuel before [] done = .ok done := by
  cases fuel <;> rfl

theorem read_eq {source : String} (whole : source.toList = cs)
    (tokens : ∀ length, readTokens length cs.length none cs [] = .ok ts) : read source = .ok ⟨source, ts⟩ := by
  unfold read
  dsimp only
  rw [whole, tokens]
  rfl

/-- The tokens for everything inside of a directory, wherever it is. -/
theorem read_inside {name : String} (ordinary : ∀ c ∈ name.toList, IsOrdinary c) :
    read ("**/" ++ name ++ "/**") = .ok ⟨"**/" ++ name ++ "/**",
      .directories :: ((name.toList ++ ['/']).map GlobToken.char ++ [.directories])⟩ := by
  have slash : ∀ c ∈ name.toList ++ ['/'], IsOrdinary c :=
    List.forall_mem_append.mpr ⟨ordinary, by simp [IsOrdinary]⟩
  have again : addDirectories (addDirectories [] ++ (name.toList ++ ['/']).map GlobToken.char) =
      .directories :: ((name.toList ++ ['/']).map GlobToken.char ++ [.directories]) := by
    have last : ([GlobToken.directories] ++ (name.toList ++ ['/']).map GlobToken.char).getLast? = some (.char '/') := by
      rw [List.map_append, ← List.append_assoc]
      exact List.getLast?_concat
    show addDirectories ([GlobToken.directories] ++ (name.toList ++ ['/']).map GlobToken.char) = _
    rw [addDirectories, last, if_neg (by simp), List.append_assoc, List.singleton_append]
  have whole : ("**/" ++ name ++ "/**").toList = '*' :: '*' :: '/' :: ((name.toList ++ ['/']) ++ ['*', '*']) := by simp
  refine read_eq whole fun length => ?_
  have fuel : ('*' :: '*' :: '/' :: ((name.toList ++ ['/']) ++ ['*', '*'])).length =
      3 + 1 + (name.toList ++ ['/']).length + 1 := by
    simp
    omega
  rw [fuel, readTokens_stars fun _ => rfl, readTokens_word slash, List.getLast?_concat, Option.some_or,
    readTokens_stars fun _ => rfl, readTokens_nil, again]

/-- The tokens for the names with an ending. -/
theorem read_ending {ending : String} (ordinary : ∀ c ∈ ending.toList, IsOrdinary c) :
    read ("*." ++ ending) = .ok ⟨"*." ++ ending, .sequence :: ('.' :: ending.toList).map .char⟩ := by
  have dot : ∀ c ∈ '.' :: ending.toList, IsOrdinary c :=
    List.forall_mem_cons.mpr ⟨by simp [IsOrdinary], ordinary⟩
  have whole : ("*." ++ ending).toList = '*' :: '.' :: ending.toList := by simp
  refine read_eq whole fun length => ?_
  have word : readTokens length (0 + ('.' :: ending.toList).length) (some '*') (('.' :: ending.toList) ++ [])
      [.sequence] = _ := readTokens_word dot
  rw [Nat.zero_add, List.append_nil] at word
  have one : ∀ position, readStars position none ('*' :: '.' :: ending.toList) [] =
      .ok ([.sequence], '*', '.' :: ending.toList) := fun _ => rfl
  rw [List.length_cons, readTokens_stars one, word]
  rfl

/-! ### Names in a text -/

theorem behindSlash_append (plain : '/' ∉ front) : BehindSlash (front ++ cs) back ↔ BehindSlash cs back := by
  induction front with
  | nil => rfl
  | cons c front ih =>
    rw [List.mem_cons, not_or] at plain
    rw [List.cons_append, behindSlash_cons, ih plain.2, or_iff_left fun slash => plain.1 slash.1.symm]

variable {ns : List (List Char)}

theorem behindDirectories_cons {n : List Char} (plain : '/' ∉ n) :
    BehindDirectories (List.intercalate ['/'] (n :: ns)) back ↔
      back = List.intercalate ['/'] (n :: ns) ∨ BehindDirectories (List.intercalate ['/'] ns) back := by
  unfold BehindDirectories
  refine or_congr_right ?_
  cases ns with
  | nil =>
    have alone : BehindSlash (n ++ []) back ↔ BehindSlash [] back := behindSlash_append plain
    rw [List.append_nil] at alone
    simp [alone, behindSlash_nil]
  | cons m ns =>
    rw [List.intercalate_cons_cons, List.append_assoc, behindSlash_append plain, List.singleton_append,
      behindSlash_cons, or_comm, and_iff_right rfl]

/-- Behind whole directories stand the last of the names. -/
theorem behindDirectories_names (plain : ∀ n ∈ ns, '/' ∉ n) :
    BehindDirectories (List.intercalate ['/'] ns) back ↔ ∃ ms, ms <:+ ns ∧ back = List.intercalate ['/'] ms := by
  induction ns with
  | nil => simp [BehindDirectories, BehindSlash]
  | cons n ns ih =>
    obtain ⟨first, plain⟩ := List.forall_mem_cons.mp plain
    simp only [behindDirectories_cons first, ih plain, List.suffix_cons_iff, or_and_right, exists_or, exists_eq_left]

theorem starts_in_directory (name : '/' ∉ word) (plain : ∀ n ∈ ns, '/' ∉ n) :
    word ++ ['/'] <+: List.intercalate ['/'] ns ↔ ∃ m ms, ns = word :: m :: ms := by
  constructor
  · rintro ⟨back, whole⟩
    rw [List.append_assoc, List.singleton_append] at whole
    cases ns with
    | nil => simp at whole
    | cons n ns =>
      have pieces := Text.pieces_intercalate (List.cons_ne_nil n ns) plain
      rw [← whole, Text.pieces_append, Text.pieces_plain name] at pieces
      have some : Text.pieces '/' back ≠ [] := Text.pieces_ne_nil back
      obtain ⟨m, ms, rest⟩ := List.exists_cons_of_ne_nil some
      rw [rest] at pieces
      exact ⟨m, ms, pieces.symm⟩
  · rintro ⟨m, ms, rfl⟩
    exact ⟨List.intercalate ['/'] (m :: ms), (List.intercalate_cons_cons ..).symm⟩

theorem mem_dropLast_iff {α : Type} {x : α} {xs : List α} : x ∈ xs.dropLast ↔ ∃ y ys, x :: y :: ys <:+ xs := by
  induction xs with
  | nil => simp
  | cons z xs ih =>
    cases xs with
    | nil => simp [List.suffix_cons_iff]
    | cons w xs =>
      rw [List.dropLast_cons_cons, List.mem_cons, ih]
      simp only [List.suffix_cons_iff (a := z), List.cons.injEq, exists_or]
      simp

/-- What lies in a directory, however deep, has its name before the last. -/
theorem matches_inside (name : '/' ∉ word) (plain : ∀ n ∈ ns, '/' ∉ n) :
    Matches (.directories :: ((word ++ ['/']).map GlobToken.char ++ [.directories])) (List.intercalate ['/'] ns) ↔
      word ∈ ns.dropLast := by
  have anything : ∀ cs, Matches [.directories] cs := fun cs => .directories (.inr (.inl rfl)) .nil
  have inside : ∀ cs, Matches ((word ++ ['/']).map GlobToken.char ++ [.directories]) cs ↔ word ++ ['/'] <+: cs := by
    intro cs
    rw [matches_word]
    exact ⟨fun ⟨back, whole, _⟩ => ⟨back, whole.symm⟩, fun ⟨back, whole⟩ => ⟨back, whole.symm, anything back⟩⟩
  rw [matches_directories, mem_dropLast_iff]
  simp only [behindDirectories_names plain, inside]
  constructor
  · rintro ⟨_, ⟨ms, suffix, rfl⟩, within⟩
    obtain ⟨m, rest, rfl⟩ := (starts_in_directory name fun n member => plain n (suffix.subset member)).mp within
    exact ⟨m, rest, suffix⟩
  · rintro ⟨m, rest, suffix⟩
    have within := starts_in_directory name fun n member => plain n (suffix.subset member)
    exact ⟨_, ⟨_, suffix, rfl⟩, within.mpr ⟨m, rest, rfl⟩⟩

theorem matches_ending :
    Matches (.sequence :: word.map .char) cs ↔ ∃ front, '/' ∉ front ∧ cs = front ++ word := by
  have ends : ∀ cs, Matches (word.map .char) cs ↔ cs = word := by
    intro cs
    rw [← List.append_nil (word.map GlobToken.char), matches_word]
    constructor
    · rintro ⟨back, rfl, found⟩
      cases found
      exact List.append_nil word
    · rintro rfl
      exact ⟨[], (List.append_nil cs).symm, .nil⟩
  rw [matches_sequence]
  simp only [BehindName, ends]
  constructor
  · rintro ⟨front, _, whole, plain, rfl⟩
    exact ⟨front, plain, whole⟩
  · rintro ⟨front, plain, whole⟩
    exact ⟨front, word, whole, plain, rfl⟩

end Glob

namespace Filter

variable {f : Filter} {p : Path} {front back : List Char} {ns : List (List Char)}

/-! ### The last name -/

theorem lastName_plain (plain : '/' ∉ back) : lastName back = back := by
  have all : ∀ c ∈ back.reverse, (c != '/') = true := fun c member =>
    bne_iff_ne.mpr fun slash => plain (slash ▸ List.mem_reverse.mp member)
  rw [lastName, List.takeWhile_eq_self_iff.mpr all, List.reverse_reverse]

theorem lastName_append : lastName (front ++ '/' :: back) = lastName back := by
  have stop : ('/' :: front.reverse).takeWhile (· != '/') = [] := rfl
  rw [lastName, List.reverse_append, List.reverse_cons, List.append_assoc, List.singleton_append,
    List.takeWhile_append, stop, List.append_nil]
  split
  · rename_i whole
    rw [lastName, ((List.takeWhile_prefix _).eq_of_length whole)]
  · rfl

theorem lastName_names (plain : ∀ n ∈ ns, '/' ∉ n) : lastName (List.intercalate ['/'] ns) = ns.getLast?.getD [] := by
  induction ns with
  | nil => rfl
  | cons n ns ih =>
    obtain ⟨first, plain⟩ := List.forall_mem_cons.mp plain
    cases ns with
    | nil => simpa using lastName_plain first
    | cons m ns =>
      rw [List.intercalate_cons_cons, List.append_assoc, List.singleton_append, lastName_append, ih plain,
        List.getLast?_cons_cons]

/-! ### Paths under the root -/

/-- From the root the names lead to the path. A relative path starts there. -/
def Leads (f : Filter) (p : Path) (names : List String) : Prop :=
  p.isAbsolute = true ∧ p.components = f.root.components ++ names.map .name ∨
    p.isAbsolute = false ∧ (p.components = names.map .name ∨ p.components = .here :: names.map .name)

variable {names : List String}

theorem Leads.names_inside (leads : f.Leads p names) : (f.inside p).names = names := by
  have all : (names.map Component.name).filterMap Component.name? = names := by
    rw [List.filterMap_map]
    exact List.filterMap_some
  rcases leads with ⟨absolute, whole⟩ | ⟨relative, whole⟩
  · exact names_of_components absolute whole
  · have same : f.inside p = p := by simp [inside, relative]
    rw [same, Path.names]
    rcases whole with whole | whole
    · rw [whole, all]
    · rw [whole]
      exact all

theorem Leads.plain (leads : f.Leads p names) : ∀ n ∈ names.map String.toList, '/' ∉ n := by
  intro n member
  obtain ⟨name, listed, rfl⟩ := List.mem_map.mp member
  have inside : .name name ∈ p.components := by
    rcases leads with ⟨_, whole⟩ | ⟨_, whole | whole⟩ <;> simp [whole, listed]
  exact (Path.isPlain_of_mem_components inside).slash

theorem Leads.relative_eq (leads : f.Leads p names) :
    f.relative p = List.intercalate ['/'] (names.map String.toList) := by
  rw [Filter.relative_eq, leads.names_inside, String.toList_intercalate]
  rfl

/-! ### Directories and endings -/

/-- A name without a slash whose characters all stand for themselves in a pattern. -/
def IsWord (name : String) : Prop := (∀ c ∈ name.toList, Glob.IsOrdinary c) ∧ '/' ∉ name.toList

theorem isWord_of_all {name : String}
    (plain : name.toList.all (fun c => c != '?' && c != '*' && c != '[' && c != '/') = true) : IsWord name := by
  simp only [List.all_eq_true, Bool.and_eq_true, bne_iff_ne] at plain
  constructor
  · intro c member
    obtain ⟨⟨⟨question, star⟩, bracket⟩, -⟩ := plain c member
    exact ⟨question, star, bracket⟩
  · intro member
    exact (plain '/' member).2 rfl

/-- A pattern for what lies in a directory, wherever it is. -/
def inDirectory (name : String) : String := "**/" ++ name ++ "/**"

/-- Such a pattern matches what lies in the directory, however deep, and nothing else. -/
theorem isMatch_inDirectory {g : Glob} {name : String} (word : IsWord name)
    (read : Glob.read (inDirectory name) = .ok g) (leads : f.Leads p names) :
    isMatch g (f.relative p) = true ↔ name ∈ names.dropLast := by
  have tokens := Glob.read_inside word.1
  rw [← inDirectory, read, Except.ok.injEq] at tokens
  have deep : g.source.toList.contains '/' = true := by simp [tokens, inDirectory]
  have matched := Glob.matches_inside word.2 leads.plain
  rw [← List.map_dropLast, List.mem_map_of_injective fun _ _ => String.toList_injective] at matched
  rw [isMatch, deep, Bool.not_true, Bool.false_and, Bool.or_false, Glob.isMatch_iff read, leads.relative_eq, tokens]
  exact matched

theorem readGlobs_cons {source : String} {sources : List String} {g : Glob} {gs : List Glob}
    (first : Glob.read source = .ok g) (rest : readGlobs sources = .ok gs) :
    readGlobs (source :: sources) = .ok (g :: gs) := by
  rw [readGlobs] at rest
  rw [readGlobs, List.mapM_cons, first, rest]
  rfl

/-- Patterns for directories exclude what lies in one of them, however deep, and nothing else. -/
theorem isExcluded_inDirectory {directories : List String} (words : ∀ d ∈ directories, IsWord d) :
    ∃ gs, readGlobs (directories.map inDirectory) = .ok gs ∧
      ∀ root includes p names, Leads ⟨root, includes, gs⟩ p names →
        (isExcluded ⟨root, includes, gs⟩ p = true ↔ ∃ d ∈ directories, d ∈ names.dropLast) := by
  induction directories with
  | nil => exact ⟨[], rfl, fun root includes p names leads => by simp [isExcluded]⟩
  | cons d directories ih =>
    obtain ⟨word, words⟩ := List.forall_mem_cons.mp words
    obtain ⟨gs, rest, excludes⟩ := ih words
    have first := Glob.read_inside word.1
    refine ⟨_, readGlobs_cons first rest, fun root includes p names leads => ?_⟩
    have one := isMatch_inDirectory word first leads
    have others := excludes root includes p names leads
    rw [isExcluded] at others ⊢
    rw [List.any_cons, Bool.or_eq_true, List.exists_mem_cons_iff]
    exact or_congr one others

/-- A pattern for an ending matches the paths whose last name has it. -/
theorem isMatch_ending {g : Glob} {ending : String} (word : IsWord ending)
    (read : Glob.read ("*." ++ ending) = .ok g) (leads : f.Leads p names) :
    isMatch g (f.relative p) = true ↔ ∃ n ∈ names.getLast?, '.' :: ending.toList <:+ n.toList := by
  have tokens := Glob.read_ending word.1
  rw [read, Except.ok.injEq] at tokens
  have shallow : g.source.toList.contains '/' = false := by simp [tokens, word.2]
  have meant : ∀ cs, g.isMatch cs = true ↔ ∃ front, '/' ∉ front ∧ cs = front ++ '.' :: ending.toList := by
    intro cs
    rw [Glob.isMatch_iff read, tokens]
    exact Glob.matches_ending
  -- A match of the whole path has no slash in it, so it is one of its last name.
  have last : g.isMatch (f.relative p) = true → g.isMatch (lastName (f.relative p)) = true := by
    intro found
    obtain ⟨front, plain, whole⟩ := (meant _).mp found
    have alone : '/' ∉ f.relative p := by simp [whole, plain, word.2]
    rw [lastName_plain alone]
    exact found
  rw [isMatch, shallow, Bool.not_false, Bool.true_and, Bool.or_eq_true, or_iff_right_of_imp last, meant,
    leads.relative_eq, lastName_names leads.plain, List.getLast?_map]
  cases ends : names.getLast? with
  | none => simp
  | some n =>
    have plain : '/' ∉ n.toList := leads.plain _ (List.mem_map_of_mem (List.mem_of_getLast? ends))
    simp only [Option.map_some, Option.getD_some, Option.mem_some_iff, exists_eq_left']
    constructor
    · rintro ⟨front, -, whole⟩
      exact ⟨front, whole.symm⟩
    · rintro ⟨front, whole⟩
      exact ⟨front, fun slash => plain (whole ▸ List.mem_append_left _ slash), whole.symm⟩

/-- The directories that are left alone by default. -/
def foreignDirectories : List String :=
  ["node_modules", ".git", ".next", "dist", "build", "out", "coverage", ".mend"]

/-- By default nothing inside of these directories is worked on. -/
theorem isExcluded_default : ∃ gs, readGlobs defaultExcludes = .ok gs ∧
    ∀ root includes p names, Leads ⟨root, includes, gs⟩ p names →
      (isExcluded ⟨root, includes, gs⟩ p = true ↔ ∃ d ∈ foreignDirectories, d ∈ names.dropLast) := by
  have patterns : defaultExcludes = foreignDirectories.map inDirectory := by decide +kernel
  have plain : foreignDirectories.all (fun d =>
      d.toList.all (fun c => c != '?' && c != '*' && c != '[' && c != '/')) = true := by decide +kernel
  rw [patterns]
  apply isExcluded_inDirectory
  intro d member
  exact isWord_of_all (List.all_eq_true.mp plain d member)

/-- The pattern for a directory excludes a path exactly where a name before the last is that of the directory, and
the pattern for an ending matches a path exactly where its last name has the ending. -/
theorem patterns_by_name :
    (∀ name, IsWord name → ∃ g,
      (∀ root sources, ofPatterns root sources [inDirectory name] =
        (readGlobs sources).map fun includes => ⟨root, includes, [g]⟩) ∧
      ∀ root includes p names, Leads ⟨root, includes, [g]⟩ p names →
        (isExcluded ⟨root, includes, [g]⟩ p = true ↔ name ∈ names.dropLast)) ∧
    ∀ ending, IsWord ending → ∃ g,
      (∀ root sources, ofPatterns root ["*." ++ ending] sources =
        (readGlobs sources).map fun excludes => ⟨root, [g], excludes⟩) ∧
      ∀ f p names, Leads f p names →
        (isMatch g (f.relative p) = true ↔ ∃ n ∈ names.getLast?, '.' :: ending.toList <:+ n.toList) := by
  refine ⟨fun name word => ?_, fun ending word => ?_⟩
  · obtain ⟨g, read⟩ : ∃ g, Glob.read (inDirectory name) = .ok g := ⟨_, Glob.read_inside word.1⟩
    refine ⟨g, fun root sources => ?_, fun root includes p names leads => ?_⟩
    · rw [ofPatterns, readGlobs_cons read rfl]
      cases readGlobs sources <;> rfl
    · rw [isExcluded, List.any_cons, List.any_nil, Bool.or_false]
      exact isMatch_inDirectory word read leads
  · obtain ⟨g, read⟩ : ∃ g, Glob.read ("*." ++ ending) = .ok g := ⟨_, Glob.read_ending word.1⟩
    refine ⟨g, fun root sources => ?_, fun f p names leads => isMatch_ending word read leads⟩
    rw [ofPatterns, readGlobs_cons read rfl]
    cases readGlobs sources <;> rfl

theorem patterns_by_name_small :
    let f : Filter := ⟨⟨"/r"⟩, [], [⟨"**/lib/**", .directories :: ("lib/".toList.map .char ++ [.directories])⟩]⟩
    Leads f ⟨"/r/a/lib/b.js"⟩ ["a", "lib", "b.js"] ∧ f.isExcluded ⟨"/r/a/lib/b.js"⟩ = true := by
  intro f
  have leads : Leads f ⟨"/r/a/lib/b.js"⟩ ["a", "lib", "b.js"] := .inl (by decide +kernel)
  obtain ⟨g, made, excludes⟩ := patterns_by_name.1 "lib" (isWord_of_all (by decide +kernel))
  have same : (⟨⟨"/r"⟩, [], [g]⟩ : Filter) = f := Except.ok.inj ((made ⟨"/r"⟩ []).symm.trans (by decide +kernel))
  rw [← same] at leads ⊢
  exact ⟨leads, (excludes _ _ _ _ leads).mpr (by simp)⟩

end Filter

end SourceRepair
