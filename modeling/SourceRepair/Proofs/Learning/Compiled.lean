import Mathlib.Data.List.Induction
import SourceRepair.Learning.Store
import SourceRepair.Proofs.Disk.Run
import SourceRepair.Proofs.Pipeline.Calm

/-!
# What the compiled forms of a store stand for

A store keeps compiled forms by the pattern alone, while rules of one pattern may differ in their
replacements. `Holds` says after which rules the kept forms are those of the last rule with their
pattern; adding rules keeps that, because a rule is only added under a new pattern. So the kept forms
are those of the rules themselves exactly as long as the rules that were read agree on a replacement
for each pattern.
-/

namespace SourceRepair.Learning

open Disk (Machine Program)
open Pattern (Regex)

/-- The text with the matches of a compiled rule replaced. -/
def Compiled.rewrite (c : Compiled) (text : String) : String := (c.apply text).getD text

/-- A compiled rule gives a text only if it differs from the one it was given. -/
theorem Compiled.ne_of_apply {c : Compiled} {text done : String} (applied : c.apply text = some done) :
    done ≠ text := by
  rintro rfl
  rw [apply] at applied
  generalize (if c.isGlobal = true then c.regex.replaceAll c.template done.toList
    else c.regex.replaceFirst c.template done.toList) = replaced at applied
  by_cases same : replaced = done.toList
  · simp [same] at applied
  · rw [if_neg (by simpa using same)] at applied
    exact same (by simpa using congrArg String.toList (Option.some.inj applied))

theorem Compiled.apply_eq (c : Compiled) (text : String) :
    c.apply text = if c.rewrite text = text then none else some (c.rewrite text) := by
  cases applied : c.apply text with
  | none => simp [rewrite, applied]
  | some done => simp [rewrite, applied, ne_of_apply applied]

/-! ### Patterns with flags -/

theorem splitPattern_join (source : String) {flags : List Char} (plain : '/' ∉ flags) (letters : flags.all Char.isAlpha) :
    splitPattern (joinPattern source (String.ofList flags)) = .ok (source, String.ofList flags) := by
  have back : (joinPattern source (String.ofList flags)).toList.reverse = flags.reverse ++ '/' :: source.toList.reverse := by
    simp [joinPattern]
  have taken : (flags.reverse ++ '/' :: source.toList.reverse).takeWhile (· != '/') = flags.reverse := by
    rw [List.takeWhile_append_of_pos fun c inside => ?_]
    · simp
    · rw [bne_iff_ne]
      rintro rfl
      exact plain (List.mem_reverse.mp inside)
  have none : flags.any (fun c => !c.isAlpha) = false := by simpa using letters
  have dropped : (flags.reverse ++ '/' :: source.toList.reverse).drop (flags.length + 1) = source.toList.reverse := by
    simp [List.drop_append]
  simp only [splitPattern, back, taken, List.reverse_reverse, none, dropped]
  simp

/-- A pattern whose flags only say how often it is applied. -/
theorem compile_join {source replacement : String} (flags : List Char) {r : Regex} (plain : '/' ∉ flags)
    (letters : flags.all Char.isAlpha) (bare : inlineFlags flags = .ok []) (read : Regex.read? source = some r) :
    compile (joinPattern source (String.ofList flags)) replacement =
      .ok ⟨r, flags.contains 'g', translate replacement.toList⟩ := by
  rw [compile, splitPattern_join source plain letters]
  simp only [Except.bind, bind, String.toList_ofList, bare, List.isEmpty_nil, if_true, read]

/-! ### Runs without a store -/

/-- The compiled form of the rule's own pattern with a replacement, if there is one. -/
def Rule.matcher? (r : Rule) (replacement : String) : Option Compiled :=
  (compile r.pattern replacement).toOption

/-- The text after some rules, each with its replacement. -/
def textAfter (replacement : Rule → String) (rules : List Rule) (text : String) : String :=
  (rules.filterMap fun r => r.matcher? (replacement r)).foldl (fun text c => c.rewrite text) text

/-- Those of some rules, each with its replacement, that change the text on their way through it. -/
def changing (replacement : Rule → String) : List Rule → String → List Rule
  | [], _ => []
  | r :: rest, text =>
    match r.matcher? (replacement r) with
    | none => changing replacement rest text
    | some c =>
      if c.rewrite text = text then changing replacement rest text
      else r :: changing replacement rest (c.rewrite text)

namespace Store

/-- Runs rules on a text, each with its replacement and compiled afresh. -/
def runAfresh (replacement : Rule → String) (rules : List Rule) (text : String) : Applied :=
  ⟨textAfter replacement rules text, (changing replacement rules text).map (·.description)⟩

variable {s : Store} {replacement : Rule → String} {loaded : List Rule}

/-- If the store has the compiled form of each rule, applying them is running them afresh. -/
theorem foldl_applyRule {rules : List Rule}
    (same : ∀ r ∈ rules, s.compiledOf r = compile r.pattern (replacement r)) (done : Applied) :
    rules.foldl s.applyRule done =
      ⟨textAfter replacement rules done.code,
        done.descriptions ++ (changing replacement rules done.code).map (·.description)⟩ := by
  induction rules generalizing done with
  | nil => simp [textAfter, changing]
  | cons r rest ih =>
    have later := fun r member => same r (List.mem_cons_of_mem _ member)
    rw [List.foldl_cons, ih later, applyRule, same r List.mem_cons_self, changing, textAfter, textAfter,
      List.filterMap_cons, Rule.matcher?]
    cases compile r.pattern (replacement r) with
    | error => rfl
    | ok c =>
      simp only [Except.toOption, c.apply_eq, List.foldl_cons]
      by_cases unchanged : c.rewrite done.code = done.code
      · simp [unchanged]
      · simp [unchanged]

/-! ### The forms that a store keeps -/

theorem lookup_setCompiled (key k : String) (c : Except Failure Compiled)
    (kept : List (String × Except Failure Compiled)) :
    (setCompiled key c kept).lookup k = if k = key then some c else kept.lookup k := by
  induction kept with
  | nil => by_cases same : k = key <;> simp [setCompiled, List.lookup_cons, same, beq_eq_false_iff_ne.mpr]
  | cons e rest ih =>
    obtain ⟨first, old⟩ := e
    by_cases here : first = key
    · subst here
      by_cases same : k = first <;>
        simp [setCompiled, List.lookup_cons, same, beq_eq_false_iff_ne.mpr]
    · by_cases same : k = first
      · subst same
        simp [setCompiled, here]
      · simp [setCompiled, List.lookup_cons, here, beq_eq_false_iff_ne.mpr same, ih]

/-- The last of some rules that has a pattern. -/
def lastWith? (rules : List Rule) (pattern : String) : Option Rule :=
  rules.reverse.find? (·.pattern == pattern)

theorem lastWith?_concat (rules : List Rule) (r : Rule) (pattern : String) :
    lastWith? (rules ++ [r]) pattern =
      if r.pattern = pattern then some r else lastWith? rules pattern := by
  by_cases same : r.pattern = pattern <;> simp [lastWith?, same]

/-- The replacement that a store uses for a rule: that of the last rule with its pattern among those
that were read, or its own if none was. -/
def heldReplacement (loaded : List Rule) (r : Rule) : String :=
  ((lastWith? loaded r.pattern).map (·.replacement)).getD r.replacement

theorem lookup_foldl_withCompiled (rules : List Rule) (s : Store) (pattern : String) :
    (rules.foldl withCompiled s).compiled.lookup pattern =
      match lastWith? rules pattern with
      | some r => some (compile r.pattern r.replacement)
      | none => s.compiled.lookup pattern := by
  induction rules using List.reverseRecOn with
  | nil => rfl
  | append_singleton rules r ih =>
    rw [List.foldl_append, List.foldl_cons, List.foldl_nil, withCompiled, lookup_setCompiled, ih,
      lastWith?_concat]
    by_cases same : pattern = r.pattern
    · simp [same]
    · simp [same, Ne.symm same]

/-- The store keeps for each of its rules the compiled form with the replacement held for it. Each rule
was read or has a pattern that was not read, and there is a rule for each pattern that was read. -/
structure Keeps (loaded : List Rule) (s : Store) : Prop where
  held : ∀ r ∈ s.rules, s.compiledOf r = compile r.pattern (heldReplacement loaded r)
  origin : ∀ r ∈ s.rules, (∃ q ∈ loaded, q.pattern = r.pattern ∧ q.replacement = r.replacement) ∨
    ∀ q ∈ loaded, q.pattern ≠ r.pattern
  covers : ∀ r ∈ loaded, ∃ q ∈ s.rules, q.pattern = r.pattern

theorem keeps_ofRules (config : Config) (rules : List Rule) : Keeps rules (ofRules config rules) where
  held r member := by
    have found : (lastWith? rules r.pattern).isSome := by
      rw [lastWith?, List.find?_isSome]
      exact ⟨r, by simpa [ofRules] using member, by simp⟩
    obtain ⟨last, shown⟩ := Option.isSome_iff_exists.mp found
    have same : last.pattern = r.pattern := by
      simpa using List.find?_some shown
    rw [compiledOf, ofRules, lookup_foldl_withCompiled, heldReplacement, shown]
    simp [same]
  origin r member := .inl ⟨r, member, rfl, rfl⟩
  covers r member := ⟨r, member, rfl⟩

/-- Reinforcing finds a rule by its pattern and changes no pattern and no replacement. -/
theorem reinforceFirst_cases (delta : Float) (pattern : String) (rules : List Rule) :
    match reinforceFirst delta pattern rules with
    | none => ∀ r ∈ rules, r.pattern ≠ pattern
    | some (_, done) => done.map (fun r => (r.pattern, r.replacement)) =
        rules.map fun r => (r.pattern, r.replacement) := by
  induction rules with
  | nil => simp [reinforceFirst]
  | cons r rest ih =>
    rw [reinforceFirst]
    by_cases same : r.pattern = pattern
    · simp [same]
    · rw [if_neg (by simpa using same)]
      cases found : reinforceFirst delta pattern rest with
      | none =>
        rw [found] at ih
        simpa [same] using ih
      | some result =>
        rw [found] at ih
        simpa using ih

theorem mem_of_same {before after : List Rule} {r : Rule} (member : r ∈ after)
    (same : after.map (fun r => (r.pattern, r.replacement)) =
      before.map fun r => (r.pattern, r.replacement)) :
    ∃ q ∈ before, q.pattern = r.pattern ∧ q.replacement = r.replacement := by
  have listed : (r.pattern, r.replacement) ∈ before.map fun r => (r.pattern, r.replacement) :=
    same ▸ List.mem_map_of_mem member
  obtain ⟨q, inside, equal⟩ := List.mem_map.mp listed
  exact ⟨q, inside, (Prod.mk.inj equal).1, (Prod.mk.inj equal).2⟩

theorem Keeps.add (keeps : Keeps loaded s) (candidate : Rule) :
    Keeps loaded (s.add candidate).2 := by
  have cases := reinforceFirst_cases s.config.delta candidate.pattern s.rules
  unfold Store.add
  cases found : reinforceFirst s.config.delta candidate.pattern s.rules with
  | some result =>
    obtain ⟨raised, rules⟩ := result
    rw [found] at cases
    refine ⟨fun r member => ?_, fun r member => ?_, fun r member => ?_⟩
    · obtain ⟨q, inside, pattern, replacement⟩ := mem_of_same member cases
      have held := keeps.held q inside
      rw [compiledOf, heldReplacement] at held ⊢
      rwa [pattern, replacement] at held
    · obtain ⟨q, inside, pattern, replacement⟩ := mem_of_same member cases
      exact pattern ▸ replacement ▸ keeps.origin q inside
    · obtain ⟨q, inside, shown⟩ := keeps.covers r member
      obtain ⟨p, there, pattern, _⟩ := mem_of_same inside cases.symm
      exact ⟨p, there, pattern.trans shown⟩
  | none =>
    rw [found] at cases
    -- the pattern is new, so the forms of the other rules stay and none was read under it
    have fresh : ∀ q ∈ loaded, q.pattern ≠ candidate.pattern := by
      intro q inside
      obtain ⟨p, there, pattern⟩ := keeps.covers q inside
      exact pattern ▸ cases p there
    refine ⟨fun r member => ?_, fun r member => ?_, fun r member => ?_⟩
    · rw [compiledOf]
      simp only [withCompiled, lookup_setCompiled]
      rcases List.mem_append.mp member with before | last
      · have held := keeps.held r before
        rwa [if_neg (cases r before)]
      · obtain rfl := List.mem_singleton.mp last
        have none : lastWith? loaded r.pattern = none := by
          rw [lastWith?, List.find?_eq_none]
          exact fun q inside => by simpa using fresh q (List.mem_reverse.mp inside)
        rw [if_pos rfl, heldReplacement, none]
        rfl
    · rcases List.mem_append.mp member with before | last
      · exact keeps.origin r before
      · exact .inr (List.mem_singleton.mp last ▸ fresh)
    · obtain ⟨q, inside, shown⟩ := keeps.covers r member
      exact ⟨q, List.mem_append_left _ inside, shown⟩

theorem Keeps.addAll (keeps : Keeps loaded s) (candidates : List Rule) :
    Keeps loaded (s.addAll candidates) := by
  induction candidates generalizing s with
  | nil => exact keeps
  | cons candidate rest ih => exact ih (keeps.add candidate)

theorem Keeps.applyRules_eq (keeps : Keeps loaded s) (code : String) :
    s.applyRules code = runAfresh (heldReplacement loaded) s.active code := by
  have same := fun r (member : r ∈ s.active) => keeps.held r (List.mem_filter.mp member).1
  rw [applyRules, foldl_applyRule same, runAfresh]
  rfl

/-- Where the rules that were read agree on a replacement for each pattern, the one held for a rule is
its own. -/
theorem Keeps.held_own (keeps : Keeps loaded s)
    (agree : ∀ a ∈ loaded, ∀ b ∈ loaded, a.pattern = b.pattern → a.replacement = b.replacement)
    {r : Rule} (member : r ∈ s.rules) : heldReplacement loaded r = r.replacement := by
  unfold heldReplacement
  cases shown : lastWith? loaded r.pattern with
  | none => rfl
  | some last =>
    have inside : last ∈ loaded := List.mem_reverse.mp (List.mem_of_find?_eq_some shown)
    have pattern : last.pattern = r.pattern := by simpa using List.find?_some shown
    rcases keeps.origin r member with ⟨q, read, same, replacement⟩ | fresh
    · exact (agree last inside q read (pattern.trans same.symm)).trans replacement
    · exact absurd pattern (fresh last inside)

theorem runAfresh_congr {other : Rule → String} {rules : List Rule}
    (same : ∀ r ∈ rules, replacement r = other r) (text : String) :
    runAfresh replacement rules text = runAfresh other rules text := by
  have matchers : ∀ r ∈ rules, r.matcher? (replacement r) = r.matcher? (other r) :=
    fun r member => by rw [same r member]
  have changers : ∀ text, changing replacement rules text = changing other rules text := by
    clear same
    induction rules with
    | nil => exact fun _ => rfl
    | cons r rest ih =>
      intro text
      have later := ih fun q member => matchers q (List.mem_cons_of_mem _ member)
      rw [changing, changing, matchers r List.mem_cons_self]
      cases r.matcher? (other r) with
      | none => exact later text
      | some c =>
        dsimp only
        rw [later, later]
  rw [runAfresh, runAfresh, textAfter, textAfter, List.filterMap_congr matchers, changers]

/-! ### Stores that were read -/

variable {config : Config} {path : Path} {m : Machine}

theorem run_load (config : Config) (path : Path) (m : Machine) :
    ((load config path).run.run m).1 = match ((Program.readText path).run m).1 with
      | .error fault =>
        if fault.kind == .notFound then .ok (empty config) else .error (.ofFault path fault)
      | .ok text => (readRules text).map (ofRules config) := by
  have lifted : (load config path).run = Program.readText path >>= fun read => match read with
      | .error fault => if fault.kind == .notFound then pure (.ok (empty config))
        else pure (.error (.ofFault path fault))
      | .ok text => pure ((readRules text).map (ofRules config)) := by
    rw [load, ExceptT.run_bind]
    show (ExceptT.lift (Program.readText path) : Disk.Job _).run >>= _ = _
    rw [ExceptT.run_lift, map_eq_pure_bind, bind_assoc]
    congr 1
    funext read
    rw [pure_bind]
    cases read with
    | error fault =>
      dsimp only
      split <;> rfl
    | ok text =>
      dsimp only
      cases readRules text <;> rfl
  rw [lifted, Program.run_bind]
  cases ((Program.readText path).run m).1 with
  | error fault => dsimp only; split <;> rfl
  | ok text => rfl

/-- A store that was read consists of the rules that were read, each compiled. -/
theorem load_ok (loaded : ((load config path).run.run m).1 = .ok s) : s = ofRules config s.rules := by
  rw [run_load] at loaded
  split at loaded
  · split at loaded
    · cases loaded
      rfl
    · cases loaded
  · rename_i text _
    cases rules : readRules text with
    | error e => rw [rules] at loaded; cases loaded
    | ok rules' =>
      rw [rules] at loaded
      cases loaded
      rfl

/-- After any store was read and any candidates were merged, applying the rules of the store is running
those at or above the threshold in their order, each compiled afresh with the replacement of the last
rule that was read with its pattern. This is each rule's own replacement if the rules that were read
agree on one for each pattern. -/
theorem applyRules_of_load (loaded : ((load config path).run.run m).1 = .ok s)
    (candidates : List Rule) (code : String) :
    let t := s.addAll candidates
    t.applyRules code = runAfresh (heldReplacement s.rules) t.active code ∧
    ((∀ a ∈ s.rules, ∀ b ∈ s.rules, a.pattern = b.pattern → a.replacement = b.replacement) →
      t.applyRules code = runAfresh (·.replacement) t.active code) := by
  intro t
  have keeps : Keeps s.rules t := by
    have start := keeps_ofRules config s.rules
    rw [← load_ok loaded] at start
    exact start.addAll candidates
  refine ⟨keeps.applyRules_eq code, fun agree => ?_⟩
  rw [keeps.applyRules_eq code]
  exact runAfresh_congr (fun r member => keeps.held_own agree (List.mem_filter.mp member).1) code

/-- The text of a file with two rules, of which the first replaces `x` by `1`. -/
def rulesText (pattern replacement : String) : String :=
  "[[\"x/\",\"1\",0.9,1,2,\"first\"],[\"" ++ pattern ++ "\",\"" ++ replacement ++
    "\",0.9,1,2,\"second\"]]"

/-- The rules of such a file. -/
def listedRules (pattern replacement : String) : List Rule :=
  [⟨"x/", "1", 0.9, 1, .patterns, "first"⟩, ⟨pattern, replacement, 0.9, 1, .patterns, "second"⟩]

theorem load_rulesText {pattern replacement : String}
    (read : (readRules (rulesText pattern replacement)).toOption = some (listedRules pattern replacement)) :
    ((load {} ⟨"/rules.json"⟩).run.run
      (Pipeline.smallMachine "rules.json" (rulesText pattern replacement))).1 =
        .ok (ofRules {} (listedRules pattern replacement)) := by
  have text : ((Program.readText ⟨"/rules.json"⟩).run
      (Pipeline.smallMachine "rules.json" (rulesText pattern replacement))).1 =
        .ok (rulesText pattern replacement) := Program.textOf_ok.mpr rfl
  rw [run_load, text]
  dsimp only
  cases rules : readRules (rulesText pattern replacement) with
  | error e =>
    rw [rules] at read
    cases read
  | ok rules' =>
    rw [rules] at read
    cases read
    rfl

/-- A rule that no file of these lists. -/
def thirdRule : Rule := ⟨"z/", "3", 0.9, 1, .patterns, "third"⟩

theorem applyRules_of_load_small :
    let s := ofRules {} (listedRules "y/" "2")
    let t := s.addAll [thirdRule]
    ((load {} ⟨"/rules.json"⟩).run.run
      (Pipeline.smallMachine "rules.json" (rulesText "y/" "2"))).1 = .ok s ∧
    t.applyRules "xyz" = runAfresh (·.replacement) t.active "xyz" ∧
    t.applyRules "xyz" = ⟨"123", ["first", "second", "third"]⟩ := by
  intro s t
  have read : (readRules (rulesText "y/" "2")).toOption = some (listedRules "y/" "2") := by
    decide +kernel
  have loaded := load_rulesText read
  exact ⟨loaded, (applyRules_of_load loaded [thirdRule] "xyz").2 (by decide +kernel),
    by decide +kernel⟩

/-- A file that lists a pattern twice: the first rule is run with the replacement of the second. -/
theorem replacement_of_another_rule :
    let s := ofRules {} (listedRules "x/" "2")
    ((load {} ⟨"/rules.json"⟩).run.run
      (Pipeline.smallMachine "rules.json" (rulesText "x/" "2"))).1 = .ok s ∧
    s.applyRules "x" = ⟨"2", ["first"]⟩ ∧
    runAfresh (·.replacement) s.active "x" = ⟨"1", ["first"]⟩ :=
  ⟨load_rulesText (by decide +kernel), by decide +kernel, by decide +kernel⟩

end Store

end SourceRepair.Learning
