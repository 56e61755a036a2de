import SourceRepair.Disk.Staged
import SourceRepair.Json.Read
import SourceRepair.Learning.Extract

/-!
# The store of learned rules

Rules in the order in which they were first observed, each with its compiled form. Only rules whose
confidence reaches the threshold run. A store is kept as one JSON list, which is read as a whole and replaced
as a whole.
-/

namespace SourceRepair.Learning

/-- How rules are learned and when they run. -/
structure Config where
  enabled : Bool := true
  threshold : Float := 0.7
  delta : Float := 0.1
deriving DecidableEq, Inhabited

structure Store where
  config : Config
  rules : List Rule := []
  /-- The compiled form of each pattern, or why there is none. -/
  compiled : List (String × Except Failure Compiled) := []

/-- What became of a candidate. -/
inductive Merge where
  | added
  | reinforced (confidence : Float) (frequency : UInt32)
deriving DecidableEq, Inhabited

namespace Store

/-- An empty store. -/
def empty (config : Config) : Store := ⟨config, [], []⟩

/-- Gives a pattern its compiled form, in place of an earlier one. -/
def setCompiled (key : String) (c : Except Failure Compiled) :
    List (String × Except Failure Compiled) → List (String × Except Failure Compiled)
  | [] => [(key, c)]
  | (k, old) :: rest => if k == key then (key, c) :: rest else (k, old) :: setCompiled key c rest

/-- Compiles a rule. -/
def withCompiled (s : Store) (r : Rule) : Store :=
  { s with compiled := setCompiled r.pattern (compile r.pattern r.replacement) s.compiled }

/-- A store with these rules. -/
def ofRules (config : Config) (rules : List Rule) : Store :=
  { rules.foldl withCompiled (empty config) with rules := rules }

/-- Reinforces the first rule with a pattern. -/
def reinforceFirst (delta : Float) (pattern : String) : List Rule → Option (Rule × List Rule)
  | [] => none
  | r :: rest =>
    if r.pattern == pattern then
      let raised :=
        { r with frequency := r.frequency + 1, confidence := reinforce r.confidence delta }
      some (raised, raised :: rest)
    else (reinforceFirst delta pattern rest).map fun (raised, done) => (raised, r :: done)

/-- Merges a candidate: the rule with its pattern is reinforced, or the candidate is added. -/
def add (s : Store) (candidate : Rule) : Merge × Store :=
  match reinforceFirst s.config.delta candidate.pattern s.rules with
  | some (raised, rules) =>
    (.reinforced raised.confidence raised.frequency, { s with rules := rules })
  | none =>
    let t := s.withCompiled candidate
    (.added, { t with rules := t.rules ++ [candidate] })

/-- Merges some candidates. -/
def addAll (s : Store) (candidates : List Rule) : Store :=
  candidates.foldl (fun s r => (s.add r).2) s

/-- Merges what is found between two texts, and tells how many candidates there were. -/
def learn (s : Store) (before after : String) (layer : LayerId) : Nat × Store :=
  let candidates := extract before after layer
  (candidates.length, s.addAll candidates)

/-- The rules that run, in the order of the store. -/
def active (s : Store) : List Rule := s.rules.filter fun r => s.config.threshold ≤ r.confidence

/-- The compiled form of a rule. -/
def compiledOf (s : Store) (r : Rule) : Except Failure Compiled :=
  match s.compiled.lookup r.pattern with
  | some c => c
  | none => compile r.pattern r.replacement

/-- A text and the descriptions of the rules that changed it. -/
structure Applied where
  code : String
  descriptions : List String
deriving DecidableEq, Repr, Inhabited

/-- Applies one rule; a rule that cannot be compiled does nothing. -/
def applyRule (s : Store) (done : Applied) (r : Rule) : Applied :=
  match s.compiledOf r with
  | .error _ => done
  | .ok c =>
    match c.apply done.code with
    | some code => ⟨code, done.descriptions ++ [r.description]⟩
    | none => done

/-- Applies all rules that run, in order. -/
def applyRules (s : Store) (code : String) : Applied := s.active.foldl s.applyRule ⟨code, []⟩

/-! ### The file of a store -/

open Disk (Job Program Staged)

/-- The rules in a text. -/
def readRules (text : String) : Except Failure (List Rule) :=
  match Json.read? text with
  | none => .error (.serialization "the text is no JSON document")
  | some v =>
    match Json.Decode.list Rule.decode v with
    | .ok rules => .ok rules
    | .error message => .error (.serialization message)

/-- The text of a store. -/
def text (s : Store) : String := (Json.Value.array (s.rules.map Rule.toJson)).pretty ++ "\n"

/-- Reads a store. A file that is not there holds no rules. -/
def load (config : Config) (path : Path) : Job Store := do
  match ← Program.readText path with
  | .error fault =>
    if fault.kind == .notFound then return empty config else throw (.ofFault path fault)
  | .ok text => return ofRules config (← Job.ofExcept (readRules text))

/-- Replaces the file of a store. -/
def save (s : Store) (path : Path) : Job Unit := Staged.replace path s.text.toUTF8

end Store

end SourceRepair.Learning
