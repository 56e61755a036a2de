import Mathlib.Algebra.GroupWithZero.Nat
import Mathlib.Data.List.Induction
import Mathlib.Data.List.Nodup
import SourceRepair.Learning.Store

/-!
# What a store knows of its candidates

A store that candidates were added to has one rule for each of their patterns, in the order in which
the patterns came first. A rule is the first candidate with its pattern, apart from its confidence and
its frequency, which counts the candidates with the pattern; and the store keeps one compiled form for
each rule. `Tally` says all of this, and adding a candidate keeps it.
-/

namespace SourceRepair.Learning

/-- What a rule is observed with. -/
structure Observation where
  pattern : String
  replacement : String
  confidence : Float
  layer : LayerId
  description : String

def Observation.rule (o : Observation) : Rule :=
  .observed o.pattern o.replacement o.confidence o.layer o.description

/-- The rule stands for the candidates with its pattern. -/
structure Rule.StandsFor (r : Rule) (seen : List Rule) : Prop where
  first : ∃ q, seen.find? (·.pattern == r.pattern) = some q ∧ r.replacement = q.replacement ∧
    r.layer = q.layer ∧ r.description = q.description
  frequency : r.frequency.toNat = seen.countP (·.pattern == r.pattern)

section StandsFor

variable {r c : Rule} {seen : List Rule}

theorem Rule.StandsFor.other (stands : r.StandsFor seen) (differs : c.pattern ≠ r.pattern) :
    r.StandsFor (seen ++ [c]) := by
  obtain ⟨q, found, fields⟩ := stands.first
  refine ⟨⟨q, by simp [found], fields⟩, ?_⟩
  rw [stands.frequency, List.countP_append, List.countP_singleton]
  simp [differs]

/-- Counting the rule once more does for one more candidate with its pattern. -/
theorem Rule.StandsFor.again (stands : r.StandsFor seen) (same : c.pattern = r.pattern)
    (few : seen.length + 1 < 2 ^ 32) (confidence : Float) :
    { r with frequency := r.frequency + 1, confidence := confidence }.StandsFor (seen ++ [c]) := by
  obtain ⟨q, found, fields⟩ := stands.first
  refine ⟨⟨q, by simp [found], fields⟩, ?_⟩
  have counted : seen.countP (·.pattern == r.pattern) ≤ seen.length := List.countP_le_length
  have raised : (r.frequency + 1).toNat = r.frequency.toNat + 1 := by
    rw [UInt32.toNat_add, UInt32.toNat_one, stands.frequency]
    omega
  dsimp only
  rw [raised, stands.frequency, List.countP_append, List.countP_singleton]
  simp [same]

theorem standsFor_itself (new : ∀ q ∈ seen, q.pattern ≠ r.pattern) (once : r.frequency = 1) :
    r.StandsFor (seen ++ [r]) := by
  have none : seen.find? (·.pattern == r.pattern) = none := by simpa using new
  have zero : seen.countP (·.pattern == r.pattern) = 0 := by simpa using new
  refine ⟨⟨r, by simp [none], rfl, rfl, rfl⟩, ?_⟩
  rw [List.countP_append, zero, once, List.countP_singleton]
  simp

end StandsFor

namespace Store

variable {s : Store} {seen : List Rule}

/-- The store holds what the candidates sum up to. -/
structure Tally (seen : List Rule) (s : Store) : Prop where
  distinct : (s.rules.map (·.pattern)).Nodup
  order : s.rules.map (·.pattern) = (seen.map (·.pattern)).eraseDups
  rules : ∀ r ∈ s.rules, r.StandsFor seen
  total : (s.rules.map (·.frequency.toNat)).sum = seen.length
  compiled : s.compiled = s.rules.map fun r => (r.pattern, compile r.pattern r.replacement)

theorem tally_empty (config : Config) : Tally [] (empty config) :=
  ⟨List.nodup_nil, rfl, by simp [empty], rfl, rfl⟩

/-- Reinforcing raises the first rule with the pattern, where it is, or finds no such rule. -/
theorem reinforceFirst_eq (delta : Float) (pattern : String) (rules : List Rule) :
    (reinforceFirst delta pattern rules = none ∧ ∀ r ∈ rules, r.pattern ≠ pattern) ∨
    ∃ before r after, rules = before ++ r :: after ∧ r.pattern = pattern ∧
      let raised :=
        { r with frequency := r.frequency + 1, confidence := reinforce r.confidence delta }
      reinforceFirst delta pattern rules = some (raised, before ++ raised :: after) := by
  induction rules with
  | nil => exact .inl ⟨rfl, by simp⟩
  | cons r rest ih =>
    by_cases same : r.pattern = pattern
    · exact .inr ⟨[], r, rest, rfl, same, by simp [reinforceFirst, same]⟩
    · rcases ih with ⟨none, others⟩ | ⟨before, q, after, rfl, named, found⟩
      · exact .inl ⟨by simp [reinforceFirst, same, none], by simpa [same] using others⟩
      · exact .inr ⟨r :: before, q, after, rfl, named, by simp [reinforceFirst, same, found]⟩

theorem setCompiled_new {key : String} (c : Except Failure Compiled)
    {kept : List (String × Except Failure Compiled)} (new : ∀ e ∈ kept, e.1 ≠ key) :
    setCompiled key c kept = kept ++ [(key, c)] := by
  induction kept with
  | nil => rfl
  | cons e rest ih =>
    obtain ⟨first, later⟩ := List.forall_mem_cons.mp new
    rw [setCompiled, if_neg (by simpa using first), ih later, List.cons_append]

theorem eraseDups_concat (xs : List String) (x : String) :
    (xs ++ [x]).eraseDups = if x ∈ xs then xs.eraseDups else xs.eraseDups ++ [x] := by
  by_cases seen : x ∈ xs <;>
    simp [List.eraseDups_append, List.removeAll, List.eraseDups_cons, seen]

/-- The stored patterns are those of the candidates. -/
theorem Tally.mem_iff (tally : Tally seen s) (pattern : String) :
    (∃ r ∈ s.rules, r.pattern = pattern) ↔ ∃ q ∈ seen, q.pattern = pattern := by
  have same := congrArg (pattern ∈ ·) tally.order
  simpa using same

/-- A candidate with a stored pattern is counted. -/
theorem Tally.reinforced (tally : Tally seen s) (few : seen.length + 1 < 2 ^ 32)
    {before after : List Rule} {c r : Rule} (split : s.rules = before ++ r :: after)
    (same : r.pattern = c.pattern) (confidence : Float) :
    Tally (seen ++ [c]) { s with rules :=
      before ++ { r with frequency := r.frequency + 1, confidence := confidence } :: after } := by
  obtain ⟨distinct, order, rules, total, compiled⟩ := tally
  rw [split] at distinct order rules total compiled
  have inside : r ∈ before ++ r :: after := by simp
  have again := (rules r inside).again same.symm few confidence
  have others : ∀ q ∈ before ++ after, q.pattern ≠ c.pattern := by
    intro q member equal
    rw [List.map_append, List.map_cons, List.nodup_middle, List.nodup_cons, ← List.map_append] at distinct
    exact distinct.1 (List.mem_map.mpr ⟨q, member, equal.trans same.symm⟩)
  refine ⟨by simpa using distinct, ?_, ?_, ?_, by simpa using compiled⟩
  · have known : c.pattern ∈ seen.map (·.pattern) := by
      rw [← List.mem_eraseDups, ← order, ← same]
      exact List.mem_map_of_mem inside
    rw [@List.map_append _ _ _ seen, List.map_singleton, eraseDups_concat, if_pos known, ← order]
    simp
  · intro q member
    rcases List.mem_append.mp member with first | rest
    · exact (rules q (by simp [first])).other (others q (by simp [first])).symm
    · rcases List.mem_cons.mp rest with rfl | last
      · exact again
      · exact (rules q (by simp [last])).other (others q (by simp [last])).symm
  · have raised := again.frequency
    have counted := (rules r inside).frequency
    dsimp only at raised
    rw [List.countP_append, List.countP_singleton, ← counted] at raised
    simp only [same, beq_self_eq_true, if_true] at raised
    simp only [List.map_append, List.map_cons, List.sum_append, List.sum_cons, List.length_append,
      List.length_singleton, raised] at total ⊢
    omega

/-- A candidate with a new pattern is stored and compiled. -/
theorem Tally.added (tally : Tally seen s) {c : Rule} (once : c.frequency = 1)
    (new : ∀ r ∈ s.rules, r.pattern ≠ c.pattern) :
    Tally (seen ++ [c]) { s.withCompiled c with rules := s.rules ++ [c] } := by
  have unseen : ∀ q ∈ seen, q.pattern ≠ c.pattern := by
    intro q member equal
    obtain ⟨r, inside, shown⟩ := (tally.mem_iff c.pattern).mpr ⟨q, member, equal⟩
    exact new r inside shown
  refine ⟨?_, ?_, ?_, by simp [tally.total, once], ?_⟩
  · rw [List.map_append, List.map_singleton, List.nodup_append]
    refine ⟨tally.distinct, List.nodup_singleton _, ?_⟩
    intro p member q last
    obtain ⟨r, inside, rfl⟩ := List.mem_map.mp member
    rw [List.mem_singleton.mp last]
    exact new r inside
  · rw [List.map_append, List.map_append, List.map_singleton, eraseDups_concat, if_neg, tally.order]
    simpa using unseen
  · intro r member
    rcases List.mem_append.mp member with before | last
    · exact (tally.rules r before).other (new r before).symm
    · rw [List.mem_singleton.mp last]
      exact standsFor_itself unseen once
  · show setCompiled c.pattern _ s.compiled = _
    rw [setCompiled_new, tally.compiled, List.map_append, List.map_singleton]
    rw [tally.compiled]
    simpa using new

theorem Tally.add (tally : Tally seen s) {c : Rule} (once : c.frequency = 1)
    (few : seen.length + 1 < 2 ^ 32) : Tally (seen ++ [c]) (s.add c).2 := by
  unfold Store.add
  rcases reinforceFirst_eq s.config.delta c.pattern s.rules with
    ⟨none, new⟩ | ⟨before, r, after, split, same, found⟩
  · rw [none]
    exact tally.added once new
  · rw [found]
    exact tally.reinforced few split same _

theorem tally_addAll (config : Config) {seen : List Rule} (once : ∀ c ∈ seen, c.frequency = 1)
    (few : seen.length < 2 ^ 32) : Tally seen ((empty config).addAll seen) := by
  induction seen using List.reverseRecOn with
  | nil => exact tally_empty config
  | append_singleton seen c ih =>
    rw [List.length_append, List.length_singleton] at few
    have before := ih (fun q member => once q (List.mem_append_left _ member)) (by omega)
    rw [addAll, List.foldl_append, List.foldl_cons, List.foldl_nil]
    exact before.add (once c (by simp)) few

/-- Fewer than 2 ^ 32 observations that are added to an empty store leave rules with different
patterns, in the order in which these came first. Each rule has the replacement, the layer and the
description of the first observation with its pattern, and counts the observations with it, so the
frequencies add up to the number of observations; and the store keeps the compiled form of each rule,
and no other. -/
theorem store_tallies (config : Config) (observed : List Observation)
    (few : observed.length < 2 ^ 32) :
    let candidates := observed.map Observation.rule
    let s := (empty config).addAll candidates
    (s.rules.map (·.pattern)).Nodup ∧
    s.rules.map (·.pattern) = (observed.map (·.pattern)).eraseDups ∧
    (∀ r ∈ s.rules, ∃ first, observed.find? (·.pattern == r.pattern) = some first ∧
      r.replacement = first.replacement ∧ r.layer = first.layer ∧
      r.description = first.description ∧
      r.frequency.toNat = observed.countP (·.pattern == r.pattern)) ∧
    (s.rules.map (·.frequency.toNat)).sum = observed.length ∧
    s.compiled = s.rules.map fun r => (r.pattern, compile r.pattern r.replacement) := by
  intro candidates s
  have once : ∀ c ∈ candidates, c.frequency = 1 := by
    intro c member
    obtain ⟨o, -, rfl⟩ := List.mem_map.mp member
    rfl
  have tally : Tally candidates s := tally_addAll config once (by simpa [candidates] using few)
  refine ⟨tally.distinct, ?_, ?_, by rw [tally.total, List.length_map], tally.compiled⟩
  · rw [tally.order, List.map_map]
    rfl
  · intro r member
    obtain ⟨⟨q, found, fields⟩, frequency⟩ := tally.rules r member
    rw [List.find?_map, Option.map_eq_some_iff] at found
    obtain ⟨first, found, rfl⟩ := found
    rw [List.countP_map] at frequency
    exact ⟨first, found, fields.1, fields.2.1, fields.2.2, frequency⟩

/-- A pattern that is observed twice, with another one in between. -/
def threeObservations : List Observation :=
  [⟨"x/", "1", 0.9, .patterns, "first"⟩, ⟨"y/", "2", 0.9, .patterns, "second"⟩,
    ⟨"x/", "3", 0.5, .components, "third"⟩]

theorem store_tallies_twice :
    let s := (empty {}).addAll (threeObservations.map Observation.rule)
    threeObservations.length < 2 ^ 32 ∧
    s.rules.map (fun r => (r.pattern, r.replacement, r.layer, r.description, r.frequency)) =
      [("x/", "1", .patterns, "first", 2), ("y/", "2", .patterns, "second", 1)] ∧
    (s.rules.map (·.pattern)).Nodup ∧
    (s.rules.map (·.frequency.toNat)).sum = 3 ∧
    s.compiled = s.rules.map fun r => (r.pattern, compile r.pattern r.replacement) := by
  intro s
  have few : threeObservations.length < 2 ^ 32 := by decide
  obtain ⟨distinct, -, -, total, compiled⟩ := store_tallies {} threeObservations few
  exact ⟨few, by decide +kernel, distinct, total, compiled⟩

end Store

end SourceRepair.Learning
