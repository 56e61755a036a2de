import SourceRepair.Proofs.Repair.Given
import SourceRepair.Proofs.Script.Coverage
import SourceRepair.Proofs.Script.Walk
import SourceRepair.Repair.Markup

/-!
# Keys and the names around them

A callback that is given the parameter `index` declares one more name. It captures the references to
`index` that are free in it; every other reference stays what it is: `keyed_references`.
-/

namespace SourceRepair.Script

/-! ### What a name refers to -/

/-- The scope that a name at a place refers to, by its number. Scopes are listed from the outside
in, so it is the last one that covers the place and declares the name. -/
def binding? (name : String) (place : Span) : List Scope → Option Nat
  | [] => none
  | s :: rest =>
    match binding? name place rest with
    | some k => some (k + 1)
    | none => if s.span.covers place && s.names.contains name then some 0 else none

variable {name : String} {place : Span}

theorem binding?_isSome (scopes : List Scope) :
    (binding? name place scopes).isSome = isBound scopes name place := by
  induction scopes with
  | nil => rfl
  | cons s rest ih =>
    rw [binding?, isBound, List.any_cons, ← isBound, ← ih]
    cases binding? name place rest with
    | some k => exact (Bool.or_true _).symm
    | none =>
      cases s.span.covers place && s.names.contains name <;> rfl

theorem binding?_append (outer inner : List Scope) :
    binding? name place (outer ++ inner) =
      match binding? name place inner with
      | some k => some (outer.length + k)
      | none => binding? name place outer := by
  induction outer with
  | nil =>
    cases found : binding? name place inner with
    | some k => simp [found]
    | none => simp [found, binding?]
  | cons s outer ih =>
    rw [List.cons_append, binding?, ih]
    cases found : binding? name place inner with
    | some k => simp; omega
    | none => rfl

theorem lt_of_binding? {scopes : List Scope} {k : Nat} (found : binding? name place scopes = some k) :
    k < scopes.length := by
  induction scopes generalizing k with
  | nil => cases found
  | cons s rest ih =>
    rw [binding?] at found
    cases inner : binding? name place rest with
    | some j =>
      rw [inner] at found
      cases found
      exact Nat.succ_lt_succ (ih inner)
    | none =>
      rw [inner] at found
      dsimp only at found
      split at found <;> cases found
      exact Nat.succ_pos _

/-- A scope in the middle of others that declares one more name takes the references that went past
it, and no others. -/
theorem binding?_declaring (own extended : Scope) {added : String} (outer rest : List Scope)
    (span : extended.span = own.span)
    (names : ∀ n, n ∈ extended.names ↔ n = added ∨ n ∈ own.names) :
    binding? name place (outer ++ extended :: rest) =
      if name = added ∧ own.span.covers place ∧
          (binding? name place (outer ++ own :: rest)).all (· < outer.length) then
        some outer.length
      else binding? name place (outer ++ own :: rest) := by
  rw [binding?_append, binding?_append, binding?, binding?, span]
  cases inner : binding? name place rest with
  | some k => simp
  | none =>
    have past : (binding? name place outer).all (· < outer.length) = true := by
      cases found : binding? name place outer with
      | none => rfl
      | some k => exact decide_eq_true (lt_of_binding? found)
    by_cases covers : own.span.covers place = true
    · by_cases declared : name ∈ own.names
      · have again : name ∈ extended.names := (names name).mpr (.inr declared)
        simp [covers, declared, again]
      · have missing : own.names.contains name = false := by simpa using declared
        have extra : extended.names.contains name = decide (name = added) := by
          rw [Bool.eq_iff_iff, List.contains_iff_mem, names, decide_eq_true_iff, or_iff_left declared]
        rw [missing, extra]
        by_cases same : name = added
        · subst same
          simp [covers, past]
        · simp [covers, same]
    · simp [covers]

/-! ### The scopes of a tree among those of a program -/

theorem scopes_of_size_le {t : Tree} {fuel : Nat} (enough : t.size ≤ fuel) :
    t.scopes fuel = t.scopes t.size := by
  induction size : t.size using Nat.strongRecOn generalizing t fuel with
  | ind n ih =>
    subst size
    have positive := size_eq t
    obtain ⟨fuel, rfl⟩ : ∃ n, fuel = n + 1 := ⟨fuel - 1, by omega⟩
    obtain ⟨least, size⟩ : ∃ n, t.size = n + 1 := ⟨t.size - 1, by omega⟩
    rw [size, Tree.scopes, Tree.scopes]
    congr 1
    refine List.flatMap_congr fun u child => ?_
    have smaller := size_lt_of_child child
    exact (ih _ smaller (by omega) rfl).trans (ih _ smaller (by omega) rfl).symm

/-- All scopes in a tree. -/
def Tree.allScopes (t : Tree) : List Scope := t.scopes t.size

theorem allScopes_eq (t : Tree) :
    t.allScopes = t.scope?.toList ++ t.children.flatMap Tree.allScopes := by
  rw [Tree.allScopes, ← scopes_of_size_le (Nat.le_succ t.size), Tree.scopes]
  congr 1
  exact List.flatMap_congr fun u child => scopes_of_size_le (Nat.le_of_lt (size_lt_of_child child))

/-- The scopes in a tree stand together among those of a tree around it. -/
theorem Tree.Inside.scopes {t u : Tree} (inside : t.Inside u) :
    ∃ outer later, t.allScopes = outer ++ u.allScopes ++ later := by
  induction inside with
  | here => exact ⟨[], [], by simp⟩
  | @deeper u v _ child ih =>
    obtain ⟨outer, later, scopes⟩ := ih
    obtain ⟨before, after, siblings⟩ := List.append_of_mem child
    refine ⟨outer ++ u.scope?.toList ++ before.flatMap allScopes, after.flatMap allScopes ++ later, ?_⟩
    rw [scopes, allScopes_eq u, siblings, List.flatMap_append, List.flatMap_cons]
    simp only [List.append_assoc]

theorem scopes_of_inside {p : Program} {s u : Tree} (member : s ∈ p.body) (inside : s.Inside u) :
    ∃ outer later, p.scopes = outer ++ u.allScopes ++ later := by
  obtain ⟨before, after, body⟩ := List.append_of_mem member
  obtain ⟨outer, later, scopes⟩ := inside.scopes
  refine ⟨⟨p.span, Tree.bodyNames p.body⟩ :: (before.flatMap Tree.allScopes ++ outer),
    later ++ after.flatMap Tree.allScopes, ?_⟩
  change _ :: p.body.flatMap Tree.allScopes = _
  rw [body, List.flatMap_append, List.flatMap_cons, scopes]
  simp only [List.cons_append, List.append_assoc]

/-- The tree of a node below a program stands inside one of its statements. -/
theorem inside_of_below {p : Program} {n : Node} (below : (Node.program p).Below n) :
    n = .program p ∨ ∃ role u, n = .tree role u ∧ ∃ s ∈ p.body, s.Inside u := by
  induction below with
  | here => exact .inl rfl
  | step _ child ih =>
    right
    rcases ih with rfl | ⟨role, u, rfl, s, member, inside⟩
    · obtain ⟨s, member, rfl⟩ := List.mem_map.mp child
      exact ⟨.statement, s, rfl, s, member, .here⟩
    · obtain ⟨role', v, rfl, deeper⟩ := inside_of_child child
      exact ⟨role', v, rfl, s, member, inside.trans deeper⟩

theorem Tree.inside_stripParens (t : Expr) : t.Inside t.stripParens := by
  induction t using Tree.rec_children with
  | step t ih =>
    cases t with
    | paren inner s => exact .trans (.deeper .here List.mem_cons_self) (ih inner List.mem_cons_self)
    | _ => exact .here

end SourceRepair.Script

namespace SourceRepair.Repair

open Script

/-! ### Callbacks -/

/-- The function as a tree. -/
def Arrow.tree (f : Arrow) : Tree := .arrow f.head f.params f.body

/-- The function with the parameter `index` behind its others, written at some place. -/
def Arrow.indexed (f : Arrow) (place : Span) : Tree :=
  .arrow f.head (f.params ++ [.param [] (.name "index" place) place]) f.body

theorem element?_eq {t e : Tree} (found : t.element? = some e) : e = t := by
  cases t <;> first | cases found; done | exact (Option.some.inj found).symm

theorem inside_of_mapCallback? {e : Expr} {f : Arrow} (called : mapCallback? e = some f) :
    e.Inside f.tree := by
  cases e with
  | call callee args optional s =>
    unfold mapCallback? at called
    dsimp only at called
    split at called
    · split at called
      · split at called
        · next found =>
          obtain ⟨a, given, stripped⟩ := Option.map_eq_some_iff.mp found
          obtain ⟨b, among, element⟩ := Option.bind_eq_some_iff.mp given
          cases element?_eq element
          have child : a ∈ (Tree.call callee args optional s).children :=
            List.mem_cons_of_mem _ (List.mem_of_getElem? among)
          have inside := a.inside_stripParens
          rw [stripped] at inside
          cases called
          exact .trans (.deeper .here child) inside
        · cases called
      · cases called
    · cases called
  | _ => cases called

theorem boundNamesList_eq (ps : List Tree) : boundNamesList ps = ps.flatMap Tree.boundNames := by
  induction ps with
  | nil => rfl
  | cons t ts ih => exact congrArg (t.boundNames ++ ·) ih

theorem patternNames_append (ps qs : List Tree) :
    patternNames (ps ++ qs) = patternNames ps ++ patternNames qs := by
  simp only [patternNames, boundNamesList_eq, List.flatMap_append, List.map_append]

/-- The names that the body of the function declares for it. -/
def Arrow.bodyNames (f : Arrow) : List String :=
  match f.body with
  | .body _ statements _ => Tree.bodyNames statements
  | _ => []

/-- The scope that the function opens, with some more parameters. -/
def Arrow.scope (f : Arrow) (more : List String) : Scope :=
  ⟨f.head.span, patternNames f.params ++ more ++ f.bodyNames⟩

/-- The scopes inside the function. -/
def Arrow.innerScopes (f : Arrow) : List Scope :=
  f.params.flatMap Tree.allScopes ++ f.body.allScopes

theorem tree_scopes (f : Arrow) : f.tree.allScopes = f.scope [] :: f.innerScopes := by
  rw [Arrow.scope, List.append_nil]
  refine (allScopes_eq f.tree).trans (congrArg (_ :: ·) ?_)
  change [] ++ (f.params ++ [f.body]).flatMap Tree.allScopes = _
  rw [List.nil_append, List.flatMap_append, List.flatMap_singleton]
  rfl

/-- The parameter adds its name to the scope of the function and leaves the scopes inside alone. -/
theorem indexed_scopes (f : Arrow) (place : Span) :
    (f.indexed place).allScopes = f.scope ["index"] :: f.innerScopes := by
  let index : Tree := .param [] (.name "index" place) place
  have bare : index.allScopes = [] := rfl
  have names : patternNames (f.params ++ [index]) = patternNames f.params ++ ["index"] :=
    patternNames_append ..
  rw [Arrow.scope, ← names, allScopes_eq]
  refine congrArg (_ :: ·) ?_
  change [] ++ (f.params ++ [index] ++ [f.body]).flatMap Tree.allScopes = _
  rw [List.nil_append, List.flatMap_append, List.flatMap_append, List.flatMap_singleton,
    List.flatMap_singleton, bare, List.append_nil]
  rfl

/-- With the parameter `index` the function captures the references to that name that are free in it,
and all other references of the program stay what they are. -/
def Arrow.CapturesFree (f : Arrow) (p : Program) : Prop :=
  ∃ outer later, p.scopes = outer ++ f.tree.allScopes ++ later ∧
    ∀ written name place, binding? name place (outer ++ (f.indexed written).allScopes ++ later) =
      if name = "index" ∧ f.head.span.covers place ∧
          (binding? name place p.scopes).all (· < outer.length) then
        some outer.length
      else binding? name place p.scopes

theorem capturesFree {p : Program} {f : Arrow} {outer later : List Scope}
    (scopes : p.scopes = outer ++ f.tree.allScopes ++ later) : f.CapturesFree p := by
  refine ⟨outer, later, scopes, fun written name place => ?_⟩
  have names : ∀ n, n ∈ (f.scope ["index"]).names ↔ n = "index" ∨ n ∈ (f.scope []).names := by
    intro n
    simp only [Arrow.scope, List.mem_append, List.mem_singleton, List.not_mem_nil, or_false]
    rw [or_comm (b := n = "index"), or_assoc]
  rw [scopes, tree_scopes, indexed_scopes]
  simp only [List.append_assoc, List.cons_append]
  exact binding?_declaring (f.scope []) (f.scope ["index"]) outer (f.innerScopes ++ later) rfl names

theorem scopes_of_mapCallbacks {p : Program} {f : Arrow} (mapped : f ∈ mapCallbacks p) :
    ∃ outer later, p.scopes = outer ++ f.tree.allScopes ++ later := by
  obtain ⟨v, visited, called⟩ := List.mem_filterMap.mp mapped
  have below := (of_mem_walkFrom visited).1
  split at called
  · next e node =>
    rw [node] at below
    rcases inside_of_below below with impossible | ⟨role, u, same, s, member, inside⟩
    · cases impossible
    · cases same
      exact scopes_of_inside member (inside.trans (inside_of_mapCallback? called))
  · cases called

/-- A function is given the parameter if it has just one, which is no rest parameter. -/
theorem index?_cases {f : Arrow} {text : List Char} {name : String} {edits : List Edit}
    (found : f.index? text = some (name, edits)) :
    edits = [] ∨ name = "index" ∧ ∃ first, f.params = [first] ∧
      (edits = [.insert first.span.stop ", index"] ∨
        edits = [.replace first.span
          ("(" ++ String.ofList (Text.slice text first.span) ++ ", index)")]) := by
  unfold Arrow.index? at found
  dsimp only at found
  split at found
  · obtain ⟨n, -, same⟩ := Option.map_eq_some_iff.mp found
    cases same
    exact .inl rfl
  · next first items =>
    split at found
    · cases found
    · next lengths =>
      have alone : f.params = [first] :=
        (List.filter_sublist.eq_of_length (by simpa using lengths)).symm.trans items
      split at found <;> cases found
      · exact .inr ⟨rfl, first, alone, .inl rfl⟩
      · exact .inr ⟨rfl, first, alone, .inr rfl⟩
  · cases found

/-- A callback that names the index of its items keeps its parameters. One with a single parameter
is given `index` behind it, whatever `index` stands for in the callback. -/
theorem keyed_references {p : Program} {f : Arrow} {text : List Char} {d : Draft}
    (mapped : f ∈ mapCallbacks p) (keyed : f.key? text = some d) :
    ∃ e name edits, f.returned? = some e ∧ f.index? text = some (name, edits) ∧
      d.edits = edits ++ [e.addAttribute ("key=\x7b" ++ name ++ "\x7d")] ∧
      (edits = [] ∨ name = "index" ∧ f.CapturesFree p ∧ ∃ first, f.params = [first] ∧
        (edits = [.insert first.span.stop ", index"] ∨
          edits = [.replace first.span
            ("(" ++ String.ofList (Text.slice text first.span) ++ ", index)")])) := by
  obtain ⟨outer, later, scopes⟩ := scopes_of_mapCallbacks mapped
  unfold Arrow.key? at keyed
  obtain ⟨e, returned, keyed⟩ := Option.bind_eq_some_iff.mp keyed
  split at keyed
  · cases keyed
  · obtain ⟨⟨name, edits⟩, index, keyed⟩ := Option.bind_eq_some_iff.mp keyed
    cases keyed
    refine ⟨e, name, edits, returned, index, rfl, ?_⟩
    rcases index?_cases index with none | ⟨same, alone⟩
    · exact .inl none
    · exact .inr ⟨same, capturesFree scopes, alone⟩

set_option maxRecDepth 100000

theorem keyed_references_item :
    let text := "x = xs.map((a) => <li>\x7bindex\x7d</li>);\n"
    ∃ p f d, parse? .strict ⟨false, false, true, .module⟩ text = some p ∧ f ∈ mapCallbacks p ∧
      f.key? text.toList = some d ∧ d.edits.length = 2 ∧ f.CapturesFree p := by
  intro text
  have found : (parse? .strict ⟨false, false, true, .module⟩ text).map (fun p =>
      (mapCallbacks p).any fun f => (f.key? text.toList).any fun d => d.edits.length = 2) = some true := by
    decide +kernel
  obtain ⟨p, read, found⟩ := Option.map_eq_some_iff.mp found
  obtain ⟨f, mapped, found⟩ := List.any_eq_true.mp found
  obtain ⟨d, keyed, two⟩ := (Option.any_eq_true ..).mp found
  have two := of_decide_eq_true two
  obtain ⟨e, name, edits, -, -, written, rfl | ⟨-, captures, -⟩⟩ := keyed_references mapped keyed
  · rw [written] at two
    cases two
  · exact ⟨p, f, d, read, mapped, keyed, two, captures⟩

/-- The name stands at the place as an expression. -/
def usesAt (p : Program) (name : String) (place : Span) : Bool :=
  (p.walk.filterMap (·.node.expression?)).any fun e => e.identifier? == some name && e.span == place

/-- A reference to the `index` of the program becomes one to that of the callback. -/
theorem index_captured :
    let file : SourceFile := ⟨⟨"a.jsx"⟩, .script ⟨false, false, true, .module⟩, none⟩
    let text := "let index = 0;\nx = xs.map((a) => <li>\x7bindex\x7d</li>);\n"
    ∃ (p q : Program) (done : Rewrite),
      parseScript .strict file text = .ok p ∧ Repair.applyAll [listKeys] .strict file text = .ok done ∧
      parseScript .strict file done.code = .ok q ∧
      usesAt p "index" ⟨38, 43⟩ ∧ binding? "index" ⟨38, 43⟩ p.scopes = some 0 ∧
      usesAt q "index" ⟨57, 62⟩ ∧ binding? "index" ⟨57, 62⟩ q.scopes = some 1 := by
  intro file text
  let dialect : Dialect := ⟨false, false, true, .module⟩
  let code := "let index = 0;\nx = xs.map((a, index) => <li key=\x7bindex\x7d>\x7bindex\x7d</li>);\n"
  let d : Draft := ⟨[.insert 28 ", index", .insert 36 " key=\x7bindex\x7d"],
    [(.keyAdded, "added key=\x7bindex\x7d to an element rendered by .map()", 33)], []⟩
  have before : (parse? .strict dialect text).map (fun p =>
      (usesAt p "index" ⟨38, 43⟩, binding? "index" ⟨38, 43⟩ p.scopes)) = some (true, some 0) := by
    decide +kernel
  obtain ⟨p, read, before⟩ := Option.map_eq_some_iff.mp before
  obtain ⟨used, outside⟩ := Prod.mk.inj before
  have after : (parse? .strict dialect code).map (fun q =>
      (usesAt q "index" ⟨57, 62⟩, binding? "index" ⟨57, 62⟩ q.scopes)) = some (true, some 1) := by
    decide +kernel
  obtain ⟨q, again, after⟩ := Option.map_eq_some_iff.mp after
  obtain ⟨kept, inside⟩ := Prod.mk.inj after
  have drafted : (parse? .strict dialect text).map
      (fun p => listKeys.draft ⟨p, text.toList, file⟩) = some d := by
    decide +kernel
  have spliced : (Edit.splice d.edits 0 text.toList).toOption = some code.toList := by
    decide +kernel
  have finished := d.finish_of_text (by decide) (by decide) spliced
  have valid : (parse? .strict dialect code).isSome = true := Option.isSome_iff_exists.mpr ⟨q, again⟩
  exact ⟨p, q, _, parseScript_of_parse rfl read, applyAll_of_draft rfl drafted finished valid,
    parseScript_of_parse rfl again, used, outside, kept, inside⟩

end SourceRepair.Repair
