import SourceRepair.Proofs.Guards.Found
import SourceRepair.Proofs.Repair.Recorded
import SourceRepair.Proofs.Text.Offset

/-!
# What changes are about

Each change that a repair records is about a construct of the program that the repair was given: a
node of its tree, or the place where a line is put. `Construct` says for each kind of change and its
description what that is and at which offset it starts, and every repair records its changes there.
-/

namespace SourceRepair.Repair

open Script (Tree Node Visit Program Expr ImportDecl)

/-- What a change with a description is about, and the offset of its start in the text. -/
inductive Construct (src : Source) : ChangeKind → String → Nat → Prop
  /-- A property of an object literal that the framework no longer knows. -/
  | flag {properties : List Tree} {span : Span} {above : List Node} {p : Tree} {key : String}
      (object : ⟨.tree .expression (.object properties span), above⟩ ∈ src.program.walk)
      (member : p ∈ properties) (named : propertyName? p = some key)
      (obsolete : key = "swcMinify" ∨ isExperimental span above = true ∧ key = "appDir") :
      Construct src .configNormalized "removed an obsolete Next.js config flag" p.span.start
  /-- A string literal with entities. -/
  | literal {value : String} {span : Span} {above : List Node} {decoded : List Char}
      (string : ⟨.tree .expression (.string value span), above⟩ ∈ src.program.walk)
      (entities : Text.decodeLiteral? (Text.slice src.text span) = some decoded) :
      Construct src .entityDecoded "decoded HTML entities in a string literal" span.start
  /-- A diagnostic statement. -/
  | diagnostic {s : Tree} {above : List Node} {what : String}
      (statement : ⟨.tree .statement s, above⟩ ∈ src.program.walk)
      (writes : diagnostic? s = some what) :
      Construct src .diagnosticRemoved ("removed \x60" ++ what ++ "\x60 statement") s.span.start
  /-- The keyword of a declaration by `var`. -/
  | keyword {ds : List Tree} {span : Span} {above : List Node}
      (declaration : ⟨.tree .variableDeclaration (.declaration .var ds span), above⟩ ∈ src.program.walk)
      (stands : Text.StandsAt "var".toList src.text span.start) :
      Construct src .apiMigrated "replaced \x60var\x60 with \x60let\x60" span.start
  /-- An element without a key that a callback of `map` gives back. -/
  | item {call : Expr} {above : List Node} {f : Arrow} {e : Element} {index : String}
      (calls : ⟨.tree .expression call, above⟩ ∈ src.program.walk)
      (callback : mapCallback? call = some f) (returned : f.returned? = some e)
      (missing : e.has "key" = false) :
      Construct src .keyAdded
        ("added " ++ ("key=\x7b" ++ index ++ "\x7d") ++ " to an element rendered by .map()")
        e.opening.start
  /-- An element that lacks an attribute of its tag. -/
  | tag {t : Tree} {above : List Node} {e : Element} {name key text : String}
      (element : ⟨.tree .jsxElement t, above⟩ ∈ src.program.walk) (shown : element? t = some e)
      (required : (name, key, text) ∈ requiredAttributes) (named : e.name.simple? = some name)
      (missing : e.has key = false) :
      Construct src .attributeAdded ("added " ++ text ++ " to <" ++ name ++ ">") e.opening.start
  /-- An import of the same module and kind as another one, which takes its names. -/
  | duplicate {first d : ImportDecl} (kept : first ∈ src.program.imports)
      (imported : d ∈ src.program.imports) (same : sameImport first d = true) :
      Construct src .importMerged ("merged duplicate import from \"" ++ d.source ++ "\"") d.span.start
  /-- The import of the module `react`. -/
  | reactImport {d : ImportDecl} (imported : d ∈ src.program.imports) (source : d.source = "react") :
      Construct src .importAdded "added the default React import" d.span.start
  /-- The place behind the directives. -/
  | prologue :
      Construct src .importAdded "imported React for React.* references"
        (src.program.prologueEnd src.text)
  /-- A statement of an effect that registers something. -/
  | registration {call : Expr} {above : List Node} {statements : List Tree} {s : Tree} {undo : String}
      (calls : ⟨.tree .expression call, above⟩ ∈ src.program.walk) (effect : call.isEffectHook = true)
      (body : effectBody? call = some statements) (member : s ∈ statements)
      (registers : statementTeardown? src.text s = some (.undo undo)) :
      Construct src .cleanupAdded ("added \x60" ++ undo ++ "\x60 to the effect cleanup") s.span.start
  /-- What a guard goes around for a use of a browser global. -/
  | guarded {root : String} {span : Span} {above : List Node} {g : Guard}
      (use : ⟨.tree .expression (.identifier root span), above⟩ ∈ src.program.walk)
      (isGlobal : root ∈ browserGlobals) (around : guardFor? root (growChain span above) = some g) :
      Construct src .guardAdded ("guarded \x60" ++ g.root ++ "\x60 access with a typeof check")
        g.span.start
  /-- The place of the first statement. -/
  | top :
      Construct src .directivePlaced "added \x27use client\x27 as the first statement"
        (src.program.hashbangEnd src.text)
  /-- A copy of the client directive that does not stand first. -/
  | misplaced {span : Span} (copied : span ∈ misplacedDirectives src.program) :
      Construct src .directivePlaced "removed a misplaced or duplicate \x27use client\x27" span.start
  /-- The module that an import of the router names. -/
  | router {d : ImportDecl} (imported : d ∈ src.program.imports) (source : d.source = "next/router") :
      Construct src .apiMigrated "moved next/router import to next/navigation" d.sourceSpan.start
  /-- The anchor that is all a link holds. -/
  | anchor {t : Tree} {above : List Node} {link inner : Element} {closing : Span}
      (element : ⟨.tree .jsxElement t, above⟩ ∈ src.program.walk) (shown : element? t = some link)
      (named : link.name.simple? = some "Link") (lone : link.anchor? = some (inner, closing)) :
      Construct src .apiMigrated "moved <a> attributes onto <Link> and dropped the anchor"
        inner.span.start
  /-- A call that renders into a container. -/
  | rendering {callee : Tree} {args : List Tree} {optional : Bool} {span : Span} {above : List Node}
      (calls : ⟨.tree .expression (.call callee args optional span), above⟩ ∈ src.program.walk)
      (named : callee.dottedName? = some "ReactDOM.render") :
      Construct src .apiMigrated "replaced ReactDOM.render with createRoot().render" span.start
  /-- The module that an import of `ReactDOM` names. -/
  | reactDom {d : ImportDecl} (imported : d ∈ src.program.imports) (source : d.source = "react-dom") :
      Construct src .apiMigrated "imported ReactDOM from react-dom/client" d.sourceSpan.start
  /-- The place behind the imported helpers, or behind the imports. -/
  | helper {name : String} (missing : name ∈ missingHelpers src.program) :
      Construct src .importAdded ("imported \x60" ++ name ++ "\x60 from " ++ testingLibrary)
        ((helperSlot? src.program).getD (src.program.importsEnd src.text))
  /-- The place behind the imports. -/
  | matchers (used : usesMatchers src.program = true) :
      Construct src .importAdded "imported @testing-library/jest-dom matchers"
        (src.program.importsEnd src.text)
  /-- The callback of a test that waits. -/
  | waiting {argument : Expr} {span : Span} {above outer : List Node} {callback : Expr}
      (waits : ⟨.tree .expression (.await argument span), above⟩ ∈ src.program.walk)
      (nearest : syncFunction? above = some (callback, outer)) :
      Construct src .testScaffold "marked an awaiting test callback async" callback.span.start

end SourceRepair.Repair

namespace SourceRepair

/-- The condition holds of all changes of a draft. -/
def Draft.All (P : ChangeKind → String → Nat → Prop) (d : Draft) : Prop :=
  ∀ c ∈ d.changes, P c.1 c.2.1 c.2.2

namespace Draft

variable {P : ChangeKind → String → Nat → Prop}

theorem all_empty : Draft.All P {} := nofun

theorem all_change {edits : List Edit} {kind : ChangeKind} {description : String} {offset : Nat}
    (holds : P kind description offset) : (change edits kind description offset).All P :=
  fun _ member => List.mem_singleton.mp member ▸ holds

theorem All.append {a b : Draft} (first : a.All P) (second : b.All P) : (a ++ b).All P := by
  intro c member
  rcases List.mem_append.mp member with left | right
  · exact first c left
  · exact second c right

theorem all_join {ds : List Draft} (all : ∀ d ∈ ds, d.All P) : (join ds).All P := by
  intro c member
  obtain ⟨d, inside, shown⟩ := List.mem_flatMap.mp member
  exact all d inside c shown

theorem all_join_filterMap {α : Type} {items : List α} {draft? : α → Option Draft}
    (all : ∀ a ∈ items, ∀ d, draft? a = some d → d.All P) :
    (join (items.filterMap draft?)).All P :=
  all_join (List.forall_mem_filterMap.mpr all)

theorem all_join_map {α : Type} {items : List α} {draft : α → Draft}
    (all : ∀ a ∈ items, (draft a).All P) : (join (items.map draft)).All P :=
  all_join (List.forall_mem_map.mpr all)

end Draft

namespace Repair

open Script (Tree Node Visit Program Expr ImportDecl)
open Draft (all_empty all_change all_join all_join_filterMap all_join_map)

/-- The repair records its changes at what they are about. -/
def Points (r : Repair) : Prop := ∀ src, (r.draft src).All (Construct src)

/-! ### Each repair -/

theorem of_mem_obsoleteFlags {experimental : Bool} {properties : List Tree} {i : Nat}
    (listed : i ∈ obsoleteFlags experimental properties) : ∃ p key, properties[i]? = some p ∧
      propertyName? p = some key ∧ (key = "swcMinify" ∨ experimental = true ∧ key = "appDir") := by
  obtain ⟨⟨p, j⟩, numbered, shown⟩ := List.mem_filterMap.mp listed
  dsimp only at shown
  split at shown
  · rename_i key named
    split at shown
    · rename_i obsolete
      cases shown
      exact ⟨p, key, List.mk_mem_zipIdx_iff_getElem?.mp numbered, named, by simpa using obsolete⟩
    · cases shown
  · cases shown

theorem points_nextConfigFlags : nextConfigFlags.Points := by
  intro src
  unfold nextConfigFlags
  dsimp only
  split
  · refine all_join_filterMap fun v visited d shown => ?_
    obtain ⟨node, above⟩ := v
    dsimp only at shown
    split at shown
    · rename_i properties span
      split at shown
      · cases shown
      · rename_i removed _ _
        cases shown
        intro c member
        obtain ⟨i, inside, rfl⟩ := List.mem_map.mp member
        obtain ⟨p, key, at_, named, obsolete⟩ := of_mem_obsoleteFlags inside
        have start : (((properties.map Tree.span)[i]?).getD span).start = p.span.start := by
          rw [List.getElem?_map, at_]
          rfl
        rw [start]
        exact .flag visited (List.mem_of_getElem? at_) named obsolete
    · cases shown
  · exact all_empty

theorem points_decodeEntities : decodeEntities.Points := by
  refine fun src => all_join_filterMap fun span listed d shown => ?_
  obtain ⟨decoded, entities, rfl⟩ := Option.map_eq_some_iff.mp shown
  obtain ⟨⟨node, above⟩, visited, literal⟩ := List.mem_filterMap.mp listed
  dsimp only at literal
  split at literal
  · cases literal
    exact all_change (.literal visited entities)
  · cases literal

theorem points_removeDiagnostics : removeDiagnostics.Points := by
  refine fun src => all_join_map fun d listed => all_change ?_
  obtain ⟨⟨node, above⟩, visited, shown⟩ := List.mem_filterMap.mp listed
  dsimp only at shown
  split at shown
  · obtain ⟨what, writes, rfl⟩ := Option.map_eq_some_iff.mp shown
    exact .diagnostic visited writes
  · cases shown

theorem points_varToLet : varToLet.Points := by
  refine fun src => all_join_map fun d listed => all_change ?_
  obtain ⟨declared, kept⟩ := List.mem_filter.mp listed
  obtain ⟨⟨node, above⟩, visited, shown⟩ := List.mem_filterMap.mp declared
  dsimp only at shown
  split at shown
  · cases shown
    rw [Bool.and_eq_true] at kept
    exact .keyword visited
      (Text.standsAt_of_slice (List.isPrefixOf_iff_prefix.mp kept.2) (by simp))
  · cases shown

theorem points_listKeys : listKeys.Points := by
  refine fun src => all_join_filterMap fun f listed d shown => ?_
  obtain ⟨⟨node, above⟩, visited, callback⟩ := List.mem_filterMap.mp listed
  obtain ⟨e, returned, shown⟩ := Option.bind_eq_some_iff.mp shown
  dsimp only at callback
  split at callback
  · split at shown
    · cases shown
    · rename_i bare
      obtain ⟨⟨index, edits⟩, _, shown⟩ := Option.bind_eq_some_iff.mp shown
      cases shown
      simp only [Bool.or_eq_true, not_or, Bool.not_eq_true] at bare
      exact all_change (.item visited callback returned bare.1)
  · cases callback

theorem of_mem_elements {p : Program} {e : Element} (listed : e ∈ elements p) :
    ∃ t above, ⟨.tree .jsxElement t, above⟩ ∈ p.walk ∧ element? t = some e := by
  obtain ⟨⟨node, above⟩, visited, shown⟩ := List.mem_filterMap.mp listed
  dsimp only at shown
  split at shown
  · exact ⟨_, above, visited, shown⟩
  · cases shown

theorem points_intrinsicAttributes : intrinsicAttributes.Points := by
  refine fun src => all_join_map fun e listed =>
    all_join_filterMap fun required inside d shown => ?_
  obtain ⟨t, above, visited, element⟩ := of_mem_elements listed
  obtain ⟨name, key, text⟩ := required
  dsimp only at shown
  split at shown
  · rename_i lacks
    cases shown
    simp only [Bool.and_eq_true, beq_iff_eq, Bool.not_eq_true'] at lacks
    exact all_change (.tag visited element inside lacks.1.1 lacks.1.2)
  · cases shown

theorem sameImport_iff {a b : ImportDecl} :
    sameImport a b = true ↔ a.source = b.source ∧ a.isType = b.isType := by
  simp [sameImport]

/-- The groups hold imports from a list, and those in a group are of one module and one kind. -/
def Grouped (ds : List ImportDecl) (gs : List (List ImportDecl)) : Prop :=
  ∀ g ∈ gs, ∀ a ∈ g, a ∈ ds ∧ ∀ b ∈ g, sameImport a b = true

theorem Grouped.addToGroup {ds : List ImportDecl} {gs : List (List ImportDecl)} (grouped : Grouped ds gs)
    {d : ImportDecl} (listed : d ∈ ds) : Grouped ds (addToGroup d gs) := by
  induction gs with
  | nil =>
    intro g member a inside
    obtain rfl := List.mem_singleton.mp member
    obtain rfl := List.mem_singleton.mp inside
    exact ⟨listed, fun b inside => sameImport_iff.mpr (List.mem_singleton.mp inside ▸ ⟨rfl, rfl⟩)⟩
  | cons first rest ih =>
    have others : Grouped ds rest := fun g member => grouped g (List.mem_cons_of_mem _ member)
    unfold Repair.addToGroup
    split
    · rename_i fits
      obtain ⟨k, among, like⟩ := List.any_eq_true.mp fits
      -- the new one is like all of the group, since it is like one of them
      have all : ∀ a ∈ first ++ [d], a ∈ ds ∧ sameImport a k = true := by
        intro a inside
        rcases List.mem_append.mp inside with before | last
        · exact ⟨(grouped first List.mem_cons_self a before).1,
            (grouped first List.mem_cons_self a before).2 k among⟩
        · obtain rfl := List.mem_singleton.mp last
          exact ⟨listed, like⟩
      intro g member a inside
      rcases List.mem_cons.mp member with rfl | later
      · refine ⟨(all a inside).1, fun b there => ?_⟩
        have left := sameImport_iff.mp (all a inside).2
        have right := sameImport_iff.mp (all b there).2
        exact sameImport_iff.mpr ⟨left.1.trans right.1.symm, left.2.trans right.2.symm⟩
      · exact others g later a inside
    · intro g member a inside
      rcases List.mem_cons.mp member with rfl | later
      · exact grouped g List.mem_cons_self a inside
      · exact ih others g later a inside

theorem grouped_groupImports (ds : List ImportDecl) : Grouped ds (groupImports ds) := by
  suffices all : ∀ (ks : List ImportDecl) (gs : List (List ImportDecl)), (∀ k ∈ ks, k ∈ ds) →
      Grouped ds gs → Grouped ds (ks.foldl (fun groups d => Repair.addToGroup d groups) gs) from
    all ds [] (fun _ member => member) nofun
  intro ks
  induction ks with
  | nil => exact fun _ _ grouped => grouped
  | cons k ks ih =>
    exact fun gs listed grouped => ih _ (fun j member => listed j (List.mem_cons_of_mem _ member))
      (grouped.addToGroup (listed k List.mem_cons_self))

theorem points_mergeImports : mergeImports.Points := by
  refine fun src => all_join_map fun group member => ?_
  have grouped := grouped_groupImports _ group member
  unfold mergeGroup
  split
  · rename_i first second others
    intro c told
    obtain ⟨d, inside, rfl⟩ := List.mem_map.mp told
    have start := grouped first List.mem_cons_self
    have later := List.mem_cons_of_mem first inside
    exact .duplicate (List.mem_filter.mp start.1).1 (List.mem_filter.mp (grouped d later).1).1
      (start.2 d later)
  · exact all_empty

theorem points_reactImport : reactImport.Points := by
  intro src
  unfold reactImport
  dsimp only
  split
  · exact all_empty
  · split
    · rename_i d brace found
      obtain ⟨k, first, shown⟩ := Option.bind_eq_some_iff.mp found
      obtain ⟨_, _, same⟩ := Option.map_eq_some_iff.mp shown
      cases same
      have chosen := List.find?_some first
      simp only [Bool.and_eq_true, beq_iff_eq] at chosen
      exact all_change (.reactImport (List.mem_of_find?_eq_some first) chosen.1.1)
    · exact all_change .prologue

theorem points_effectCleanup : effectCleanup.Points := by
  refine fun src => all_join_map fun statements listed => ?_
  obtain ⟨call, called, body⟩ := List.mem_filterMap.mp listed
  obtain ⟨⟨node, above⟩, visited, shown⟩ := List.mem_filterMap.mp called
  dsimp only at shown
  split at shown
  · split at shown
    · rename_i effect
      cases shown
      unfold effectDraft
      split
      · exact all_empty
      · split
        · exact all_empty
        · dsimp only
          split
          · exact nofun
          · intro c member
            obtain ⟨⟨undo, offset⟩, kept, rfl⟩ := List.mem_map.mp member
            obtain ⟨⟨t, k⟩, found, shown⟩ := List.mem_filterMap.mp kept
            obtain ⟨s, inside, registers⟩ := List.mem_filterMap.mp found
            obtain ⟨t', shows, same⟩ := Option.map_eq_some_iff.mp registers
            cases same
            split at shown
            · rename_i same
              cases shown
              cases same
              exact .registration visited effect body inside shows
            · cases shown
    · cases shown
  · cases shown

theorem points_browserGlobalGuards : browserGlobalGuards.Points := by
  refine fun src => all_join_map fun g listed => all_change ?_
  rcases of_mem_collect listed with none | ⟨⟨node, above⟩, visited, found, next⟩
  · cases none
  · have next := Option.mem_toList.mp next
    unfold nextGuard? at next
    dsimp only at next
    split at next
    · split at next
      · rename_i open_
        simp only [Bool.and_eq_true, List.contains_eq_mem, decide_eq_true_eq] at open_
        exact .guarded visited open_.1.1.1 next
      · cases next
    · cases next

theorem points_clientDirective : clientDirective.Points := by
  intro src
  unfold clientDirective
  dsimp only
  split
  · exact all_empty
  · have removed : Draft.All (Construct src) ⟨[], (misplacedDirectives src.program).map fun span =>
        (.directivePlaced, "removed a misplaced or duplicate 'use client'", span.start), []⟩ := by
      intro c member
      obtain ⟨span, copied, rfl⟩ := List.mem_map.mp member
      exact .misplaced copied
    refine .append (.append nofun ?_) removed
    split
    · exact all_empty
    · exact all_change .top

theorem points_navigationImports : navigationImports.Points := by
  intro src
  unfold navigationImports
  dsimp only
  split
  · refine all_join_map fun d listed => all_change ?_
    obtain ⟨imported, source⟩ := List.mem_filter.mp listed
    exact .router imported (by simpa using source)
  · exact all_empty

theorem points_linkChildren : linkChildren.Points := by
  refine fun src => all_join_filterMap fun link listed d shown => ?_
  obtain ⟨among, named⟩ := List.mem_filter.mp listed
  obtain ⟨t, above, visited, element⟩ := of_mem_elements among
  obtain ⟨⟨inner, closing⟩, lone, shown⟩ := Option.bind_eq_some_iff.mp shown
  dsimp only at shown
  split at shown
  · cases shown
  · cases shown
    exact all_change (.anchor visited element (by simpa using named) lone)

theorem points_createRoot : createRoot.Points := by
  intro src
  unfold createRoot
  dsimp only
  split
  · exact all_empty
  · refine .append (all_join_filterMap fun v visited d shown => ?_)
      (all_join_map fun d listed => all_change ?_)
    · obtain ⟨node, above⟩ := v
      dsimp only at shown
      split at shown
      · unfold renderDraft? at shown
        split at shown
        · split at shown
          · rename_i named
            cases shown
            exact all_change (.rendering visited (by simpa using named))
          · cases shown
        · cases shown
      · cases shown
    · obtain ⟨imported, fits⟩ := List.mem_filter.mp listed
      simp only [Bool.and_eq_true, beq_iff_eq] at fits
      exact .reactDom imported fits.1

theorem points_testingLibraryImports : testingLibraryImports.Points := by
  intro src
  unfold testingLibraryImports
  dsimp only
  split
  · exact all_empty
  · intro c member
    obtain ⟨name, missing, rfl⟩ := List.mem_map.mp member
    have place := Construct.helper missing
    cases slot : helperSlot? src.program with
    | none =>
      rw [slot] at place
      exact place
    | some offset =>
      rw [slot] at place
      exact place

theorem points_jestDomImport : jestDomImport.Points := by
  intro src
  unfold jestDomImport
  dsimp only
  split
  · exact all_empty
  · rename_i needed
    simp only [Bool.or_eq_true, not_or, Bool.not_eq_true', Bool.not_eq_false] at needed
    exact all_change (.matchers needed.2)

theorem mem_of_mem_firstOccurrences {α : Type} [BEq α] {x : α} {xs : List α}
    (member : x ∈ firstOccurrences xs) : x ∈ xs := by
  suffices all : ∀ (xs seen : List α), x ∈ xs.foldl (fun seen x => if seen.contains x then seen
      else seen ++ [x]) seen → x ∈ seen ∨ x ∈ xs by
    simpa using all xs [] member
  intro xs
  induction xs with
  | nil => exact fun seen member => .inl member
  | cons y ys ih =>
    intro seen member
    rcases ih _ member with before | later
    · dsimp only at before
      split at before
      · exact .inl before
      · rcases List.mem_append.mp before with seen | same
        · exact .inl seen
        · exact .inr (List.mem_singleton.mp same ▸ List.mem_cons_self)
    · exact .inr (List.mem_cons_of_mem _ later)

theorem points_asyncTestCallbacks : asyncTestCallbacks.Points := by
  refine fun src => all_join_map fun offset listed => all_change ?_
  have found := mem_of_mem_firstOccurrences (List.mem_mergeSort.mp listed)
  obtain ⟨⟨node, above⟩, visited, shown⟩ := List.mem_filterMap.mp found
  dsimp only at shown
  split at shown
  · obtain ⟨⟨callback, outer⟩, nearest, shown⟩ := Option.bind_eq_some_iff.mp shown
    dsimp only at shown
    split at shown
    · split at shown
      · cases shown
        exact .waiting visited nearest
      · cases shown
    · cases shown
  · cases shown

theorem points_of_mem_catalogue : ∀ r ∈ catalogue, r.Points := by
  simp only [catalogue, List.forall_mem_cons, List.not_mem_nil, false_imp_iff, implies_true, and_true]
  exact ⟨points_nextConfigFlags, points_decodeEntities, points_removeDiagnostics, points_varToLet,
    points_listKeys, points_intrinsicAttributes, points_mergeImports, points_reactImport,
    points_effectCleanup, points_browserGlobalGuards, points_clientDirective,
    points_navigationImports, points_linkChildren, points_createRoot,
    points_testingLibraryImports, points_jestDomImport, points_asyncTestCallbacks⟩

end Repair

end SourceRepair
