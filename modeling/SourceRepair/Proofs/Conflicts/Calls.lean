import SourceRepair.Proofs.Conflicts.Statements

/-!
# Calls that render into a container

The container moves to the front of its call and is taken away behind the element, so a call that renders
inside of a container cannot be rewritten as well.
-/

namespace SourceRepair.Repair

open Script
open Text (Inked)

variable {leniency : Leniency} {file : SourceFile} {text : String} {p : Program} {cs : List Char} {v w : Visit}
  {e f : Edit}

/-- What a call renders, by which name, and into which container. -/
structure Rendering where
  property : Name
  element : Tree
  container : Tree

/-- The call that renders at a node. -/
def rendering? : Node → Option Rendering
  | .tree .expression (.call (.member target property optional inner) [element, container] _ _) =>
    if (Tree.member target property optional inner).dottedName? == some "ReactDOM.render" then
      some ⟨property, element, container⟩
    else none
  | _ => none

def Rendering.edits (r : Rendering) (cs : List Char) : List Edit :=
  [.replace r.property.span ("createRoot(" ++ String.ofList (Text.slice cs r.container.span) ++ ").render"),
    .remove ⟨r.element.span.stop, r.container.span.stop⟩]

/-- The parts of the call stand in order in a span. -/
structure Rendering.Set (r : Rendering) (cs : List Char) (s : Span) : Prop where
  property : Inked cs r.property.span
  element : Inked cs r.element.span
  container : Inked cs r.container.span
  starts : s.start ≤ r.property.span.start
  first : r.property.span.stop ≤ r.element.span.start
  second : r.element.span.stop ≤ r.container.span.start
  stops : r.container.span.stop ≤ s.stop

theorem of_rendering? {n : Node} {r : Rendering} (found : rendering? n = some r) :
    ∃ target optional inner again span,
      n = .tree .expression (.call (.member target r.property optional inner) [r.element, r.container] again span) ∧
      (Tree.member target r.property optional inner).dottedName? = some "ReactDOM.render" := by
  unfold rendering? at found
  split at found
  · split at found
    · rename_i named
      cases found
      exact ⟨_, _, _, _, _, rfl, by simpa using named⟩
    · cases found
  · cases found

theorem rendering_set (standing : p.Standing cs) (visited : v ∈ p.walk) {r : Rendering}
    (found : rendering? v.node = some r) : r.Set cs v.node.span := by
  obtain ⟨target, optional, inner, again, span, same, -⟩ := of_rendering? found
  have below := (of_mem_walkFrom visited).1
  have laid := standing.laid.of_mem_walk visited
  rw [same] at below laid ⊢
  have args := of_decide_eq_true (standing.trees below)
  obtain ⟨property, behind, within⟩ :=
    of_decide_eq_true (standing.trees (.step below List.mem_cons_self))
  obtain ⟨lo, hi, order⟩ := laid
  obtain ⟨a, callee, rest⟩ := order.parts.of_cons
  obtain ⟨b, element, container⟩ := rest.of_cons
  obtain ⟨c, object, -⟩ := callee.parts.of_cons
  exact ⟨property, args _ (by simp), args _ (by simp),
    callee.starts.trans (object.starts.trans (object.start_le_stop.trans behind)),
    within.trans (callee.stops.trans element.starts), element.stops.trans container.starts, container.stops⟩

namespace Rendering

variable {r : Rendering} {s : Span}

theorem edits_pairwise (set : r.Set cs s) : (r.edits cs).Pairwise Edit.Apart := by
  have := set.element.start_lt_stop
  have := set.first
  refine List.pairwise_pair.mpr (.inl ?_)
  change r.property.span.stop ≤ r.element.span.stop
  omega

/-- The edits of a call lie in its span, and none of them in its element. -/
theorem Set.of_mem_edits (set : r.Set cs s) (member : e ∈ r.edits cs) :
    e.Formed ∧ e.Bounded cs ∧ s.start ≤ e.span.start ∧ e.span.start < e.span.stop ∧ e.span.stop ≤ s.stop ∧
      (e.span.stop ≤ r.element.span.start ∨ r.element.span.stop ≤ e.span.start) := by
  have := set.property.start_lt_stop
  have := set.element.start_lt_stop
  have := set.container.start_lt_stop
  have := set.starts
  have := set.first
  have := set.second
  have := set.stops
  simp only [edits, List.mem_cons, List.not_mem_nil, or_false] at member
  rcases member with rfl | rfl
  · exact ⟨Edit.formed_replace (by omega) _, set.property.isBoundary, by simp only [Edit.replace]; omega⟩
  · exact ⟨Edit.formed_replace (by simp only; omega) _, ⟨set.element.isBoundary.2, set.container.isBoundary.2⟩,
      by simp only [Edit.remove, Edit.replace]; omega⟩

/-- The removed range of a call holds its container. -/
theorem Set.exists_removal (set : r.Set cs s) : ∃ e ∈ r.edits cs,
    e.span.start ≤ r.container.span.start ∧ r.container.span.stop ≤ e.span.stop :=
  ⟨_, List.mem_cons_of_mem _ List.mem_cons_self, set.second, Nat.le.refl⟩

end Rendering

/-! ### Where calls stand -/

/-- Below a dotted name are only dotted names. -/
theorem dotted_of_below {t : Tree} {n : Node} (dotted : t.dottedName?.isSome)
    (below : (Node.tree .expression t).Below n) :
    ∃ u, n = .tree .expression u ∧ u.dottedName?.isSome := by
  induction below with
  | here => exact ⟨t, rfl, dotted⟩
  | step _ child ih =>
    obtain ⟨u, rfl, dotted⟩ := ih
    change _ ∈ u.expressionNodes at child
    cases u with
    | identifier => cases child
    | member o n q s =>
      obtain rfl := List.mem_singleton.mp child
      exact ⟨o, rfl, by simpa [Tree.dottedName?] using dotted⟩
    | paren inner s =>
      obtain rfl := List.mem_singleton.mp child
      exact ⟨inner, rfl, dotted⟩
    | _ => cases dotted

/-- What renders below a call that renders stands in its element or in its container. -/
theorem below_rendering {n m : Node} {r q : Rendering} (laid : n.Laid) (found : rendering? n = some r)
    (inner : rendering? m = some q) (below : ∃ c ∈ n.children, c.Below m) :
    r.element.span.covers m.span ∨ r.container.span.covers m.span := by
  obtain ⟨target, optional, span, again, whole, rfl, dotted⟩ := of_rendering? found
  obtain ⟨lo, hi, order⟩ := laid
  obtain ⟨a, callee, rest⟩ := order.parts.of_cons
  obtain ⟨b, element, container⟩ := rest.of_cons
  obtain ⟨c, child, below⟩ := below
  have covered : ∀ {t : Tree} {lo hi : Nat}, InOrder lo hi [t] → c ∈ t.elementNode →
      t.span.covers m.span := by
    intro t lo hi order member
    obtain ⟨laid, starts, stops⟩ := Tree.of_mem_elementNode order member
    obtain ⟨-, starts', stops'⟩ := laid.of_below below
    exact covers_iff.mpr ⟨starts.trans starts', stops'.trans stops⟩
  rcases List.mem_cons.mp child with rfl | child
  · obtain ⟨u, rfl, dotted⟩ := dotted_of_below (by rw [dotted]; rfl) below
    obtain ⟨_, _, _, _, _, same, -⟩ := of_rendering? inner
    cases same
    cases dotted
  · obtain ⟨t, member, child⟩ := List.mem_flatMap.mp child
    simp only [List.mem_cons, List.not_mem_nil, or_false] at member
    rcases member with rfl | rfl
    · exact .inl (covered element child)
    · exact .inr (covered container child)

/-! ### Conflicts -/

/-- The edits for a visited call. -/
def renderingEdits (cs : List Char) (v : Visit) : List Edit :=
  (rendering? v.node).toList.flatMap (Rendering.edits · cs)

theorem of_mem_renderingEdits (member : e ∈ renderingEdits cs v) :
    ∃ r, rendering? v.node = some r ∧ e ∈ r.edits cs := by
  obtain ⟨r, found, member⟩ := List.mem_flatMap.mp member
  exact ⟨r, Option.mem_toList.mp found, member⟩

/-- The second visit is of a call that renders inside of the container of the first. -/
def InContainer (v w : Visit) : Prop :=
  (rendering? w.node).isSome ∧ ∃ r, rendering? v.node = some r ∧ r.container.span.covers w.node.span

theorem edited_renderings (standing : p.Standing cs) : Edited p (renderingEdits cs) InContainer where
  own v visited := by
    unfold renderingEdits
    cases found : rendering? v.node with
    | none => exact .nil
    | some r => simpa using Rendering.edits_pairwise (rendering_set standing visited found)
  behind v visited w visited' before e there f here := by
    obtain ⟨r, found, member⟩ := of_mem_renderingEdits there
    obtain ⟨q, found', member'⟩ := of_mem_renderingEdits here
    have one := (rendering_set standing visited found).of_mem_edits member
    have other := (rendering_set standing visited' found').of_mem_edits member'
    exact .inl (by omega)
  clear v visited w visited' below outside e there f here := by
    obtain ⟨r, found, member⟩ := of_mem_renderingEdits there
    obtain ⟨q, found', member'⟩ := of_mem_renderingEdits here
    have one := (rendering_set standing visited found).of_mem_edits member
    have other := (rendering_set standing visited' found').of_mem_edits member'
    rcases below_rendering (standing.laid.of_mem_walk visited) found found' below with element | container
    · have := covers_iff.mp element
      unfold Edit.Apart
      omega
    · exact absurd ⟨by rw [found']; rfl, r, found, container⟩ outside
  clash v visited w visited' above nested := by
    obtain ⟨inner, r, found, container⟩ := nested
    obtain ⟨q, found'⟩ := Option.isSome_iff_exists.mp inner
    obtain ⟨e, member, starts, stops⟩ := (rendering_set standing visited found).exists_removal
    obtain ⟨f, member', -⟩ := (rendering_set standing visited' found').exists_removal
    have other := (rendering_set standing visited' found').of_mem_edits member'
    have := covers_iff.mp container
    refine ⟨e, by simpa [renderingEdits, found] using member, f, by simpa [renderingEdits, found'] using member', ?_⟩
    unfold Edit.Apart
    omega

/-- The import of the client of `ReactDOM` takes the place of the module name. -/
def clientImports (p : Program) : List ImportDecl :=
  p.imports.filter fun d => d.source == "react-dom" && bindsWhole d "ReactDOM"

/-- The draft for a visited call. -/
def Rendering.draft (r : Rendering) (cs : List Char) (offset : Nat) : Draft :=
  .change (r.edits cs) .apiMigrated "replaced ReactDOM.render with createRoot().render" offset

theorem renderDraft?_eq (cs : List Char) (t : Tree) :
    renderDraft? cs t =
      (rendering? (.tree .expression t)).map fun r => r.draft cs t.span.start := by
  unfold renderDraft?
  split
  · rename_i target property optional inner element container again span
    unfold rendering?
    dsimp only
    split <;> rfl
  · rename_i other
    unfold rendering?
    split
    · rename_i same
      cases same
      exact absurd rfl (other _ _ _ _ _ _ _ _)
    · rfl

theorem calls_eq (cs : List Char) (p : Program) :
    (p.walk.filterMap fun v => match v.node with
      | .tree .expression e => renderDraft? cs e
      | _ => none) =
    p.walk.filterMap fun v => (rendering? v.node).map fun r => r.draft cs v.node.span.start := by
  congr 1
  funext v
  split
  · rename_i t same
    rw [same, renderDraft?_eq]
    rfl
  · rename_i other
    cases found : rendering? v.node with
    | none => rfl
    | some r =>
      obtain ⟨_, _, _, _, _, same, -⟩ := of_rendering? found
      exact absurd same (other _)

/-- A program without such calls keeps its imports. -/
theorem edits_createRoot (file : SourceFile) (p : Program) (cs : List Char) :
    (createRoot.draft ⟨p, cs, file⟩).edits =
      p.walk.flatMap (renderingEdits cs) ++
        if p.walk.all fun v => (rendering? v.node).isNone then []
        else (clientImports p).map fun d =>
          .replace d.sourceSpan (sourceQuote cs d ++ "react-dom/client" ++ sourceQuote cs d) := by
  let moved := (clientImports p).map fun d =>
    moveImport cs d "react-dom/client" "imported ReactDOM from react-dom/client"
  refine (congrArg (fun calls : List Draft =>
    (if calls.isEmpty then ({} : Draft) else .join calls ++ .join moved).edits) (calls_eq cs p)).trans ?_
  by_cases quiet : p.walk.all fun v => (rendering? v.node).isNone
  · have none : ∀ v ∈ p.walk, rendering? v.node = none := by simpa using quiet
    rw [if_pos quiet, List.filterMap_eq_nil_iff.mpr fun v visited => by rw [none v visited]; rfl,
      List.flatMap_eq_nil_iff.mpr fun v visited => by rw [renderingEdits, none v visited]; rfl]
    rfl
  · have some : p.walk.filterMap (fun v =>
        (rendering? v.node).map fun r => r.draft cs v.node.span.start) ≠ [] := by
      simpa using quiet
    rw [if_neg quiet, if_neg (by simpa using some), Draft.edits_append]
    congr 1
    · refine (flatMap_filterMap _ Draft.edits _).trans (congrArg (List.flatMap · p.walk) (funext fun v => ?_))
      unfold renderingEdits
      cases rendering? v.node <;> rfl
    · exact (List.flatMap_map ..).trans List.map_eq_flatMap.symm

/-- An import statement holds no expression. -/
theorem expression_apart_import (standing : p.Standing cs) (visited : v ∈ p.walk) {t : Tree}
    (same : v.node = .tree .expression t) {d : ImportDecl} (imported : d ∈ p.imports) :
    v.node.span.stop ≤ d.span.start ∨ d.span.stop ≤ v.node.span.start := by
  have declared := of_mem_imports imported
  rcases (of_mem_walkFrom visited).1.first with whole | ⟨c, child, below⟩
  · rw [same] at whole
    cases whole
  · obtain ⟨s, member, rfl⟩ := List.mem_map.mp child
    have other : s ≠ .importDecl d := by
      rintro rfl
      rcases below.first with whole | ⟨c, impossible, -⟩
      · rw [same] at whole
        cases whole
      · cases impossible
    have symmetric : Std.Symm fun s t : Tree => s.span.stop ≤ t.span.start ∨ t.span.stop ≤ s.span.start :=
      ⟨fun _ _ => Or.symm⟩
    have apart := (standing.body.imp (S := fun s t => s.span.stop ≤ t.span.start ∨ t.span.stop ≤ s.span.start)
      .inl).forall member declared other
    obtain ⟨k, found⟩ := List.getElem?_of_mem child
    have within := (Node.Laid.child (n := .program p) standing.laid found).1.of_below below
    change _ ∧ s.span.start ≤ _ ∧ _ ≤ s.span.stop at within
    change s.span.stop ≤ d.span.start ∨ d.span.stop ≤ s.span.start at apart
    omega

theorem imports_set (standing : p.Standing cs) {d : ImportDecl} (imported : d ∈ p.imports) :
    Inked cs d.sourceSpan ∧ d.span.start ≤ d.sourceSpan.start ∧ d.sourceSpan.stop ≤ d.span.stop := by
  have below : (Node.program p).Below (.tree .statement (.importDecl d)) :=
    .step .here (List.mem_map_of_mem (of_mem_imports imported))
  exact of_decide_eq_true (standing.trees below)

/-- Calls that render are rewritten without conflict unless one renders inside of the container of another
one. -/
theorem conflicts_createRoot (read : parseScript leniency file text = .ok p)
    (standing : p.Standing text.toList) :
    Conflicts createRoot leniency file text ↔
      ∃ v ∈ p.walk, ∃ w ∈ p.walk, v.node ∈ w.ancestors ∧ InContainer v w := by
  let cs := text.toList
  let write (d : ImportDecl) : Edit :=
    .replace d.sourceSpan (sourceQuote cs d ++ "react-dom/client" ++ sourceQuote cs d)
  let moved := if p.walk.all fun v => (rendering? v.node).isNone then [] else (clientImports p).map write
  have edits : (createRoot.draft ⟨p, cs, file⟩).edits = p.walk.flatMap (renderingEdits cs) ++ moved :=
    edits_createRoot file p cs
  have of_mem_moved : ∀ e ∈ moved, ∃ d ∈ p.imports, e = write d := by
    intro e member
    simp only [moved] at member
    split at member
    · cases member
    · obtain ⟨d, listed, rfl⟩ := List.mem_map.mp member
      exact ⟨d, List.mem_of_mem_filter listed, rfl⟩
  have all : ∀ e ∈ (createRoot.draft ⟨p, cs, file⟩).edits, e.Formed ∧ e.Bounded cs := by
    rw [edits]
    intro e member
    rcases List.mem_append.mp member with call | source
    · obtain ⟨v, visited, member⟩ := List.mem_flatMap.mp call
      obtain ⟨r, found, member⟩ := of_mem_renderingEdits member
      obtain ⟨formed, bounded, -⟩ := (rendering_set standing visited found).of_mem_edits member
      exact ⟨formed, bounded⟩
    · obtain ⟨d, imported, rfl⟩ := of_mem_moved e source
      have inked := (imports_set standing imported).1
      exact ⟨Edit.formed_replace inked.start_lt_stop.le _, inked.isBoundary⟩
  have movedApart : moved.Pairwise Edit.Apart := by
    simp only [moved]
    split
    · exact .nil
    · refine List.pairwise_map.mpr (((imports_pairwise standing).filter _).imp_of_mem ?_)
      intro a b first second before
      have one := imports_set standing (List.mem_of_mem_filter first)
      have other := imports_set standing (List.mem_of_mem_filter second)
      refine .inl ?_
      change a.sourceSpan.stop ≤ b.sourceSpan.start
      omega
  have across : ∀ e ∈ p.walk.flatMap (renderingEdits cs), ∀ f ∈ moved, e.Apart f := by
    intro e call f source
    obtain ⟨v, visited, member⟩ := List.mem_flatMap.mp call
    obtain ⟨r, found, member⟩ := of_mem_renderingEdits member
    obtain ⟨d, imported, rfl⟩ := of_mem_moved f source
    obtain ⟨_, _, _, _, _, same, -⟩ := of_rendering? found
    have := (rendering_set standing visited found).of_mem_edits member
    have := imports_set standing imported
    have := expression_apart_import standing visited same imported
    change e.span.stop ≤ d.sourceSpan.start ∨ d.sourceSpan.stop ≤ e.span.start
    omega
  rw [conflicts_iff read fun e member => (all e member).1, Edit.printable_iff fun e member => (all e member).1,
    and_iff_right fun e member => (all e member).2, edits, List.pairwise_append,
    and_iff_left ⟨movedApart, across⟩, (edited_renderings standing).pairwise_iff standing.laid, not_not]

end SourceRepair.Repair
