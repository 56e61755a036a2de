import SourceRepair.Proofs.Conflicts.Basic
import SourceRepair.Repair.Framework

/-!
# Links that give up their anchors

The opening tag and the closing tag of the anchor are taken away, and its attributes move to the link. What
stands in the attributes of the link or between the tags of the anchor is left alone, so only a link in the
opening tag of an anchor is in the way.
-/

namespace SourceRepair.Repair

open Script
open Text (Inked)

variable {leniency : Leniency} {file : SourceFile} {text : String} {p : Program} {cs : List Char} {v w : Visit}
  {e f : Edit}

/-- A link and the anchor that it gives up, with the closing tag of the anchor. -/
structure Unwrapped where
  link : Element
  anchor : Element
  closing : Span

namespace Unwrapped

/-- The attributes of the anchor that the link does not have. -/
def moved (u : Unwrapped) : List Tree :=
  u.anchor.attributes.filter fun a =>
    match a.attributeName? with
    | some key => !u.link.has key
    | none => true

/-- The place for the moved attributes. -/
def offset (u : Unwrapped) : Nat :=
  match u.link.attributes.getLast? with
  | some a => a.span.stop
  | none => u.link.name.span.stop

def edits (u : Unwrapped) (cs : List Char) : List Edit :=
  let texts := u.moved.map fun a => String.ofList (Text.slice cs a.span)
  (if texts.isEmpty then [] else [Edit.insert u.offset (" " ++ String.intercalate " " texts)]) ++
    [.remove u.anchor.opening, .remove u.closing]

end Unwrapped

/-- The link at a node that gives up its anchor. -/
def unwrapped? : Node → Option Unwrapped
  | .tree .jsxElement t =>
    (element? t).bind fun link =>
      if link.name.simple? == some "Link" && !link.has "legacyBehavior" then
        link.anchor?.map fun (anchor, closing) => ⟨link, anchor, closing⟩
      else none
  | _ => none

/-- The tree of an element. -/
def Element.tree (e : Element) : Tree :=
  .jsxElement e.name e.attributes e.opening e.children e.closing e.span

theorem of_element? {t : Tree} {e : Element} (shown : element? t = some e) : t = e.tree := by
  cases t with
  | jsxElement =>
    cases shown
    rfl
  | _ => cases shown

/-- The one element among some children, which hold nothing else that is visited. -/
theorem of_loneElement? {children : List Tree} {e : Element} (found : loneElement? children = some e) :
    e.tree ∈ children ∧ ∀ t ∈ children, t = e.tree ∨ t.jsxNodes = [] := by
  induction children with
  | nil => cases found
  | cons t rest ih =>
    unfold loneElement? at found
    split at found
    · rename_i none
      cases none
    · rename_i value span others same
      cases same
      split at found
      · obtain ⟨member, only⟩ := ih found
        exact ⟨List.mem_cons_of_mem _ member, List.forall_mem_cons.mpr ⟨.inr rfl, only⟩⟩
      · cases found
    · rename_i child others _ same
      cases same
      dsimp only at found
      split at found
      · rename_i blank
        obtain rfl := of_element? found
        refine ⟨List.mem_cons_self, List.forall_mem_cons.mpr ⟨.inl rfl, fun u member => .inr ?_⟩⟩
        have text := List.all_eq_true.mp blank u member
        split at text
        · rfl
        · cases text
      · cases found

theorem of_anchor? {link anchor : Element} {closing : Span} (found : link.anchor? = some (anchor, closing)) :
    loneElement? link.children = some anchor ∧ anchor.closing = some closing ∧
      anchor.name.simple? = some "a" := by
  unfold Element.anchor? at found
  obtain ⟨e, lone, found⟩ := Option.bind_eq_some_iff.mp found
  obtain ⟨s, closed, found⟩ := Option.bind_eq_some_iff.mp found
  split at found
  · rename_i named
    cases found
    exact ⟨lone, closed, by simpa using named⟩
  · cases found

theorem of_unwrapped? {n : Node} {u : Unwrapped} (found : unwrapped? n = some u) :
    n = .tree .jsxElement u.link.tree ∧ u.link.name.simple? = some "Link" ∧
      u.link.anchor? = some (u.anchor, u.closing) := by
  unfold unwrapped? at found
  split at found
  · obtain ⟨link, shown, found⟩ := Option.bind_eq_some_iff.mp found
    split at found
    · rename_i named
      obtain ⟨⟨anchor, closing⟩, anchored, rfl⟩ := Option.map_eq_some_iff.mp found
      rw [Bool.and_eq_true] at named
      exact ⟨congrArg _ (of_element? shown), by simpa using named.1, anchored⟩
    · cases found
  · cases found

/-- The parts of a link and its anchor stand in order in a span. -/
structure Unwrapped.Set (u : Unwrapped) (cs : List Char) (s : Span) : Prop where
  boundary : Text.IsBoundary cs u.offset
  starts : s.start ≤ u.offset
  before : u.offset ≤ u.anchor.opening.start
  opening : Inked cs u.anchor.opening
  between : u.anchor.opening.stop ≤ u.closing.start
  closing : Inked cs u.closing
  stops : u.closing.stop ≤ s.stop

/-- The anchor of a link is visited. -/
theorem below_anchor {n : Node} {u : Unwrapped} (found : unwrapped? n = some u) :
    .tree .jsxElement u.anchor.tree ∈ n.children := by
  obtain ⟨rfl, -, anchored⟩ := of_unwrapped? found
  have member := (of_loneElement? (of_anchor? anchored).1).1
  refine List.mem_append_right _ ?_
  rw [Tree.jsxNodesList_eq]
  exact List.mem_flatMap.mpr ⟨_, member, List.mem_cons_self⟩

/-- What holds of the parts of an element in its text. -/
theorem element_stands (standing : p.Standing cs) {e : Element}
    (below : (Node.program p).Below (.tree .jsxElement e.tree)) :
    (Inked cs e.name.span ∧ Inked cs e.opening ∧ e.span.covers e.opening ∧ e.opening.covers e.name.span) ∧
      (∀ a ∈ e.attributes, Inked cs a.span ∧ e.name.span.stop ≤ a.span.start ∧ a.span.stop ≤ e.opening.stop) ∧
      (∀ c ∈ e.children, e.opening.stop ≤ c.span.start) ∧
      ∀ tag ∈ e.closing, Inked cs tag ∧ e.span.covers tag ∧ e.opening.stop ≤ tag.start ∧
        ∀ c ∈ e.children, c.span.stop ≤ tag.start :=
  of_decide_eq_true (standing.trees below)

theorem unwrapped_set (standing : p.Standing cs) (visited : v ∈ p.walk) {u : Unwrapped}
    (found : unwrapped? v.node = some u) : u.Set cs v.node.span := by
  have child := below_anchor found
  obtain ⟨same, -, anchored⟩ := of_unwrapped? found
  obtain ⟨lone, closed, -⟩ := of_anchor? anchored
  have below := (of_mem_walkFrom visited).1
  have laid := standing.laid.of_mem_walk visited
  obtain ⟨⟨-, opening, inside, -⟩, -, -, closing⟩ := element_stands standing (below.step child)
  rw [same] at below laid ⊢
  obtain ⟨⟨name, -, inside', named⟩, attributes, children, -⟩ := element_stands standing below
  obtain ⟨inked, around, between, -⟩ := closing _ closed
  have member := (of_loneElement? lone).1
  have behind := children _ member
  change u.link.opening.stop ≤ u.anchor.span.start at behind
  rw [covers_iff] at inside inside' named around
  have offset : Text.IsBoundary cs u.offset ∧ u.link.name.span.stop ≤ u.offset ∧
      u.offset ≤ u.link.opening.stop := by
    unfold Unwrapped.offset
    cases last : u.link.attributes.getLast? with
    | none => exact ⟨name.isBoundary.2, Nat.le.refl, named.2⟩
    | some a =>
      obtain ⟨inked, starts, stops⟩ := attributes a (List.mem_of_getLast? last)
      exact ⟨inked.isBoundary.2, starts.trans inked.start_lt_stop.le, stops⟩
  obtain ⟨lo, hi, order⟩ := laid
  obtain ⟨a, b, -, upper, anchor⟩ := order.parts.of_mem (List.mem_append_right _ member)
  have wide := name.start_lt_stop
  refine ⟨offset.1, ?_, offset.2.2.trans (behind.trans inside.1), opening, between, inked, ?_⟩
  · change u.link.span.start ≤ _
    omega
  · exact around.2.trans (anchor.stops.trans upper)

/-- The moved attributes are put behind those of the link. -/
theorem le_offset {u : Unwrapped} {lo hi : Nat} (order : InOrder lo hi u.link.attributes) {a : Tree}
    (member : a ∈ u.link.attributes) : a.span.stop ≤ u.offset := by
  unfold Unwrapped.offset
  cases found : u.link.attributes.getLast? with
  | none =>
    rw [List.getLast?_eq_none_iff.mp found] at member
    cases member
  | some last =>
    obtain ⟨x, y, -, -, one⟩ := order.of_mem (List.mem_of_getLast? found)
    have wide := one.start_le_stop
    obtain ⟨others, whole⟩ := List.getLast?_eq_some_iff.mp found
    have apart := order.pairwise
    rw [whole] at apart member
    rcases List.mem_append.mp member with earlier | same
    · exact ((List.pairwise_append.mp apart).2.2 a earlier last List.mem_cons_self).trans wide
    · rw [List.mem_singleton.mp same]

/-- A link below a link that gives up its anchor stands in an attribute of that, in the opening tag of the
anchor, or between the tags. -/
theorem below_unwrapped (standing : p.Standing cs) (visited : v ∈ p.walk) {u q : Unwrapped}
    (found : unwrapped? v.node = some u) {n : Node} (inner : unwrapped? n = some q)
    (below : ∃ c ∈ v.node.children, c.Below n) :
    n.span.stop ≤ u.offset ∨ u.anchor.opening.covers n.span ∨
      u.anchor.opening.stop ≤ n.span.start ∧ n.span.stop ≤ u.closing.start := by
  have seen := (of_mem_walkFrom visited).1
  obtain ⟨tag, attributes, children, closing⟩ := element_stands standing (seen.step (below_anchor found))
  have laid := standing.laid.of_mem_walk visited
  obtain ⟨same, -, anchored⟩ := of_unwrapped? found
  obtain ⟨lone, closed, named⟩ := of_anchor? anchored
  obtain ⟨c, child, below⟩ := below
  rw [same] at child laid
  obtain ⟨lo, hi, order⟩ := laid
  obtain ⟨mid, front, back⟩ := order.parts.split
  rcases List.mem_append.mp child with child | child
  · -- The moved attributes are put behind the last one.
    obtain ⟨a, member, child⟩ := List.mem_flatMap.mp child
    obtain ⟨x, y, -, -, one⟩ := front.of_mem member
    obtain ⟨inner, -, stops⟩ := Tree.of_mem_attributeNodes one child
    have within := (inner.of_below below).2.2
    exact .inl (within.trans (stops.trans (le_offset front member)))
  · right
    rw [Tree.jsxNodesList_eq] at child
    obtain ⟨t, member, child⟩ := List.mem_flatMap.mp child
    obtain ⟨a, b, -, -, anchor⟩ := back.of_mem member
    rcases (of_loneElement? lone).2 t member with rfl | none
    · obtain rfl := List.mem_singleton.mp child
      rcases below.first with rfl | ⟨c, child, below⟩
      · -- The anchor itself is no link.
        obtain ⟨same, link, -⟩ := of_unwrapped? inner
        have name : u.anchor.name = q.link.name := (Tree.jsxElement.inj (Node.tree.inj same).2).1
        rw [← name, named] at link
        exact absurd link (by decide)
      · obtain ⟨mid, front, back⟩ := anchor.parts.split
        rcases List.mem_append.mp child with child | child
        · obtain ⟨a, member, child⟩ := List.mem_flatMap.mp child
          obtain ⟨x, y, -, -, one⟩ := front.of_mem member
          obtain ⟨inner, starts, stops⟩ := Tree.of_mem_attributeNodes one child
          obtain ⟨-, starts', stops'⟩ := inner.of_below below
          obtain ⟨-, behind, before⟩ := attributes a member
          have wide := tag.1.start_lt_stop
          have inside := covers_iff.mp tag.2.2.2
          exact .inl (covers_iff.mpr ⟨by omega, by omega⟩)
        · rw [Tree.jsxNodesList_eq] at child
          obtain ⟨t, member, child⟩ := List.mem_flatMap.mp child
          obtain ⟨x, y, -, -, one⟩ := back.of_mem member
          obtain ⟨inner, starts, stops⟩ := Tree.of_mem_jsxNodes one child
          obtain ⟨-, starts', stops'⟩ := inner.of_below below
          have behind := children t member
          have before := (closing _ closed).2.2.2 t member
          exact .inr ⟨by omega, by omega⟩
    · rw [none] at child
      cases child

namespace Unwrapped.Set

variable {u : Unwrapped} {s : Span}

theorem edits_pairwise (set : u.Set cs s) : (u.edits cs).Pairwise Edit.Apart := by
  have removed : [Edit.remove u.anchor.opening, .remove u.closing].Pairwise Edit.Apart :=
    List.pairwise_pair.mpr (.inl set.between)
  have before := set.before
  have wide := set.opening.start_lt_stop
  have between := set.between
  unfold Unwrapped.edits
  dsimp only
  split
  · exact removed
  · refine List.pairwise_append.mpr ⟨List.pairwise_singleton _ _, removed, ?_⟩
    intro e first f second
    obtain rfl := List.mem_singleton.mp first
    refine .inl ?_
    simp only [List.mem_cons, List.not_mem_nil, or_false] at second
    rcases second with rfl | rfl
    · exact before
    · change u.offset ≤ u.closing.start
      omega

/-- The edits of a link lie in its span: behind its attributes, and where the tags of the anchor stand. -/
theorem of_mem_edits (set : u.Set cs s) (member : e ∈ u.edits cs) :
    e.Formed ∧ e.Bounded cs ∧ s.start ≤ e.span.start ∧ e.span.stop ≤ s.stop ∧
      (e.span = u.anchor.opening ∨ u.closing.start ≤ e.span.start ∨
        u.offset ≤ e.span.start ∧ e.span.stop ≤ u.anchor.opening.start) := by
  have starts := set.starts
  have before := set.before
  have wide := set.opening.start_lt_stop
  have between := set.between
  have wide' := set.closing.start_lt_stop
  have stops := set.stops
  rcases List.mem_append.mp member with inserted | removed
  · split at inserted
    · cases inserted
    · obtain rfl := List.mem_singleton.mp inserted
      exact ⟨by simp [Edit.insert, Edit.Formed, Span.point], ⟨set.boundary, set.boundary⟩, starts,
        by simp only [Edit.insert, Span.point]; omega, .inr (.inr ⟨Nat.le.refl, before⟩)⟩
  · simp only [List.mem_cons, List.not_mem_nil, or_false] at removed
    rcases removed with rfl | rfl
    · exact ⟨Edit.formed_replace wide.le "", set.opening.isBoundary,
        by simp only [Edit.remove, Edit.replace]; omega, by simp only [Edit.remove, Edit.replace]; omega, .inl rfl⟩
    · exact ⟨Edit.formed_replace wide'.le "", set.closing.isBoundary,
        by simp only [Edit.remove, Edit.replace]; omega, stops, .inr (.inl Nat.le.refl)⟩

end Unwrapped.Set

/-! ### Conflicts -/

/-- The edits for a visited link. -/
def linkEdits (cs : List Char) (v : Visit) : List Edit :=
  (unwrapped? v.node).toList.flatMap (Unwrapped.edits · cs)

theorem of_mem_linkEdits (member : e ∈ linkEdits cs v) : ∃ u, unwrapped? v.node = some u ∧ e ∈ u.edits cs := by
  obtain ⟨u, found, member⟩ := List.mem_flatMap.mp member
  exact ⟨u, Option.mem_toList.mp found, member⟩

/-- The second visit is of a link that gives up its anchor inside of the opening tag of the anchor that the
link of the first gives up. -/
def InAnchorTag (v w : Visit) : Prop :=
  (unwrapped? w.node).isSome ∧ ∃ u, unwrapped? v.node = some u ∧ u.anchor.opening.covers w.node.span

theorem edited_links (standing : p.Standing cs) : Edited p (linkEdits cs) InAnchorTag where
  own v visited := by
    unfold linkEdits
    cases found : unwrapped? v.node with
    | none => exact .nil
    | some u => simpa using (unwrapped_set standing visited found).edits_pairwise
  behind v visited w visited' before e there f here := by
    obtain ⟨u, found, member⟩ := of_mem_linkEdits there
    obtain ⟨q, found', member'⟩ := of_mem_linkEdits here
    have one := (unwrapped_set standing visited found).of_mem_edits member
    have other := (unwrapped_set standing visited' found').of_mem_edits member'
    exact .inl (by omega)
  clear v visited w visited' below outside e there f here := by
    obtain ⟨u, found, member⟩ := of_mem_linkEdits there
    obtain ⟨q, found', member'⟩ := of_mem_linkEdits here
    have set := unwrapped_set standing visited found
    have one := set.of_mem_edits member
    have other := (unwrapped_set standing visited' found').of_mem_edits member'
    have before := set.before
    have wide := set.opening.start_lt_stop
    have between := set.between
    unfold Edit.Apart
    rcases below_unwrapped standing visited found found' below with front | inside | inner
    · rcases one.2.2.2.2 with same | behind | inserted
      · rw [same]
        omega
      · omega
      · omega
    · exact absurd ⟨by rw [found']; rfl, u, found, inside⟩ outside
    · rcases one.2.2.2.2 with same | behind | inserted
      · rw [same]
        omega
      · omega
      · omega
  clash v visited w visited' above nested := by
    obtain ⟨inner, u, found, inside⟩ := nested
    obtain ⟨q, found'⟩ := Option.isSome_iff_exists.mp inner
    have set' := unwrapped_set standing visited' found'
    have wide := set'.opening.start_lt_stop
    have between := set'.between
    have before := set'.before
    have starts := set'.starts
    have wide' := set'.closing.start_lt_stop
    have stops := set'.stops
    have there : Edit.remove u.anchor.opening ∈ u.edits cs := List.mem_append_right _ List.mem_cons_self
    have here : Edit.remove q.anchor.opening ∈ q.edits cs := List.mem_append_right _ List.mem_cons_self
    refine ⟨_, by simpa [linkEdits, found] using there, _, by simpa [linkEdits, found'] using here, ?_⟩
    rw [covers_iff] at inside
    change ¬ (u.anchor.opening.stop ≤ q.anchor.opening.start ∨ q.anchor.opening.stop ≤ u.anchor.opening.start)
    omega

theorem edits_unwrapAnchor? (link : Element) (cs : List Char) :
    (link.unwrapAnchor? cs).toList.flatMap Draft.edits =
      (if !link.has "legacyBehavior" then
        link.anchor?.map fun (anchor, closing) => (⟨link, anchor, closing⟩ : Unwrapped)
      else none).toList.flatMap (Unwrapped.edits · cs) := by
  unfold Element.unwrapAnchor?
  cases link.anchor? with
  | none => cases link.has "legacyBehavior" <;> rfl
  | some found =>
    obtain ⟨anchor, closing⟩ := found
    change (if link.has "legacyBehavior" then none else some _).toList.flatMap Draft.edits = _
    cases link.has "legacyBehavior" <;> rfl

theorem edits_linkChildren (file : SourceFile) (p : Program) (cs : List Char) :
    (linkChildren.draft ⟨p, cs, file⟩).edits = p.walk.flatMap (linkEdits cs) := by
  change List.flatMap Draft.edits (((elements p).filter _).filterMap _) = _
  rw [elements, List.filter_filterMap, List.filterMap_filterMap, flatMap_filterMap]
  refine congrArg (List.flatMap · p.walk) (funext fun v => ?_)
  unfold linkEdits
  cases v.node with
  | tree role t =>
    cases role with
    | jsxElement =>
      dsimp only [unwrapped?]
      cases element? t with
      | none => rfl
      | some link =>
        rw [Option.filter_some, Option.bind_some]
        cases link.name.simple? == some "Link" with
        | false => rfl
        | true => exact edits_unwrapAnchor? link cs
    | _ => rfl
  | _ => rfl

/-- Links give up their anchors without conflict unless one of them stands in the opening tag of such an
anchor. -/
theorem conflicts_linkChildren (read : parseScript leniency file text = .ok p)
    (standing : p.Standing text.toList) :
    Conflicts linkChildren leniency file text ↔
      ∃ v ∈ p.walk, ∃ w ∈ p.walk, v.node ∈ w.ancestors ∧ InAnchorTag v w := by
  have edits := edits_linkChildren file p text.toList
  have all : ∀ e ∈ (linkChildren.draft ⟨p, text.toList, file⟩).edits, e.Formed ∧ e.Bounded text.toList := by
    rw [edits]
    intro e member
    obtain ⟨v, visited, member⟩ := List.mem_flatMap.mp member
    obtain ⟨u, found, member⟩ := of_mem_linkEdits member
    obtain ⟨formed, bounded, -⟩ := (unwrapped_set standing visited found).of_mem_edits member
    exact ⟨formed, bounded⟩
  rw [conflicts_iff read fun e member => (all e member).1, Edit.printable_iff fun e member => (all e member).1,
    and_iff_right fun e member => (all e member).2, edits, (edited_links standing).pairwise_iff standing.laid,
    not_not]

end SourceRepair.Repair
