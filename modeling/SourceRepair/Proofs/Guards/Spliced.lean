import SourceRepair.Proofs.Edit.Nested
import SourceRepair.Proofs.Guards.Seated

/-!
# Guards in the text

The checks for all the guards of a program can be put into its text at once. In a program whose nodes lie
in the spans of the nodes above, with siblings apart, wrappers nest as the seats of their guards do, and a
property that is only its name is spelled out in one piece.
-/

namespace SourceRepair.Repair

open Script

variable {p : Program} {n m : Node} {turns others : List Turn} {g h : Guard} {e : Edit}

/-! ### The calls for guards -/

/-- The call that records the edits for a guard. -/
def Guard.call (g : Guard) : Edit.Call :=
  match g.kind with
  | .statement =>
    .wrap ⟨g.span, "if (" ++ definedTest g.root ++ ") \x7b ", " \x7d", g.depth⟩
  | .expression => .wrap ⟨g.span, "(" ++ definedTest g.root ++ " ? ", " : undefined)", g.depth⟩
  | .shorthand =>
    .replace g.span (g.root ++ ": (" ++ definedTest g.root ++ " ? " ++ g.root ++ " : undefined)")

theorem edits_call (g : Guard) : g.call.edits = g.edits := by
  unfold Guard.call Guard.edits
  cases g.kind <;> rfl

theorem Guard.call_eq (g : Guard) :
    (g.kind = .shorthand ∧ ∃ text, g.call = .replace g.span text) ∨
      (g.kind ≠ .shorthand ∧ ∃ before after, g.call = .wrap ⟨g.span, before, after, g.depth⟩) := by
  unfold Guard.call
  cases g.kind with
  | statement | expression => exact .inr ⟨nofun, _, _, rfl⟩
  | shorthand => exact .inl ⟨rfl, _, rfl⟩

theorem of_call_eq_wrap {w : Edit.Wrap} (same : g.call = .wrap w) : w.span = g.span ∧ w.depth = g.depth := by
  rcases g.call_eq with ⟨-, text, replaced⟩ | ⟨-, before, after, wrapped⟩
  · rw [replaced] at same
    cases same
  · rw [wrapped] at same
    cases same
    exact ⟨rfl, rfl⟩

/-- A property that is only its name is replaced, and every other node gets texts before and after it. -/
theorem of_mem_edits (wide : g.span.start < g.span.stop) (member : e ∈ g.call.edits) :
    (g.kind = .shorthand ∧ e.anchor = .replacing ∧ e.span = g.span) ∨
      (e.anchor ≠ .replacing ∧ (e.span = .point g.span.start ∨ e.span = .point g.span.stop)) := by
  rcases g.call_eq with ⟨kind, text, replaced⟩ | ⟨-, before, after, wrapped⟩
  · rw [replaced] at member
    obtain rfl := List.mem_singleton.mp member
    refine .inl ⟨kind, ?_, rfl⟩
    simp [Edit.replace, Nat.ne_of_lt wide]
  · rw [wrapped] at member
    simp only [Edit.Call.edits, Edit.wrap, List.mem_cons, List.not_mem_nil, or_false] at member
    rcases member with rfl | rfl
    · exact .inr ⟨by simp, .inl rfl⟩
    · exact .inr ⟨by simp, .inr rfl⟩

theorem shorthand_of_replacing (wide : g.span.start < g.span.stop) (member : e ∈ g.call.edits)
    (replacing : e.anchor = .replacing) : g.kind = .shorthand ∧ e.span = g.span := by
  rcases of_mem_edits wide member with ⟨kind, -, span⟩ | ⟨wrapping, -⟩
  · exact ⟨kind, span⟩
  · exact absurd replacing wrapping

/-! ### Seats and spans -/

theorem eq_of_covers {a b : Span} (first : a.covers b) (second : b.covers a) : a = b := by
  obtain ⟨starts, stops⟩ := covers_iff.mp first
  obtain ⟨starts', stops'⟩ := covers_iff.mp second
  exact congrArg₂ Span.mk (Nat.le_antisymm starts starts') (Nat.le_antisymm stops' stops)

/-- The node further down on a trail stands in the span of the other, at a greater depth. -/
theorem Guard.Seat.covers_of_leads (nested : p.Nested) (seat : g.Seat p n turns)
    (other : h.Seat p m others) (leads : Leads n turns m others) :
    g.span.covers h.span ∧ (g.depth < h.depth ∨ m = n ∧ others = turns) := by
  rw [seat.span, other.span, seat.depth, other.depth]
  refine ⟨nested.covers seat.trail leads, ?_⟩
  rcases Nat.lt_or_ge turns.length others.length with deeper | short
  · exact .inl deeper
  · exact .inr (leads.eq_of_length_le short)

/-- No other guard starts or ends inside a property that is only its name. -/
theorem Guard.Seat.apart_or_covers (nested : p.Nested) (named : ShorthandNames p)
    (seat : g.Seat p n turns) (kind : g.kind = .shorthand) (other : h.Seat p m others) :
    (g.span.stop ≤ h.span.start ∨ h.span.stop ≤ g.span.start) ∨ h.span.covers g.span := by
  rcases nested.leads_or_apart seat.trail other.trail with up | down | apart
  · exact .inr (other.covers_of_leads nested seat up).1
  · obtain ⟨rfl, rfl⟩ := seat.eq_of_shorthand named kind other down
    exact .inr (other.covers_of_leads nested seat .here).1
  · rw [seat.span, other.span]
    exact .inl apart

/-- What the search records is in the text: no span of a guard is empty, and each lies between
characters. -/
def InText (p : Program) (source : List Char) : Prop :=
  ∀ g ∈ guards p, g.span.start < g.span.stop ∧ Text.IsBoundary source g.span.start ∧
    Text.IsBoundary source g.span.stop

/-- The calls that record the edits for the guards of a program. -/
def guardCalls (p : Program) : List Edit.Call := (guards p).map Guard.call

theorem of_wrap_mem_guardCalls {w : Edit.Wrap} (member : .wrap w ∈ guardCalls p) :
    ∃ g ∈ guards p, w.span = g.span ∧ w.depth = g.depth := by
  obtain ⟨g, among, same⟩ := List.mem_map.mp member
  exact ⟨g, among, of_call_eq_wrap same⟩

variable {source : List Char}

/-- The wrappers of the guards are nested or apart. -/
theorem nesting_guardCalls (nested : p.Nested) (recorded : InText p source) :
    Edit.Nesting (guardCalls p) := by
  constructor
  · intro w member
    obtain ⟨g, among, span, -⟩ := of_wrap_mem_guardCalls member
    rw [span]
    exact (recorded g among).1
  · intro v w first second
    obtain ⟨g, among, span, -⟩ := of_wrap_mem_guardCalls first
    obtain ⟨h, among', span', -⟩ := of_wrap_mem_guardCalls second
    obtain ⟨n, turns, seat⟩ := exists_seat among
    obtain ⟨m, others, other⟩ := exists_seat among'
    rw [span, span']
    rcases nested.leads_or_apart seat.trail other.trail with up | down | before | after
    · exact .inr (.inr (.inr (other.covers_of_leads nested seat up).1))
    · exact .inr (.inr (.inl (seat.covers_of_leads nested other down).1))
    · rw [← seat.span, ← other.span] at before
      exact .inl before
    · rw [← seat.span, ← other.span] at after
      exact .inr (.inl after)
  · intro v w first second covers differ
    obtain ⟨g, among, span, depth⟩ := of_wrap_mem_guardCalls first
    obtain ⟨h, among', span', depth'⟩ := of_wrap_mem_guardCalls second
    obtain ⟨n, turns, seat⟩ := exists_seat among
    obtain ⟨m, others, other⟩ := exists_seat among'
    rw [span, span'] at covers differ
    rw [depth, depth']
    rcases nested.leads_or_apart seat.trail other.trail with up | down | apart
    · exact absurd (eq_of_covers covers (other.covers_of_leads nested seat up).1) differ
    · rcases (seat.covers_of_leads nested other down).2 with deeper | ⟨rfl, rfl⟩
      · exact deeper
      · exact absurd (seat.span.trans other.span.symm) differ
    · have := covers_iff.mp covers
      have := (recorded g among).1
      have := (recorded h among').1
      unfold Apart at apart
      rw [← seat.span, ← other.span] at apart
      omega

theorem mem_guardCalls_edits :
    e ∈ (guardCalls p).flatMap Edit.Call.edits ↔ ∃ g ∈ guards p, e ∈ g.call.edits := by
  simp [guardCalls, List.mem_flatMap]

theorem bounded_guardCalls (recorded : InText p source) (member : e ∈ (guardCalls p).flatMap Edit.Call.edits) :
    Text.IsBoundary source e.span.start ∧ Text.IsBoundary source e.span.stop := by
  obtain ⟨g, among, inside⟩ := mem_guardCalls_edits.mp member
  obtain ⟨wide, starts, stops⟩ := recorded g among
  rcases of_mem_edits wide inside with ⟨-, -, span⟩ | ⟨-, span | span⟩ <;> rw [span]
  · exact ⟨starts, stops⟩
  · exact ⟨starts, starts⟩
  · exact ⟨stops, stops⟩

/-- Properties that are only their names are replaced apart from each other. -/
theorem replaced_apart (nested : p.Nested) (named : ShorthandNames p) (recorded : InText p source) :
    ((guardCalls p).flatMap Edit.Call.edits).Pairwise fun a b => a.anchor = .replacing →
      b.anchor = .replacing → a.span.stop ≤ b.span.start ∨ b.span.stop ≤ a.span.start := by
  rw [guardCalls, List.flatMap_map, List.pairwise_flatMap]
  constructor
  · intro g _
    rcases g.call_eq with ⟨-, text, replaced⟩ | ⟨-, before, after, wrapped⟩
    · rw [replaced]
      exact List.pairwise_singleton _ _
    · rw [wrapped]
      simp [Edit.Call.edits, Edit.wrap]
  · refine List.pairwise_iff_getElem.mpr fun j k first second lt e inside f inside' => ?_
    intro replacing replacing'
    have wide := (recorded _ (List.getElem_mem first)).1
    have wide' := (recorded _ (List.getElem_mem second)).1
    obtain ⟨kind, span⟩ := shorthand_of_replacing wide inside replacing
    obtain ⟨kind', span'⟩ := shorthand_of_replacing wide' inside' replacing'
    rw [span, span']
    exact shorthands_apart nested named lt (List.getElem?_eq_getElem first)
      (List.getElem?_eq_getElem second) kind kind'

/-- No text goes strictly inside a property that is only its name. -/
theorem outside_replaced (nested : p.Nested) (named : ShorthandNames p) (recorded : InText p source)
    {r : Edit} (replaced : r ∈ (guardCalls p).flatMap Edit.Call.edits) (replacing : r.anchor = .replacing)
    (member : e ∈ (guardCalls p).flatMap Edit.Call.edits) :
    ¬ (r.span.start < e.span.start ∧ e.span.start < r.span.stop) := by
  obtain ⟨g, among, inside⟩ := mem_guardCalls_edits.mp replaced
  obtain ⟨h, among', inside'⟩ := mem_guardCalls_edits.mp member
  have wide := (recorded h among').1
  obtain ⟨n, turns, seat⟩ := exists_seat among
  obtain ⟨m, others, other⟩ := exists_seat among'
  obtain ⟨kind, span⟩ := shorthand_of_replacing (recorded g among).1 inside replacing
  have place : e.span.start = h.span.start ∨ e.span.start = h.span.stop := by
    rcases of_mem_edits wide inside' with ⟨-, -, span'⟩ | ⟨-, span' | span'⟩ <;> rw [span']
    · exact .inl rfl
    · exact .inl rfl
    · exact .inr rfl
  rw [span]
  rcases seat.apart_or_covers nested named kind other with apart | covers
  · omega
  · have := covers_iff.mp covers
    omega

/-- The texts for all the guards of a program can be put into its text at once. -/
theorem printable_guardCalls (nested : p.Nested) (named : ShorthandNames p) (recorded : InText p source) :
    Edit.Printable ((guardCalls p).flatMap Edit.Call.edits) source where
  bounded _ member := bounded_guardCalls recorded member
  apart := replaced_apart nested named recorded
  outside _ replaced replacing _ member :=
    outside_replaced nested named recorded replaced replacing member

/-! ### The guarded text -/

theorem applyAll_nil (text : String) : Edit.applyAll [] text = .ok text := by
  have sorted : Edit.sorted [] = [] := by
    simp [Edit.sorted]
  rw [Edit.applyAll, sorted]
  exact congrArg Except.ok String.ofList_toList

theorem finish_of_applyAll {d : Draft} {text code : String}
    (spliced : Edit.applyAll d.edits text = .ok code) :
    ∃ done, d.finish text = .ok done ∧ done.code = code := by
  unfold Draft.finish
  by_cases none : d.edits = []
  · rw [none, applyAll_nil] at spliced
    cases spliced
    simp only [none, List.isEmpty_nil, if_true]
    exact ⟨_, rfl, rfl⟩
  · rw [if_neg (by simpa using none), spliced]
    exact ⟨_, rfl, rfl⟩

theorem draft_edits (file : SourceFile) (text : List Char) :
    (browserGlobalGuards.draft ⟨p, text, file⟩).edits = (guardCalls p).flatMap Edit.Call.edits := by
  change ((guards p).map _).flatMap Draft.edits = _
  rw [guardCalls, List.flatMap_map, List.flatMap_map]
  simp only [edits_call]
  rfl

theorem formed_guardCalls (recorded : InText p source) :
    ∀ e ∈ (guardCalls p).flatMap Edit.Call.edits, Edit.Formed e := by
  refine Edit.formed_of_ordered fun c among => ?_
  obtain ⟨g, member, rfl⟩ := List.mem_map.mp among
  have wide := (recorded g member).1
  rcases g.call_eq with ⟨-, text, replaced⟩ | ⟨-, before, after, wrapped⟩
  · rw [replaced]
    exact wide.le
  · rw [wrapped]
    exact wide.le

/-- The texts for a guard further down come between those of a wrapper. -/
theorem between_of_leads (nested : p.Nested) (recorded : InText p source) {j k : Nat} {w : Edit.Wrap}
    (found : g ∈ guards p) (call : g.call = .wrap w) (seat : g.Seat p n turns)
    (found' : h ∈ guards p) (other : h.Seat p m others) (leads : Leads n turns m others)
    (below : ¬ (m = n ∧ others = turns)) (member : e ∈ h.call.edits) :
    Edit.Precedes (w.opening, k) (e, j) ∧ Edit.Precedes (e, j) (w.closing, k) := by
  obtain ⟨covers, deeper⟩ := seat.covers_of_leads nested other leads
  have deeper := deeper.resolve_right below
  obtain ⟨span, depth⟩ := of_call_eq_wrap call
  have wide := (recorded h found').1
  rcases h.call_eq with ⟨-, text, replaced⟩ | ⟨-, before, after, wrapped⟩
  · rw [replaced] at member
    obtain rfl := List.mem_singleton.mp member
    have part : (Edit.replace h.span text).anchor = .replacing := by
      simp [Edit.replace, Nat.ne_of_lt wide]
    obtain ⟨starts, stops⟩ := covers_iff.mp covers
    rw [Edit.opening_precedes_replacing _ _ _ part, Edit.replacing_precedes_closing _ _ _ part, span]
    exact ⟨starts, Nat.lt_of_lt_of_le wide stops⟩
  · have call' : ∀ {g : Guard} {w : Edit.Wrap}, g ∈ guards p → g.call = .wrap w → .wrap w ∈ guardCalls p :=
      fun member same => List.mem_map.mpr ⟨_, member, same⟩
    have between := Edit.Nesting.between (j := j) (k := k) (nesting_guardCalls nested recorded)
      (call' found' wrapped) (call' found call)
    have inside : Edit.Inside (⟨h.span, before, after, h.depth⟩, j) (w, k) := by
      rw [Edit.Inside, span, depth]
      exact ⟨covers, fun _ => .inl deeper⟩
    rw [wrapped] at member
    simp only [Edit.Call.edits, Edit.wrap, List.mem_cons, List.not_mem_nil, or_false] at member
    rcases member with rfl | rfl
    · exact between.1.mpr inside
    · exact between.2.mpr inside

/-- In a program whose nodes lie in the spans of the nodes above, with siblings apart, the checks for all
guards go into the text together. Every guard has its seat, and the wrapper of one that is not for a
property that is only its name encloses the text of its seat with all that is put there for the guards
further down. -/
theorem guards_spliced (file : SourceFile) (text : String) (nested : p.Nested) (named : ShorthandNames p)
    (recorded : InText p text.toList) :
    let ms := Edit.marks (Edit.numbered (guardCalls p)) 0 text.toList
    (∃ done, (browserGlobalGuards.draft ⟨p, text.toList, file⟩).finish text = .ok done ∧
      done.code = String.ofList (ms.flatMap Mark.printed)) ∧
    ms.flatMap Mark.source = text.toList ∧ (Edit.puts ms).Perm (Edit.numbered (guardCalls p)) ∧
    Edit.Balanced ms ∧
    (∀ g ∈ guards p, ∃ n turns, g.Seat p n turns) ∧
    ∀ k g n turns, (guards p)[k]? = some g → g.Seat p n turns → g.kind ≠ .shorthand →
      ∃ w inside, g.call = .wrap w ∧ w.span = n.span ∧
        Edit.Encloses (guardCalls p) text.toList ms w k inside ∧
        ∀ j h m others, (guards p)[j]? = some h → h.Seat p m others → Leads n turns m others →
          ¬ (m = n ∧ others = turns) → ∀ e ∈ h.edits, .put e j ∈ inside := by
  intro ms
  have nesting := nesting_guardCalls nested recorded
  have printable := printable_guardCalls nested named recorded
  have bounded : ∀ e ∈ (guardCalls p).flatMap Edit.Call.edits, Text.IsBoundary text.toList e.span.start :=
    fun _ member => (bounded_guardCalls recorded member).1
  have numbered : ∀ {k : Nat} {g : Guard}, (guards p)[k]? = some g → (guardCalls p)[k]? = some g.call := by
    intro k g found
    rw [guardCalls, List.getElem?_map, found]
    rfl
  refine ⟨?_, Edit.source_marks _ _ _, Edit.numbered_perm bounded,
    (Edit.bracketed_marks bounded).balanced nesting, fun g => exists_seat, ?_⟩
  · refine finish_of_applyAll ?_
    rw [draft_edits]
    exact Edit.applyAll_of_printable printable (formed_guardCalls recorded) (Edit.map_numbered _)
  · intro k g n turns found seat kind
    rcases g.call_eq with ⟨shorthand, -⟩ | ⟨-, before, after, call⟩
    · exact absurd shorthand kind
    · obtain ⟨inside, encloses⟩ := nesting.encloses bounded ((numbered found).trans (congrArg some call))
      refine ⟨_, inside, call, seat.span, encloses, ?_⟩
      intro j h m others found' other leads below e member
      rw [← edits_call] at member
      have among : (e, j) ∈ Edit.numbered (guardCalls p) :=
        Edit.mem_numbered.mpr ⟨_, numbered found', member⟩
      exact (encloses.edits _ among).mpr
        (between_of_leads nested recorded (List.mem_of_getElem? found) call seat
          (List.mem_of_getElem? found') other leads below member)

/-- The program `window.a = [document, { navigator }];`. -/
def assignment : Program :=
  let target : Tree := .member (.identifier "window" ⟨0, 6⟩) ⟨"a", ⟨7, 8⟩⟩ false ⟨0, 8⟩
  let property : Tree :=
    .property (.name "navigator" ⟨24, 33⟩) false (.identifier "navigator" ⟨24, 33⟩) true none ⟨24, 33⟩
  let value : Tree := .array [.identifier "document" ⟨12, 20⟩, .object [property] ⟨22, 35⟩] ⟨11, 36⟩
  ⟨⟨0, 37⟩, none, [], [.expression (.assign false target value ⟨0, 36⟩) ⟨0, 37⟩]⟩

theorem assignment_laid : assignment.Laid := by
  have alone : ∀ {lo hi : Nat} {t : Tree}, t.Sound → t.front = [] → lo ≤ t.span.start →
      InOrder t.span.start t.span.stop t.parts → t.span.stop ≤ hi → InOrder lo hi [t] := by
    intro lo hi t sound bare starts parts stops
    have front : InOrder lo lo t.front := by
      rw [bare]
      exact .nil Nat.le.refl
    exact .cons sound starts front (parts.mono (Nat.max_le.mpr ⟨starts, Nat.le.refl⟩) Nat.le.refl)
      stops (.nil Nat.le.refl)
  have name : ∀ {lo hi start stop : Nat} {text : String}, lo ≤ start → start < stop → stop ≤ hi →
      InOrder lo hi [.identifier text ⟨start, stop⟩] := fun starts wide stops =>
    alone wide rfl starts (.nil wide.le) stops
  refine alone trivial rfl (by decide) (alone trivial rfl (by decide) ?_ (by decide)) (by decide)
  refine @InOrder.append 0 8 36 [_] [_] ?_ ?_
  · exact alone trivial rfl (by decide) (name (by decide) (by decide) (by decide)) (by decide)
  · refine alone trivial rfl (by decide) (@InOrder.append 11 20 36 [_] [_] ?_ ?_) (by decide)
    · exact name (by decide) (by decide) (by decide)
    · refine alone trivial rfl (by decide) ?_ (by decide)
      refine alone ⟨fun _ => rfl, fun _ => rfl, nofun⟩ rfl (by decide) ?_ (by decide)
      exact name (by decide) (by decide) (by decide)

theorem guards_spliced_assignment :
    let text := "window.a = [document, \x7b navigator \x7d];"
    let file : SourceFile := ⟨⟨"a.js"⟩, .script ⟨false, false, true, .module⟩, none⟩
    assignment.Nested ∧ ShorthandNames assignment ∧ InText assignment text.toList ∧
    ∃ done, (browserGlobalGuards.draft ⟨assignment, text.toList, file⟩).finish text = .ok done ∧
      done.code = "if (typeof window !== \"undefined\") \x7b window.a = " ++
        "[(typeof document !== \"undefined\" ? document : undefined), " ++
        "\x7b navigator: (typeof navigator !== \"undefined\" ? navigator : undefined) \x7d]; \x7d" := by
  intro text file
  have nested := assignment_laid.nested
  have named : ShorthandNames assignment := shorthandNames_of_walk assignment_laid (by decide +kernel)
  have inText : InText assignment text.toList := by
    unfold InText
    decide +kernel
  obtain ⟨⟨done, finished, code⟩, -⟩ := guards_spliced file text nested named inText
  refine ⟨nested, named, inText, done, finished, code.trans ?_⟩
  decide +kernel

end SourceRepair.Repair
