import SourceRepair.Proofs.Edit.Printed

/-!
# Nested wrappers

The opening and closing texts of wrappers are edits of their own, and only the order of the edits brings
them together again. If the spans of the wrappers are nested or apart, and an outer one has the smaller
depth, then the texts pair up like brackets: `Bracketed` says what a part of the marked text needs for
that, and `Bracketed.balanced` that it is enough.
-/

namespace SourceRepair.Edit

/-- The opening and closing texts pair up like brackets. -/
inductive Balanced : List Mark → Prop
  | nil : Balanced []
  | kept {c : Char} {ms : List Mark} (rest : Balanced ms) : Balanced (.kept c :: ms)
  | dropped {c : Char} {ms : List Mark} (rest : Balanced ms) : Balanced (.dropped c :: ms)
  | put {e : Edit} {k : Nat} {ms : List Mark} (part : e.anchor = .plain ∨ e.anchor = .replacing)
    (rest : Balanced ms) : Balanced (.put e k :: ms)
  | pair {w : Wrap} {k : Nat} {inside ms : List Mark} (inner : Balanced inside) (rest : Balanced ms) :
    Balanced (.put w.opening k :: inside ++ .put w.closing k :: ms)

/-- The wrappers among some calls have text inside, are nested or apart, and have smaller depths the
further out they are. -/
structure Nesting (calls : List Call) : Prop where
  wide : ∀ w, .wrap w ∈ calls → w.span.start < w.span.stop
  laminar : ∀ v w, .wrap v ∈ calls → .wrap w ∈ calls →
    v.span.stop ≤ w.span.start ∨ w.span.stop ≤ v.span.start ∨
      v.span.covers w.span ∨ w.span.covers v.span
  deeper : ∀ v w, .wrap v ∈ calls → .wrap w ∈ calls →
    v.span.covers w.span → v.span ≠ w.span → v.depth < w.depth

/-- The first wrapper belongs inside the second. Each has the number of its call. -/
def Inside (v w : Wrap × Nat) : Prop :=
  w.1.span.covers v.1.span ∧
    (v.1.span = w.1.span → w.1.depth < v.1.depth ∨ w.1.depth = v.1.depth ∧ w.2 < v.2)

/-! ### The order of opening and closing texts -/

@[simp] theorem opening_ne_closing (v w : Wrap) : v.opening ≠ w.closing := by
  simp [Wrap.opening, Wrap.closing]

@[simp] theorem closing_ne_opening (v w : Wrap) : v.closing ≠ w.opening :=
  (opening_ne_closing w v).symm

section Order

variable (v w : Wrap) (j k : Nat)

theorem opening_precedes_opening : Precedes (v.opening, j) (w.opening, k) ↔
    v.span.start < w.span.start ∨ v.span.start = w.span.start ∧
      (v.depth < w.depth ∨ v.depth = w.depth ∧ j < k) := by
  simp only [Precedes, key, Wrap.opening, Span.point, Prod.Lex.toLex_lt_toLex, true_and]
  omega

theorem closing_precedes_closing : Precedes (v.closing, j) (w.closing, k) ↔
    v.span.stop < w.span.stop ∨ v.span.stop = w.span.stop ∧
      (w.depth < v.depth ∨ w.depth = v.depth ∧ k < j) := by
  simp only [Precedes, key, Wrap.closing, Span.point, Prod.Lex.toLex_lt_toLex, true_and]
  omega

theorem opening_precedes_closing :
    Precedes (v.opening, j) (w.closing, k) ↔ v.span.start < w.span.stop := by
  simp only [Precedes, key, Wrap.opening, Wrap.closing, Span.point, Anchor.rank, Prod.Lex.toLex_lt_toLex]
  omega

theorem closing_precedes_opening :
    Precedes (v.closing, j) (w.opening, k) ↔ v.span.stop ≤ w.span.start := by
  simp only [Precedes, key, Wrap.opening, Wrap.closing, Span.point, Anchor.rank, Prod.Lex.toLex_lt_toLex]
  omega

variable {e : Edit} (part : e.anchor = .replacing)
include part

theorem opening_precedes_replacing : Precedes (w.opening, k) (e, j) ↔ w.span.start ≤ e.span.start := by
  simp only [Precedes, key, Wrap.opening, Span.point, part, Anchor.rank, Prod.Lex.toLex_lt_toLex]
  omega

theorem replacing_precedes_closing : Precedes (e, j) (w.closing, k) ↔ e.span.start < w.span.stop := by
  simp only [Precedes, key, Wrap.closing, Span.point, part, Anchor.rank, Prod.Lex.toLex_lt_toLex]
  omega

end Order

variable {calls : List Call} {v w : Wrap} {j k : Nat}

/-- A wrapper opens inside another exactly if it belongs there, and then it closes there as well. -/
theorem Nesting.between (nesting : Nesting calls) (first : .wrap v ∈ calls) (second : .wrap w ∈ calls) :
    ((Precedes (w.opening, k) (v.opening, j) ∧ Precedes (v.opening, j) (w.closing, k)) ↔
      Inside (v, j) (w, k)) ∧
    ((Precedes (w.opening, k) (v.closing, j) ∧ Precedes (v.closing, j) (w.closing, k)) ↔
      Inside (v, j) (w, k)) := by
  have wideV := nesting.wide v first
  have wideW := nesting.wide w second
  have laminar := nesting.laminar v w first second
  have outer := nesting.deeper v w first second
  have inner : w.span.covers v.span → v.span ≠ w.span → w.depth < v.depth :=
    fun covers differ => nesting.deeper w v second first covers differ.symm
  have equal : v.span = w.span ↔ v.span.start = w.span.start ∧ v.span.stop = w.span.stop := by
    cases v.span
    cases w.span
    simp
  rw [Ne, equal] at outer inner
  simp only [opening_precedes_opening, opening_precedes_closing, closing_precedes_closing, Inside,
    equal, Span.covers, Bool.and_eq_true, decide_eq_true_eq] at *
  omega

/-! ### Between two texts -/

theorem Precedes.irrefl (a : Edit × Nat) : ¬ Precedes a a := lt_irrefl (key a)

theorem Precedes.asymm {a b : Edit × Nat} (before : Precedes a b) : ¬ Precedes b a := lt_asymm before

/-- In a list in order the edits between two others are those that come between them. -/
theorem mem_between {a b e : Edit × Nat} {front inside back : List (Edit × Nat)}
    (order : (front ++ a :: (inside ++ b :: back)).Pairwise Precedes)
    (member : e ∈ front ++ a :: (inside ++ b :: back)) :
    e ∈ inside ↔ Precedes a e ∧ Precedes e b := by
  obtain ⟨-, rest, first⟩ := List.pairwise_append.mp order
  obtain ⟨afterA, rest⟩ := List.pairwise_cons.mp rest
  obtain ⟨-, behind, beforeB⟩ := List.pairwise_append.mp rest
  constructor
  · intro found
    exact ⟨afterA e (by simp [found]), beforeB e found b (by simp)⟩
  · rintro ⟨after, before⟩
    rcases List.mem_append.mp member with early | late
    · exact absurd after (first e early a (by simp)).asymm
    · rcases List.mem_cons.mp late with rfl | late
      · exact absurd after (Precedes.irrefl e)
      · rcases List.mem_append.mp late with found | late
        · exact found
        · rcases List.mem_cons.mp late with rfl | late
          · exact absurd before (Precedes.irrefl e)
          · exact absurd before ((List.pairwise_cons.mp behind).1 e late).asymm

/-! ### Parts of a marked text -/

/-- The edits of some calls are marked in order, and with an opening text the closing one of the same
wrapper. -/
structure Bracketed (calls : List Call) (ms : List Mark) : Prop where
  order : (puts ms).Pairwise Precedes
  known : ∀ e ∈ puts ms, e ∈ numbered calls
  paired : ∀ w k, calls[k]? = some (.wrap w) → ((w.opening, k) ∈ puts ms ↔ (w.closing, k) ∈ puts ms)

/-- What is marked between the texts of a wrapper. -/
theorem Bracketed.inside (nesting : Nesting calls) (front : List Mark) {inside back : List Mark}
    (found : calls[k]? = some (.wrap w))
    (bracketed : Bracketed calls (front ++ .put w.opening k :: (inside ++ .put w.closing k :: back))) :
    Bracketed calls inside := by
  obtain ⟨order, known, paired⟩ := bracketed
  simp only [puts_append, puts_put] at order known paired
  refine ⟨?_, fun e member => known e (by simp [member]), ?_⟩
  · exact (List.pairwise_append.mp (List.pairwise_cons.mp (List.pairwise_append.mp order).2.1).2).1
  · intro v j other
    have first := List.mem_of_getElem? other
    have second := List.mem_of_getElem? found
    obtain ⟨opens, closes⟩ := nesting.between (j := j) (k := k) first second
    constructor
    · intro member
      have whole := (paired v j other).mp (by simp [member])
      have between := (mem_between order (by simp [member])).mp member
      exact (mem_between order whole).mpr (closes.mpr (opens.mp between))
    · intro member
      have whole := (paired v j other).mpr (by simp [member])
      have between := (mem_between order (by simp [member])).mp member
      exact (mem_between order whole).mpr (opens.mpr (closes.mp between))

/-- What is marked behind a wrapper. -/
theorem Bracketed.behind (nesting : Nesting calls) {inside back : List Mark}
    (found : calls[k]? = some (.wrap w))
    (bracketed : Bracketed calls (.put w.opening k :: (inside ++ .put w.closing k :: back))) :
    Bracketed calls back := by
  have inner := Bracketed.inside nesting [] found bracketed
  obtain ⟨order, known, paired⟩ := bracketed
  simp only [puts_append, puts_put] at order known paired
  have distinct : ((w.opening, k) :: (puts inside ++ (w.closing, k) :: puts back)).Nodup :=
    order.imp fun before => ne_of_apply_ne key (ne_of_lt before)
  -- What is not marked behind the wrapper is marked inside or belongs to the wrapper itself.
  have split : ∀ e, e ∈ puts back ↔ e ∈ (w.opening, k) :: (puts inside ++ (w.closing, k) :: puts back) ∧
      e ∉ puts inside ∧ e ≠ (w.opening, k) ∧ e ≠ (w.closing, k) := by
    intro e
    grind
  refine ⟨?_, fun e member => known e (by simp [member]), ?_⟩
  · exact (List.pairwise_cons.mp (List.pairwise_append.mp (List.pairwise_cons.mp order).2).2.1).2
  · intro v j other
    have itself : (v.opening, j) ≠ (w.opening, k) ↔ (v.closing, j) ≠ (w.closing, k) := by
      by_cases same : j = k
      · subst same
        rw [other] at found
        cases found
        simp
      · simp [same]
    rw [split, split, paired v j other, inner.paired v j other, itself]
    simp

theorem part_of_edits {c : Call} {e : Edit} (member : e ∈ c.edits) :
    e.anchor = .plain ∨ e.anchor = .replacing ∨ ∃ w, c = .wrap w ∧ (e = w.opening ∨ e = w.closing) := by
  have replaced : ∀ span text, (replace span text).anchor = .plain ∨
      (replace span text).anchor = .replacing := by
    intro span text
    simp only [replace]
    split <;> simp
  cases c with
  | insert offset text =>
    obtain rfl := List.mem_singleton.mp member
    exact .inl rfl
  | replace span text =>
    obtain rfl := List.mem_singleton.mp member
    exact (replaced span text).imp id .inl
  | remove span =>
    obtain rfl := List.mem_singleton.mp member
    exact (replaced span "").imp id .inl
  | wrap w =>
    refine .inr (.inr ⟨w, rfl, ?_⟩)
    simpa [Call.edits, Edit.wrap, Wrap.opening, Wrap.closing] using member

/-- What is marked behind a text of no wrapper. -/
theorem Bracketed.tail {e : Edit} {ms : List Mark} (part : e.anchor = .plain ∨ e.anchor = .replacing)
    (bracketed : Bracketed calls (.put e k :: ms)) : Bracketed calls ms := by
  obtain ⟨order, known, paired⟩ := bracketed
  simp only [puts_put] at order known paired
  refine ⟨(List.pairwise_cons.mp order).2, fun f member => known f (by simp [member]), ?_⟩
  intro v j other
  have opens : (v.opening, j) ≠ (e, k) := by
    rintro same
    cases same
    simp [Wrap.opening] at part
  have closes : (v.closing, j) ≠ (e, k) := by
    rintro same
    cases same
    simp [Wrap.closing] at part
  simpa [opens, closes] using paired v j other

/-- The texts of wrappers that are nested or apart pair up like brackets. -/
theorem Bracketed.balanced (nesting : Nesting calls) {ms : List Mark}
    (bracketed : Bracketed calls ms) : Balanced ms := by
  -- The induction is on the length: what an opening text encloses and what comes behind it is shorter.
  induction size : ms.length using Nat.strong_induction_on generalizing ms with
  | h n ih =>
    cases ms with
    | nil => exact .nil
    | cons m ms =>
      simp only [List.length_cons] at size
      cases m with
      | kept c =>
        exact .kept (ih ms.length (by omega) ⟨bracketed.order, bracketed.known, bracketed.paired⟩ rfl)
      | dropped c =>
        exact .dropped (ih ms.length (by omega) ⟨bracketed.order, bracketed.known, bracketed.paired⟩ rfl)
      | put e k =>
        obtain ⟨c, found, inside⟩ := mem_numbered.mp (bracketed.known (e, k) (by simp))
        rcases part_of_edits inside with plain | replacing | ⟨w, rfl, rfl | rfl⟩
        · exact .put (.inl plain) (ih ms.length (by omega) (bracketed.tail (.inl plain)) rfl)
        · exact .put (.inr replacing) (ih ms.length (by omega) (bracketed.tail (.inr replacing)) rfl)
        · have closes : (w.closing, k) ∈ puts ms := by
            have := (bracketed.paired w k found).mp (by simp)
            simpa using this
          obtain ⟨inner, back, rfl⟩ := List.append_of_mem (mem_puts.mp closes)
          rw [List.length_append, List.length_cons] at size
          exact .pair (ih inner.length (by omega) (Bracketed.inside nesting [] found bracketed) rfl)
            (ih back.length (by omega) (bracketed.behind nesting found) rfl)
        · -- A closing text cannot come first: the opening one stands in front of it.
          exfalso
          have opens : (w.opening, k) ∈ puts ms := by
            have := (bracketed.paired w k found).mpr (by simp)
            simpa using this
          have before := (List.pairwise_cons.mp bracketed.order).1 _ opens
          have wide := nesting.wide w (List.mem_of_getElem? found)
          have := (closing_precedes_opening w w k k).mp before
          omega

/-! ### Marked texts with wrappers -/

variable {source : List Char}

theorem wrap_numbered (found : calls[k]? = some (.wrap w)) :
    (w.opening, k) ∈ numbered calls ∧ (w.closing, k) ∈ numbered calls :=
  ⟨mem_numbered.mpr ⟨_, found, List.mem_cons_self⟩,
    mem_numbered.mpr ⟨_, found, List.mem_cons_of_mem _ List.mem_cons_self⟩⟩

/-- The edits of all calls are marked, each once. -/
theorem numbered_perm (bounded : ∀ e ∈ calls.flatMap Call.edits, Text.IsBoundary source e.span.start) :
    (puts (marks (numbered calls) 0 source)).Perm (numbered calls) :=
  puts_marks_perm (rising_numbered calls) fun e member => bounded e.1 (edit_of_numbered member)

theorem bracketed_marks (bounded : ∀ e ∈ calls.flatMap Call.edits, Text.IsBoundary source e.span.start) :
    Bracketed calls (marks (numbered calls) 0 source) := by
  have perm := numbered_perm bounded
  refine ⟨puts_marks_pairwise (rising_numbered calls) 0 source, fun e => perm.mem_iff.mp, ?_⟩
  intro w k found
  obtain ⟨opens, closes⟩ := wrap_numbered found
  rw [perm.mem_iff, perm.mem_iff]
  exact ⟨fun _ => closes, fun _ => opens⟩

/-- A part of a marked text is what a wrapper encloses: the marked text of its span, in which brackets
pair up, with all edits that come between its opening and its closing text. -/
structure Encloses (calls : List Call) (source : List Char) (ms : List Mark) (w : Wrap) (k : Nat)
    (inside : List Mark) : Prop where
  split : ∃ front back, ms = front ++ .put w.opening k :: (inside ++ .put w.closing k :: back) ∧
    Text.byteLength (front.flatMap Mark.source) = w.span.start
  text : inside.flatMap Mark.source = Text.slice source w.span
  balanced : Balanced inside
  edits : ∀ e ∈ numbered calls,
    .put e.1 e.2 ∈ inside ↔ Precedes (w.opening, k) e ∧ Precedes e (w.closing, k)

theorem Nesting.encloses (nesting : Nesting calls)
    (bounded : ∀ e ∈ calls.flatMap Call.edits, Text.IsBoundary source e.span.start)
    (found : calls[k]? = some (.wrap w)) :
    ∃ inside, Encloses calls source (marks (numbered calls) 0 source) w k inside := by
  have bracketed := bracketed_marks bounded
  have wide := nesting.wide w (List.mem_of_getElem? found)
  have marked := fun e => (numbered_perm bounded).mem_iff (a := e)
  have placed := placed_marks (numbered calls) 0 source
  have whole := source_marks (numbered calls) 0 source
  have opens := (marked (w.opening, k)).mpr (wrap_numbered found).1
  have closes := (marked (w.closing, k)).mpr (wrap_numbered found).2
  generalize marks (numbered calls) 0 source = ms at *
  obtain ⟨front, tail, rfl⟩ := List.append_of_mem (mem_puts.mp opens)
  have later : (w.closing, k) ∈ puts tail := by
    have order := bracketed.order
    rw [puts_append, puts_put] at order closes
    rcases List.mem_append.mp closes with early | late
    · have before := (List.pairwise_append.mp order).2.2 _ early (w.opening, k) (by simp)
      have := (closing_precedes_opening w w k k).mp before
      omega
    · simpa using late
  obtain ⟨inside, back, rfl⟩ := List.append_of_mem (mem_puts.mp later)
  have starts := placed.start_eq
  have closing : Placed 0 ((front ++ .put w.opening k :: inside) ++ .put w.closing k :: back) := by
    simpa using placed
  have stops := closing.start_eq
  simp only [Wrap.opening, Wrap.closing, Span.point, Nat.zero_add, List.flatMap_append,
    List.flatMap_cons, Mark.source, List.nil_append, Text.byteLength_append] at starts stops
  refine ⟨inside, ⟨front, back, rfl, starts.symm⟩, ?_, ?_, ?_⟩
  · have span : w.span = ⟨Text.byteLength (front.flatMap Mark.source),
        Text.byteLength (front.flatMap Mark.source) + Text.byteLength (inside.flatMap Mark.source)⟩ := by
      rw [← stops, ← starts]
    rw [span, ← whole]
    simp only [List.flatMap_append, List.flatMap_cons, Mark.source, List.nil_append]
    rw [← List.append_assoc, Text.slice_append]
  · exact (Bracketed.inside nesting front found bracketed).balanced nesting
  · intro e member
    have among := (marked e).mpr member
    have order := bracketed.order
    simp only [puts_append, puts_put] at order among
    rw [← mem_puts]
    exact mem_between order among

/-! ### Families of wrappers -/

theorem dropped_mem_marks {es : List (Edit × Nat)} {o : Nat} {c : Char}
    (dropped : .dropped c ∈ marks es o source) : ∃ e ∈ es, e.1.anchor = .replacing := by
  induction source generalizing o with
  | nil => simp [marks] at dropped
  | cons d source ih =>
    rw [marks, List.mem_append, List.mem_cons] at dropped
    rcases dropped with put | here | later
    · simp at put
    · split at here
      · rename_i replaced
        obtain ⟨e, member, holds⟩ := List.any_eq_true.mp replaced
        simp only [Bool.and_eq_true, beq_iff_eq] at holds
        exact ⟨e, member, holds.1.1⟩
      · cases here
    · exact ih later

/-- A marked text shows some wrappers as brackets: their texts are put into the text, each once, and pair
up, and each pair encloses the text of its span with the texts of all wrappers that belong inside. -/
structure Wrapped (wraps : List Wrap) (source : List Char) (ms : List Mark) : Prop where
  whole : ms.flatMap Mark.source = source
  kept : ∀ c, .dropped c ∉ ms
  once : (puts ms).Perm (numbered (wraps.map .wrap))
  balanced : Balanced ms
  encloses : ∀ k w, wraps[k]? = some w → ∃ inside, Encloses (wraps.map .wrap) source ms w k inside ∧
    ∀ j v, wraps[j]? = some v → (.put v.opening j ∈ inside ↔ Inside (v, j) (w, k)) ∧
      (.put v.closing j ∈ inside ↔ Inside (v, j) (w, k))

section Family

variable {wraps : List Wrap}

theorem mem_wraps_edits {e : Edit} :
    e ∈ (wraps.map Call.wrap).flatMap Call.edits ↔ ∃ w ∈ wraps, e = w.opening ∨ e = w.closing := by
  simp [Call.edits, Edit.wrap, Wrap.opening, Wrap.closing]

theorem wraps_plain {e : Edit} (member : e ∈ (wraps.map Call.wrap).flatMap Call.edits) :
    e.anchor ≠ .replacing := by
  obtain ⟨w, -, rfl | rfl⟩ := mem_wraps_edits.mp member <;> nofun

theorem printable_wraps : Printable ((wraps.map Call.wrap).flatMap Call.edits) source ↔
    ∀ w ∈ wraps, Text.IsBoundary source w.span.start ∧ Text.IsBoundary source w.span.stop := by
  constructor
  · intro printable w among
    exact ⟨(printable.bounded _ (mem_wraps_edits.mpr ⟨w, among, .inl rfl⟩)).1,
      (printable.bounded _ (mem_wraps_edits.mpr ⟨w, among, .inr rfl⟩)).1⟩
  · intro bounded
    refine ⟨?_, ?_, fun r member replacing => absurd replacing (wraps_plain member)⟩
    · intro e member
      obtain ⟨w, among, rfl | rfl⟩ := mem_wraps_edits.mp member
      · exact ⟨(bounded w among).1, (bounded w among).1⟩
      · exact ⟨(bounded w among).2, (bounded w among).2⟩
    · exact List.pairwise_of_forall_mem_list fun a first _ _ replacing =>
        absurd replacing (wraps_plain first)

theorem wrapped_marks (nesting : Nesting (wraps.map .wrap))
    (bounded : ∀ e ∈ (wraps.map Call.wrap).flatMap Call.edits, Text.IsBoundary source e.span.start) :
    Wrapped wraps source (marks (numbered (wraps.map .wrap)) 0 source) := by
  refine ⟨source_marks _ _ _, ?_, numbered_perm bounded, (bracketed_marks bounded).balanced nesting, ?_⟩
  · intro c dropped
    obtain ⟨e, member, replacing⟩ := dropped_mem_marks dropped
    exact wraps_plain (edit_of_numbered member) replacing
  · intro k w found
    have call : ∀ {j : Nat} {v : Wrap}, wraps[j]? = some v →
        (wraps.map Call.wrap)[j]? = some (.wrap v) := by
      intro j v other
      rw [List.getElem?_map, other]
      rfl
    obtain ⟨inside, encloses⟩ := nesting.encloses bounded (call found)
    refine ⟨inside, encloses, fun j v other => ?_⟩
    obtain ⟨opens, closes⟩ := wrap_numbered (call other)
    obtain ⟨openInside, closeInside⟩ := nesting.between (j := j) (k := k)
      (List.mem_of_getElem? (call other)) (List.mem_of_getElem? (call found))
    exact ⟨(encloses.edits _ opens).trans openInside, (encloses.edits _ closes).trans closeInside⟩

/-- Wrappers of spans that are nested or apart, recorded in any order, nest in what is printed if outer
ones have smaller depths. They can be made in a text exactly if their spans lie between its characters. -/
theorem wraps_nest (nesting : Nesting (wraps.map .wrap)) (text : String) :
    let edits := wraps.flatMap fun w => Edit.wrap w.span w.before w.after w.depth
    let ms := marks (numbered (wraps.map .wrap)) 0 text.toList
    ((∃ out, applyAll edits text = .ok out) ↔ ∀ w ∈ wraps,
      Text.IsBoundary text.toList w.span.start ∧ Text.IsBoundary text.toList w.span.stop) ∧
    ∀ out, applyAll edits text = .ok out →
      out = String.ofList (ms.flatMap Mark.printed) ∧ Wrapped wraps text.toList ms := by
  intro edits ms
  have recorded : edits = (wraps.map Call.wrap).flatMap Call.edits := by
    rw [List.flatMap_map]
    rfl
  have formed : ∀ e ∈ edits, Formed e := by
    rw [recorded]
    refine formed_of_ordered fun c among => ?_
    obtain ⟨w, member, rfl⟩ := List.mem_map.mp among
    exact (nesting.wide w among).le
  have prints : Printable edits text.toList →
      applyAll edits text = .ok (String.ofList (ms.flatMap Mark.printed)) :=
    fun printable => applyAll_of_printable printable formed (recorded ▸ map_numbered _)
  rw [← printable_wraps, ← recorded]
  refine ⟨⟨?_, fun printable => ⟨_, prints printable⟩⟩, ?_⟩
  · rintro ⟨out, applied⟩
    exact printable_of_ok formed applied
  · intro out applied
    have printable := printable_of_ok formed applied
    have printed := prints printable
    rw [applied] at printed
    refine ⟨Except.ok.inj printed, wrapped_marks nesting fun e member => ?_⟩
    exact (printable.bounded e (recorded ▸ member)).1

/-- A wrapper of the first character, one of the next, and two of the whole text. -/
def fourWraps : List Wrap :=
  [⟨⟨0, 1⟩, "<", ">", 7⟩, ⟨⟨0, 4⟩, "(", ")", 1⟩, ⟨⟨1, 3⟩, "«", "»", 2⟩, ⟨⟨0, 4⟩, "[", "]", 1⟩]

theorem wraps_nest_shared :
    Nesting (fourWraps.map .wrap) ∧
    applyAll (fourWraps.flatMap fun w => Edit.wrap w.span w.before w.after w.depth) "aéc" =
      .ok "([<a>«é»c])" ∧
    Wrapped fourWraps "aéc".toList (marks (numbered (fourWraps.map .wrap)) 0 "aéc".toList) := by
  have nesting : Nesting (fourWraps.map .wrap) := by
    have among : ∀ {w : Wrap}, .wrap w ∈ fourWraps.map Call.wrap → w ∈ fourWraps := by
      simp
    have laminar : ∀ v ∈ fourWraps, ∀ w ∈ fourWraps, v.span.stop ≤ w.span.start ∨
        w.span.stop ≤ v.span.start ∨ v.span.covers w.span ∨ w.span.covers v.span := by
      decide +kernel
    have deeper : ∀ v ∈ fourWraps, ∀ w ∈ fourWraps, v.span.covers w.span → v.span ≠ w.span →
        v.depth < w.depth := by
      decide +kernel
    have wide : ∀ w ∈ fourWraps, w.span.start < w.span.stop := by
      decide +kernel
    exact ⟨fun w member => wide w (among member),
      fun v w first second => laminar v (among first) w (among second),
      fun v w first second => deeper v (among first) w (among second)⟩
  obtain ⟨iff, prints⟩ := wraps_nest nesting "aéc"
  obtain ⟨out, applied⟩ := iff.mpr (by decide +kernel)
  obtain ⟨printed, wrapped⟩ := prints out applied
  rw [printed] at applied
  refine ⟨nesting, applied.trans (congrArg Except.ok ?_), wrapped⟩
  decide +kernel

end Family

end SourceRepair.Edit
