import SourceRepair.Proofs.Edit.Order
import SourceRepair.Proofs.Text.Offset

/-!
# Marked texts

A text in which edits are marked lists its characters from left to right, with the edits at each offset
in front of the character there. A character in a replaced range is dropped, every other one is kept. So
the text itself can be read off the marks, and what is printed is the texts of the edits and the kept
characters.
-/

namespace SourceRepair

/-- A step through a text in which edits are marked. -/
inductive Mark where
  | put (e : Edit) (number : Nat)
  | kept (c : Char)
  | dropped (c : Char)
deriving DecidableEq, Repr

namespace Mark

/-- What is printed for the step. -/
def printed : Mark → List Char
  | put e _ => e.text.toList
  | kept c => [c]
  | dropped _ => []

/-- What the step goes over. -/
def source : Mark → List Char
  | put _ _ => []
  | kept c | dropped c => [c]

def edit? : Mark → Option (Edit × Nat)
  | put e n => some (e, n)
  | _ => none

end Mark

namespace Edit

/-- The offset lies in a replaced range. -/
def replacedAt (es : List (Edit × Nat)) (o : Nat) : Bool :=
  es.any fun e => e.1.anchor == .replacing && e.1.span.start ≤ o && o < e.1.span.stop

/-- The steps through a text that starts at an offset. -/
def marks (es : List (Edit × Nat)) : Nat → List Char → List Mark
  | o, [] => (editsAt es o).map fun e => .put e.1 e.2
  | o, c :: cs =>
    (editsAt es o).map (fun e => .put e.1 e.2) ++
      (if replacedAt es o then .dropped c else .kept c) :: marks es (o + c.utf8Size) cs

/-- The marked edits. -/
def puts (ms : List Mark) : List (Edit × Nat) := ms.filterMap Mark.edit?

variable {es : List (Edit × Nat)} {o : Nat} {cs : List Char} {ms : List Mark}

@[simp] theorem puts_append (ms ns : List Mark) : puts (ms ++ ns) = puts ms ++ puts ns :=
  List.filterMap_append

@[simp] theorem puts_put (e : Edit) (n : Nat) (ms : List Mark) :
    puts (.put e n :: ms) = (e, n) :: puts ms := rfl

@[simp] theorem puts_kept (c : Char) (ms : List Mark) : puts (.kept c :: ms) = puts ms := rfl

@[simp] theorem puts_dropped (c : Char) (ms : List Mark) : puts (.dropped c :: ms) = puts ms := rfl

@[simp] theorem mem_puts {e : Edit × Nat} : e ∈ puts ms ↔ .put e.1 e.2 ∈ ms := by
  simp only [puts, List.mem_filterMap]
  constructor
  · rintro ⟨m, member, shown⟩
    cases m <;> cases shown
    exact member
  · intro member
    exact ⟨_, member, rfl⟩

@[simp] theorem puts_map_put (es : List (Edit × Nat)) :
    puts (es.map fun e => .put e.1 e.2) = es := by
  induction es with
  | nil => rfl
  | cons e es ih => exact congrArg (e :: ·) ih

theorem puts_marks_cons (es : List (Edit × Nat)) (o : Nat) (c : Char) (cs : List Char) :
    puts (marks es o (c :: cs)) = editsAt es o ++ puts (marks es (o + c.utf8Size) cs) := by
  cases replaced : replacedAt es o <;> simp [marks, replaced]

/-- The marked text is the text that was gone through. -/
theorem source_marks (es : List (Edit × Nat)) (o : Nat) (cs : List Char) :
    (marks es o cs).flatMap Mark.source = cs := by
  have silent : ∀ o, ((editsAt es o).map fun e => Mark.put e.1 e.2).flatMap Mark.source = [] := by
    intro o
    simp [List.flatMap_map, Mark.source]
  induction cs generalizing o with
  | nil => exact silent o
  | cons c cs ih =>
    rw [marks, List.flatMap_append, silent, List.nil_append, List.flatMap_cons, ih]
    cases replacedAt es o <;> rfl

/-- Which edits are marked, and in which order, does not hang on their numbers. -/
theorem map_puts_marks_eq {fs : List (Edit × Nat)} (same : es.map Prod.fst = fs.map Prod.fst) (o : Nat)
    (cs : List Char) :
    (puts (marks es o cs)).map Prod.fst = (puts (marks fs o cs)).map Prod.fst := by
  induction cs generalizing o with
  | nil => rw [marks, marks, puts_map_put, puts_map_put, map_editsAt_eq same]
  | cons c cs ih =>
    rw [puts_marks_cons, puts_marks_cons, List.map_append, List.map_append, map_editsAt_eq same, ih]

/-! ### Where edits are marked -/

theorem le_start_of_mem_puts {e : Edit × Nat} (member : e ∈ puts (marks es o cs)) :
    e ∈ es ∧ o ≤ e.1.span.start := by
  induction cs generalizing o with
  | nil =>
    rw [marks, puts_map_put, mem_editsAt] at member
    exact ⟨member.1, member.2.ge⟩
  | cons c cs ih =>
    rw [puts_marks_cons, List.mem_append, mem_editsAt] at member
    rcases member with ⟨member, rfl⟩ | later
    · exact ⟨member, Nat.le_refl _⟩
    · obtain ⟨member, behind⟩ := ih later
      exact ⟨member, by omega⟩

/-- Every edit that starts on a boundary of the text is marked. -/
theorem mem_puts_marks {e : Edit × Nat} (member : e ∈ es) (behind : o ≤ e.1.span.start)
    (boundary : Text.IsBoundary cs (e.1.span.start - o)) : e ∈ puts (marks es o cs) := by
  induction cs generalizing o with
  | nil =>
    obtain ⟨front, prefixed, length⟩ := boundary
    rw [List.prefix_nil.mp prefixed, Text.byteLength_nil] at length
    rw [marks, puts_map_put, mem_editsAt]
    exact ⟨member, by omega⟩
  | cons c cs ih =>
    rw [puts_marks_cons, List.mem_append, mem_editsAt]
    by_cases here : e.1.span.start = o
    · exact .inl ⟨member, here⟩
    · have past := boundary.not_inside (by omega)
      have rest : Text.IsBoundary cs (e.1.span.start - o - Text.byteLength [c]) :=
        Text.IsBoundary.drop (show Text.IsBoundary ([c] ++ cs) _ from boundary) (by simpa using past)
      rw [Text.byteLength_cons, Text.byteLength_nil, Nat.add_zero] at rest
      exact .inr (ih (by omega) (by rwa [Nat.sub_add_eq]))

theorem puts_marks_pairwise (rising : Rising es) (o : Nat) (cs : List Char) :
    (puts (marks es o cs)).Pairwise Precedes := by
  induction cs generalizing o with
  | nil =>
    rw [marks, puts_map_put]
    exact at_pairwise rising o
  | cons c cs ih =>
    rw [puts_marks_cons, List.pairwise_append]
    refine ⟨at_pairwise rising o, ih _, ?_⟩
    intro a first b second
    have := (mem_editsAt.mp first).2
    have := (le_start_of_mem_puts second).2
    have := c.utf8Size_pos
    simp only [Precedes, key, Prod.Lex.toLex_lt_toLex]
    exact .inl (by omega)

/-- Exactly the given edits are marked, each once. -/
theorem puts_marks_perm (rising : Rising es) (bounded : ∀ e ∈ es, Text.IsBoundary cs e.1.span.start) :
    (puts (marks es 0 cs)).Perm es := by
  have marked : (puts (marks es 0 cs)).Nodup :=
    (puts_marks_pairwise rising 0 cs).imp fun before => ne_of_apply_ne key (ne_of_lt before)
  refine (List.perm_ext_iff_of_nodup marked rising.nodup).mpr fun e => ⟨?_, ?_⟩
  · exact fun put => (le_start_of_mem_puts put).1
  · exact fun member => mem_puts_marks member (Nat.zero_le _) (bounded e member)

/-- Each marked edit stands at its offset in the text that is gone through. -/
def Placed : Nat → List Mark → Prop
  | _, [] => True
  | o, .put e _ :: ms => e.span.start = o ∧ Placed o ms
  | o, .kept c :: ms | o, .dropped c :: ms => Placed (o + c.utf8Size) ms

theorem placed_marks (es : List (Edit × Nat)) (o : Nat) (cs : List Char) :
    Placed o (marks es o cs) := by
  have put : ∀ {o : Nat} {ms : List Mark}, Placed o ms →
      Placed o ((editsAt es o).map (fun e => .put e.1 e.2) ++ ms) := by
    intro o ms placed
    have starts : ∀ e ∈ editsAt es o, e.1.span.start = o := fun e member =>
      (mem_editsAt.mp member).2
    generalize editsAt es o = found at starts
    induction found with
    | nil => exact placed
    | cons e found ih =>
      obtain ⟨first, later⟩ := List.forall_mem_cons.mp starts
      exact ⟨first, ih later⟩
  induction cs generalizing o with
  | nil => simpa [marks] using @put o [] trivial
  | cons c cs ih =>
    rw [marks]
    refine put ?_
    cases replacedAt es o <;> exact ih _

/-- In front of a marked edit stands the text up to its offset. -/
theorem Placed.start_eq {front back : List Mark} {e : Edit} {n : Nat}
    (placed : Placed o (front ++ .put e n :: back)) :
    e.span.start = o + Text.byteLength (front.flatMap Mark.source) := by
  induction front generalizing o with
  | nil => exact placed.1
  | cons m front ih =>
    cases m with
    | put f k => exact ih placed.2
    | kept c | dropped c =>
      have step := ih (o := o + c.utf8Size) placed
      simp only [List.flatMap_cons, Mark.source, Text.byteLength_append, Text.byteLength_cons,
        Text.byteLength_nil]
      omega

end Edit

end SourceRepair
