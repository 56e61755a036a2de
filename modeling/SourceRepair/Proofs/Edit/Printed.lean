import Mathlib.Data.List.Pairwise
import SourceRepair.Proofs.Edit.Marks

/-!
# What edits print

Edits can be made exactly if they are `Printable`: they start and stop between characters, their
replaced ranges do not overlap, and none starts strictly inside a replaced range. What is printed then
is the marked text, with the texts of the edits in their places.
-/

namespace SourceRepair.Edit

/-- The span is not reversed, and exactly replacements have some text in it. -/
def Formed (e : Edit) : Prop :=
  e.span.start ≤ e.span.stop ∧ (e.anchor = .replacing ↔ e.span.start < e.span.stop)

/-- The edits can be made in the text. -/
structure Printable (edits : List Edit) (source : List Char) : Prop where
  bounded : ∀ e ∈ edits, Text.IsBoundary source e.span.start ∧ Text.IsBoundary source e.span.stop
  apart : edits.Pairwise fun a b => a.anchor = .replacing → b.anchor = .replacing →
    a.span.stop ≤ b.span.start ∨ b.span.stop ≤ a.span.start
  outside : ∀ r ∈ edits, r.anchor = .replacing → ∀ e ∈ edits,
    ¬ (r.span.start < e.span.start ∧ e.span.start < r.span.stop)

variable {e : Edit} {edits : List Edit} {cursor : Nat} {rest out source : List Char}

/-! ### Splicing -/

/-- Splicing goes on behind the first edit, after what is kept in front of it. -/
theorem splice_cons_ok : splice (e :: edits) cursor rest = .ok out ↔
    cursor ≤ e.span.start ∧ ∃ kept gone back done, rest = kept ++ (gone ++ back) ∧
      Text.byteLength kept = e.span.start - cursor ∧
      Text.byteLength gone = e.span.stop - e.span.start ∧
      splice edits e.span.stop back = .ok done ∧ out = kept ++ e.text.toList ++ done := by
  rw [splice]
  constructor
  · intro spliced
    split at spliced
    · cases spliced
    · split at spliced
      · cases spliced
      · rename_i kept rest' first
        split at spliced
        · cases spliced
        · rename_i gone back second
          obtain ⟨rfl, keptLength⟩ := Text.cut?_ok first
          obtain ⟨rfl, goneLength⟩ := Text.cut?_ok second
          cases later : splice edits e.span.stop back with
          | error failure =>
            rw [later] at spliced
            cases spliced
          | ok done =>
            rw [later] at spliced
            cases spliced
            exact ⟨by omega, kept, gone, back, done, rfl, keptLength, goneLength, later, rfl⟩
  · rintro ⟨behind, kept, gone, back, done, rfl, keptLength, goneLength, later, rfl⟩
    rw [if_neg (by omega), ← keptLength, Text.cut?_append]
    dsimp only
    rw [← goneLength, Text.cut?_append]
    dsimp only
    rw [later]
    rfl

theorem splice_error {failure : Failure} (failed : splice edits cursor rest = .error failure) :
    ∃ offset, failure = .editConflict offset := by
  induction edits generalizing cursor rest with
  | nil => cases failed
  | cons e edits ih =>
    rw [splice] at failed
    split at failed
    · cases failed
      exact ⟨_, rfl⟩
    · split at failed
      · cases failed
        exact ⟨_, rfl⟩
      · split at failed
        · cases failed
          exact ⟨_, rfl⟩
        · rename_i back _
          cases later : splice edits e.span.stop back with
          | error other =>
            rw [later] at failed
            cases failed
            exact ih later
          | ok done =>
            rw [later] at failed
            cases failed

/-- An edit at the cursor puts its text in the place of what it takes away. -/
theorem splice_put (gone : List Char) (here : e.span.start = cursor)
    (length : cursor + Text.byteLength gone = e.span.stop)
    (done : splice edits e.span.stop rest = .ok out) :
    splice (e :: edits) cursor (gone ++ rest) = .ok (e.text.toList ++ out) :=
  splice_cons_ok.mpr ⟨here.ge, [], gone, rest, out, rfl, by simp [here], by omega, done, rfl⟩

/-- A character in front of all edits is kept. -/
theorem splice_keep {c : Char} (later : ∀ e ∈ edits, cursor + c.utf8Size ≤ e.span.start)
    (done : splice edits (cursor + c.utf8Size) rest = .ok out) :
    splice edits cursor (c :: rest) = .ok (c :: out) := by
  cases edits with
  | nil =>
    cases done
    rfl
  | cons e edits =>
    obtain ⟨behind, kept, gone, back, after, rfl, keptLength, goneLength, spliced, rfl⟩ :=
      splice_cons_ok.mp done
    refine splice_cons_ok.mpr ⟨by omega, c :: kept, gone, back, after, rfl, ?_, goneLength, spliced, rfl⟩
    rw [Text.byteLength_cons]
    omega

theorem splice_points {points : List (Edit × Nat)}
    (empty : ∀ e ∈ points, e.1.span.start = cursor ∧ e.1.span.stop = cursor)
    (done : splice edits cursor rest = .ok out) :
    splice (points.map Prod.fst ++ edits) cursor rest =
      .ok ((points.map fun e => Mark.put e.1 e.2).flatMap Mark.printed ++ out) := by
  induction points with
  | nil => exact done
  | cons e points ih =>
    obtain ⟨⟨starts, stops⟩, others⟩ := List.forall_mem_cons.mp empty
    have spliced := ih others
    rw [← stops] at spliced
    have first := splice_put [] starts (by simp [stops]) spliced
    simpa [Mark.printed] using first

/-- Spliced edits stand one behind the other, and start and stop between characters. -/
theorem of_splice_ok (formed : ∀ e ∈ edits, e.span.start ≤ e.span.stop) {front : List Char}
    (whole : source = front ++ rest) (length : Text.byteLength front = cursor)
    (spliced : splice edits cursor rest = .ok out) :
    (∀ e ∈ edits, cursor ≤ e.span.start ∧
      Text.IsBoundary source e.span.start ∧ Text.IsBoundary source e.span.stop) ∧
    edits.Pairwise fun a b => a.span.stop ≤ b.span.start := by
  induction edits generalizing cursor front rest out with
  | nil => exact ⟨by simp, .nil⟩
  | cons e edits ih =>
    obtain ⟨ordered, others⟩ := List.forall_mem_cons.mp formed
    obtain ⟨behind, kept, gone, back, done, rfl, keptLength, goneLength, later, -⟩ :=
      splice_cons_ok.mp spliced
    have starts : Text.byteLength (front ++ kept) = e.span.start := by
      rw [Text.byteLength_append]
      omega
    have stops : Text.byteLength (front ++ kept ++ gone) = e.span.stop := by
      rw [Text.byteLength_append]
      omega
    obtain ⟨bounded, rising⟩ := ih others (by simp [whole]) stops later
    refine ⟨List.forall_mem_cons.mpr ⟨⟨behind, ?_, ?_⟩, ?_⟩, List.pairwise_cons.mpr ⟨?_, rising⟩⟩
    · exact ⟨front ++ kept, ⟨gone ++ back, by simp [whole]⟩, starts⟩
    · exact ⟨front ++ kept ++ gone, ⟨back, by simp [whole]⟩, stops⟩
    · intro f member
      obtain ⟨after, boundaries⟩ := bounded f member
      exact ⟨by omega, boundaries⟩
    · intro f member
      exact (bounded f member).1

/-! ### Printing -/

variable {es : List (Edit × Nat)}

theorem sorted_perm (edits : List Edit) : (sorted edits).Perm edits := by
  have numbered := (List.mergeSort_perm edits.zipIdx le).map Prod.fst
  rwa [List.zipIdx_map_fst] at numbered

theorem zipIdx_pairwise {α : Type} (xs : List α) : xs.zipIdx.Pairwise fun a b => a.2 < b.2 := by
  have numbers : (xs.zipIdx.map Prod.snd).Pairwise (· < ·) := by
    rw [List.zipIdx_map_snd]
    exact List.pairwise_lt_range'
  rwa [List.pairwise_map] at numbers

/-- If the edits start between characters, sorting them is going through the text. -/
theorem sorted_eq (bounded : ∀ e ∈ edits, Text.IsBoundary source e.span.start)
    (same : es.map Prod.fst = edits) :
    sorted edits = (puts (marks es 0 source)).map Prod.fst := by
  have rising : Rising edits.zipIdx := by
    refine (zipIdx_pairwise edits).imp ?_
    intro a b less _
    exact less
  have perm : (puts (marks edits.zipIdx 0 source)).Perm edits.zipIdx := by
    refine puts_marks_perm rising fun e member => bounded e.1 ?_
    rw [← List.zipIdx_map_fst 0 edits]
    exact List.mem_map_of_mem member
  rw [sorted, mergeSort_eq (puts_marks_pairwise rising 0 source) perm]
  exact map_puts_marks_eq (by rw [List.zipIdx_map_fst, same]) 0 source

/-- At an offset with a replacement there is only one, and the other edits there take nothing away. -/
theorem editsAt_split (printable : Printable edits source) (formed : ∀ e ∈ edits, Formed e)
    (same : es.map Prod.fst = edits) (o : Nat) :
    ∃ points replacements, editsAt es o = points ++ replacements ∧
      (∀ e ∈ points, e.1.span.start = o ∧ e.1.span.stop = o) ∧
      (∀ r, r ∈ replacements ↔ r ∈ es ∧ r.1.anchor = .replacing ∧ r.1.span.start = o) ∧
      (replacements = [] ∨ ∃ r, replacements = [r]) := by
  refine ⟨_, partAt .replacing o es, rfl, ?_, fun r => mem_partAt, ?_⟩
  · intro e member
    simp only [List.mem_append, List.mem_reverse, mem_outsideIn, mem_partAt] at member
    have inside : e.1 ∈ edits := by
      rw [← same]
      exact List.mem_map_of_mem (by grind)
    obtain ⟨ordered, replaces⟩ := formed e.1 inside
    have point : e.1.anchor ≠ .replacing := by
      intro part
      simp [part] at member
    have := mt replaces.mpr point
    have starts : e.1.span.start = o := by grind
    omega
  · -- Two replacements at one offset would overlap.
    have apart : (partAt .replacing o es).Pairwise fun a b => False := by
      have spread := printable.apart
      rw [← same, List.pairwise_map] at spread
      refine (spread.filter _).imp_of_mem ?_
      intro a b first second disjoint
      obtain ⟨inA, partA, startA⟩ := mem_partAt.mp first
      obtain ⟨inB, partB, startB⟩ := mem_partAt.mp second
      have wideA := (formed a.1 (same ▸ List.mem_map_of_mem inA)).2.mp partA
      have wideB := (formed b.1 (same ▸ List.mem_map_of_mem inB)).2.mp partB
      have := disjoint partA partB
      omega
    cases found : partAt .replacing o es with
    | nil => exact .inl rfl
    | cons r others =>
      cases others with
      | nil => exact .inr ⟨r, rfl⟩
      | cons q others =>
        rw [found] at apart
        exact ((List.pairwise_cons.mp apart).1 q List.mem_cons_self).elim

/-- The offset does not lie strictly inside a replaced range. -/
def Clear (es : List (Edit × Nat)) (o : Nat) : Prop :=
  ∀ r ∈ es, r.1.anchor = .replacing → ¬ (r.1.span.start < o ∧ o < r.1.span.stop)

theorem replacedAt_iff {o : Nat} : replacedAt es o = true ↔
    ∃ r ∈ es, r.1.anchor = .replacing ∧ r.1.span.start ≤ o ∧ o < r.1.span.stop := by
  simp only [replacedAt, List.any_eq_true, Bool.and_eq_true, beq_iff_eq, decide_eq_true_eq, and_assoc]

theorem Clear.replacedAt_eq {o : Nat} (clear : Clear es o)
    (none : ∀ r ∈ es, r.1.anchor = .replacing → r.1.span.start ≠ o) : replacedAt es o = false := by
  rw [Bool.eq_false_iff, Ne, replacedAt_iff]
  rintro ⟨r, inside, part, before, behind⟩
  have := none r inside part
  exact clear r inside part ⟨by omega, behind⟩

/-- No range starts inside a character, so behind one that is kept the text is clear. -/
theorem clear_behind_kept (printable : Printable edits source) (same : es.map Prod.fst = edits)
    {front cs : List Char} {c : Char} (whole : source = front ++ c :: cs)
    (free : replacedAt es (Text.byteLength front) = false) :
    Clear es (Text.byteLength front + c.utf8Size) := by
  rintro r inside part ⟨before, behind⟩
  have starts := (printable.bounded r.1 (same ▸ List.mem_map_of_mem inside)).1
  rw [whole] at starts
  rw [Bool.eq_false_iff, Ne, replacedAt_iff] at free
  refine free ⟨r, inside, part, ?_, by omega⟩
  by_contra after
  have := (starts.drop (by omega)).not_inside (by omega)
  omega

theorem clear_behind_replaced (printable : Printable edits source) (same : es.map Prod.fst = edits)
    {r : Edit × Nat} (inside : r ∈ es) (part : r.1.anchor = .replacing)
    (wide : r.1.span.start < r.1.span.stop)
    (only : ∀ q ∈ es, q.1.anchor = .replacing → q.1.span.start = r.1.span.start → q = r) :
    Clear es r.1.span.stop := by
  rintro q among other ⟨before, behind⟩
  have memberR : r.1 ∈ edits := same ▸ List.mem_map_of_mem inside
  have memberQ : q.1 ∈ edits := same ▸ List.mem_map_of_mem among
  rcases Nat.lt_trichotomy q.1.span.start r.1.span.start with less | here | more
  · exact printable.outside q.1 memberQ other r.1 memberR ⟨less, by omega⟩
  · rw [only q among other here] at behind
    omega
  · exact printable.outside r.1 memberR part q.1 memberQ ⟨more, before⟩

/-- A replaced range that starts in front of a character ends behind it. -/
theorem exists_replaced (printable : Printable edits source) (formed : ∀ e ∈ edits, Formed e)
    (same : es.map Prod.fst = edits) {r : Edit × Nat} (inside : r ∈ es) (part : r.1.anchor = .replacing)
    {front cs : List Char} {c : Char} (whole : source = front ++ c :: cs)
    (here : r.1.span.start = Text.byteLength front) :
    ∃ gone back, cs = gone ++ back ∧ Text.byteLength (front ++ [c] ++ gone) = r.1.span.stop := by
  have member : r.1 ∈ edits := same ▸ List.mem_map_of_mem inside
  have wide := (formed r.1 member).2.mp part
  have stops := (printable.bounded r.1 member).2
  rw [whole] at stops
  obtain ⟨gone, back, split, length⟩ := (stops.drop (by omega)).split
  cases gone with
  | nil =>
    rw [Text.byteLength_nil] at length
    omega
  | cons d gone =>
    obtain ⟨rfl, rfl⟩ := List.cons.inj split
    refine ⟨gone, back, rfl, ?_⟩
    simp only [Text.byteLength_cons, Text.byteLength_append, Text.byteLength_nil] at length ⊢
    omega

/-- Nothing is marked inside a replaced range. -/
theorem quiet_of_replaced (printable : Printable edits source) (same : es.map Prod.fst = edits)
    {r : Edit × Nat} (inside : r ∈ es) (part : r.1.anchor = .replacing) {n : Nat}
    (behind : r.1.span.start < n) (before : n < r.1.span.stop) :
    replacedAt es n ∧ editsAt es n = [] := by
  refine ⟨replacedAt_iff.mpr ⟨r, inside, part, by omega, before⟩, ?_⟩
  refine List.eq_nil_iff_forall_not_mem.mpr fun e marked => ?_
  obtain ⟨among, starts⟩ := mem_editsAt.mp marked
  have member : ∀ {e}, e ∈ es → e.1 ∈ edits := fun inside => same ▸ List.mem_map_of_mem inside
  exact printable.outside r.1 (member inside) part e.1 (member among) ⟨by omega, by omega⟩

/-- Splicing goes through the text as the marks do. The cursor may be further on in the text, where a
replaced range ends. -/
theorem splice_marks (printable : Printable edits source) (formed : ∀ e ∈ edits, Formed e)
    (same : es.map Prod.fst = edits) (front gone rest : List Char)
    (whole : source = front ++ (gone ++ rest))
    (quiet : ∀ n, Text.byteLength front ≤ n → n < Text.byteLength (front ++ gone) →
      replacedAt es n ∧ editsAt es n = [])
    (clear : Clear es (Text.byteLength (front ++ gone))) :
    splice ((puts (marks es (Text.byteLength front) (gone ++ rest))).map Prod.fst)
        (Text.byteLength (front ++ gone)) rest =
      .ok ((marks es (Text.byteLength front) (gone ++ rest)).flatMap Mark.printed) := by
  have member : ∀ {e}, e ∈ es → e.1 ∈ edits := fun inside => same ▸ List.mem_map_of_mem inside
  generalize left : gone ++ rest = cs at whole ⊢
  induction cs generalizing front gone rest with
  | nil =>
    obtain ⟨rfl, rfl⟩ := List.append_eq_nil_iff.mp left
    obtain ⟨points, replacements, split, empty, replaces, -⟩ :=
      editsAt_split printable formed same (Text.byteLength front)
    have none : replacements = [] := by
      refine List.eq_nil_iff_forall_not_mem.mpr fun r inside => ?_
      obtain ⟨inside, part, starts⟩ := (replaces r).mp inside
      have wide := (formed r.1 (member inside)).2.mp part
      have within := (printable.bounded r.1 (member inside)).2.le_byteLength
      rw [whole, List.append_nil] at within
      omega
    rw [none, List.append_nil] at split
    rw [marks, puts_map_put, split, List.append_nil]
    have done : splice [] (Text.byteLength front) [] = .ok [] := rfl
    simpa using splice_points empty done
  | cons c cs ih =>
    have next : Text.byteLength (front ++ [c]) = Text.byteLength front + c.utf8Size := by simp
    cases gone with
    | cons d gone =>
      -- The character lies in a replaced range.
      obtain ⟨rfl, rfl⟩ := List.cons.inj left
      have size := d.utf8Size_pos
      obtain ⟨replaced, none⟩ := quiet (Text.byteLength front) (Nat.le_refl _) (by simp; omega)
      have step := ih (front ++ [d]) gone rest
        (fun n behind before => quiet n (by omega) (by simpa [Nat.add_assoc] using before))
        (by simpa using clear) rfl (by simpa using whole)
      rw [next] at step
      rw [puts_marks_cons, none, List.nil_append, marks, none, replaced]
      simpa [Mark.printed] using step
    | nil =>
      obtain rfl : rest = c :: cs := left
      rw [List.append_nil] at clear ⊢
      obtain ⟨points, replacements, split, empty, replaces, few⟩ :=
        editsAt_split printable formed same (Text.byteLength front)
      rw [puts_marks_cons, marks, split, List.map_append, List.map_append, List.map_append,
        List.flatMap_append, List.flatMap_append, List.append_assoc, List.append_assoc]
      refine splice_points empty ?_
      rcases few with rfl | ⟨r, rfl⟩
      · -- No range is replaced here: the character is kept.
        have free := clear.replacedAt_eq fun r inside part here =>
          List.not_mem_nil ((replaces r).mpr ⟨inside, part, here⟩)
        have still : Clear es (Text.byteLength (front ++ [c] ++ [])) := by
          rw [List.append_nil, next]
          exact clear_behind_kept printable same whole free
        have step := ih (front ++ [c]) [] cs (by intro n _ _; simp at *; omega) still rfl
          (by simpa using whole)
        rw [List.append_nil, next] at step
        rw [free, List.map_nil, List.nil_append, List.map_nil, List.flatMap_nil, List.nil_append]
        refine splice_keep ?_ step
        intro e marked
        obtain ⟨f, among, rfl⟩ := List.mem_map.mp marked
        exact (le_start_of_mem_puts among).2
      · -- A range that starts here is replaced: splicing goes on behind it.
        obtain ⟨inside, part, here⟩ := (replaces r).mp (List.mem_singleton.mpr rfl)
        have wide := (formed r.1 (member inside)).2.mp part
        obtain ⟨gone, back, rfl, target⟩ := exists_replaced printable formed same inside part whole here
        have size := c.utf8Size_pos
        have quiet : ∀ n, Text.byteLength (front ++ [c]) ≤ n →
            n < Text.byteLength (front ++ [c] ++ gone) → replacedAt es n ∧ editsAt es n = [] :=
          fun n behind before => quiet_of_replaced printable same inside part (by omega) (by omega)
        have still : Clear es (Text.byteLength (front ++ [c] ++ gone)) := by
          rw [target]
          refine clear_behind_replaced printable same inside part wide fun q among other start => ?_
          exact List.mem_singleton.mp ((replaces q).mpr ⟨among, other, by omega⟩)
        have step := ih (front ++ [c]) gone back quiet still rfl (by simpa using whole)
        have length : Text.byteLength front + Text.byteLength (c :: gone) = r.1.span.stop := by
          rw [← target, Text.byteLength_append, next, Text.byteLength_cons]
          omega
        rw [target, next] at step
        rw [replacedAt_iff.mpr ⟨r, inside, part, by omega, by omega⟩]
        simpa [Mark.printed] using splice_put (c :: gone) here length step

theorem printable_of_ok {out : String} {text : String} (formed : ∀ e ∈ edits, Formed e)
    (applied : applyAll edits text = .ok out) : Printable edits text.toList := by
  cases spliced : splice (sorted edits) 0 text.toList with
  | error failure =>
    rw [applyAll, spliced] at applied
    cases applied
  | ok done =>
    have perm := sorted_perm edits
    obtain ⟨bounded, rising⟩ := of_splice_ok (fun e member => (formed e (perm.mem_iff.mp member)).1)
      (show text.toList = [] ++ text.toList from rfl) rfl spliced
    refine ⟨fun e member => (bounded e (perm.mem_iff.mpr member)).2, ?_, ?_⟩
    · refine (perm.pairwise_iff ?_).mp (rising.imp fun before _ _ => .inl before)
      intro a b apart first second
      exact (apart second first).symm
    · -- Whichever of the two comes first ends before the other starts.
      have ordered : ∀ e ∈ sorted edits, e.span.start ≤ e.span.stop :=
        fun e member => (formed e (perm.mem_iff.mp member)).1
      have apart : (sorted edits).Pairwise fun a b =>
          ¬ (a.span.start < b.span.start ∧ b.span.start < a.span.stop) ∧
            ¬ (b.span.start < a.span.start ∧ a.span.start < b.span.stop) := by
        refine rising.imp_of_mem ?_
        intro a b first second before
        have := ordered a first
        have := ordered b second
        omega
      have : Std.Symm fun a b : Edit =>
          ¬ (a.span.start < b.span.start ∧ b.span.start < a.span.stop) ∧
            ¬ (b.span.start < a.span.start ∧ a.span.start < b.span.stop) :=
        ⟨fun _ _ both => ⟨both.2, both.1⟩⟩
      have all := apart.forall_of_forall fun e _ => by omega
      intro r replaced _ e member
      exact (all (perm.mem_iff.mpr replaced) (perm.mem_iff.mpr member)).1

theorem applyAll_error {text : String} {failure : Failure}
    (failed : applyAll edits text = .error failure) : ∃ offset, failure = .editConflict offset := by
  cases spliced : splice (sorted edits) 0 text.toList with
  | error other =>
    rw [applyAll, spliced] at failed
    cases failed
    exact splice_error spliced
  | ok done =>
    rw [applyAll, spliced] at failed
    cases failed

/-- Printable edits print the marked text. -/
theorem applyAll_of_printable {text : String} (printable : Printable edits text.toList)
    (formed : ∀ e ∈ edits, Formed e) (same : es.map Prod.fst = edits) :
    applyAll edits text = .ok (String.ofList ((marks es 0 text.toList).flatMap Mark.printed)) := by
  have spliced := splice_marks printable formed same [] [] text.toList rfl
    (by intro n _ before; simp at before) (by intro r _ _; simp)
  rw [applyAll, sorted_eq (fun e member => (printable.bounded e member).1) same]
  simp only [List.nil_append, Text.byteLength_nil] at spliced
  rw [spliced]
  rfl

end SourceRepair.Edit

/-!
## Series of calls that record edits

Edits are recorded by calls that insert, replace, remove or wrap text. `calls_print` says for every
series of calls whether it can be made in a text, and what is printed for it.
-/

namespace SourceRepair.Edit

/-- Texts around a span of a node at some depth. -/
structure Wrap where
  span : Span
  before : String
  after : String
  depth : Nat
deriving DecidableEq, Repr, Inhabited

def Wrap.opening (w : Wrap) : Edit := ⟨.point w.span.start, w.before, .opening, w.depth⟩

def Wrap.closing (w : Wrap) : Edit := ⟨.point w.span.stop, w.after, .closing, w.depth⟩

/-- A call that records edits. -/
inductive Call where
  | insert (offset : Nat) (text : String)
  | replace (span : Span) (text : String)
  | remove (span : Span)
  | wrap (w : Wrap)
deriving DecidableEq, Repr

namespace Call

def edits : Call → List Edit
  | insert offset text => [.insert offset text]
  | replace span text => [.replace span text]
  | remove span => [.remove span]
  | wrap w => Edit.wrap w.span w.before w.after w.depth

/-- The span of the call is not reversed. -/
def Ordered : Call → Prop
  | insert _ _ => True
  | replace span _ | remove span => span.start ≤ span.stop
  | wrap w => w.span.start ≤ w.span.stop

end Call

/-- The edits of some calls, each with the number of its call. -/
def numbered (calls : List Call) : List (Edit × Nat) :=
  calls.zipIdx.flatMap fun c => c.1.edits.map (·, c.2)

variable {calls : List Call}

theorem formed_replace {span : Span} (ordered : span.start ≤ span.stop) (text : String) :
    Formed (.replace span text) := by
  by_cases empty : span.start = span.stop
  · simp [Formed, replace, empty]
  · simp [Formed, replace, empty]
    omega

theorem Call.Ordered.formed {c : Call} (ordered : c.Ordered) : ∀ e ∈ c.edits, Formed e := by
  cases c with
  | insert offset text => simp [edits, Edit.insert, Formed, Span.point]
  | replace span text => simpa [edits] using formed_replace ordered text
  | remove span => simpa [edits, Edit.remove] using formed_replace ordered ""
  | wrap w => simp [edits, Edit.wrap, Formed, Span.point]

theorem formed_of_ordered (ordered : ∀ c ∈ calls, c.Ordered) :
    ∀ e ∈ calls.flatMap Call.edits, Formed e := by
  intro e member
  obtain ⟨c, among, inside⟩ := List.mem_flatMap.mp member
  exact (ordered c among).formed e inside

theorem map_numbered (calls : List Call) :
    (numbered calls).map Prod.fst = calls.flatMap Call.edits := by
  conv_rhs => rw [← List.zipIdx_map_fst 0 calls]
  rw [numbered, List.map_flatMap, List.flatMap_map]
  simp [Function.comp_def]

theorem edit_of_numbered {e : Edit × Nat} (member : e ∈ numbered calls) : e.1 ∈ calls.flatMap Call.edits := by
  rw [← map_numbered]
  exact List.mem_map_of_mem member

theorem mem_numbered {e : Edit} {k : Nat} :
    (e, k) ∈ numbered calls ↔ ∃ c, calls[k]? = some c ∧ e ∈ c.edits := by
  simp only [numbered, List.mem_flatMap, List.mem_map, Prod.mk.injEq]
  constructor
  · rintro ⟨⟨c, n⟩, member, f, inside, rfl, rfl⟩
    exact ⟨c, List.mem_zipIdx_iff_getElem?.mp member, inside⟩
  · rintro ⟨c, found, inside⟩
    exact ⟨(c, k), List.mem_zipIdx_iff_getElem?.mpr found, e, inside, rfl, rfl⟩

theorem rising_numbered (calls : List Call) : Rising (numbered calls) := by
  rw [Rising, numbered, List.pairwise_flatMap]
  constructor
  · intro c _
    obtain ⟨c, n⟩ := c
    -- Only a wrap records two edits, and these have different parts.
    cases c <;> simp [Call.edits, Edit.wrap]
  · refine (zipIdx_pairwise calls).imp ?_
    intro a b less e first f second _
    obtain ⟨_, -, rfl⟩ := List.mem_map.mp first
    obtain ⟨_, -, rfl⟩ := List.mem_map.mp second
    exact less

/-- Calls whose spans are not reversed can be made in a text exactly if all their offsets lie between
characters of the text, no two replaced ranges overlap, and no edit starts strictly inside a replaced
range. Then the marked text is printed: every character that is not replaced once and in its place, and
at each offset the closing texts, the deepest first, the insertions in the order of the calls, the
opening texts, the outermost first, and the text of the replacement. Otherwise there is a conflict. -/
theorem calls_print (ordered : ∀ c ∈ calls, c.Ordered) (text : String) :
    let edits := calls.flatMap Call.edits
    let ms := marks (numbered calls) 0 text.toList
    ((∃ out, applyAll edits text = .ok out) ↔ Printable edits text.toList) ∧
    (∀ out, applyAll edits text = .ok out → out = String.ofList (ms.flatMap Mark.printed)) ∧
    ms.flatMap Mark.source = text.toList ∧
    ∀ failure, applyAll edits text = .error failure → ∃ offset, failure = .editConflict offset := by
  intro edits ms
  have formed : ∀ e ∈ edits, Formed e := formed_of_ordered ordered
  have prints : Printable edits text.toList →
      applyAll edits text = .ok (String.ofList (ms.flatMap Mark.printed)) :=
    fun printable => applyAll_of_printable printable formed (map_numbered calls)
  refine ⟨⟨?_, ?_⟩, ?_, source_marks _ _ _, ?_⟩
  · rintro ⟨out, applied⟩
    exact printable_of_ok formed applied
  · intro printable
    exact ⟨_, prints printable⟩
  · intro out applied
    have printed := prints (printable_of_ok formed applied)
    rw [applied] at printed
    exact Except.ok.inj printed
  · intro failure failed
    exact applyAll_error failed

/-- Two wrappers around a whole text, and an insertion and a replacement inside. -/
def fourCalls : List Call :=
  [.wrap ⟨⟨0, 4⟩, "(", ")", 1⟩, .replace ⟨1, 3⟩ "X", .insert 1 "+", .wrap ⟨⟨0, 4⟩, "[", "]", 0⟩]

theorem calls_print_nested :
    (∀ c ∈ fourCalls, c.Ordered) ∧ Printable (fourCalls.flatMap Call.edits) "aéc".toList ∧
    applyAll (fourCalls.flatMap Call.edits) "aéc" = .ok "[(a+Xc)]" := by
  have ordered : ∀ c ∈ fourCalls, c.Ordered := by
    simp [fourCalls, Call.Ordered]
  have printable : Printable (fourCalls.flatMap Call.edits) "aéc".toList :=
    ⟨by decide +kernel, by decide +kernel, by decide +kernel⟩
  obtain ⟨iff, prints, -, -⟩ := calls_print ordered "aéc"
  obtain ⟨out, applied⟩ := iff.mpr printable
  rw [prints out applied] at applied
  refine ⟨ordered, printable, applied.trans (congrArg Except.ok ?_)⟩
  decide +kernel

end SourceRepair.Edit
