import SourceRepair.Proofs.Conflicts.Basic
import SourceRepair.Repair.ProjectConfig

/-!
# Properties that are taken away

The properties that an object loses fall into runs, and a run is taken away in one range that holds its
properties and touches no other one. So the ranges of one object are apart from each other, and from
everything that stands in a property that is kept.
-/

namespace SourceRepair.Repair

open Text (IsBoundary slice byteLength)
open Script (covers_iff)

variable {removed : List Nat} {run : Nat × Nat} {text : List Char} {object s : Span} {properties : List Span}

/-! ### Runs -/

/-- The runs of an ascending list hold its numbers, and between two of them some number is missing. -/
theorem runs_spec (ascending : removed.Pairwise (· < ·)) :
    (∀ run ∈ runs removed, run.1 ≤ run.2) ∧ (runs removed).Pairwise (fun a b => a.2 + 1 < b.1) ∧
      ∀ i, i ∈ removed ↔ ∃ run ∈ runs removed, run.1 ≤ i ∧ i ≤ run.2 := by
  induction removed with
  | nil => simp [runs]
  | cons n ns ih =>
    obtain ⟨first, later⟩ := List.pairwise_cons.mp ascending
    obtain ⟨ordered, apart, held⟩ := ih later
    cases found : runs ns with
    | nil =>
      have none : ns = [] := by
        refine List.eq_nil_iff_forall_not_mem.mpr fun i member => ?_
        simpa [found] using (held i).mp member
      subst none
      simp [runs, Nat.le_antisymm_iff, and_comm]
    | cons head rest =>
      obtain ⟨start, stop⟩ := head
      rw [found] at ordered apart held
      obtain ⟨next, others⟩ := List.pairwise_cons.mp apart
      have wide := ordered _ List.mem_cons_self
      have above := first start ((held start).mpr ⟨_, List.mem_cons_self, Nat.le.refl, wide⟩)
      simp only [runs, found]
      dsimp only at wide next
      split
      · -- The number stands right before the first run and joins it.
        rename_i joins
        have joins : start = n + 1 := by simpa using joins
        refine ⟨List.forall_mem_cons.mpr ⟨by simp only; omega, (List.forall_mem_cons.mp ordered).2⟩,
          List.pairwise_cons.mpr ⟨next, others⟩, fun i => ?_⟩
        rw [List.mem_cons, held, List.exists_mem_cons_iff, List.exists_mem_cons_iff]
        constructor
        · rintro (rfl | inside | behind)
          · exact .inl (by simp only; omega)
          · exact .inl (by simp only at inside ⊢; omega)
          · exact .inr behind
        · rintro (inside | behind)
          · simp only at inside ⊢
            omega
          · exact .inr (.inr behind)
      · rename_i apart'
        have apart' : start ≠ n + 1 := by simpa using apart'
        refine ⟨List.forall_mem_cons.mpr ⟨Nat.le.refl, ordered⟩, List.pairwise_cons.mpr ⟨?_, apart⟩, fun i => ?_⟩
        · refine List.forall_mem_cons.mpr ⟨by simp only; omega, fun run member => ?_⟩
          have := next run member
          omega
        · rw [List.mem_cons, held, List.exists_mem_cons_iff (a := (n, n))]
          refine or_congr_left ?_
          simp only
          omega

/-! ### The range of a run -/

/-- The properties stand one after the other in an object. -/
structure InRow (object : Span) (properties : List Span) : Prop where
  wide : ∀ s ∈ properties, s.start < s.stop
  inside : ∀ s ∈ properties, object.covers s
  apart : properties.Pairwise fun s t => s.stop ≤ t.start

theorem InRow.before (row : InRow object properties) {i j : Nat} {t : Span} (lt : i < j)
    (first : properties[i]? = some s) (second : properties[j]? = some t) : s.stop ≤ t.start := by
  obtain ⟨_, rfl⟩ := List.getElem?_eq_some_iff.mp first
  obtain ⟨_, rfl⟩ := List.getElem?_eq_some_iff.mp second
  exact List.pairwise_iff_getElem.mp row.apart i j _ _ lt

/-- The comma behind the last property, with the blanks in front of it, stands in the object. -/
theorem comma_behind {last : Nat} {blanks : List Char}
    (found : (slice text ⟨last, object.stop⟩)[blanks.length]? = some ',')
    (starts : blanks <+: slice text ⟨last, object.stop⟩) :
    last + byteLength blanks + 1 ≤ object.stop ∧ IsBoundary text (last + byteLength blanks + 1) := by
  obtain ⟨rest, whole⟩ := starts
  cases rest with
  | nil => rw [← whole] at found; simp at found
  | cons c rest =>
    obtain rfl : c = ',' := by simpa [← whole] using found
    obtain ⟨front, back, split, span⟩ := Text.slice_split text ⟨last, object.stop⟩ (by simp [← whole])
    rw [← whole] at split span
    obtain ⟨rfl, stop⟩ := Span.mk.inj span
    have comma : Char.utf8Size ',' = 1 := rfl
    simp only [Text.byteLength_append, Text.byteLength_cons, comma] at stop
    refine ⟨by omega, front ++ blanks ++ [','], ⟨rest ++ back, by simp [split]⟩, ?_⟩
    simp only [Text.byteLength_append, Text.byteLength_cons, comma, Text.byteLength_nil]

/-- Where the range of a run of properties starts and stops. -/
structure RunRange (object : Span) (properties : List Span) (run : Nat × Nat) (range : Span) : Prop where
  inside : object.covers range
  held : ∀ i s, properties[i]? = some s → run.1 ≤ i → i ≤ run.2 → range.covers s
  before : ∀ i s, properties[i]? = some s → i < run.1 → s.stop ≤ range.start
  behind : ∀ i s, properties[i]? = some s → run.2 < i → range.stop ≤ s.start

theorem RunRange.of_bounds (row : InRow object properties) {range first last : Span}
    (left : properties[run.1]? = some first) (right : properties[run.2]? = some last)
    (starts : object.start ≤ range.start ∧ range.start ≤ first.start)
    (stops : last.stop ≤ range.stop ∧ range.stop ≤ object.stop)
    (before : ∀ i s, properties[i]? = some s → i < run.1 → s.stop ≤ range.start)
    (behind : ∀ i s, properties[i]? = some s → run.2 < i → range.stop ≤ s.start) :
    RunRange object properties run range where
  inside := covers_iff.mpr ⟨starts.1, stops.2⟩
  before := before
  behind := behind
  held i s found lower upper := by
    have start : first.start ≤ s.start := by
      rcases Nat.lt_or_eq_of_le lower with later | same
      · have := row.before later left found
        have := row.wide first (List.mem_of_getElem? left)
        omega
      · rw [same, found] at left
        cases left
        exact Nat.le.refl
    have stop : s.stop ≤ last.stop := by
      rcases Nat.lt_or_eq_of_le upper with earlier | same
      · have := row.before earlier found right
        have := row.wide last (List.mem_of_getElem? right)
        omega
      · rw [← same, found] at right
        cases right
        exact Nat.le.refl
    exact covers_iff.mpr ⟨starts.2.trans start, stop.trans stops.1⟩

/-- The range of a run is not empty. -/
theorem RunRange.wide {range : Span} (spec : RunRange object properties run range) (row : InRow object properties)
    (ordered : run.1 ≤ run.2) (held : run.2 < properties.length) : range.start < range.stop := by
  have first : properties[run.1]? = some properties[run.1] := List.getElem?_eq_getElem (by omega)
  have inside := covers_iff.mp (spec.held _ _ first Nat.le.refl ordered)
  have := row.wide _ (List.mem_of_getElem? first)
  omega

theorem runRange_spec (text : List Char) (row : InRow object properties) (ordered : run.1 ≤ run.2) (held : run.2 < properties.length) :
    RunRange object properties run (runRange text object properties run) := by
  obtain ⟨a, b⟩ := run
  dsimp only at ordered held
  have left : properties[a]? = some properties[a] := List.getElem?_eq_getElem (by omega)
  have right : properties[b]? = some properties[b] := List.getElem?_eq_getElem held
  generalize properties[a] = first at left
  generalize properties[b] = last at right
  have inside {i : Nat} {s : Span} (found : properties[i]? = some s) : object.start ≤ s.start ∧ s.stop ≤ object.stop :=
    covers_iff.mp (row.inside s (List.mem_of_getElem? found))
  have wide {i : Nat} {s : Span} (found : properties[i]? = some s) : s.start < s.stop :=
    row.wide s (List.mem_of_getElem? found)
  simp only [runRange, left, right, Option.getD_some]
  cases later : properties[b + 1]? with
  | some next =>
    have follows := row.before (by omega) right later
    refine .of_bounds row left right ⟨(inside left).1, Nat.le.refl⟩
      ⟨follows, (wide later).le.trans (inside later).2⟩ ?_ ?_ <;> intro i s found lt
    · exact row.before (t := first) lt found left
    rcases Nat.lt_or_eq_of_le (Nat.succ_le_of_lt lt) with behind | rfl
    · exact (wide later).le.trans (row.before behind later found)
    · rw [later] at found
      cases found
      exact Nat.le.refl
  | none =>
    have none : ∀ {i s} {n : Nat}, properties[i]? = some s → b < i → n ≤ s.start := by
      intro i s n found lt
      have length := List.getElem?_eq_none_iff.mp later
      obtain ⟨short, -⟩ := List.getElem?_eq_some_iff.mp found
      omega
    cases a with
    | succ before =>
      have previous : properties[before]? = some properties[before] := List.getElem?_eq_getElem (by omega)
      generalize properties[before] = kept at previous
      simp only [previous, Option.getD_some]
      refine .of_bounds row left right
        ⟨(inside previous).1.trans (wide previous).le, row.before (Nat.lt_succ_self _) previous left⟩
        ⟨Nat.le.refl, (inside right).2⟩ ?_ fun i s found lt => none found lt
      intro i s found lt
      rcases Nat.lt_or_eq_of_le (Nat.le_of_lt_succ lt) with front | rfl
      · exact (row.before front found previous).trans (wide previous).le
      · rw [previous] at found
        cases found
        exact Nat.le.refl
    | zero =>
      have start : object.start ≤ first.start ∧ first.start ≤ first.start := ⟨(inside left).1, Nat.le.refl⟩
      dsimp only
      split
      · rename_i comma
        have behind := (comma_behind (by simpa using comma) (List.takeWhile_prefix _)).1
        exact .of_bounds row left right start ⟨by simp only; omega, behind⟩ nofun fun i s found lt => none found lt
      · exact .of_bounds row left right start ⟨Nat.le.refl, (inside right).2⟩ nofun fun i s found lt => none found lt

theorem runRange_bounded (object : Span) (ordered : run.1 ≤ run.2) (held : run.2 < properties.length)
    (bounded : ∀ s ∈ properties, IsBoundary text s.start ∧ IsBoundary text s.stop) :
    IsBoundary text (runRange text object properties run).start ∧
      IsBoundary text (runRange text object properties run).stop := by
  obtain ⟨a, b⟩ := run
  dsimp only at ordered held
  have left : properties[a]? = some properties[a] := List.getElem?_eq_getElem (by omega)
  have right : properties[b]? = some properties[b] := List.getElem?_eq_getElem held
  have bounded {i : Nat} {s : Span} (found : properties[i]? = some s) := bounded s (List.mem_of_getElem? found)
  simp only [runRange, left, right, Option.getD_some]
  cases later : properties[b + 1]? with
  | some next => exact ⟨(bounded left).1, (bounded later).1⟩
  | none =>
    cases a with
    | succ before =>
      have previous : properties[before]? = some properties[before] := List.getElem?_eq_getElem (by omega)
      simp only [previous, Option.getD_some]
      exact ⟨(bounded previous).2, (bounded right).2⟩
    | zero =>
      dsimp only
      split
      · rename_i comma
        exact ⟨(bounded left).1, (comma_behind (by simpa using comma) (List.takeWhile_prefix _)).2⟩
      · exact ⟨(bounded left).1, (bounded right).2⟩

/-! ### The ranges of an object -/

/-- The ranges that take properties away are apart from each other, and each of them is the range of a run. -/
theorem removalRanges_spec (row : InRow object properties) (ascending : removed.Pairwise (· < ·))
    (held : ∀ i ∈ removed, i < properties.length) :
    (removalRanges text object properties removed).Pairwise (fun s t => s.stop ≤ t.start) ∧
      ∀ range ∈ removalRanges text object properties removed, ∃ run ∈ runs removed,
        range = runRange text object properties run ∧ run.1 ≤ run.2 ∧ run.2 < properties.length ∧
          RunRange object properties run range := by
  obtain ⟨ordered, apart, numbers⟩ := runs_spec ascending
  have last : ∀ run ∈ runs removed, run.2 < properties.length := fun run member =>
    held _ ((numbers _).mpr ⟨run, member, ordered run member, Nat.le.refl⟩)
  refine ⟨List.pairwise_map.mpr (apart.imp_of_mem ?_), ?_⟩
  · -- The property behind the first run is kept, so both ranges leave it alone.
    intro a b first second gap
    have one := runRange_spec text row (ordered a first) (last a first)
    have other := runRange_spec text row (ordered b second) (last b second)
    have inner := ordered b second
    have short := last b second
    have between : properties[a.2 + 1]? = some properties[a.2 + 1] := List.getElem?_eq_getElem (by omega)
    have stops := one.behind _ _ between (by omega)
    have starts := other.before _ _ between gap
    have wide := row.wide _ (List.mem_of_getElem? between)
    omega
  · intro range member
    obtain ⟨run, listed, rfl⟩ := List.mem_map.mp member
    exact ⟨run, listed, rfl, ordered run listed, last run listed,
      runRange_spec text row (ordered run listed) (last run listed)⟩

/-- A removed property lies in one of the ranges. -/
theorem exists_removalRange (text : List Char) (row : InRow object properties) (ascending : removed.Pairwise (· < ·))
    (held : ∀ i ∈ removed, i < properties.length) {i : Nat} (gone : i ∈ removed)
    (found : properties[i]? = some s) :
    ∃ range ∈ removalRanges text object properties removed, range.covers s := by
  obtain ⟨ordered, -, numbers⟩ := runs_spec ascending
  obtain ⟨run, member, lower, upper⟩ := (numbers i).mp gone
  have last := held _ ((numbers run.2).mpr ⟨run, member, ordered run member, Nat.le.refl⟩)
  exact ⟨_, List.mem_map_of_mem member,
    (runRange_spec text row (ordered run member) last).held i s found lower upper⟩

/-- A kept property is apart from all ranges. -/
theorem apart_removalRanges (row : InRow object properties) (ascending : removed.Pairwise (· < ·))
    (held : ∀ i ∈ removed, i < properties.length) {i : Nat} (kept : i ∉ removed)
    (found : properties[i]? = some s) :
    ∀ range ∈ removalRanges text object properties removed, s.stop ≤ range.start ∨ range.stop ≤ s.start := by
  intro range member
  obtain ⟨run, listed, -, -, -, spec⟩ := (removalRanges_spec row ascending held).2 range member
  have outside : ¬ (run.1 ≤ i ∧ i ≤ run.2) := fun inside =>
    kept (((runs_spec ascending).2.2 i).mpr ⟨run, listed, inside⟩)
  rcases Nat.lt_or_ge i run.1 with before | behind
  · exact .inl (spec.before i s found before)
  · exact .inr (spec.behind i s found (by omega))

/-! ### Flagged objects -/

open Script

variable {p : Program} {cs : List Char} {v w : Visit} {e f : Edit}

/-- An object literal and the positions of its properties that are no longer known. -/
structure Flagged where
  properties : List Tree
  span : Span
  removed : List Nat

/-- The object with flags that is visited. -/
def flagged? (v : Visit) : Option Flagged :=
  match v.node with
  | .tree .expression (.object properties span) =>
    match obsoleteFlags (isExperimental span v.ancestors) properties with
    | [] => none
    | removed => some ⟨properties, span, removed⟩
  | _ => none

def Flagged.edits (o : Flagged) (cs : List Char) : List Edit :=
  (removalRanges cs o.span (o.properties.map Tree.span) o.removed).map Edit.remove

/-- The position of a property that is no longer known. -/
def obsoleteAt? (experimental : Bool) (q : Tree × Nat) : Option Nat :=
  match propertyName? q.1 with
  | some key => if key == "swcMinify" || (experimental && key == "appDir") then some q.2 else none
  | none => none

theorem obsoleteFlags_eq (experimental : Bool) (properties : List Tree) :
    obsoleteFlags experimental properties = properties.zipIdx.filterMap (obsoleteAt? experimental) := rfl

theorem eq_of_obsoleteAt? {experimental : Bool} {q : Tree × Nat} {i : Nat}
    (found : obsoleteAt? experimental q = some i) : q.2 = i := by
  unfold obsoleteAt? at found
  split at found
  · split at found
    · exact Option.some.inj found
    · cases found
  · cases found

theorem obsoleteFlags_ascending (experimental : Bool) (properties : List Tree) :
    (obsoleteFlags experimental properties).Pairwise (· < ·) ∧
      ∀ i ∈ obsoleteFlags experimental properties, i < properties.length := by
  rw [obsoleteFlags_eq]
  constructor
  · refine List.pairwise_filterMap.mpr ((Edit.zipIdx_pairwise properties).imp ?_)
    intro q r lt i first j second
    rwa [← eq_of_obsoleteAt? first, ← eq_of_obsoleteAt? second]
  · intro i member
    obtain ⟨⟨t, k⟩, listed, found⟩ := List.mem_filterMap.mp member
    obtain rfl := eq_of_obsoleteAt? found
    simpa using (List.mem_zipIdx listed).2.1

theorem of_flagged? {o : Flagged} (found : flagged? v = some o) :
    v.node = .tree .expression (.object o.properties o.span) ∧ o.removed ≠ [] ∧
      ∃ experimental, o.removed = obsoleteFlags experimental o.properties := by
  unfold flagged? at found
  split at found
  · rename_i properties span same
    split at found
    · cases found
    · rename_i some
      cases found
      exact ⟨same, some, _, rfl⟩
  · cases found

/-- The properties of a flagged object stand in a row in its span. -/
structure Flagged.Set (o : Flagged) (cs : List Char) (s : Span) : Prop where
  span : s = o.span
  some : o.removed ≠ []
  ascending : o.removed.Pairwise (· < ·)
  held : ∀ i ∈ o.removed, i < (o.properties.map Tree.span).length
  row : InRow o.span (o.properties.map Tree.span)
  inked : ∀ q ∈ o.properties, Text.Inked cs q.span

theorem flagged_set (standing : p.Standing cs) (visited : v ∈ p.walk) {o : Flagged}
    (found : flagged? v = some o) : o.Set cs v.node.span := by
  obtain ⟨same, some, experimental, flags⟩ := of_flagged? found
  have below := (of_mem_walkFrom visited).1
  have laid := standing.laid.of_mem_walk visited
  rw [same] at below laid ⊢
  have inked : ∀ q ∈ o.properties, Text.Inked cs q.span := of_decide_eq_true (standing.trees below)
  obtain ⟨ascending, held⟩ := obsoleteFlags_ascending experimental o.properties
  obtain ⟨lo, hi, order⟩ := laid
  have parts : InOrder o.span.start o.span.stop o.properties := order.parts
  refine ⟨rfl, some, flags ▸ ascending, by simpa [flags] using held, ⟨?_, ?_, ?_⟩, inked⟩
  · exact List.forall_mem_map.mpr fun q member => (inked q member).start_lt_stop
  · refine List.forall_mem_map.mpr fun q member => covers_iff.mpr ?_
    obtain ⟨a, b, lower, upper, one⟩ := parts.of_mem member
    exact ⟨lower.trans one.starts, one.stops.trans upper⟩
  · exact List.pairwise_map.mpr parts.pairwise

/-- What is below an object stands in one of its properties. -/
theorem below_flagged (standing : p.Standing cs) (visited : v ∈ p.walk) {o : Flagged}
    (found : flagged? v = some o) {n : Node} (below : ∃ c ∈ v.node.children, c.Below n) :
    ∃ (i : Nat) (s : Span), (o.properties.map Tree.span)[i]? = some s ∧ s.covers n.span := by
  have same := (of_flagged? found).1
  have laid := standing.laid.of_mem_walk visited
  obtain ⟨c, child, below⟩ := below
  rw [same] at child laid
  obtain ⟨lo, hi, order⟩ := laid
  change c ∈ Tree.objectNodes o.properties at child
  rw [Tree.objectNodes_eq] at child
  obtain ⟨q, member, child⟩ := List.mem_flatMap.mp child
  obtain ⟨i, listed⟩ := List.getElem?_of_mem member
  obtain ⟨a, b, -, -, one⟩ := order.parts.of_mem member
  obtain ⟨laid, starts, stops⟩ := Tree.of_mem_objectNodes one child
  have inside := (laid.of_below below).2
  exact ⟨i, q.span, by simp [listed], covers_iff.mpr (by omega)⟩

namespace Flagged.Set

variable {o : Flagged}

theorem edits_pairwise (set : o.Set cs s) : (o.edits cs).Pairwise Edit.Apart :=
  List.pairwise_map.mpr ((removalRanges_spec set.row set.ascending set.held).1.imp .inl)

theorem of_mem_edits (set : o.Set cs s) (member : e ∈ o.edits cs) :
    e.Formed ∧ e.Bounded cs ∧ s.covers e.span ∧ e.span.start < e.span.stop := by
  obtain ⟨range, listed, rfl⟩ := List.mem_map.mp member
  obtain ⟨run, -, rfl, ordered, last, spec⟩ :=
    (removalRanges_spec set.row set.ascending set.held).2 range listed
  have wide := spec.wide set.row ordered last
  have bounded := runRange_bounded o.span ordered last
    (List.forall_mem_map.mpr fun q listed => (set.inked q listed).isBoundary)
  exact ⟨Edit.formed_replace wide.le "", bounded, set.span ▸ spec.inside, wide⟩

theorem exists_edit (set : o.Set cs s) : ∃ e, e ∈ o.edits cs := by
  obtain ⟨i, gone⟩ := List.exists_mem_of_ne_nil _ set.some
  obtain ⟨range, member, -⟩ := exists_removalRange cs set.row set.ascending set.held gone
    (List.getElem?_eq_getElem (set.held i gone))
  exact ⟨_, List.mem_map_of_mem member⟩

end Flagged.Set

/-! ### Conflicts -/

/-- The edits for a visited object. -/
def flagEdits (cs : List Char) (v : Visit) : List Edit := (flagged? v).toList.flatMap (Flagged.edits · cs)

theorem of_mem_flagEdits (member : e ∈ flagEdits cs v) : ∃ o, flagged? v = some o ∧ e ∈ o.edits cs := by
  obtain ⟨o, found, member⟩ := List.mem_flatMap.mp member
  exact ⟨o, Option.mem_toList.mp found, member⟩

/-- The second visit is of an object that loses properties inside of a property that the object of the
first loses. -/
def InRemovedProperty (v w : Visit) : Prop :=
  (flagged? w).isSome ∧ ∃ o, flagged? v = some o ∧
    ∃ i ∈ o.removed, ∃ q : Tree, o.properties[i]? = some q ∧ q.span.covers w.node.span

theorem edited_flags (standing : p.Standing cs) : Edited p (flagEdits cs) InRemovedProperty where
  own v visited := by
    unfold flagEdits
    cases found : flagged? v with
    | none => exact .nil
    | some o => simpa using (flagged_set standing visited found).edits_pairwise
  behind v visited w visited' before e there f here := by
    obtain ⟨o, found, member⟩ := of_mem_flagEdits there
    obtain ⟨o', found', member'⟩ := of_mem_flagEdits here
    obtain ⟨-, -, inside, -⟩ := (flagged_set standing visited found).of_mem_edits member
    obtain ⟨-, -, inside', -⟩ := (flagged_set standing visited' found').of_mem_edits member'
    rw [covers_iff] at inside inside'
    exact .inl (by omega)
  clear v visited w visited' below outside e there f here := by
    obtain ⟨o, found, member⟩ := of_mem_flagEdits there
    obtain ⟨o', found', member'⟩ := of_mem_flagEdits here
    have set := flagged_set standing visited found
    obtain ⟨-, -, inside', -⟩ := (flagged_set standing visited' found').of_mem_edits member'
    obtain ⟨i, s, listed, covered⟩ := below_flagged standing visited found below
    have kept : i ∉ o.removed := by
      intro gone
      obtain ⟨q, property, rfl⟩ := Option.map_eq_some_iff.mp (List.getElem?_map ▸ listed)
      exact outside ⟨by rw [found']; rfl, o, found, i, gone, q, property, covered⟩
    obtain ⟨range, ranged, rfl⟩ := List.mem_map.mp member
    have apart := apart_removalRanges set.row set.ascending set.held kept listed range ranged
    rw [covers_iff] at covered inside'
    change range.stop ≤ f.span.start ∨ f.span.stop ≤ range.start
    omega
  clash v visited w visited' above nested := by
    obtain ⟨inner, o, found, i, gone, q, property, covered⟩ := nested
    obtain ⟨o', found'⟩ := Option.isSome_iff_exists.mp inner
    have set := flagged_set standing visited found
    have set' := flagged_set standing visited' found'
    obtain ⟨range, ranged, held⟩ := exists_removalRange cs set.row set.ascending set.held gone
      (s := q.span) (by simp [property])
    obtain ⟨f, member'⟩ := set'.exists_edit
    obtain ⟨-, -, inside, wide⟩ := set'.of_mem_edits member'
    have member : Edit.remove range ∈ o.edits cs := List.mem_map_of_mem ranged
    refine ⟨_, by simpa [flagEdits, found] using member, f, by simpa [flagEdits, found'] using member', ?_⟩
    rw [covers_iff] at covered held inside
    change ¬ (range.stop ≤ f.span.start ∨ f.span.stop ≤ range.start)
    omega

theorem edits_nextConfigFlags (file : SourceFile) (p : Program) (cs : List Char) :
    (nextConfigFlags.draft ⟨p, cs, file⟩).edits =
      if file.config == some .nextConfig then p.walk.flatMap (flagEdits cs) else [] := by
  have drafts : (fun v : Visit => match v.node with
      | .tree .expression (.object properties span) =>
        match obsoleteFlags (isExperimental span v.ancestors) properties with
        | [] => none
        | removed => some (objectDraft cs span properties removed)
      | _ => none) = fun v => (flagged? v).map fun o => objectDraft cs o.span o.properties o.removed := by
    funext v
    unfold flagged?
    split
    · split <;> rfl
    · rfl
  change (if file.config == some .nextConfig then Draft.join (p.walk.filterMap _) else {}).edits = _
  split
  · refine (congrArg (fun f => (p.walk.filterMap f).flatMap Draft.edits) drafts).trans ?_
    refine (flatMap_filterMap _ Draft.edits _).trans (congrArg (List.flatMap · p.walk) (funext fun v => ?_))
    unfold flagEdits
    cases flagged? v <;> rfl
  · rfl

/-- Flags are taken out of the configuration without conflict unless an object with flags stands in a flag
of another one. -/
theorem conflicts_nextConfigFlags {leniency : Leniency} {file : SourceFile} {text : String}
    (read : parseScript leniency file text = .ok p) (standing : p.Standing text.toList) :
    Conflicts nextConfigFlags leniency file text ↔ file.config = some .nextConfig ∧
      ∃ v ∈ p.walk, ∃ w ∈ p.walk, v.node ∈ w.ancestors ∧ InRemovedProperty v w := by
  have edits := edits_nextConfigFlags file p text.toList
  have all : ∀ e ∈ (nextConfigFlags.draft ⟨p, text.toList, file⟩).edits, e.Formed ∧ e.Bounded text.toList := by
    rw [edits]
    intro e member
    split at member
    · obtain ⟨v, visited, member⟩ := List.mem_flatMap.mp member
      obtain ⟨o, found, member⟩ := of_mem_flagEdits member
      obtain ⟨formed, bounded, -⟩ := (flagged_set standing visited found).of_mem_edits member
      exact ⟨formed, bounded⟩
    · cases member
  rw [conflicts_iff read fun e member => (all e member).1, Edit.printable_iff fun e member => (all e member).1,
    and_iff_right fun e member => (all e member).2, edits]
  by_cases config : file.config = some .nextConfig
  · rw [if_pos (by simp [config]), (edited_flags standing).pairwise_iff standing.laid, not_not, and_iff_right config]
  · rw [if_neg (by simpa using config)]
    simp [config]

end SourceRepair.Repair
