import SourceRepair.Proofs.Conflicts.Properties

/-!
# Properties that are left

The ranges that take properties of an object away leave the other ones as they stood, each with what separated it
from the property behind it, as long as one is left there. So where commas separated the properties, commas
separate those that are left.
-/

namespace SourceRepair.Repair

open Text (IsBoundary slice byteLength byteLength_slice slice_join isBlank isSpace outside)
open Script (covers_iff)

variable {text : List Char} {object s t : Span} {properties : List Span} {removed : List Nat} {run : Nat × Nat}
  {i : Nat}

/-! ### Runs and ranges -/

theorem not_mem_behind_run (ascending : removed.Pairwise (· < ·)) (listed : run ∈ runs removed) :
    run.2 + 1 ∉ removed := by
  obtain ⟨ordered, apart, numbers⟩ := runs_spec ascending
  have both : (runs removed).Pairwise fun a b => a.2 + 1 < b.1 ∨ b.2 + 1 < a.1 := apart.imp .inl
  have symmetric : Std.Symm fun a b : Nat × Nat => a.2 + 1 < b.1 ∨ b.2 + 1 < a.1 := ⟨fun _ _ => Or.symm⟩
  intro member
  obtain ⟨next, found, lower, upper⟩ := (numbers _).mp member
  have wide := ordered run listed
  by_cases same : run = next
  · rw [← same] at upper
    omega
  · rcases both.forall listed found same with behind | front <;> omega

theorem InRow.stop_le_final (row : InRow object properties) (found : properties[i]? = some s)
    (final : properties.getLast? = some t) : s.stop ≤ t.stop := by
  rw [List.getLast?_eq_getElem?] at final
  have length := (List.getElem?_eq_some_iff.mp found).1
  rcases Nat.lt_or_eq_of_le (Nat.le_sub_one_of_lt length) with inner | rfl
  · exact (row.before inner found final).trans (row.wide t (List.mem_of_getElem? final)).le
  · rw [found] at final
    exact (congrArg Span.stop (Option.some.inj final)).le

/-- White space and the comma behind it, if a comma follows. -/
def trailingComma (tail : List Char) : List Char :=
  let blanks := tail.takeWhile isSpace
  if tail[blanks.length]? == some ',' then blanks ++ [','] else []

theorem trailingComma_isPrefix (tail : List Char) : trailingComma tail <+: tail := by
  have split : tail.takeWhile isSpace ++ tail.dropWhile isSpace = tail := List.takeWhile_append_dropWhile
  unfold trailingComma
  generalize tail.takeWhile isSpace = blanks at split ⊢
  generalize tail.dropWhile isSpace = others at split
  subst split
  dsimp only
  split
  · rename_i comma
    cases others with
    | nil => simp at comma
    | cons c others =>
      obtain rfl : c = ',' := by simpa using comma
      exact ⟨others, by simp⟩
  · exact List.nil_prefix

theorem runRange_next (first : properties[run.1]? = some s) (next : properties[run.2 + 1]? = some t) :
    runRange text object properties run = ⟨s.start, t.start⟩ := by
  simp [runRange, first, next]

theorem runRange_previous (previous : properties[i]? = some s) (behind : i + 1 = run.1)
    (last : properties[run.2]? = some t) (none : properties.length ≤ run.2 + 1) :
    runRange text object properties run = ⟨s.stop, t.stop⟩ := by
  obtain ⟨a, b⟩ := run
  obtain rfl : i + 1 = a := behind
  simp [runRange, List.getElem?_eq_none none, previous, last]

theorem runRange_all (first : properties[0]? = some s) (front : run.1 = 0) (last : properties[run.2]? = some t)
    (none : properties.length ≤ run.2 + 1) : runRange text object properties run =
      ⟨s.start, t.stop + byteLength (trailingComma (slice text ⟨t.stop, object.stop⟩))⟩ := by
  obtain ⟨a, b⟩ := run
  obtain rfl : a = 0 := front
  simp only [runRange, List.getElem?_eq_none none, first, last, Option.getD_some, trailingComma]
  split
  · rw [Text.byteLength_append, Nat.add_assoc]
    rfl
  · rfl

/-! ### Gaps between properties -/

/-- The range of a run takes the gaps behind its properties, and the gap in front of it if no property is behind. -/
theorem gap_in_run (text : List Char) (row : InRow object properties) (ordered : run.1 ≤ run.2)
    (held : run.2 < properties.length) (here : properties[i]? = some s) (next : properties[i + 1]? = some t)
    (inside : run.1 ≤ i ∧ i ≤ run.2 ∨ i + 1 = run.1 ∧ properties.length ≤ run.2 + 1) :
    (runRange text object properties run).start ≤ s.stop ∧ t.start ≤ (runRange text object properties run).stop := by
  have spec := runRange_spec text row ordered held
  have wide := row.wide s (List.mem_of_getElem? here)
  have wide' := row.wide t (List.mem_of_getElem? next)
  rcases inside with ⟨lower, upper⟩ | ⟨front, none⟩
  · have covered := covers_iff.mp (spec.held i s here lower upper)
    refine ⟨by omega, ?_⟩
    rcases Nat.lt_or_eq_of_le upper with inner | rfl
    · have covered' := covers_iff.mp (spec.held (i + 1) t next (by omega) inner)
      omega
    · rw [runRange_next (List.getElem?_eq_getElem (by omega)) next]
  · have covered := covers_iff.mp (spec.held (i + 1) t next front.ge (by omega))
    rw [runRange_previous here front (List.getElem?_eq_getElem held) none] at covered ⊢
    exact ⟨Nat.le.refl, by omega⟩

theorem gap_beside_run (text : List Char) (row : InRow object properties) (ordered : run.1 ≤ run.2)
    (held : run.2 < properties.length) (here : properties[i]? = some s) (next : properties[i + 1]? = some t)
    (outside : ¬ (run.1 ≤ i ∧ i ≤ run.2 ∨ i + 1 = run.1 ∧ properties.length ≤ run.2 + 1)) :
    (runRange text object properties run).stop ≤ s.stop ∨ t.start ≤ (runRange text object properties run).start := by
  have spec := runRange_spec text row ordered held
  have wide := row.wide s (List.mem_of_getElem? here)
  have wide' := row.wide t (List.mem_of_getElem? next)
  rcases Nat.lt_or_ge run.2 i with behind | upper
  · exact .inl ((spec.behind i s here behind).trans wide.le)
  · right
    rcases Nat.lt_or_eq_of_le (show i + 1 ≤ run.1 by omega) with front | beside
    · exact wide'.le.trans (spec.before (i + 1) t next front)
    · rw [runRange_next (beside ▸ next) (List.getElem?_eq_getElem (by omega))]

section

variable (text : List Char) (row : InRow object properties) (ascending : removed.Pairwise (· < ·))
  (held : ∀ i ∈ removed, i < properties.length)
include row ascending held

/-- A gap goes with the property in front of it, and also if all properties behind it go. -/
theorem gap_removed (here : properties[i]? = some s) (next : properties[i + 1]? = some t)
    (gone : i ∈ removed ∨ ∀ j, i < j → j < properties.length → j ∈ removed) :
    ∃ range ∈ removalRanges text object properties removed, range.start ≤ s.stop ∧ t.start ≤ range.stop := by
  obtain ⟨ordered, -, numbers⟩ := runs_spec ascending
  have last : ∀ run ∈ runs removed, run.2 < properties.length := fun run member =>
    held _ ((numbers _).mpr ⟨run, member, ordered run member, Nat.le.refl⟩)
  suffices taken : ∃ run ∈ runs removed, run.1 ≤ i ∧ i ≤ run.2 ∨ i + 1 = run.1 ∧ properties.length ≤ run.2 + 1 by
    obtain ⟨run, listed, inside⟩ := taken
    exact ⟨_, List.mem_map_of_mem listed, gap_in_run text row (ordered run listed) (last run listed) here next inside⟩
  by_cases first : i ∈ removed
  · obtain ⟨run, listed, inside⟩ := (numbers i).mp first
    exact ⟨run, listed, .inl inside⟩
  · -- The run of the next property starts there, and goes on to the last one.
    have others := gone.resolve_left first
    obtain ⟨run, listed, lower, upper⟩ :=
      (numbers (i + 1)).mp (others _ (Nat.lt_succ_self i) (List.getElem?_eq_some_iff.mp next).1)
    refine ⟨run, listed, .inr ⟨?_, ?_⟩⟩
    · by_contra differs
      exact first ((numbers i).mpr ⟨run, listed, by omega, by omega⟩)
    · by_contra more
      exact not_mem_behind_run ascending listed (others _ (by omega) (by omega))

theorem gap_kept (here : properties[i]? = some s) (next : properties[i + 1]? = some t) (stays : i ∉ removed)
    (more : ¬ ∀ j, i < j → j < properties.length → j ∈ removed) :
    ∀ range ∈ removalRanges text object properties removed, range.stop ≤ s.stop ∨ t.start ≤ range.start := by
  intro range member
  obtain ⟨run, listed, rfl, ordered, last, -⟩ := (removalRanges_spec row ascending held).2 range member
  have numbers := (runs_spec ascending).2.2
  refine gap_beside_run text row ordered last here next ?_
  rintro (⟨lower, upper⟩ | ⟨front, none⟩)
  · exact stays ((numbers i).mpr ⟨run, listed, lower, upper⟩)
  · exact more fun j behind inside => (numbers j).mpr ⟨run, listed, by omega, by omega⟩

/-- A range goes no further than the last property, unless it takes all properties. -/
theorem stop_le_last (final : properties.getLast? = some t) :
    ∀ range ∈ removalRanges text object properties removed, range.stop ≤ t.stop ∨
      (∀ j < properties.length, j ∈ removed) ∧
        range.stop = t.stop + byteLength (trailingComma (slice text ⟨t.stop, object.stop⟩)) := by
  intro range member
  obtain ⟨run, listed, rfl, ordered, last, -⟩ := (removalRanges_spec row ascending held).2 range member
  have numbers := (runs_spec ascending).2.2
  rcases Nat.lt_or_ge (run.2 + 1) properties.length with more | none
  · -- The range stops where the next property starts.
    have next : properties[run.2 + 1]? = some properties[run.2 + 1] := List.getElem?_eq_getElem more
    rw [runRange_next (List.getElem?_eq_getElem (by omega)) next]
    exact .inl ((row.wide _ (List.mem_of_getElem? next)).le.trans (row.stop_le_final next final))
  · rw [List.getLast?_eq_getElem?, show properties.length - 1 = run.2 by omega] at final
    cases front : run.1 with
    | succ previous =>
      have kept : properties[previous]? = some properties[previous] := List.getElem?_eq_getElem (by omega)
      rw [runRange_previous kept front.symm final none]
      exact .inl Nat.le.refl
    | zero =>
      rw [runRange_all (List.getElem?_eq_getElem (by omega)) front final none]
      exact .inr ⟨fun j inside => (numbers j).mpr ⟨run, listed, by omega, by omega⟩, rfl⟩

/-- When all properties go, the comma behind them goes too. -/
theorem comma_removed (final : properties.getLast? = some t) (all : ∀ j < properties.length, j ∈ removed) :
    ∃ range ∈ removalRanges text object properties removed, range.start ≤ t.stop ∧
      t.stop + byteLength (trailingComma (slice text ⟨t.stop, object.stop⟩)) ≤ range.stop := by
  obtain ⟨ordered, -, numbers⟩ := runs_spec ascending
  have nonempty : 0 < properties.length := List.length_pos_of_mem (List.mem_of_getLast? final)
  obtain ⟨run, listed, lower, -⟩ := (numbers 0).mp (all 0 nonempty)
  have last := held _ ((numbers run.2).mpr ⟨run, listed, ordered run listed, Nat.le.refl⟩)
  have none : properties.length ≤ run.2 + 1 := by
    by_contra more
    exact not_mem_behind_run ascending listed (all _ (by omega))
  have first : properties[0]? = some properties[0] := List.getElem?_eq_getElem nonempty
  have wide := row.wide _ (List.mem_of_getElem? first)
  have inside := row.stop_le_final first final
  rw [List.getLast?_eq_getElem?, show properties.length - 1 = run.2 by omega] at final
  refine ⟨_, List.mem_map_of_mem listed, ?_⟩
  rw [runRange_all first (Nat.le_zero.mp lower) final none]
  exact ⟨wide.le.trans inside, Nat.le.refl⟩

end

/-! ### What is left -/

/-- The properties that are not removed. -/
def keptProperties (removed : List Nat) (start : Nat) (properties : List Span) : List Span :=
  ((properties.zipIdx start).filter fun q => q.2 ∉ removed).map Prod.fst

/-- The texts between neighbours. -/
def gaps (text : List Char) : List Span → List (List Char)
  | s :: t :: rest => slice text ⟨s.stop, t.start⟩ :: gaps text (t :: rest)
  | _ => []

/-- Texts one after the other, with a gap between neighbours. -/
inductive Separated (IsGap : List Char → Prop) : List (List Char) → List Char → Prop
  | none : Separated IsGap [] []
  | one (part : List Char) : Separated IsGap [part] part
  | more {part gap next text : List Char} {parts : List (List Char)} (separates : IsGap gap)
    (later : Separated IsGap (next :: parts) text) : Separated IsGap (part :: next :: parts) (part ++ gap ++ text)

theorem Separated.mono {IsGap IsGap' : List Char → Prop} {parts : List (List Char)} {listing : List Char}
    (weaker : ∀ gap, IsGap gap → IsGap' gap) (separated : Separated IsGap parts listing) :
    Separated IsGap' parts listing := by
  induction separated with
  | none => exact .none
  | one part => exact .one part
  | more separates _ ih => exact .more (weaker _ separates) ih

theorem Separated.eq_nil {IsGap : List Char → Prop} {listing : List Char} (separated : Separated IsGap [] listing) :
    listing = [] := by
  cases separated
  rfl

theorem keptProperties_eq_nil {start : Nat} : keptProperties removed start properties = [] ↔
    ∀ j, start ≤ j → j < start + properties.length → j ∈ removed := by
  rw [keptProperties, List.map_eq_nil_iff, List.filter_eq_nil_iff]
  constructor
  · intro none j lower upper
    have member : (properties[j - start], j) ∈ properties.zipIdx start :=
      List.mem_zipIdx_iff_le_and_getElem?_sub.mpr ⟨lower, List.getElem?_eq_getElem (by omega)⟩
    simpa using none _ member
  · rintro all ⟨s, j⟩ member
    obtain ⟨lower, found⟩ := List.mem_zipIdx_iff_le_and_getElem?_sub.mp member
    have length := (List.getElem?_eq_some_iff.mp found).1
    simpa using all j lower (by dsimp only at lower length; omega)

@[simp] theorem keptProperties_nil (removed : List Nat) (start : Nat) : keptProperties removed start [] = [] := rfl

theorem keptProperties_cons (removed : List Nat) (start : Nat) (s : Span) (later : List Span) :
    keptProperties removed start (s :: later) =
      if start ∈ removed then keptProperties removed (start + 1) later
      else s :: keptProperties removed (start + 1) later := by
  by_cases gone : start ∈ removed <;> simp [keptProperties, gone]

section

variable (text : List Char) (row : InRow object properties) (ascending : removed.Pairwise (· < ·))
  (held : ∀ i ∈ removed, i < properties.length)
  (bounded : ∀ s ∈ properties, IsBoundary text s.start ∧ IsBoundary text s.stop)
include row ascending held bounded

theorem outside_property (here : properties[i]? = some s) :
    outside (removalRanges text object properties removed) s.start (slice text s) =
      if i ∈ removed then [] else slice text s := by
  obtain ⟨starts, stops⟩ := bounded s (List.mem_of_getElem? here)
  have length := byteLength_slice starts stops (row.wide s (List.mem_of_getElem? here)).le
  split
  · rename_i gone
    obtain ⟨range, member, covered⟩ := exists_removalRange text row ascending held gone here
    obtain ⟨lower, upper⟩ := covers_iff.mp covered
    exact Text.outside_eq_nil member lower (length.le.trans upper)
  · rename_i stays
    refine Text.outside_eq_self fun range member => ?_
    rw [length]
    exact (apart_removalRanges row ascending held stays here range member).symm

theorem outside_gap (here : properties[i]? = some s) (next : properties[i + 1]? = some t) :
    outside (removalRanges text object properties removed) s.stop (slice text ⟨s.stop, t.start⟩) =
      if i ∈ removed ∨ keptProperties removed (i + 1) (properties.drop (i + 1)) = [] then []
      else slice text ⟨s.stop, t.start⟩ := by
  have length := byteLength_slice (bounded s (List.mem_of_getElem? here)).2 (bounded t (List.mem_of_getElem? next)).1
    (row.before (Nat.lt_succ_self i) here next)
  have inside := (List.getElem?_eq_some_iff.mp next).1
  have others : keptProperties removed (i + 1) (properties.drop (i + 1)) = [] ↔
      ∀ j, i < j → j < properties.length → j ∈ removed := by
    rw [keptProperties_eq_nil, List.length_drop, Nat.add_sub_cancel' inside.le]
    rfl
  split
  · rename_i gone
    obtain ⟨range, member, lower, upper⟩ := gap_removed text row ascending held here next (gone.imp id others.mp)
    exact Text.outside_eq_nil member lower (length.le.trans upper)
  · rename_i stays
    obtain ⟨stays, more⟩ := not_or.mp (mt (Or.imp id others.mpr) stays)
    refine Text.outside_eq_self fun range member => ?_
    rw [length]
    exact gap_kept text row ascending held here next stays more range member

/-- From a property on, the ones that are kept are left, with the gaps behind them as long as one follows. -/
theorem outside_listing (final : properties.getLast? = some t) {later : List Span}
    (here : properties.drop i = s :: later) :
    Separated (· ∈ gaps text (s :: later)) ((keptProperties removed i (s :: later)).map (slice text))
      (outside (removalRanges text object properties removed) s.start (slice text ⟨s.start, t.stop⟩)) := by
  have found : properties[i]? = some s := by
    rw [← List.head?_drop, here]
    rfl
  induction later generalizing i s with
  | nil =>
    have last : s = t := by
      have same := congrArg List.getLast? here
      rw [List.getLast?_drop, if_neg (Nat.not_le.mpr (List.getElem?_eq_some_iff.mp found).1), final] at same
      exact (Option.some.inj same).symm
    subst last
    rw [outside_property text row ascending held bounded found, keptProperties_cons]
    split
    · exact .none
    · exact .one _
  | cons n later ih =>
    have rest : properties.drop (i + 1) = n :: later := by
      rw [← List.tail_drop, here]
      rfl
    have next : properties[i + 1]? = some n := by
      rw [← List.head?_drop, rest]
      rfl
    have step := ih rest next
    have property := outside_property text row ascending held bounded found
    have gap := outside_gap text row ascending held bounded found next
    rw [rest] at gap
    obtain ⟨starts, stops⟩ := bounded s (List.mem_of_getElem? found)
    obtain ⟨starts', -⟩ := bounded n (List.mem_of_getElem? next)
    obtain ⟨-, stops'⟩ := bounded t (List.mem_of_getLast? final)
    have wide := (row.wide s (List.mem_of_getElem? found)).le
    have behind := row.before (Nat.lt_succ_self i) found next
    have inside := (row.wide n (List.mem_of_getElem? next)).le.trans (row.stop_le_final next final)
    rw [slice_join starts stops stops' wide (behind.trans inside), slice_join stops starts' stops' behind inside,
      Text.outside_append, Text.outside_append, byteLength_slice starts stops wide, byteLength_slice stops starts' behind,
      property, gap, keptProperties_cons]
    by_cases gone : i ∈ removed
    · rw [if_pos gone, if_pos gone, if_pos (.inl gone)]
      exact step.mono fun _ member => List.mem_cons_of_mem _ member
    · cases kept : keptProperties removed (i + 1) (n :: later) with
      | nil =>
        rw [kept] at step
        rw [if_neg gone, if_neg gone, if_pos (.inr rfl), step.eq_nil, List.append_nil, List.append_nil]
        exact .one _
      | cons k ks =>
        rw [kept] at step
        rw [if_neg gone, if_neg gone, if_neg (by simp [gone]), ← List.append_assoc]
        exact .more List.mem_cons_self (step.mono fun _ member => List.mem_cons_of_mem _ member)

omit bounded in
/-- No range starts in front of the first property. -/
theorem first_le_start (first : properties[0]? = some s) :
    ∀ range ∈ removalRanges text object properties removed, s.start ≤ range.start := by
  intro range member
  obtain ⟨run, listed, rfl, ordered, last, spec⟩ := (removalRanges_spec row ascending held).2 range member
  have wide := row.wide s (List.mem_of_getElem? first)
  cases front : run.1 with
  | succ previous => exact wide.le.trans (spec.before 0 s first (by omega))
  | zero =>
    rcases Nat.lt_or_ge (run.2 + 1) properties.length with more | none
    · rw [runRange_next (front ▸ first) (List.getElem?_eq_getElem more)]
    · rw [runRange_all first front (List.getElem?_eq_getElem last) none]

/-- In front of the properties nothing changes, and behind them only a comma goes when no property is left. -/
theorem outside_object (first : properties.head? = some s) (final : properties.getLast? = some t)
    (stops : IsBoundary text object.stop) :
    ∃ listing rest, Separated (· ∈ gaps text properties) ((keptProperties removed 0 properties).map (slice text)) listing ∧
      outside (removalRanges text object properties removed) 0 text = slice text ⟨0, s.start⟩ ++ listing ++ rest ∧
      slice text ⟨t.stop, byteLength text⟩ =
        (if keptProperties removed 0 properties = [] then trailingComma (slice text ⟨t.stop, object.stop⟩) else []) ++ rest := by
  have start : IsBoundary text 0 := ⟨[], List.nil_prefix, rfl⟩
  have stop : IsBoundary text (byteLength text) := ⟨text, List.prefix_rfl, rfl⟩
  obtain ⟨starts, -⟩ := bounded s (List.mem_of_head? first)
  obtain ⟨-, stops'⟩ := bounded t (List.mem_of_getLast? final)
  have front : properties[0]? = some s := by rwa [← List.head?_eq_getElem?]
  have inside := (row.wide s (List.mem_of_head? first)).le.trans (row.stop_le_final front final)
  have within := (covers_iff.mp (row.inside t (List.mem_of_getLast? final))).2
  obtain ⟨others, here⟩ : ∃ others, properties = s :: others := List.head?_eq_some_iff.mp first
  have listed := outside_listing text row ascending held bounded final (i := 0) here
  rw [← here] at listed
  -- The comma goes exactly when all properties do.
  generalize taken : (if keptProperties removed 0 properties = [] then trailingComma (slice text ⟨t.stop, object.stop⟩)
    else []) = comma
  obtain ⟨rest, tail⟩ : comma <+: slice text ⟨t.stop, byteLength text⟩ := by
    rw [slice_join stops' stops stop within stops.le_byteLength, ← taken]
    split
    · exact (trailingComma_isPrefix _).trans (List.prefix_append _ _)
    · exact List.nil_prefix
  have all : keptProperties removed 0 properties = [] ↔ ∀ j < properties.length, j ∈ removed := by
    simp [keptProperties_eq_nil]
  have gone : outside (removalRanges text object properties removed) t.stop comma = [] := by
    rw [← taken]
    split
    · rename_i none
      obtain ⟨range, member, lower, upper⟩ := comma_removed text row ascending held final (all.mp none)
      exact Text.outside_eq_nil member lower upper
    · rfl
  have left : outside (removalRanges text object properties removed) (t.stop + byteLength comma) rest = rest := by
    refine Text.outside_eq_self fun range member => .inl ?_
    rcases stop_le_last text row ascending held final range member with early | ⟨none, same⟩
    · exact early.trans (Nat.le_add_right _ _)
    · rw [← taken, if_pos (all.mpr none), same]
  have kept : outside (removalRanges text object properties removed) 0 (slice text ⟨0, s.start⟩) = slice text ⟨0, s.start⟩ := by
    refine Text.outside_eq_self fun range member => .inr ?_
    rw [byteLength_slice start starts (Nat.zero_le _)]
    exact first_le_start text row ascending held front range member
  refine ⟨_, rest, listed, ?_, tail.symm⟩
  have whole := slice_join start starts stop (Nat.zero_le _) starts.le_byteLength
  rw [Text.slice_all, slice_join starts stops' stop inside stops'.le_byteLength, ← tail] at whole
  refine (congrArg (outside _ 0) whole).trans ?_
  rw [Text.outside_append, Text.outside_append, Text.outside_append, kept, byteLength_slice start starts (Nat.zero_le _),
    byteLength_slice starts stops' inside, gone, left]
  simp

end

/-- Apart from white space there is one comma. -/
def IsComma (gap : List Char) : Prop := gap.filter (!isSpace ·) = [',']

instance (gap : List Char) : Decidable (IsComma gap) := inferInstanceAs (Decidable (_ = _))

/-- The span from the first property to the last one, and the end of an object without properties. -/
def listSpan (object : Span) (properties : List Span) : Span :=
  ⟨(properties.head?.map Span.start).getD object.stop, (properties.getLast?.map Span.stop).getD object.stop⟩

/-- The ranges that take properties away stand one after the other in the object, hold the removed properties and
leave the kept ones alone. Without them stands what stood before, but with a list of the kept properties, in which
one comma stands between neighbours if that was so before. The comma behind the last property goes if none is kept. -/
theorem properties_left {text : String} (row : InRow object properties)
    (bounded : ∀ s ∈ object :: properties, IsBoundary text.toList s.start ∧ IsBoundary text.toList s.stop)
    (ascending : removed.Pairwise (· < ·)) (held : ∀ i ∈ removed, i < properties.length) :
    let ranges := removalRanges text.toList object properties removed
    let kept := keptProperties removed 0 properties
    let list := listSpan object properties
    (ranges.Pairwise (fun r s => r.stop ≤ s.start) ∧ ∀ r ∈ ranges, r.start < r.stop ∧ object.covers r) ∧
      (∀ i s, properties[i]? = some s → if i ∈ removed then ∃ r ∈ ranges, r.covers s else ∀ r ∈ ranges, s.Apart r) ∧
      Edit.applyAll (ranges.map Edit.remove) text = .ok (String.ofList (outside ranges 0 text.toList)) ∧
      ((∀ gap ∈ gaps text.toList properties, IsComma gap) → ∃ listing rest,
        Separated IsComma (kept.map (slice text.toList)) listing ∧
        outside ranges 0 text.toList = slice text.toList ⟨0, list.start⟩ ++ listing ++ rest ∧
        slice text.toList ⟨list.stop, byteLength text.toList⟩ =
          (if kept = [] then trailingComma (slice text.toList ⟨list.stop, object.stop⟩) else []) ++ rest) := by
  intro ranges kept list
  obtain ⟨⟨-, stops⟩, bounded⟩ := List.forall_mem_cons.mp bounded
  obtain ⟨rising, spec⟩ : ranges.Pairwise _ ∧ _ := removalRanges_spec row ascending held
  have inside : ∀ r ∈ ranges, r.start < r.stop ∧ object.covers r := by
    intro r member
    obtain ⟨run, -, -, ordered, last, range⟩ := spec r member
    exact ⟨range.wide row ordered last, range.inside⟩
  refine ⟨⟨rising, inside⟩, ?_, ?_, ?_⟩
  · intro i s found
    split
    · rename_i gone
      exact exists_removalRange text.toList row ascending held gone found
    · rename_i stays
      exact apart_removalRanges row ascending held stays found
  · refine Edit.applyAll_removals (fun r member => (inside r member).1.le) ?_ (rising.imp .inl)
    intro r member
    obtain ⟨run, -, rfl, ordered, last, -⟩ := spec r member
    exact runRange_bounded object ordered last bounded
  · intro commas
    cases first : properties.head? with
    | none =>
      obtain rfl := List.head?_eq_none_iff.mp first
      obtain rfl : removed = [] := List.eq_nil_iff_forall_not_mem.mpr fun i member => absurd (held i member) (Nat.not_lt_zero i)
      have stop : IsBoundary text.toList (byteLength text.toList) := ⟨_, List.prefix_rfl, rfl⟩
      have start : IsBoundary text.toList 0 := ⟨[], List.nil_prefix, rfl⟩
      have whole := slice_join start stops stop (Nat.zero_le _) stops.le_byteLength
      rw [Text.slice_all] at whole
      have same : outside ranges 0 text.toList = text.toList :=
        Text.outside_eq_self fun r none => (List.not_mem_nil none).elim
      refine ⟨[], slice text.toList ⟨object.stop, byteLength text.toList⟩, .none, ?_, ?_⟩
      · rw [same, List.append_nil]
        exact whole
      · change _ = trailingComma (slice text.toList ⟨object.stop, object.stop⟩) ++ _
        rw [Text.slice_point stops]
        rfl
    | some s =>
      obtain ⟨t, final⟩ : ∃ t, properties.getLast? = some t :=
        ⟨_, List.getLast?_eq_some_getLast (List.ne_nil_of_mem (List.mem_of_head? first))⟩
      obtain ⟨listing, rest, separated, left, tail⟩ :=
        outside_object text.toList row ascending held bounded first final stops
      have ends : list = ⟨s.start, t.stop⟩ := by simp [list, listSpan, first, final]
      rw [ends]
      exact ⟨listing, rest, separated.mono commas, left, tail⟩

theorem properties_left_some :
    let text := "x = \x7b a: 1, b , c: ',',\n d: 2 , \x7d"
    let object : Span := ⟨4, 33⟩
    let properties : List Span := [⟨6, 10⟩, ⟨12, 13⟩, ⟨16, 22⟩, ⟨25, 29⟩]
    InRow object properties ∧ (∀ gap ∈ gaps text.toList properties, IsComma gap) ∧
      Edit.applyAll ((removalRanges text.toList object properties [0, 2, 3]).map Edit.remove) text = .ok "x = \x7b b , \x7d" ∧
      ∃ listing rest, Separated IsComma [['b']] listing ∧ "x = \x7b b , \x7d".toList = "x = \x7b ".toList ++ listing ++ rest := by
  intro text object properties
  have row : InRow object properties := ⟨by decide +kernel, by decide +kernel, by decide +kernel⟩
  have commas : ∀ gap ∈ gaps text.toList properties, IsComma gap := by decide +kernel
  have bounded : ∀ s ∈ object :: properties, IsBoundary text.toList s.start ∧ IsBoundary text.toList s.stop := by
    decide +kernel
  have ascending : [0, 2, 3].Pairwise (· < ·) := by decide
  have held : ∀ i ∈ [0, 2, 3], i < properties.length := by decide
  obtain ⟨-, -, applied, left⟩ := properties_left row bounded ascending held
  obtain ⟨listing, rest, separated, whole, -⟩ := left commas
  have outcome : outside (removalRanges text.toList object properties [0, 2, 3]) 0 text.toList = "x = \x7b b , \x7d".toList := by
    decide +kernel
  have kept : (keptProperties [0, 2, 3] 0 properties).map (slice text.toList) = [['b']] := by decide +kernel
  have front : slice text.toList ⟨0, (listSpan object properties).start⟩ = "x = \x7b ".toList := by decide +kernel
  rw [outcome] at applied whole
  rw [kept] at separated
  rw [front] at whole
  exact ⟨row, commas, applied.trans (by rw [String.ofList_toList]), listing, rest, separated, whole⟩

end SourceRepair.Repair
