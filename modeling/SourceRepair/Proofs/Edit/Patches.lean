import SourceRepair.Proofs.Edit.Printed
import SourceRepair.Proofs.Text.Removal

/-!
# Patches

Statements that are taken away or replaced, one after the other: the edited text is the text without them
and without the white space that goes with what is taken away, and everything else stands as before.
-/

namespace SourceRepair

open Text (Inked byteLength byteLength_append isBlank removalRange)

variable {cs front rest : List Char} {s t : Span} {e f : Edit} {edits sorted : List Edit}

/-! ### Edits apart -/

/-- The first edit ends before the second starts, or the other way round. -/
def Edit.Apart (a b : Edit) : Prop := a.span.stop ≤ b.span.start ∨ b.span.stop ≤ a.span.start

theorem Edit.Apart.symm {a b : Edit} (apart : a.Apart b) : b.Apart a := Or.symm apart

/-- The edit starts and stops between characters. -/
def Edit.Bounded (cs : List Char) (e : Edit) : Prop :=
  Text.IsBoundary cs e.span.start ∧ Text.IsBoundary cs e.span.stop

theorem Edit.printable_iff (formed : ∀ e ∈ edits, Formed e) :
    Printable edits cs ↔ (∀ e ∈ edits, e.Bounded cs) ∧ edits.Pairwise Apart := by
  have point : ∀ e ∈ edits, e.anchor ≠ .replacing → e.span.start = e.span.stop := by
    intro e member inserts
    obtain ⟨ordered, replaces⟩ := formed e member
    have := mt replaces.mpr inserts
    omega
  constructor
  · intro printable
    refine ⟨printable.bounded, printable.apart.imp_of_mem ?_⟩
    intro a b first second apart
    by_cases left : a.anchor = .replacing
    · by_cases right : b.anchor = .replacing
      · exact apart left right
      · have := point b second right
        have := printable.outside a first left b second
        unfold Apart
        omega
    · have := point a first left
      by_cases right : b.anchor = .replacing
      · have := printable.outside b second right a first
        unfold Apart
        omega
      · have := point b second right
        unfold Apart
        omega
  · rintro ⟨bounded, apart⟩
    refine ⟨bounded, apart.imp fun apart _ _ => apart, fun r replaced _ e member inside => ?_⟩
    obtain ⟨ordered, -⟩ := formed e member
    have symmetric : Std.Symm Edit.Apart := ⟨fun _ _ => .symm⟩
    by_cases same : r = e
    · subst same
      omega
    · rcases apart.forall replaced member same with before | after <;> omega

/-! ### Statements that are taken away -/

/-- The edit takes the place of a span, and at most of what is removed with it. -/
structure Edit.Removes (cs : List Char) (s : Span) (e : Edit) : Prop where
  formed : e.Formed
  bounded : e.Bounded cs
  starts : (removalRange cs s).start ≤ e.span.start ∧ e.span.start ≤ s.start
  stops : s.stop ≤ e.span.stop ∧ e.span.stop ≤ (removalRange cs s).stop

namespace Edit

theorem removes_replace (inked : Inked cs s) (text : String) : Removes cs s (.replace s text) := by
  obtain ⟨starts, stops, -⟩ := Text.removalRange_covers inked
  exact ⟨formed_replace inked.start_lt_stop.le text, inked.isBoundary, ⟨starts, Nat.le.refl⟩,
    ⟨Nat.le.refl, stops⟩⟩

theorem removes_remove (inked : Inked cs s) : Removes cs s (.remove (removalRange cs s)) := by
  obtain ⟨starts, stops, bounded⟩ := Text.removalRange_covers inked
  have wide := inked.start_lt_stop
  exact ⟨formed_replace (by omega) "", bounded, ⟨Nat.le.refl, starts⟩, ⟨stops, Nat.le.refl⟩⟩

theorem Removes.replacing (removes : e.Removes cs s) (inked : Inked cs s) : e.anchor = .replacing := by
  have := removes.starts
  have := removes.stops
  have := inked.start_lt_stop
  exact removes.formed.2.mpr (by omega)

/-- Of two spans the first is taken away in front of the second. -/
theorem Removes.before (first : e.Removes cs s) (second : f.Removes cs t) (inked : Inked cs s)
    (inked' : Inked cs t) (before : s.stop ≤ t.start) : e.span.stop ≤ f.span.start :=
  first.stops.2.trans ((Text.removalRange_apart inked inked' before).trans second.starts.1)

/-- Spans that are apart are taken away apart. -/
theorem Removes.apart (first : e.Removes cs s) (second : f.Removes cs t) (inked : Inked cs s)
    (inked' : Inked cs t) (apart : s.stop ≤ t.start ∨ t.stop ≤ s.start) : e.Apart f :=
  apart.imp (first.before second inked inked') (second.before first inked' inked)

/-- A span in another one cannot be taken away beside it. -/
theorem Removes.overlap (first : e.Removes cs s) (second : f.Removes cs t) (wide : t.start < t.stop)
    (starts : s.start ≤ t.start) (stops : t.stop ≤ s.stop) : ¬ e.Apart f := by
  have := first.starts
  have := first.stops
  have := second.starts
  have := second.stops
  unfold Apart
  omega

end Edit

/-! ### Patched texts -/

/-- A statement that is taken away, or replaced by a text. -/
structure Patch where
  span : Span
  text : Option String

def Patch.edit (cs : List Char) (q : Patch) : Edit :=
  match q.text with
  | none => .remove (removalRange cs q.span)
  | some text => .replace q.span text

theorem Patch.edit_removes (q : Patch) (inked : Inked cs q.span) : (q.edit cs).Removes cs q.span := by
  unfold Patch.edit
  split
  · exact Edit.removes_remove inked
  · exact Edit.removes_replace inked _

/-- What the patches make of the text that follows another one. White space goes with what is taken away,
on its line and with at most one newline behind it. -/
inductive Patched : List Char → List Patch → List Char → List Char → Prop
  | done {front rest : List Char} : Patched front [] rest rest
  | removed {front gap before part behind rest out : List Char} {s : Span} {patches : List Patch}
    (span : s = ⟨byteLength (front ++ gap ++ before), byteLength (front ++ gap ++ before) + byteLength part⟩)
    (lead : isBlank before ∧ '\n' ∉ before) (trail : isBlank behind ∧ behind.count '\n' ≤ 1)
    (later : Patched (front ++ gap ++ (before ++ part ++ behind)) patches rest out) :
    Patched front (⟨s, none⟩ :: patches) (gap ++ (before ++ part ++ behind) ++ rest) (gap ++ out)
  | replaced {front gap part rest out : List Char} {s : Span} {text : String} {patches : List Patch}
    (span : s = ⟨byteLength (front ++ gap), byteLength (front ++ gap) + byteLength part⟩)
    (later : Patched (front ++ gap ++ part) patches rest out) :
    Patched front (⟨s, some text⟩ :: patches) (gap ++ part ++ rest) (gap ++ text.toList ++ out)

namespace Edit

/-- A sorted list of edits that start at different offsets. -/
theorem sorted_eq_of_perm (perm : edits.Perm sorted)
    (rising : sorted.Pairwise fun a b => a.span.start < b.span.start) : Edit.sorted edits = sorted := by
  have ranked : (Edit.sorted edits).Pairwise fun a b => a.span.start ≤ b.span.start := by
    refine List.pairwise_map.mpr ((mergeSort_pairwise edits.zipIdx).imp ?_)
    intro a b before
    simp only [le, Bool.or_eq_true, Bool.and_eq_true, decide_eq_true_eq, beq_iff_eq] at before
    omega
  have perm := (sorted_perm edits).trans perm
  refine List.Perm.eq_of_pairwise ?_ ranked (rising.imp Nat.le_of_lt) perm
  intro a b first second below above
  have starts : (sorted.map fun e => e.span.start).Nodup :=
    List.pairwise_map.mpr (rising.imp Nat.ne_of_lt)
  exact List.inj_on_of_nodup_map starts (perm.mem_iff.mp first) second (Nat.le_antisymm below above)

/-- Of two ways to cut a text the second keeps more in front. -/
theorem exists_gap {front rest front' back : List Char} (whole : front ++ rest = front' ++ back)
    (le : byteLength front ≤ byteLength front') : ∃ gap, front' = front ++ gap ∧ rest = gap ++ back := by
  obtain ⟨gap, rfl⟩ : front <+: front' :=
    Text.prefix_of_byteLength_le (List.prefix_append front rest) (whole ▸ List.prefix_append front' back) le
  exact ⟨gap, rfl, List.append_cancel_left (whole.trans (List.append_assoc ..))⟩

/-- Splicing past an edit that is behind a gap. -/
theorem splice_gap {front gap gone back out : List Char} (start : e.span.start = byteLength (front ++ gap))
    (stop : e.span.stop = byteLength (front ++ gap ++ gone))
    (later : splice edits (byteLength (front ++ gap ++ gone)) back = .ok out) :
    splice (e :: edits) (byteLength front) (gap ++ gone ++ back) = .ok (gap ++ e.text.toList ++ out) := by
  refine splice_cons_ok.mpr ⟨?_, gap, gone, back, out, List.append_assoc .., ?_, ?_, stop ▸ later, rfl⟩
  all_goals simp only [start, stop, byteLength_append]; omega

theorem splice_patches {patches : List Patch} (cs front rest : List Char) (whole : cs = front ++ rest)
    (inked : ∀ q ∈ patches, Inked cs q.span)
    (starts : ∀ q ∈ patches, byteLength front ≤ (q.edit cs).span.start)
    (apart : patches.Pairwise fun a b => a.span.stop ≤ b.span.start) :
    ∃ out, splice (patches.map (Patch.edit cs)) (byteLength front) rest = .ok out ∧
      Patched front patches rest out := by
  induction patches generalizing front rest with
  | nil => exact ⟨rest, rfl, .done⟩
  | cons q patches ih =>
    obtain ⟨here, others⟩ := List.forall_mem_cons.mp inked
    obtain ⟨before, later⟩ := List.pairwise_cons.mp apart
    have start := starts q List.mem_cons_self
    have next : ∀ r ∈ patches, (q.edit cs).span.stop ≤ (r.edit cs).span.start := fun r member =>
      (q.edit_removes here).before (r.edit_removes (others r member)) here (others r member) (before r member)
    obtain ⟨s, text⟩ := q
    rw [List.map_cons]
    cases text with
    | none =>
      obtain ⟨f, away, part, behind, b, split, span, range, lead, trail⟩ := here.split_removed
      rw [show Patch.edit cs ⟨s, none⟩ = .remove (removalRange cs s) from rfl, range] at start next ⊢
      obtain ⟨gap, rfl, rfl⟩ : ∃ gap, f = front ++ gap ∧ rest = gap ++ (away ++ part ++ behind ++ b) :=
        exists_gap (whole.symm.trans (split.trans (List.append_assoc ..))) start
      obtain ⟨out, spliced, patched⟩ := ih _ _ split others next later
      rw [← List.append_assoc gap]
      refine ⟨gap ++ out, ?_, .removed span lead trail patched⟩
      have step := splice_gap (e := .remove ⟨_, _⟩) rfl rfl spliced
      rwa [show (Edit.remove ⟨_, _⟩).text.toList = [] from rfl, List.append_nil] at step
    | some text =>
      obtain ⟨f, part, b, split, rfl, -⟩ := here.split
      obtain ⟨gap, rfl, rfl⟩ : ∃ gap, f = front ++ gap ∧ rest = gap ++ (part ++ b) :=
        exists_gap (whole.symm.trans (split.trans (List.append_assoc ..))) start
      obtain ⟨out, spliced, patched⟩ := ih _ _ split others
        (fun r member => (byteLength_append ..).trans_le (next r member)) later
      rw [← List.append_assoc]
      exact ⟨gap ++ text.toList ++ out, splice_gap rfl (byteLength_append ..).symm spliced, .replaced rfl patched⟩

/-- Statements that stand one after the other are edited in their order. -/
theorem rising_patches {patches : List Patch} (inked : ∀ q ∈ patches, Inked cs q.span)
    (apart : patches.Pairwise fun a b => a.span.stop ≤ b.span.start) :
    (patches.map (Patch.edit cs)).Pairwise fun a b => a.span.start < b.span.start := by
  refine List.pairwise_map.mpr (apart.imp_of_mem fun {a b} first second before => ?_)
  have one := a.edit_removes (inked a first)
  have other := b.edit_removes (inked b second)
  have := one.starts
  have := one.stops
  have := one.before other (inked a first) (inked b second) before
  have := (inked a first).start_lt_stop
  omega

/-- Statements that stand one after the other are taken away or replaced without conflict. -/
theorem applyAll_patches {text : String} {patches : List Patch} (perm : edits.Perm (patches.map (Patch.edit text.toList)))
    (inked : ∀ q ∈ patches, Inked text.toList q.span)
    (apart : patches.Pairwise fun a b => a.span.stop ≤ b.span.start) :
    ∃ code, applyAll edits text = .ok code ∧ Patched [] patches text.toList code.toList := by
  obtain ⟨out, spliced, patched⟩ := splice_patches text.toList [] text.toList rfl inked
    (fun _ _ => Nat.zero_le _) apart
  refine ⟨String.ofList out, ?_, by rwa [String.toList_ofList]⟩
  rw [applyAll, sorted_eq_of_perm perm (rising_patches inked apart)]
  change (do let cs ← splice _ (byteLength []) text.toList; _) = _
  rw [spliced]
  rfl

/-! ### Insertions -/

/-- An insertion that is recorded last stands in front of the replacements from its offset on. -/
theorem sorted_concat_insert {offset : Nat} (text : String) (replaces : ∀ e ∈ edits, e.anchor = .replacing)
    (behind : ∀ e ∈ edits, offset ≤ e.span.start)
    (rising : edits.Pairwise fun a b => a.span.start < b.span.start) :
    Edit.sorted (edits ++ [.insert offset text]) = .insert offset text :: edits := by
  have keyed : ((Edit.insert offset text, edits.length) :: edits.zipIdx).Pairwise Precedes := by
    refine List.pairwise_cons.mpr ⟨fun e member => ?_, ?_⟩
    · have listed := List.fst_mem_of_mem_zipIdx member
      have := behind e.1 listed
      simp only [Precedes, key, Edit.insert, Span.point, replaces e.1 listed, Anchor.rank, Prod.Lex.toLex_lt_toLex]
      omega
    · rw [← List.zipIdx_map_fst 0 edits, List.pairwise_map] at rising
      refine rising.imp fun before => ?_
      simp only [Precedes, key, Prod.Lex.toLex_lt_toLex]
      exact .inl before
  have same : ((Edit.insert offset text, edits.length) :: edits.zipIdx).Perm
      (edits ++ [Edit.insert offset text]).zipIdx := by
    rw [List.zipIdx_append, Nat.zero_add]
    exact (List.perm_append_singleton _ _).symm
  rw [Edit.sorted, mergeSort_eq keyed same, List.map_cons, List.zipIdx_map_fst]

/-- What stands in front of all edits is kept. -/
theorem splice_front {out : List Char} (behind : ∀ e ∈ edits, byteLength front ≤ e.span.start)
    (spliced : splice edits (byteLength front) rest = .ok out) : splice edits 0 (front ++ rest) = .ok (front ++ out) := by
  cases edits with
  | nil =>
    cases spliced
    rfl
  | cons e edits =>
    obtain ⟨-, kept, gone, back, done, rfl, length, goneLength, later, rfl⟩ := splice_cons_ok.mp spliced
    have := behind e List.mem_cons_self
    refine splice_cons_ok.mpr ⟨Nat.zero_le _, front ++ kept, gone, back, done, by simp, ?_, goneLength, later, by simp⟩
    rw [Text.byteLength_append]
    omega

/-- An insertion in front of all other edits. -/
theorem splice_insert {out : List Char} (word : String) (spliced : splice edits (byteLength front) rest = .ok out) :
    splice (.insert (byteLength front) word :: edits) 0 (front ++ rest) = .ok (front ++ (word.toList ++ out)) := by
  have step : splice (.insert (byteLength front) word :: edits) (byteLength []) (front ++ [] ++ rest) =
      .ok (front ++ word.toList ++ out) :=
    splice_gap rfl (by simp [Edit.insert, Span.point]) (by simpa using spliced)
  rwa [List.append_nil, Text.byteLength_nil, List.append_assoc] at step

/-- One insertion between two parts of a text. -/
theorem applyAll_insert {text : String} (word : String) (whole : text.toList = front ++ rest) :
    applyAll [.insert (byteLength front) word] text = .ok (String.ofList (front ++ (word.toList ++ rest))) := by
  have order : Edit.sorted [.insert (byteLength front) word] = [.insert (byteLength front) word] :=
    sorted_concat_insert word (List.forall_mem_nil _) (List.forall_mem_nil _) .nil
  rw [applyAll, order, whole, splice_insert word rfl]
  rfl

end Edit

end SourceRepair

/-!
## Removed ranges together

Ranges that are apart from each other are removed together, in whatever order they are recorded, and what
stands outside them is left. The ranges that are removed with statements are apart when the statements are,
so no family of statements is in conflict with itself.
-/

namespace SourceRepair

/-- One of the spans ends before the other starts. -/
def Span.Apart (s t : Span) : Prop := s.stop ≤ t.start ∨ t.stop ≤ s.start

instance (s t : Span) : Decidable (s.Apart t) := inferInstanceAs (Decidable (_ ∨ _))

namespace Text

variable {ranges : List Span} {cs xs : List Char} {n a b c : Nat} {r : Span}

/-! ### Parts of a text -/

theorem exists_slice (starts : IsBoundary cs a) (stops : IsBoundary cs b) (le : a ≤ b) :
    ∃ front back, cs = front ++ slice cs ⟨a, b⟩ ++ back ∧ a = byteLength front ∧
      b = byteLength front + byteLength (slice cs ⟨a, b⟩) := by
  obtain ⟨front, rest, rfl, rfl⟩ := starts.split
  obtain ⟨front', back, whole, rfl⟩ := stops.split
  obtain ⟨part, rfl, rfl⟩ := Edit.exists_gap whole le
  rw [byteLength_append, ← List.append_assoc, slice_append]
  exact ⟨front, back, rfl, rfl, rfl⟩

theorem byteLength_slice (starts : IsBoundary cs a) (stops : IsBoundary cs b) (le : a ≤ b) :
    a + byteLength (slice cs ⟨a, b⟩) = b := by
  obtain ⟨front, back, -, start, stop⟩ := exists_slice starts stops le
  omega

/-- A part of a text is two parts one after the other. -/
theorem slice_join (starts : IsBoundary cs a) (middle : IsBoundary cs b) (stops : IsBoundary cs c) (le : a ≤ b)
    (le' : b ≤ c) : slice cs ⟨a, c⟩ = slice cs ⟨a, b⟩ ++ slice cs ⟨b, c⟩ := by
  obtain ⟨front, back, whole, start, mid⟩ := exists_slice starts middle le
  obtain ⟨front', back', whole', mid', stop⟩ := exists_slice middle stops le'
  generalize slice cs ⟨a, b⟩ = first at *
  generalize slice cs ⟨b, c⟩ = second at *
  have short : front ++ first <+: cs := ⟨back, whole.symm⟩
  have long : front' <+: cs := ⟨second ++ back', by rw [whole', List.append_assoc]⟩
  have same : front ++ first = front' := eq_of_prefix short long (by rw [byteLength_append]; omega)
  have read := slice_append front (first ++ second) back'
  rw [← List.append_assoc, same, ← whole', byteLength_append, ← start, ← Nat.add_assoc, start, ← mid, mid', ← stop,
    ← start] at read
  exact read

theorem slice_point (point : IsBoundary cs a) : slice cs ⟨a, a⟩ = [] := by
  obtain ⟨front, back, rfl, rfl⟩ := point.split
  simpa using slice_append front [] back

theorem slice_all (cs : List Char) : slice cs ⟨0, byteLength cs⟩ = cs := by
  simpa using slice_append [] cs []

/-! ### The text outside ranges -/

/-- The offset lies in one of the ranges. -/
def holdsAt (ranges : List Span) (n : Nat) : Bool := ranges.any fun r => r.start ≤ n && n < r.stop

/-- What stands outside the ranges in a text that starts at an offset. -/
def outside (ranges : List Span) : Nat → List Char → List Char
  | _, [] => []
  | n, c :: cs =>
    if holdsAt ranges n then outside ranges (n + c.utf8Size) cs else c :: outside ranges (n + c.utf8Size) cs

theorem outside_append (ranges : List Span) (n : Nat) (xs ys : List Char) :
    outside ranges n (xs ++ ys) = outside ranges n xs ++ outside ranges (n + byteLength xs) ys := by
  induction xs generalizing n with
  | nil => rfl
  | cons c xs ih =>
    rw [List.cons_append, outside, outside, ih, byteLength_cons, Nat.add_assoc]
    split <;> rfl

/-- Nothing is left of what lies in one range. -/
theorem outside_eq_nil (member : r ∈ ranges) (starts : r.start ≤ n) (stops : n + byteLength xs ≤ r.stop) :
    outside ranges n xs = [] := by
  induction xs generalizing n with
  | nil => rfl
  | cons c xs ih =>
    have wide := c.utf8Size_pos
    rw [byteLength_cons] at stops
    have here : holdsAt ranges n = true :=
      List.any_eq_true.mpr ⟨r, member, by rw [Bool.and_eq_true, decide_eq_true_eq, decide_eq_true_eq]; omega⟩
    rw [outside, if_pos here]
    exact ih (by omega) (by omega)

/-- All is left of what lies apart from the ranges. -/
theorem outside_eq_self (apart : ∀ r ∈ ranges, r.stop ≤ n ∨ n + byteLength xs ≤ r.start) :
    outside ranges n xs = xs := by
  induction xs generalizing n with
  | nil => rfl
  | cons c xs ih =>
    have wide := c.utf8Size_pos
    rw [byteLength_cons] at apart
    have clear : holdsAt ranges n = false := by
      refine List.any_eq_false.mpr fun r member => ?_
      have := apart r member
      rw [Bool.and_eq_true, decide_eq_true_eq, decide_eq_true_eq]
      omega
    rw [outside, clear, if_neg Bool.false_ne_true]
    refine congrArg (c :: ·) (ih fun r member => ?_)
    have := apart r member
    omega

end Text

/-! ### Making the removals -/

namespace Edit

open Text (outside holdsAt)

variable {ranges : List Span}

theorem replacedAt_removals (ranges : List Span) (n : Nat) :
    replacedAt (ranges.map remove).zipIdx n = holdsAt ranges n := by
  have numbered : replacedAt (ranges.map remove).zipIdx n = ((ranges.map remove).zipIdx.map Prod.fst).any
      fun e => e.anchor == .replacing && e.span.start ≤ n && n < e.span.stop := by
    rw [List.any_map]
    rfl
  rw [numbered, List.zipIdx_map_fst, List.any_map]
  refine congrArg ranges.any (funext fun r => ?_)
  change ((remove r).anchor == .replacing && decide (r.start ≤ n) && decide (n < r.stop)) = _
  by_cases empty : r.start = r.stop
  · -- An empty range replaces nothing, and holds no offset either.
    have plain : (remove r).anchor = .plain := by simp [remove, replace, empty]
    have none : (decide (r.start ≤ n) && decide (n < r.stop)) = false := by
      rw [Bool.and_eq_false_iff, decide_eq_false_iff_not, decide_eq_false_iff_not]
      omega
    rw [plain, none]
    rfl
  · have replacing : (remove r).anchor = .replacing := by simp [remove, replace, empty]
    rw [replacing]
    rfl

/-- Removals print nothing of their own. -/
theorem printed_removals (ranges : List Span) (n : Nat) (cs : List Char) :
    (marks (ranges.map remove).zipIdx n cs).flatMap Mark.printed = outside ranges n cs := by
  have silent : ∀ n, ((editsAt (ranges.map remove).zipIdx n).map fun e => Mark.put e.1 e.2).flatMap Mark.printed = [] := by
    intro n
    rw [List.flatMap_map, List.flatMap_eq_nil_iff]
    intro e member
    obtain ⟨r, -, removal⟩ := List.mem_map.mp (List.fst_mem_of_mem_zipIdx (mem_editsAt.mp member).1)
    rw [Mark.printed, ← removal]
    rfl
  induction cs generalizing n with
  | nil => exact silent n
  | cons c cs ih =>
    rw [marks, List.flatMap_append, silent, List.nil_append, List.flatMap_cons, ih, replacedAt_removals, outside]
    cases holdsAt ranges n <;> rfl

/-- Ranges that are apart are removed without conflict. -/
theorem applyAll_removals {text : String} (ordered : ∀ r ∈ ranges, r.start ≤ r.stop)
    (bounded : ∀ r ∈ ranges, Text.IsBoundary text.toList r.start ∧ Text.IsBoundary text.toList r.stop)
    (apart : ranges.Pairwise Span.Apart) :
    applyAll (ranges.map remove) text = .ok (String.ofList (outside ranges 0 text.toList)) := by
  have formed : ∀ e ∈ ranges.map remove, Formed e :=
    List.forall_mem_map.mpr fun r member => formed_replace (ordered r member) ""
  have printable : Printable (ranges.map remove) text.toList :=
    (printable_iff formed).mpr ⟨List.forall_mem_map.mpr bounded, List.pairwise_map.mpr apart⟩
  rw [applyAll_of_printable printable formed (List.zipIdx_map_fst 0 _), printed_removals]

end Edit

/-! ### Statements that are removed -/

namespace Text

variable {spans : List Span} {cs : List Char} {s : Span}

/-- The range takes a span away and white space around it, with no newline in front of the span and at most one
behind it. It goes over whole lines, or from the span's start up to what is no blank. -/
structure Widens (cs : List Char) (s range : Span) : Prop where
  covers : range.covers s
  bounded : IsBoundary cs range.start ∧ IsBoundary cs range.stop
  lead : isBlank (slice cs ⟨range.start, s.start⟩) ∧ '\n' ∉ slice cs ⟨range.start, s.start⟩
  trail : isBlank (slice cs ⟨s.stop, range.stop⟩) ∧ (slice cs ⟨s.stop, range.stop⟩).count '\n' ≤ 1
  whole : range = ⟨lineStart cs s.start, lineEndAfter cs s.stop⟩ ∨
    range.start = s.start ∧ ¬ (slice cs ⟨range.stop, byteLength cs⟩).head?.any isIndent

/-- The blanks at the start of a line are followed by something else, or by nothing. -/
theorem exists_behind_indent (cs : List Char) :
    ∃ more, cs = (firstLine cs).takeWhile isIndent ++ more ∧ ¬ more.head?.any isIndent := by
  have split : (firstLine cs).takeWhile isIndent ++ (firstLine cs).dropWhile isIndent = firstLine cs :=
    List.takeWhile_append_dropWhile
  have stopped := List.head?_dropWhile_not isIndent (firstLine cs)
  generalize (firstLine cs).takeWhile isIndent = blanks at split ⊢
  generalize (firstLine cs).dropWhile isIndent = others at split stopped
  rcases firstLine_rest cs with whole | ⟨rest, whole⟩
  · refine ⟨others, whole.trans split.symm, ?_⟩
    cases others with
    | nil => exact Bool.false_ne_true
    | cons c others => simpa using stopped
  · refine ⟨others ++ '\n' :: rest, by rw [← List.append_assoc, split]; exact whole, ?_⟩
    cases others with
    | nil => exact of_decide_eq_true rfl
    | cons c others => simpa using stopped

theorem removalRange_widens (inked : Inked cs s) : Widens cs s (removalRange cs s) := by
  obtain ⟨starts, stops, bounded⟩ := removalRange_covers inked
  refine ⟨Bool.and_eq_true_iff.mpr ⟨decide_eq_true starts, decide_eq_true stops⟩, bounded, ?_, ?_, ?_⟩
  · obtain ⟨front, before, part, behind, back, rfl, rfl, range, lead, -⟩ := inked.split_removed
    have read := slice_append front before (part ++ behind ++ back)
    rw [range]
    simp only [List.append_assoc, byteLength_append] at read ⊢
    rwa [read]
  · obtain ⟨front, before, part, behind, back, rfl, rfl, range, -, trail⟩ := inked.split_removed
    have read := slice_append (front ++ before ++ part) behind back
    rw [range]
    simp only [List.append_assoc, byteLength_append, Nat.add_assoc] at read ⊢
    rwa [read]
  · obtain ⟨front, part, back, rfl, rfl, -⟩ := inked.split
    have stop := splitAt_append (front ++ part) back
    rw [byteLength_append] at stop
    by_cases alone : isBlank (lastLine (splitAt (byteLength front) (front ++ part ++ back)).1) &&
        isBlank (firstLine back)
    · left
      simp only [removalRange, stop, alone, if_true]
    · right
      obtain ⟨more, whole, clear⟩ := exists_behind_indent back
      simp only [removalRange, stop, if_neg alone, true_and]
      generalize (firstLine back).takeWhile isIndent = blanks at whole ⊢
      subst whole
      have read := slice_append (front ++ part ++ blanks) more []
      simp only [List.append_nil, List.append_assoc, byteLength_append, Nat.add_assoc] at read ⊢
      rwa [read]

/-- Statements that do not overlap are removed together, however they share their lines: what goes with each of
them is white space of its own. -/
theorem statements_removed {text : String} (inked : ∀ s ∈ spans, Inked text.toList s)
    (apart : spans.Pairwise Span.Apart) :
    (∀ s ∈ spans, Widens text.toList s (removalRange text.toList s)) ∧
      (spans.map (removalRange text.toList)).Pairwise Span.Apart ∧
      Edit.applyAll ((spans.map (removalRange text.toList)).map Edit.remove) text =
        .ok (String.ofList (outside (spans.map (removalRange text.toList)) 0 text.toList)) := by
  have widens : ∀ s ∈ spans, Widens text.toList s (removalRange text.toList s) :=
    fun s member => removalRange_widens (inked s member)
  have ranges : (spans.map (removalRange text.toList)).Pairwise Span.Apart := by
    refine List.pairwise_map.mpr (apart.imp_of_mem fun first second apart => ?_)
    exact apart.imp (removalRange_apart (inked _ first) (inked _ second))
      (removalRange_apart (inked _ second) (inked _ first))
  refine ⟨widens, ranges, Edit.applyAll_removals ?_ (List.forall_mem_map.mpr fun s member => (widens s member).bounded) ranges⟩
  refine List.forall_mem_map.mpr fun s member => ?_
  obtain ⟨starts, stops, -⟩ := removalRange_covers (inked s member)
  exact starts.trans ((inked s member).start_lt_stop.le.trans stops)

theorem statements_removed_shared :
    let text := "  a();\tb(\n  1);  c()\n \t \n  d(); \ne()"
    let spans : List Span := [⟨7, 15⟩, ⟨2, 6⟩, ⟨33, 36⟩, ⟨27, 31⟩]
    (∀ s ∈ spans, Inked text.toList s) ∧ spans.Pairwise Span.Apart ∧
      spans.map (removalRange text.toList) = [⟨7, 17⟩, ⟨2, 7⟩, ⟨33, 36⟩, ⟨25, 33⟩] ∧
      Edit.applyAll ((spans.map (removalRange text.toList)).map Edit.remove) text = .ok "  c()\n \t \n" := by
  intro text spans
  have inked : ∀ s ∈ spans, Inked text.toList s := by decide +kernel
  have apart : spans.Pairwise Span.Apart := by decide +kernel
  exact ⟨inked, apart, by decide +kernel, (statements_removed inked apart).2.2.trans (by decide +kernel)⟩

end Text

end SourceRepair
