import Mathlib.Data.List.TakeWhile
import SourceRepair.Proofs.Text.Offset

/-!
# Lines and columns

The line of an offset is found by halving the list of the offsets at which lines start. That comes to the same
as counting: the line is one more than the number of newlines before the offset, and the column one more than
the number of characters behind the last of them. So the places between the characters of a text have their
locations in the order of the text, and no two of them have the same.
-/

namespace SourceRepair.Text

variable {cs ds front back xs ys : List Char} {n offset : Nat}

/-! ### The first and the last line of a text -/

theorem firstLine_isPrefix (cs : List Char) : firstLine cs <+: cs := List.takeWhile_prefix _

theorem newline_notMem_firstLine (cs : List Char) : '\n' ∉ firstLine cs := fun member => by
  simpa using List.mem_takeWhile_imp member

theorem firstLine_append (none : '\n' ∉ xs) : firstLine (xs ++ ys) = xs ++ firstLine ys := by
  refine List.takeWhile_append_of_pos fun c member => ?_
  simpa using ne_of_mem_of_not_mem member none

theorem firstLine_append_newline (xs ys : List Char) : firstLine (xs ++ '\n' :: ys) = firstLine xs := by
  induction xs with
  | nil => rfl
  | cons c xs ih =>
    by_cases newline : c = '\n'
    · simp [firstLine, newline]
    · simpa [firstLine, newline] using ih

/-- A line ends with the text or with a newline. -/
theorem firstLine_rest (cs : List Char) :
    cs = firstLine cs ∨ ∃ rest, cs = firstLine cs ++ '\n' :: rest := by
  have whole : firstLine cs ++ cs.dropWhile (· != '\n') = cs := List.takeWhile_append_dropWhile
  cases left : cs.dropWhile (· != '\n') with
  | nil =>
    rw [left, List.append_nil] at whole
    exact .inl whole.symm
  | cons c rest =>
    have stopped := List.head_dropWhile_not (· != '\n') (l := cs) (by simp [left])
    obtain rfl : c = '\n' := by simpa [left] using stopped
    rw [left] at whole
    exact .inr ⟨rest, whole.symm⟩

theorem lastLine_suffix (cs : List Char) : lastLine cs <:+ cs := by
  rw [lastLine, ← List.reverse_prefix, List.reverse_reverse]
  exact List.takeWhile_prefix _

theorem newline_notMem_lastLine (cs : List Char) : '\n' ∉ lastLine cs := fun member => by
  simpa using List.mem_takeWhile_imp (List.mem_reverse.mp member)

theorem lastLine_append (none : '\n' ∉ ys) : lastLine (xs ++ ys) = lastLine xs ++ ys := by
  have mirrored : firstLine (ys.reverse ++ xs.reverse) = ys.reverse ++ firstLine xs.reverse :=
    firstLine_append (by simpa using none)
  rw [firstLine, ← List.reverse_append] at mirrored
  rw [lastLine, mirrored, List.reverse_append, List.reverse_reverse]
  rfl

theorem lastLine_append_newline (xs ys : List Char) : lastLine (xs ++ '\n' :: ys) = lastLine ys := by
  have mirrored := firstLine_append_newline ys.reverse xs.reverse
  rw [firstLine] at mirrored
  rw [lastLine, List.reverse_append, List.reverse_cons, List.append_assoc, List.singleton_append, mirrored]
  rfl

/-- The part of a text in front of its last line is empty or ends with a newline. -/
theorem exists_lastLine (cs : List Char) :
    ∃ above, cs = above ++ lastLine cs ∧ ∀ c ∈ above.getLast?, c = '\n' := by
  have whole : cs.reverse.takeWhile (· != '\n') ++ cs.reverse.dropWhile (· != '\n') = cs.reverse :=
    List.takeWhile_append_dropWhile
  refine ⟨(cs.reverse.dropWhile (· != '\n')).reverse, ?_, fun c last => ?_⟩
  · rw [lastLine, ← List.reverse_append, whole, List.reverse_reverse]
  · rw [List.getLast?_reverse, Option.mem_def] at last
    have stopped := List.head?_dropWhile_not (· != '\n') cs.reverse
    rw [last] at stopped
    simpa using stopped

/-! ### Where lines start -/

theorem startsBehind_append (n : Nat) (front back : List Char) :
    startsBehind n (front ++ back) = startsBehind n front ++ startsBehind (n + byteLength front) back := by
  induction front generalizing n with
  | nil => simp [startsBehind]
  | cons c front ih =>
    simp only [List.cons_append, startsBehind, ih, byteLength_cons, Nat.add_assoc]
    split <;> rfl

theorem length_startsBehind (n : Nat) (cs : List Char) : (startsBehind n cs).length = cs.count '\n' := by
  induction cs generalizing n with
  | nil => rfl
  | cons c cs ih =>
    simp only [startsBehind, List.count_cons]
    split
    · rw [List.length_cons, ih]
    · rw [ih, Nat.add_zero]

/-- A line starts behind its text's own start, and not behind the end. -/
theorem bounds_of_mem_startsBehind {s : Nat} (member : s ∈ startsBehind n cs) : n < s ∧ s ≤ n + byteLength cs := by
  induction cs generalizing n with
  | nil => cases member
  | cons c cs ih =>
    have positive := c.utf8Size_pos
    have later : s ∈ startsBehind (n + c.utf8Size) cs → n < s ∧ s ≤ n + byteLength (c :: cs) := by
      intro member
      have := ih member
      rw [byteLength_cons]
      omega
    simp only [startsBehind] at member
    split at member
    · rcases List.mem_cons.mp member with rfl | member
      · rw [byteLength_cons]
        omega
      · exact later member
    · exact later member

theorem startsBehind_of_notMem (none : '\n' ∉ cs) : startsBehind n cs = [] :=
  List.eq_nil_of_length_eq_zero (by rw [length_startsBehind, List.count_eq_zero_of_not_mem none])

/-- The last line of a text starts where that line starts, or at the start of the text. -/
theorem getLast?_startsBehind (front : List Char) :
    (startsBehind 0 front).getLast?.getD 0 + byteLength (lastLine front) = byteLength front := by
  obtain ⟨above, whole, newline⟩ := exists_lastLine front
  generalize line : lastLine front = last at whole
  have none : '\n' ∉ last := line ▸ newline_notMem_lastLine front
  subst whole
  rw [startsBehind_append, startsBehind_of_notMem none, List.append_nil, byteLength_append]
  refine congrArg (· + byteLength last) ?_
  rcases List.eq_nil_or_concat above with rfl | ⟨above, c, rfl⟩
  · rfl
  · obtain rfl : c = '\n' := newline c (by simp)
    rw [List.concat_eq_append, startsBehind_append, byteLength_append]
    simp [startsBehind]

theorem pairwise_startsBehind (n : Nat) (cs : List Char) : (startsBehind n cs).Pairwise (· < ·) := by
  induction cs generalizing n with
  | nil => exact .nil
  | cons c cs ih =>
    simp only [startsBehind]
    split
    · exact List.pairwise_cons.mpr ⟨fun s member => (bounds_of_mem_startsBehind member).1, ih _⟩
    · exact ih _

namespace LineIndex

/-- Every line starts behind the one before it. -/
def Ascending (index : LineIndex) : Prop :=
  ∀ i j, i < j → j < index.starts.size → index.start i < index.start j

/-- The line starts at the offset or before it, and the next one, if there is one, behind it. -/
structure Holds (index : LineIndex) (offset line : Nat) : Prop where
  within : line < index.starts.size
  reached : index.start line ≤ offset
  next : line + 1 < index.starts.size → offset < index.start (line + 1)

/-- What is left when the lines cannot be halved any more is the line of the offset. -/
theorem holds_narrow {index : LineIndex} {base size : Nat} (ascending : index.Ascending) (some : 0 < size)
    (within : base + size ≤ index.starts.size) (reached : index.start base ≤ offset)
    (next : base + size < index.starts.size → offset < index.start (base + size)) :
    index.Holds offset (index.narrow offset base size) := by
  fun_induction index.narrow offset base size with
  | case1 base size small =>
    obtain rfl : size = 1 := by omega
    exact ⟨by omega, reached, next⟩
  | case2 base size large half ih =>
    have halved : half = size / 2 := rfl
    by_cases behind : offset < index.start (base + half)
    · rw [dif_pos behind] at ih
      rw [if_pos behind]
      -- With an odd number of lines the middle one is kept, so the next one is looked at only here.
      refine ih (by omega) (by omega) reached fun more => ?_
      rcases (by omega : base + (size - half) = base + half ∨ base + half < base + (size - half)) with same | later
      · rwa [same]
      · exact behind.trans (ascending _ _ later more)
    · rw [dif_neg behind] at ih
      rw [if_neg behind]
      have same : base + half + (size - half) = base + size := by omega
      exact ih (by omega) (by omega) (by omega) (by rwa [same])

theorem search_eq {index : LineIndex} (ascending : index.Ascending) (some : 0 < index.starts.size)
    (reached : index.start 0 ≤ offset) : ∃ line, index.Holds offset line ∧
      (index.search offset = .ok line ∨ index.search offset = .error (line + 1)) := by
  have holds : index.Holds offset (index.narrow offset 0 index.starts.size) :=
    holds_narrow ascending some (by omega) reached fun more => absurd more (by omega)
  refine ⟨_, holds, ?_⟩
  rw [search, if_neg (by simpa using Array.ne_empty_of_size_pos some)]
  have reached := holds.reached
  generalize index.narrow offset 0 index.starts.size = line at reached
  by_cases same : index.start line = offset
  · exact .inl (by simp [same])
  · exact .inr (by simp [same, Nat.lt_of_le_of_ne reached same])

/-! ### The lines of a text -/

theorem start_ofText (cs : List Char) (line : Nat) :
    (ofText cs).start line = ((0 :: startsBehind 0 cs)[line]?).getD 0 := by
  simp [ofText, start, Array.getD_eq_getD_getElem?]

theorem size_ofText (cs : List Char) : (ofText cs).starts.size = cs.count '\n' + 1 := by
  simp [ofText, length_startsBehind]

theorem ascending_ofText (cs : List Char) : (ofText cs).Ascending := by
  intro i j before within
  have sorted : (0 :: startsBehind 0 cs).Pairwise (· < ·) :=
    List.pairwise_cons.mpr ⟨fun s member => (bounds_of_mem_startsBehind member).1, pairwise_startsBehind 0 cs⟩
  have length : j < (0 :: startsBehind 0 cs).length := by simpa [ofText] using within
  rw [start_ofText, start_ofText, List.getElem?_eq_getElem length, List.getElem?_eq_getElem (before.trans length)]
  exact List.pairwise_iff_getElem.mp sorted i j _ _ before

/-- The search gives the line of the offset, or the place behind it: there is always a line in front of the
place where a new one would stand. -/
theorem search_ofText (cs : List Char) (offset : Nat) : ∃ line, (ofText cs).Holds offset line ∧
    ((ofText cs).search offset = .ok line ∨ (ofText cs).search offset = .error (line + 1)) :=
  search_eq (ascending_ofText cs) (by rw [size_ofText]; omega) (by simp [start_ofText])

theorem holds_line (cs : List Char) (offset : Nat) : (ofText cs).Holds offset ((ofText cs).line offset) := by
  obtain ⟨line, holds, found⟩ := search_ofText cs offset
  suffices same : (ofText cs).line offset = line by rwa [same]
  rcases found with found | found <;> simp [LineIndex.line, found]

theorem search_ne_error_zero (cs : List Char) (offset : Nat) : (ofText cs).search offset ≠ .error 0 := by
  obtain ⟨line, -, found⟩ := search_ofText cs offset
  rcases found with found | found <;> simp [found]

/-- Behind a part of a text it is the line after as many newlines as there are in the part. -/
theorem Holds.eq_count {line : Nat} (holds : (ofText (front ++ back)).Holds (byteLength front) line) :
    line = front.count '\n' := by
  have starts : 0 :: startsBehind 0 (front ++ back) =
      (0 :: startsBehind 0 front) ++ startsBehind (byteLength front) back := by
    rw [startsBehind_append, Nat.zero_add, List.cons_append]
  have count : (0 :: startsBehind 0 front).length = front.count '\n' + 1 := by
    rw [List.length_cons, length_startsBehind]
  obtain ⟨within, reached, next⟩ := holds
  rw [size_ofText, List.count_append] at within next
  simp only [start_ofText, starts] at reached next
  rcases Nat.lt_trichotomy line (front.count '\n') with before | same | behind
  · -- The next line starts in the part as well.
    have next := next (by omega)
    rw [List.getElem?_append_left (by omega), List.getElem?_cons_succ,
      List.getElem?_eq_getElem (by rwa [length_startsBehind]), Option.getD_some] at next
    have := (bounds_of_mem_startsBehind (List.getElem_mem (length_startsBehind 0 front ▸ before))).2
    omega
  · exact same
  · -- The line starts behind the part.
    have inside : line - (0 :: startsBehind 0 front).length < (startsBehind (byteLength front) back).length := by
      rw [count, length_startsBehind]
      omega
    rw [List.getElem?_append_right (by omega), List.getElem?_eq_getElem inside, Option.getD_some] at reached
    have := (bounds_of_mem_startsBehind (List.getElem_mem inside)).1
    omega

theorem line_ofText (front back : List Char) :
    (ofText (front ++ back)).line (byteLength front) = front.count '\n' :=
  (holds_line _ _).eq_count

/-- The last line of a part of a text starts where the index says. -/
theorem start_count (front back : List Char) :
    (ofText (front ++ back)).start (front.count '\n') + byteLength (lastLine front) = byteLength front := by
  rw [← getLast?_startsBehind front]
  refine congrArg (· + byteLength (lastLine front)) ?_
  rw [start_ofText, startsBehind_append, ← List.cons_append,
    List.getElem?_append_left (by rw [List.length_cons, length_startsBehind]; omega), ← length_startsBehind 0 front]
  cases startsBehind 0 front with
  | nil => rfl
  | cons s rest => simp [List.getLast?_eq_getElem?]

/-- A line starts inside the text or at its end. -/
theorem start_le (cs : List Char) (line : Nat) : (ofText cs).start line ≤ byteLength cs := by
  rw [start_ofText]
  cases found : (0 :: startsBehind 0 cs)[line]? with
  | none => exact Nat.zero_le _
  | some s =>
    rcases List.mem_cons.mp (List.mem_of_getElem? found) with rfl | member
    · exact Nat.zero_le _
    · simpa using (bounds_of_mem_startsBehind member).2

end LineIndex

/-! ### Locations -/

/-- The line and the column right behind a text. -/
def locationAfter (front : List Char) : Location := ⟨front.count '\n' + 1, (lastLine front).length + 1⟩

theorem location_append (front back : List Char) :
    location (front ++ back) (byteLength front) = locationAfter front := by
  obtain ⟨above, whole, -⟩ := exists_lastLine front
  have starts := LineIndex.start_count front back
  have lengths : byteLength front = byteLength above + byteLength (lastLine front) := by
    rw [← byteLength_append, ← whole]
  have first : (LineIndex.ofText (front ++ back)).start (front.count '\n') = byteLength above := by omega
  have stop : min (byteLength front) (byteLength (front ++ back)) = byteLength front := by
    rw [byteLength_append]
    omega
  have part : slice (front ++ back) ⟨byteLength above, byteLength front⟩ = lastLine front := by
    have between := slice_append above (lastLine front) back
    rwa [← whole, ← lengths] at between
  simp only [location, LineIndex.location, LineIndex.line_ofText, first, stop, part, locationAfter]

theorem location_of_sameUpTo (same : SameUpTo n cs ds) : location cs n = location ds n := by
  obtain ⟨front, ⟨back, rfl⟩, ⟨back', rfl⟩, rfl⟩ := same
  rw [location_append, location_append]

/-- One location comes before another in a text. -/
def Location.Before (l k : Location) : Prop := l.line < k.line ∨ l.line = k.line ∧ l.column < k.column

theorem Location.Before.ne {l k : Location} (before : l.Before k) : l ≠ k := by
  rintro rfl
  rcases before with line | ⟨-, column⟩
  · exact Nat.lt_irrefl _ line
  · exact Nat.lt_irrefl _ column

theorem Location.Before.asymm {l k : Location} (before : l.Before k) : ¬ k.Before l := by
  unfold Location.Before at *
  omega

/-- A text goes on behind the location of its end: in a later line, or else in a later column. -/
theorem before_append (front : List Char) {part : List Char} (some : part ≠ []) :
    (locationAfter front).Before (locationAfter (front ++ part)) := by
  by_cases newline : '\n' ∈ part
  · have more := List.count_pos_iff.mpr newline
    left
    simp only [locationAfter, List.count_append]
    omega
  · have longer := List.length_pos_iff.mpr some
    refine .inr ⟨?_, ?_⟩
    · simp only [locationAfter, List.count_append, List.count_eq_zero_of_not_mem newline, Nat.add_zero]
    · simp only [locationAfter, lastLine_append newline, List.length_append]
      omega

theorem location_before {m n : Nat} (first : IsBoundary cs m) (second : IsBoundary cs n) (lt : m < n) :
    (location cs m).Before (location cs n) := by
  obtain ⟨front, starts, rfl⟩ := first
  obtain ⟨whole, ⟨back, rfl⟩, rfl⟩ := second
  obtain ⟨part, rfl⟩ := prefix_of_byteLength_le starts (List.prefix_append whole back) lt.le
  rw [location_append, List.append_assoc, location_append]
  refine before_append front ?_
  rintro rfl
  simp at lt

/-- The location of a place between two characters counts the newlines before it and the characters behind the
last of them. The search in the list of line starts never ends in front of the first line, and the line that it
gives is one of the list. Later places have later locations, and no two have the same. -/
theorem location_counts (cs : List Char) :
    (∀ front, front <+: cs →
      location cs (byteLength front) = ⟨1 + front.count '\n', 1 + (lastLine front).length⟩) ∧
    (∀ offset, (LineIndex.ofText cs).search offset ≠ .error 0 ∧
      (LineIndex.ofText cs).line offset < (LineIndex.ofText cs).starts.size) ∧
    (∀ line, (LineIndex.ofText cs).start line ≤ byteLength cs) ∧
    ∀ m n, IsBoundary cs m → IsBoundary cs n →
      ((location cs m).Before (location cs n) ↔ m < n) ∧ (location cs m = location cs n ↔ m = n) := by
  refine ⟨?_, fun offset => ⟨LineIndex.search_ne_error_zero cs offset, (LineIndex.holds_line cs offset).within⟩,
    LineIndex.start_le cs, fun m n first second => ?_⟩
  · rintro front ⟨back, rfl⟩
    rw [location_append, locationAfter, Nat.add_comm 1, Nat.add_comm 1]
  · rcases Nat.lt_trichotomy m n with lt | rfl | gt
    · have before := location_before first second lt
      exact ⟨iff_of_true before lt, iff_of_false before.ne lt.ne⟩
    · exact ⟨iff_of_false (fun before => before.ne rfl) (Nat.lt_irrefl m), iff_of_true rfl rfl⟩
    · have before := location_before second first gt
      exact ⟨iff_of_false before.asymm gt.not_gt, iff_of_false before.ne.symm gt.ne'⟩

/-- Characters of one, two and four bytes on two lines. -/
theorem location_counts_small :
    let cs := ['a', '\n', 'ß', '😀', '\n']
    ['a', '\n', 'ß', '😀'] <+: cs ∧ IsBoundary cs 2 ∧ IsBoundary cs 8 ∧
      location cs (byteLength ['a', '\n', 'ß', '😀']) = ⟨2, 3⟩ ∧ (location cs 2).Before (location cs 8) := by
  intro cs
  have starts : ['a', '\n', 'ß', '😀'] <+: cs := by decide
  have first : IsBoundary cs 2 := by decide
  have second : IsBoundary cs 8 := by decide
  obtain ⟨counts, -, -, ordered⟩ := location_counts cs
  exact ⟨starts, first, second, counts _ starts, (ordered 2 8 first second).1.mpr (by decide)⟩

end SourceRepair.Text
