import SourceRepair.Proofs.Text.Line

/-!
# Removed ranges

What goes with a statement that is taken away is white space: all of its line if nothing else stands
there, and otherwise the blanks behind it. So the ranges that are taken away with two statements lie
apart when the statements do, wherever these stand in their lines.
-/

namespace SourceRepair.Text

variable {cs front part gap back xs ys : List Char} {c : Char} {s t : Span}

/-- White space neither starts nor ends the text, and it is not empty. -/
def IsInk (part : List Char) : Prop :=
  part.head?.any (!isSpace ·) ∧ part.getLast?.any (!isSpace ·)

instance : Decidable (IsInk part) := inferInstanceAs (Decidable (_ ∧ _))

/-- The span lies between characters, and white space neither starts nor ends its text. -/
def Inked (cs : List Char) (s : Span) : Prop := IsInk (slice cs s)

instance : Decidable (Inked cs s) := inferInstanceAs (Decidable (IsInk _))

theorem IsInk.exists_cons (ink : IsInk part) : ∃ c rest, part = c :: rest ∧ isSpace c = false := by
  obtain ⟨starts, -⟩ := ink
  cases part with
  | nil => cases starts
  | cons c rest => exact ⟨c, rest, rfl, by simpa using starts⟩

theorem IsInk.exists_concat (ink : IsInk part) : ∃ rest c, part = rest ++ [c] ∧ isSpace c = false := by
  obtain ⟨-, stops⟩ := ink
  rcases List.eq_nil_or_concat part with rfl | ⟨rest, c, rfl⟩
  · cases stops
  · rw [List.concat_eq_append] at stops ⊢
    exact ⟨rest, c, rfl, by simpa using stops⟩

theorem IsInk.byteLength_pos (ink : IsInk part) : 0 < byteLength part := by
  obtain ⟨c, rest, rfl, -⟩ := ink.exists_cons
  have := c.utf8Size_pos
  rw [byteLength_cons]
  omega

/-- A part of a text that is not empty stands between two others. -/
theorem slice_split (cs : List Char) (s : Span) (some : slice cs s ≠ []) : ∃ front back, cs = front ++ slice cs s ++ back ∧
    s = ⟨byteLength front, byteLength front + byteLength (slice cs s)⟩ := by
  generalize read : slice cs s = part at some
  unfold slice at read
  split at read
  · rename_i ordered
    split at read
    · rename_i front rest first
      split at read
      · rename_i found back second
        subst read
        obtain ⟨rfl, starts⟩ := cut?_ok first
        obtain ⟨rfl, length⟩ := cut?_ok second
        refine ⟨front, back, (List.append_assoc ..).symm, ?_⟩
        rw [starts, length, Nat.add_sub_cancel' ordered]
      · exact absurd read.symm some
    · exact absurd read.symm some
  · exact absurd read.symm some

/-- The text around an inked span. -/
theorem Inked.split (inked : Inked cs s) : ∃ front part back, cs = front ++ part ++ back ∧
    s = ⟨byteLength front, byteLength front + byteLength part⟩ ∧ IsInk part := by
  obtain ⟨front, back, whole, span⟩ :=
    slice_split cs s fun none => by simp [Inked, IsInk, none] at inked
  exact ⟨front, _, back, whole, span, inked⟩

theorem Inked.start_lt_stop (inked : Inked cs s) : s.start < s.stop := by
  obtain ⟨front, part, back, -, rfl, ink⟩ := inked.split
  have := ink.byteLength_pos
  dsimp only
  omega

theorem Inked.isBoundary (inked : Inked cs s) : IsBoundary cs s.start ∧ IsBoundary cs s.stop := by
  obtain ⟨front, part, back, rfl, rfl, -⟩ := inked.split
  exact ⟨⟨front, ⟨part ++ back, by simp⟩, rfl⟩, ⟨front ++ part, ⟨back, rfl⟩, byteLength_append ..⟩⟩

/-! ### What goes with a statement -/

/-- Nothing stands on the lines of a statement between two texts but the statement. -/
def standsAlone (front back : List Char) : Bool := isBlank (lastLine front) && isBlank (firstLine back)

/-- What is taken away in front of a statement between two texts. -/
def removedBefore (front back : List Char) : List Char :=
  if standsAlone front back then lastLine front else []

/-- What is taken away behind a statement between two texts. -/
def removedBehind (front back : List Char) : List Char :=
  if standsAlone front back then back.take ((firstLine back).length + 1)
  else (firstLine back).takeWhile isIndent

/-- A line with the newline that ends it, if one does. -/
theorem take_line (cs : List Char) :
    (cs.take ((firstLine cs).length + 1) = firstLine cs ∧ ¬ (firstLine cs).length < cs.length) ∨
      (cs.take ((firstLine cs).length + 1) = firstLine cs ++ ['\n'] ∧ (firstLine cs).length < cs.length) := by
  rcases firstLine_rest cs with whole | ⟨rest, whole⟩
  · rw [← whole]
    exact .inl ⟨List.take_of_length_le (Nat.le_succ _), Nat.lt_irrefl _⟩
  · have split : ∀ line, cs = line ++ '\n' :: rest →
        cs.take (line.length + 1) = line ++ ['\n'] ∧ line.length < cs.length := by
      rintro line rfl
      simp [List.take_append, List.take_of_length_le]
    exact .inr (split _ whole)

theorem removedBefore_suffix (front back : List Char) : removedBefore front back <:+ front := by
  unfold removedBefore
  split
  · exact lastLine_suffix front
  · exact List.nil_suffix

theorem removedBehind_isPrefix (front back : List Char) : removedBehind front back <+: back := by
  unfold removedBehind
  split
  · exact List.take_prefix _ _
  · exact (List.takeWhile_prefix _).trans (firstLine_isPrefix back)

theorem isSpace_of_isIndent (indent : isIndent c = true) : isSpace c = true := by
  simp only [isIndent, Bool.or_eq_true, beq_iff_eq] at indent
  rcases indent with rfl | rfl <;> rfl

theorem isBlank_removedBefore (front back : List Char) : isBlank (removedBefore front back) = true := by
  unfold removedBefore
  split
  · rename_i alone
    exact (Bool.and_eq_true_iff.mp alone).1
  · rfl

theorem isBlank_removedBehind (front back : List Char) : isBlank (removedBehind front back) = true := by
  unfold removedBehind
  split
  · rename_i alone
    have line := (Bool.and_eq_true_iff.mp alone).2
    rcases take_line back with ⟨whole, -⟩ | ⟨whole, -⟩
    · rwa [whole]
    · rw [whole, isBlank, List.all_append, Bool.and_eq_true]
      exact ⟨line, rfl⟩
  · exact List.all_eq_true.mpr fun c member => isSpace_of_isIndent (List.mem_takeWhile_imp member)

theorem newline_notMem_removedBefore (front back : List Char) : '\n' ∉ removedBefore front back := by
  unfold removedBefore
  split
  · exact newline_notMem_lastLine front
  · exact List.not_mem_nil

/-- At most one line ends in what goes with a statement behind it. -/
theorem count_newline_removedBehind (front back : List Char) : (removedBehind front back).count '\n' ≤ 1 := by
  have line := List.count_eq_zero_of_not_mem (newline_notMem_firstLine back)
  unfold removedBehind
  split
  · rcases take_line back with ⟨whole, -⟩ | ⟨whole, -⟩
    · rw [whole, line]
      exact Nat.zero_le 1
    · rw [whole, List.count_append, line]
      rfl
  · have none := ((List.takeWhile_prefix isIndent).sublist.count_le (a := '\n')).trans line.le
    omega

/-- The removed range is that of the statement with what goes with it. -/
theorem removalRange_append (front part back : List Char) :
    removalRange (front ++ part ++ back) ⟨byteLength front, byteLength front + byteLength part⟩ =
      ⟨byteLength front - byteLength (removedBefore front back),
        byteLength front + byteLength part + byteLength (removedBehind front back)⟩ := by
  have start := splitAt_append front (part ++ back)
  have stop := splitAt_append (front ++ part) back
  rw [← List.append_assoc] at start
  rw [byteLength_append] at stop
  simp only [removalRange, lineStart, lineEndAfter, start, stop]
  change (if standsAlone front back then _ else _) = _
  unfold removedBefore removedBehind
  by_cases alone : standsAlone front back
  · rw [if_pos alone, if_pos alone, if_pos alone]
    rcases take_line back with ⟨line, whole⟩ | ⟨line, whole⟩
    · rw [line, if_neg whole, Nat.add_zero]
    · rw [line, if_pos whole, byteLength_append]
      rfl
  · rw [if_neg alone, if_neg alone, if_neg alone, byteLength_nil, Nat.sub_zero]

/-- White space goes with a statement, on its line and with at most one newline behind it. -/
theorem Inked.split_removed (inked : Inked cs s) : ∃ front before part behind back,
    cs = front ++ (before ++ part ++ behind) ++ back ∧
      s = ⟨byteLength (front ++ before), byteLength (front ++ before) + byteLength part⟩ ∧
      removalRange cs s = ⟨byteLength front, byteLength (front ++ (before ++ part ++ behind))⟩ ∧
      (isBlank before ∧ '\n' ∉ before) ∧ isBlank behind ∧ behind.count '\n' ≤ 1 := by
  obtain ⟨front, part, back, rfl, rfl, -⟩ := inked.split
  rw [removalRange_append]
  have lead := And.intro (isBlank_removedBefore front back) (newline_notMem_removedBefore front back)
  have trail := And.intro (isBlank_removedBehind front back) (count_newline_removedBehind front back)
  obtain ⟨front', first⟩ := removedBefore_suffix front back
  obtain ⟨back', last⟩ := removedBehind_isPrefix front back
  generalize removedBefore front back = before at *
  generalize removedBehind front back = behind at *
  subst first last
  exact ⟨front', before, part, behind, back', by simp, rfl, by simp [Nat.add_assoc], lead, trail⟩

/-- At most a line and its newline are taken away behind a statement. -/
theorem byteLength_removedBehind_le (front back : List Char) :
    byteLength (removedBehind front back) ≤ byteLength (firstLine back) + 1 := by
  unfold removedBehind
  split
  · rcases take_line back with ⟨line, -⟩ | ⟨line, -⟩
    · rw [line]
      exact Nat.le_succ _
    · rw [line, byteLength_append]
      exact Nat.le_refl _
  · exact Nat.le_succ_of_le (byteLength_le_of_isPrefix (List.takeWhile_prefix _))

/-! ### Removed ranges lie apart -/

theorem isBlank_false_of_mem (member : c ∈ xs) (ink : isSpace c = false) : isBlank xs = false := by
  rw [isBlank, List.all_eq_false]
  exact ⟨c, member, by simp [ink]⟩

/-- White space in front of other text ends where that starts. -/
theorem prefix_of_isBlank {d : Char} (blank : isBlank xs = true) (prefixed : xs <+: gap ++ d :: ys)
    (ink : isSpace d = false) : xs <+: gap := by
  rcases List.prefix_or_prefix_of_prefix prefixed (List.prefix_append gap _) with short | ⟨more, rfl⟩
  · exact short
  · have left := (List.prefix_append_right_inj gap).mp prefixed
    cases more with
    | nil => simp
    | cons e more =>
      obtain ⟨rfl, -⟩ := List.cons_prefix_cons.mp left
      rw [isBlank_false_of_mem (by simp) ink] at blank
      cases blank

/-- What goes with two statements does not overlap in the gap between them. -/
theorem removed_le_gap {d : Char} (stops : isSpace c = false) (starts : isSpace d = false)
    (before front gap back ys : List Char) :
    byteLength (removedBehind before (gap ++ d :: ys)) + byteLength (removedBefore (front ++ c :: gap) back) ≤
      byteLength gap := by
  rcases firstLine_rest gap with oneLine | ⟨rest, lines⟩
  · -- The second statement stands on the line of the first, so nothing goes with it in front.
    have none : '\n' ∉ gap := oneLine ▸ newline_notMem_firstLine gap
    have line : '\n' ∉ c :: gap := by
      rintro (_ | ⟨_, member⟩)
      · cases stops
      · exact none member
    have shared : removedBefore (front ++ c :: gap) back = [] := by
      have ink : isBlank (lastLine (front ++ c :: gap)) = false := by
        rw [lastLine_append line]
        exact isBlank_false_of_mem (by simp) stops
      rw [removedBefore, standsAlone, ink, Bool.false_and, if_neg Bool.false_ne_true]
    obtain ⟨more, whole⟩ := prefix_of_isBlank (isBlank_removedBehind before _)
      (removedBehind_isPrefix before (gap ++ d :: ys)) starts
    rw [shared, byteLength_nil, Nat.add_zero, ← whole, byteLength_append, whole]
    omega
  · -- What goes with the first ends with its line, and what goes with the second starts behind a newline.
    generalize firstLine gap = line at lines
    subst lines
    have behind := byteLength_removedBehind_le before (line ++ '\n' :: rest ++ d :: ys)
    rw [List.append_assoc, List.cons_append, firstLine_append_newline] at behind
    have front_le : byteLength (removedBefore (front ++ c :: (line ++ '\n' :: rest)) back) ≤
        byteLength rest := by
      unfold removedBefore
      split
      · rw [← List.cons_append, ← List.append_assoc, lastLine_append_newline]
        exact byteLength_le_of_suffix (lastLine_suffix rest)
      · exact Nat.zero_le _
    have line_le := byteLength_le_of_isPrefix (firstLine_isPrefix line)
    have newline : Char.utf8Size '\n' = 1 := rfl
    rw [List.append_assoc, List.cons_append, byteLength_append, byteLength_cons, newline]
    omega

/-- A removed range holds the statement, and lies between characters. -/
theorem removalRange_covers (inked : Inked cs s) :
    (removalRange cs s).start ≤ s.start ∧ s.stop ≤ (removalRange cs s).stop ∧
      IsBoundary cs (removalRange cs s).start ∧ IsBoundary cs (removalRange cs s).stop := by
  obtain ⟨front, before, part, behind, back, rfl, rfl, range, -⟩ := inked.split_removed
  rw [range]
  refine ⟨by simp, by simp; omega, ⟨front, ⟨_, (List.append_assoc ..).symm⟩, rfl⟩, ⟨_, List.prefix_append _ back, rfl⟩⟩

/-- The ranges that are taken away with two statements do not overlap if the statements do not. -/
theorem removalRange_apart (first : Inked cs s) (second : Inked cs t) (before : s.stop ≤ t.start) :
    (removalRange cs s).stop ≤ (removalRange cs t).start := by
  obtain ⟨front, part, back, rfl, rfl, ink⟩ := first.split
  obtain ⟨front', part', back', whole, rfl, ink'⟩ := second.split
  -- The text up to the second statement is that up to the first, the first, and the gap.
  obtain ⟨gap, rfl⟩ : front ++ part <+: front' := by
    refine prefix_of_byteLength_le (List.prefix_append _ back) ?_ (by simpa using before)
    rw [whole, List.append_assoc]
    exact List.prefix_append _ _
  have rest : back = gap ++ part' ++ back' := by simpa using whole
  rw [removalRange_append, whole, removalRange_append, rest]
  obtain ⟨front', c, rfl, stops⟩ := ink.exists_concat
  obtain ⟨d, part', rfl, starts⟩ := ink'.exists_cons
  have apart := removed_le_gap stops starts front (front ++ front') gap back' (part' ++ back')
  simp only [byteLength_append, byteLength_cons, byteLength_nil, List.append_assoc, List.cons_append,
    List.nil_append] at apart ⊢
  omega

/-! ### Starts of lines -/

/-- A line ends at the end of the text or with a newline. -/
theorem lineEndAfter_cases {n : Nat} (boundary : IsBoundary cs n) : lineEndAfter cs n = byteLength cs ∨
    ∃ xs ys, cs = xs ++ '\n' :: ys ∧ lineEndAfter cs n = byteLength xs + 1 := by
  obtain ⟨front, back, rfl, rfl⟩ := boundary.split
  simp only [lineEndAfter, splitAt_append]
  rcases firstLine_rest back with whole | ⟨rest, whole⟩
  · left
    rw [← whole, if_neg (Nat.lt_irrefl _), byteLength_append, Nat.add_zero]
  · right
    generalize firstLine back = line at whole
    subst whole
    refine ⟨front ++ line, rest, by simp, ?_⟩
    rw [if_pos (by simp), byteLength_append]

theorem isBoundary_lineEndAfter {n : Nat} (boundary : IsBoundary cs n) : IsBoundary cs (lineEndAfter cs n) := by
  rcases lineEndAfter_cases boundary with whole | ⟨xs, ys, rfl, line⟩
  · exact ⟨cs, List.prefix_rfl, whole.symm⟩
  · refine ⟨xs ++ ['\n'], ⟨ys, by simp⟩, ?_⟩
    rw [line, byteLength_append]
    rfl

/-- No line in front of that of the statement is touched. -/
theorem le_removalRange_start (inked : Inked (xs ++ '\n' :: ys) s) (behind : byteLength xs + 1 ≤ s.start) :
    byteLength xs + 1 ≤ (removalRange (xs ++ '\n' :: ys) s).start := by
  obtain ⟨front, part, back, whole, rfl, -⟩ := inked.split
  obtain ⟨rest, rfl⟩ : xs ++ ['\n'] <+: front := by
    refine prefix_of_byteLength_le (List.prefix_append _ ys) ?_ (by rwa [byteLength_append])
    rw [List.append_assoc, List.singleton_append, whole, List.append_assoc]
    exact List.prefix_append _ _
  rw [whole, removalRange_append]
  have short : byteLength (removedBefore (xs ++ ['\n'] ++ rest) back) ≤ byteLength rest := by
    unfold removedBefore
    split
    · rw [List.append_assoc, List.singleton_append, lastLine_append_newline]
      exact byteLength_le_of_suffix (lastLine_suffix rest)
    · exact Nat.zero_le _
  have newline : Char.utf8Size '\n' = 1 := rfl
  simp only [byteLength_append, byteLength_cons, byteLength_nil, newline] at short ⊢
  omega

end SourceRepair.Text
