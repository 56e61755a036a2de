import Mathlib.Algebra.GroupWithZero.Nat
import SourceRepair.Text.Line

/-!
# Offsets and the texts before them

An offset between two characters is the length of the text before it. What stands at an offset depends on
that text only, so it is the same in every text that starts in the same way.
-/

namespace SourceRepair.Text

variable {cs ds xs ys front back word : List Char} {n : Nat}

theorem byteLength_eq (cs : List Char) : byteLength cs = (cs.map Char.utf8Size).sum := by
  suffices shifted : ∀ n, cs.foldl (fun n c => n + c.utf8Size) n = n + (cs.map Char.utf8Size).sum by
    rw [byteLength, shifted, Nat.zero_add]
  induction cs with
  | nil => simp
  | cons c cs ih => simp [ih, Nat.add_assoc]

@[simp] theorem byteLength_nil : byteLength [] = 0 := rfl

@[simp] theorem byteLength_cons (c : Char) (cs : List Char) :
    byteLength (c :: cs) = c.utf8Size + byteLength cs := by
  simp [byteLength_eq]

@[simp] theorem byteLength_append (cs ds : List Char) :
    byteLength (cs ++ ds) = byteLength cs + byteLength ds := by
  simp [byteLength_eq]

/-- A text is split at the length of what it starts with. -/
theorem splitAt_append (front back : List Char) :
    splitAt (byteLength front) (front ++ back) = (front, back) := by
  induction front with
  | nil =>
    cases back with
    | nil => rfl
    | cons c cs =>
      have positive := c.utf8Size_pos
      rw [List.nil_append, byteLength_nil, splitAt, if_neg (by omega)]
  | cons c front ih =>
    rw [List.cons_append, byteLength_cons, splitAt, if_pos (by omega), Nat.add_sub_cancel_left, ih]

theorem append_splitAt (n : Nat) (cs : List Char) : (splitAt n cs).1 ++ (splitAt n cs).2 = cs := by
  induction cs generalizing n with
  | nil => rfl
  | cons c cs ih =>
    rw [splitAt]
    split
    · exact congrArg (c :: ·) (ih _)
    · rfl

/-- The two parts of a text that is cut at an offset. -/
theorem cut?_ok (found : cut? n cs = some (front, back)) :
    cs = front ++ back ∧ byteLength front = n := by
  unfold cut? at found
  dsimp only at found
  split at found
  · rename_i exact
    obtain ⟨rfl, rfl⟩ := Prod.mk.inj (Option.some.inj found)
    exact ⟨(append_splitAt n cs).symm, by simpa using exact⟩
  · cases found

/-! ### What stands at an offset -/

/-- A word stands in a text at an offset. -/
def StandsAt (word cs : List Char) (n : Nat) : Prop :=
  ∃ front, front ++ word <+: cs ∧ byteLength front = n

/-- Two texts are the same up to an offset. -/
def SameUpTo (n : Nat) (cs ds : List Char) : Prop :=
  ∃ front, front <+: cs ∧ front <+: ds ∧ byteLength front = n

/-- A text starts with one text only of each length. -/
theorem eq_of_prefix {front front' : List Char} (first : front <+: cs) (second : front' <+: cs)
    (same : byteLength front = byteLength front') : front = front' := by
  obtain ⟨back, rfl⟩ := first
  obtain ⟨back', whole⟩ := second
  have split := splitAt_append front' back'
  rw [whole, ← same, splitAt_append] at split
  exact (Prod.mk.inj split).1

theorem byteLength_le_of_isPrefix (prefixed : xs <+: ys) : byteLength xs ≤ byteLength ys := by
  obtain ⟨rest, rfl⟩ := prefixed
  rw [byteLength_append]
  exact Nat.le_add_right _ _

theorem byteLength_le_of_suffix (suffixed : xs <:+ ys) : byteLength xs ≤ byteLength ys := by
  obtain ⟨rest, rfl⟩ := suffixed
  rw [byteLength_append]
  exact Nat.le_add_left _ _

/-- Of two texts that a text starts with, the one that is not longer starts the other. -/
theorem prefix_of_byteLength_le (first : xs <+: cs) (second : ys <+: cs)
    (le : byteLength xs ≤ byteLength ys) : xs <+: ys := by
  rcases List.prefix_or_prefix_of_prefix first second with short | long
  · exact short
  · have := byteLength_le_of_isPrefix long
    obtain rfl := eq_of_prefix first second (by omega)
    exact List.prefix_rfl

/-- What stands in one text stands in every other that is the same up to its end. -/
theorem StandsAt.transfer (stands : StandsAt word cs n)
    (same : SameUpTo (n + byteLength word) cs ds) : StandsAt word ds n := by
  obtain ⟨front, prefixed, rfl⟩ := stands
  obtain ⟨whole, first, second, length⟩ := same
  obtain rfl : front ++ word = whole := eq_of_prefix prefixed first (by simp [length])
  exact ⟨front, second, rfl⟩

/-- A word stands behind some of the first characters. -/
theorem StandsAt.exists_drop (stands : StandsAt word cs n) :
    ∃ k ≤ cs.length, word <+: cs.drop k ∧ n = byteLength (cs.take k) := by
  obtain ⟨front, ⟨back, rfl⟩, rfl⟩ := stands
  exact ⟨front.length, by simp, by simp, by simp⟩

/-- What starts the text of a span stands where the span starts. -/
theorem standsAt_of_slice {span : Span} (starts : word <+: slice cs span) (some : word ≠ []) :
    StandsAt word cs span.start := by
  unfold slice at starts
  split at starts
  · split at starts
    · rename_i front back found
      obtain ⟨rfl, length⟩ := cut?_ok found
      split at starts
      · rename_i part rest cut
        obtain ⟨rfl, _⟩ := cut?_ok cut
        obtain ⟨more, rfl⟩ := starts
        exact ⟨front, ⟨more ++ rest, by simp⟩, length⟩
      · exact absurd (List.prefix_nil.mp starts) some
    · exact absurd (List.prefix_nil.mp starts) some
  · exact absurd (List.prefix_nil.mp starts) some

end SourceRepair.Text

/-!
## Offsets between characters

A text can be cut at the offsets that lie between two of its characters or at an end of it, and only
there. Behind a prefix of a text the offsets are those of the rest, counted from the end of the prefix.
-/

namespace SourceRepair.Text

variable {cs front back : List Char} {n : Nat}

/-- The offset lies between two characters of the text or at one of its ends. -/
def IsBoundary (cs : List Char) (n : Nat) : Prop := ∃ front, front <+: cs ∧ byteLength front = n

theorem cut?_append (front back : List Char) :
    cut? (byteLength front) (front ++ back) = some (front, back) := by
  simp [cut?, splitAt_append]

theorem IsBoundary.split (boundary : IsBoundary cs n) :
    ∃ front back, cs = front ++ back ∧ byteLength front = n := by
  obtain ⟨front, ⟨back, whole⟩, length⟩ := boundary
  exact ⟨front, back, whole.symm, length⟩

theorem isBoundary_iff : IsBoundary cs n ↔ (cut? n cs).isSome := by
  constructor
  · intro boundary
    obtain ⟨front, back, rfl, rfl⟩ := boundary.split
    simp [cut?_append]
  · intro found
    obtain ⟨⟨front, back⟩, found⟩ := Option.isSome_iff_exists.mp found
    obtain ⟨rfl, length⟩ := cut?_ok found
    exact ⟨front, List.prefix_append _ _, length⟩

instance : Decidable (IsBoundary cs n) := decidable_of_iff _ isBoundary_iff.symm

/-- Behind a prefix the boundaries are those of the rest. -/
theorem IsBoundary.le_byteLength (boundary : IsBoundary cs n) : n ≤ byteLength cs := by
  obtain ⟨front, ⟨back, rfl⟩, rfl⟩ := boundary
  rw [byteLength_append]
  omega

theorem IsBoundary.drop (boundary : IsBoundary (front ++ back) n) (behind : byteLength front ≤ n) :
    IsBoundary back (n - byteLength front) := by
  obtain ⟨whole, prefixed, rfl⟩ := boundary
  rcases List.prefix_or_prefix_of_prefix prefixed (List.prefix_append front back) with ⟨rest, rfl⟩ | longer
  · -- The prefix is no longer than the part in front, so it is that part.
    rw [byteLength_append] at behind
    exact ⟨[], List.nil_prefix, by simp⟩
  · obtain ⟨rest, rfl⟩ := longer
    exact ⟨rest, (List.prefix_append_right_inj front).mp prefixed, by simp⟩

/-- No boundary lies inside a character. -/
theorem IsBoundary.not_inside {c : Char} (boundary : IsBoundary (c :: cs) n) (positive : 0 < n) :
    c.utf8Size ≤ n := by
  obtain ⟨front, prefixed, rfl⟩ := boundary
  cases front with
  | nil => exact absurd positive (Nat.lt_irrefl 0)
  | cons d front =>
    obtain ⟨rfl, -⟩ := List.cons_prefix_cons.mp prefixed
    rw [byteLength_cons]
    omega

theorem slice_append (front part back : List Char) :
    slice (front ++ part ++ back) ⟨byteLength front, byteLength front + byteLength part⟩ = part := by
  have first := cut?_append front (part ++ back)
  have second := cut?_append part back
  simp [slice, first, second]

end SourceRepair.Text
