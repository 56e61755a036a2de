import Mathlib.Algebra.Group.Int.Defs
import Mathlib.Data.List.Nodup
import SourceRepair.Proofs.Json.Reading

/-!
# What is written is plain JSON

The text of a value is plain JSON for the value in every layout, as long as its numbers are integers of 64 bits.
So it reads back as the value, unless its lists are nested deeper than the reader goes.
-/

namespace SourceRepair.Json

open Relation (Comp)

/-- The numbers of the value are integers of 64 bits. -/
inductive Value.Whole : Value → Prop
  | null : Whole .null
  | bool (b : Bool) : Whole (.bool b)
  | string (s : String) : Whole (.string s)
  | number {n : Int} (low : -(2 ^ 63) ≤ n) (high : n ≤ maxWord) : Whole (.number (.int n))
  | array {vs : List Value} (items : ∀ v ∈ vs, Whole v) : Whole (.array vs)
  | object {ms : Members} (members : ∀ m ∈ ms, Whole m.2) : Whole (.object ms)

/-- A layout puts blanks between tokens. -/
structure Layout.Blank (layout : Layout) : Prop where
  newline (depth : Nat) : AreBlanks (layout.newline depth).toList
  colon : ∃ g, AreBlanks g ∧ layout.colon.toList = ':' :: g

theorem blank_pretty : Layout.pretty.Blank where
  newline depth := by
    intro c member
    simp [Layout.pretty] at member
    rcases member with rfl | ⟨_, rfl⟩ <;> rfl
  colon := ⟨[' '], by simp [AreBlanks, isBlank], rfl⟩

theorem blank_compact : Layout.compact.Blank where
  newline depth := by simp [AreBlanks, Layout.compact]
  colon := ⟨[], by simp [AreBlanks], rfl⟩

/-! ### Strings and numbers -/

theorem isString_quote (s : String) : IsString s (quote s).toList :=
  ⟨s.toList.flatMap escape, spells_escape s.toList, quote_toList s⟩

theorem isWhole_toDigits (n : Nat) : IsWhole (Nat.toDigits 10 n) := by
  refine ⟨⟨Nat.toDigits_ne_nil, fun c member => Nat.isDigit_of_mem_toDigits (by decide) (by decide) member⟩,
    fun first => ?_⟩
  by_cases zero : n = 0
  · subst zero
    rfl
  · exact absurd first (head_toDigits zero)

theorem isMagnitude_toDigits (n : Nat) : IsMagnitude (Nat.toDigits 10 n) := by
  simpa using IsMagnitude.parts (isWhole_toDigits n) .none .none

/-- A negative number of 64 bits reads back. -/
theorem readNumber_negative {n : Nat} (positive : n ≠ 0) (fits : n ≤ 2 ^ 63) :
    readNumber true (Nat.toDigits 10 n) = some (.int (-n), []) := by
  have written : Nat.ofDigitChars 10 (Nat.toDigits 10 n) 0 = n := Nat.ofDigitChars_ten_toDigits
  have small : n ≤ maxWord := Nat.le_trans fits (by decide)
  have whole := @readNumber_whole _ [] (isWhole_toDigits n) (by simp) true
  rw [List.append_nil, append_fits 0 (by rwa [written]), written, readFraction_other (by simp)] at whole
  have within : ¬9223372036854775808 < n := by omega
  simpa [positive, within] using whole

theorem isWord_int {n : Int} (low : -(2 ^ 63) ≤ n) (high : n ≤ maxWord) :
    IsWord (.number (.int n)) (Number.text (.int n)).toList := by
  cases n with
  | ofNat n =>
    have text : (Number.text (.int (.ofNat n))).toList = Nat.toDigits 10 n := Nat.toList_repr
    have read := @readNumber_fits _ [] (Int.ofNat_le.mp high) (by simp [Stops])
    rw [List.append_nil] at read
    rw [text]
    exact .number (.positive (isMagnitude_toDigits n) read)
  | negSucc n =>
    have text : (Number.text (.int (.negSucc n))).toList = '-' :: Nat.toDigits 10 (n + 1) := by
      show ("-" ++ Nat.repr (n + 1)).toList = _
      rw [String.toList_append, Nat.toList_repr]
      rfl
    rw [text]
    exact .number (.negative (isMagnitude_toDigits _) (readNumber_negative (by omega) (by omega)))

/-! ### Lists -/

theorem toList_intercalate (sep t : String) (ts : List String) :
    (String.intercalate sep (t :: ts)).toList = t.toList ++ ts.flatMap fun t => sep.toList ++ t.toList := by
  induction ts generalizing t with
  | nil => simp
  | cons u us ih =>
    rw [String.intercalate_cons_cons, String.toList_append, String.toList_append, ih]
    simp

/-- The texts of the items behind the first one. -/
def Layout.more (layout : Layout) (depth : Nat) (ts : List String) : List Char :=
  ts.flatMap fun t => ',' :: ((layout.newline depth).toList ++ t.toList)

/-- The text of a list with items. -/
theorem toList_list (layout : Layout) (depth : Nat) (opening closing t : String) (ts : List String) :
    (layout.list depth opening closing (t :: ts)).toList = opening.toList ++ ((layout.newline (depth + 1)).toList ++
      (t.toList ++ (layout.more (depth + 1) ts ++ ((layout.newline depth).toList ++ closing.toList)))) := by
  have comma : ("," ++ layout.newline (depth + 1)).toList = ',' :: (layout.newline (depth + 1)).toList := by simp
  simp only [Layout.list, Layout.more, String.toList_append, toList_intercalate, comma, List.append_assoc,
    List.cons_append]

theorem word_render {v : Value} {w g : List Char} (word : IsWord v w) (blanks : AreBlanks g) (r : List Char) :
    Style.plain.word v (g ++ (w ++ r)) r := ⟨g, w, w, blanks, word, rfl, rfl⟩

theorem plain_mark (c : Char) (r : List Char) : Style.plain.mark c (c :: r) r :=
  ⟨[], by simp [Style.plain, AreBlanks], rfl⟩

section

variable {layout : Layout} (blank : layout.Blank)
include blank

theorem moreItems_render {depth : Nat} {vs : List Value} (starts : ∀ v ∈ vs, ∀ g r, AreBlanks g →
      v.Starts .plain (g ++ ((v.render layout (depth + 1)).toList ++ r)) r) (r : List Char) :
    MoreItems .plain vs (layout.more (depth + 1) (renderItems layout (depth + 1) vs) ++
      ((layout.newline depth).toList ++ ']' :: r)) r := by
  induction vs with
  | nil => exact .inl ⟨_, blank.newline depth, rfl⟩
  | cons v vs ih =>
    have rest := ih fun u member => starts u (List.mem_cons_of_mem v member)
    have text : layout.more (depth + 1) (renderItems layout (depth + 1) (v :: vs)) ++
          ((layout.newline depth).toList ++ ']' :: r) =
        ',' :: ((layout.newline (depth + 1)).toList ++ ((v.render layout (depth + 1)).toList ++
          (layout.more (depth + 1) (renderItems layout (depth + 1) vs) ++
            ((layout.newline depth).toList ++ ']' :: r)))) := by
      simp [Layout.more, renderItems]
    rw [text]
    exact ⟨_, ⟨_, plain_mark ',' _, starts v List.mem_cons_self _ _ (blank.newline (depth + 1))⟩, rest⟩

/-- A member of an object behind blanks. -/
theorem member_render {depth : Nat} {v : Value}
    (starts : ∀ g r, AreBlanks g → v.Starts .plain (g ++ ((v.render layout depth).toList ++ r)) r) (k : String)
    {g : List Char} (blanks : AreBlanks g) (r : List Char) :
    Comp (Style.plain.quoted k) (Comp (Style.plain.mark ':') (v.Starts .plain))
      (g ++ ((quote k ++ layout.colon ++ v.render layout depth).toList ++ r)) r := by
  obtain ⟨h, blanks', colon⟩ := blank.colon
  have text : g ++ ((quote k ++ layout.colon ++ v.render layout depth).toList ++ r) =
      g ++ ((quote k).toList ++ (':' :: (h ++ ((v.render layout depth).toList ++ r)))) := by
    simp [colon]
  rw [text]
  exact ⟨_, ⟨g, _, blanks, isString_quote k, rfl⟩, _, plain_mark ':' _, starts h r blanks'⟩

theorem moreMembers_render {depth : Nat} {ms : Members} (starts : ∀ m ∈ ms, ∀ g r, AreBlanks g →
      m.2.Starts .plain (g ++ ((m.2.render layout (depth + 1)).toList ++ r)) r) (r : List Char) :
    MoreMembers .plain ms (layout.more (depth + 1) (renderMembers layout (depth + 1) ms) ++
      ((layout.newline depth).toList ++ '\x7d' :: r)) r := by
  induction ms with
  | nil => exact .inl ⟨_, blank.newline depth, rfl⟩
  | cons m ms ih =>
    obtain ⟨k, v⟩ := m
    have rest := ih fun m member => starts m (List.mem_cons_of_mem (k, v) member)
    have text : layout.more (depth + 1) (renderMembers layout (depth + 1) ((k, v) :: ms)) ++
          ((layout.newline depth).toList ++ '\x7d' :: r) =
        ',' :: ((layout.newline (depth + 1)).toList ++
          ((quote k ++ layout.colon ++ v.render layout (depth + 1)).toList ++
            (layout.more (depth + 1) (renderMembers layout (depth + 1) ms) ++
              ((layout.newline depth).toList ++ '\x7d' :: r)))) := by
      simp [Layout.more, renderMembers]
    obtain ⟨_, key, _, colon, value⟩ := member_render blank (starts (k, v) List.mem_cons_self) k
      (blank.newline (depth + 1)) _
    rw [text]
    exact ⟨_, ⟨_, plain_mark ',' _, key⟩, _, colon, _, value, rest⟩

/-- The text of a value starts with the value behind blanks. -/
theorem starts_render {v : Value} (whole : v.Whole) (depth : Nat) {g : List Char} (blanks : AreBlanks g)
    (r : List Char) : v.Starts .plain (g ++ ((v.render layout depth).toList ++ r)) r := by
  induction whole generalizing depth g r with
  | null =>
    rw [Value.render]
    exact word_render .null blanks r
  | bool b =>
    cases b with
    | false =>
      rw [Value.render]
      exact word_render .no blanks r
    | true =>
      rw [Value.render]
      exact word_render .yes blanks r
  | string s => exact ⟨g, _, blanks, isString_quote s, rfl⟩
  | number low high => exact word_render (isWord_int low high) blanks r
  | @array vs items ih =>
    have starts := fun v member g r blanks => ih v member (depth + 1) (g := g) blanks r
    cases vs with
    | nil => exact ⟨_, ⟨g, blanks, by simp [Value.render, renderItems, Layout.list]⟩, .inl (plain_mark ']' r)⟩
    | cons v vs =>
      refine ⟨_, ⟨g, blanks, ?_⟩, _, starts v List.mem_cons_self _ _ (blank.newline (depth + 1)),
        moreItems_render blank (fun u member => starts u (List.mem_cons_of_mem v member)) r⟩
      simp [Value.render, renderItems, toList_list]
  | @object ms members ih =>
    have starts := fun m member g r blanks => ih m member (depth + 1) (g := g) blanks r
    cases ms with
    | nil => exact ⟨_, ⟨g, blanks, by simp [Value.render, renderMembers, Layout.list]⟩, .inl (plain_mark '\x7d' r)⟩
    | cons m ms =>
      obtain ⟨k, v⟩ := m
      obtain ⟨_, key, _, colon, value⟩ := member_render blank (starts (k, v) List.mem_cons_self) k
        (blank.newline (depth + 1)) _
      refine ⟨_, ⟨_, ⟨g, blanks, ?_⟩, key⟩, _, colon, _, value,
        moreMembers_render blank (fun m member => starts m (List.mem_cons_of_mem (k, v) member)) r⟩
      simp [Value.render, renderMembers, toList_list]

/-- The text of a value is plain JSON for it, also with blanks behind it. -/
theorem document_render {v : Value} (whole : v.Whole) {e : List Char} (blanks : AreBlanks e) :
    Document .plain v ((v.render layout 0).toList ++ e) :=
  ⟨e, starts_render blank whole 0 (g := []) (by simp [AreBlanks]) e, blanks⟩

end

/-! ### Keys -/

namespace Members

variable {ms : Members} {k : String} {v : Value}

/-- A key that is missing is put at the end. -/
theorem set_missing (missing : k ∉ ms.map Prod.fst) (v : Value) : ms.set k v = ms ++ [(k, v)] := by
  induction ms with
  | nil => rfl
  | cons m ms ih =>
    obtain ⟨l, u⟩ := m
    simp only [List.map_cons, List.mem_cons, not_or] at missing
    rw [set, if_neg (by simpa using Ne.symm missing.1), ih missing.2, List.cons_append]

/-- A key that is there gets its value at its place. -/
theorem set_present (present : k ∈ ms.map Prod.fst) (v : Value) : ∃ before after u,
    ms = before ++ (k, u) :: after ∧ k ∉ before.map Prod.fst ∧ ms.set k v = before ++ (k, v) :: after := by
  induction ms with
  | nil => cases present
  | cons m ms ih =>
    obtain ⟨l, u⟩ := m
    by_cases same : l = k
    · subst same
      exact ⟨[], ms, u, rfl, by simp, by simp [set]⟩
    · obtain ⟨before, after, w, rfl, first, put⟩ := ih (by simpa [Ne.symm same] using present)
      exact ⟨(l, u) :: before, after, w, rfl, by simpa [Ne.symm same] using first, by simp [set, same, put]⟩

theorem mem_set {m : String × Value} (member : m ∈ ms.set k v) : m = (k, v) ∨ m ∈ ms := by
  by_cases present : k ∈ ms.map Prod.fst
  · obtain ⟨before, after, u, rfl, _, put⟩ := set_present present v
    rw [put] at member
    simp only [List.mem_append, List.mem_cons] at member ⊢
    tauto
  · rw [set_missing present] at member
    simp only [List.mem_append, List.mem_singleton] at member
    tauto

theorem nodup_set (distinct : (ms.map Prod.fst).Nodup) : ((ms.set k v).map Prod.fst).Nodup := by
  by_cases present : k ∈ ms.map Prod.fst
  · obtain ⟨before, after, u, rfl, _, put⟩ := set_present present v
    rw [put]
    simpa using distinct
  · rw [set_missing present, List.map_append]
    exact distinct.append (List.nodup_singleton k) (by simpa using present)

theorem foldl_set_nodup (done : Members) (distinct : (done.map Prod.fst).Nodup) :
    ((ms.foldl (fun done (k, v) => set done k v) done).map Prod.fst).Nodup := by
  induction ms generalizing done with
  | nil => exact distinct
  | cons m ms ih => exact ih _ (nodup_set distinct)

theorem mem_foldl_set (done : Members) {m : String × Value}
    (member : m ∈ ms.foldl (fun done (k, v) => set done k v) done) : m ∈ done ∨ m ∈ ms := by
  induction ms generalizing done with
  | nil => exact .inl member
  | cons n ms ih =>
    rcases ih _ member with member | member
    · rcases mem_set member with rfl | member
      · exact .inr List.mem_cons_self
      · exact .inl member
    · exact .inr (List.mem_cons_of_mem n member)

/-- Members with new keys, no two alike, are put at the end. -/
theorem foldl_set (done : Members) (distinct : ((done ++ ms).map Prod.fst).Nodup) :
    ms.foldl (fun done (k, v) => set done k v) done = done ++ ms := by
  induction ms generalizing done with
  | nil => simp
  | cons m ms ih =>
    obtain ⟨k, v⟩ := m
    have missing : k ∉ done.map Prod.fst := by
      rw [List.map_append, List.nodup_append] at distinct
      exact fun member => distinct.2.2 k member k (by simp) rfl
    rw [List.foldl_cons]
    show ms.foldl _ (done.set k v) = _
    rw [set_missing missing, ih _ (by simpa using distinct)]
    simp

theorem collapse_eq (distinct : (ms.map Prod.fst).Nodup) : ms.collapse = ms := foldl_set [] distinct

end Members

/-! ### Values that come back -/

/-- The value is read as it was written: its numbers are integers of 64 bits, its objects have each key once, and
its lists are nested at most so deep. -/
inductive Value.Fits : Nat → Value → Prop
  | null (depth : Nat) : Fits depth .null
  | bool (depth : Nat) (b : Bool) : Fits depth (.bool b)
  | string (depth : Nat) (s : String) : Fits depth (.string s)
  | number (depth : Nat) {n : Int} (low : -(2 ^ 63) ≤ n) (high : n ≤ maxWord) : Fits depth (.number (.int n))
  | array {depth : Nat} {vs : List Value} (items : ∀ v ∈ vs, Fits depth v) : Fits (depth + 1) (.array vs)
  | object {depth : Nat} {ms : Members} (distinct : (ms.map Prod.fst).Nodup) (members : ∀ m ∈ ms, Fits depth m.2) :
    Fits (depth + 1) (.object ms)

namespace Value

theorem Fits.whole {depth : Nat} {v : Value} (fits : v.Fits depth) : v.Whole := by
  induction fits with
  | null => exact .null
  | bool => exact .bool _
  | string => exact .string _
  | number _ low high => exact .number low high
  | array _ ih => exact .array ih
  | object _ _ ih => exact .object ih

theorem itemsNesting_le {depth : Nat} {vs : List Value} : itemsNesting vs ≤ depth ↔ ∀ v ∈ vs, v.nesting ≤ depth := by
  induction vs with
  | nil => simp [itemsNesting]
  | cons v vs ih => simp [itemsNesting, Nat.max_le, ih]

theorem membersNesting_le {depth : Nat} {ms : Members} :
    membersNesting ms ≤ depth ↔ ∀ m ∈ ms, m.2.nesting ≤ depth := by
  induction ms with
  | nil => simp [membersNesting]
  | cons m ms ih =>
    obtain ⟨k, v⟩ := m
    simp [membersNesting, Nat.max_le, ih]

theorem Fits.nesting_le {depth : Nat} {v : Value} (fits : v.Fits depth) : v.nesting ≤ depth := by
  induction fits with
  | array _ ih => exact Nat.succ_le_succ (itemsNesting_le.mpr ih)
  | object _ _ ih => exact Nat.succ_le_succ (membersNesting_le.mpr ih)
  | _ => exact Nat.zero_le _

theorem collapseItems_eq_map (vs : List Value) : collapseItems vs = vs.map collapse := by
  induction vs with
  | nil => rfl
  | cons v vs ih => rw [collapseItems, ih, List.map_cons]

theorem collapseMembers_eq_map (ms : Members) : collapseMembers ms = ms.map fun m => (m.1, m.2.collapse) := by
  induction ms with
  | nil => rfl
  | cons m ms ih =>
    obtain ⟨k, v⟩ := m
    rw [collapseMembers, ih, List.map_cons]

theorem Fits.collapse_eq {depth : Nat} {v : Value} (fits : v.Fits depth) : v.collapse = v := by
  induction fits with
  | array _ ih =>
    rw [collapse, collapseItems_eq_map]
    exact congrArg _ ((List.map_congr_left ih).trans (List.map_id _))
  | @object _ ms distinct _ ih =>
    have same : collapseMembers ms = ms := by
      rw [collapseMembers_eq_map]
      exact (List.map_congr_left fun m member => by rw [ih m member]; rfl).trans (List.map_id ms)
    rw [collapse, same, Members.collapse_eq distinct]
  | _ => rfl

/-- What is left of a value when repeated keys are taken out fits. -/
theorem fits_collapse {depth : Nat} {v : Value} (nested : v.nesting ≤ depth) (whole : v.collapse.Whole) :
    v.collapse.Fits depth := by
  induction depth generalizing v with
  | zero =>
    cases v with
    | array | object => simp [nesting] at nested
    | null => exact .null _
    | bool b => exact .bool _ b
    | string s => exact .string _ s
    | number n =>
      cases whole with
      | number low high => exact .number _ low high
  | succ depth ih =>
    cases v with
    | null => exact .null _
    | bool b => exact .bool _ b
    | string s => exact .string _ s
    | number n =>
      cases whole with
      | number low high => exact .number _ low high
    | array vs =>
      rw [collapse, collapseItems_eq_map] at whole ⊢
      cases whole with
      | array items =>
        refine .array fun v member => ?_
        have number := items v member
        obtain ⟨u, listed, rfl⟩ := List.mem_map.mp member
        exact ih (itemsNesting_le.mp (Nat.succ_le_succ_iff.mp nested) u listed) number
    | object ms =>
      rw [collapse, collapseMembers_eq_map] at whole ⊢
      cases whole with
      | object members =>
        refine .object (Members.foldl_set_nodup [] List.nodup_nil) fun m member => ?_
        have number := members m member
        rcases Members.mem_foldl_set [] member with none | member
        · cases none
        · obtain ⟨n, listed, rfl⟩ := List.mem_map.mp member
          exact ih (membersNesting_le.mp (Nat.succ_le_succ_iff.mp nested) n listed) number

theorem read?_pretty {v : Value} (fits : v.Fits depthLimit) : read? (v.pretty ++ "\n") = some v := by
  refine read?_eq_some_iff.mpr ⟨?_, fits.nesting_le⟩
  rw [String.toList_append]
  exact document_render blank_pretty fits.whole (by simp [AreBlanks, isBlank])

end Value

end SourceRepair.Json
