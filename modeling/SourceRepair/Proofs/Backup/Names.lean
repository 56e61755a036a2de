import Mathlib.Algebra.Group.Nat.Defs
import Mathlib.Data.List.TakeWhile
import SourceRepair.Backup.Archive
import SourceRepair.Proofs.Disk.Staged

/-!
# Names of backups

A name is cut at its last two dots, so the timestamp and the digest can be read off it. No such name
is the name of the file itself or of a temporary file.
-/

namespace SourceRepair

open Path (IsPlain)
open Disk (IsNonce)
open Disk.Staged (temporaryName)

/-! ### Digests -/

namespace Digest

theorem hexDigit_mem : ∀ n < 16, Json.hexDigit n ∈ "0123456789abcdef".toList := by decide

theorem hex_length (h : UInt64) : (hex h).toList.length = 16 := by simp [hex]

theorem hex_digits (h : UInt64) : ∀ c ∈ (hex h).toList, c ∈ "0123456789abcdef".toList := by
  intro c member
  simp only [hex, String.toList_ofList, List.mem_map] at member
  obtain ⟨i, _, rfl⟩ := member
  exact hexDigit_mem _ (Nat.mod_lt _ (by decide))

end Digest

namespace Backup

/-- What a digest looks like. -/
structure IsDigest (hash : String) : Prop where
  length : hash.toList.length = 16
  digits : ∀ c ∈ hash.toList, c ∈ "0123456789abcdef".toList

theorem isDigest_ofBytes (bytes : ByteArray) : IsDigest (Digest.ofBytes bytes) :=
  ⟨Digest.hex_length _, Digest.hex_digits _⟩

theorem isDigest_ofText (s : String) : IsDigest (Digest.ofText s) := isDigest_ofBytes _

theorem IsDigest.not_mem {hash : String} (digest : IsDigest hash) {c : Char}
    (other : c ∉ "0123456789abcdef".toList) : c ∉ hash.toList :=
  fun member => other (digest.digits c member)

theorem IsDigest.isDigest {hash : String} (digest : IsDigest hash) : isDigest hash.toList = true := by
  have values : ∀ c ∈ "0123456789abcdef".toList, (Json.hexValue? c).isSome = true := by
    simp [Json.hexValue?]
  simp only [Backup.isDigest, digest.length, beq_self_eq_true, Bool.true_and, List.all_eq_true]
  exact fun c member => values c (digest.digits c member)

/-! ### Cutting at the last dot -/

theorem cutLastDot?_append (xs : List Char) {ys : List Char} (plain : '.' ∉ ys) :
    cutLastDot? (xs ++ '.' :: ys) = some (xs, ys) := by
  have back : ((xs ++ '.' :: ys).reverse.takeWhile (· != '.')).reverse = ys := by
    have kept : ∀ c ∈ ys.reverse, (c != '.') = true := by
      intro c member
      have other : c ≠ '.' := fun same => plain (same ▸ List.mem_reverse.mp member)
      simpa using other
    rw [List.reverse_append, List.reverse_cons, List.append_assoc, List.takeWhile_append_of_pos kept]
    simp
  simp only [cutLastDot?, back]
  have front : (xs ++ '.' :: ys).length - ys.length - 1 = xs.length := by
    rw [List.length_append, List.length_cons]
    omega
  rw [if_pos (by simp; omega), front, List.take_left]

theorem eq_of_cutLastDot? {cs xs ys : List Char} (cut : cutLastDot? cs = some (xs, ys)) :
    cs = xs ++ '.' :: ys ∧ '.' ∉ ys := by
  by_cases dotted : '.' ∈ cs
  · obtain ⟨front, back, split, plain⟩ :
        ∃ front back, cs = front ++ '.' :: back ∧ '.' ∉ back := by
      obtain ⟨a, b, split, plain⟩ := List.eq_append_cons_of_mem (List.mem_reverse.mpr dotted)
      refine ⟨b.reverse, a.reverse, ?_, by simpa using plain⟩
      have whole := congrArg List.reverse split
      simpa using whole
    rw [split, cutLastDot?_append _ plain] at cut
    cases cut
    exact ⟨split, plain⟩
  · have all : cs.reverse.takeWhile (· != '.') = cs.reverse := by
      rw [List.takeWhile_eq_self_iff]
      intro c member
      have other : c ≠ '.' := fun same => dotted (same ▸ List.mem_reverse.mp member)
      simpa using other
    simp [cutLastDot?, all] at cut

/-! ### Timestamps -/

theorem isDigit_toDigits {n : Nat} {c : Char} (member : c ∈ Nat.toDigits 10 n) : c.isDigit = true :=
  Nat.isDigit_of_mem_toDigits (by decide) (by decide) member

theorem not_mem_toDigits {n : Nat} {c : Char} (other : c.isDigit = false) : c ∉ Nat.toDigits 10 n := by
  intro member
  rw [isDigit_toDigits member] at other
  cases other

theorem timestamp?_toDigits {n : Nat} (fits : n < 2 ^ 64) : timestamp? (Nat.toDigits 10 n) = some n := by
  have value : (Nat.toDigits 10 n).foldl (fun n c => 10 * n + (c.toNat - 48)) 0 = n :=
    Nat.ofDigitChars_eq_foldl.symm.trans Nat.ofDigitChars_ten_toDigits
  have digits : ((Nat.toDigits 10 n).isEmpty || !(Nat.toDigits 10 n).all (·.isDigit)) = false := by
    have all := List.all_eq_true.mpr fun c (member : c ∈ Nat.toDigits 10 n) => isDigit_toDigits member
    simp [all]
  unfold timestamp?
  split
  · rename_i rest plus
    exact absurd (plus ▸ List.mem_cons_self) (not_mem_toDigits (n := n) (c := '+') (by decide))
  · have word : n < UInt64.size := by simpa using fits
    simp only [digits, Bool.false_eq_true, if_false, value, word, if_true]

/-! ### Names -/

theorem toList_fileName (base : String) (timestamp : Nat) (hash : String) :
    (fileName base timestamp hash).toList =
      (base.toList ++ '.' :: Nat.toDigits 10 timestamp) ++ '.' :: hash.toList := by
  simp [fileName]

theorem length_fileName (base : String) (timestamp : Nat) (hash : String) :
    base.length < (fileName base timestamp hash).length := by
  have size := congrArg List.length (toList_fileName base timestamp hash)
  rw [List.length_append, List.length_append, List.length_cons, List.length_cons,
    String.length_toList, String.length_toList] at size
  omega

/-- A name of a backup can be read off. -/
theorem parseName?_fileName {timestamp : Nat} {hash : String} (base : String)
    (fits : timestamp < 2 ^ 64) (digest : IsDigest hash) :
    parseName? base (fileName base timestamp hash) = some (timestamp, hash) := by
  have first := cutLastDot?_append (base.toList ++ '.' :: Nat.toDigits 10 timestamp)
    (digest.not_mem (c := '.') (by decide))
  have second := cutLastDot?_append base.toList
    (not_mem_toDigits (n := timestamp) (c := '.') (by decide))
  rw [parseName?, toList_fileName, first, Option.bind_eq_bind, Option.bind_some]
  dsimp only
  rw [second, Option.bind_some]
  dsimp only
  rw [String.ofList_toList, digest.isDigest, timestamp?_toDigits fits, String.ofList_toList]
  simp

/-- What is read off a name stands in it behind the base. -/
theorem eq_of_parseName? {base name hash : String} {timestamp : Nat}
    (parsed : parseName? base name = some (timestamp, hash)) :
    ∃ stamp : List Char, name.toList = (base.toList ++ '.' :: stamp) ++ '.' :: hash.toList ∧
      timestamp? stamp = some timestamp ∧ isDigest hash.toList = true ∧ '.' ∉ hash.toList := by
  rw [parseName?, Option.bind_eq_bind, Option.bind_eq_some_iff] at parsed
  obtain ⟨⟨front, back⟩, cut, parsed⟩ := parsed
  rw [Option.bind_eq_bind, Option.bind_eq_some_iff] at parsed
  obtain ⟨⟨inner, stamp⟩, cut', parsed⟩ := parsed
  obtain ⟨whole, plain⟩ := eq_of_cutLastDot? cut
  obtain ⟨rfl, _⟩ := eq_of_cutLastDot? cut'
  dsimp only at parsed
  split at parsed
  · rename_i checked
    rw [Bool.and_eq_true, beq_iff_eq] at checked
    rw [Option.bind_eq_some_iff] at parsed
    obtain ⟨t, read, shown⟩ := parsed
    cases shown
    obtain ⟨rfl, digest⟩ := checked
    refine ⟨stamp, ?_, read, ?_, ?_⟩
    · simpa using whole
    · simpa using digest
    · simpa using plain
  · cases parsed

theorem length_of_isDigest {cs : List Char} (digest : isDigest cs = true) : cs.length = 16 := by
  rw [isDigest, Bool.and_eq_true, beq_iff_eq] at digest
  exact digest.1

theorem not_slash_of_timestamp? {cs : List Char} {n : Nat} (read : timestamp? cs = some n) :
    '/' ∉ cs := by
  intro member
  have digits : ∀ ds : List Char, (ds.isEmpty || !ds.all (·.isDigit)) = false → '/' ∉ ds := by
    intro ds checked member
    rw [Bool.or_eq_false_iff, Bool.not_eq_false', List.all_eq_true] at checked
    exact absurd (checked.2 _ member) (by decide)
  unfold timestamp? at read
  split at read
  · rename_i rest
    simp only at read
    split at read
    · cases read
    · rename_i checked
      exact digits rest (Bool.not_eq_true _ ▸ checked) ((List.mem_cons.mp member).resolve_left (by decide))
  · simp only at read
    split at read
    · cases read
    · rename_i checked
      exact digits cs (Bool.not_eq_true _ ▸ checked) member

/-- A name of a backup is plain, as its file's is. -/
theorem isPlain_of_parseName? {base name : String} {read : Nat × String} (plain : '/' ∉ base.toList)
    (parsed : parseName? base name = some read) : IsPlain name := by
  obtain ⟨stamp, whole, number, digest, _⟩ := eq_of_parseName? parsed
  refine Path.isPlain_of_length ?_ ?_
  · rw [← String.length_toList, whole, List.length_append, List.length_cons, length_of_isDigest digest]
    omega
  · have hash : '/' ∉ read.2.toList := by
      intro member
      rw [isDigest, Bool.and_eq_true, List.all_eq_true] at digest
      exact absurd (digest.2 _ member) (by decide)
    simp [whole, plain, not_slash_of_timestamp? number, hash]

/-- A backup has another name than its file. -/
theorem ne_of_parseName? {base name : String} {read : Nat × String}
    (parsed : parseName? base name = some read) : name ≠ base := by
  rintro rfl
  obtain ⟨stamp, whole, _⟩ := eq_of_parseName? parsed
  have size := congrArg List.length whole
  rw [List.length_append, List.length_append, List.length_cons, List.length_cons] at size
  omega

/-- No temporary file has the name of a backup. -/
theorem parseName?_temporaryName (base name nonce : String) :
    parseName? base (temporaryName name nonce) = none := by
  cases parsed : parseName? base (temporaryName name nonce) with
  | none => rfl
  | some read =>
    obtain ⟨stamp, whole, _, digest, plain⟩ := eq_of_parseName? parsed
    have ending : (temporaryName name nonce).toList =
        ("." ++ name ++ "." ++ nonce).toList ++ '.' :: "tmp".toList := by
      simp [temporaryName]
    have cut := congrArg cutLastDot? (ending.symm.trans whole)
    rw [cutLastDot?_append _ plain, cutLastDot?_append _ (by decide)] at cut
    have same : "tmp".toList = read.2.toList := (Prod.mk.inj (Option.some.inj cut)).2
    have length := length_of_isDigest digest
    rw [← same] at length
    exact absurd length (by decide)

/-- The timestamp of a backup tells its name from those of others. -/
theorem fileName_inj {base hash hash' : String} {t t' : Nat} (digest : IsDigest hash)
    (digest' : IsDigest hash') (same : fileName base t hash = fileName base t' hash') : t = t' := by
  have whole := congrArg (cutLastDot? ∘ String.toList) same
  simp only [Function.comp_apply, toList_fileName] at whole
  rw [cutLastDot?_append _ (digest.not_mem (by decide)),
    cutLastDot?_append _ (digest'.not_mem (by decide))] at whole
  have front := (Prod.mk.inj (Option.some.inj whole)).1
  have stamps := List.cons.inj (List.append_cancel_left front) |>.2
  rw [← Nat.ofDigitChars_ten_toDigits (n := t), stamps, Nat.ofDigitChars_ten_toDigits]

theorem fileName_ne_temporaryName {base hash : String} {t : Nat} (digest : IsDigest hash)
    (name nonce : String) : fileName base t hash ≠ temporaryName name nonce := by
  intro same
  have ending : (temporaryName name nonce).toList =
      ("." ++ name ++ "." ++ nonce).toList ++ '.' :: "tmp".toList := by
    simp [temporaryName]
  have cut := congrArg cutLastDot? ((toList_fileName base t hash).symm.trans
    ((congrArg String.toList same).trans ending))
  rw [cutLastDot?_append _ (digest.not_mem (by decide)), cutLastDot?_append _ (by decide)] at cut
  have hash := (Prod.mk.inj (Option.some.inj cut)).2
  have length := digest.length
  rw [hash] at length
  exact absurd length (by decide)

theorem isPlain_fileName {base hash : String} {t : Nat} (plain : '/' ∉ base.toList)
    (digest : IsDigest hash) : IsPlain (fileName base t hash) := by
  refine Path.isPlain_of_length ?_ ?_
  · rw [← String.length_toList, toList_fileName, List.length_append, List.length_cons, digest.length]
    omega
  · have stamp := not_mem_toDigits (n := t) (c := '/') (by decide)
    have hash := digest.not_mem (c := '/') (by decide)
    simp [toList_fileName, plain, stamp, hash]

end Backup

end SourceRepair
