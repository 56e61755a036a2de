import SourceRepair.Backup.Record
import SourceRepair.Proofs.Json.RoundTrip

/-!
# Records on the disk

The text of a record reads back as the record, unless its timestamp has more than 64 bits; then it
does not read back at all.
-/

namespace SourceRepair.Backup.Record

open Json

/-- The members of the document of a record, with any value for the timestamp. -/
def membersWith (r : Record) (timestamp : Value) : Members :=
  [("originalPath", .string r.originalPath.text), ("timestamp", timestamp),
    ("hash", .string r.hash), ("operation", .string r.operation), ("content", .string r.content)]

theorem decode_membersWith (r : Record) (v : Value) :
    decode (.object (r.membersWith v)) =
      (Decode.word64 v).map fun t => { r with timestamp := t } := by
  have checked : firstComplaint ["originalPath", "timestamp", "hash", "operation", "content"] check []
      (r.membersWith v) = (Decode.word64 v).map fun _ => () := by
    have timestamp : check "timestamp" v = (Decode.word64 v).map fun _ => () := rfl
    have path : ∀ s, check "originalPath" (.string s) = .ok () := fun _ => rfl
    have other : ∀ key s, key = "hash" ∨ key = "operation" ∨ key = "content" →
        check key (.string s) = .ok () := by
      rintro key s (rfl | rfl | rfl) <;> rfl
    cases read : Decode.word64 v <;>
      simp [membersWith, firstComplaint, path, timestamp, other, read, Except.map]
  simp only [decode, record, checked]
  cases read : Decode.word64 v with
  | error message => rfl
  | ok t =>
    simp [Except.map, bind, Except.bind, Fields.required, membersWith, Members.get?, List.lookup_cons,
      read, Decode.path, Decode.string, pure, Except.pure]

/-- What a member of a record is read as: a text as it is, and the number as far as it is read. -/
def readMember (o : Option Value) : Value → Option Value
  | .string s => some (.string s)
  | _ => o

/-- The text of a record is a document with its members. -/
theorem read?_text (r : Record) : ∃ o : Option Value,
    read? r.text = o.map (fun v => .object (r.membersWith v)) ∧
    (r.timestamp < 2 ^ 64 → o = some (.nat r.timestamp)) ∧
    (2 ^ 64 ≤ r.timestamp → ∀ v ∈ o, ∃ x, v = .float x) := by
  obtain ⟨o, reads, fits, large⟩ := readsAs_nat r.timestamp
  refine ⟨o, ?_, fits, large⟩
  have read := read?_object (r.membersWith (.nat r.timestamp))
    (o := readMember o) (by simp [membersWith]) (by
    intro depth m member
    simp only [membersWith, List.mem_cons, List.not_mem_nil, or_false] at member
    rcases member with rfl | rfl | rfl | rfl | rfl
    · exact readsAs_string _ depth
    · exact reads depth
    · exact readsAs_string _ depth
    · exact readsAs_string _ depth
    · exact readsAs_string _ depth)
  refine read.trans ?_
  cases o <;> rfl

theorem word64_nat {n : Nat} (fits : n < 2 ^ 64) : Decode.word64 (.nat n) = .ok n := by
  have bounds : (0 ≤ (n : Int) && (n : Int) < (UInt64.size : Int)) = true := by
    simp only [Bool.and_eq_true, decide_eq_true_eq, UInt64.size]
    omega
  simp only [Decode.word64, Decode.nat, Value.nat, bounds, if_true, Int.toNat_natCast]

/-- A record reads back, or not at all. -/
theorem ofText_text (r : Record) : ofText r.text = .ok r ∨ ∃ e, ofText r.text = .error e := by
  obtain ⟨o, read, fits, large⟩ := r.read?_text
  rw [ofText, read]
  cases o with
  | none => exact .inr ⟨_, rfl⟩
  | some v =>
    simp only [Option.map_some, decode_membersWith]
    by_cases small : r.timestamp < 2 ^ 64
    · cases fits small
      rw [word64_nat small]
      exact .inl rfl
    · obtain ⟨x, rfl⟩ := large (by omega) v rfl
      exact .inr ⟨_, rfl⟩

theorem decode_of_lt {r : Record} (fits : r.timestamp < 2 ^ 64) :
    decode (.object (r.membersWith (.nat r.timestamp))) = .ok r := by
  rw [decode_membersWith, word64_nat fits, Except.map]

theorem read?_text_of_lt {r : Record} (fits : r.timestamp < 2 ^ 64) :
    read? r.text = some (.object (r.membersWith (.nat r.timestamp))) := by
  obtain ⟨o, read, same, _⟩ := r.read?_text
  rw [read, same fits, Option.map_some]

theorem ofText_of_decode {s : String} {v : Value} {r : Record} (read : read? s = some v)
    (decoded : decode v = .ok r) : ofText s = .ok r := by
  simp only [ofText, read, decoded]

/-- A record with a timestamp of 64 bits reads back. -/
theorem ofText_text_of_lt {r : Record} (fits : r.timestamp < 2 ^ 64) : ofText r.text = .ok r :=
  ofText_of_decode (read?_text_of_lt fits) (decode_of_lt fits)

theorem isIntact_ofContent (path : Path) (timestamp : Nat) (operation content : String) :
    (ofContent path timestamp operation content).isIntact = true := by
  simp [isIntact, ofContent]

end SourceRepair.Backup.Record
