import SourceRepair.Proofs.Path

/-!
# Locations on the disk

What stands where after a change, and where a path leads. Directories are never given up, so a path
that leads somewhere leads there for good.
-/

namespace SourceRepair.Disk.Files

open Path (IsPlain)

variable {fs gs : Files} {l d : Location} {p : Path} {name : String}

/-! ### What stands where -/

theorem get?_nil : fs.get? [] = some .directory := rfl

theorem get?_of_ne_nil (inner : l ≠ []) : fs.get? l = fs.nodes.lookup l := by
  simp [get?, inner]

theorem ne_nil_of_get? (other : fs.get? l ≠ some .directory) : l ≠ [] := by
  rintro rfl
  exact other get?_nil

theorem ne_nil_of_file {bytes : ByteArray} (file : fs.get? l = some (.file bytes)) : l ≠ [] :=
  ne_nil_of_get? (by simp [file] : fs.get? l ≠ some .directory)

theorem ne_nil_of_free (free : fs.get? l = none) : l ≠ [] :=
  ne_nil_of_get? (by simp [free] : fs.get? l ≠ some .directory)

theorem lookup_cons_other {nodes : List (Location × Node)} {k l : Location} {n : Node}
    (other : k ≠ l) : List.lookup k ((l, n) :: nodes) = List.lookup k nodes := by
  rw [List.lookup_cons, beq_false_of_ne other]

theorem lookup_filter (nodes : List (Location × Node)) (l k : Location) :
    (nodes.filter fun e => e.1 != l).lookup k = if k = l then none else nodes.lookup k := by
  induction nodes with
  | nil => simp
  | cons entry rest ih =>
    obtain ⟨key, node⟩ := entry
    by_cases same : key = l
    · rw [List.filter_cons_of_neg (by simp [same]), ih]
      by_cases found : k = l
      · simp [found]
      · rw [if_neg found, if_neg found, lookup_cons_other fun equal => found (equal.trans same)]
    · rw [List.filter_cons_of_pos (by simp [same])]
      by_cases found : k = key
      · subst found
        simp [same]
      · rw [lookup_cons_other found, lookup_cons_other found, ih]

theorem get?_erase_same (inner : l ≠ []) : (fs.erase l).get? l = none := by
  simp [get?_of_ne_nil inner, erase, lookup_filter]

theorem get?_erase_other {k : Location} (other : k ≠ l) : (fs.erase l).get? k = fs.get? k := by
  by_cases inner : k = []
  · simp [inner, get?_nil]
  · simp [get?_of_ne_nil inner, erase, lookup_filter, other]

theorem get?_put_same {n : Node} (inner : l ≠ []) : (fs.put l n).get? l = some n := by
  simp [get?_of_ne_nil inner, put, erase, List.lookup_append, lookup_filter]

theorem get?_put_other {k : Location} {n : Node} (other : k ≠ l) :
    (fs.put l n).get? k = fs.get? k := by
  by_cases inner : k = []
  · simp [inner, get?_nil]
  · simp [get?_of_ne_nil inner, put, erase, List.lookup_append, lookup_filter,
      lookup_cons_other other, other]

/-! ### Disks as they are -/

/-- Every location is listed once, whatever stands somewhere lies in a directory, and so does the
place where relative paths start. -/
structure WellFormed (fs : Files) : Prop where
  unique : (fs.nodes.map Prod.fst).Nodup
  enclosed : ∀ l n, fs.get? l = some n → fs.get? l.dropLast = some .directory
  here : fs.get? fs.current = some .directory

/-- It is enough to look at the locations that are listed. -/
theorem WellFormed.of_nodes (unique : (fs.nodes.map Prod.fst).Nodup)
    (enclosed : ∀ e ∈ fs.nodes, fs.get? e.1.dropLast = some .directory)
    (here : fs.get? fs.current = some .directory) : fs.WellFormed where
  unique := unique
  enclosed l n found := by
    by_cases root : l = []
    · subst root
      rfl
    · rw [get?_of_ne_nil root] at found
      obtain ⟨front, back, split, _⟩ := List.lookup_eq_some_iff.mp found
      exact enclosed (l, n) (by simp [split])
  here := here

theorem unique_erase (unique : (fs.nodes.map Prod.fst).Nodup) (l : Location) :
    ((fs.erase l).nodes.map Prod.fst).Nodup :=
  unique.sublist (List.filter_sublist.map _)

theorem unique_put (unique : (fs.nodes.map Prod.fst).Nodup) (l : Location) (n : Node) :
    ((fs.put l n).nodes.map Prod.fst).Nodup := by
  simp only [put, List.map_append, List.map_cons, List.map_nil]
  refine List.nodup_append.mpr ⟨unique_erase unique l, by simp, ?_⟩
  intro a member b same
  rw [List.mem_singleton.mp same]
  obtain ⟨entry, found, rfl⟩ := List.mem_map.mp member
  simpa [erase] using (List.mem_filter.mp found).2

theorem WellFormed.erase (wf : fs.WellFormed) {bytes : ByteArray}
    (file : fs.get? l = some (.file bytes)) : (fs.erase l).WellFormed where
  unique := unique_erase wf.unique l
  enclosed := by
    intro k n found
    have inner : l ≠ [] := ne_nil_of_file file
    by_cases same : k = l
    · rw [same, get?_erase_same inner] at found
      cases found
    · rw [get?_erase_other same] at found
      have parent := wf.enclosed k n found
      rw [get?_erase_other fun same => by simp [same, file] at parent]
      exact parent
  here := by
    have other : fs.current ≠ l := fun same => by simp [← same, wf.here] at file
    exact (get?_erase_other other).trans wf.here

theorem WellFormed.put (wf : fs.WellFormed) {n : Node} (parent : fs.get? l.dropLast = some .directory)
    (free : fs.get? l ≠ some .directory) : (fs.put l n).WellFormed where
  unique := unique_put wf.unique l n
  enclosed := by
    have inner : l ≠ [] := ne_nil_of_get? free
    have other : ∀ k, fs.get? k = some .directory → (fs.put l n).get? k = some .directory := by
      intro k found
      have apart : k ≠ l := fun same => free (same ▸ found)
      exact (get?_put_other apart).trans found
    intro k m found
    by_cases same : k = l
    · exact same ▸ other _ parent
    · rw [get?_put_other same] at found
      exact other _ (wf.enclosed k m found)
  here := by
    have other : fs.current ≠ l := fun same => free (same ▸ wf.here)
    exact (get?_put_other other).trans wf.here

/-! ### Where a path leads -/

theorem stepTo_plain (plain : IsPlain name) : stepTo d name = d ++ [name] := by
  simp [stepTo, plain.dot, plain.dots]

theorem follow_cons {rest : List String} :
    fs.follow d (name :: rest) = .ok l ↔
      fs.get? d = some .directory ∧ name.utf8ByteSize ≤ nameLimit ∧
        fs.follow (stepTo d name) rest = .ok l := by
  rw [follow]
  split
  · simp [*]
  · simp [*]
  · rename_i directory
    by_cases long : nameLimit < name.utf8ByteSize
    · simp [long, directory, Nat.not_le.mpr long]
    · simp [long, directory, Nat.not_lt.mp long]

theorem follow_concat {front : List String} :
    fs.follow l (front ++ [name]) = .ok d ↔
      ∃ k, fs.follow l front = .ok k ∧ fs.get? k = some .directory ∧
        name.utf8ByteSize ≤ nameLimit ∧ d = stepTo k name := by
  induction front generalizing l with
  | nil =>
    rw [List.nil_append, follow_cons]
    simp [follow, eq_comm]
  | cons piece rest ih =>
    simp only [List.cons_append, follow_cons, ih]
    grind

/-- Directories are never given up. -/
def Grows (fs gs : Files) : Prop :=
  gs.current = fs.current ∧ ∀ l, fs.get? l = some .directory → gs.get? l = some .directory

theorem Grows.refl (fs : Files) : fs.Grows fs := ⟨rfl, fun _ h => h⟩

theorem Grows.trans {hs : Files} (first : fs.Grows gs) (second : gs.Grows hs) : fs.Grows hs :=
  ⟨second.1.trans first.1, fun l h => second.2 l (first.2 l h)⟩

theorem Grows.follow (grows : fs.Grows gs) {pieces : List String}
    (led : fs.follow d pieces = .ok l) : gs.follow d pieces = .ok l := by
  induction pieces generalizing d with
  | nil => exact led
  | cons piece rest ih =>
    obtain ⟨directory, short, led⟩ := follow_cons.mp led
    exact follow_cons.mpr ⟨grows.2 _ directory, short, ih led⟩

/-- Where the pieces of a path start from. -/
def startOf (fs : Files) (p : Path) : Location := if p.isAbsolute then [] else fs.current

theorem locate_ok : fs.locate p = .ok l ↔
    p.text ≠ "" ∧ (∀ c ∈ p.text.toList, c.toNat ≠ 0) ∧
      fs.follow (fs.startOf p) (piecesOf p) = .ok l := by
  unfold locate startOf
  by_cases empty : p.text = ""
  · simp [empty]
  · by_cases nul : ∃ c ∈ p.text.toList, c.toNat = 0
    · simp only [empty, String.isEmpty_iff, if_false, List.any_eq_true, beq_iff_eq, nul, if_true]
      simp only [reduceCtorEq, false_iff, not_and]
      intro _ clean
      obtain ⟨c, member, zero⟩ := nul
      exact absurd zero (clean c member)
    · have clean : ∀ c ∈ p.text.toList, c.toNat ≠ 0 := fun c member zero => nul ⟨c, member, zero⟩
      simp only [empty, String.isEmpty_iff, if_false, List.any_eq_true, beq_iff_eq, nul, ne_eq,
        not_false_eq_true, true_and, iff_and_self]
      exact fun _ => clean

/-- A path that leads somewhere leads there for good. -/
theorem Grows.locate (grows : fs.Grows gs) (led : fs.locate p = .ok l) : gs.locate p = .ok l := by
  obtain ⟨full, clean, led⟩ := locate_ok.mp led
  refine locate_ok.mpr ⟨full, clean, ?_⟩
  rw [startOf, grows.1]
  exact grows.follow led

theorem find_ok {n : Node} : fs.find p = .ok (l, n) ↔
    fs.locate p = .ok l ∧ fs.get? l = some n ∧ (n ≠ .directory → endsInSlash p = false) := by
  unfold find
  cases led : fs.locate p with
  | error fault => simp [bind, Except.bind]
  | ok k =>
    simp only [bind, Except.bind, pure, Except.pure, Except.ok.injEq]
    cases found : fs.get? k with
    | none => grind
    | some node =>
      cases node with
      | directory =>
        simp only [Except.ok.injEq, Prod.mk.injEq]
        grind
      | file bytes =>
        by_cases slash : endsInSlash p = true
        · simp only [slash, if_true, reduceCtorEq, false_iff]
          grind
        · simp only [slash, Bool.false_eq_true, if_false, Except.ok.injEq, Prod.mk.injEq]
          grind

theorem kindAt_directory : fs.kindAt p = some .directory ↔ ∃ l, fs.find p = .ok (l, .directory) := by
  unfold kindAt
  cases found : fs.find p with
  | error fault => simp
  | ok entry =>
    obtain ⟨k, node⟩ := entry
    cases node <;> simp [Node.kind]

/-- A path to a directory leads to it as long as directories only come. -/
theorem Grows.find (grows : fs.Grows gs) (there : fs.find p = .ok (l, .directory)) :
    gs.find p = .ok (l, .directory) := by
  obtain ⟨led, directory, slash⟩ := find_ok.mp there
  exact find_ok.mpr ⟨grows.locate led, grows.2 l directory, slash⟩

theorem Grows.kindAt (grows : fs.Grows gs) (there : fs.kindAt p = some .directory) :
    gs.kindAt p = some .directory := by
  obtain ⟨l, found⟩ := kindAt_directory.mp there
  exact kindAt_directory.mpr ⟨l, grows.find found⟩

theorem read_ok {bytes : ByteArray} : fs.read p = .ok bytes ↔ ∃ l, fs.find p = .ok (l, .file bytes) := by
  unfold read
  cases found : fs.find p with
  | error fault => simp [bind, Except.bind]
  | ok entry =>
    obtain ⟨l, n⟩ := entry
    cases n <;> simp [bind, Except.bind, pure, Except.pure]

/-- A path with a plain last piece leads to a place with that name in a directory. -/
theorem locate_plain {front : List String} (pieces : piecesOf p = front ++ [name])
    (plain : IsPlain name) (led : fs.locate p = .ok l) :
    ∃ d, l = d ++ [name] ∧ fs.get? d = some .directory ∧ fs.follow (fs.startOf p) front = .ok d := by
  obtain ⟨_, _, led⟩ := locate_ok.mp led
  rw [pieces] at led
  obtain ⟨d, inside, directory, _, rfl⟩ := follow_concat.mp led
  exact ⟨d, stepTo_plain plain, directory, inside⟩

/-- A file can have the name. -/
structure Fits (name : String) : Prop where
  short : name.utf8ByteSize ≤ nameLimit
  clean : ∀ c ∈ name.toList, c.toNat ≠ 0

/-- A name that is joined to a path to a directory leads into it. -/
theorem locate_join {dir : Path} (full : dir.text ≠ "") (plain : IsPlain name) :
    fs.locate (dir.join ⟨name⟩) = .ok l ↔
      ∃ d, fs.locate dir = .ok d ∧ fs.get? d = some .directory ∧ Fits name ∧ l = d ++ [name] := by
  obtain ⟨text, clean, start⟩ := Path.join_full full plain
  rw [locate_ok, clean, Path.piecesOf_join dir plain, follow_concat, startOf, start]
  constructor
  · rintro ⟨_, ⟨clean, clean'⟩, d, led, directory, short, same⟩
    exact ⟨d, locate_ok.mpr ⟨full, clean, led⟩, directory, ⟨short, clean'⟩,
      same.trans (stepTo_plain plain)⟩
  · rintro ⟨d, led, directory, ⟨short, clean'⟩, same⟩
    obtain ⟨_, clean, led⟩ := locate_ok.mp led
    exact ⟨text, ⟨clean, clean'⟩, d, led, directory, short, same.trans (stepTo_plain plain).symm⟩

/-- Where a path leads there is a directory, or the path ends in a plain name. -/
theorem WellFormed.plain_of_locate (wf : fs.WellFormed) (led : fs.locate p = .ok l)
    (free : fs.get? l ≠ some .directory) :
    ∃ front name, piecesOf p = front ++ [name] ∧ IsPlain name := by
  obtain ⟨_, _, led⟩ := locate_ok.mp led
  rcases List.eq_nil_or_concat (piecesOf p) with none | ⟨front, name, pieces⟩
  · rw [none, follow] at led
    cases led
    exfalso
    apply free
    rw [startOf]
    split
    · exact get?_nil
    · exact wf.here
  · rw [List.concat_eq_append] at pieces
    refine ⟨front, name, pieces, ?_⟩
    rw [pieces] at led
    obtain ⟨d, _, directory, _, rfl⟩ := follow_concat.mp led
    have member : name ∈ piecesOf p := by simp [pieces]
    refine ⟨(Path.mem_piecesOf member).1, (Path.mem_piecesOf member).2, ?_, ?_⟩
    · rintro rfl
      exact free (by simpa [stepTo] using directory)
    · rintro rfl
      exact free (by simpa [stepTo] using wf.enclosed _ _ directory)

/-! ### What an operation that succeeds does -/

theorem makeDirectory_ok : fs.makeDirectory p = .ok gs ↔
    ∃ l, fs.locate p = .ok l ∧ fs.get? l = none ∧ gs = fs.put l .directory := by
  unfold makeDirectory
  cases led : fs.locate p with
  | error fault => simp [bind, Except.bind]
  | ok k =>
    cases found : fs.get? k <;> simp [bind, Except.bind, pure, Except.pure, found, eq_comm]

theorem create_ok : fs.create p = .ok gs ↔
    ∃ l, fs.locate p = .ok l ∧ fs.get? l ≠ some .directory ∧ endsInSlash p = false ∧
      gs = fs.put l (.file .empty) := by
  unfold create
  cases led : fs.locate p with
  | error fault => simp [bind, Except.bind]
  | ok k =>
    cases found : fs.get? k with
    | none =>
      cases slash : endsInSlash p <;>
        simp [bind, Except.bind, pure, Except.pure, found, eq_comm]
    | some node =>
      cases node <;> cases slash : endsInSlash p <;>
        simp [bind, Except.bind, pure, Except.pure, found, eq_comm]

theorem write_ok {bytes : ByteArray} : fs.write p bytes = .ok gs ↔
    ∃ l old, fs.find p = .ok (l, .file old) ∧ gs = fs.put l (.file bytes) := by
  unfold write
  cases found : fs.find p with
  | error fault => simp [bind, Except.bind]
  | ok entry =>
    obtain ⟨k, node⟩ := entry
    cases node <;> simp [bind, Except.bind, pure, Except.pure, eq_comm]

theorem remove_ok : fs.remove p = .ok gs ↔
    ∃ l old, fs.find p = .ok (l, .file old) ∧ gs = fs.erase l := by
  unfold remove
  cases found : fs.find p with
  | error fault => simp [bind, Except.bind]
  | ok entry =>
    obtain ⟨k, node⟩ := entry
    cases node <;> simp [bind, Except.bind, pure, Except.pure, eq_comm]

theorem rename_ok {source target : Path} : fs.rename source target = .ok gs ↔
    ∃ k l bytes, fs.locate target = .ok k ∧ endsInDots target = false ∧
      fs.find source = .ok (l, .file bytes) ∧ endsInSlash target = false ∧
      fs.get? k ≠ some .directory ∧
      gs = if l = k then fs else (fs.erase l).put k (.file bytes) := by
  unfold rename
  cases led : fs.locate target with
  | error fault => simp [bind, Except.bind]
  | ok k =>
    cases dots : endsInDots target with
    | true => simp [bind, Except.bind]
    | false =>
      cases found : fs.find source with
      | error fault => simp [bind, Except.bind]
      | ok entry =>
        obtain ⟨l, node⟩ := entry
        cases node with
        | directory => simp [bind, Except.bind]
        | file bytes =>
          cases slash : endsInSlash target with
          | true => simp [bind, Except.bind]
          | false =>
            by_cases there : fs.get? k = some .directory
            · simp [bind, Except.bind, there]
            · simp only [bind, Except.bind, pure, Except.pure, Bool.false_eq_true, if_false,
                beq_iff_eq]
              constructor
              · intro done
                exact ⟨k, l, bytes, rfl, trivial, rfl, trivial, there, (Except.ok.inj done).symm⟩
              · rintro ⟨_, _, _, ⟨⟩, -, ⟨⟩, -, -, rfl⟩
                rfl

end SourceRepair.Disk.Files
