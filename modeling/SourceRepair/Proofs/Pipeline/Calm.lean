import SourceRepair.Proofs.Backup.Calm
import SourceRepair.Proofs.Pipeline.Course

/-!
# Runs without faults

Where nothing stands in its way the first write of a run succeeds and no failure is recorded,
`Pipeline.runLayers_write`. A small machine on which it is so serves for concrete runs.
-/

namespace SourceRepair

namespace Pipeline

open Backup (Archive IsDigest fileName)
open Disk (Environment Files IsNonce Location Machine Node Program)
open Disk.Files (Fits)
open Disk.Staged (Clear baseOf directoryOf temporaryName temporaryPath)
open Disk.Program (HoldsFrom holdsFrom_bind holdsFrom_pure)

variable {a : Archive} {file : SourceFile} {start text : String} {books : Bookkeeping} {m : Machine}

theorem writeLayer_succeeds {l : LayerResult} (free : a.Open .primary file.path books.stamp m)
    (there : m.files.read file.path = .ok text.toUTF8)
    (admitted : ∀ now, (books.handler.acquire .io now).1 = true) :
    HoldsFrom (fun _ => True) (fun r books' _ => (∃ receipt, r = .ok receipt) ∧
      books'.handler.made = books.handler.made) (writeLayer a file.path l) books m := by
  rw [HoldsFrom, run_writeLayer]
  refine Program.Holds.bind (Recovery.Handler.execute_succeeds admitted fun k same => ?_) ?_
  · exact Archive.write_succeeds (free.of_same same) (same.1 ▸ there)
  · rintro r k _ ⟨done, made⟩
    exact .pure trivial ⟨done, made⟩

/-- What holds of the rest of a run behind a first write holds of all of it. -/
theorem runLayers_write {layer : Layer} {rest : List Layer} {s : Standing}
    {Q : Standing → Bookkeeping → Machine → Prop} (free : a.Open .primary file.path books.stamp m)
    (there : m.files.read file.path = .ok text.toUTF8)
    (admitted : ∀ now, (books.handler.acquire .io now).1 = true)
    (success : (layer.run file s.code).success = true) (changed : (layer.run file s.code).changed = true)
    (next : ∀ receipt books' n, books'.handler.made = books.handler.made →
      HoldsFrom (fun _ => True) Q
        (runLayers a file start true rest (s.written (layer.run file s.code) receipt)) books' n) :
    HoldsFrom (fun _ => True) Q (runLayers a file start true (layer :: rest) s) books m := by
  rw [runLayers]
  simp only [Bool.not_true, Bool.false_eq_true, if_false, success, changed]
  refine holdsFrom_bind (writeLayer_succeeds free there admitted) ?_
  rintro r books' n _ ⟨⟨receipt, rfl⟩, made⟩
  exact next receipt books' n made

/-! ### A small machine -/

/-- An environment without surprises. -/
def stillness : Environment where
  now _ := 0
  calendar _ := 0
  sample _ := default
  random _ := 0
  nonce _ := "0123456789abcdef0123456789abcdef"
  fault _ := none
  stored _ bytes := bytes

/-- A machine with one file, in the root. -/
def smallMachine (name content : String) : Machine := ⟨⟨[([name], .file content.toUTF8)], []⟩, stillness, 0, 0⟩

/-- An archive that keeps all backups, those of the root in the root itself. -/
def smallArchive : Archive := ⟨⟨"/"⟩, ⟨"/alternate"⟩, ⟨"/"⟩, 0⟩

def smallFile : SourceFile := ⟨⟨"/a.json"⟩, .json false, none⟩

theorem isNonce_still : IsNonce "0123456789abcdef0123456789abcdef" := ⟨by decide, by simp⟩

theorem stillness_calm : stillness.Calm where
  healthy _ := rfl
  faithful _ _ := rfl
  tidy _ := isNonce_still

variable {name name' content : String} {l : Location}

theorem get?_smallMachine {node : Node} (found : (smallMachine name content).files.get? l = some node) :
    l = [] ∧ node = .directory ∨ l = [name] ∧ node = .file content.toUTF8 := by
  by_cases root : l = []
  · subst root
    cases found
    exact .inl ⟨rfl, rfl⟩
  · rw [Files.get?_of_ne_nil root, smallMachine, List.lookup_cons] at found
    by_cases same : l = [name]
    · subst same
      simp only [beq_self_eq_true, Option.some.injEq] at found
      exact .inr ⟨rfl, found.symm⟩
    · rw [beq_false_of_ne same] at found
      cases found

theorem smallMachine_wellFormed : (smallMachine name content).files.WellFormed where
  unique := by simp [smallMachine]
  enclosed l node found := by
    rcases get?_smallMachine found with ⟨rfl, _⟩ | ⟨rfl, _⟩ <;> rfl
  here := rfl

/-- The directory of a name in the root is the root. -/
theorem directoryOf_root (plain : Path.IsPlain name) : directoryOf ((⟨"/"⟩ : Path).join ⟨name⟩) = ⟨"/"⟩ := by
  have joined : (⟨"/"⟩ : Path).join ⟨name⟩ = ⟨"/" ++ name⟩ := by
    rw [Path.join, plain.not_absolute, Bool.false_or, if_neg (by decide), if_pos (by decide)]
  have pieces : Text.pieces '/' ("/" ++ name).toList = [[], name.toList] := by
    have whole : ("/" ++ name).toList = [] ++ '/' :: name.toList := by simp
    rw [whole, Text.pieces_append, Text.pieces_plain plain.slash]
    rfl
  have absolute : (⟨"/" ++ name⟩ : Path).isAbsolute = true := by simp [Path.isAbsolute]
  have void : Path.component? [] = none := rfl
  have components : (⟨"/" ++ name⟩ : Path).components = [.root, .name name] := by
    simp only [Path.components, pieces, absolute, if_true, List.filterMap_cons, void,
      Path.component?_plain plain, List.filterMap_nil]
  have parent : (⟨"/" ++ name⟩ : Path).parent? = some ⟨"/"⟩ := by
    have last : Path.dropLastPiece [name.toList] = [] := by
      have nothing : Path.trimVoid [] = [] := rfl
      have some : Path.trimVoid [name.toList] = [name.toList] := by
        simp [Path.trimVoid, Path.isVoid, plain.toList_ne_nil, plain.toList_ne_dot]
      rw [Path.dropLastPiece, some, List.dropLast_singleton, nothing]
    simp only [Path.parent?, components, pieces, absolute, if_true, List.getLast?_cons_cons,
      List.getLast?_singleton, last]
    rfl
  rw [joined, directoryOf, parent]
  rfl

theorem locate_smallMachine (plain : Path.IsPlain name') (fits : Fits name') :
    (smallMachine name content).files.locate ((⟨"/"⟩ : Path).join ⟨name'⟩) = .ok [name'] :=
  (Files.locate_join (by decide) plain).mpr ⟨[], rfl, rfl, fits, rfl⟩

/-- Only the root is a directory. -/
theorem not_directory_smallMachine : (smallMachine name content).files.get? [name'] ≠ some .directory := by
  intro directory
  rcases get?_smallMachine directory with ⟨inner, _⟩ | ⟨_, other⟩
  · cases inner
  · cases other

theorem clear_smallMachine {base : String} (plain : Path.IsPlain base)
    (short : base.utf8ByteSize + 38 ≤ Files.nameLimit) (clean : ∀ c ∈ base.toList, c.toNat ≠ 0) :
    Clear (smallMachine name content).files ((⟨"/"⟩ : Path).join ⟨base⟩) := by
  have based : baseOf ((⟨"/"⟩ : Path).join ⟨base⟩) = base :=
    Disk.Staged.baseOf_eq (Path.fileName?_of_pieces (Path.piecesOf_join _ plain) plain)
  have temporary : ∀ nonce, IsNonce nonce → (smallMachine name content).files.locate
      (temporaryPath ((⟨"/"⟩ : Path).join ⟨base⟩) nonce) = .ok [temporaryName base nonce] := by
    intro nonce made
    rw [Disk.Staged.temporaryPath_eq, directoryOf_root plain, based]
    exact locate_smallMachine (Disk.Staged.isPlain_temporaryName plain.slash made)
      ((Disk.Staged.fits_temporaryName made).mpr ⟨short, clean⟩)
  refine ⟨⟨?_, _, _, isNonce_still, temporary _ isNonce_still⟩, fun nonce made there => ?_, ?_, ?_⟩
  · rw [directoryOf_root plain]
    rfl
  · obtain ⟨l, found⟩ := Files.kindAt_directory.mp there
    obtain ⟨led, directory, _⟩ := Files.find_ok.mp found
    cases led.symm.trans (temporary nonce made)
    exact not_directory_smallMachine directory
  · have fits : Fits base := ⟨by omega, clean⟩
    exact ⟨_, locate_smallMachine plain fits, not_directory_smallMachine⟩
  · exact Path.endsInSlash_join _ plain

theorem open_smallMachine :
    smallArchive.Open .primary smallFile.path 0 (smallMachine "a.json" content) where
  calm := stillness_calm
  sound := smallMachine_wellFormed
  uncapped := rfl
  clear := clear_smallMachine (⟨by decide, by decide, by decide, by decide⟩ : Path.IsPlain "a.json")
    (by decide) (by simp)
  room := by
    rintro t hash ⟨i, rfl⟩ digest
    have directory : smallArchive.directory .primary smallFile.path = ⟨"/"⟩ := by decide
    have based : baseOf smallFile.path = "a.json" := by decide
    have dated : max ((smallMachine "a.json" content).environment.calendar i) (0 + 1) = 1 := rfl
    have first : fileName "a.json" 1 hash = "a.json.1." ++ hash := by
      have front : "a.json" ++ "." ++ toString 1 ++ "." = "a.json.1." := by decide
      rw [← front]
      rfl
    have front : "a.json.1.".utf8ByteSize = 9 := by decide
    have back : hash.utf8ByteSize = 16 := by
      rw [Disk.Staged.utf8ByteSize_of_digits digest.digits, digest.length]
    have plain : Path.IsPlain ("a.json.1." ++ hash) :=
      first ▸ Backup.isPlain_fileName (by decide) digest
    have clean : ∀ c ∈ ("a.json.1." ++ hash).toList, c.toNat ≠ 0 := by
      have start : ∀ c ∈ "a.json.1.".toList, c.toNat ≠ 0 := by simp
      have digits : ∀ c ∈ "0123456789abcdef".toList, c.toNat ≠ 0 := by simp
      intro c member
      rcases List.mem_append.mp (String.toList_append ▸ member) with inside | inside
      · exact start c inside
      · exact digits c (digest.digits c inside)
    have short : ("a.json.1." ++ hash).utf8ByteSize + 38 ≤ Files.nameLimit := by
      rw [String.utf8ByteSize_append, front, back]
      decide
    rw [dated, directory, based, Archive.backupPath, first]
    exact clear_smallMachine plain short clean

end Pipeline

end SourceRepair
