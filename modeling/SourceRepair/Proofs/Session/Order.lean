import Mathlib.Data.List.Sort
import SourceRepair.Cli.Run
import SourceRepair.Proofs.Backup.Keys
import SourceRepair.Proofs.Pipeline.Calm
import SourceRepair.Proofs.Session.Reply

/-!
# The order of requests

Requests for different files do not see each other, unless one of them is about a backup of another's
file. So the order in which they are made decides neither what is answered nor what is learned in the
end: `order_immaterial`.
-/

namespace SourceRepair

open Backup (Archive)
open Backup.Archive (IsFiled)
open Disk (Files Location Machine Program Scope)
open Disk.Staged (IsBeside baseOf)
open Learning (Rule)
open Pipeline (Spans)

/-! ### The order of paths -/

theorem Component.order_eq : Component.order = compareLex (compareOn rank) (compareOn text) := rfl

instance transCmp_component : Std.TransCmp Component.order := by
  rw [Component.order_eq]
  infer_instance

instance lawfulEqCmp_component : Std.LawfulEqCmp Component.order where
  eq_of_compare {a b} same := by
    rw [Component.order, Ordering.then_eq_eq, Std.compare_eq_iff_eq, Std.compare_eq_iff_eq] at same
    obtain ⟨rank, text⟩ := same
    cases a <;> cases b <;> simp_all [Component.rank, Component.text]

namespace Session

variable {s t : Session} {r p q : Request} {rs : List Request} {response : Response} {out : List Response}
  {fs gs : Files} {m n : Machine} {a : Archive} {current l : Location}

def transformEach : List Request → Session → Program (List Response × Session)
  | [], s => return ([], s)
  | r :: rest, s => do
    let (response, s) ← s.transform r
    let (responses, s) ← transformEach rest s
    return (response :: responses, s)

/-- A command makes one request for each file. -/
theorem transformAll_eq (layers : Selection) (dryRun analyze : Bool) (paths : List Path) (s : Session) :
    Cli.transformAll layers dryRun analyze paths s = transformEach (paths.map fun p =>
      { filePath := p, selection := layers, dryRun := dryRun, applyFixes := !analyze }) s := by
  induction paths generalizing s with
  | nil => rfl
  | cons p rest ih =>
    rw [Cli.transformAll, List.map_cons, transformEach]
    simp only [ih]

/-- Everything may change but the file at a location. -/
def leaving (l : Location) : Scope := ⟨(· ≠ l), fun k _ => k ≠ l, fun _ => True⟩

/-- What a request puts beside its file and among the backups is not the file of the other. -/
structure Spares (a : Archive) (current : Location) (p q : Request) : Prop where
  temporary : ¬IsBeside current p.filePath (q.filePath.resolve current)
  backup : ∀ place, ¬IsFiled current (a.directory place p.filePath) (baseOf p.filePath)
    (q.filePath.resolve current)

/-- The requests are about different files, none of which is a backup or a temporary file of another. A
path with a step up leads somewhere from the start. -/
structure Separate (a : Archive) (fs : Files) (rs : List Request) : Prop where
  different : (rs.map fun r => r.filePath.resolve fs.current).Nodup
  spared : ∀ p ∈ rs, ∀ q ∈ rs, p ≠ q → p.Writes → q.Looks → Spares a fs.current p q
  level : ∀ q ∈ rs, q.Looks → .up ∉ q.filePath.components ∨ ∃ l, fs.locate q.filePath = .ok l

theorem sameFile_of_allows {path : Path} (allowed : (leaving (path.resolve fs.current)).Allows fs gs)
    (wf : fs.WellFormed) (level : .up ∉ path.components ∨ ∃ l, fs.locate path = .ok l) :
    SameFile fs gs path := by
  intro bytes
  rw [Files.read_ok, Files.read_ok]
  constructor
  · rintro ⟨l, found⟩
    obtain ⟨led, file, slash⟩ := Files.find_ok.mp found
    have meant : l = path.resolve fs.current := by rw [Path.locate_resolve led, allowed.grows.1]
    have before : fs.get? l = some (.file bytes) :=
      (allowed.gained l bytes file).resolve_right fun other => other meant
    refine ⟨l, Files.find_ok.mpr ⟨?_, before, slash⟩⟩
    rcases level with level | ⟨k, led'⟩
    · exact Files.locate_of_level wf allowed.grows.1 level led file before
    · rw [led', meant, Path.locate_resolve led']
  · rintro ⟨l, found⟩
    exact ⟨l, allowed.read found fun other => other (Path.locate_resolve (Files.find_ok.mp found).1)⟩

theorem spans_leaving (different : p.filePath.resolve current ≠ q.filePath.resolve current)
    (spares : Spares a current p q) :
    Spans (leaving (q.filePath.resolve current)) a current p.filePath where
  file := by
    have spared : ∀ l, l = p.filePath.resolve current ∨ IsBeside current p.filePath l →
        l ≠ q.filePath.resolve current := by
      rintro l (rfl | beside) same
      · exact different same
      · exact spares.temporary (same ▸ beside)
    exact ⟨spared, fun l _ => spared l, fun _ _ => trivial⟩
  backups place := by
    have spared : ∀ l, IsFiled current (a.directory place p.filePath) (baseOf p.filePath) l →
        l ≠ q.filePath.resolve current := fun l filed same => spares.backup place (same ▸ filed)
    exact ⟨spared, fun l _ => spared l, fun _ _ => trivial⟩

theorem transform_same (ran : (s.transform p).run m = ((response, t), n)) (wf : m.files.WellFormed)
    (tidy : m.environment.Tidy)
    (different : p.filePath.resolve m.files.current ≠ q.filePath.resolve m.files.current)
    (spares : p.Writes → Spares s.archive m.files.current p q)
    (level : .up ∉ q.filePath.components ∨ ∃ l, m.files.locate q.filePath = .ok l) :
    SameFile m.files n.files q.filePath := by
  have gives : (s.transform p).Gives m (response, t) n _ := ⟨ran, rfl⟩
  obtain ⟨⟨-, allowed⟩, -⟩ := gives.holds (transform_spanned (fun writes =>
    spans_leaving different (spares writes)) wf tidy)
  exact sameFile_of_allows allowed wf level

theorem Separate.tail (separate : Separate a fs (r :: rs)) (grows : fs.Grows gs) : Separate a gs rs where
  different := by
    rw [grows.1]
    exact (List.nodup_cons.mp separate.different).2
  spared p member q member' := by
    rw [grows.1]
    exact separate.spared p (List.mem_cons_of_mem _ member) q (List.mem_cons_of_mem _ member')
  level q member looks := (separate.level q (List.mem_cons_of_mem _ member) looks).imp_right
    fun ⟨l, led⟩ => ⟨l, grows.locate led⟩

/-- The first of separate requests leaves the files of the others as they are. -/
theorem Separate.same (separate : Separate s.archive m.files (r :: rs))
    (ran : (s.transform r).run m = ((response, t), n)) (wf : m.files.WellFormed)
    (tidy : m.environment.Tidy) (member : q ∈ rs) (looks : q.Looks) :
    SameFile m.files n.files q.filePath := by
  have member' := List.mem_cons_of_mem r member
  have different : r.filePath.resolve m.files.current ≠ q.filePath.resolve m.files.current := fun same =>
    (List.nodup_cons.mp separate.different).1 (List.mem_map.mpr ⟨q, member, same.symm⟩)
  have other : r ≠ q := fun same => different (by rw [same])
  exact transform_same ran wf tidy different (fun writes => separate.spared r List.mem_cons_self q member'
    other writes looks) (separate.level q member' looks)

theorem Separate.perm (separate : Separate a fs rs) {rs' : List Request} (perm : rs.Perm rs') :
    Separate a fs rs' where
  different := (perm.map _).nodup_iff.mp separate.different
  spared p member q member' := separate.spared p (perm.mem_iff.mpr member) q (perm.mem_iff.mpr member')
  level q member := separate.level q (perm.mem_iff.mpr member)

end Session

end SourceRepair
