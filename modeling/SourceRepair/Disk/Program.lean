import SourceRepair.Disk.Fault
import SourceRepair.Path
import SourceRepair.Recovery.Resources

/-!
# Programs that use the machine

A program is a tree: it is done, or it asks the machine for one action and goes on with the reply.
What an action does is not said here, so the same program runs on a real machine and on a modelled
one.
-/

namespace SourceRepair.Disk

/-- Milliseconds, counted in nanoseconds. -/
def nanoseconds (milliseconds : Nat) : Nat := 1000000 * milliseconds

-- Named here, so that it is the same whatever else is in scope.
instance decidableEqBytes : DecidableEq ByteArray := ByteArray.instDecidableEq

/-- What stands at a path. -/
inductive NodeKind where
  | file
  | directory
deriving DecidableEq, Repr, Inhabited

inductive Action where
  /-- The time since some fixed moment, in nanoseconds. -/
  | now
  /-- The time of the calendar, in milliseconds. -/
  | calendar
  /-- A look at the resources of the machine. -/
  | sample
  /-- A random number from zero to `most`. -/
  | random (most : Nat)
  /-- Waits for some milliseconds. -/
  | pause (milliseconds : Nat)
  /-- A text that is made up once and never again. -/
  | nonce
  | currentDirectory
  | kind (path : Path)
  | read (path : Path)
  /-- The names in a directory. -/
  | list (path : Path)
  | makeDirectory (path : Path)
  /-- Puts an empty file at a path. -/
  | create (path : Path)
  | write (path : Path) (bytes : ByteArray)
  | sync (path : Path)
  | rename (source target : Path)
  | remove (path : Path)
deriving DecidableEq, Inhabited

/-- The type of the reply to an action. -/
@[reducible] def Action.Reply : Action → Type
  | now | calendar | random _ => Nat
  | sample => Recovery.Snapshot
  | pause _ => Unit
  | nonce => String
  | currentDirectory => Path
  | kind _ => Option NodeKind
  | read _ => Except Fault ByteArray
  | list _ => Except Fault (List String)
  | makeDirectory _ | create _ | write _ _ | sync _ | rename _ _ | remove _ => Except Fault Unit

inductive Program (α : Type) where
  | done (result : α)
  | step (action : Action) (next : action.Reply → Program α)

namespace Program

variable {α β : Type}

/-- Goes on with the result of a program. -/
def bind : Program α → (α → Program β) → Program β
  | done a, f => f a
  | step action next, f => step action fun reply => (next reply).bind f

instance : Monad Program where
  pure := done
  bind := bind

@[simp] theorem done_bind (a : α) (f : α → Program β) : (done a).bind f = f a := rfl

theorem bind_done (p : Program α) : p.bind done = p := by
  induction p with
  | done a => rfl
  | step action next ih => simp only [bind, ih]

theorem bind_bind {γ : Type} (p : Program α) (f : α → Program β) (g : β → Program γ) :
    (p.bind f).bind g = p.bind fun a => (f a).bind g := by
  induction p with
  | done a => rfl
  | step action next ih => simp only [bind, ih]

instance : LawfulMonad Program :=
  LawfulMonad.mk' Program (fun p => bind_done p) (fun _ _ => rfl) (fun p f g => bind_bind p f g)

/-! ### Single actions -/

/-- One action. -/
def perform (action : Action) : Program action.Reply := step action done

def now : Program Nat := perform .now

def calendar : Program Nat := perform .calendar

def sample : Program Recovery.Snapshot := perform .sample

def random (most : Nat) : Program Nat := perform (.random most)

def pause (milliseconds : Nat) : Program Unit := perform (.pause milliseconds)

def nonce : Program String := perform .nonce

def currentDirectory : Program Path := perform .currentDirectory

def kind (path : Path) : Program (Option NodeKind) := perform (.kind path)

def read (path : Path) : Program (Except Fault ByteArray) := perform (.read path)

def list (path : Path) : Program (Except Fault (List String)) := perform (.list path)

def makeDirectory (path : Path) : Program (Except Fault Unit) := perform (.makeDirectory path)

def create (path : Path) : Program (Except Fault Unit) := perform (.create path)

def write (path : Path) (bytes : ByteArray) : Program (Except Fault Unit) :=
  perform (.write path bytes)

def sync (path : Path) : Program (Except Fault Unit) := perform (.sync path)

def rename (source target : Path) : Program (Except Fault Unit) := perform (.rename source target)

def remove (path : Path) : Program (Except Fault Unit) := perform (.remove path)

/-! ### Questions and readings -/

/-- There is a file at the path. -/
def isFile (path : Path) : Program Bool := return (← kind path) == some .file

/-- There is a directory at the path. -/
def isDirectory (path : Path) : Program Bool := return (← kind path) == some .directory

/-- There is something at the path. -/
def isPresent (path : Path) : Program Bool := return (← kind path).isSome

/-- The bytes of a file are no text. -/
def notText : Fault := .custom .invalidData "stream did not contain valid UTF-8"

/-- The text of some bytes. -/
def textOf (bytes : ByteArray) : Except Fault String :=
  match String.fromUTF8? bytes with
  | some text => .ok text
  | none => .error notText

/-- The text of a file. -/
def readText (path : Path) : Program (Except Fault String) :=
  return (← read path) >>= textOf

/-! ### Directories -/

/-- Makes the first of these directories, each in the next, after making the others. -/
def makeInside : List Path → Program (Except Fault Unit)
  | [] => return .ok ()
  | path :: outer => do
    match ← makeDirectory path with
    | .ok () => return .ok ()
    | .error fault =>
      if fault.kind == .notFound then
        match ← makeInside outer with
        | .error fault => return .error fault
        | .ok () =>
          match ← makeDirectory path with
          | .ok () => return .ok ()
          | .error fault => return if ← isDirectory path then .ok () else .error fault
      else return if ← isDirectory path then .ok () else .error fault

/-- Makes a directory and all that it lies in. A directory that is there is fine. -/
def makeDirectories (path : Path) : Program (Except Fault Unit) := makeInside path.enclosing

end Program

end SourceRepair.Disk
