import Mathlib.Algebra.GroupWithZero.Nat
import SourceRepair.Proofs.Pipeline.Preview

/-!
# The response adds up

A response is put together layer by layer. At every end of a run, whether it went through, stopped at
a layer or at a write, or took back what it wrote, its counts and changes are those of its layers, it
carries an error exactly if it failed, and its code is that of the last layer or the text that the run
started with. What one more layer keeps is said by `Standing.Sound.advance`.
-/

namespace SourceRepair

/-- The result counts its changes, and carries an error exactly if it failed. -/
structure LayerResult.Balanced (l : LayerResult) : Prop where
  count : l.changeCount = l.changes.length
  error : l.success = false ↔ l.error.isSome = true

/-- The response says of its layers together what they say one by one. -/
structure Response.Balanced (r : Response) : Prop where
  layers : ∀ l ∈ r.layers, l.Balanced
  changes : r.changes = r.layers.flatMap (·.changes)
  count : r.changeCount = (r.layers.map (·.changeCount)).sum
  success : r.success = r.layers.all (·.success)
  error : r.success = false ↔ r.error.isSome = true

/-- A response counts its changes if its layers count theirs. -/
theorem Response.Balanced.length {r : Response} (balanced : r.Balanced) :
    r.changeCount = r.changes.length := by
  rw [balanced.count, balanced.changes, List.length_flatMap]
  exact congrArg List.sum (List.map_congr_left fun l member => (balanced.layers l member).count)

namespace Pipeline

open Backup (Archive Receipt)
open Disk (Machine Move Program)

/-- The text after some results: that of the last, or the text before the first. -/
def textAfter (start : String) (ls : List LayerResult) : String :=
  (ls.getLast?.map (·.code)).getD start

/-- Each result took up the text of the one before it, the first the text `start`. -/
def Chained : String → List LayerResult → Prop
  | _, [] => True
  | start, l :: ls => l.originalCode = start ∧ Chained l.code ls

variable {a : Archive} {file : SourceFile} {start : String} {layers : List Layer}

theorem textAfter_concat (ls : List LayerResult) (l : LayerResult) :
    textAfter start (ls ++ [l]) = l.code := by
  simp [textAfter]

theorem textAfter_cons (l : LayerResult) (ls : List LayerResult) :
    textAfter start (l :: ls) = textAfter l.code ls := by
  cases ls with
  | nil => rfl
  | cons next rest =>
    rw [textAfter, textAfter, List.getLast?_cons_cons, List.getLast?_eq_some_getLast (by simp)]
    rfl

theorem chained_concat {ls : List LayerResult} {l : LayerResult} (before : Chained start ls)
    (taken : l.originalCode = textAfter start ls) : Chained start (ls ++ [l]) := by
  induction ls generalizing start with
  | nil => exact ⟨taken, trivial⟩
  | cons first rest ih => exact ⟨before.1, ih before.2 (textAfter_cons first rest ▸ taken)⟩

/-! ### One more layer -/

/-- However a layer ends, it counts its changes and tells of a failure. -/
theorem balanced_of_layer (layer : Layer) (file : SourceFile) (code : String) :
    (layer.run file code).Balanced :=
  ⟨(layer.run_outcome file code).changeCount, (layer.run_outcome file code).failed_iff⟩

/-- A layer whose text could not be written still counts its changes. -/
theorem balanced_unwritten {l : LayerResult} (balanced : l.Balanced) (failure : Failure) :
    (unwritten l failure).Balanced :=
  ⟨balanced.count, ⟨fun _ => rfl, fun _ => rfl⟩⟩

theorem balanced_absorb {r : Response} {l : LayerResult} (balanced : r.Balanced)
    (layer : l.Balanced) : (absorb r l).Balanced where
  layers k member := by
    rcases List.mem_append.mp member with before | last
    · exact balanced.layers k before
    · exact List.mem_singleton.mp last ▸ layer
  changes := by simp [absorb, balanced.changes]
  count := by simp [absorb, balanced.count]
  success := by simp [absorb, balanced.success]
  error := by
    have one := balanced.error
    have other := layer.error
    simp only [absorb, Bool.and_eq_false_iff, Option.isSome_or, Bool.or_eq_true]
    rw [one, other]

/-- The run so far adds up, and the next layer is given the text after the last one. -/
structure Standing.Sound (start : String) (s : Standing) : Prop where
  balanced : s.response.Balanced
  chained : Chained start s.response.layers
  code : s.code = textAfter start s.response.layers

theorem sound_start (path : Path) (code : String) : (Standing.start path code).Sound code where
  balanced := ⟨by simp [Standing.start], rfl, rfl, rfl, by simp [Standing.start]⟩
  chained := trivial
  code := rfl

theorem Standing.Sound.advance {s : Standing} {l : LayerResult} (sound : s.Sound start)
    (layer : l.Balanced) (taken : l.originalCode = s.code) : (s.advance l).Sound start where
  balanced := balanced_absorb sound.balanced layer
  chained := chained_concat sound.chained (taken.trans sound.code)
  code := (textAfter_concat _ _).symm

theorem Standing.Sound.written {s : Standing} {l : LayerResult} (sound : s.Sound start)
    (layer : l.Balanced) (taken : l.originalCode = s.code) (receipt : Receipt) :
    (s.written l receipt).Sound start :=
  have next := sound.advance (l := { l with backupPath := receipt.backup.map (·.path) })
    ⟨layer.count, layer.error⟩ taken
  ⟨next.balanced, next.chained, next.code⟩

/-! ### Whole runs -/

/-- The run is over: it went through all layers, or it failed and has the text it started with. -/
structure Standing.Settled (start : String) (s : Standing) : Prop where
  balanced : s.response.Balanced
  chained : Chained start s.response.layers
  code : s.response.success = true ∧ s.code = textAfter start s.response.layers ∨
    s.response.success = false ∧ s.code = start

/-- A run that stops at a layer is over, whatever becomes of the rollback. -/
theorem settled_of_halt {s s' : Standing} {path : Path} {l : LayerResult} {m n : Machine}
    {ms : List Move} (sound : s.Sound start) (layer : l.Balanced) (taken : l.originalCode = s.code)
    (failed : l.success = false) (ended : (s.halt path start l).Gives m s' n ms) :
    s'.Settled start := by
  obtain ⟨warnings, rfl⟩ := halt_ends ended
  have next := sound.advance layer taken
  refine ⟨⟨next.balanced.layers, next.balanced.changes, next.balanced.count, next.balanced.success,
    next.balanced.error⟩, next.chained, .inr ⟨?_, rfl⟩⟩
  show (s.response.success && l.success) = false
  rw [failed, Bool.and_false]

theorem Course.settled {s s' : Standing} {books books' : Bookkeeping} {m m' : Machine}
    {ms : List Move} (course : Course a file start layers s books m s' books' m' ms)
    (sound : s.Sound start) (success : s.response.success = true) : s'.Settled start := by
  induction course with
  | done => exact ⟨sound.balanced, sound.chained, .inl ⟨success, sound.code⟩⟩
  | @failed layer _ s _ _ _ _ _ failed ended =>
    exact settled_of_halt sound (balanced_of_layer layer file s.code)
      (layer.run_outcome file s.code).originalCode failed ended
  | @unchanged layer _ s _ _ _ _ _ _ succeeded _ _ ih =>
    refine ih (sound.advance (balanced_of_layer layer file s.code)
      (layer.run_outcome file s.code).originalCode) ?_
    show (s.response.success && (layer.run file s.code).success) = true
    rw [success, succeeded]
    rfl
  | @written layer _ s _ _ _ _ _ _ _ _ _ receipt succeeded _ _ _ ih =>
    refine ih (sound.written (balanced_of_layer layer file s.code)
      (layer.run_outcome file s.code).originalCode receipt) ?_
    show (s.response.success && (layer.run file s.code).success) = true
    rw [success, succeeded]
    rfl
  | @refused layer _ s _ _ _ _ _ _ _ _ failure _ _ _ ended =>
    exact settled_of_halt sound (balanced_unwritten (balanced_of_layer layer file s.code) failure)
      (layer.run_outcome file s.code).originalCode rfl ended

/-- A dry run goes through all its layers. -/
theorem sound_of_chain (layers : List Layer) {s : Standing} (sound : s.Sound start) :
    ((chain file layers s.code).foldl .advance s).Sound start := by
  induction layers generalizing s with
  | nil => exact sound
  | cons layer rest ih =>
    exact ih (s := s.advance (layer.run file s.code)) (sound.advance
      (balanced_of_layer layer file s.code) (layer.run_outcome file s.code).originalCode)

/-- In the response of every run, whatever the disk does: each layer took up the text of the one before
it, all counts are those of the changes, which are those of the layers in their order, and an error is
there exactly if some layer failed. With fixes the code is that of the last layer when none failed, and
in a run that writes and fails the text that the run started with. -/
theorem response_adds_up (a : Archive) (layers : List Layer) (file : SourceFile) (code : String)
    (write applyFixes : Bool) (books : Bookkeeping) (m : Machine) :
    let r := (((run a layers file code ⟨write, applyFixes⟩).run books).run m).1.1
    Chained code r.layers ∧
    (∀ l ∈ r.layers, l.changeCount = l.changes.length) ∧
    r.changeCount = r.changes.length ∧
    r.changeCount = (r.layers.map (·.changeCount)).sum ∧
    r.changes = r.layers.flatMap (·.changes) ∧
    (r.success = false ↔ r.error.isSome = true) ∧
    (r.success = true ↔ ∀ l ∈ r.layers, l.success = true) ∧
    (applyFixes = true → (∀ l ∈ r.layers, l.success = true) → r.code = textAfter code r.layers) ∧
    (applyFixes = true → write = true → r.success = false → r.code = code) := by
  intro r
  -- a dry run goes on behind a failed layer, so the two kinds of runs end in different standings
  obtain ⟨s, shown, balanced, chained, won, lost⟩ : ∃ s : Standing,
      r = { s.response with code := if applyFixes then s.code else code } ∧
      s.response.Balanced ∧ Chained code s.response.layers ∧
      (s.response.success = true → s.code = textAfter code s.response.layers) ∧
      (write = true → s.response.success = false → s.code = code) := by
    cases write with
    | false =>
      have sound : (forecast file layers code).Sound code :=
        sound_of_chain layers (sound_start file.path code)
      refine ⟨forecast file layers code, ?_, sound.balanced, sound.chained, fun _ => sound.code, nofun⟩
      show (((run a layers file code ⟨false, applyFixes⟩).run books).run m).1.1 = _
      rw [run_dry]
      rfl
    | true =>
      obtain ⟨s, course, ended⟩ := course_of_run (Program.gives_run
        ((run a layers file code ⟨true, applyFixes⟩).run books) m)
      obtain ⟨balanced, chained, through | back⟩ := course.settled (sound_start file.path code) rfl
      · exact ⟨s, ended, balanced, chained, fun _ => through.2,
          fun _ failed => absurd (through.1.symm.trans failed) (by decide)⟩
      · exact ⟨s, ended, balanced, chained,
          fun success => absurd (success.symm.trans back.1) (by decide), fun _ _ => back.2⟩
  have all : s.response.success = true ↔ ∀ l ∈ s.response.layers, l.success = true := by
    rw [balanced.success, List.all_eq_true]
  rw [shown]
  refine ⟨chained, fun l member => (balanced.layers l member).count, balanced.length, balanced.count,
    balanced.changes, balanced.error, all, fun fixes succeeded => ?_, fun fixes wrote failed => ?_⟩
  · rw [fixes, if_pos rfl]
    exact won (all.mpr succeeded)
  · rw [fixes, if_pos rfl]
    exact lost wrote failed

end Pipeline

end SourceRepair
