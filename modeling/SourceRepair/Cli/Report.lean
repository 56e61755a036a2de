import SourceRepair.Session

/-!
# Reports

What was done to each file, as text and as a document, and what the command line shows of the backups of a file
and of the learned rules.
-/

namespace SourceRepair.Cli

structure Report where
  results : List Response
  /-- Nothing was written. -/
  dryRun : Bool
  learning : Option Lesson := none
deriving DecidableEq, Repr, Inhabited

namespace Report

def changed (r : Report) : Nat := (r.results.filter fun x => 0 < x.changeCount).length

def failed (r : Report) : Nat := (r.results.filter fun x => !x.success).length

def changeCount (r : Report) : Nat := r.results.foldl (fun n result => n + result.changeCount) 0

/-- The exit code: one if a file failed. -/
def exitCode (r : Report) : Nat := if 0 < r.failed then 1 else 0

def toJson (r : Report) : Json.Value :=
  .object ([("files", .nat r.results.length), ("changed", .nat r.changed), ("failed", .nat r.failed),
    ("changeCount", .nat r.changeCount), ("dryRun", .bool r.dryRun),
    ("results", .array (r.results.map Response.toJson))] ++
    r.learning.toList.map fun l => ("learning", l.toJson))

/-! ### Text -/

/-- The word for what became of a file, five characters wide. -/
def status (r : Response) : String :=
  if r.error.isSome then "FAIL " else if r.changeCount = 0 then "ok   " else "fixed"

/-- The lines of a layer; a layer that was skipped has none. -/
def layerLines (l : LayerResult) : List String :=
  if l.strategy = .skipped then []
  else
    ("      layer " ++ l.layer.label ++ ": " ++ toString l.changeCount ++ " change(s) via " ++
      l.strategy.name) :: l.changes.map fun c => "        - " ++ c.description

/-- The lines of a file. -/
def fileLines (r : Response) : List String :=
  (status r ++ " " ++ r.filePath.text ++ " (" ++ toString r.changeCount ++ " changes)") ::
    (r.layers.flatMap layerLines ++ r.warnings.map ("      warning: " ++ ·) ++
      r.error.toList.map fun e => "      error [" ++ e.kind ++ "]: " ++ e.message)

/-- The line with the totals. -/
def totals (r : Report) : String :=
  toString r.results.length ++ " file(s), " ++ (if r.dryRun then "would change" else "changed") ++
    " " ++ toString r.changed ++ " (" ++ toString r.changeCount ++ " changes), " ++
    toString r.failed ++ " failed"

/-- The line about what was learned, if something was. -/
def learningLines (l : Lesson) : List String :=
  if l.saved then
    ["learned " ++ toString l.candidates ++ " candidate(s); " ++ toString l.rules ++ " rule(s) in " ++
      l.storePath.text]
  else []

/-- The report as text. -/
def text (r : Report) : String :=
  let lines := r.results.flatMap fileLines ++ [r.totals] ++ r.learning.toList.flatMap learningLines
  String.join (lines.map (· ++ "\n"))

end Report

/-! ### Listings -/

/-- The line of a backup. -/
def backupLine (i : Backup.Info) : String :=
  "  " ++ toString i.timestamp ++ "  " ++ i.hash ++ "  " ++ i.path.text ++ "\n"

/-- The backups of a file, in the order given. -/
def listBackups (file : Path) (infos : List Backup.Info) : String :=
  if infos.isEmpty then "no backups for " ++ file.text ++ "\n"
  else
    toString infos.length ++ " backup(s) for " ++ file.text ++ "\n" ++
      String.join (infos.map backupLine)

/-- The lines of a rule. A star marks a rule that runs. -/
def ruleLines (threshold : Float) (r : Learning.Rule) : String :=
  (if threshold ≤ r.confidence then "*" else " ") ++ " [" ++ Decimal.fixed 2 r.confidence ++ " x" ++
    toString r.frequency.toNat ++ "] layer " ++ r.layer.label ++ ": " ++ r.description ++ "\n    " ++
    r.pattern ++ " => " ++ r.replacement ++ "\n"

/-- The rules of the store in a file. -/
def listRules (path : Path) (s : Learning.Store) : String :=
  if s.rules.isEmpty then "no learned rules in " ++ path.text ++ "\n"
  else String.join (s.rules.map (ruleLines s.config.threshold))

end SourceRepair.Cli
