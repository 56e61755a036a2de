import SourceRepair.Learning.Store
import SourceRepair.Recovery.Config

/-!
# Configuration

Where backups and rules are kept, which files are worked on, and how failures are handled. Every
field has a default.
-/

namespace SourceRepair

/-- Directories that hold no sources. -/
def defaultExcludes : List String :=
  ["**/node_modules/**", "**/.git/**", "**/.next/**", "**/dist/**", "**/build/**", "**/out/**",
    "**/coverage/**", "**/.mend/**"]

/-- Files that are sources. -/
def defaultIncludes : List String :=
  ["**/*.js", "**/*.jsx", "**/*.ts", "**/*.tsx", "**/*.mjs", "**/*.cjs", "**/*.json", "**/*.css",
    "**/*.scss", "**/*.html", "**/*.svg"]

structure Config where
  backupDir : Path := ⟨".mend/backups"⟩
  /-- Where backups go when `backupDir` cannot be written to. -/
  alternateBackupDir : Path
  maxBackups : Nat := 10
  excludePatterns : List String := defaultExcludes
  includePatterns : List String := defaultIncludes
  ruleStorePath : Path := ⟨".mend/learned-rules.json"⟩
  projectRoot : Option Path := none
  recovery : Recovery.Config := {}
  learning : Learning.Config := {}
deriving DecidableEq, Inhabited

/-- The name of the file that holds a configuration. -/
def configFileName : String := "mend.config.json"

namespace Config

/-- The configuration without a document, for a directory of temporary files. -/
def standard (temporary : Path) : Config := { alternateBackupDir := temporary.join ⟨"mend-backups"⟩ }

/-- The root of the project, in a current directory. -/
def root (c : Config) (current : Path) : Path := c.projectRoot.getD current

/-- A path of the configuration in the project. -/
def resolve (c : Config) (current p : Path) : Path :=
  if p.isAbsolute then p else (c.root current).join p

end Config

/-! ### Documents -/

open Json

def Learning.Config.check (key : String) (v : Value) : Except String Unit :=
  match key with
  | "enabled" => discard (Decode.bool v)
  | _ => discard (Decode.float v)

/-- How rules are learned, from a document. -/
def Learning.Config.decode : Decoder Learning.Config :=
  record "LearningConfig" ["enabled", "confidenceThreshold", "confidenceDelta"]
    Learning.Config.check fun f => do
      return ⟨← f.withDefault "enabled" Decode.bool true,
        ← f.withDefault "confidenceThreshold" Decode.float 0.7,
        ← f.withDefault "confidenceDelta" Decode.float 0.1⟩

def Config.check (key : String) (v : Value) : Except String Unit :=
  match key with
  | "maxBackups" => discard (Decode.size v)
  | "excludePatterns" | "includePatterns" => discard (Decode.list Decode.string v)
  | "projectRoot" => discard (Decode.option Decode.path v)
  | "recovery" => discard (Recovery.Config.decode v)
  | "learning" => discard (Learning.Config.decode v)
  | _ => discard (Decode.path v)

/-- The configuration in a document. -/
def Config.decode (temporary : Path) : Decoder Config :=
  let standard := Config.standard temporary
  record "EngineConfig" ["backupDir", "alternateBackupDir", "maxBackups", "excludePatterns",
    "includePatterns", "ruleStorePath", "projectRoot", "recovery", "learning"] Config.check
    fun f => do
      return {
        backupDir := ← f.withDefault "backupDir" Decode.path standard.backupDir
        alternateBackupDir :=
          ← f.withDefault "alternateBackupDir" Decode.path standard.alternateBackupDir
        maxBackups := ← f.withDefault "maxBackups" Decode.size standard.maxBackups
        excludePatterns :=
          ← f.withDefault "excludePatterns" (Decode.list Decode.string) standard.excludePatterns
        includePatterns :=
          ← f.withDefault "includePatterns" (Decode.list Decode.string) standard.includePatterns
        ruleStorePath := ← f.withDefault "ruleStorePath" Decode.path standard.ruleStorePath
        projectRoot := ← f.withDefault "projectRoot" (Decode.option Decode.path) none
        recovery := ← f.withDefault "recovery" Recovery.Config.decode {}
        learning := ← f.withDefault "learning" Learning.Config.decode {} }

def Learning.Config.toJson (c : Learning.Config) : Value :=
  .object [("enabled", .bool c.enabled), ("confidenceThreshold", .float c.threshold),
    ("confidenceDelta", .float c.delta)]

/-- The document of a configuration. -/
def Config.toJson (c : Config) : Value :=
  .object [("backupDir", .string c.backupDir.text),
    ("alternateBackupDir", .string c.alternateBackupDir.text), ("maxBackups", .nat c.maxBackups),
    ("excludePatterns", .array (c.excludePatterns.map .string)),
    ("includePatterns", .array (c.includePatterns.map .string)),
    ("ruleStorePath", .string c.ruleStorePath.text),
    ("projectRoot", Value.ofOption (fun p => .string p.text) c.projectRoot),
    ("recovery", c.recovery.toJson), ("learning", c.learning.toJson)]

end SourceRepair
