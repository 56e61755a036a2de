/-!
# Dialects of scripts

Which language a source file is written in.
-/

namespace SourceRepair.Script

/-- Whether a file is a module or a classic script. -/
inductive Goal where
  | module | script
deriving DecidableEq, Repr, Inhabited

/-- The language of a source file: with or without types, declarations only, with or without JSX,
and its goal. -/
structure Dialect where
  typescript : Bool
  definition : Bool
  jsx : Bool
  goal : Goal
deriving DecidableEq, Repr, Inhabited

/-- TypeScript modules with JSX. -/
def Dialect.tsx : Dialect := ⟨true, false, true, .module⟩

end SourceRepair.Script
