import SourceRepair.Repair.Declarations
import SourceRepair.Repair.Diagnostics
import SourceRepair.Repair.Effects
import SourceRepair.Repair.Framework
import SourceRepair.Repair.Guards
import SourceRepair.Repair.Literals
import SourceRepair.Repair.ProjectConfig
import SourceRepair.Repair.Tests

/-!
# All repairs
-/

namespace SourceRepair.Repair

/-- The repairs of scripts. -/
def catalogue : List Repair :=
  [nextConfigFlags, decodeEntities, removeDiagnostics, varToLet, listKeys, intrinsicAttributes,
    mergeImports, reactImport, effectCleanup, browserGlobalGuards, clientDirective,
    navigationImports, linkChildren, createRoot, testingLibraryImports, jestDomImport,
    asyncTestCallbacks]

/-- The repair of a name. -/
def ofName? (name : String) : Option Repair := catalogue.find? (·.name == name)

end SourceRepair.Repair
