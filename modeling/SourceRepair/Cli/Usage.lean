import SourceRepair.Cli.Run

/-!
# Usage

What is said about the command line itself.
-/

namespace SourceRepair.Cli

/-- The name and the version of the program. -/
def versionText : String := "mend 0.1.0\n"

/-- How the program is used. -/
def helpText : String :=
  "Layered, validated modernization of front-end component sources\n\n" ++
  "Usage: mend [OPTIONS] <COMMAND>\n\n" ++
  "Commands:\n" ++
  "  fix      Run the layer pipeline over files and directories\n" ++
  "  backups  List the backups of a file, newest first\n" ++
  "  restore  Restore a backup after verifying its hash\n" ++
  "  rules    Show the learned rules\n" ++
  "  help     Print this message or the help of the given subcommand(s)\n\n" ++
  "Options:\n" ++
  "  -c, --config <FILE>  Path to mend.config.json\n" ++
  "  -v, --verbose        Log every layer decision\n" ++
  "  -h, --help           Print help\n" ++
  "  -V, --version        Print version\n"

/-- What is said about words that are not understood. -/
def Fault.message : Fault → String
  | help | nothingGiven => helpText
  | version => versionText
  | missingCommand => "error: a subcommand is required\n"
  | unknownCommand => "error: unrecognized subcommand\n"
  | unknownWord => "error: unexpected argument\n"
  | missingValue => "error: a value is required\n"
  | badValue => "error: invalid value\n"
  | unexpectedValue => "error: unexpected value\n"
  | repeated => "error: an argument cannot be used multiple times\n"
  | missingWord => "error: required arguments were not provided\n"

/-- The exit code after a message: only a call for help or for the version is a success. -/
def Fault.exitCode : Fault → Nat
  | help | version => 0
  | _ => 2

/-- What is said when a command failed. -/
def Trouble.text (t : Trouble) : String := "Error: " ++ String.intercalate ": " t.chain ++ "\n"

end SourceRepair.Cli
