/-
# The command line

Reads the settings file that the arguments name, runs the command, and prints its
report, or what went wrong.
-/

import SearchFilter.Command.Run

namespace SearchFilter

/-- The state of a file on disk. -/
def fileState (path : String) : IO Command.FileState := do
  try
    return .readable (← IO.FS.readFile path)
  catch e =>
    match e with
    | .noFileOrDirectory .. => return .absent
    | _ => return .unreadable

/-- How the command is used. -/
def usage : String :=
  "sieve - compile search filters into SQL and PartiQL fragments\n\n" ++
  "Usage: sieve [OPTIONS] [QUERY]\n\n" ++
  "  -p, --provider <PROVIDER>      postgresql, mysql, sqlite or dynamodb\n" ++
  "  -C, --config <CONFIG>          settings file, sieve.toml unless given\n" ++
  "  -f, --format <FORMAT>          text or json\n" ++
  "      --tree                     print the filter tree\n" ++
  "      --show-config              print the settings\n" ++
  "      --max-query-length <N>     bytes of a query\n" ++
  "      --max-nesting-depth <N>    depth of brackets\n" ++
  "      --max-term-count <N>       number of terms\n" ++
  "  -l, --log-level <LEVEL>        off, error, warn, info, debug or trace\n" ++
  "  -v, --verbose                  the level debug\n" ++
  "  -h, --help                     print this text\n" ++
  "  -V, --version                  print the version\n"

/-- The message of a failed command, with what lies behind it. -/
def failureText (e : Command.Failure) : String :=
  match e with
  | .schema s => e.message ++ ": " ++ s.message
  | .limits s => e.message ++ ": " ++ s.message
  | e => e.message

end SearchFilter

open SearchFilter in
def main (args : List String) : IO UInt32 := do
  match Command.Arguments.read args with
  | .error .help => IO.print usage; return 0
  | .error .version => IO.println "sieve 0.1.0"; return 0
  | .error .usage => IO.eprint usage; return 2
  | .ok a =>
    let path := a.config.getD Command.standardFile
    let state ← fileState path
    match Command.run (fun p => if p = path then state else .absent) a with
    | .ok report => IO.println report; return 0
    | .error e => IO.eprintln ("Error: " ++ failureText e); return 1
