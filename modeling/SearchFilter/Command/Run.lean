/-
# Running a command

A command reads its settings, lets the limits of its arguments win, and reports the
settings, the filter tree or the rendered filter. Files are given by a function, so
that nothing here reads one.
-/

import SearchFilter.Command.Report
import SearchFilter.Command.Settings

namespace SearchFilter
namespace Command

/-- The file of settings where none is named. -/
def standardFile : String := "sieve.toml"

/-- What is known of a file. -/
inductive FileState where
  | absent
  | unreadable
  | readable (text : String)

/-- Why a command fails. -/
inductive Failure where
  | unreadableFile (path : String)
  | unparsedFile (path : String)
  | noFields
  | noQuery
  | schema (e : SetupError)
  | limits (e : SetupError)
  | query (e : QueryError)

/-- The message of a failure. A fault behind it has a message of its own. -/
def Failure.message : Failure → String
  | unreadableFile path => "Failed to read config file: " ++ path
  | unparsedFile path => "Failed to parse config file: " ++ path
  | noFields => "No fields configured; add [[fields]] entries to " ++ standardFile
  | noQuery => "A query is required unless --show-config is given"
  | schema _ => "Invalid field schema"
  | limits _ => "Invalid limits"
  | query e => e.message

namespace Settings

/-- The settings in a file of the given state. -/
def ofFile (path : String) : FileState → Except Failure Settings
  | .readable text =>
    match ofToml? text with
    | some s => .ok s
    | none => .error (.unparsedFile path)
  | _ => .error (.unreadableFile path)

/-- The settings in the file that is named, or in the standard one if it is there. -/
def load (files : String → FileState) : Option String → Except Failure Settings
  | some path => ofFile path (files path)
  | none =>
    match files standardFile with
    | .absent => .ok standard
    | state => ofFile standardFile state

/-- The settings with the limits of arguments. -/
def overridden (s : Settings) (a : Arguments) : Settings :=
  { s with
    limits := Query.Measure.all.foldl (fun l m => l.set m ((a.limit? m).getD (l.get m))) s.limits }

/-- The compiler of settings. -/
def compiler (s : Settings) : Except Failure Compiler := do
  if s.fields.isEmpty then .error .noFields
  let schema ← (Schema.ofFields s.fields).mapError .schema
  (Compiler.of schema s.limits).mapError .limits

/-- The report of settings. -/
def report (s : Settings) : Format → String
  | .text => s.toToml
  | .json => Json.pretty s.toJson

end Settings

/-- Runs a command. -/
def run (files : String → FileState) (a : Arguments) : Except Failure String := do
  let settings := (← Settings.load files a.config).overridden a
  if a.showConfig then return settings.report a.output
  match a.query with
  | none => .error .noQuery
  | some q =>
    let c ← settings.compiler
    if a.tree then
      return reportTree (← (c.filter? q).mapError .query) a.output
    return reportRendered a.target (← (c.compile a.target q).mapError .query) a.output

/-- The limits of arguments win, and the others stay. -/
theorem get_overridden (s : Settings) (a : Arguments) (m : Query.Measure) :
    (s.overridden a).limits.get m = (a.limit? m).getD (s.limits.get m) := by
  cases m <;> simp [Settings.overridden, Query.Measure.all, Query.Limits.get, Query.Limits.set]

end Command
end SearchFilter
