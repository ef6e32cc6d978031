/-
# Command-line arguments

    sieve [options] [--] query

| option | takes | stands for |
| --- | --- | --- |
| `-p`, `--provider` | a provider | what the query is compiled for |
| `-C`, `--config` | a path | the file of settings |
| `-f`, `--format` | `text`, `json` | how the result is written |
| `--tree` | | the filter tree is the result |
| `--show-config` | | the settings are the result |
| `--max-query-length`, `--max-nesting-depth`, `--max-term-count` | a number | a limit |
| `-l`, `--log-level` | a level | how much is logged |
| `-v`, `--verbose` | | the level `debug`, unless one is given |
| `-h`, `--help`, `-V`, `--version` | | only a text is asked for |

A value follows its option as the next argument, behind `=`, or directly behind a
letter; the next argument is a value only if it does not start with `-`, a lone `-`
apart. Letters can be run together. Behind `--` nothing is an option. Arguments are
read from left to right, and the first fault, or the first request for a text,
decides. What is wrong with their combination is looked at last.
-/

import SearchFilter.Query.Limits
import SearchFilter.Render.Provider

namespace SearchFilter
namespace Command

/-- How a result is written. -/
inductive Format where
  | text
  | json
deriving DecidableEq, Repr

/-- The format of a written name. -/
def Format.ofName? : String → Option Format
  | "text" => some .text
  | "json" => some .json
  | _ => none

/-- How much is logged. -/
inductive Level where
  | off
  | error
  | warn
  | info
  | debug
  | trace
deriving DecidableEq, Repr

namespace Level

/-- The levels, from the most quiet one. -/
def all : List Level := [.off, .error, .warn, .info, .debug, .trace]

/-- The written name of a level. -/
def name : Level → String
  | off => "off"
  | error => "error"
  | warn => "warn"
  | info => "info"
  | debug => "debug"
  | trace => "trace"

/-- The level of a written name. -/
def ofName? (s : String) : Option Level := all.find? fun l => l.name == s

end Level

/-- An option that takes a value. -/
inductive Setting where
  | provider
  | config
  | format
  | limit (m : Query.Measure)
  | level
deriving DecidableEq, Repr

/-- An option without a value. -/
inductive Switch where
  | tree
  | showConfig
  | verbose
  | help
  | version
deriving DecidableEq, Repr

/-- An option. -/
inductive Flag where
  | setting (s : Setting)
  | switch (s : Switch)
deriving DecidableEq, Repr

/-- The option of a long name. -/
def Flag.ofName? : String → Option Flag
  | "provider" => some (.setting .provider)
  | "config" => some (.setting .config)
  | "format" => some (.setting .format)
  | "tree" => some (.switch .tree)
  | "show-config" => some (.switch .showConfig)
  | "max-query-length" => some (.setting (.limit .length))
  | "max-nesting-depth" => some (.setting (.limit .depth))
  | "max-term-count" => some (.setting (.limit .terms))
  | "log-level" => some (.setting .level)
  | "verbose" => some (.switch .verbose)
  | "help" => some (.switch .help)
  | "version" => some (.switch .version)
  | _ => none

/-- The option of a letter. -/
def Flag.ofLetter? : Char → Option Flag
  | 'p' => some (.setting .provider)
  | 'C' => some (.setting .config)
  | 'f' => some (.setting .format)
  | 'l' => some (.setting .level)
  | 'v' => some (.switch .verbose)
  | 'h' => some (.switch .help)
  | 'V' => some (.switch .version)
  | _ => none

/-- Why there is nothing to run. -/
inductive Refusal where
  | help
  | version
  | usage
deriving DecidableEq, Repr

/-- What is known from arguments. -/
structure Arguments where
  query : Option String
  provider : Option Provider
  config : Option String
  format : Option Format
  limits : List (Query.Measure × Nat)
  logLevel : Option Level
  tree : Bool
  showConfig : Bool
  verbose : Bool
deriving DecidableEq, Repr

namespace Arguments

/-- Nothing is known. -/
def empty : Arguments := ⟨none, none, none, none, [], none, false, false, false⟩

/-- The limit that is set on a measure. -/
def limit? (a : Arguments) (m : Query.Measure) : Option Nat := a.limits.lookup m

/-- The provider, PostgreSQL unless another one is given. -/
def target (a : Arguments) : Provider := a.provider.getD (.sql .postgresql)

/-- The format, text unless another one is given. -/
def output (a : Arguments) : Format := a.format.getD .text

/-- How much is logged: a level that is given, or else what the verbosity says. -/
def level (a : Arguments) : Level := a.logLevel.getD (if a.verbose then .debug else .warn)

/-- A number below `2 ^ 64`, perhaps with a plus sign. -/
def number? (s : List Char) : Option Nat :=
  let ds := match s with
    | '+' :: r => r
    | s => s
  if !ds.isEmpty && ds.all Char.isDigit && Decimal.natOf ds < Nat.pow 2 64 then
    some (Decimal.natOf ds)
  else none

/-- Fills a place that is still empty. -/
def fill {α : Type} (old new : Option α) : Except Refusal (Option α) :=
  match old, new with
  | none, some a => .ok (some a)
  | _, _ => .error .usage

/-- The arguments with the value of an option. An option is given once, with a value
that it takes. -/
def set (a : Arguments) (s : Setting) (value : String) : Except Refusal Arguments :=
  match s with
  | .provider =>
    (fill a.provider (Provider.ofText value).toOption).map fun v => { a with provider := v }
  | .config =>
    (fill a.config (if value.isEmpty then none else some value)).map fun v => { a with config := v }
  | .format => (fill a.format (Format.ofName? value)).map fun v => { a with format := v }
  | .level => (fill a.logLevel (Level.ofName? value)).map fun v => { a with logLevel := v }
  | .limit m =>
    match a.limit? m, number? value.toList with
    | none, some n => .ok { a with limits := (m, n) :: a.limits }
    | _, _ => .error .usage

/-- The arguments with an option that takes no value. -/
def switchOn (a : Arguments) (s : Switch) : Except Refusal Arguments :=
  match s with
  | .help => .error .help
  | .version => .error .version
  | .tree => if a.tree then .error .usage else .ok { a with tree := true }
  | .showConfig => if a.showConfig then .error .usage else .ok { a with showConfig := true }
  | .verbose => if a.verbose then .error .usage else .ok { a with verbose := true }

/-- The arguments with a query. -/
def ask (a : Arguments) (query : String) : Except Refusal Arguments :=
  (fill a.query (some query)).map fun v => { a with query := v }

/-- Whether an argument is an option and no value. -/
def isOption (s : String) : Bool :=
  match s.toList with
  | '-' :: _ :: _ => true
  | _ => false

/-- Reads letters that are run together. The last one may wait for a value. -/
def letters (a : Arguments) : List Char → Except Refusal (Arguments × Option Setting)
  | [] => .ok (a, none)
  | c :: r =>
    match Flag.ofLetter? c with
    | none => .error .usage
    | some (.switch s) => do letters (← a.switchOn s) r
    | some (.setting s) =>
      match r with
      | [] => .ok (a, some s)
      | '=' :: value => do .ok (← a.set s (String.ofList value), none)
      | value => do .ok (← a.set s (String.ofList value), none)

/-- Reads a long option, perhaps with a value behind `=`. -/
def long (a : Arguments) (s : List Char) : Except Refusal (Arguments × Option Setting) :=
  let name := String.ofList (s.takeWhile (· != '='))
  let value? : Option String := match s.dropWhile (· != '=') with
    | _ :: value => some (String.ofList value)
    | [] => none
  match Flag.ofName? name, value? with
  | some (.setting s), none => .ok (a, some s)
  | some (.setting s), some value => do .ok (← a.set s value, none)
  | some (.switch s), none => do .ok (← a.switchOn s, none)
  | some (.switch _), some _ => .error .usage
  | none, _ => .error .usage

/-- Reads one argument, which may leave an option waiting for a value. -/
def argument (a : Arguments) (s : String) : Except Refusal (Arguments × Option Setting) :=
  match s.toList with
  | '-' :: '-' :: name => a.long name
  | '-' :: c :: r => a.letters (c :: r)
  | _ => do .ok (← a.ask s, none)

/-- Reads arguments one after another. -/
def readFrom (a : Arguments) : List String → Except Refusal Arguments
  | [] => .ok a
  | s :: rest =>
    if s = "--" then rest.foldlM ask a
    else
      match a.argument s with
      | .error e => .error e
      | .ok (a, none) => readFrom a rest
      | .ok (a, some setting) =>
        match rest with
        | [] => .error .usage
        | value :: rest =>
          if isOption value then .error .usage
          else
            match a.set setting value with
            | .error e => .error e
            | .ok a => readFrom a rest

/-- Whether arguments go together: the settings are shown instead of a tree, and
without them there has to be a query. -/
def areComplete (a : Arguments) : Bool :=
  if a.showConfig then !a.tree else a.query.isSome

/-- Reads the arguments of a command. -/
def read (args : List String) : Except Refusal Arguments := do
  let a ← readFrom empty args
  if a.areComplete then .ok a else .error .usage

/-- **Arguments that are read have a query, or ask for the settings.** -/
theorem query_isSome_of_read {args : List String} {a : Arguments} (h : read args = .ok a) :
    a.showConfig = true ∨ a.query.isSome = true := by
  unfold read at h
  cases hr : readFrom empty args with
  | error e => rw [hr] at h; simp [bind, Except.bind] at h
  | ok b =>
    rw [hr] at h
    simp only [bind, Except.bind] at h
    split at h
    · rename_i hc
      cases h
      unfold areComplete at hc
      grind
    · simp at h

end Arguments
end Command
end SearchFilter
