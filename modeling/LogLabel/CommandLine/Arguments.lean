import LogLabel.Synthesizer

set_option autoImplicit false

/-!
# Command-line arguments

`CommandLine.parse` reads arguments into a `Command`.

A flag with a value takes it attached (`--strip=true`, `-oout`, `-o=out`) or as the next
word, each flag is given at most once, and after `--` every argument is a word. Arguments are
read from left to right, and what a flag or a run of words was given is checked when the next
flag is met or the arguments end, so that a request for help stops the reading exactly at
its place.
-/

namespace LogLabel.CommandLine

/-! ## Flags and verbs -/

/-- The flags. -/
inductive Flag where
  | config
  | strip
  | logFunction
  | environment
  | outDir
  | diff
  | logLevel
  | help
  | version
deriving DecidableEq

namespace Flag

/-- The name of a flag after two dashes. -/
def long : Flag → String
  | .config => "config"
  | .strip => "strip"
  | .logFunction => "log-function"
  | .environment => "env"
  | .outDir => "out-dir"
  | .diff => "diff"
  | .logLevel => "log-level"
  | .help => "help"
  | .version => "version"

/-- The letter of a flag after one dash. -/
def short? : Flag → Option Char
  | .config => some 'c'
  | .outDir => some 'o'
  | .help => some 'h'
  | .version => some 'V'
  | _ => none

/-- Whether a flag has a value. -/
def takesValue : Flag → Bool
  | .diff => false
  | .help => false
  | .version => false
  | _ => true

/-- Whether a text can be the value of a flag: paths are not empty, and a level is one of the
five. -/
def accepts : Flag → String → Bool
  | .config, value => value ≠ ""
  | .outDir, value => value ≠ ""
  | .logLevel, value => (Level.ofName? value).isSome
  | _, _ => true

end Flag

/-- What can be asked for. -/
inductive Verb where
  | transform
  | check
  | labels
  | tree
deriving DecidableEq

namespace Verb

/-- All verbs. -/
def all : List Verb := [.transform, .check, .labels, .tree]

/-- The word for a verb. -/
def name : Verb → String
  | .transform => "transform"
  | .check => "check"
  | .labels => "aliases"
  | .tree => "ast"

/-- The verb of a word. -/
def ofName? (word : String) : Option Verb := all.find? (·.name = word)

end Verb

/-- How many words are taken. -/
inductive Capacity where
  | none
  | one
  | many
deriving DecidableEq

/-- What is understood in a part of the command line. -/
structure Scope where
  flags : List Flag
  capacity : Capacity

/-- Before the verb. -/
def openingScope : Scope := ⟨[.logLevel, .help, .version], .none⟩

/-- The flags that tell how labels are treated. -/
def settingFlags : List Flag := [.config, .strip, .logFunction, .environment]

/-- After a verb. -/
def Verb.scope : Verb → Scope
  | .transform => ⟨[.outDir, .diff] ++ settingFlags ++ [.logLevel, .help], .many⟩
  | .check => ⟨settingFlags ++ [.logLevel, .help], .many⟩
  | .labels => ⟨settingFlags ++ [.logLevel, .help], .none⟩
  | .tree => ⟨[.logLevel, .help], .one⟩

/-! ## Reasons to stop -/

/-- What is wrong with arguments. -/
inductive Misuse where
  | unknownFlag (text : String)
  | missingValue (flag : Flag)
  | needlessValue (flag : Flag)
  | invalidValue (flag : Flag) (value : String)
  | repeatedFlag (flag : Flag)
  | conflictingFlags (first second : Flag)
  | emptyPath
  | surplusWord (word : String)
  | missingPath (verb : Verb)
  | unknownVerb (word : String)
  | missingVerb
deriving DecidableEq

/-- The text for wrong arguments. -/
def Misuse.message : Misuse → String
  | .unknownFlag text => "unexpected argument '" ++ text ++ "'"
  | .missingValue flag => "a value is required for '--" ++ flag.long ++ "'"
  | .needlessValue flag => "no value is taken by '--" ++ flag.long ++ "'"
  | .invalidValue flag value => "invalid value '" ++ value ++ "' for '--" ++ flag.long ++ "'"
  | .repeatedFlag flag => "the argument '--" ++ flag.long ++ "' cannot be used multiple times"
  | .conflictingFlags first second =>
      "the argument '--" ++ first.long ++ "' cannot be used with '--" ++ second.long ++ "'"
  | .emptyPath => "a path is empty"
  | .surplusWord word => "unexpected argument '" ++ word ++ "'"
  | .missingPath verb => "'" ++ verb.name ++ "' needs a path"
  | .unknownVerb word => "unrecognized subcommand '" ++ word ++ "'"
  | .missingVerb => "a subcommand is required"

/-- Why the reading of arguments stops without a command. -/
inductive Halt where
  | misuse (m : Misuse)
  | help
  | version
deriving DecidableEq

/-! ## Reading -/

/-- An argument by its shape. -/
inductive Token where
  /-- From here on every argument is a word. -/
  | escape
  | long (name : String) (value : Option String)
  | short (letters : List Char)
  | word (text : String)

/-- The name and the value of a long flag; the first `=` stands between them. -/
def Token.ofLong (cs : List Char) : Token :=
  match cs.dropWhile (· ≠ '=') with
  | [] => .long (String.ofList cs) none
  | _ :: value => .long (String.ofList (cs.takeWhile (· ≠ '='))) (some (String.ofList value))

/-- The shape of an argument. A single dash is a word. -/
def Token.ofText (text : String) : Token :=
  match text.toList with
  | ['-', '-'] => .escape
  | '-' :: '-' :: cs => .ofLong cs
  | ['-'] => .word text
  | '-' :: cs => .short cs
  | _ => .word text

/-- What is still open: a flag without its value yet, a value, or a run of words. -/
inductive Pending where
  | nothing
  | awaiting (flag : Flag)
  | value (flag : Flag) (text : String)
  | words (words : List String)

/-- What has been read so far. -/
structure Reading where
  given : List (Flag × String) := []
  words : List String := []
  pending : Pending := .nothing

namespace Reading

/-- Takes a flag with its value. -/
def accept (r : Reading) (flag : Flag) (value : String) : Except Halt Reading :=
  if (r.given.lookup flag).isSome then .error (.misuse (.repeatedFlag flag))
  else if flag.accepts value then .ok { r with given := r.given ++ [(flag, value)] }
  else .error (.misuse (.invalidValue flag value))

/-- Takes what is still open. -/
def settle (r : Reading) : Except Halt Reading :=
  let settled := { r with pending := .nothing }
  match r.pending with
  | .nothing => .ok settled
  | .awaiting flag => .error (.misuse (.missingValue flag))
  | .value flag text => settled.accept flag text
  | .words words =>
      if words.contains "" then .error (.misuse .emptyPath)
      else .ok { settled with words := r.words ++ words }

/-- Meets a flag without a value. -/
def raise (r : Reading) (flag : Flag) : Except Halt Reading := do
  let r ← r.settle
  match flag with
  | .help => .error .help
  | .version => .error .version
  | flag => r.accept flag ""

/-- Meets a flag with a value, which may be attached. -/
def give (r : Reading) (flag : Flag) (attached : Option String) : Except Halt Reading := do
  let r ← r.settle
  match attached with
  | some value => r.accept flag value
  | none => return { r with pending := .awaiting flag }

/-- Meets a long flag. -/
def readLong (scope : Scope) (r : Reading) (name : String) (value : Option String) :
    Except Halt Reading :=
  match scope.flags.find? (·.long = name) with
  | none => .error (.misuse (.unknownFlag ("--" ++ name)))
  | some flag =>
      if flag.takesValue then r.give flag value
      else if value.isSome then .error (.misuse (.needlessValue flag))
      else r.raise flag

/-- The value attached to a letter. -/
def attached : List Char → Option String
  | [] => none
  | '=' :: cs => some (String.ofList cs)
  | cs => some (String.ofList cs)

/-- Meets letters after one dash. -/
def readShort (scope : Scope) (r : Reading) : List Char → Except Halt Reading
  | [] => .ok r
  | c :: cs =>
      match scope.flags.find? (·.short? = some c) with
      | none => .error (.misuse (.unknownFlag ("-" ++ String.singleton c)))
      | some flag =>
          if flag.takesValue then r.give flag (attached cs)
          else
            match r.raise flag with
            | .error halt => .error halt
            | .ok r => readShort scope r cs

/-- Starts a run of words. -/
def openWords (r : Reading) (word : String) : Except Halt Reading := do
  let r ← r.settle
  return { r with pending := .words [word] }

/-- Meets a word that is no value. -/
def readWord (capacity : Capacity) (r : Reading) (word : String) : Except Halt Reading :=
  match capacity, r.pending with
  | .none, _ => .error (.misuse (.surplusWord word))
  | .one, .words _ => .error (.misuse (.surplusWord word))
  | .one, _ =>
      if r.words.isEmpty then r.openWords word else .error (.misuse (.surplusWord word))
  | .many, .words words => .ok { r with pending := .words (words ++ [word]) }
  | .many, _ => r.openWords word

/-- Meets an argument that is no escape. -/
def readToken (scope : Scope) (r : Reading) (text : String) : Token → Except Halt Reading
  | .long name value => r.readLong scope name value
  | .short letters => r.readShort scope letters
  | _ =>
      match r.pending with
      | .awaiting flag => .ok { r with pending := .value flag text }
      | _ => r.readWord scope.capacity text

/-- Reads words only. -/
def readWords (scope : Scope) (r : Reading) : List String → Except Halt Reading
  | [] => r.settle
  | word :: words =>
      match r.readWord scope.capacity word with
      | .error halt => .error halt
      | .ok r => readWords scope r words

/-- Reads the arguments after a verb. -/
def readAll (scope : Scope) (r : Reading) : List String → Except Halt Reading
  | [] => r.settle
  | text :: rest =>
      match Token.ofText text with
      | .escape => r.readWords scope rest
      | token =>
          match r.readToken scope text token with
          | .error halt => .error halt
          | .ok r => readAll scope r rest

end Reading

/-! ## Commands -/

/-- How labels are treated: an options file and what overrides it. -/
structure Settings where
  config : Option String := none
  strip : Option String := none
  logFunction : Option String := none
  environment : Option String := none
deriving DecidableEq

/-- Where transformed code goes. -/
inductive Destination where
  | output
  | directory (path : String)
  | difference
deriving DecidableEq

/-- A command. -/
inductive Command where
  /-- Transform files and print or write the result. -/
  | transform (paths : List String) (destination : Destination) (settings : Settings)
  /-- Transform files without output and report every failure. -/
  | check (paths : List String) (settings : Settings)
  /-- List the table of labels. -/
  | labels (settings : Settings)
  /-- Show the tree of a program. -/
  | tree (path : String)
deriving DecidableEq

/-- The settings among the flags that were given. -/
def Reading.settings (r : Reading) : Settings where
  config := r.given.lookup .config
  strip := r.given.lookup .strip
  logFunction := r.given.lookup .logFunction
  environment := r.given.lookup .environment

/-- The destination among the flags that were given. -/
def Reading.destination (r : Reading) : Except Halt Destination :=
  match r.given.lookup .outDir, r.given.lookup .diff with
  | some _, some _ => .error (.misuse (.conflictingFlags .diff .outDir))
  | some path, none => .ok (.directory path)
  | none, some _ => .ok .difference
  | none, none => .ok .output

/-- The command of a verb with what was read after it. -/
def Verb.command (verb : Verb) (r : Reading) : Except Halt Command :=
  match verb, r.words with
  | .transform, path :: paths =>
      r.destination.map fun destination => .transform (path :: paths) destination r.settings
  | .check, path :: paths => .ok (.check (path :: paths) r.settings)
  | .labels, _ => .ok (.labels r.settings)
  | .tree, path :: _ => .ok (.tree path)
  | verb, [] => .error (.misuse (.missingPath verb))

/-- Reads the arguments after a verb into a command. -/
def Verb.parse (verb : Verb) (arguments : List String) : Except Halt Command :=
  match Reading.readAll verb.scope {} arguments with
  | .error halt => .error halt
  | .ok r => verb.command r

/-- The answer to a request for help by a word: at most one subject, which has to be a verb or the
request itself. -/
def helpOn : List String → Halt
  | [] => .help
  | [word] =>
      if word = "help" ∨ (Verb.ofName? word).isSome then .help else .misuse (.unknownVerb word)
  | word :: next :: _ =>
      .misuse (.unknownVerb (if (Verb.ofName? word).isSome then next else word))

/-- Reads arguments up to the verb. What is open before the verb is checked after the rest. -/
def parseFrom (r : Reading) : List String → Except Halt Command
  | [] => .error (.misuse .missingVerb)
  | text :: rest =>
      match Token.ofText text, r.pending with
      | .escape, _ => .error (.misuse (rest.head?.elim .missingVerb .unknownVerb))
      | .word word, .awaiting flag => parseFrom { r with pending := .value flag word } rest
      | .word word, _ =>
          if word = "help" then .error (helpOn rest)
          else
            match Verb.ofName? word with
            | none => .error (.misuse (.unknownVerb word))
            | some verb =>
                match verb.parse rest with
                | .error halt => .error halt
                | .ok command => r.settle.map fun _ => command
      | token, _ =>
          match r.readToken openingScope text token with
          | .error halt => .error halt
          | .ok r => parseFrom r rest

/-- Reads the arguments of a run. -/
def parse (arguments : List String) : Except Halt Command := parseFrom {} arguments

end LogLabel.CommandLine
