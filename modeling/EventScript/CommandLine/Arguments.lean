/-!
The words of a command line. Options may stand anywhere before two hyphens; behind those every word
is an operand. Whatever else begins with a hyphen is refused, a lone one excepted.
-/
namespace EventScript

inductive Command where
  /-- Compile what a directory holds. -/
  | check (directory : String)
  /-- Compile what a directory holds and call a schema. -/
  | run (directory schema : String) (args : List String)
  /-- List the standard operations. -/
  | operations
  /-- Show a document. -/
  | dump (file : String)
  /-- Make a document of a JSON object. -/
  | pack (input output : String)
  /-- Show the schema of configurations. -/
  | schema
deriving DecidableEq

structure CommandLine where
  command : Command
  config? : Option String := none
  verbose : Bool := false
deriving DecidableEq

/-- Why there is no command to carry out. -/
inductive NoCommand where
  | misuse | help | version
deriving DecidableEq

namespace CommandLine

inductive Verb where
  | check | run | operations | dump | pack | schema
deriving DecidableEq

namespace Verb

def all : List Verb := [check, run, operations, dump, pack, schema]

def name : Verb → String
  | check => "check"
  | run => "run"
  | operations => "ops"
  | dump => "doc-dump"
  | pack => "doc-pack"
  | schema => "schema"

/-- How many operands a verb takes at most, if there is a bound. -/
def most? : Verb → Option Nat
  | check | dump => some 1
  | pack => some 2
  | operations | schema => some 0
  | run => none

/-- Whether the operand at this position is a path. -/
def wantsPath : Verb → Nat → Bool
  | run, i => i = 0
  | _, _ => true

def command : Verb → List String → Except NoCommand Command
  | check, [directory] => .ok (.check directory)
  | run, directory :: name :: args => .ok (.run directory name args)
  | operations, [] => .ok .operations
  | dump, [file] => .ok (.dump file)
  | pack, [input, output] => .ok (.pack input output)
  | schema, [] => .ok .schema
  | _, _ => .error .misuse

end Verb

/-- Options given so far; none may be given twice. -/
structure Options where
  config? : Option String := none
  verbose : Bool := false

namespace Options

/-- Paths are not empty. -/
def setConfig (o : Options) (path : String) : Except NoCommand Options :=
  if o.config?.isSome || path = "" then .error .misuse else .ok { o with config? := some path }

def setVerbose (o : Options) : Except NoCommand Options :=
  if o.verbose then .error .misuse else .ok { o with verbose := true }

/-- A cluster of one-letter options. Only the words before the verb can ask for the version. -/
def setLetters (beforeVerb : Bool) (o : Options) : List Char → Except NoCommand Options
  | [] => .ok o
  | c :: cs =>
    if c = 'v' then o.setVerbose.bind fun o => setLetters beforeVerb o cs
    else if c = 'h' then .error .help
    else if c = 'V' ∧ beforeVerb then .error .version
    else .error .misuse

/-- An option that is a word of its own. -/
def setWord (beforeVerb : Bool) (o : Options) (word : String) : Except NoCommand Options :=
  if word = "--verbose" then o.setVerbose
  else if word = "--help" then .error .help
  else if word = "--version" ∧ beforeVerb then .error .version
  else if word.startsWith "--config=" then o.setConfig (word.drop 9).toString
  else if word.startsWith "--" then .error .misuse
  else o.setLetters beforeVerb word.toList.tail

end Options

/-- Whether a word is an option, or the two hyphens that end the options. -/
def isOption (word : String) : Bool := word.startsWith "-" && word ≠ "-"

/-- Takes an operand. -/
def addOperand (verb : Verb) (operands : List String) (word : String) :
    Except NoCommand (List String) :=
  let count := operands.length
  if verb.most?.any (· ≤ count) || word = "" && verb.wantsPath count then .error .misuse
  else .ok (operands ++ [word])

/-- The words behind a verb. -/
def readOperands (verb : Verb) (o : Options) (operands : List String) :
    List String → Except NoCommand (Options × List String)
  | [] => .ok (o, operands)
  | word :: words =>
    if word = "--" then (words.foldlM (addOperand verb) operands).map (o, ·)
    else if word = "--config" then
      match words with
      | [] => .error .misuse
      | path :: words =>
        if isOption path then .error .misuse
        else (o.setConfig path).bind fun o => readOperands verb o operands words
    else if isOption word then
      (o.setWord false word).bind fun o => readOperands verb o operands words
    else (addOperand verb operands word).bind fun operands => readOperands verb o operands words

/-- Options count on both sides of the verb, the later one more. -/
def readCommand (outer : Options) (verb : Verb) (words : List String) :
    Except NoCommand CommandLine := do
  let (inner, operands) ← readOperands verb {} [] words
  return ⟨← verb.command operands, inner.config? <|> outer.config?, inner.verbose || outer.verbose⟩

/-- Reads words up to the verb, and what follows it. -/
def readFrom (o : Options) : List String → Except NoCommand CommandLine
  | [] => .error .misuse
  | word :: words =>
    match Verb.all.find? (·.name = word) with
    | some verb => readCommand o verb words
    | none =>
      if word = "help" then
        match words with
        | [] => .error .help
        | verb :: rest =>
          if rest.isEmpty && (verb = "help" || Verb.all.any (·.name = verb)) then .error .help
          else .error .misuse
      else if word = "--config" then
        match words with
        | [] => .error .misuse
        | path :: words =>
          if isOption path then .error .misuse
          else (o.setConfig path).bind fun o => readFrom o words
      else if isOption word && word ≠ "--" then
        (o.setWord true word).bind fun o => readFrom o words
      else .error .misuse

def ofWords (words : List String) : Except NoCommand CommandLine := readFrom {} words

end CommandLine

end EventScript
