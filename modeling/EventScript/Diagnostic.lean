import EventScript.Span
import EventScript.StaticType

/-!
Compile errors: what is wrong, where, and in which source. Each complaint has its kind and its
wording here and nowhere else.
-/
namespace EventScript

namespace CompileError

/-- The group a complaint belongs to. -/
inductive Kind where
  | lex | parse | typeName | arity | typeMismatch | unresolvedCall | undefinedVariable
  | duplicateSchema | codegen
deriving DecidableEq, Inhabited

def Kind.all : List Kind :=
  [.lex, .parse, .typeName, .arity, .typeMismatch, .unresolvedCall, .undefinedVariable,
    .duplicateSchema, .codegen]

def Kind.label : Kind → String
  | .lex => "lex"
  | .parse => "parse"
  | .typeName => "type-name"
  | .arity => "arity"
  | .typeMismatch => "type"
  | .unresolvedCall => "unresolved"
  | .undefinedVariable => "undefined"
  | .duplicateSchema => "duplicate"
  | .codegen => "codegen"

/-- What a program can be refused for. -/
inductive Complaint where
  | unexpectedCharacter (c : Char)
  | unterminatedString
  | unterminatedText
  | invalidEscape
  | badMarkup (message : String)
  | unexpectedToken (expected found : String)
  | unknownType (name : String)
  | tooFewArguments (target : String) (expected found : Nat)
  | tooManyArguments (target : String) (expected found : Nat)
  | argumentCount (expected found : Nat)
  | fieldWithoutValue (field target : String)
  | fieldMismatch (field target : String) (expected found : StaticType)
  | argumentWithoutValue
  | argumentMismatch (expected found : StaticType)
  /-- All four names that were tried for the call. -/
  | unresolvedCall (name alternate mangled mangledAlternate : String)
  | noSuchSchema (name : String)
  | undefinedVariable (name : String)
  | duplicateSchema (name : String)
  | duplicateParameter (name : String)
  | bodyIsNotBlock
  | nothingToReturn (schema : String) (returns : StaticType)
  | returnMismatch (schema : String) (returns found : StaticType)
  | nothingToStore (name : String)
  | storeMismatch (name : String) (holds found : StaticType)
  /-- `what` must be a number. -/
  | notNumber (what : String) (found : StaticType)
  | conditionNotBool (found : StaticType)
  | sequenceNotList (found : StaticType)
  | tooManySchemas
  | tooManyConstants
  | tooManyHostOperations
  | tooManyLocals
  | tooManyPassed
  | codeTooLarge
  /-- A complaint worded by the caller. -/
  | other (kind : Kind) (message : String)
deriving DecidableEq

def Complaint.kind : Complaint → Kind
  | .unexpectedCharacter _ | .unterminatedString | .unterminatedText | .invalidEscape
  | .badMarkup _ => .lex
  | .unexpectedToken _ _ => .parse
  | .unknownType _ => .typeName
  | .tooFewArguments _ _ _ | .tooManyArguments _ _ _ | .argumentCount _ _ => .arity
  | .fieldWithoutValue _ _ | .fieldMismatch _ _ _ _ | .argumentWithoutValue
  | .argumentMismatch _ _ | .nothingToReturn _ _ | .returnMismatch _ _ _ | .nothingToStore _
  | .storeMismatch _ _ _ | .notNumber _ _ | .conditionNotBool _ | .sequenceNotList _ =>
    .typeMismatch
  | .unresolvedCall _ _ _ _ | .noSuchSchema _ => .unresolvedCall
  | .undefinedVariable _ => .undefinedVariable
  | .duplicateSchema _ => .duplicateSchema
  | .duplicateParameter _ | .bodyIsNotBlock | .tooManySchemas | .tooManyConstants
  | .tooManyHostOperations | .tooManyLocals | .tooManyPassed | .codeTooLarge => .codegen
  | .other kind _ => kind

/-- A name between back quotes. -/
def ticked (name : String) : String := "\x60" ++ name ++ "\x60"

def Complaint.message : Complaint → String
  | .unexpectedCharacter c => "unexpected character " ++ ticked c.toString
  | .unterminatedString => "unterminated string literal"
  | .unterminatedText => "unterminated text literal"
  | .invalidEscape => "invalid escape sequence"
  | .badMarkup message => message
  | .unexpectedToken expected found => s!"expected {expected}, found {found}"
  | .unknownType name => "unknown type " ++ ticked name
  | .tooFewArguments target expected found =>
    s!"too few arguments for {ticked target}: expected {expected}, found {found}"
  | .tooManyArguments target expected found =>
    s!"too many arguments for {ticked target}: expected {expected}, found {found}"
  | .argumentCount expected found => s!"expected {expected} arguments, found {found}"
  | .fieldWithoutValue field target =>
    s!"argument for field {ticked field} of {ticked target} yields no value"
  | .fieldMismatch field target expected found =>
    s!"field {ticked field} of {ticked target} expects {expected.name}, found {found.name}"
  | .argumentWithoutValue => "argument yields no value"
  | .argumentMismatch expected found => s!"expected {expected.name}, found {found.name}"
  | .unresolvedCall name alternate mangled mangledAlternate =>
    s!"cannot resolve call to {ticked name} (tried operations {ticked name}, {ticked alternate} and schemas {ticked mangled}, {ticked mangledAlternate})"
  | .noSuchSchema name => "no schema named " ++ ticked name
  | .undefinedVariable name => "undefined variable " ++ ticked name
  | .duplicateSchema name => s!"schema {ticked name} is defined more than once"
  | .duplicateParameter name => "duplicate parameter " ++ ticked name
  | .bodyIsNotBlock => "schema body must be a block"
  | .nothingToReturn schema returns =>
    s!"schema {ticked schema} must return {returns.name}, but its body yields nothing"
  | .returnMismatch schema returns found =>
    s!"schema {ticked schema} must return {returns.name}, but its body yields {found.name}"
  | .nothingToStore name => "cannot store a void value in " ++ ticked name
  | .storeMismatch name holds found =>
    s!"{ticked name} holds {holds.name}, cannot store {found.name}"
  | .notNumber what found => s!"{what} must be number, found {found.name}"
  | .conditionNotBool found => s!"condition must be bool, found {found.name}"
  | .sequenceNotList found => s!"foreach needs a list, found {found.name}"
  | .tooManySchemas => "too many schemas in one module (max 65535)"
  | .tooManyConstants => "too many constants (max 65535)"
  | .tooManyHostOperations => "too many host operations (max 65535)"
  | .tooManyLocals => "too many local variables (max 65535)"
  | .tooManyPassed => "too many arguments (max 255)"
  | .codeTooLarge => "bytecode too large (max 65535 ops)"
  | .other _ message => message

end CompileError

/-- A complaint about the bytes of `span`, in the source of that name if one is known. -/
structure CompileError where
  complaint : CompileError.Complaint
  span : Span
  source? : Option String := none
deriving DecidableEq

namespace CompileError

def kind (e : CompileError) : Kind := e.complaint.kind

def message (e : CompileError) : String := e.complaint.message

/-- Names the source, unless one is named already. -/
def inSource (e : CompileError) (source : String) : CompileError :=
  { e with source? := some (e.source?.getD source) }

def display (e : CompileError) : String :=
  match e.source? with
  | some source => s!"{source}: {e.message}"
  | none => e.message

/-- One line with the kind and the place of the error in its text. -/
def format (e : CompileError) (text : String) : String :=
  let place := LineColumn.ofOffset text e.span.start
  let start := match e.source? with
    | some source => source ++ ":"
    | none => "line "
  s!"[{e.kind.label}] {start}{place.line}:{place.column}: {e.message}"

end CompileError

/-- What a stage of compilation answers. -/
abbrev Compiled (α : Type) := Except CompileError α

/-- Refuses with a complaint about a span. -/
def refuse (complaint : CompileError.Complaint) (span : Span) : Compiled α :=
  .error ⟨complaint, span, none⟩

end EventScript
