import EventScript.Diagnostic
import EventScript.Syntax
import EventScript.Token.Lexer

/-!
Reading schemas from tokens, up to the first error. Loosest first: assignment to a bare name, arrow
calls on a whole term, sums and products on one level, differences and quotients on a tighter one,
calls of bare names. The cursor never leaves the last token, so that reading could go on for ever
when that token is not the end of input; fuel makes this visible.
-/
namespace EventScript

/-- Reads a prefix of the tokens; `none` when the fuel is used up. -/
abbrev Parser := StateT (List SpannedToken) (ExceptT CompileError Option)

namespace Parser

def outOfFuel : Parser α := fun _ => ExceptT.mk none

def refuse (complaint : CompileError.Complaint) (span : Span) : Parser α :=
  throw ⟨complaint, span, none⟩

def peek : Parser Token := return (← get).head?.elim .endOfInput (·.token)

def here : Parser Span := return (← get).head?.elim .none (·.span)

/-- The last token is never passed. -/
def advance : Parser Unit := modify fun
  | _ :: t :: ts => t :: ts
  | ts => ts

/-- Refuses the token that comes next. -/
def unexpected (expected : String) : Parser α := do
  refuse (.unexpectedToken expected (← peek).describe) (← here)

/-- Passes the given token and answers its span. -/
def expect (t : Token) : Parser Span := do
  if (← peek) = t then
    let span ← here
    advance
    return span
  unexpected t.describe

def name (what : String) : Parser (String × Span) := do
  match ← peek with
  | .ident name =>
    let span ← here
    advance
    return (name, span)
  | _ => unexpected what

def ident : Parser (String × Span) := name "identifier"

def type : Parser (StaticType × Span) := do
  let (word, span) ← name "type name"
  match StaticType.ofKeyword? word with
  | some type => return (type, span)
  | none => refuse (.unknownType word) span

/-- A comma, unless the closing parenthesis comes next. -/
def separator : Parser Unit := do
  if (← peek) = .mark .closeParen then return ()
  discard (expect (.mark .comma))

/-- Parameters up to the closing parenthesis, those read so far being kept backwards. -/
def params : (fuel : Nat) → (read : List Param) → Parser (List Param)
  | 0, _ => outOfFuel
  | fuel + 1, read => do
    if (← peek) = .mark .closeParen then return read.reverse
    let (name, nameSpan) ← ident
    let (type, typeSpan) ← type
    separator
    params fuel (⟨name, type, nameSpan.merge typeSpan⟩ :: read)

def result : Parser StaticType := do
  if (← peek) = .mark .arrow then
    advance
    return (← type).1
  return .void

/-- A literal or a bare name; `true` and `false` are literals. -/
def primary : Parser Expr := do
  let span ← here
  match ← peek with
  | .number n => advance; return .number span n
  | .string s => advance; return .string span s
  | .text markup => advance; return .text span markup
  | .ident name =>
    advance
    return if name = "true" then .bool span true
      else if name = "false" then .bool span false
      else .read span name
  | _ => unexpected "number, string, text or identifier"

def combine (op : Arithmetic) (left right : Expr) : Expr :=
  .arithmetic (left.span.merge right.span) op left right

/-- The operators of the looser level. -/
def looseOperator? : Token → Option Arithmetic
  | .mark .plus => some .add
  | .mark .star => some .mul
  | _ => none

/-- The operators of the tighter level. -/
def tightOperator? : Token → Option Arithmetic
  | .mark .minus => some .sub
  | .mark .slash => some .div
  | _ => none

mutual

def block : (fuel : Nat) → Parser Expr
  | 0 => outOfFuel
  | fuel + 1 => do
    let start ← expect (.mark .openBrace)
    let body ← statements fuel []
    let stop ← expect (.mark .closeBrace)
    return .block (start.merge stop) body

/-- Statements up to the closing brace, those read so far being kept backwards. -/
def statements : (fuel : Nat) → (read : List Expr) → Parser (List Expr)
  | 0, _ => outOfFuel
  | fuel + 1, read => do
    if (← peek) = .mark .closeBrace then return read.reverse
    let s ← statement fuel
    statements fuel (s :: read)

def statement : (fuel : Nat) → Parser Expr
  | 0 => outOfFuel
  | fuel + 1 => do
    match ← peek with
    | .keyword .loop =>
      let start ← here
      advance
      let count ← value fuel
      let body ← block fuel
      return .loop (start.merge body.span) count body
    | .keyword .branch =>
      let start ← here
      advance
      let condition ← value fuel
      let thenBody ← block fuel
      let span := start.merge thenBody.span
      if (← peek) = .keyword .otherwise then
        advance
        let elseBody ← block fuel
        return .branch (span.merge elseBody.span) condition thenBody (some elseBody)
      return .branch span condition thenBody none
    | .keyword .each =>
      let start ← here
      advance
      let (name, _) ← ident
      discard (expect (.keyword .among))
      let sequence ← value fuel
      let body ← block fuel
      return .each (start.merge body.span) name sequence body
    | _ => value fuel

/-- An assignment takes the value on its right whole, so that assignments group to the right. -/
def value : (fuel : Nat) → Parser Expr
  | 0 => outOfFuel
  | fuel + 1 => do
    let target ← arrow fuel
    match target, ← peek with
    | .read span name, .mark .equals =>
      advance
      let stored ← value fuel
      return .write (span.merge stored.span) name stored
    | _, _ => return target

def arrow : (fuel : Nat) → Parser Expr
  | 0 => outOfFuel
  | fuel + 1 => do
    let receiver ← term fuel
    arrows fuel receiver

/-- Arrow calls on what has been read; the receiver becomes the first argument. -/
def arrows : (fuel : Nat) → (receiver : Expr) → Parser Expr
  | 0, _ => outOfFuel
  | fuel + 1, receiver => do
    if (← peek) = .mark .arrow then
      advance
      let (name, _) ← ident
      let (args, span) ← tuple fuel
      arrows fuel (.call (receiver.span.merge span) name (receiver :: args) none)
    else return receiver

def term : (fuel : Nat) → Parser Expr
  | 0 => outOfFuel
  | fuel + 1 => do
    let left ← factor fuel
    terms fuel left

def terms : (fuel : Nat) → (left : Expr) → Parser Expr
  | 0, _ => outOfFuel
  | fuel + 1, left => do
    match looseOperator? (← peek) with
    | some op =>
      advance
      let right ← factor fuel
      terms fuel (combine op left right)
    | none => return left

def factor : (fuel : Nat) → Parser Expr
  | 0 => outOfFuel
  | fuel + 1 => do
    let left ← invocation fuel
    factors fuel left

def factors : (fuel : Nat) → (left : Expr) → Parser Expr
  | 0, _ => outOfFuel
  | fuel + 1, left => do
    match tightOperator? (← peek) with
    | some op =>
      advance
      let right ← invocation fuel
      factors fuel (combine op left right)
    | none => return left

def invocation : (fuel : Nat) → Parser Expr
  | 0 => outOfFuel
  | fuel + 1 => do
    let base ← primary
    match base, ← peek with
    | .read span name, .mark .openParen =>
      let (args, tupleSpan) ← tuple fuel
      return .call (span.merge tupleSpan) name args none
    | _, _ => return base

def tuple : (fuel : Nat) → Parser (List Expr × Span)
  | 0 => outOfFuel
  | fuel + 1 => do
    let start ← expect (.mark .openParen)
    let args ← arguments fuel []
    let stop ← expect (.mark .closeParen)
    return (args, start.merge stop)

/-- Arguments up to the closing parenthesis, those read so far being kept backwards. -/
def arguments : (fuel : Nat) → (read : List Expr) → Parser (List Expr)
  | 0, _ => outOfFuel
  | fuel + 1, read => do
    if (← peek) = .mark .closeParen then return read.reverse
    let argument ← value fuel
    separator
    arguments fuel (argument :: read)

end

def schema (fuel : Nat) : Parser Schema := do
  let start ← expect (.keyword .schema)
  let name? ← match ← peek with
    | .ident _ => pure (some (← ident).1)
    | _ => pure none
  discard (expect (.mark .openParen))
  let params ← params fuel []
  discard (expect (.mark .closeParen))
  let returns ← result
  let body ← block fuel
  discard (expect .endOfInput)
  return ⟨name?, params, returns, body, start.merge body.span⟩

/-- Enough for any tokens that end in `endOfInput`: no chain of calls is longer than ten for each
token it passes. -/
def fuelFor (tokens : List SpannedToken) : Nat := 16 * (tokens.length + 1)

end Parser

namespace Schema

/-- Reads a schema with bounded effort; `none` when that is not enough. -/
def parse? (fuel : Nat) (tokens : List SpannedToken) : Option (Compiled Schema) :=
  ((Parser.schema fuel).run' tokens).run

/-- Reads a schema. Tokens on which reading never ends lack a closing brace, and are refused for
that. -/
def parse (tokens : List SpannedToken) : Compiled Schema :=
  match parse? (Parser.fuelFor tokens) tokens with
  | some result => result
  | none =>
    let last := tokens.getLastD ⟨.endOfInput, .none⟩
    EventScript.refuse
      (.unexpectedToken (Token.mark .closeBrace).describe last.token.describe) last.span

/-- Reads a schema from text. -/
def ofText (text : String) : Compiled Schema := lex text >>= parse

/-- Reads a schema from the text of a source with a name, which errors then bear. -/
def ofSource (sourceName text : String) : Compiled Schema :=
  (ofText text).mapError (·.inSource sourceName)

end Schema

end EventScript
