import EventScript.Decimal.Reading
import EventScript.Json
import EventScript.SortedMap
import EventScript.Text.Hex

/-!
Reading JSON text. An error names what is wrong and a place, in lines and bytes: behind the byte
that cannot stand where it does, or behind all that was read. Of equal keys in an object the last
one counts, and keys come in ascending order. A value that nobody wants is read leniently: only its
shape counts, neither the size of numbers, the pairing of surrogates nor the depth.
-/
namespace EventScript

namespace Json

inductive Fault where
  | endInList | endInObject | endInString | endInValue
  | expectedColon | expectedListEnd | expectedObjectEnd | expectedWord | expectedValue
  | invalidEscape | invalidNumber | outOfRange | controlCharacter | keyNotString
  | loneSurrogate | trailingComma | trailingCharacters | unfinishedPair | tooDeep
  /-- A complaint of whoever wants the value. -/
  | unwanted (message : String)
deriving DecidableEq

def Fault.message : Fault → String
  | endInList => "EOF while parsing a list"
  | endInObject => "EOF while parsing an object"
  | endInString => "EOF while parsing a string"
  | endInValue => "EOF while parsing a value"
  | expectedColon => "expected \x60:\x60"
  | expectedListEnd => "expected \x60,\x60 or \x60]\x60"
  | expectedObjectEnd => "expected \x60,\x60 or \x60\x7d\x60"
  | expectedWord => "expected ident"
  | expectedValue => "expected value"
  | invalidEscape => "invalid escape"
  | invalidNumber => "invalid number"
  | outOfRange => "number out of range"
  | controlCharacter =>
    "control character (\\u0000-\\u001F) found while parsing a string"
  | keyNotString => "key must be a string"
  | loneSurrogate => "lone leading surrogate in hex escape"
  | trailingComma => "trailing comma"
  | trailingCharacters => "trailing characters"
  | unfinishedPair => "unexpected end of hex escape"
  | tooDeep => "recursion limit exceeded"
  | unwanted message => message

/-- How deep arrays and objects may nest, one less than this. -/
def depthLimit : Nat := 128

structure Error where
  fault : Fault
  line : Nat
  column : Nat
deriving DecidableEq

def Error.message (e : Error) : String := s!"{e.fault.message} at line {e.line} column {e.column}"

/-- What is left of a text, and how many lines were begun and bytes read of the last. -/
structure Cursor where
  rest : List Char
  line : Nat := 1
  column : Nat := 0

/-- Passes so many bytes. -/
def Cursor.skipBytes : Nat → (line column : Nat) → List Char → Cursor
  | _, line, column, [] => ⟨[], line, column⟩
  | count, line, column, c :: cs =>
    if c.utf8Size ≤ count then
      if c = '\n' then skipBytes (count - 1) (line + 1) 0 cs
      else skipBytes (count - c.utf8Size) line (column + c.utf8Size) cs
    else ⟨c :: cs, line, column + count⟩

def Cursor.skipSpace : (line column : Nat) → List Char → Cursor
  | line, column, [] => ⟨[], line, column⟩
  | line, column, c :: cs =>
    if c = '\n' then skipSpace (line + 1) 0 cs
    else if c = ' ' || c = '\t' || c = '\r' then skipSpace line (column + 1) cs
    else ⟨c :: cs, line, column⟩

/-- Readers move a cursor, and know a number of steps that no loop over their text exceeds. -/
abbrev Reader := ReaderT Nat (StateT Cursor (Except Error))

namespace Reader

def fail (fault : Fault) : Reader α := fun _ c => .error ⟨fault, c.line, c.column⟩

/-- Complains about the next byte. -/
def failNext (fault : Fault) : Reader α := fun _ c =>
  let c := Cursor.skipBytes 1 c.line c.column c.rest
  .error ⟨fault, c.line, c.column⟩

def peek : Reader (Option Char) := return (← get).rest.head?

/-- How many bytes characters take up. -/
def bytesOf (cs : List Char) : Nat := cs.foldl (fun bytes c => bytes + c.utf8Size) 0

/-- Passes so many characters. -/
def advance (count : Nat) : Reader Unit := modify fun c =>
  let bytes := bytesOf (c.rest.take count)
  { Cursor.skipBytes bytes c.line c.column c.rest with rest := c.rest.drop count }

def space : Reader (Option Char) := do
  modify fun c => Cursor.skipSpace c.line c.column c.rest
  peek

/-- The rest of a word. -/
def word : List Char → Reader Unit
  | [] => return ()
  | c :: cs => do
    match ← peek with
    | none => fail .endInValue
    | some d =>
      if d ≠ c then failNext .expectedWord
      advance 1
      word cs

def digits : Reader (List Char) := do
  let ds := (← get).rest.takeWhile Char.isDigit
  advance ds.length
  return ds

/-! ### Numbers -/

/-- Significands stay below this. -/
def significandLimit : Nat := 0x10000000000000000

/-- Appends digits to a significand while it stays in bounds, and counts those that are left. -/
def gather (significand : Nat) : List Char → Nat × Nat
  | [] => (significand, 0)
  | d :: ds =>
    let next := 10 * significand + Decimal.digitValue d
    if next < significandLimit then gather next ds else (significand, ds.length + 1)

/-- A significand times a power of ten, by one multiplication or division by a power that a double
can hold, after as many divisions by the largest of these as it takes. -/
def scaled (x : Number) (exponent : Int) : Option Number :=
  if exponent.natAbs ≤ 308 then
    let power := Decimal.toNumber ⟨1, exponent.natAbs⟩
    if exponent < 0 then some (x.div power)
    else
      let y := x.mul power
      if y.isFinite then some y else none
  else if x.significand = 0 then some x
  else if _large : 0 ≤ exponent then none
  else scaled (x.div (Decimal.toNumber ⟨1, 308⟩)) (exponent + 308)
termination_by exponent.natAbs
decreasing_by omega

def floatOf (negative : Bool) (significand : Nat) (exponent : Int) : Reader Numeral := do
  match scaled (.ofNat significand) exponent with
  | some x => return .float (if negative then x.negate else x)
  | none => fail .outOfRange

/-- The largest exponent that is not cut off. -/
def maxExponent : Nat := 2147483647

/-- The value of the digits of an exponent, or how many make it too large. -/
def exponentValue (value read : Nat) : List Char → Except Nat Nat
  | [] => .ok value
  | d :: ds =>
    let next := 10 * value + Decimal.digitValue d
    if next ≤ maxExponent then exponentValue next (read + 1) ds else .error (read + 1)

/-- An exponent from its letter on. -/
def exponentPart (negative : Bool) (significand : Nat) (exponent : Int) : Reader Numeral := do
  advance 1
  let sign ← peek
  if sign = some '+' || sign = some '-' then advance 1
  match ← peek with
  | none => fail .endInValue
  | some c =>
    if !c.isDigit then failNext .invalidNumber
    let ds := (← get).rest.takeWhile Char.isDigit
    match exponentValue 0 0 ds with
    | .ok e =>
      advance ds.length
      floatOf negative significand (if sign = some '-' then exponent - e else exponent + e)
    | .error read =>
      if significand ≠ 0 && sign ≠ some '-' then
        advance read
        fail .outOfRange
      advance ds.length
      return .float (if negative then Number.zero.negate else .zero)

def exponentIfAny (negative : Bool) (significand : Nat) (exponent : Int) : Reader Numeral := do
  match ← peek with
  | some 'e' | some 'E' => exponentPart negative significand exponent
  | _ => floatOf negative significand exponent

/-- The digits behind a point, which is next. -/
def fractionPart (negative : Bool) (significand : Nat) (exponent : Int) : Reader Numeral := do
  advance 1
  let ds ← digits
  if ds.isEmpty then
    if (← peek).isSome then failNext .invalidNumber else fail .endInValue
  let (significand, left) := gather significand ds
  exponentIfAny negative significand (exponent - (ds.length - left : Nat))

/-- A number behind its sign. -/
def number (negative : Bool) : Reader Numeral := do
  match ← peek with
  | none => fail .endInValue
  | some c =>
    if !c.isDigit then failNext .invalidNumber
    if c = '0' then
      advance 1
      if (← peek).any Char.isDigit then failNext .invalidNumber
    let (significand, left) := gather 0 (← digits)
    match ← peek with
    | some '.' => fractionPart negative significand left
    | some 'e' | some 'E' => exponentPart negative significand left
    | _ =>
      if left ≠ 0 then floatOf negative significand left
      else if !negative then return .natural significand
      else if significand = 0 then return .float Number.zero.negate
      else if significand ≤ 0x8000000000000000 then return .negative significand
      else floatOf true significand 0

/-- The shape of a number behind its sign. -/
def skipNumber : Reader Unit := do
  match ← peek with
  | none => fail .invalidNumber
  | some c =>
    if !c.isDigit then failNext .invalidNumber
    if c = '0' then
      advance 1
      if (← peek).any Char.isDigit then failNext .invalidNumber
    let _ ← digits
    if (← peek) = some '.' then
      advance 1
      if (← digits).isEmpty then failNext .invalidNumber
    let e ← peek
    if e = some 'e' || e = some 'E' then
      advance 1
      let sign ← peek
      if sign = some '+' || sign = some '-' then advance 1
      if (← digits).isEmpty then failNext .invalidNumber

/-! ### Strings -/

/-- Four hexadecimal digits. -/
def hexEscape : Reader Nat := do
  let c ← get
  let four := c.rest.take 4
  if bytesOf four < 4 then
    advance 4
    fail .endInString
  match if four.all (·.utf8Size = 1) then Text.Hex.read? four else none with
  | some n =>
    advance 4
    return n
  | none =>
    set (Cursor.skipBytes 4 c.line c.column c.rest)
    fail .invalidEscape

def isLeading (n : Nat) : Bool := 0xd800 ≤ n && n ≤ 0xdbff

def isTrailing (n : Nat) : Bool := 0xdc00 ≤ n && n ≤ 0xdfff

/-- The next character must be this one. -/
def pairMark (c : Char) : Reader Unit := do
  match ← peek with
  | none => fail .endInString
  | some d =>
    if d ≠ c then failNext .unfinishedPair
    advance 1

/-- An escape by number; surrogates must come in pairs. -/
def numberedEscape : Reader Char := do
  let n ← hexEscape
  if isTrailing n then fail .loneSurrogate
  if isLeading n then
    pairMark '\\'
    pairMark 'u'
    let m ← hexEscape
    if !isTrailing m then fail .loneSurrogate
    return Char.ofNat ((n - 0xd800) * 0x400 + (m - 0xdc00) + 0x10000)
  return Char.ofNat n

def namedEscape? : Char → Option Char
  | '"' => some '"'
  | '\\' => some '\\'
  | '/' => some '/'
  | 'b' => some '\x08'
  | 'f' => some '\x0c'
  | 'n' => some '\n'
  | 'r' => some '\r'
  | 't' => some '\t'
  | _ => none

def escape (lenient : Bool) : Reader Char := do
  match ← peek with
  | none => fail .endInString
  | some 'u' =>
    advance 1
    if lenient then
      let _ ← hexEscape
      return 'u'
    else numberedEscape
  | some c =>
    match namedEscape? c with
    | some d =>
      advance 1
      return d
    | none => failNext .invalidEscape

/-- A string behind its opening quote, of at most `fuel` characters. -/
def stringFrom (lenient : Bool) : (fuel : Nat) → List Char → Reader String
  | 0, _ => fail .endInString
  | fuel + 1, before => do
    match ← peek with
    | none => fail .endInString
    | some '"' =>
      advance 1
      return String.ofList before.reverse
    | some '\\' =>
      advance 1
      stringFrom lenient fuel ((← escape lenient) :: before)
    | some c =>
      if c < ' ' then
        if lenient then fail .controlCharacter else failNext .controlCharacter
      advance 1
      stringFrom lenient fuel (c :: before)

/-- A string from its opening quote on. -/
def string (lenient : Bool) : Reader String := do
  advance 1
  stringFrom lenient (← read) []

/-! ### Values -/

/-- What follows an opening bracket: items up to the closing one. -/
def itemsFrom (lenient : Bool) (item : Reader α) (first : Bool) :
    (fuel : Nat) → List α → Reader (List α)
  | 0, before => return before.reverse
  | fuel + 1, before => do
    match ← space with
    | none => failNext .endInList
    | some ']' =>
      advance 1
      return before.reverse
    | some c =>
      if !first then
        if c ≠ ',' then failNext .expectedListEnd
        advance 1
        match ← space with
        | some ']' => failNext (if lenient then .expectedValue else .trailingComma)
        | none => failNext .endInValue
        | _ => pure ()
      itemsFrom lenient item false fuel ((← item) :: before)

/-- Whether an object has another entry; then its key is next. -/
def anotherEntry (lenient first : Bool) : Reader Bool := do
  match ← space with
  | none => failNext .endInObject
  | some '\x7d' =>
    advance 1
    return false
  | some c =>
    if first then
      if c ≠ '"' then failNext .keyNotString
      return true
    if c ≠ ',' then failNext .expectedObjectEnd
    advance 1
    match ← space with
    | some '"' => return true
    | some '\x7d' => failNext (if lenient then .keyNotString else .trailingComma)
    | some _ => failNext .keyNotString
    | none => failNext (if lenient then .endInObject else .endInValue)

def colon : Reader Unit := do
  match ← space with
  | some ':' => advance 1
  | some _ => failNext .expectedColon
  | none => failNext .endInObject

def entriesFrom (lenient : Bool) (item : Reader α) (first : Bool) :
    (fuel : Nat) → List (String × α) → Reader (List (String × α))
  | 0, before => return before.reverse
  | fuel + 1, before => do
    if ← anotherEntry lenient first then
      let key ← string lenient
      colon
      entriesFrom lenient item false fuel ((key, ← item) :: before)
    else return before.reverse

/-- A value that may contain values less than `depth` deep. -/
def value (lenient : Bool) : (depth : Nat) → Reader Json
  | 0 => fail .tooDeep
  | depth + 1 => do
    match ← space with
    | none => failNext .endInValue
    | some c =>
      if c = 'n' then
        advance 1
        word ['u', 'l', 'l']
        return .null
      else if c = 't' then
        advance 1
        word ['r', 'u', 'e']
        return .bool true
      else if c = 'f' then
        advance 1
        word ['a', 'l', 's', 'e']
        return .bool false
      else if c = '-' || c.isDigit then
        if c = '-' then advance 1
        if lenient then
          skipNumber
          return .null
        return .number (← number (c = '-'))
      else if c = '"' then return .string (← string lenient)
      else if c = '[' || c = '\x7b' then
        if depth = 0 then failNext .tooDeep
        advance 1
        if c = '[' then
          return .array (← itemsFrom lenient (value lenient depth) true (← read) [])
        else
          let entries ← entriesFrom lenient (value lenient depth) true (← read) []
          return .object (SortedMap.ofList entries).entries
      else failNext .expectedValue

/-- Passes a value that nobody wants. -/
def skip : Reader Unit := do let _ ← value true (← read)

def atEnd : Reader Unit := do
  if (← space).isSome then failNext .trailingCharacters

/-- Reads a whole text. -/
def runAll (reader : Reader α) (text : String) : Except Error α :=
  let whole : Reader α := do
    let a ← reader
    atEnd
    return a
  (whole.run (text.length + 2)).run' { rest := text.toList }

end Reader

def ofText (text : String) : Except Error Json := (Reader.value false depthLimit).runAll text

end Json

end EventScript
