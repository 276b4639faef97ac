import EventScript.Program
import EventScript.RichText.Markup
import EventScript.Syntax.Binding

/-!
From schemas to a program. The code of an expression leaves one value on the stack, or none if its
type is void, and takes nothing from it. Code is lowered for the offset at which it will stand, so
jumps are final when they are written; positions must fit into 16 bits, argument counts into 8.
-/
namespace EventScript

/-- The literals and callbacks that all schemas of a program share. -/
structure Pools where
  literals : Table Literal Unit := Table.empty
  hosts : Table String HostFunction := Table.empty

/-- The largest position that code can name. -/
def maxPosition : Nat := 65535

/-- The most arguments that a call can pass. -/
def maxPassed : Nat := 255

namespace Pools

/-- The position of a literal, a new one if it is not in the pool. A literal that is there is found
also when the pool is full. -/
def literal (pools : Pools) (l : Literal) (span : Span) : Compiled (Nat × Pools) :=
  match pools.literals.position? l with
  | some i => .ok (i, pools)
  | none =>
    let ⟨literals, hosts⟩ := pools
    let i := literals.size
    if i ≤ maxPosition then .ok (i, ⟨literals.insert l (), hosts⟩)
    else refuse .tooManyConstants span

/-- The position of the callback of an operation, by the operation's name. -/
def host (pools : Pools) (name : String) (call : HostFunction) (span : Span) :
    Compiled (Nat × Pools) :=
  match pools.hosts.position? name with
  | some i => .ok (i, pools)
  | none =>
    let ⟨literals, hosts⟩ := pools
    let i := hosts.size
    if i ≤ maxPosition then .ok (i, ⟨literals, hosts.insert name call⟩)
    else refuse .tooManyHostOperations span

end Pools

/-- What grows while a schema is lowered. -/
structure Lowering where
  pools : Pools
  scope : Scope := Scope.empty

abbrev Lower := StateT Lowering Compiled

namespace Lower

def literal (l : Literal) (span : Span) : Lower Nat := fun ⟨pools, scope⟩ =>
  (pools.literal l span).map fun (i, pools) => (i, ⟨pools, scope⟩)

def host (name : String) (call : HostFunction) (span : Span) : Lower Nat := fun ⟨pools, scope⟩ =>
  (pools.host name call span).map fun (i, pools) => (i, ⟨pools, scope⟩)

/-- The slot of a variable, which is declared with the type if it is new. -/
def declare (name : String) (type : StaticType) (span : Span) : Lower Nat := fun ⟨pools, scope⟩ =>
  match scope.declare? name type with
  | some (l, scope) => .ok (l.slot, ⟨pools, scope⟩)
  | none => refuse .tooManyLocals span

def temporary (span : Span) : Lower Nat := fun ⟨pools, scope⟩ =>
  match scope.temporary? with
  | some (slot, scope) => .ok (slot, ⟨pools, scope⟩)
  | none => refuse .tooManyLocals span

def find? (name : String) : Lower (Option Local) := fun s => .ok (s.scope.find? name, s)

def pushLiteral (l : Literal) (span : Span) : Lower Code := do
  return #[.pushConstant (← literal l span)]

end Lower

/-- An offset that a jump can name. The complaint about another has no place. -/
def checkOffset (offset : Nat) : Compiled Unit :=
  if offset ≤ maxPosition then .ok () else refuse .codeTooLarge .none

/-- Only values of static type `any` have to be looked at when they enter a place of a kind. -/
def expectation (expected actual : StaticType) : Code :=
  if actual = .any then (expected.runtimeKind?.map .expect).toArray else #[]

/-- What a value of the type needs to become a number. -/
def numberExpectation (what : String) (type : StaticType) (span : Span) : Compiled Code :=
  if StaticType.number.accepts type then .ok (expectation .number type)
  else refuse (.notNumber what type) span

/-- Drops a value that nothing uses. -/
def dropValue (type : StaticType) : Code := if type = .void then #[] else #[.pop]

/-- The instruction that makes a call, its arguments being on the stack. -/
def Target.lower (ctx : Context) (span : Span) (argc : Nat) : Target → Lower Instruction
  | .operation op => do
    if argc > maxPassed then refuse .tooManyPassed span
    match op.action with
    | .native native => return .native native
    | .host call => return .invokeHost (← Lower.host op.name call span) argc (op.returns ≠ .void)
  | .schema name _ returns => do
    match ctx.schemas.position? name with
    | none => refuse (.noSuchSchema name) span
    | some i =>
      if argc > maxPassed then refuse .tooManyPassed span
      return .call i argc (returns ≠ .void)

namespace Expr

mutual

/-- The type of an expression and its code, which begins at offset `start`. -/
def lower (ctx : Context) (start : Nat) : Expr → Lower (StaticType × Code)
  | .number span n => return (.number, ← Lower.pushLiteral (.number n) span)
  | .string span s => return (.string, ← Lower.pushLiteral (.string s) span)
  | .text span markup => do
    match RichText.parseMarkup markup with
    | .ok t => return (.text, ← Lower.pushLiteral (.text t) span)
    | .error e => refuse (.badMarkup e.message) span
  | .bool span b => return (.bool, ← Lower.pushLiteral (.number (.ofBool b)) span)
  | .read span name => do
    match ← Lower.find? name with
    | some l => return (l.type, #[.loadLocal l.slot])
    | none => refuse (.undefinedVariable name) span
  | .write span name value => do
    let (type, code) ← lower ctx start value
    if type = .void then refuse (.nothingToStore name) value.span
    let check ← match ← Lower.find? name with
      | some l =>
        if l.type.accepts type then pure (expectation l.type type)
        else refuse (.storeMismatch name l.type type) value.span
      | none => pure #[]
    let slot ← Lower.declare name type span
    return (.void, code ++ check ++ #[.storeLocal slot])
  | .arithmetic _ op left right => do
    let (type, code) ← lower ctx start left
    let check ← numberExpectation ("left operand of " ++ CompileError.ticked op.symbol) type left.span
    let code := code ++ check
    let (type, more) ← lower ctx (start + code.size) right
    let check ← numberExpectation ("right operand of " ++ CompileError.ticked op.symbol) type
      right.span
    return (.number, code ++ more ++ check ++ #[.arithmetic op])
  | .branch _ condition thenBody elseBody => do
    let (type, test) ← lower ctx start condition
    if !StaticType.bool.accepts type then refuse (.conditionNotBool type) condition.span
    let test := test ++ expectation .bool type
    let thenStart := start + test.size + 1
    let (type, thenCode) ← lower ctx thenStart thenBody
    let thenCode := thenCode ++ dropValue type
    let thenEnd := thenStart + thenCode.size
    match elseBody with
    | none =>
      checkOffset thenEnd
      return (.void, test ++ #[.jumpIfFalse thenEnd] ++ thenCode)
    | some elseBody =>
      let elseStart := thenEnd + 1
      checkOffset elseStart
      let (type, elseCode) ← lower ctx elseStart elseBody
      let elseCode := elseCode ++ dropValue type
      let finish := elseStart + elseCode.size
      checkOffset finish
      return (.void, test ++ #[.jumpIfFalse elseStart] ++ thenCode ++ #[.jump finish] ++ elseCode)
  | .loop span count body => do
    let (type, code) ← lower ctx start count
    let check ← numberExpectation "repeat count" type count.span
    let counter ← Lower.temporary span
    let one ← Lower.literal (.number .one) span
    let code := code ++ check ++ #[.storeLocal counter]
    let head := start + code.size
    checkOffset head
    let (type, body) ← lower ctx (head + 4) body
    let body := body ++ dropValue type ++
      #[.loadLocal counter, .pushConstant one, .arithmetic .sub, .storeLocal counter, .jump head]
    let finish := head + 4 + body.size
    checkOffset finish
    return (.void, code ++
      #[.loadLocal counter, .pushConstant one, .atLeast, .jumpIfFalse finish] ++ body)
  | .each span name sequence body => do
    let (type, code) ← lower ctx start sequence
    if !StaticType.list.accepts type then refuse (.sequenceNotList type) sequence.span
    let items ← Lower.temporary span
    let index ← Lower.temporary span
    let item ← Lower.declare name .any span
    let first ← Lower.literal (.number .zero) span
    let one ← Lower.literal (.number .one) span
    let code := code ++ expectation .list type ++
      #[.storeLocal items, .pushConstant first, .storeLocal index]
    let head := start + code.size
    checkOffset head
    let (type, body) ← lower ctx (head + 9) body
    let body := body ++ dropValue type ++
      #[.loadLocal index, .pushConstant one, .arithmetic .add, .storeLocal index, .jump head]
    let finish := head + 9 + body.size
    checkOffset finish
    return (.void, code ++
      #[.loadLocal index, .loadLocal items, .native .listSize, .lessThan, .jumpIfFalse finish,
        .loadLocal items, .loadLocal index, .native .listGet, .storeLocal item] ++ body)
  | .block _ statements => lowerStatements ctx start .void #[] statements
  | .bound span target args => do
    if args.length ≠ target.params.length then
      refuse (.argumentCount target.params.length args.length) span
    let code ← lowerArguments ctx start #[] target.params args
    return (target.returns, code.push (← target.lower ctx span args.length))
  | .call span name args target => do
    let target ← targetOf ctx (← get).scope span name args target
    if args.length ≠ target.params.length then
      refuse (.argumentCount target.params.length args.length) span
    let code ← lowerArguments ctx start #[] target.params args
    return (target.returns, code.push (← target.lower ctx span args.length))

/-- The code of statements in order, after that of the statements before them, the last of which has
type `last`. Only the value of the very last one is kept. -/
def lowerStatements (ctx : Context) (start : Nat) (last : StaticType) (before : Code) :
    List Expr → Lower (StaticType × Code)
  | [] => return (last, before)
  | e :: es => do
    let before := before ++ dropValue last
    let (type, code) ← lower ctx (start + before.size) e
    lowerStatements ctx start type (before ++ code) es

/-- The code of arguments in order, after that of the arguments before them. -/
def lowerArguments (ctx : Context) (start : Nat) (before : Code) :
    List StaticType → List Expr → Lower Code
  | expected :: params, e :: es => do
    let (type, code) ← lower ctx (start + before.size) e
    if type = .void then refuse .argumentWithoutValue e.span
    if !expected.accepts type then refuse (.argumentMismatch expected type) e.span
    lowerArguments ctx start (before ++ code ++ expectation expected type) params es
  | _, _ => return before

end

end Expr

/-- A schema with the name it is known by. -/
structure Definition where
  name : String
  resource? : Option ResourceId := none
  schema : Schema

namespace Definition

/-- How messages name the source of a schema. -/
def label (d : Definition) : String := (d.resource?.map (·.display)).getD d.name

def params (d : Definition) : List (String × StaticType) :=
  d.schema.params.map fun p => (p.name, p.type)

def signature (d : Definition) : Signature := ⟨d.name, d.params, d.schema.returns⟩

def declareParams : List Param → Lower Unit
  | [] => return ()
  | p :: ps => do
    if (← Lower.find? p.name).isSome then refuse (.duplicateParameter p.name) p.span
    let _ ← Lower.declare p.name p.type p.span
    declareParams ps

/-- What the value of the body needs to be the result. A string becomes text where text is to be
returned. -/
def conversion (d : Definition) (found : StaticType) (span : Span) : Compiled Code :=
  let returns := d.schema.returns
  if found = .void then refuse (.nothingToReturn d.name returns) span
  else if returns = .text ∧ found = .string then .ok #[.toText]
  else if returns.accepts found then .ok (expectation returns found)
  else refuse (.returnMismatch d.name returns found) span

/-- The code of a body, with its return. -/
def lowerBody (ctx : Context) (d : Definition) : Lower Code := do
  match d.schema.body with
  | .block span statements =>
    let (type, code) ← Expr.lowerStatements ctx 0 .void #[] statements
    if d.schema.returns = .void then return (code ++ dropValue type).push .returnVoid
    else
      let last := (statements.getLast?.map (·.span)).getD span
      return (code ++ (← d.conversion type last)).push .returnValue
  | e => refuse .bodyIsNotBlock e.span

def lower (ctx : Context) (d : Definition) : Lower Routine := do
  declareParams d.schema.params
  let code ← d.lowerBody ctx
  let scope := (← get).scope
  return {
    name := d.name, resource? := d.resource?, params := d.params, returns := d.schema.returns, code
    localCount := scope.slotCount, localNames := scope.slotNames }

/-- Errors name the source they are in. -/
def lowerWith (ctx : Context) (pools : Pools) (d : Definition) : Compiled (Routine × Pools) :=
  ((d.lower ctx).run { pools }).map (fun (r, s) => (r, s.pools))
    |>.mapError (·.inSource d.label)

/-- What calls can be bound to, when no two definitions have one name. -/
def signatures (known : Table String Signature) : List Definition →
    Compiled (Table String Signature)
  | [] => .ok known
  | d :: ds =>
    if known.contains d.name then
      (refuse (.duplicateSchema d.name) d.schema.span).mapError (·.inSource d.label)
    else signatures (known.insert d.name d.signature) ds

def lowerAll (ctx : Context) (pools : Pools) (routines : Array Routine) : List Definition →
    Compiled (Array Routine × Pools)
  | [] => .ok (routines, pools)
  | d :: ds => do
    let (r, pools) ← d.lowerWith ctx pools
    lowerAll ctx pools (routines.push r) ds

end Definition

/-- The program of all these schemas, or the first complaint about one of them. -/
def Program.ofDefinitions (registry : Registry) (limits : Limits) (ds : List Definition) :
    Compiled Program := do
  let schemas ← Definition.signatures Table.empty ds
  if schemas.size > maxPosition then refuse .tooManySchemas .none
  let (routines, pools) ← Definition.lowerAll ⟨registry, schemas⟩ {} #[] ds
  return {
    routines, limits
    constants := pools.literals.entries.map (·.1)
    hosts := pools.hosts.entries.map (·.2) }

end EventScript
