import EventScript.Diagnostic
import EventScript.Resource
import EventScript.Scope
import EventScript.Syntax

/-!
Types of expressions and targets of calls. A call is bound when its type is first asked for: to the
operation of its name, to the operation named after its first argument's type, or to the schema
whose name is the mangled form of either. What was bound stays bound, also when typing fails later.
-/
namespace EventScript

/-- What callers need to know of a schema. -/
structure Signature where
  name : String
  params : List (String × StaticType)
  returns : StaticType
deriving DecidableEq

/-- What calls can be bound to: the operations, and the schemas compiled together. -/
structure Context where
  registry : Registry
  schemas : Table String Signature

/-- The fields a call must fill, with their names. -/
structure Callee where
  name : String
  fields : List (String × StaticType)
  target : Target

namespace Callee

def ofOperation (op : Operation) : Callee :=
  ⟨op.name, op.fields.map fun f => (f.name, f.type), .operation op⟩

def ofSignature (s : Signature) : Callee :=
  ⟨s.name, s.params, .schema s.name (s.params.map (·.2)) s.returns⟩

def checkCount (c : Callee) (count : Nat) (span : Span) : Compiled Unit :=
  if count < c.fields.length then refuse (.tooFewArguments c.name c.fields.length count) span
  else if c.fields.length < count then
    refuse (.tooManyArguments c.name c.fields.length count) span
  else .ok ()

/-- Even a field of type `any` needs a value. -/
def checkField (c : Callee) (field : String × StaticType) (actual : StaticType) (span : Span) :
    Compiled Unit :=
  if actual = .void then refuse (.fieldWithoutValue field.1 c.name) span
  else if field.2.accepts actual then .ok ()
  else refuse (.fieldMismatch field.1 c.name field.2 actual) span

end Callee

namespace Context

/-- The name under which a call is tried with its first argument's type. -/
def alternate (type : StaticType) (name : String) : String := type.name ++ "/" ++ name

/-- The first of four: an operation of the name, one of the alternate name, a schema of the mangled
name, one of the mangled alternate name. -/
def callee? (ctx : Context) (name alternate : String) : Option Callee :=
  ((ctx.registry.find? name <|> ctx.registry.find? alternate).map .ofOperation) <|>
    ((ctx.schemas.find? (mangle name) <|> ctx.schemas.find? (mangle alternate)).map .ofSignature)

def callee (ctx : Context) (name alternate : String) (span : Span) : Compiled Callee :=
  match ctx.callee? name alternate with
  | some c => .ok c
  | none => refuse (.unresolvedCall name alternate (mangle name) (mangle alternate)) span

end Context

namespace Expr

mutual

/-- The type of an expression, and the expression with the calls bound that had to be. -/
def infer (ctx : Context) (scope : Scope) : Expr → Compiled StaticType × Expr
  | .number span n => (.ok .number, .number span n)
  | .arithmetic span op left right => (.ok .number, .arithmetic span op left right)
  | .string span s => (.ok .string, .string span s)
  | .text span markup => (.ok .text, .text span markup)
  | .bool span b => (.ok .bool, .bool span b)
  | .read span name =>
    match scope.find? name with
    | some l => (.ok l.type, .read span name)
    | none => (refuse (.undefinedVariable name) span, .read span name)
  | .write span name value => (.ok .void, .write span name value)
  | .branch span condition thenBody elseBody =>
    (.ok .void, .branch span condition thenBody elseBody)
  | .loop span count body => (.ok .void, .loop span count body)
  | .each span name sequence body => (.ok .void, .each span name sequence body)
  | .block span statements =>
    let (type, statements) := inferLast ctx scope statements
    (type, .block span statements)
  | .bound span target args => (.ok target.returns, .bound span target args)
  | .call span name args (some target) => (.ok target.returns, .call span name args (some target))
  | .call span name args none =>
    let (target, args) := bindCall ctx scope span name args
    (target.map (·.returns), .call span name args target.toOption)

/-- The type of the last statement. -/
def inferLast (ctx : Context) (scope : Scope) : List Expr → Compiled StaticType × List Expr
  | [] => (.ok .void, [])
  | [e] =>
    let (type, e) := infer ctx scope e
    (type, [e])
  | e :: f :: es =>
    let (type, es) := inferLast ctx scope (f :: es)
    (type, e :: es)

/-- The target of a call that is not bound yet. The first argument is typed before the target is
looked for, unless an operation has the very name; the others when the target is known. -/
def bindCall (ctx : Context) (scope : Scope) (span : Span) (name : String) :
    List Expr → Compiled Target × List Expr
  | [] =>
    (do
      let c ← ctx.callee name name span
      c.checkCount 0 span
      return c.target, [])
  | a :: as =>
    match ctx.registry.find? name with
    | some op =>
      let c := Callee.ofOperation op
      match c.checkCount (as.length + 1) span with
      | .error e => (.error e, a :: as)
      | .ok () =>
        let (type, b) := infer ctx scope a
        match type.bind fun type => (c.fields.head?.elim (.ok ())
            fun f => c.checkField f type a.span) with
        | .error e => (.error e, b :: as)
        | .ok () =>
          let (rest, bs) := inferFields ctx scope c c.fields.tail as
          (rest.map fun () => c.target, b :: bs)
    | none =>
      let (type, b) := infer ctx scope a
      match (do
          let type ← type
          let c ← ctx.callee name (Context.alternate type name) span
          c.checkCount (as.length + 1) span
          c.fields.head?.elim (.ok ()) fun f => c.checkField f type a.span
          return c : Compiled Callee) with
      | .error e => (.error e, b :: as)
      | .ok c =>
        let (rest, bs) := inferFields ctx scope c c.fields.tail as
        (rest.map fun () => c.target, b :: bs)

/-- Whether the arguments fill the fields, as far as there are both. -/
def inferFields (ctx : Context) (scope : Scope) (c : Callee) :
    List (String × StaticType) → List Expr → Compiled Unit × List Expr
  | f :: fs, a :: as =>
    let (type, b) := infer ctx scope a
    match type.bind fun type => c.checkField f type a.span with
    | .error e => (.error e, b :: as)
    | .ok () =>
      let (rest, bs) := inferFields ctx scope c fs as
      (rest, b :: bs)
  | _, as => (.ok (), as)

end

/-- The type of an expression in a scope. -/
def typeOf (ctx : Context) (scope : Scope) (e : Expr) : Compiled StaticType :=
  (e.infer ctx scope).1

/-- What a call with these arguments is bound to, if it was not bound before. -/
def targetOf (ctx : Context) (scope : Scope) (span : Span) (name : String) (args : List Expr) :
    Option Target → Compiled Target
  | some target => .ok target
  | none => (bindCall ctx scope span name args).1

/-- The name a call is tried under besides its own: its own again if it has no argument. -/
def alternateName (ctx : Context) (scope : Scope) (name : String) :
    List Expr → Compiled String × List Expr
  | [] => (.ok name, [])
  | a :: as =>
    let (type, a) := a.infer ctx scope
    (type.map (Context.alternate · name), a :: as)

end Expr

end EventScript
