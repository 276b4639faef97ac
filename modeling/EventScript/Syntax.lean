import EventScript.Operation
import EventScript.Span

/-!
The tree of a schema. Every node has its span. A call as it is written carries the target it has
been bound to, if any; once bound it stays bound.
-/
namespace EventScript

inductive Arithmetic where
  | add | sub | mul | div
deriving DecidableEq

def Arithmetic.all : List Arithmetic := [.add, .sub, .mul, .div]

def Arithmetic.symbol : Arithmetic → String
  | add => "+"
  | sub => "-"
  | mul => "*"
  | div => "/"

/-- What a call is bound to: an operation, or a schema of the same module. -/
inductive Target where
  | operation (op : Operation)
  | schema (name : String) (params : List StaticType) (returns : StaticType)

namespace Target

def returns : Target → StaticType
  | operation op => op.returns
  | schema _ _ returns => returns

def params : Target → List StaticType
  | operation op => op.fields.map (·.type)
  | schema _ params _ => params

end Target

inductive Expr where
  | number (span : Span) (value : Number)
  | string (span : Span) (value : String)
  /-- Rich text, its markup not read yet. -/
  | text (span : Span) (markup : String)
  | bool (span : Span) (value : Bool)
  | read (span : Span) (name : String)
  | write (span : Span) (name : String) (value : Expr)
  | arithmetic (span : Span) (op : Arithmetic) (left right : Expr)
  | branch (span : Span) (condition thenBody : Expr) (elseBody : Option Expr)
  | loop (span : Span) (count body : Expr)
  | each (span : Span) (name : String) (sequence body : Expr)
  | block (span : Span) (statements : List Expr)
  /-- A call that was never in doubt. -/
  | bound (span : Span) (target : Target) (args : List Expr)
  /-- A call as written, with the target found for it. -/
  | call (span : Span) (name : String) (args : List Expr) (target : Option Target)

namespace Expr

instance : Inhabited Expr := ⟨.block .none []⟩

def span : Expr → Span
  | number span _ | string span _ | text span _ | bool span _ | read span _ | write span _ _
  | arithmetic span _ _ _ | branch span _ _ _ | loop span _ _ | each span _ _ _ | block span _
  | bound span _ _ | call span _ _ _ => span

end Expr

structure Param where
  name : String
  type : StaticType
  span : Span
deriving DecidableEq

/-- One source unit: a header, and a body that is a block when it was read from text. -/
structure Schema where
  name? : Option String
  params : List Param
  returns : StaticType
  body : Expr
  span : Span
deriving Inhabited

end EventScript
