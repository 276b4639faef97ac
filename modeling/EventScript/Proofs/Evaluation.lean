import EventScript.Proofs.Lowering.Layout
import EventScript.Proofs.Machine.Unlimited

/-!
Direct evaluation of trees. Statements are carried out in order and their values dropped, operands
and arguments from left to right, and a value of static type `any` is looked at as soon as it is
there. Variables are known by their names; loops keep their counts to themselves.
-/
namespace EventScript

/-- What outlives a call: the world, and the callbacks called so far with their arguments. -/
structure Store where
  world : World
  calls : List (HostFunction × List Value) := []

/-- The variables of a call, as far as they have been assigned. -/
abbrev Env := String → Option Value

/-- Evaluation within a call. There is no answer if the fuel is spent. -/
abbrev Eval := StateT Env (ExceptT RuntimeError (StateT Store Option))

/-- What is made of two numbers. The right one is looked at first. -/
def Effect.both {α : Type} (op : Number → Number → α) (a b : Value) : Effect α := do
  let b ← number b
  let a ← number a
  return op a b

namespace Eval

variable {α : Type}

def noAnswer : Eval α := fun _ _ => none

/-- An effect as part of an evaluation. -/
def lift (x : Effect α) : Eval α := fun env store =>
  let (result, world) := x store.world
  some (result.map (·, env), { store with world })

/-- The value of a variable of the running schema. -/
def read (routine name : String) : Eval Value := fun env store =>
  match env name with
  | some v => some (.ok (v, env), store)
  | none => some (.error (.unassigned routine name), store)

def assign (name : String) (v : Value) : Eval Unit :=
  modify fun env other => if other = name then some v else env other

def binary (op : Number → Number → α) (a b : Value) : Eval α := lift (Effect.both op a b)

/-- A result that must be a value. -/
def value (x : Eval (Option Value)) : Eval Value := do
  match ← x with
  | some v => return v
  | none => noAnswer

/-- What is looked at when a value arrives where a type is expected. -/
def arrive (expected type : StaticType) (v : Value) : Eval Value :=
  match (if type = .any then expected.runtimeKind? else none) with
  | some kind => if v.kind = kind then return v else throw (.mismatch kind.name v)
  | none => return v

def operand (expected type : StaticType) (x : Eval (Option Value)) : Eval Value := do
  arrive expected type (← value x)

/-- Calls back, and keeps the answer if it is wanted. -/
def host (call : HostFunction) (args : List Value) (returns : Bool) : Eval (Option Value) :=
  fun env store =>
    lift (Effect.host call args returns) env
      { store with calls := store.calls ++ [(call, args)] }

/-- Carries out the body while the counter is at least one, and counts down. -/
def countdown (body : Eval Unit) : (rounds : Nat) → Value → Eval Unit
  | 0, _ => noAnswer
  | rounds + 1, counter => do
    if ← binary (·.atLeast ·) counter (.number .one) then
      body
      countdown body rounds (← binary (.number <| ·.sub ·) counter (.number .one))

/-- Carries out the body for the item at each index while the list is longer. -/
def forEach (name : String) (body : Eval Unit) (items : Value) :
    (rounds : Nat) → Value → Eval Unit
  | 0, _ => noAnswer
  | rounds + 1, index => do
    let size ← value (lift (NativeOp.listSize.apply [items]))
    if ← binary (·.below ·) index size then
      assign name (← value (lift (NativeOp.listGet.apply [items, index])))
      body
      forEach name body items rounds (← binary (.number <| ·.add ·) index (.number .one))

end Eval

/-- What evaluation within a schema depends on. -/
structure Evaluator where
  ctx : Context
  /-- The schema that is evaluated. -/
  routine : String
  /-- How often a loop may come round. -/
  rounds : Nat
  /-- Calls a schema by its name. -/
  call : String → List Value → Store → Option (Answer × Store)

/-- What a call is bound to does with its arguments. -/
def Evaluator.invoke (m : Evaluator) (target : Target) (args : List Value) : Eval (Option Value) :=
  match target with
  | .operation op =>
    match op.action with
    | .native native => .lift (native.apply args)
    | .host call => .host call args (op.returns ≠ .void)
  | .schema name _ _ => fun env store =>
    (m.call name args store).map fun (answer, store) => (answer.map (·, env), store)

/-- The scope in which a variable of this name is declared. -/
def Scope.declared (s : Scope) (name : String) (type : StaticType) : Scope :=
  ((s.declare? name type).map (·.2)).getD s

namespace Expr

mutual

/-- The static type of a tree, and the scope behind it. -/
def typing (ctx : Context) (scope : Scope) : Expr → StaticType × Scope
  | .number _ _ => (.number, scope)
  | .string _ _ => (.string, scope)
  | .text _ _ => (.text, scope)
  | .bool _ _ => (.bool, scope)
  | .read _ name => (((scope.find? name).map (·.type)).getD .void, scope)
  | .write _ name value =>
    let (type, scope) := value.typing ctx scope
    (.void, scope.declared name type)
  | .arithmetic _ _ left right => (.number, (right.typing ctx (left.typing ctx scope).2).2)
  | .branch _ condition thenBody none =>
    (.void, (thenBody.typing ctx (condition.typing ctx scope).2).2)
  | .branch _ condition thenBody (some elseBody) =>
    (.void, (elseBody.typing ctx (thenBody.typing ctx (condition.typing ctx scope).2).2).2)
  | .loop _ count body => (.void, (body.typing ctx (count.typing ctx scope).2.skip).2)
  | .each _ name sequence body =>
    (.void, (body.typing ctx ((sequence.typing ctx scope).2.skip.skip.declared name .any)).2)
  | .block _ statements => typingStatements ctx scope .void statements
  | .bound _ target args => (target.returns, typingArguments ctx scope args)
  | .call span name args target =>
    (((targetOf ctx scope span name args target).toOption.map (·.returns)).getD .void,
      typingArguments ctx scope args)

/-- The type of the last of these statements, or of the one before them. -/
def typingStatements (ctx : Context) (scope : Scope) (last : StaticType) :
    List Expr → StaticType × Scope
  | [] => (last, scope)
  | e :: es =>
    let (type, scope) := e.typing ctx scope
    typingStatements ctx scope type es

def typingArguments (ctx : Context) (scope : Scope) : List Expr → Scope
  | [] => scope
  | e :: es => typingArguments ctx (e.typing ctx scope).2 es

end

mutual

/-- The value of a tree, if it has one. -/
def eval (m : Evaluator) (scope : Scope) : Expr → Eval (Option Value)
  | .number _ n => return some (.number n)
  | .string _ s => return some (.string s)
  | .text _ markup =>
    match RichText.parseMarkup markup with
    | .ok t => return some (.text t)
    | .error _ => .noAnswer
  | .bool _ b => return some (.number (.ofBool b))
  | .read span name => do
    let v ← Eval.read m.routine name
    return if (typing m.ctx scope (.read span name)).1 = .void then none else some v
  | .write _ name value => do
    let (type, behind) := value.typing m.ctx scope
    let expected := ((behind.find? name).map (·.type)).getD type
    Eval.assign name (← Eval.operand expected type (value.eval m scope))
    return none
  | .arithmetic _ op left right => do
    let (leftType, behind) := left.typing m.ctx scope
    let a ← Eval.operand .number leftType (left.eval m scope)
    let b ← Eval.operand .number (right.typing m.ctx behind).1 (right.eval m behind)
    return some (.number (← Eval.binary op.apply a b))
  | .branch _ condition thenBody none => do
    let (type, behind) := condition.typing m.ctx scope
    let v ← Eval.operand .bool type (condition.eval m scope)
    if ← Eval.lift (Effect.truth v) then
      let _ ← thenBody.eval m behind
    return none
  | .branch _ condition thenBody (some elseBody) => do
    let (type, behind) := condition.typing m.ctx scope
    let v ← Eval.operand .bool type (condition.eval m scope)
    if ← Eval.lift (Effect.truth v) then
      let _ ← thenBody.eval m behind
    else
      let _ ← elseBody.eval m (thenBody.typing m.ctx behind).2
    return none
  | .loop _ count body => do
    let (type, behind) := count.typing m.ctx scope
    let counter ← Eval.operand .number type (count.eval m scope)
    Eval.countdown (do let _ ← body.eval m behind.skip) m.rounds counter
    return none
  | .each _ name sequence body => do
    let (type, behind) := sequence.typing m.ctx scope
    let items ← Eval.operand .list type (sequence.eval m scope)
    let inner := behind.skip.skip.declared name .any
    Eval.forEach name (do let _ ← body.eval m inner) items m.rounds (.number .zero)
    return none
  | .block _ statements => evalStatements m scope none statements
  | .bound _ target args => do m.invoke target (← evalArguments m scope target.params args)
  | .call span name args target =>
    match targetOf m.ctx scope span name args target with
    | .ok target => do m.invoke target (← evalArguments m scope target.params args)
    | .error _ => .noAnswer

/-- The value of the last of these statements, or of the one before them. -/
def evalStatements (m : Evaluator) (scope : Scope) (last : Option Value) :
    List Expr → Eval (Option Value)
  | [] => return last
  | e :: es => do evalStatements m (e.typing m.ctx scope).2 (← e.eval m scope) es

def evalArguments (m : Evaluator) (scope : Scope) : List StaticType → List Expr → Eval (List Value)
  | expected :: params, e :: es => do
    let (type, behind) := e.typing m.ctx scope
    let v ← Eval.operand expected type (e.eval m scope)
    return v :: (← evalArguments m behind params es)
  | _, _ => return []

end

end Expr

namespace Definition

/-- What a body's value is made for the result of the schema. -/
def answer (d : Definition) (type : StaticType) (last : Option Value) : Eval (Option Value) :=
  if d.schema.returns = .void then return none
  else do
    let v ← Eval.value (return last)
    if d.schema.returns = .text ∧ type = .string then .lift (Effect.toText v)
    else return some (← Eval.arrive d.schema.returns type v)

/-- The arguments of a call, under the names of the parameters. -/
def bind (d : Definition) (args : List Value) : Env := fun name =>
  ((d.schema.params.zip args).find? (·.1.name = name)).map (·.2)

/-- Evaluates the body of the schema. -/
def evalBody (m : Evaluator) (d : Definition) : Eval (Option Value) :=
  match d.schema.body with
  | .block _ statements => do
    let scope := Scope.ofParams d.schema.params
    let last ← Expr.evalStatements m scope none statements
    d.answer (Expr.typingStatements m.ctx scope .void statements).1 last
  | _ => .noAnswer

/-- Calls the schema of a name. -/
def evaluate (ctx : Context) (ds : List Definition) :
    (fuel : Nat) → String → List Value → Store → Option (Answer × Store)
  | 0, _, _, _ => none
  | fuel + 1, name, args, store =>
    match ds.find? (·.name = name) with
    | none => none
    | some d =>
      let m : Evaluator := ⟨ctx, d.name, fuel + 1, evaluate ctx ds fuel⟩
      (d.evalBody m (d.bind args) store).map fun (result, store) =>
        (result.map (·.1), store)

theorem evaluate_echo (registry : Registry) (world : World) :
    evaluate (.echo registry) [.echo] 1 "echo" [.number .one] ⟨world, []⟩ =
      some (.ok (some (.number .one)), ⟨world, []⟩) := by
  have hd : [echo].find? (·.name = "echo") = some echo := rfl
  have hfind : (Scope.ofParams echo.schema.params).find? "x" = some ⟨.number, 0⟩ :=
    Scope.find?_add_self
  have hbody : echo.schema.body = .block ⟨32, 37⟩ [.read ⟨34, 35⟩ "x"] := rfl
  simp only [evaluate, hd, evalBody, hbody, Expr.evalStatements, Expr.eval,
    Expr.typing, Expr.typingStatements, hfind]
  rfl

end Definition

end EventScript
