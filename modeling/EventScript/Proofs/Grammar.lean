import EventScript.Syntax.Parser

/-!
The grammar of schemas. A derivation says how tokens are made of each other, and determines them and
the tree that they stand for. Repetitions are lists, whose items the tree takes in from the left.
-/
namespace EventScript

/-! ### Trees without places -/

namespace Expr

mutual

/-- The tree with every place forgotten. -/
def unspanned : Expr → Expr
  | .number _ n => .number .none n
  | .string _ s => .string .none s
  | .text _ markup => .text .none markup
  | .bool _ b => .bool .none b
  | .read _ name => .read .none name
  | .write _ name value => .write .none name value.unspanned
  | .arithmetic _ op left right => .arithmetic .none op left.unspanned right.unspanned
  | .branch _ condition thenBody none =>
    .branch .none condition.unspanned thenBody.unspanned none
  | .branch _ condition thenBody (some elseBody) =>
    .branch .none condition.unspanned thenBody.unspanned (some elseBody.unspanned)
  | .loop _ count body => .loop .none count.unspanned body.unspanned
  | .each _ name sequence body => .each .none name sequence.unspanned body.unspanned
  | .block _ statements => .block .none (allUnspanned statements)
  | .bound _ target args => .bound .none target (allUnspanned args)
  | .call _ name args target => .call .none name (allUnspanned args) target

def allUnspanned : List Expr → List Expr
  | [] => []
  | e :: es => e.unspanned :: allUnspanned es

end

theorem allUnspanned_eq_map (es : List Expr) : allUnspanned es = es.map unspanned := by
  induction es with
  | nil => rfl
  | cons e es ih => rw [allUnspanned, ih, List.map_cons]

end Expr

def Param.unspanned (p : Param) : Param := { p with span := .none }

/-- The schema with every place forgotten. -/
def Schema.unspanned (s : Schema) : Schema where
  name? := s.name?
  params := s.params.map Param.unspanned
  returns := s.returns
  body := s.body.unspanned
  span := .none

namespace Grammar

/-! ### Words -/

/-- A word that is no literal. -/
def BareName := {name : String // name ≠ "true" ∧ name ≠ "false"}

/-- A type that has a keyword. -/
def TypeName := {type : StaticType // type ∈ StaticType.keywords}

/-- The operators of the looser level. -/
inductive LooseOperator where
  | plus | star

/-- The operators of the tighter level. -/
inductive TightOperator where
  | minus | slash

def TypeName.token (t : TypeName) : Token := .ident t.1.name

namespace LooseOperator

def token : LooseOperator → Token
  | plus => .mark .plus
  | star => .mark .star

def arithmetic : LooseOperator → Arithmetic
  | plus => .add
  | star => .mul

end LooseOperator

namespace TightOperator

def token : TightOperator → Token
  | minus => .mark .minus
  | slash => .mark .slash

def arithmetic : TightOperator → Arithmetic
  | minus => .sub
  | slash => .div

end TightOperator

/-! ### Values -/

/-- `primary := number | string | text | 'true' | 'false' | name` -/
inductive Primary where
  | number (n : Number)
  | string (s : String)
  | text (markup : String)
  | bool (b : Bool)
  | name (name : BareName)

mutual

/-- `value := name '=' value | arrow` -/
inductive Value where
  | assign (name : BareName) (stored : Value)
  | arrow (a : Arrow)

/-- `arrow := term ('->' ident tuple)*` -/
inductive Arrow where
  | mk (receiver : Term) (calls : Arrows)

inductive Arrows where
  | done
  | call (name : String) (args : Arguments) (more : Arrows)

/-- `term := factor (('+' | '*') factor)*` -/
inductive Term where
  | mk (first : Factor) (more : Terms)

inductive Terms where
  | done
  | step (op : LooseOperator) (right : Factor) (more : Terms)

/-- `factor := invocation (('-' | '/') invocation)*` -/
inductive Factor where
  | mk (first : Invocation) (more : Factors)

inductive Factors where
  | done
  | step (op : TightOperator) (right : Invocation) (more : Factors)

/-- `invocation := primary | name tuple` -/
inductive Invocation where
  | primary (p : Primary)
  | call (name : BareName) (args : Arguments)

/-- What stands in a tuple: nothing, or values with commas between them and maybe one behind. -/
inductive Arguments where
  | none
  | last (v : Value)
  | more (v : Value) (rest : Arguments)

end

def Primary.token : Primary → Token
  | number n => .number n
  | string s => .string s
  | text markup => .text markup
  | bool true => .ident "true"
  | bool false => .ident "false"
  | name word => .ident word.1

def Primary.tree : Primary → Expr
  | number n => .number .none n
  | string s => .string .none s
  | text markup => .text .none markup
  | bool b => .bool .none b
  | name word => .read .none word.1

mutual

def Value.tokens : Value → List Token
  | .assign name stored => .ident name.1 :: .mark .equals :: stored.tokens
  | .arrow a => a.tokens

def Arrow.tokens : Arrow → List Token
  | .mk receiver calls => receiver.tokens ++ calls.tokens

def Arrows.tokens : Arrows → List Token
  | .done => []
  | .call name args more => .mark .arrow :: .ident name :: .mark .openParen ::
    (args.tokens ++ .mark .closeParen :: more.tokens)

def Term.tokens : Term → List Token
  | .mk first more => first.tokens ++ more.tokens

def Terms.tokens : Terms → List Token
  | .done => []
  | .step op right more => op.token :: (right.tokens ++ more.tokens)

def Factor.tokens : Factor → List Token
  | .mk first more => first.tokens ++ more.tokens

def Factors.tokens : Factors → List Token
  | .done => []
  | .step op right more => op.token :: (right.tokens ++ more.tokens)

def Invocation.tokens : Invocation → List Token
  | .primary p => [p.token]
  | .call name args => .ident name.1 :: .mark .openParen :: (args.tokens ++ [.mark .closeParen])

def Arguments.tokens : Arguments → List Token
  | .none => []
  | .last v => v.tokens
  | .more v rest => v.tokens ++ .mark .comma :: rest.tokens

end

mutual

/-- Assignments group to the right. -/
def Value.tree : Value → Expr
  | .assign name stored => .write .none name.1 stored.tree
  | .arrow a => a.tree

def Arrow.tree : Arrow → Expr
  | .mk receiver calls => calls.tree receiver.tree

/-- The receiver becomes the first argument. -/
def Arrows.tree (receiver : Expr) : Arrows → Expr
  | .done => receiver
  | .call name args more => more.tree (.call .none name (receiver :: args.trees) none)

def Term.tree : Term → Expr
  | .mk first more => more.tree first.tree

/-- Operators group to the left. -/
def Terms.tree (left : Expr) : Terms → Expr
  | .done => left
  | .step op right more => more.tree (.arithmetic .none op.arithmetic left right.tree)

def Factor.tree : Factor → Expr
  | .mk first more => more.tree first.tree

/-- Operators group to the left. -/
def Factors.tree (left : Expr) : Factors → Expr
  | .done => left
  | .step op right more => more.tree (.arithmetic .none op.arithmetic left right.tree)

def Invocation.tree : Invocation → Expr
  | .primary p => p.tree
  | .call name args => .call .none name.1 args.trees none

def Arguments.trees : Arguments → List Expr
  | .none => []
  | .last v => [v.tree]
  | .more v rest => v.tree :: rest.trees

end

/-! ### Statements -/

mutual

/-- `statement := 'repeat' value block | 'if' value block ('else' block)?
| 'foreach' ident 'in' value block | value`, where a block is statements in braces -/
inductive Statement where
  | loop (count : Value) (body : Statements)
  | branch (condition : Value) (thenBody : Statements)
  | branchElse (condition : Value) (thenBody elseBody : Statements)
  | each (name : String) (sequence : Value) (body : Statements)
  | value (v : Value)

inductive Statements where
  | done
  | step (s : Statement) (more : Statements)

end

/-- Statements in braces. -/
def braced (statements : List Token) : List Token :=
  .mark .openBrace :: (statements ++ [.mark .closeBrace])

mutual

def Statement.tokens : Statement → List Token
  | .loop count body => .keyword .loop :: (count.tokens ++ braced body.tokens)
  | .branch condition thenBody =>
    .keyword .branch :: (condition.tokens ++ braced thenBody.tokens)
  | .branchElse condition thenBody elseBody =>
    .keyword .branch :: (condition.tokens ++ (braced thenBody.tokens ++
      .keyword .otherwise :: braced elseBody.tokens))
  | .each name sequence body => .keyword .each :: .ident name :: .keyword .among ::
    (sequence.tokens ++ braced body.tokens)
  | .value v => v.tokens

def Statements.tokens : Statements → List Token
  | .done => []
  | .step s more => s.tokens ++ more.tokens

end

mutual

def Statement.tree : Statement → Expr
  | .loop count body => .loop .none count.tree (.block .none body.trees)
  | .branch condition thenBody =>
    .branch .none condition.tree (.block .none thenBody.trees) none
  | .branchElse condition thenBody elseBody =>
    .branch .none condition.tree (.block .none thenBody.trees) (some (.block .none elseBody.trees))
  | .each name sequence body => .each .none name sequence.tree (.block .none body.trees)
  | .value v => v.tree

def Statements.trees : Statements → List Expr
  | .done => []
  | .step s more => s.tree :: more.trees

end

/-! ### Schemas -/

/-- Parameters: none, or some with commas between them and maybe one behind. -/
inductive Params where
  | none
  | last (name : String) (type : TypeName)
  | more (name : String) (type : TypeName) (rest : Params)

namespace Params

def tokens : Params → List Token
  | none => []
  | last name type => [.ident name, type.token]
  | more name type rest => .ident name :: type.token :: .mark .comma :: rest.tokens

def trees : Params → List Param
  | none => []
  | last name type => [⟨name, type.1, .none⟩]
  | more name type rest => ⟨name, type.1, .none⟩ :: rest.trees

end Params

/-- `schema := 'schema' ident? '(' params ')' ('->' type)? block` -/
structure Schema where
  name? : Option String
  params : Params
  returns? : Option TypeName
  body : Statements

namespace Schema

def nameTokens : Option String → List Token
  | none => []
  | some name => [.ident name]

def resultTokens : Option TypeName → List Token
  | none => []
  | some type => [.mark .arrow, type.token]

def tokens (d : Schema) : List Token :=
  .keyword .schema :: (nameTokens d.name? ++ .mark .openParen :: (d.params.tokens ++
    .mark .closeParen :: (resultTokens d.returns? ++ braced d.body.tokens)))

/-- A schema that names no result has none. -/
def tree (d : Schema) : EventScript.Schema where
  name? := d.name?
  params := d.params.trees
  returns := d.returns?.elim .void (·.1)
  body := .block .none d.body.trees
  span := .none

end Schema

end Grammar

end EventScript
