import DocIndex.Document.Path
import DocIndex.Error

/-! # Selectors

A selector tells which documents a query asks for: conditions on fields, combined by `and` and `or`,
and a full-text search. `Selector.ofJson?` reads the request form, in which the clauses of an object all
have to hold. Negations are folded away where a condition has a plain opposite.
-/

namespace DocIndex

inductive Operator where
  | eq | lt | lte | gt | gte
  deriving DecidableEq, Repr

namespace Operator

def text : Operator → String
  | .eq => "="
  | .lt => "<"
  | .lte => "<="
  | .gt => ">"
  | .gte => ">="

def label : Operator → String
  | .eq => "Eq"
  | .lt => "Lt"
  | .lte => "Lte"
  | .gt => "Gt"
  | .gte => "Gte"

def admits : Operator → Ordering → Bool
  | .eq, o => o == .eq
  | .lt, o => o == .lt
  | .lte, o => o != .gt
  | .gt, o => o == .gt
  | .gte, o => o != .lt

end Operator

inductive Condition where
  | compare (operator : Operator) (value : Json)
  | oneOf (values : List Json)
  /-- The field has a value, or has none. -/
  | present (expected : Bool)
  /-- The field has a value, and none of its values satisfies the inner condition. -/
  | not (inner : Condition)
  deriving Repr

namespace Condition

def negate : Condition → Condition
  | .present expected => .present !expected
  | .not inner => inner
  | c => .not c

def isNegative : Condition → Bool
  | .not _ | .present false => true
  | _ => false

def outline : Condition → String
  | .compare op v => "Compare(" ++ op.label ++ ", " ++ v.outline ++ ")"
  | .oneOf vs => "In([" ++ ", ".intercalate (vs.map Json.outline) ++ "])"
  | .present expected => "Exists(" ++ toString expected ++ ")"
  | .not inner => "Not(" ++ inner.outline ++ ")"

end Condition

inductive Selector where
  | and (parts : List Selector)
  | or (parts : List Selector)
  | field (path : String) (condition : Condition)
  | text (search : String)
  deriving Repr

def checkPath (path : String) : Except QueryFault Unit :=
  if Path.isValid path then .ok () else .error (.badPath path)

def isOperatorKey (key : String) : Bool := key.toList.head? == some '$'

namespace Condition

def operand? (path : String) (v : Json) : Except QueryFault Json :=
  if v.isComparable then .ok v
  else match v with
    | .null => .error (.nullOperand path)
    | _ => .error (.operandType path)

def operands? (path : String) : List Json → Except QueryFault (List Json)
  | [] => .ok []
  | v :: rest => do
    let first ← operand? path v
    .ok (first :: (← operands? path rest))

def comparison? (path : String) (op : Operator) (v : Json) : Except QueryFault Condition :=
  (operand? path v).map (.compare op)

def membership? (path key : String) (v : Json) : Except QueryFault Condition :=
  match v with
  | .array items => (operands? path items).map .oneOf
  | _ => .error (.listOperand key path)

def ofJson? (path key : String) : Json → Except QueryFault Condition := fun v =>
  if key = "$eq" then comparison? path .eq v
  else if key = "$lt" then comparison? path .lt v
  else if key = "$lte" then comparison? path .lte v
  else if key = "$gt" then comparison? path .gt v
  else if key = "$gte" then comparison? path .gte v
  else if key = "$ne" then (comparison? path .eq v).map negate
  else if key = "$in" then membership? path key v
  else if key = "$nin" then (membership? path key v).map negate
  else if key = "$exists" then
    match v with
    | .bool expected => .ok (.present expected)
    | _ => .error (.existsOperand path)
  else if key = "$not" then
    match v with
    | .object [(inner, w)] =>
      if isOperatorKey inner then (ofJson? path inner w).map negate else .error (.notOperators path)
    | .object _ => .error (.notOperators path)
    | _ => .error (.notOperand path)
  else .error (.unknownFieldOperator key path)

end Condition

namespace Selector

/-- All of the clauses; a single clause stands for itself. -/
def conjunction : List Selector → Selector
  | [s] => s
  | parts => .and parts

def conditions? (path : String) : List (String × Json) → Except QueryFault (List Condition)
  | [] => .ok []
  | (key, v) :: rest => do
    let first ← Condition.ofJson? path key v
    .ok (first :: (← conditions? path rest))

def field? (path : String) (v : Json) : Except QueryFault Selector :=
  match v with
  | .object members =>
    if members.isEmpty || !members.all (isOperatorKey ·.1) then .error (.comparison path)
    else do
      let conditions ← conditions? path members
      .ok (conjunction (conditions.map (.field path)))
  | v => (Condition.comparison? path .eq v).map (.field path)

def search? (v : Json) : Except QueryFault Selector :=
  match v with
  | .object [("$search", .string s)] => .ok (.text s)
  | _ => .error .textShape

mutual

/-- Read a selector. `underOr` tells whether it is part of an alternative, where no search is allowed. -/
def read? (underOr : Bool) : Json → Except QueryFault Selector
  | .object members => do .ok (conjunction (← clauses? underOr members))
  | v => .error (.selectorNotObject v)

def clauses? (underOr : Bool) : List (String × Json) → Except QueryFault (List Selector)
  | [] => .ok []
  | (key, v) :: rest => do
    let first ← clause? underOr key v
    .ok (first :: (← clauses? underOr rest))

def clause? (underOr : Bool) (key : String) : Json → Except QueryFault Selector := fun v =>
  if key = "$and" then
    match v with
    | .array items => do .ok (.and (← items? underOr items))
    | _ => .error (.selectorList key)
  else if key = "$or" then
    match v with
    | .array items => do
      let parts ← items? true items
      if parts.isEmpty then .error .emptyOr else .ok (.or parts)
    | _ => .error (.selectorList key)
  else if key = "$text" then
    if underOr then .error .textUnderOr else search? v
  else if isOperatorKey key then .error (.unknownOperator key)
  else do
    checkPath key
    field? key v

def items? (underOr : Bool) : List Json → Except QueryFault (List Selector)
  | [] => .ok []
  | v :: rest => do
    let first ← read? underOr v
    .ok (first :: (← items? underOr rest))

end

def ofJson? (v : Json) : Except QueryError Selector := (read? false v).mapError .invalidQuery

end Selector

end DocIndex
