import Mathlib.Data.Int.Notation

/-!
# Template programs

The tree of a parsed template.  Every node has an annotation, such as its place in the source.  A
pointer that may be null is an option.
-/

namespace Llama.Jinja

/-- `statement`, with annotations in `α` and `double`s in `F`. -/
inductive Statement (α F : Type)
  | ifStatement (info : α) (test : Statement α F) (body alternate : List (Statement α F))
  | forStatement (info : α) (loopvar iterable : Statement α F)
      (body defaultBlock : List (Statement α F))
  | breakStatement (info : α)
  | continueStatement (info : α)
  | noopStatement (info : α)
  | setStatement (info : α) (assignee : Statement α F) (val : Option (Statement α F))
      (body : List (Statement α F))
  | macroStatement (info : α) (name : Statement α F) (args body : List (Statement α F))
  | commentStatement (info : α) (val : String)
  | blankExpression (info : α)
  | memberExpression (info : α) (object property : Statement α F) (computed : Bool)
  | callExpression (info : α) (callee : Statement α F) (args : List (Statement α F))
  | identifier (info : α) (val : String)
  | integerLiteral (info : α) (val : ℤ)
  | floatLiteral (info : α) (val : F)
  | stringLiteral (info : α) (val : String)
  | arrayLiteral (info : α) (val : List (Statement α F))
  | tupleLiteral (info : α) (val : List (Statement α F))
  | objectLiteral (info : α) (val : List (Statement α F × Statement α F))
  | binaryExpression (info : α) (op : String) (left right : Statement α F)
  | filterExpression (info : α) (operand filter : Statement α F)
  | filterStatement (info : α) (filter : Statement α F) (body : List (Statement α F))
  | selectExpression (info : α) (lhs test : Statement α F)
  | testExpression (info : α) (operand : Statement α F) (negate : Bool) (test : Statement α F)
  | unaryExpression (info : α) (op : String) (argument : Statement α F)
  | sliceExpression (info : α) (start stop step : Option (Statement α F))
  | keywordArgumentExpression (info : α) (key val : Statement α F)
  | spreadExpression (info : α) (argument : Statement α F)
  | callStatement (info : α) (call : Statement α F) (callerArgs body : List (Statement α F))
  | ternaryExpression (info : α) (condition trueExpr falseExpr : Statement α F)

namespace Statement

variable {α F : Type}

/-- The annotation of a node. -/
def info : Statement α F → α
  | ifStatement info .. => info
  | forStatement info .. => info
  | breakStatement info => info
  | continueStatement info => info
  | noopStatement info => info
  | setStatement info .. => info
  | macroStatement info .. => info
  | commentStatement info _ => info
  | blankExpression info => info
  | memberExpression info .. => info
  | callExpression info .. => info
  | identifier info _ => info
  | integerLiteral info _ => info
  | floatLiteral info _ => info
  | stringLiteral info _ => info
  | arrayLiteral info _ => info
  | tupleLiteral info _ => info
  | objectLiteral info _ => info
  | binaryExpression info .. => info
  | filterExpression info .. => info
  | filterStatement info .. => info
  | selectExpression info .. => info
  | testExpression info .. => info
  | unaryExpression info .. => info
  | sliceExpression info .. => info
  | keywordArgumentExpression info .. => info
  | spreadExpression info _ => info
  | callStatement info .. => info
  | ternaryExpression info .. => info

def type : Statement α F → String
  | ifStatement .. => "If"
  | forStatement .. => "For"
  | breakStatement .. => "Break"
  | continueStatement .. => "Continue"
  | noopStatement .. => "Noop"
  | setStatement .. => "Set"
  | macroStatement .. => "Macro"
  | commentStatement .. => "Comment"
  | blankExpression .. => "BlankExpression"
  | memberExpression .. => "MemberExpression"
  | callExpression .. => "CallExpression"
  | identifier .. => "Identifier"
  | integerLiteral .. => "IntegerLiteral"
  | floatLiteral .. => "FloatLiteral"
  | stringLiteral .. => "StringLiteral"
  | arrayLiteral .. => "ArrayLiteral"
  | tupleLiteral .. => "TupleLiteral"
  | objectLiteral .. => "ObjectLiteral"
  | binaryExpression .. => "BinaryExpression"
  | filterExpression .. => "FilterExpression"
  | filterStatement .. => "FilterStatement"
  | selectExpression .. => "SelectExpression"
  | testExpression .. => "TestExpression"
  | unaryExpression .. => "UnaryExpression"
  | sliceExpression .. => "SliceExpression"
  | keywordArgumentExpression .. => "KeywordArgumentExpression"
  | spreadExpression .. => "SpreadExpression"
  | callStatement .. => "CallStatement"
  | ternaryExpression .. => "Ternary"

end Statement

end Llama.Jinja
