/-!
Operators: their symbols, where a symbol stands among its arguments, and how tightly they bind. A higher
number binds looser, and an argument is parenthesised when it binds looser than its operator.
-/

namespace SqlCompose

/-- Where the symbol of an operator goes. -/
inductive Fixity
  /-- In front of each argument. -/
  | before
  /-- Between the arguments, without blanks. -/
  | between
  /-- Behind the arguments. -/
  | behind
  /-- In front of the parenthesised arguments. -/
  | call
  /-- Between the arguments, with blanks. -/
  | spaced
deriving DecidableEq

/-! The bands of binding strength. -/

namespace Precedence

/-- Constants, columns and other atoms. -/
def atom : Nat := 0
def call : Nat := 1
def multiplicative : Nat := 3
def additive : Nat := 4
def relational : Nat := 6
def equality : Nat := 7
def isNull : Nat := 8
def negation : Nat := 10
def conjunction : Nat := 11
/-- Statements used as values, and membership tests. -/
def statement : Nat := 16
/-- Tables and joins used as values. -/
def view : Nat := 17

end Precedence

/-- An operator or a function. -/
inductive Operator
  | add
  | subtract
  | multiply
  | divide
  | equals
  | greater
  | less
  | and
  | concat
  | isIn
  | not
  | isNull
  | sum
  | avg
  | count
  | countDistinct
  /-- Any other function, called by its name. -/
  | function (name : String)
deriving DecidableEq

namespace Operator

/-- The text of an operator. -/
def symbol : Operator → String
  | add => "+"
  | subtract => "-"
  | multiply => "*"
  | divide => "/"
  | equals => "="
  | greater => ">"
  | less => "<"
  | and => "AND"
  | concat => "||"
  | isIn => "IN"
  | not => "NOT"
  | isNull => "IS NULL"
  | sum => "SUM"
  | avg => "AVG"
  | count | countDistinct => "COUNT"
  | function name => name

def fixity : Operator → Fixity
  | add | subtract | multiply | divide | equals | greater | less | concat => .between
  | and | isIn => .spaced
  | not => .before
  | isNull => .behind
  | sum | avg | count | countDistinct | function _ => .call

def precedence : Operator → Nat
  | multiply | divide => Precedence.multiplicative
  | add | subtract | concat => Precedence.additive
  | greater | less => Precedence.relational
  | equals => Precedence.equality
  | isNull => Precedence.isNull
  | not => Precedence.negation
  | and => Precedence.conjunction
  | isIn => Precedence.statement
  | sum | avg | count | countDistinct | function _ => Precedence.call

end Operator

end SqlCompose
