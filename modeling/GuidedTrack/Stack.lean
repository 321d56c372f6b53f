import GuidedTrack.Program

/-! # Reading within the call stack

The reader of expressions descends by recursion. The operand inside a bracket is read by calls that
are nested in the call that met the bracket: two for each level of binary operators, and one each
for sums, products, signs, postfix forms and the operand itself. The stack holds a fixed number of
calls. Where it is used up reading ends at once, whatever has been read by then.

What is counted is the run of signs and opening brackets that an expression statement starts with.
No fault can end the descent inside this run, so a statement whose run needs more calls than fit is
sure to use up the stack.
-/

namespace GuidedTrack.Stack

/-- The number of calls that fit on the stack. -/
def capacity : Nat := 1000

/-- The calls nested from a sign or an opening bracket to the operand behind it. -/
def calls (token : Token) : Nat :=
  match token.kind with
  | .leftParen => 2 * Expr.tiers.length + 5
  | .leftBracket | .leftBrace => 2 * Expr.tiers.length + 6
  | _ => if (Expr.sign? token).isSome then 1 else 0

/-- The calls nested where the last sign or bracket of those in front is read. -/
def descent (tokens : List Token) : Nat :=
  ((tokens.takeWhile (0 < calls ·)).dropLast.map calls).foldr (· + ·) 0

/-- Whether a line that starts with the token, `rest` behind it, uses up the stack. -/
def overflows (first : Token) (rest : List Token) : Bool :=
  let line := rest.takeWhile (!·.kind.isStructural)
  first.kind = .expressionStart && capacity < descent (line.filter (·.kind ≠ .comment))

/-- The tokens before the first line that uses up the stack. With `fresh`, a line starts here. -/
def beforeOverflow? (fresh : Bool) : List Token → Option (List Token)
  | [] => none
  | token :: rest =>
    if fresh && overflows token rest then some []
    else (beforeOverflow? token.kind.isStructural rest).map (token :: ·)

/-- Why reading ends early. -/
inductive Interruption where
  | numeral (error : Numeral.Error)
  | overflow

def Interruption.message : Interruption → String
  | numeral error => error.message
  | overflow => "maximum recursion depth exceeded"

/-- The program that a list of tokens makes. Lines are read in order, so a malformed numeral counts
only before the line that uses up the stack. -/
def ofTokens (tokens : List Token) : Except Interruption (Program × List Fault) :=
  match beforeOverflow? true (tokens.takeWhile (·.kind ≠ .endOfInput)) with
  | none => (Program.ofTokens tokens).mapError .numeral
  | some before =>
    match Program.ofTokens before with
    | .error error => .error (.numeral error)
    | .ok _ => .error .overflow

def ofSource (source : String) : Except Interruption (Program × List Fault) :=
  ofTokens (Token.ofSource source)

end GuidedTrack.Stack
