import FormulaPlot.Formula.Prepared
import FormulaPlot.Formula.Reading.Basic

/-!
# Formula/Reading/Step — what one character does

An ordinary character goes to the operand or the bracket it stands in.  An operator ends the
operand and, mostly, takes the chain and the operand as its left side; only a multiplicative
operator after an additive one leaves the chain alone: it and the whole rest of the text are read
on their own, and become the chain's right side.  A bracket that closes has its content read on its
own.  How a text is read on its own is an argument of the step, `sub`.
-/

namespace FormulaPlot

/-- A way to read a text on its own, with a chain to start from or without. -/
abbrev SubReading := Option Chain → List Char → Except ParseError Node

/-- What a character leads to: another reading, or the tree of the whole text. -/
inductive Outcome where
  | more (r : Reading)
  | done (n : Node)
  deriving Repr, DecidableEq

/-! ## Operands -/

namespace Operand

/-- An opening bracket at `i`. -/
def openBracket (i : Nat) : Operand → Except ParseError Focus
  | empty => .ok (.bracket none 0 [])
  | callee f => .ok (.bracket (some f) 0 [])
  | _ => .error ⟨.operatorExpected, some i⟩

/-- The call mark at `i`. -/
def markCall (i : Nat) : Operand → Except ParseError Operand
  | name text => .ok (.callee (String.ofList text.reverse))
  | _ => .error ⟨.functionExpected, some i⟩

/-- An ordinary character at `i`: it starts an operand or goes on with one. -/
def push (i : Nat) (c : Char) : Operand → Except ParseError Operand
  | empty => .ok (if isNumeral c then number [c] else name [c])
  | number text => .ok (number (c :: text))
  | name text =>
    if isNumeral c then .error ⟨.operatorExpected, some i⟩ else .ok (name (c :: text))
  | finished _ => .error ⟨.operatorExpected, some i⟩
  | callee _ => .error ⟨.argumentExpected, some i⟩

/-- The tree of an operand that an operator at `i` ends. -/
def close (i : Nat) (o : Operand) : Except ParseError Node :=
  match o with
  | callee _ => .error ⟨.argumentExpected, some i⟩
  | _ =>
    match o.node? with
    | some node => .ok node
    | none => .error ⟨.operandExpected, some i⟩

end Operand

/-! ## Brackets -/

/-- The tree of a bracket that closes at `i`: its content, or the call of its function. -/
def closeBracket (limit : Nat) (sub : SubReading) (i : Nat) (callee : Option String)
    (content : List Char) : Except ParseError Node :=
  match callee with
  | some name => do
    let argument ← sub none content
    Node.join limit .apply (.leaf (.identifier name)) argument
  | none =>
    if content = [] then .error ⟨.emptyBrackets, some i⟩
    else sub none content

/-- A character at `i` inside a bracket. -/
def stepInside (limit : Nat) (sub : SubReading) (i : Nat) (c : Char) (callee : Option String)
    (inner : Nat) (content : List Char) : Except ParseError Focus :=
  if c = ')' then
    match inner with
    | 0 => do
      let node ← closeBracket limit sub i callee content.reverse
      pure (.operand (.finished node))
    | inner + 1 => .ok (.bracket callee inner (c :: content))
  else if c = '(' then .ok (.bracket callee (inner + 1) (c :: content))
  else .ok (.bracket callee inner (c :: content))

/-! ## Operators -/

/-- The operator `op` after `value`, with `rest` the text behind it. -/
def pushOperator (limit : Nat) (sub : SubReading) (op : Operator) (rest : List Char)
    (chain : Option Chain) (value : Node) : Except ParseError Outcome :=
  match chain with
  | none => .ok (.more (.start (some ⟨value, op⟩)))
  | some ⟨left, previous⟩ =>
    if previous.isAdditive && !op.isAdditive then do
      let nested ← sub (some ⟨value, op⟩) rest
      let node ← Node.join limit previous left nested
      pure (.done node)
    else do
      let node ← Node.join limit previous left value
      pure (.more (.start (some ⟨node, op⟩)))

/-! ## The step -/

/-- A character at `i` outside all brackets. -/
def stepOutside (limit : Nat) (sub : SubReading) (i : Nat) (c : Char) (rest : List Char)
    (chain : Option Chain) (o : Operand) : Except ParseError Outcome :=
  if c = '(' then do
    let focus ← o.openBracket i
    pure (.more ⟨chain, focus⟩)
  else if c = ')' then .error ⟨.unmatchedClose, some i⟩
  else if c = callMark then do
    let o ← o.markCall i
    pure (.more ⟨chain, .operand o⟩)
  else
    match Operator.ofChar? c with
    | some op => do
      let value ← o.close i
      pushOperator limit sub op rest chain value
    | none => do
      let o ← o.push i c
      pure (.more ⟨chain, .operand o⟩)

/-- What the character `c` at `i`, with `rest` behind it, leads to. -/
def Reading.step (limit : Nat) (sub : SubReading) (i : Nat) (c : Char) (rest : List Char)
    (r : Reading) : Except ParseError Outcome :=
  match r.focus with
  | .operand o => stepOutside limit sub i c rest r.chain o
  | .bracket callee inner content => do
    let focus ← stepInside limit sub i c callee inner content
    pure (.more ⟨r.chain, focus⟩)

end FormulaPlot
