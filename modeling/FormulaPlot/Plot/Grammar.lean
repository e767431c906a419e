import FormulaPlot.Text.Peg

/-!
# Plot/Grammar — the grammar of graph blocks

A block is lines with breaks between them, from the start of the text to its end.  A line is a
directive, a key with `=` and a value, or else it is anything that does not start like one.  A value
is what is left of its line, and has in it something other than spaces and tabs.
-/

namespace FormulaPlot

/-- What a line can set. -/
inductive Directive where
  | func | min | max | division
  deriving Repr, DecidableEq

namespace Directive

/-- Every directive. -/
def all : List Directive := [func, min, max, division]

/-- The name that a line sets it by. -/
def key : Directive → List Char
  | func => "func".toList
  | min => "min".toList
  | max => "max".toList
  | division => "division".toList

/-- The directive that a name belongs to. -/
def ofKey? (key : List Char) : Option Directive := all.find? fun d => d.key == key

end Directive

namespace BlockGrammar

/-- The rules of the grammar. -/
inductive Rule where
  | block | directive | key | value
  /-- The end of the text. -/
  | ending
  deriving Repr, DecidableEq

open Text (Peg)

/-- A line break; the two characters of `\r\n` are one. -/
def newline : Peg Rule :=
  .choice (.literal ['\n']) (.choice (.literal ['\r', '\n']) (.literal ['\r']))

/-- A character of a line. -/
def lineChar : Peg Rule := .seq (.absent newline) .any

/-- A space or a tab. -/
def gap : Peg Rule := .choice (.literal [' ']) (.literal ['\t'])

def key : Peg Rule :=
  .rule .key (.choice (.literal Directive.func.key) (.choice (.literal Directive.min.key)
    (.choice (.literal Directive.max.key) (.literal Directive.division.key))))

def value : Peg Rule := .rule .value (.seq (.many gap) (.seq lineChar (.many lineChar)))

def directive : Peg Rule := .rule .directive (.seq key (.seq (.literal ['=']) value))

/-- A line that does not start like a directive. -/
def other : Peg Rule := .seq (.absent (.seq key (.literal ['=']))) (.many lineChar)

def line : Peg Rule := .choice directive other

def block : Peg Rule :=
  .rule .block
    (.seq .start (.seq line (.seq (.many (.seq newline line)) (.rule .ending .finish))))

end BlockGrammar

end FormulaPlot
