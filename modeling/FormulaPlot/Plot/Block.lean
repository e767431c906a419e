import FormulaPlot.Number.Numeral
import FormulaPlot.Number.Whole
import FormulaPlot.Plot.Domain
import FormulaPlot.Plot.Grammar
import FormulaPlot.Text.Blank
import FormulaPlot.Text.Offset

/-!
# Plot/Block — a graph described in a few lines

A graph block is a text with a line for each thing it says: `func=` the formula, `min=` and `max=`
the interval, `division=` the number of divisions.  A directive must start its line; other lines
mean nothing, and a directive said again replaces the earlier one.  A directive with only spaces
and tabs behind it is a fault.  Values are kept as texts, less the blanks at their ends, and nothing
is asked of them; `Block.domain` takes from them what makes a sensible domain.
-/

namespace FormulaPlot

/-- A directive without a value, and the place where the value is missing. -/
structure BlankDirective where
  place : Text.Place
  deriving Repr, DecidableEq

/-- What a graph block says. -/
structure Block where
  func : String := ""
  min : Option String := none
  max : Option String := none
  division : Option String := none
  deriving Repr, DecidableEq

namespace Block

/-- The block with one thing said anew. -/
def set (b : Block) (value : String) : Directive → Block
  | .func => { b with func := value }
  | .min => { b with min := some value }
  | .max => { b with max := some value }
  | .division => { b with division := some value }

/-- The block with what a directive of the grammar says. -/
def say (b : Block) (pair : Text.Pair BlockGrammar.Rule) : Block :=
  match pair.name, pair.inner with
  | .directive, key :: value :: _ =>
    (Directive.ofKey? key.text).elim b (b.set (String.ofList (Text.trim value.text)))
  | _, _ => b

/-- The block that a text describes. -/
def read (text : String) : Except BlankDirective Block :=
  match BlockGrammar.block.run text.toList with
  | .error n => .error ⟨.after (text.toList.take n)⟩
  | .ok pairs => .ok ((pairs.head?.elim [] Text.Pair.inner).foldl say {})

/-! ## The domain of a block -/

/-- The finite number that a field spells, if it does. -/
def finite? (field : Option String) : Option Float :=
  (field.bind fun s => Number.read? s.toList).filter Float.isFinite

/-- The bounds that a block gives, if it gives both and they bound an interval. -/
def range? (b : Block) : Option (Float × Float) :=
  match finite? b.min, finite? b.max with
  | some min, some max => if min < max then some (min, max) else none
  | _, _ => none

/-- The number of divisions that a block gives, if it is a whole number and a sensible one. -/
def division? (b : Block) : Option Nat :=
  ((finite? b.division).filter fun v =>
    Number.fract v == 0 && 2 ≤ v && v ≤ Float.ofNat maxDivision).map fun v => v.toUInt64.toNat

/-- The domain of a block.  Bounds that are no interval are replaced together, and divisions that
are no sensible number on their own, by those of the default domain. -/
def domain (b : Block) : Domain :=
  let default : Domain := {}
  let (min, max) := b.range?.getD (default.min, default.max)
  ⟨min, max, b.division?.getD default.division⟩

end Block

end FormulaPlot
