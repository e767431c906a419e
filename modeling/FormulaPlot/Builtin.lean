import FormulaPlot.Elementary

/-!
# Builtin — the named functions

A formula may call sixteen functions of one argument by keyword, in any ASCII case.  `Builtin.all`
lists them so that a keyword stands before every keyword that it begins with: `sinh` before `sin`.
Outside its domain a function answers `0`, so that one bad point never spoils a plot.

* `Builtin.eq_of_keyword_eq` — different functions have different keywords.
* `Builtin.ofName?_name` — a keyword names its function.
-/

namespace FormulaPlot

/-- The functions that formulas can call. -/
inductive Builtin where
  | sinh | cosh | tanh | asin | acos | atan | sin | cos | tan
  | log | floor | ceil | random | abs | sign | sqrt
  deriving Repr, DecidableEq

namespace Builtin

/-! ## Keywords -/

/-- Every function; a keyword stands before its own beginnings. -/
def all : List Builtin :=
  [sinh, cosh, tanh, asin, acos, atan, sin, cos, tan, log, floor, ceil, random, abs, sign, sqrt]

/-- The keyword of a function. -/
def name : Builtin → String
  | sinh => "sinh"
  | cosh => "cosh"
  | tanh => "tanh"
  | asin => "asin"
  | acos => "acos"
  | atan => "atan"
  | sin => "sin"
  | cos => "cos"
  | tan => "tan"
  | log => "log"
  | floor => "floor"
  | ceil => "ceil"
  | random => "random"
  | abs => "abs"
  | sign => "sign"
  | sqrt => "sqrt"

/-- The keyword of a function as characters, all of them lower case. -/
def keyword (f : Builtin) : List Char := f.name.toList

/-- The function whose keyword is `name` in some ASCII case. -/
def ofName? (name : String) : Option Builtin :=
  all.find? fun f => f.keyword == name.toList.map Char.toLower

theorem mem_all (f : Builtin) : f ∈ all := by
  cases f <;> decide

theorem eq_of_keyword_eq {f g : Builtin} (h : f.keyword = g.keyword) : f = g :=
  (by decide : ∀ f ∈ all, ∀ g ∈ all, f.keyword = g.keyword → f = g) f f.mem_all g g.mem_all h

theorem ofName?_name (f : Builtin) : ofName? f.name = some f := by
  cases f <;> decide

/-- The list order lets the longest of the keywords at a place be the first that matches. -/
example : ∀ f ∈ all, ∀ g ∈ all, f.keyword <+: g.keyword → all.idxOf g ≤ all.idxOf f := by decide

/-! ## Values -/

/-- Where the inverse circular functions are defined: strictly between `-1` and `1`. -/
def inUnitInterval (v : Float) : Bool := -1 < v && v < 1

/-- The value of a function at `v`. -/
def apply (lib : Elementary) : Builtin → Float → Float
  | sinh, v => lib.sinh v
  | cosh, v => lib.cosh v
  | tanh, v => lib.tanh v
  | asin, v => if inUnitInterval v then lib.asin v else 0
  | acos, v => if inUnitInterval v then lib.acos v else 0
  | atan, v => if inUnitInterval v then lib.atan v else 0
  | sin, v => lib.sin v
  | cos, v => lib.cos v
  | tan, v => lib.tan v
  | log, v => if 0 < v then lib.log v else 0
  | floor, v => lib.floor v
  | ceil, v => lib.ceil v
  | random, _ => lib.draw
  | abs, v => v.abs
  | sign, v => if 0 < v then 1 else if v < 0 then -1 else v
  | sqrt, v => if 0 ≤ v then v.sqrt else 0

end Builtin

end FormulaPlot
