/-!
# Operator tiers

The binary and logical operators in tiers, the loosest first. An operator that is in no tier is not ordered.
-/

namespace Bracketing

/-- The operators of each tier, the loosest tier first. -/
def Operator.tiers : List (List String) :=
  [["??"], ["||"], ["&&"], ["|"], ["^"], ["&"], ["==", "===", "!=", "!=="],
    ["<", ">", "<=", ">=", "in", "instanceof"], [">>", "<<", ">>>"], ["+", "-"], ["*", "/", "%"], ["**"]]

/-- The tier of an operator; a higher tier binds more tightly. -/
def Operator.tier? (op : String) : Option Nat := Operator.tiers.findIdx? (·.contains op)

/-- A short-circuit operator that must not stand beside `??` without parentheses. -/
def Operator.isChoice (op : String) : Bool := op = "||" || op = "&&"

/-- One operator is `??` and the other must not stand beside it without parentheses. -/
def Operator.clash (a b : String) : Bool :=
  (a = "??" && Operator.isChoice b) || (b = "??" && Operator.isChoice a)

end Bracketing
