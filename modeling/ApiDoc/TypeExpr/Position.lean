import ApiDoc.Failure

namespace ApiDoc.TypeExpr

/-!
# Parameters by position

* `paramAt` — the parameter at a position that may be counted from the end.
-/

/-- The type at a position of the parameters; none for a literal, and none after the last
    parameter. A negative position is counted from the end, and fails before the first. -/
def paramAt (t : TypeExpr) (position : Int) : Except Failure (Option TypeExpr) :=
  let fromEnd := position + t.params.length
  if 0 ≤ position then .ok (t.param? position.toNat)
  else if 0 ≤ fromEnd then .ok (t.param? fromEnd.toNat)
  else .error (.outOfRange "tuple")

end ApiDoc.TypeExpr
