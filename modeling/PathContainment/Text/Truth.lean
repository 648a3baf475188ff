/-!
# Truth values as words
-/

namespace PathContainment

/-- The word for a truth value. -/
def truthWord (b : Bool) : String := if b then "true" else "false"

end PathContainment
