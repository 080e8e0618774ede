/-!
# Lists of errors as text

Several errors reported together: their number and then one line each.
-/

namespace Bracketing.Text

/-- The text of a list of errors. -/
def errorList (messages : List String) : String :=
  (if messages.length = 1 then "1 error occurred:" else toString messages.length ++ " errors occurred:") ++
    "\n\t" ++ "\n\t".intercalate (messages.map ("* " ++ ·)) ++ "\n\n"

end Bracketing.Text
