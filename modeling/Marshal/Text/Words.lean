/-!
# Words of a text

Cutting a text at a separator, joining texts, and taking a leading part away.
-/

namespace Marshal.Text

/-- The parts of a text between the occurrences of `sep`. There is always one
    more part than there are separators; parts may be empty. -/
def words (sep : Char) (s : String) : List String :=
  (s.toList.splitOn sep).map String.ofList

/-- The texts one after the other, with `sep` between them. -/
def joinWith (sep : String) (parts : List String) : String := sep.intercalate parts

/-- What follows `lead` in a text that starts with it. -/
def after? : (lead s : List Char) → Option (List Char)
  | [], s => some s
  | _ :: _, [] => none
  | a :: lead, c :: s => if a = c then after? lead s else none

end Marshal.Text
