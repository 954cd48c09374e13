import Stackless.Storage.Variable

/-!
# Slot report

A table of all variables and where they live. Columns are filled up with blanks on the right.
-/

namespace Stackless

namespace Report

/-- Fill up with blanks to a number of characters. -/
def pad (width : Nat) (s : String) : String :=
  s ++ String.ofList (List.replicate (width - s.length) ' ')

/-- The width of the first column: enough for the heading and for the bytes of every name. -/
def nameWidth (vs : List Variable) : Nat :=
  vs.foldl (fun w v => max w v.name.utf8ByteSize) 4

def row (width : Nat) (name kind domain slot index stack : String) : String :=
  pad width name ++ " | " ++ pad 9 kind ++ " | " ++ pad 6 domain ++ " | " ++ pad 4 slot ++ " | " ++
    pad 5 index ++ " | " ++ stack ++ "\n"

def variableRow (width : Nat) (v : Variable) : String :=
  row width v.name v.kind.text v.location.domain.text v.location.slot.text
    (match v.location.index with
      | some i => toString i
      | none => "-")
    (if v.stacked then "yes" else "")

end Report

/-- The table of the given variables. -/
def slotReport (vs : List Variable) : String :=
  let width := Report.nameWidth vs
  String.join (Report.row width "name" "kind" "domain" "slot" "index" "stack" ::
    vs.map (Report.variableRow width))

end Stackless
