import Resumable.Text.Bytes

/-!
# Aggregates

Several failures that are reported as one: how many there are, then each on a line of its own.
-/

set_option autoImplicit false

namespace Resumable.Report

open Resumable.Text

/-- One item of an aggregate. -/
def aggregateItem (text : Bytes) : Bytes := bytes "* " ++ text

/-- The first line of an aggregate. -/
def aggregateHeadline (count : Nat) : String :=
  if count = 1 then "1 error occurred:" else s!"{count} errors occurred:"

/-- The text of an aggregate of failures. -/
def aggregateText (texts : List Bytes) : Bytes :=
  bytes (aggregateHeadline texts.length ++ "\n\t") ++
    List.intercalate (bytes "\n\t") (texts.map aggregateItem) ++ bytes "\n\n"

end Resumable.Report
