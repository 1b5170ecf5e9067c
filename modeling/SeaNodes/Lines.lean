
namespace SeaNodes.Lines

/-- A carriage return before a newline belongs to the end of the line. -/
def trimEnd (line : List Char) : List Char :=
  if line.getLast? = some '\r' then line.dropLast else line

def ofRow (row : String) : List String :=
  (row.toList.splitOn '\n').map fun line => String.ofList (trimEnd line)

/-- The lines of a text of many rows. -/
def ofRows (rows : List String) : List String := rows.flatMap ofRow

end SeaNodes.Lines
