import WordMachine.Text.Columns

/-!
# Tables

A table has a row of titles and rows of cells. Every column is as wide as its widest line, cells
have a blank on either side, columns are parted by a vertical line, and horizontal lines run below
the titles and below the last row. The outer border is blank. A cell may hold several lines, a
whole table among others; a row is as high as its highest cell.
-/

set_option autoImplicit false

namespace WordMachine.Text

/-- The side of a cell its text stands at. -/
inductive Alignment where
  | left
  | right

/-- The lines of a cell and their alignment. -/
structure Cell where
  lines : List String
  alignment : Alignment

namespace Cell

def left (text : String) : Cell := ⟨[text], .left⟩

def right (text : String) : Cell := ⟨[text], .right⟩

/-- The width of the widest line. -/
def width (cell : Cell) : Nat :=
  (cell.lines.map String.length).foldl max 0

/-- One line of the cell, filled up to a width. Below the last line a cell is blank. -/
def line (cell : Cell) (width index : Nat) : String :=
  let text := (cell.lines[index]?).getD ""
  match cell.alignment with
  | .left => padRight width text
  | .right => padLeft width text

end Cell

/-- Titles and rows of cells. -/
structure Table where
  titles : List Cell
  rows : List (List Cell)

namespace Table

/-- The widths of the columns. -/
def widths (table : Table) : List Nat :=
  (table.titles :: table.rows).foldl
    (fun widths row => List.zipWith (fun width cell => max width cell.width) widths row)
    (table.titles.map fun _ => 0)

/-- The lines of one row. -/
def rowLines (widths : List Nat) (row : List Cell) : List String :=
  let height := (row.map fun cell => cell.lines.length).foldl max 0
  (List.range height).map fun index =>
    let cells := List.zipWith (fun width cell => " " ++ cell.line width index ++ " ") widths row
    " " ++ "│".intercalate cells ++ " "

/-- A horizontal line, with a sign for where it meets a column's border. -/
def rule (widths : List Nat) (crossing : String) : String :=
  let strokes := widths.map fun width => String.ofList (List.replicate (width + 2) '─')
  " " ++ crossing.intercalate strokes ++ " "

/-- The lines of the table. -/
def lines (table : Table) : List String :=
  let widths := table.widths
  rowLines widths table.titles ++ [rule widths "┼"] ++
    table.rows.flatMap (rowLines widths) ++ [rule widths "┴"]

/-- The table as text, every line ended. -/
def render (table : Table) : String :=
  String.join (table.lines.map fun line => line ++ "\n")

/-- A table as a cell of another. -/
def toCell (table : Table) : Cell := ⟨table.lines, .left⟩

end Table
end WordMachine.Text
