import PlZero.Text.Numeral

/-! Tables drawn with box characters: an optional title over the whole width, a row of headings in
capitals, and rows of cells. A column is as wide as its widest cell; a column of numbers is set to the
right and any other to the left. -/

namespace PlZero.Text

inductive Cell where
  | number (value : Int)
  | text (value : String)
  deriving DecidableEq, Repr

namespace Cell

def render : Cell → String
  | number value => showInt value
  | text value => value

def isNumber : Cell → Bool
  | number _ => true
  | text _ => false

end Cell

structure Grid where
  title : Option String := none
  headings : List String
  rows : List (List Cell)

namespace Grid

/-- A column of a table, ready to be drawn. -/
structure Column where
  width : Nat
  alignsRight : Bool

/-- The cells of the column with the given place. -/
def cells (grid : Grid) (index : Nat) : List Cell :=
  grid.rows.filterMap fun row => row[index]?

/-- How a column is drawn. -/
def column (grid : Grid) (index : Nat) (heading : String) : Column :=
  let cells := grid.cells index
  ⟨cells.foldl (fun width cell => max width cell.render.length) heading.length,
    cells.all Cell.isNumber⟩

def columns (grid : Grid) : List Column :=
  grid.headings.mapIdx grid.column

/-- A text set into a column. -/
def Column.place (column : Column) (text : String) : String :=
  if column.alignsRight then padLeft column.width ' ' text else padRight column.width text

/-- The same character many times. -/
def rule (length : Nat) (sign : Char) : String :=
  String.ofList (List.replicate length sign)

/-- A line between rows, from its left end, the sign between two columns and its right end. -/
def border (columns : List Column) (left between right : String) : String :=
  left ++ between.intercalate (columns.map fun column => rule (column.width + 2) '─') ++ right
    ++ "\n"

/-- A row of texts. -/
def line (columns : List Column) (texts : List String) : String :=
  "│" ++ "│".intercalate
    (List.zipWith (fun column text => " " ++ column.place text ++ " ") columns texts) ++ "│\n"

/-- The top of a table with a title. -/
def titleLines (columns : List Column) (title : String) : String :=
  let width := columns.foldl (fun total column => total + column.width + 2) (columns.length - 1)
  "┌" ++ rule width '─' ++ "┐\n" ++ "│ " ++ padRight (width - 2) title ++ " │\n"
    ++ border columns "├" "┬" "┤"

/-- The whole table, every line with its line feed. -/
def render (grid : Grid) : String :=
  let columns := grid.columns
  let top :=
    match grid.title with
    | some title => titleLines columns title
    | none => border columns "┌" "┬" "┐"
  top ++ line columns (grid.headings.map String.toUpper) ++ border columns "├" "┼" "┤"
    ++ String.join (grid.rows.map fun row => line columns (row.map Cell.render))
    ++ border columns "└" "┴" "┘"

end Grid

end PlZero.Text
