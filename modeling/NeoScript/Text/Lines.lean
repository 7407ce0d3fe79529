import NeoScript.Text.Decimal

/-!
# Lines — lines and columns of a source text

* `lines` — the lines of a text, without their ends;
* `columns` — the part of a line between two columns.
-/

namespace NeoScript
namespace Text

/-- The lines of a text.  A line ends with a line feed, and a carriage return in front of it belongs
to the end.  `line` holds what was read of the current line, the last character first. -/
def linesFrom (line : List Char) : List Char → List (List Char) → List (List Char)
  | [], out => (if line.isEmpty then out else line.reverse :: out).reverse
  | c :: rest, out =>
      if c = '\n' then
        let kept := match line with
          | '\r' :: before => before
          | _ => line
        linesFrom [] rest (kept.reverse :: out)
      else linesFrom (c :: line) rest out

def lines (text : String) : List String :=
  (linesFrom [] text.toList []).map String.ofList

/-- The characters from column `first` up to, and without, column `last`.  Columns count from one,
and columns behind the end of the line are its end. -/
def columns (line : List Char) (first : Nat) (last : Option Nat) : List Char :=
  let start := first - 1
  match last with
  | some last => (line.take (last - 1)).drop start
  | none => line.drop start

end Text
end NeoScript
