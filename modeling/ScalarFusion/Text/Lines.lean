import ScalarFusion.Text.Blank

/-!
Texts as lists of lines: splitting, indenting and moving a block to another indentation.
-/
namespace ScalarFusion.Text

def splitLines (cs : List Char) : List (List Char) :=
  cs.foldr
    (fun c ls =>
      match ls with
      | [] => [[c]]
      | l :: rest => if c = '\n' then [] :: l :: rest else (c :: l) :: rest)
    [[]]

def dropReturn (l : List Char) : List Char :=
  if l.getLast? = some '\r' then l.dropLast else l

/-- The lines of a text. A newline ends a line, so nothing follows a final newline, and a
    carriage return before a newline belongs to the line's end. -/
def lines (cs : List Char) : List (List Char) :=
  match (splitLines cs).reverse with
  | [] => []
  | last :: rest =>
    let ended := rest.reverse.map dropReturn
    if last.isEmpty then ended else ended ++ [last]

def indentLines (s : String) : String :=
  String.intercalate "\n" ((lines s.toList).map fun l => "    " ++ String.ofList l)

def leading (l : List Char) : Nat :=
  (l.takeWhile fun c => c == ' ' || c == '\t').length

def isBlankLine (l : List Char) : Bool :=
  l.all isBlank

def commonIndent (ls : List (List Char)) : Nat :=
  (((ls.filter fun l => !isBlankLine l).map leading).min?).getD 0

def trimBlock (ls : List (List Char)) : List (List Char) :=
  let dropFirst := fun (ls : List (List Char)) =>
    match ls with
    | [] => []
    | l :: rest => if isBlankLine l then rest else l :: rest
  (dropFirst (dropFirst ls).reverse).reverse

def moveLine (pad : String) (common : Nat) (l : List Char) : String :=
  let rest := if common ≤ l.length then l.drop common else l.dropWhile isBlank
  if isBlankLine rest then "\n" else pad ++ String.ofList rest ++ "\n"

def moveBlock (pad : String) (s : String) : String :=
  if s.isEmpty then "" else
    let ls := trimBlock (splitLines s.toList)
    String.join (ls.map (moveLine pad (commonIndent ls)))

end ScalarFusion.Text
