import LoopClock.Source.Grammar
import LoopClock.Source.Resolve

/-! Reading a program. A text that does not match the grammar is refused with the position of the
last rule that was tried in vain. -/
namespace LoopClock.Source

/-- The position behind `read`. Only a line feed ends a line. -/
def positionAfter (read : List Char) : Position :=
  ⟨read.count '\n' + 1, (read.reverse.takeWhile (· != '\n')).length + 1⟩

def tree (s : List Char) : Except ParseError (List Item) :=
  match Grammar.program s with
  | ⟨some (items, _), _⟩ => .ok items
  | ⟨none, deepest⟩ => .error (.grammar (positionAfter (s.take (s.length - deepest.getD s.length))))

def parse (text : String) : Except ParseError Program := do
  let items ← tree text.toList
  (program items).mapError .fault

end LoopClock.Source
