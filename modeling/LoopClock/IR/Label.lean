import LoopClock.Numeral

/-! Block labels. Block 0 is the entry; every other block is named by its number. -/
namespace LoopClock

abbrev Label := String

namespace Label

def ofId (id : Int) : Label := if id = 0 then "entry" else "B" ++ Numeral.int id

/-- The block a label names. Numbers are read with leading zeros and must be positive. -/
def id? (l : Label) : Option Int :=
  if l = "entry" then some 0
  else match l.toList with
    | 'B' :: cs => (Numeral.int32? cs).filter (0 < ·)
    | _ => none

end Label
end LoopClock
