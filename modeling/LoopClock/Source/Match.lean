/-! Matching text against a grammar. Alternatives are tried in order, repetition takes as much as
it can, and neither is reconsidered. A failure is blamed on the last place at which a rule was
tried in vain, so a match keeps the shortest rest in front of which that happened. -/
namespace LoopClock.Source

structure Match (α : Type) where
  result : Option (α × List Char)
  deepest : Option Nat

def deeper : Option Nat → Option Nat → Option Nat
  | none, b => b
  | a, none => a
  | some a, some b => some (min a b)

def Matcher (α : Type) : Type := List Char → Match α

namespace Matcher

instance : Monad Matcher where
  pure a s := ⟨some (a, s), none⟩
  bind p f s :=
    match p s with
    | ⟨none, d⟩ => ⟨none, d⟩
    | ⟨some (a, r), d⟩ => ⟨(f a r).result, deeper d (f a r).deepest⟩

section
variable {α : Type}

def fail : Matcher α := fun _ => ⟨none, none⟩

def or (p q : Matcher α) : Matcher α := fun s =>
  match p s with
  | ⟨none, d⟩ => ⟨(q s).result, deeper d (q s).deepest⟩
  | m => m

def choice : List (Matcher α) → Matcher α
  | [] => fail
  | p :: ps => p.or (choice ps)

def optional (p : Matcher α) : Matcher (Option α) := (some <$> p).or (pure none)

/-- A failure of `p` is blamed on the place where it was tried. -/
def rule (p : Matcher α) : Matcher α := fun s =>
  match p s with
  | ⟨none, d⟩ => ⟨none, deeper d (some s.length)⟩
  | m => m

/-- As many `p` as follow each other. A match that takes nothing ends the repetition. -/
def many (p : Matcher α) (s : List Char) : Match (List α) :=
  match p s with
  | ⟨none, d⟩ => ⟨some ([], s), d⟩
  | ⟨some (a, r), d⟩ =>
    if r.length < s.length then
      let m := many p r
      ⟨m.result.map fun t => (a :: t.1, t.2), deeper d m.deepest⟩
    else ⟨some ([a], r), d⟩
termination_by s.length

def dropWord : List Char → List Char → Option (List Char)
  | [], s => some s
  | c :: cs, d :: s => if c = d then dropWord cs s else none
  | _ :: _, [] => none

def word (w : String) : Matcher Unit := fun s =>
  ⟨(dropWord w.toList s).map fun r => ((), r), none⟩

/-- One character of the class or more. -/
def run (p : Char → Bool) : Matcher (List Char) := fun s =>
  match s.takeWhile p with
  | [] => ⟨none, none⟩
  | cs => ⟨some (cs, s.dropWhile p), none⟩

def isSpace (c : Char) : Bool := c == ' ' || c == '\t'

def isNewline (c : Char) : Bool := c == '\n' || c == '\r'

/-- Drops spaces and a comment. A comment runs up to the next newline, so no second one follows. -/
def dropGap (s : List Char) : List Char :=
  match s.dropWhile isSpace with
  | ';' :: r => r.dropWhile (!isNewline ·)
  | r => r

/-- `p` behind spaces and a comment, which need not be there. -/
def gap (p : Matcher α) : Matcher α := fun s => p (dropGap s)

/-- As many `p` as there are, with gaps between them. -/
def spaced (p : Matcher α) : Matcher (List α) := do
  match ← optional p with
  | none => return []
  | some a => return a :: (← many (gap p))

/-- One `p` or more, with gaps between them. -/
def spaced₁ (p : Matcher α) : Matcher (List α) := do
  let a ← p
  return a :: (← gap (spaced p))

/-- One `p` or more, with commas between them. -/
def listed₁ (p : Matcher α) : Matcher (List α) := do
  let a ← p
  return a :: (← gap (spaced do word ","; gap p))

/-- A list in parentheses, which may be empty. -/
def parenthesized (p : Matcher α) : Matcher (List α) := do
  word "("
  let as ← gap (optional (listed₁ p))
  gap (word ")")
  return as.getD []

end

def newline : Matcher Unit := choice [word "\n", word "\r\n", word "\r"]

def newlines : Matcher Unit := discard (spaced₁ newline)

def endOfText : Matcher Unit := rule fun s => ⟨if s = [] then some ((), []) else none, none⟩

end Matcher
end LoopClock.Source
