import CipherCorpus.Shell.Script

/-!
# Patterns

A pattern matches a whole text: `*` any run of characters, `?` any character, a class in brackets one
of its characters, and every other or quoted character itself.
-/

namespace CipherCorpus.Shell

/-- A character of a word and whether it stands for itself. -/
abbrev MarkedText := List (Char × Bool)

/-- One step of a pattern. -/
inductive PatternPart where
  | run
  | one (accepts : Char → Bool)

namespace Pattern

/-- Whether some suffix passes. -/
def anySuffix (passes : ByteText → Bool) : ByteText → Bool
  | [] => passes []
  | c :: rest => passes (c :: rest) || anySuffix passes rest

def accepts : List PatternPart → ByteText → Bool
  | [], s => s.isEmpty
  | .run :: parts, s => anySuffix (accepts parts) s
  | .one test :: parts, s =>
    match s with
    | c :: rest => test c && accepts parts rest
    | [] => false

/-- The members of a class. -/
def classTest : MarkedText → Char → Bool
  | (a, _) :: ('-', false) :: (b, _) :: rest, c =>
    (decide (a ≤ c) && decide (c ≤ b)) || classTest rest c
  | (a, _) :: rest, c => a == c || classTest rest c
  | [], _ => false

/-- The inside of a class and what follows it; the first character never closes the class. -/
def cutClass (s : MarkedText) : Option (MarkedText × MarkedText) :=
  let isEnd : Char × Bool → Bool := fun x => x == (']', false)
  match s with
  | [] => none
  | first :: rest =>
    let inside := first :: rest.takeWhile (!isEnd ·)
    match rest.dropWhile (!isEnd ·) with
    | _ :: after => some (inside, after)
    | [] => none

def classPart (inside : MarkedText) : PatternPart :=
  match inside with
  | ('!', false) :: members => .one fun c => !classTest members c
  | members => .one (classTest members)

def ofMarkedFrom : Nat → MarkedText → List PatternPart
  | 0, _ => []
  | _ + 1, [] => []
  | fuel + 1, (c, literal) :: rest =>
    if literal then .one (· == c) :: ofMarkedFrom fuel rest
    else if c == '*' then .run :: ofMarkedFrom fuel rest
    else if c == '?' then .one (fun _ => true) :: ofMarkedFrom fuel rest
    else if c == '[' then
      match cutClass rest with
      | some (inside, after) => classPart inside :: ofMarkedFrom fuel after
      | none => .one (· == c) :: ofMarkedFrom fuel rest
    else .one (· == c) :: ofMarkedFrom fuel rest

/-- The pattern of a word. -/
def ofMarked (s : MarkedText) : List PatternPart := ofMarkedFrom (s.length + 1) s

/-- A text without what a pattern matches at one end. -/
def cut (atEnd longest : Bool) (pattern : List PatternPart) (s : ByteText) : ByteText :=
  let lengths := List.range (s.length + 1)
  let lengths := if longest then lengths.reverse else lengths
  let hit := lengths.find? fun n =>
    accepts pattern (if atEnd then s.drop (s.length - n) else s.take n)
  match hit with
  | some n => if atEnd then s.take (s.length - n) else s.drop n
  | none => s

/-- The word holds a character that matches others. -/
def isOpen (s : MarkedText) : Bool :=
  s.any fun x => !x.2 && (x.1 == '*' || x.1 == '?' || x.1 == '[')

end Pattern

end CipherCorpus.Shell
