import CipherCorpus.Json.Scan
import CipherCorpus.OrderedMap

/-!
# Reading JSON of a known shape

A decoder reads one value of its shape and reports the first fault it meets, so the shape decides
what is looked at. Decoders are built from `text`, `count`, `truth` and `oneOf` by `nullable`, `list`,
`pair`, `table` and `record`.

* A record is written between braces by field name, or between brackets by position.
* Fields of other names are skipped; a known field that comes twice does not fit.
* Values nest at most `depthLimit` deep where they are read.
-/

namespace CipherCorpus.Json

/-- Reads one value; the number is how many levels may still be opened. -/
abbrev Decoder := Nat → Input → Except Fault (Value × Input)

/-- How deep lists and records may nest. -/
def depthLimit : Nat := 127

/-- The next character that is not a gap, and what follows it. -/
def next (s : Input) : Except Fault (Option Char × Input) :=
  match skipGap s with
  | [] => .error .ended
  | x :: rest => .ok (x, rest)

def startsNumber (x : Option Char) : Bool := x == some '-' || isDigit x

/-- The fault of a value that starts with `x` but is of another kind than wanted. -/
def wrongKind (x : Option Char) (rest : Input) : Fault :=
  let orMismatch : Except Fault Input → Fault
    | .error f => f
    | .ok _ => .mismatch
  if x = some 'n' then orMismatch (readWord "ull".toList rest)
  else if x = some 't' then orMismatch (readWord "rue".toList rest)
  else if x = some 'f' then orMismatch (readWord "alse".toList rest)
  else if x = some '"' then orMismatch ((readText rest).map (·.2))
  else if startsNumber x then orMismatch ((readNumber (x :: rest)).map (·.2))
  else if x = some '[' ∨ x = some openBrace then .mismatch
  else .malformed

/-! ## Values without parts -/

def text : Decoder := fun _ s => do
  let (x, rest) ← next s
  if x = some '"' then
    let (t, rest) ← readText rest
    return (.text t, rest)
  else throw (wrongKind x rest)

/-- A whole number of 64 bits. -/
def count : Decoder := fun _ s => do
  let (x, rest) ← next s
  if startsNumber x then
    let (n, rest) ← readNumber (x :: rest)
    match n.toWord? with
    | some n => return (.count n, rest)
    | none => throw .mismatch
  else throw (wrongKind x rest)

def truth : Decoder := fun _ s => do
  let (x, rest) ← next s
  if x = some 't' then return (.truth true, ← readWord "rue".toList rest)
  else if x = some 'f' then return (.truth false, ← readWord "alse".toList rest)
  else throw (wrongKind x rest)

/-- A value or null. -/
def nullable (d : Decoder) : Decoder := fun depth s => do
  let (x, rest) ← next s
  if x = some 'n' then return (.null, ← readWord "ull".toList rest) else d depth s

/-! ## Lists -/

/-- The input at the next item of a list; none at its end. -/
def nextItem (first : Bool) (s : Input) : Except Fault (Option Input) := do
  let (x, rest) ← next s
  if x = some ']' then return none
  else if first then return some (x :: rest)
  else if x = some ',' then
    let (y, rest) ← next rest
    if y = some ']' then throw .malformed else return some (y :: rest)
  else throw .malformed

/-- The input after the bracket that has to come next. -/
def closeWith (close : Char) (s : Input) : Except Fault Input := do
  let (x, rest) ← next s
  if x = some close then return rest else throw .malformed

/-- Items up to the end of a list; at most `fuel` of them. -/
def readItems {α : Type} (item : Input → Except Fault (α × Input)) :
    Nat → Bool → Input → Except Fault (List α × Input)
  | 0, _, _ => .error .ended
  | fuel + 1, first, s => do
    match ← nextItem first s with
    | none => return ([], ← closeWith ']' s)
    | some s =>
      let (x, s) ← item s
      let (more, s) ← readItems item fuel false s
      return (x :: more, s)

/-- Open a level: what is inside, for a value that starts with `x`. -/
def descend {α : Type} (depth : Nat) (inside : Nat → Except Fault α) : Except Fault α :=
  match depth with
  | 0 => .error .malformed
  | depth + 1 => inside depth

def list (d : Decoder) : Decoder := fun depth s => do
  let (x, rest) ← next s
  if x = some '[' then
    descend depth fun depth => do
      let (items, rest) ← readItems (d depth) (rest.length + 1) true rest
      return (.list items, rest)
  else throw (wrongKind x rest)

/-- Two values in a list. -/
def pair (a b : Decoder) : Decoder := fun depth s => do
  let (x, rest) ← next s
  if x = some '[' then
    descend depth fun depth => do
      let some s ← nextItem true rest | throw .mismatch
      let (v, s) ← a depth s
      let some s ← nextItem false s | throw .mismatch
      let (w, s) ← b depth s
      return (.list [v, w], ← closeWith ']' s)
  else throw (wrongKind x rest)

/-! ## Records -/

/-- The next key of a record; none at its end. -/
def nextKey (first : Bool) (s : Input) : Except Fault (Option (String × Input)) := do
  let keyFrom (x : Option Char) (rest : Input) : Except Fault (Option (String × Input)) :=
    if x = some '"' then (readText rest).map some else .error .malformed
  let (x, rest) ← next s
  if x = some closeBrace then return none
  else if first then keyFrom x rest
  else if x = some ',' then
    let (y, rest) ← next rest
    keyFrom y rest
  else throw .malformed

def colon (s : Input) : Except Fault Input := closeWith ':' s

/-- Where a skipped value stands. -/
inductive SkipState where
  | beforeValue
  | afterValue

/-- The input after a key and its colon, the key not looked at. -/
def skipKey (s : Input) : Except Fault Input := do
  let (x, rest) ← next s
  if x = some '"' then colon (← skipText rest) else throw .malformed

/-- Skip values; `outer` lists the enclosing brackets, true for a record. -/
def skipLoop : Nat → SkipState → List Bool → Input → Except Fault Input
  | 0, _, _, _ => .error .ended
  | fuel + 1, .beforeValue, outer, s => do
    let (x, rest) ← next s
    if x = some 'n' then skipLoop fuel .afterValue outer (← readWord "ull".toList rest)
    else if x = some 't' then skipLoop fuel .afterValue outer (← readWord "rue".toList rest)
    else if x = some 'f' then skipLoop fuel .afterValue outer (← readWord "alse".toList rest)
    else if x = some '"' then skipLoop fuel .afterValue outer (← skipText rest)
    else if startsNumber x then
      let (_, rest) ← readNumeral (x :: rest)
      skipLoop fuel .afterValue outer rest
    else if x = some '[' then
      let (y, after) ← next rest
      if y = some ']' then skipLoop fuel .afterValue outer after
      else skipLoop fuel .beforeValue (false :: outer) rest
    else if x = some openBrace then
      let (y, after) ← next rest
      if y = some closeBrace then skipLoop fuel .afterValue outer after
      else skipLoop fuel .beforeValue (true :: outer) (← skipKey rest)
    else throw .malformed
  | _ + 1, .afterValue, [], s => .ok s
  | fuel + 1, .afterValue, isRecord :: outer, s => do
    let (x, rest) ← next s
    if x = some ',' then
      skipLoop fuel .beforeValue (isRecord :: outer) (← if isRecord then skipKey rest else pure rest)
    else if x = some (if isRecord then closeBrace else ']') then
      skipLoop fuel .afterValue outer rest
    else throw .malformed

/-- The input after a value that is not looked at. -/
def skipValue (s : Input) : Except Fault Input := skipLoop (2 * s.length + 2) .beforeValue [] s

/-- Whether a field has to be there. -/
inductive Presence where
  | required
  /-- It may be missing by name, but not by position. -/
  | requiredByPosition
  | optional
deriving DecidableEq

/-- A field of a record. -/
structure Field where
  name : String
  presence : Presence
  decoder : Decoder

/-- Put the found fields in order; a missing one has to be allowed to. -/
def arrange (fields : List Field) (found : List (String × Value)) :
    Except Fault (List (String × Value)) :=
  match fields with
  | [] => .ok []
  | f :: rest =>
    match found.lookup f.name with
    | some v => (arrange rest found).map ((f.name, v) :: ·)
    | none => if f.presence = .required then .error .mismatch else arrange rest found

/-- Fields by name up to the end of the record. -/
def readNamed (fields : List Field) (depth : Nat) :
    Nat → Bool → List (String × Value) → Input → Except Fault (List (String × Value) × Input)
  | 0, _, _, _ => .error .ended
  | fuel + 1, first, found, s => do
    match ← nextKey first s with
    | none => return (← arrange fields found, ← closeWith closeBrace s)
    | some (key, s) =>
      match fields.find? (·.name == key) with
      | none => readNamed fields depth fuel false found (← skipValue (← colon s))
      | some f =>
        if (found.lookup key).isSome then throw .mismatch
        let (v, s) ← f.decoder depth (← colon s)
        readNamed fields depth fuel false ((key, v) :: found) s

/-- Fields by position. -/
def readPlaced (depth : Nat) : Bool → List Field → Input → Except Fault (List (String × Value) × Input)
  | _, [], s => do return ([], ← closeWith ']' s)
  | first, f :: rest, s => do
    match ← nextItem first s with
    | none =>
      if f.presence = .optional then readPlaced depth first rest s else throw .mismatch
    | some s =>
      let (v, s) ← f.decoder depth s
      let (more, s) ← readPlaced depth false rest s
      return ((f.name, v) :: more, s)

/-- A record by name or by position; its fields come out in the order given here. -/
def record (fields : List Field) : Decoder := fun depth s => do
  let (x, rest) ← next s
  if x = some openBrace then
    descend depth fun depth => do
      let (found, rest) ← readNamed fields depth (rest.length + 1) true [] rest
      return (.record found, rest)
  else if x = some '[' then
    descend depth fun depth => do
      let (found, rest) ← readPlaced depth true fields rest
      return (.record found, rest)
  else throw (wrongKind x rest)

/-- Entries up to the end of a table. -/
def readEntries (d : Input → Except Fault (Value × Input)) :
    Nat → Bool → Input → Except Fault (List (String × Value) × Input)
  | 0, _, _ => .error .ended
  | fuel + 1, first, s => do
    match ← nextKey first s with
    | none => return ([], ← closeWith closeBrace s)
    | some (key, s) =>
      let (v, s) ← d (← colon s)
      let (more, s) ← readEntries d fuel false s
      return ((key, v) :: more, s)

/-- Values under any keys; the last value of a key counts, and keys come out in order. -/
def table (d : Decoder) : Decoder := fun depth s => do
  let (x, rest) ← next s
  if x = some openBrace then
    descend depth fun depth => do
      let (found, rest) ← readEntries (d depth) (rest.length + 1) true rest
      return (.record (OrderedMap.ofList found).entries, rest)
  else throw (wrongKind x rest)

/-! ## One of several words -/

/-- The empty content of a word that is written as a key. -/
def unit : Input → Except Fault Input := fun s => do
  let (x, rest) ← next s
  if x = some 'n' then readWord "ull".toList rest else throw (wrongKind x rest)

/-- Null or an empty record. -/
def looseUnit : Input → Except Fault Input := fun s => do
  let (x, rest) ← next s
  if x = some openBrace then closeWith closeBrace rest else unit s

/-- A word of a fixed choice, written as a text or as the only key of a record with empty content. -/
def oneOfWith (content : Input → Except Fault Input) (names : List String) : Decoder := fun depth s => do
  let (x, rest) ← next s
  if x = some openBrace then
    descend depth fun _ => do
      let (y, rest) ← next rest
      if y ≠ some '"' then throw (wrongKind y rest)
      let (name, rest) ← readText rest
      if !names.contains name then throw .mismatch
      let rest ← content (← colon rest)
      return (.text name, ← closeWith closeBrace rest)
  else if x = some '"' then
    let (name, rest) ← readText rest
    if !names.contains name then throw .mismatch
    return (.text name, rest)
  else throw .malformed

def oneOf (names : List String) : Decoder := oneOfWith unit names

/-! ## A record inside a record -/

/-- The input after a value that is looked at but not kept. -/
def checkValue : Nat → Input → Except Fault Input
  | depth, s => do
    let (x, rest) ← next s
    if x = some 'n' then readWord "ull".toList rest
    else if x = some 't' then readWord "rue".toList rest
    else if x = some 'f' then readWord "alse".toList rest
    else if x = some '"' then return (← readText rest).2
    else if startsNumber x then return (← readNumber (x :: rest)).2
    else
      match depth with
      | 0 => throw .malformed
      | depth + 1 =>
        if x = some '[' then
          let item := fun s => (checkValue depth s).map fun s => ((), s)
          return (← readItems item (rest.length + 1) true rest).2
        else if x = some openBrace then
          let value := fun s => (checkValue depth s).map fun s => (Value.null, s)
          return (← readEntries value (rest.length + 1) true rest).2
        else throw .malformed

/-- Keys with the place of their values, and the value of the one kept field. -/
def readMixed (kept : Field) (depth : Nat) :
    Nat → Bool → Option Value → Input → Except Fault (List (String × Input) × Option Value × Input)
  | 0, _, _, _ => .error .ended
  | fuel + 1, first, value?, s => do
    match ← nextKey first s with
    | none => return ([], value?, ← closeWith closeBrace s)
    | some (key, s) =>
      if key = kept.name then
        if value?.isSome then throw .mismatch
        let (v, s) ← kept.decoder depth (← colon s)
        readMixed kept depth fuel false (some v) s
      else
        let s ← colon s
        let (more, value?, rest) ← readMixed kept depth fuel false value? (← checkValue depth s)
        return ((key, s) :: more, value?, rest)

/-- Read the values of known fields from their places; whatever is wrong with one does not fit. -/
def readSaved (fields : List Field) (depth : Nat) (found : List (String × Value)) :
    List (String × Input) → Except Fault (List (String × Value))
  | [] => arrange fields found
  | (key, s) :: rest =>
    match fields.find? (·.name == key) with
    | none => readSaved fields depth found rest
    | some f =>
      if (found.lookup key).isSome then .error .mismatch
      else
        match f.decoder depth s with
        | .ok (v, _) => readSaved fields depth ((key, v) :: found) rest
        | .error _ => .error .mismatch

/-- A record that holds the fields of another beside one of its own, by name only. -/
def flattened (fields : List Field) (kept : Field) : Decoder := fun depth s => do
  let (x, rest) ← next s
  if x = some openBrace then
    descend depth fun depth => do
      let (saved, value?, rest) ← readMixed kept depth (rest.length + 1) true none rest
      let some value := value? | throw .mismatch
      let found ← readSaved fields depth [] saved
      return (.record (found ++ [(kept.name, value)]), rest)
  else throw (wrongKind x rest)

/-- The one value of a document, with gaps around it. -/
def decode (d : Decoder) (s : Input) : Except Fault Value := do
  let (v, rest) ← d depthLimit s
  if (skipGap rest).isEmpty then return v else throw .malformed

end CipherCorpus.Json
