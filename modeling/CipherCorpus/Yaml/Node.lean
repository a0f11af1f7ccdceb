import CipherCorpus.Yaml.Token

/-!
# Nodes

A stream holds no document or one; its root is a tree of scalars, sequences and mappings. An anchor
gets a number, and an alias stands for the node of its number. An anchor has to come before its
aliases; a number is the count of the names known so far, so naming an anchor again shifts the numbers
of later ones.
-/

namespace CipherCorpus.Yaml

/-- A node of a document. -/
inductive Node where
  | scalar (text : String) (style : Style) (tag : Option String)
  | sequence (items : List Node)
  | mapping (entries : List (Node × Node))
  | alias (number : Nat)
  | anchored (number : Nat) (node : Node)
deriving Repr, Inhabited

/-- The node that is not written. -/
def Node.empty : Node := .scalar "" .plain none

/-- The tokens to come, and the names known so far. -/
structure Reader where
  tokens : List Token
  handles : List (String × String)
  anchors : List (String × Nat)

abbrev Parse := StateT Reader Option

namespace Parse

def refuse {α : Type} : Parse α := StateT.lift none

def peek : Parse (Option Token) := return (← get).tokens.head?

def skip : Parse Unit := modify fun r => { r with tokens := r.tokens.tail }

/-- Take a token if it comes next. -/
def accept (t : Token) : Parse Bool := do
  if (← peek) = some t then
    skip
    return true
  else return false

def expect (t : Token) : Parse Unit := do if !(← accept t) then refuse

/-- Give a name a number. -/
def defineAnchor (name : String) : Parse Nat := do
  let r ← get
  let number := r.anchors.length
  set { r with anchors := (name, number) :: r.anchors.filter (·.1 != name) }
  return number

def resolveTag (handle suffix : String) : Parse String := do
  if handle = "" then return suffix
  match (← get).handles.lookup handle with
  | some lead => return lead ++ suffix
  | none => refuse

def takeAnchor : Parse (Option String) := do
  match ← peek with
  | some (.anchor name) => skip; return some name
  | _ => return none

def takeTag : Parse (Option String) := do
  match ← peek with
  | some (.tag handle suffix) => skip; return some (← resolveTag handle suffix)
  | _ => return none

/-- Anchor and tag in either order. -/
def properties : Parse (Option String × Option String) := do
  match ← takeAnchor with
  | some name => return (some name, ← takeTag)
  | none =>
    let tag ← takeTag
    if tag.isSome then return (← takeAnchor, tag) else return (none, none)

def endsEntry (t : Option Token) : Bool := t == none

/-- No node stands before these tokens. -/
def isBefore (stops : List Token) : Parse Bool := do
  match ← peek with
  | some t => return stops.contains t
  | none => return false

mutual

/-- A node; `block` allows block collections, `dashes` a sequence that is not further in. -/
def node (block dashes : Bool) : Nat → Parse Node
  | 0 => refuse
  | fuel + 1 => do
    match ← peek with
    | some (.alias name) =>
      match (← get).anchors.lookup name with
      | some number =>
        skip
        return .alias number
      | none => refuse
    | _ =>
      let (anchor, tag) ← properties
      let number ← anchor.mapM defineAnchor
      let body ← content block dashes (anchor.isSome || tag.isSome) tag fuel
      return match number with
        | some n => .anchored n body
        | none => body

/-- A node after its properties; it may be missing when there are some. -/
def content (block dashes hasProperties : Bool) (tag : Option String) : Nat → Parse Node
  | 0 => refuse
  | fuel + 1 => do
    match ← peek with
    | some (.scalar text style) =>
      skip
      return .scalar text style (tag.filter (· != ""))
    | some .flowSequenceStart =>
      skip
      return .sequence (← flowItems true fuel)
    | some .flowMappingStart =>
      skip
      return .mapping (← flowEntries true fuel)
    | some .blockEntry =>
      if dashes then return .sequence (← dashItems fuel) else missing hasProperties tag
    | some .blockSequenceStart =>
      if block then
        skip
        return .sequence (← blockItems fuel)
      else missing hasProperties tag
    | some .blockMappingStart =>
      if block then
        skip
        return .mapping (← blockEntries fuel)
      else missing hasProperties tag
    | _ => missing hasProperties tag

/-- Items of a block sequence up to its end. -/
def blockItems : Nat → Parse (List Node)
  | 0 => refuse
  | fuel + 1 => do
    if ← accept .blockEnd then return []
    expect .blockEntry
    let item ← orEmpty [.blockEntry, .blockEnd] true false fuel
    return item :: (← blockItems fuel)

/-- Items of a sequence that stands at the column of its mapping. -/
def dashItems : Nat → Parse (List Node)
  | 0 => refuse
  | fuel + 1 => do
    if ← accept .blockEntry then
      let item ← orEmpty [.blockEntry, .key, .value, .blockEnd] true false fuel
      return item :: (← dashItems fuel)
    else return []

/-- Entries of a block mapping up to its end. -/
def blockEntries : Nat → Parse (List (Node × Node))
  | 0 => refuse
  | fuel + 1 => do
    if ← accept .blockEnd then return []
    expect .key
    let key ← orEmpty [.key, .value, .blockEnd] true true fuel
    let value ←
      if ← accept .value then orEmpty [.key, .value, .blockEnd] true true fuel else pure .empty
    return (key, value) :: (← blockEntries fuel)

/-- Items of a flow sequence up to its end. A key makes an item a mapping of one entry. -/
def flowItems (first : Bool) : Nat → Parse (List Node)
  | 0 => refuse
  | fuel + 1 => do
    if ← accept .flowSequenceEnd then return []
    if !first then expect .flowEntry
    if ← accept .flowSequenceEnd then return []
    if ← accept .key then
      let key ←
        if ← isBefore [.value, .flowEntry, .flowSequenceEnd] then do
          skip
          pure .empty
        else node false false fuel
      let value ←
        if ← accept .value then orEmpty [.flowEntry, .flowSequenceEnd] false false fuel
        else pure .empty
      return .mapping [(key, value)] :: (← flowItems false fuel)
    else
      let item ← node false false fuel
      return item :: (← flowItems false fuel)

/-- Entries of a flow mapping up to its end. -/
def flowEntries (first : Bool) : Nat → Parse (List (Node × Node))
  | 0 => refuse
  | fuel + 1 => do
    if ← accept .flowMappingEnd then return []
    if !first then expect .flowEntry
    if ← accept .flowMappingEnd then return []
    if ← accept .key then
      let key ← orEmpty [.value, .flowEntry, .flowMappingEnd] false false fuel
      let value ←
        if ← accept .value then orEmpty [.flowEntry, .flowMappingEnd] false false fuel
        else pure .empty
      return (key, value) :: (← flowEntries false fuel)
    else
      let key ← node false false fuel
      return (key, .empty) :: (← flowEntries false fuel)

/-- A node, or the empty one before one of the given tokens. -/
def orEmpty (stops : List Token) (block dashes : Bool) : Nat → Parse Node
  | 0 => refuse
  | fuel + 1 => do if ← isBefore stops then return .empty else node block dashes fuel

/-- The empty node, where properties stand for it. -/
def missing (hasProperties : Bool) (tag : Option String) : Parse Node :=
  if hasProperties then return .scalar "" .plain (tag.filter (· != "")) else refuse

end

/-- The handles that need no directive. -/
def standardHandles : List (String × String) := [("!", "!"), ("!!", "tag:yaml.org,2002:")]

/-- The directives before a document. -/
def directives : Nat → Bool → List (String × String) → Parse (List (String × String))
  | 0, _, _ => refuse
  | fuel + 1, hasVersion, handles => do
    match ← peek with
    | some (.version major minor) =>
      if hasVersion || major != 1 || !(minor == 1 || minor == 2) then refuse
      skip
      directives fuel true handles
    | some (.tagDirective handle lead) =>
      if (handles.lookup handle).isSome then refuse
      skip
      directives fuel hasVersion ((handle, lead) :: handles)
    | _ => return handles

/-- No content stands before these tokens. -/
def isDocumentMark : Option Token → Bool
  | none => true
  | some .documentStart => true
  | some .documentEnd => true
  | some (.version _ _) => true
  | some (.tagDirective _ _) => true
  | _ => false

/-- The document of a stream, if it has one; a second one is refused. -/
def document : Parse (Option Node) := do
  let fuel := 4 * (← get).tokens.length + 8
  let first ← peek
  if first = none then return none
  let root ←
    if isDocumentMark first && first != some .documentEnd then do
      let handles ← directives fuel false []
      modify fun r => { r with handles := handles ++ standardHandles }
      expect .documentStart
      if isDocumentMark (← peek) then pure .empty else node true false fuel
    else node true false fuel
  let r ← get
  if (r.tokens.dropWhile (· == .documentEnd)).isEmpty then return some root else refuse

end Parse

/-- The document in a text. -/
def document? (text : List Char) : Option (Option Node) := do
  let tokens ← tokens? text
  (Parse.document.run ⟨tokens, Parse.standardHandles, []⟩).map (·.1)

end CipherCorpus.Yaml
