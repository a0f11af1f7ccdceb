import CipherCorpus.Text.Number
import CipherCorpus.Text.Pieces
import CipherCorpus.Yaml.Node

/-!
# Reading values from nodes

A document is a root node and the nodes that aliases stand for. Readers take a node, follow an alias
first, and answer none when the node has the wrong shape.

* `text` takes any scalar; `word` takes a plain number.
* The missing node is an empty list, an empty record, and no value (`maybe`).
* A record ignores names that it does not know and refuses one that it knows twice.
-/

namespace CipherCorpus.Yaml

/-- A root node with the nodes that have numbers. -/
structure Document where
  root : Node
  anchors : List (Nat × Node)

mutual

/-- The numbered nodes in the order in which they are written. -/
def numbered : Node → List (Nat × Node)
  | .scalar .. => []
  | .sequence items => numberedItems items
  | .mapping entries => numberedEntries entries
  | .alias _ => []
  | .anchored n node => (n, node) :: numbered node

def numberedItems : List Node → List (Nat × Node)
  | [] => []
  | x :: rest => numbered x ++ numberedItems rest

def numberedEntries : List (Node × Node) → List (Nat × Node)
  | [] => []
  | (k, v) :: rest => numbered k ++ numbered v ++ numberedEntries rest

end

/-- Of nodes with the same number the last one counts. -/
def Document.ofRoot (root : Node) : Document := ⟨root, (numbered root).reverse⟩

/-- The document in a stream of bytes; a stream without one is the missing node. -/
def Document.ofBytes? (bytes : List UInt8) : Option Document := do
  let root ← document? (← Text.decode? bytes)
  return .ofRoot (root.getD .empty)

/-- Gives the value of a node of the right shape. -/
abbrev Read (α : Type) := Node → Option α

namespace Document

/-- The node itself, or the one that an alias stands for. -/
def follow (d : Document) : Node → Node
  | .alias n =>
    match d.anchors.lookup n with
    | some node => node
    | none => .empty
  | .anchored _ node => node
  | node => node

/-- The node that is not written, or an empty plain scalar. -/
def isMissing : Node → Bool
  | .scalar text style _ => text.isEmpty && style = .plain
  | _ => false

def text (d : Document) : Read String := fun node =>
  match d.follow node with
  | .scalar text _ _ => some text
  | _ => none

/-- The tag of whole numbers. -/
def numberTag : String := "tag:yaml.org,2002:int"

/-- Number bases by their marks. -/
def bases : List (List Char × Nat) := [(['0', 'x'], 16), (['0', 'o'], 8), (['0', 'b'], 2)]

def startsWithSign (s : List Char) : Bool := s.head? == some '+' || s.head? == some '-'

/-- A number with the mark of its base. -/
def marked? (s : List Char) : Option Nat :=
  bases.findSome? fun base =>
    match Text.afterStart? base.1 s with
    | some digits => if startsWithSign digits then none else (Text.readNat base.2 digits).toOption
    | none => none

/-- Digits that start with an idle zero are a text, not a number. -/
def hasIdleZero (s : List Char) : Bool :=
  s.length > 1 && s.head? == some '0' && s.all Char.isDigit

def number? (s : List Char) : Option Nat :=
  let unsigned := if s.head? == some '+' then s.tail else s
  match marked? unsigned with
  | some n => some n
  | none =>
    if startsWithSign unsigned || hasIdleZero unsigned then none
    else (Text.readNat 10 unsigned).toOption

def word (d : Document) : Read UInt64 := fun node =>
  match d.follow node with
  | .scalar text style tag =>
    if style = .plain || (style = .literal && tag = some numberTag) then
      (number? text.toList).map UInt64.ofNat
    else none
  | _ => none

/-- The words for no value. -/
def nullWords : List String := ["null", "Null", "NULL", "~"]

/-- The tag of no value. -/
def nullTag : String := "tag:yaml.org,2002:null"

/-- A value that may be none. -/
def maybe {α : Type} (d : Document) (read : Read α) : Read (Option α) := fun node =>
  let node := d.follow node
  match node with
  | .scalar text .plain none =>
    if text.isEmpty || nullWords.contains text then some none else (read node).map some
  | .scalar text .plain (some tag) =>
    if tag = nullTag then if nullWords.contains text then some none else none
    else (read node).map some
  | _ => (read node).map some

def list {α : Type} (d : Document) (read : Read α) : Read (List α) := fun node =>
  let node := d.follow node
  match node with
  | .sequence items => items.mapM read
  | _ => if isMissing node then some [] else none

/-- The entries of a record whose names `known` holds, each at most once. -/
def fields (d : Document) (known : List String) : Read (List (String × Node)) := fun node => do
  let node := d.follow node
  match node with
  | .mapping entries =>
    let named ← entries.mapM fun e => (d.text e.1).map fun name => (name, e.2)
    let kept := named.filter fun e => known.contains e.1
    if (kept.map (·.1)).Nodup then return kept else none
  | _ => if isMissing node then some [] else none

/-- A field that has to be there. -/
def need {α : Type} (fields : List (String × Node)) (name : String) (read : Read α) : Option α := do
  read (← fields.lookup name)

/-- A field, or the standard value when it is not there. -/
def may {α : Type} (fields : List (String × Node)) (name : String) (standard : α) (read : Read α) :
    Option α :=
  match fields.lookup name with
  | some node => read node
  | none => some standard

end Document

end CipherCorpus.Yaml
