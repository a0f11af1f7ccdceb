import CipherCorpus.Function
import CipherCorpus.Text.Blank
import CipherCorpus.Text.Number

/-!
# Symbol listings

A listing has a row for each symbol: number, address, size, type, binding, visibility, section, name.
Rows of type `FUNC` with a readable address and size give functions; a name is the last word that is
no version in parentheses. The same address and name is taken once.
-/

namespace CipherCorpus.Symbols

/-- A size is decimal, or hexadecimal after `0x`. -/
def readSize (token : List Char) : Except Text.NumberFault Nat :=
  match token with
  | '0' :: 'x' :: digits => Text.readNat 16 digits
  | _ => Text.readNat 10 token

/-- Address, size and name of one row. -/
structure Row where
  address : Nat
  size : Nat
  name : String
deriving DecidableEq, Repr

/-- The last word that does not start with a parenthesis. -/
def nameOf? (tokens : List (List Char)) : Option (List Char) :=
  tokens.reverse.find? (·.head? != some '(')

/-- The function of a row, if the row is one. -/
def readRow? (line : List Char) : Option Row :=
  match Text.words line with
  | _ :: value :: size :: kind :: _ :: _ :: _ :: name :: more =>
    if kind ≠ "FUNC".toList then none
    else
      match Text.readNat 16 value, readSize size, nameOf? (name :: more) with
      | .ok address, .ok size, some name => some ⟨address, size, String.ofList name⟩
      | _, _, _ => none
  | _ => none

/-- Rows without those whose address and name came before. -/
def distinctRows (rows : List Row) : List Row :=
  rows.foldl (fun kept r =>
    if kept.any (fun k => k.address == r.address && k.name == r.name) then kept else kept ++ [r]) []

def Row.toFunction (binary : Path) (r : Row) : FoundFunction :=
  ⟨binary, UInt64.ofNat r.address, some (UInt64.ofNat r.size), r.name, .symbol⟩

/-- The functions of a listing, in order. -/
def ofListing (listing : List Char) (binary : Path) : List FoundFunction :=
  (distinctRows ((Text.lines listing).filterMap readRow?)).map (·.toFunction binary)

end CipherCorpus.Symbols
