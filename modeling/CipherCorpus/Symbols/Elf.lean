import CipherCorpus.Function
import CipherCorpus.Text.Utf8

/-!
# Symbols of an ELF file

The file is read in both word sizes and byte orders. Headers, the names of sections, the last symbol
table with its names, relocations, version sections and the dynamic segment all have to lie inside the
file; otherwise nothing is read. From the symbol table come the defined functions with an address and
a name, in order.
-/

namespace CipherCorpus.Elf

/-- The bytes of a file and how its words are written. -/
structure Image where
  bytes : ByteArray
  /-- Addresses have 64 bits. -/
  wide : Bool
  littleEndian : Bool

namespace Image

def size (f : Image) : Nat := f.bytes.size

/-- The number in `width` bytes at `offset`. -/
def number (f : Image) (offset width : Nat) : Nat :=
  let ds := (List.range width).map fun i => (f.bytes.get! (offset + i)).toNat
  (if f.littleEndian then ds.reverse else ds).foldl (fun n d => n * 256 + d) 0

/-- A structure of `length` bytes lies at `offset`. -/
def holds (f : Image) (offset length : Nat) : Bool := offset < f.size && offset + length ≤ f.size

end Image

/-- The parts of the file header that lead on. -/
structure Header where
  programOffset : Nat
  sectionOffset : Nat
  programSize : Nat
  programCount : Nat
  sectionCount : Nat
  nameSection : Nat

/-- A section of the file. -/
structure Section where
  kind : Nat
  address : Nat
  offset : Nat
  size : Nat
  link : Nat
  entrySize : Nat

/-- A segment of the file. -/
structure Segment where
  kind : Nat
  offset : Nat
  fileSize : Nat

def magic : List UInt8 := [0x7f, 0x45, 0x4c, 0x46]

/-- The image of a file that starts like an ELF file. -/
def image? (data : List UInt8) : Option Image :=
  if magic.isPrefixOf data && 16 ≤ data.length then
    match data[4]?, data[5]? with
    | some c, some e =>
      if (c == 1 || c == 2) && (e == 1 || e == 2) then
        some ⟨data.toByteArray, c == 2, e == 1⟩
      else none
    | _, _ => none
  else none

def header? (f : Image) : Option Header :=
  if f.wide then
    if f.holds 0 64 then
      some ⟨f.number 32 8, f.number 40 8, f.number 54 2, f.number 56 2, f.number 60 2, f.number 62 2⟩
    else none
  else if f.holds 0 52 then
    some ⟨f.number 28 4, f.number 32 4, f.number 42 2, f.number 44 2, f.number 48 2, f.number 50 2⟩
  else none

def segmentSize (f : Image) : Nat := if f.wide then 56 else 32

def segmentAt? (f : Image) (offset : Nat) : Option Segment :=
  if !f.holds offset (segmentSize f) then none
  else if f.wide then some ⟨f.number offset 4, f.number (offset + 8) 8, f.number (offset + 32) 8⟩
  else some ⟨f.number offset 4, f.number (offset + 4) 4, f.number (offset + 16) 4⟩

def sectionSize (f : Image) : Nat := if f.wide then 64 else 40

def sectionAt? (f : Image) (offset : Nat) : Option Section :=
  if !f.holds offset (sectionSize f) then none
  else if f.wide then
    some ⟨f.number (offset + 4) 4, f.number (offset + 16) 8, f.number (offset + 24) 8,
      f.number (offset + 32) 8, f.number (offset + 40) 4, f.number (offset + 56) 8⟩
  else
    some ⟨f.number (offset + 4) 4, f.number (offset + 12) 4, f.number (offset + 16) 4,
      f.number (offset + 20) 4, f.number (offset + 24) 4, f.number (offset + 36) 4⟩

def segments? (f : Image) (h : Header) : Option (List Segment) :=
  if f.size / segmentSize f < h.programCount then none
  else (List.range h.programCount).mapM fun i => segmentAt? f (h.programOffset + i * segmentSize f)

/-- All sections. A count of zero is found in the size of the first one. -/
def sections? (f : Image) (h : Header) : Option (List Section) :=
  if h.sectionOffset = 0 then some []
  else do
    let first ← sectionAt? f h.sectionOffset
    let count := if h.sectionCount = 0 then first.size else h.sectionCount
    if f.size / sectionSize f < count then none
    else
      let more ← (List.range (count - 1)).mapM fun i =>
        sectionAt? f (h.sectionOffset + (i + 1) * sectionSize f)
      return first :: more

/-- The section lies inside the file, or takes no room in it. -/
def Section.fits (s : Section) (fileSize : Nat) : Bool :=
  s.kind == 8 || s.size == 0 ||
    (s.offset + s.size ≤ fileSize && s.address + s.size < UInt64.size)

/-- The texts of a name table, with the offset at which each starts. -/
def namesFrom (offset : Nat) (bytes : List (List UInt8)) : Option (List (Nat × List Char)) :=
  match bytes with
  | [] => some []
  | piece :: rest => do
    let text ← Text.decode? piece
    let more ← namesFrom (offset + piece.length + 1) rest
    return (offset, text) :: more

/-- Bytes cut at every zero. -/
def cutAtZero (bytes : List UInt8) : List (List UInt8) :=
  let cut := bytes.foldr (fun b (acc : List UInt8 × List (List UInt8)) =>
    if b == 0 then ([], acc.1 :: acc.2) else (b :: acc.1, acc.2)) ([], [])
  cut.1 :: cut.2

/-- The name table in a part of the file. -/
def names? (f : Image) (offset length : Nat) : Option (List (Nat × List Char)) :=
  if f.size < offset + length then none
  else namesFrom 0 (cutAtZero (f.bytes.extract offset (offset + length)).toList)

/-- The name table that a section index stands for. -/
def nameTable? (f : Image) (sections : List Section) (index : Nat) : Option (List (Nat × List Char)) :=
  let index := if index = 0xffff then (sections.head?.map (·.link)).getD index else index
  match sections[index]? with
  | none => some []
  | some s => if s.fits f.size then names? f s.offset s.size else none

/-- Drop `n` bytes of a text; none inside a character or beyond the end. -/
def dropBytes? : Nat → List Char → Option (List Char)
  | 0, text => some text
  | _ + 1, [] => none
  | n + 1, c :: rest => if c.utf8Size ≤ n + 1 then dropBytes? (n + 1 - c.utf8Size) rest else none

/-- The name at an offset: a table entry or the end of one. -/
def nameAt (names : List (Nat × List Char)) (offset : Nat) : List Char :=
  match (names.filter (·.1 ≤ offset)).getLast? with
  | none => []
  | some (start, text) => (dropBytes? (offset - start) text).getD []

/-- A symbol table entry. -/
structure Symbol where
  name : Nat
  info : Nat
  sectionIndex : Nat
  value : Nat
  size : Nat

def symbolSize (f : Image) : Nat := if f.wide then 24 else 16

def symbolAt (f : Image) (offset : Nat) : Symbol :=
  if f.wide then
    ⟨f.number offset 4, f.number (offset + 4) 1, f.number (offset + 6) 2, f.number (offset + 8) 8,
      f.number (offset + 16) 8⟩
  else
    ⟨f.number offset 4, f.number (offset + 12) 1, f.number (offset + 14) 2, f.number (offset + 4) 4,
      f.number (offset + 8) 4⟩

/-- The symbols and names of the last symbol table. -/
def symbols? (f : Image) (sections : List Section) : Option (List Symbol × List (Nat × List Char)) :=
  match sections.reverse.find? (·.kind == 2) with
  | none => some ([], [])
  | some s =>
    let count := if s.entrySize = 0 then 0 else s.size / s.entrySize
    if !f.holds s.offset (count * symbolSize f) then none
    else do
      let names ← nameTable? f sections s.link
      return ((List.range count).map fun i => symbolAt f (s.offset + i * symbolSize f), names)

/-- Relocations lie inside the file. -/
def relocationsFit (f : Image) (s : Section) : Bool :=
  if s.kind == 4 || s.kind == 9 then
    s.fits f.size && (s.size == 0 || f.holds s.offset s.size)
  else true

/-- The first section of a kind, if any, lies inside the file. -/
def firstFits (f : Image) (sections : List Section) (kind : Nat) : Bool :=
  match sections.find? (·.kind == kind) with
  | none => true
  | some s => f.holds s.offset s.size

/-- The first dynamic segment, if any, lies inside the file. -/
def dynamicFits (f : Image) (segments : List Segment) : Bool :=
  match segments.find? (·.kind == 2) with
  | none => true
  | some p => p.fileSize == 0 || f.holds p.offset p.fileSize

/-- The parts that are not read lie inside the file all the same. -/
def restFits (f : Image) (segments : List Segment) (sections : List Section) : Bool :=
  dynamicFits f segments && sections.all (relocationsFit f) &&
    [0x6fffffff, 0x6ffffffd, 0x6ffffffe].all (firstFits f sections)

def Symbol.isFunction (s : Symbol) : Bool := s.info % 16 == 2 && s.value != 0 && s.sectionIndex != 0

/-- The function of a symbol that has a name. -/
def function? (names : List (Nat × List Char)) (binary : Path) (s : Symbol) : Option FoundFunction :=
  let name := nameAt names s.name
  if s.isFunction && !name.isEmpty then
    some ⟨binary, UInt64.ofNat s.value, some (UInt64.ofNat s.size), String.ofList name, .symbol⟩
  else none

/-- The functions of an ELF file; none when it cannot be read. -/
def functions? (data : List UInt8) (binary : Path) : Option (List FoundFunction) := do
  let f ← image? data
  let h ← header? f
  let segments ← segments? f h
  let sections ← sections? f h
  let _ ← nameTable? f sections h.nameSection
  let (symbols, names) ← symbols? f sections
  if restFits f segments sections then return symbols.filterMap (function? names binary) else none

end CipherCorpus.Elf
