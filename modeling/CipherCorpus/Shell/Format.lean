import CipherCorpus.Shell.Script
import CipherCorpus.Text.Number
import CipherCorpus.Text.Quoted

/-!
# Formatted output

A format is written once for each round of arguments until they are used up. A missing argument counts
as empty or zero. A number that cannot be read counts as far as it can, with a complaint.
-/

namespace CipherCorpus.Shell.Format

def isOctal (c : Char) : Bool := decide ('0' ≤ c) && decide (c ≤ '7')

def octalValue (digits : ByteText) : Char :=
  Char.ofNat (digits.foldl (fun n d => n * 8 + (d.toNat - 48)) 0 % 256)

/-- The characters of escapes that have a letter. -/
def letterEscape? : Char → Option Char
  | 'a' => some (Char.ofNat 7)
  | 'b' => some (Char.ofNat 8)
  | 'e' => some (Char.ofNat 27)
  | 'f' => some (Char.ofNat 12)
  | 'n' => some '\n'
  | 'r' => some '\r'
  | 't' => some '\t'
  | 'v' => some (Char.ofNat 11)
  | '\\' => some '\\'
  | _ => none

/-- What an escape stands for, and the text after it; the backslash has been read. -/
def escape (s : ByteText) : ByteText × ByteText :=
  match s with
  | [] => (['\\'], [])
  | c :: rest =>
    match letterEscape? c with
    | some d => ([d], rest)
    | none =>
      if isOctal c then
        let digits := (s.take 3).takeWhile isOctal
        ([octalValue digits], s.drop digits.length)
      else (['\\'], s)

/-- A text with its escapes replaced, and whether it asks to stop there. -/
def expandFrom : Nat → ByteText → ByteText × Bool
  | 0, _ => ([], false)
  | fuel + 1, s =>
    match s with
    | [] => ([], false)
    | '\\' :: 'c' :: _ => ([], true)
    | '\\' :: '0' :: rest =>
      let digits := (rest.take 3).takeWhile isOctal
      let after := expandFrom fuel (rest.drop digits.length)
      (octalValue digits :: after.1, after.2)
    | '\\' :: rest =>
      let (shown, rest) := escape rest
      let after := expandFrom fuel rest
      (shown ++ after.1, after.2)
    | c :: rest =>
      let after := expandFrom fuel rest
      (c :: after.1, after.2)

def expand (s : ByteText) : ByteText × Bool := expandFrom (s.length + 1) s

/-- How a value is written. -/
structure Directive where
  left : Bool
  zeros : Bool
  plus : Bool
  space : Bool
  alternate : Bool
  width : Nat
  precision : Option Nat

/-- Fill up to the width. -/
def pad (d : Directive) (zeros : Bool) (lead body : ByteText) : ByteText :=
  let missing := d.width - (lead.length + body.length)
  if d.left then lead ++ body ++ List.replicate missing ' '
  else if zeros then lead ++ List.replicate missing '0' ++ body
  else List.replicate missing ' ' ++ lead ++ body

def textField (d : Directive) (s : ByteText) : ByteText :=
  pad d false [] (match d.precision with
    | some n => s.take n
    | none => s)

/-- A number in some base. -/
def numberField (d : Directive) (signed : Bool) (base : Nat) (upper : Bool) (n : Int) : ByteText :=
  let size := if signed then n.natAbs else (n % UInt64.size).toNat
  let digits := if size = 0 && d.precision = some 0 then [] else Nat.toDigits base size
  let digits := if upper then digits.map Char.toUpper else digits
  let digits := match d.precision with
    | some p => List.replicate (p - digits.length) '0' ++ digits
    | none => digits
  let lead : ByteText :=
    if signed then
      if n < 0 then ['-'] else if d.plus then ['+'] else if d.space then [' '] else []
    else if d.alternate && base = 16 && size != 0 then ['0', if upper then 'X' else 'x']
    else if d.alternate && base = 8 && digits.head? != some '0' then ['0'] else []
  pad d (d.zeros && d.precision.isNone) lead digits

/-- What is left of a format run: output, complaints, and whether it was told to stop. -/
structure Written where
  output : ByteText
  complaints : List String
  stopped : Bool

/-- A number argument: value and complaint. -/
def readNumber (s : ByteText) : Int × Option String :=
  let blankless := s.dropWhile (·.isWhitespace)
  match blankless with
  | '"' :: c :: _ => (c.toNat, none)
  | '\'' :: c :: _ => (c.toNat, none)
  | _ =>
    let negative := blankless.head? == some '-'
    let body := if negative || blankless.head? == some '+' then blankless.drop 1 else blankless
    let (base, body) : Nat × ByteText := match body with
      | '0' :: 'x' :: rest => (16, rest)
      | '0' :: 'X' :: rest => (16, rest)
      | '0' :: d :: rest => (8, '0' :: d :: rest)
      | b => (10, b)
    let digits := body.takeWhile fun c => (Text.digitValue? base c).isSome
    let value : Nat := digits.foldl (fun n c => n * base + (Text.digitValue? base c).getD 0) 0
    let value : Int := if negative then -value else value
    let complaint :=
      if digits.isEmpty then some s!"{toText s}: expected numeric value"
      else if digits.length < body.length then some s!"{toText s}: not completely converted"
      else none
    (value, if s.isEmpty then none else complaint)

def flagOf (d : Directive) : Char → Option Directive
  | '-' => some { d with left := true }
  | '0' => some { d with zeros := true }
  | '+' => some { d with plus := true }
  | ' ' => some { d with space := true }
  | '#' => some { d with alternate := true }
  | _ => none

def readFlags (d : Directive) : ByteText → Directive × ByteText
  | [] => (d, [])
  | c :: rest =>
    match flagOf d c with
    | some d => readFlags d rest
    | none => (d, c :: rest)

def natOf (digits : ByteText) : Nat := digits.foldl (fun n c => n * 10 + (c.toNat - 48)) 0

/-- A width or precision, written out or as an argument, with the arguments left. -/
def readSize (s : ByteText) (arguments : List ByteText) : Option Nat × ByteText × List ByteText :=
  match s with
  | '*' :: rest => (some (readNumber (arguments.headD [])).1.toNat, rest, arguments.tail)
  | s =>
    let digits := s.takeWhile Char.isDigit
    (if digits.isEmpty then none else some (natOf digits), s.drop digits.length, arguments)

/-- One conversion after its percent sign: output, complaints, stop, rest of format and arguments. -/
def convert (s : ByteText) (arguments : List ByteText) : Written × ByteText × List ByteText :=
  let (d, s) := readFlags ⟨false, false, false, false, false, 0, none⟩ s
  let (width, s, arguments) := readSize s arguments
  let (precision, s, arguments) := match s with
    | '.' :: s =>
      let (size, s, arguments) := readSize s arguments
      (some (size.getD 0), s, arguments)
    | s => (none, s, arguments)
  let d := { d with width := width.getD 0, precision := precision }
  let argument := arguments.headD []
  match s with
  | [] => (⟨[], ["%: missing conversion character"], true⟩, [], arguments)
  | c :: rest =>
    let number (signed : Bool) (base : Nat) (upper : Bool) : Written × ByteText × List ByteText :=
      let (n, complaint) := readNumber argument
      (⟨numberField d signed base upper n, complaint.toList, false⟩, rest, arguments.tail)
    match c with
    | '%' => (⟨['%'], [], false⟩, rest, arguments)
    | 's' => (⟨textField d argument, [], false⟩, rest, arguments.tail)
    | 'c' => (⟨textField d (argument.take 1), [], false⟩, rest, arguments.tail)
    | 'b' =>
      let (text, stopped) := expand argument
      (⟨textField d text, [], stopped⟩, rest, arguments.tail)
    | 'd' => number true 10 false
    | 'i' => number true 10 false
    | 'u' => number false 10 false
    | 'o' => number false 8 false
    | 'x' => number false 16 false
    | 'X' => number false 16 true
    | _ => (⟨[], [s!"%{c}: invalid directive"], true⟩, rest, arguments)

/-- One pass over a format, with the arguments left. -/
def round : Nat → ByteText → List ByteText → Written × List ByteText
  | 0, _, arguments => (⟨[], [], false⟩, arguments)
  | fuel + 1, s, arguments =>
    match s with
    | [] => (⟨[], [], false⟩, arguments)
    | '%' :: rest =>
      let (w, rest, arguments) := convert rest arguments
      if w.stopped then (w, arguments)
      else
        let (more, arguments) := round fuel rest arguments
        (⟨w.output ++ more.output, w.complaints ++ more.complaints, more.stopped⟩, arguments)
    | '\\' :: rest =>
      let (shown, rest) := escape rest
      let (more, arguments) := round fuel rest arguments
      ({ more with output := shown ++ more.output }, arguments)
    | c :: rest =>
      let (more, arguments) := round fuel rest arguments
      ({ more with output := c :: more.output }, arguments)

def rounds : Nat → ByteText → List ByteText → Written
  | 0, _, _ => ⟨[], [], false⟩
  | fuel + 1, format, arguments =>
    let (w, left) := round (format.length + 1) format arguments
    if w.stopped || left.isEmpty || left.length = arguments.length then w
    else
      let more := rounds fuel format left
      ⟨w.output ++ more.output, w.complaints ++ more.complaints, more.stopped⟩

/-- A format applied to all arguments. -/
def run (format : ByteText) (arguments : List ByteText) : Written :=
  rounds (arguments.length + 1) format arguments

end CipherCorpus.Shell.Format
