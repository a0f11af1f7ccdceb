import CipherCorpus.Shell.Session
import CipherCorpus.Shell.Sum

/-!
# Conditions

The expressions of `test`: one argument is true when it is not empty; two and three arguments are a
test of one or two operands; longer ones join tests by `-a` and `-o`.
-/

namespace CipherCorpus.Shell.Condition

/-- Why a condition has no truth. -/
inductive Fault where
  | badNumber (text : ByteText)
  /-- Arguments are left after this one. -/
  | unexpected (text : ByteText)
  /-- The operator lacks its second operand. -/
  | missingAfter (op : ByteText)
  | unclosed

/-- A test of a file or of a text. -/
def unary? (files : FileTree) (cwd : Key) (op : ByteText) (x : ByteText) : Option Bool :=
  let p : Path := ⟨toText x⟩
  let status := (files.stat cwd p).toOption.map (·.2)
  match String.ofList op with
  | "-n" => some (!x.isEmpty)
  | "-z" => some x.isEmpty
  | "-e" => some status.isSome
  | "-f" => some (status.any Entry.isFile)
  | "-d" => some (status.any Entry.isDirectory)
  | "-r" => some status.isSome
  | "-w" => some status.isSome
  | "-x" => some (match status with
    | some (.file _ executable) => executable
    | some .directory => true
    | _ => false)
  | "-s" => some (match status with
    | some (.file body _) => !body.data.isEmpty
    | some .directory => true
    | _ => false)
  | "-L" => some (match files.linkStat cwd p with
    | .ok (_, .link _) => true
    | _ => false)
  | "-h" => some (match files.linkStat cwd p with
    | .ok (_, .link _) => true
    | _ => false)
  | "-t" => some false
  | "-p" => some false
  | _ => none

def numberOf (x : ByteText) : Except Fault Int64 :=
  if (x.dropWhile (·.isWhitespace)).isEmpty then .error (.badNumber x)
  else
    match Sum.signed? x with
    | some n => .ok n
    | none => .error (.badNumber x)

/-- Comparisons of numbers. -/
def compareNumbers? (op : ByteText) : Option (Int64 → Int64 → Bool) :=
  match String.ofList op with
  | "-eq" => some fun a b => a == b
  | "-ne" => some fun a b => a != b
  | "-lt" => some fun a b => decide (a < b)
  | "-le" => some fun a b => decide (a ≤ b)
  | "-gt" => some fun a b => decide (b < a)
  | "-ge" => some fun a b => decide (b ≤ a)
  | _ => none

/-- Comparisons of texts. -/
def compareTexts? (op : ByteText) : Option (ByteText → ByteText → Bool) :=
  match String.ofList op with
  | "=" => some fun a b => a == b
  | "!=" => some fun a b => a != b
  | "<" => some fun a b => decide (a < b)
  | ">" => some fun a b => decide (b < a)
  | _ => none

def isBinary (op : ByteText) : Bool := (compareNumbers? op).isSome || (compareTexts? op).isSome

def binary (op a b : ByteText) : Except Fault Bool :=
  match compareTexts? op with
  | some f => .ok (f a b)
  | none =>
    match compareNumbers? op with
    | some f => do return f (← numberOf a) (← numberOf b)
    | none => .error (.unexpected op)

mutual

/-- Tests joined by `-o`, and the arguments after them. -/
def anyOf (files : FileTree) (cwd : Key) : Nat → List ByteText → Except Fault (Bool × List ByteText)
  | 0, _ => .error .unclosed
  | fuel + 1, args => do
    let (a, rest) ← allOf files cwd fuel args
    match rest with
    | ['-', 'o'] :: more => do
      let (b, rest) ← anyOf files cwd fuel more
      return (a || b, rest)
    | _ => return (a, rest)

/-- Tests joined by `-a`. -/
def allOf (files : FileTree) (cwd : Key) : Nat → List ByteText → Except Fault (Bool × List ByteText)
  | 0, _ => .error .unclosed
  | fuel + 1, args => do
    let (a, rest) ← primary files cwd fuel args
    match rest with
    | ['-', 'a'] :: more => do
      let (b, rest) ← allOf files cwd fuel more
      return (a && b, rest)
    | _ => return (a, rest)

def primary (files : FileTree) (cwd : Key) : Nat → List ByteText → Except Fault (Bool × List ByteText)
  | 0, _ => .error .unclosed
  | fuel + 1, args =>
    match args with
    | [] => .ok (false, [])
    | a :: op :: b :: rest =>
      if isBinary op then do return (← binary op a b, rest)
      else if a == ['!'] then do
        let (x, rest) ← primary files cwd fuel (op :: b :: rest)
        return (!x, rest)
      else if a == ['('] then do
        let (x, rest) ← anyOf files cwd fuel (op :: b :: rest)
        match rest with
        | [')'] :: rest => return (x, rest)
        | _ => throw .unclosed
      else
        match unary? files cwd a op with
        | some x => .ok (x, b :: rest)
        | none => .ok (!a.isEmpty, op :: b :: rest)
    | [a, b] =>
      if a == ['!'] then .ok (b.isEmpty, [])
      else if isBinary b then .error (.missingAfter b)
      else
        match unary? files cwd a b with
        | some x => .ok (x, [])
        | none => .ok (!a.isEmpty, [b])
    | [a] => .ok (!a.isEmpty, [])

end

/-- The truth of a condition. -/
def evaluate (files : FileTree) (cwd : Key) (args : List ByteText) : Except Fault Bool :=
  match args with
  | [] => .ok false
  | args => do
    let (x, rest) ← anyOf files cwd (4 * args.length + 8) args
    match rest with
    | [] => return x
    | _ => throw (.unexpected (args[args.length - rest.length - 1]?.getD []))

end CipherCorpus.Shell.Condition
