import CipherCorpus.Shell.Script
import CipherCorpus.Text.Number

/-!
# Sums

The value of an arithmetic expression, in 64-bit words with sign. Operators bind as in most languages;
a name stands for the number in its variable, and an assignment changes the variable.
-/

namespace CipherCorpus.Shell.Sum

/-- A token of an expression. -/
inductive Token where
  | number (n : Int64)
  | name (s : ByteText)
  | op (s : String)
deriving DecidableEq

/-- Operators, longer ones before those they start with. -/
def operators : List String :=
  ["<<=", ">>=", "==", "!=", "<=", ">=", "&&", "||", "<<", ">>", "+=", "-=", "*=", "/=", "%=", "&=",
    "|=", "^=", "=", "<", ">", "+", "-", "*", "/", "%", "!", "~", "&", "|", "^", "?", ":", "(", ")"]

/-- A number in decimal, octal after a zero, or hexadecimal. -/
def number? (s : ByteText) : Option Int64 :=
  let digits : Nat × ByteText := match s with
    | '0' :: 'x' :: rest => (16, rest)
    | '0' :: 'X' :: rest => (16, rest)
    | '0' :: d :: rest => (8, d :: rest)
    | s => (10, s)
  if digits.2.head?.any Char.isAlphanum then
    match Text.readNat digits.1 digits.2 with
    | .ok n => some (Int64.ofInt (min n Int64.maxValue.toInt))
    | .error .tooLarge => some Int64.maxValue
    | .error _ => none
  else none

/-- A number with blanks around it and a sign. -/
def signed? (s : ByteText) : Option Int64 :=
  let s := ((s.dropWhile (·.isWhitespace)).reverse.dropWhile (·.isWhitespace)).reverse
  match s with
  | [] => some 0
  | '-' :: rest => (number? rest).map fun n => -n
  | '+' :: rest => number? rest
  | s => number? s

def tokensFrom : Nat → ByteText → Option (List Token)
  | 0, s => if s.isEmpty then some [] else none
  | fuel + 1, s =>
    match s with
    | [] => some []
    | c :: rest =>
      if c.isWhitespace then tokensFrom fuel rest
      else if c.isDigit then
        let word := s.takeWhile Char.isAlphanum
        match number? word with
        | some n => (tokensFrom fuel (s.drop word.length)).map (.number n :: ·)
        | none => none
      else if c.isAlpha || c == '_' then
        let word := s.takeWhile fun c => c.isAlphanum || c == '_'
        (tokensFrom fuel (s.drop word.length)).map (.name word :: ·)
      else
        match operators.find? (·.toList.isPrefixOf s) with
        | some op => (tokensFrom fuel (s.drop op.length)).map (.op op :: ·)
        | none => none

/-- Why an expression has no value. -/
inductive Fault where
  | malformed
  | zeroDivision
  | badNumber (text : ByteText)

/-- The tokens to come and the variables that were assigned, the last first. -/
structure Progress where
  tokens : List Token
  assigned : List (ByteText × Int64)

abbrev Calculate := StateT Progress (Except Fault)

def next : Calculate (Option Token) := return (← get).tokens.head?

def skip : Calculate Unit := modify fun p => { p with tokens := p.tokens.tail }

def accept (op : String) : Calculate Bool := do
  if (← next) = some (.op op) then
    skip
    return true
  else return false

def truth (b : Bool) : Int64 := if b then 1 else 0

/-- Binary operators from the loosest to the tightest. -/
def levels : List (List String) :=
  [["||"], ["&&"], ["|"], ["^"], ["&"], ["==", "!="], ["<=", ">=", "<", ">"], ["<<", ">>"],
    ["+", "-"], ["*", "/", "%"]]

def apply (op : String) (a b : Int64) : Except Fault Int64 :=
  match op with
  | "||" => .ok (truth (a != 0 || b != 0))
  | "&&" => .ok (truth (a != 0 && b != 0))
  | "|" => .ok (a ||| b)
  | "^" => .ok (a ^^^ b)
  | "&" => .ok (a &&& b)
  | "==" => .ok (truth (a == b))
  | "!=" => .ok (truth (a != b))
  | "<=" => .ok (truth (decide (a ≤ b)))
  | ">=" => .ok (truth (decide (b ≤ a)))
  | "<" => .ok (truth (decide (a < b)))
  | ">" => .ok (truth (decide (b < a)))
  | "<<" => .ok (a <<< b)
  | ">>" => .ok (a >>> b)
  | "+" => .ok (a + b)
  | "-" => .ok (a - b)
  | "*" => .ok (a * b)
  | "/" => if b == 0 then .error .zeroDivision else .ok (a / b)
  | "%" => if b == 0 then .error .zeroDivision else .ok (a % b)
  | _ => .error .malformed

/-- The number in a variable. -/
def valueOf (lookup : ByteText → ByteText) (name : ByteText) : Calculate Int64 := do
  match (← get).assigned.lookup name with
  | some n => return n
  | none =>
    match signed? (lookup name) with
    | some n => return n
    | none => throw (.badNumber (lookup name))

mutual

/-- An operand with the operators before it. -/
def operand (lookup : ByteText → ByteText) : Nat → Calculate Int64
  | 0 => throw .malformed
  | fuel + 1 => do
    match ← next with
    | some (.number n) => skip; return n
    | some (.name name) => skip; valueOf lookup name
    | some (.op "+") => skip; operand lookup fuel
    | some (.op "-") => skip; return -(← operand lookup fuel)
    | some (.op "!") => skip; return truth ((← operand lookup fuel) == 0)
    | some (.op "~") => skip; return ~~~(← operand lookup fuel)
    | some (.op "(") =>
      skip
      let n ← expression lookup fuel
      if ← accept ")" then return n else throw .malformed
    | _ => throw .malformed

/-- Operands joined by the operators of the levels. -/
def binary (lookup : ByteText → ByteText) (levels : List (List String)) : Nat → Calculate Int64
  | 0 => throw .malformed
  | fuel + 1 => do
    match levels with
    | [] => operand lookup fuel
    | ops :: tighter =>
      let first ← binary lookup tighter fuel
      more lookup ops tighter first fuel

/-- Further operands of one level. -/
def more (lookup : ByteText → ByteText) (ops : List String) (tighter : List (List String))
    (first : Int64) : Nat → Calculate Int64
  | 0 => throw .malformed
  | fuel + 1 => do
    match ← next with
    | some (.op op) =>
      if ops.contains op then
        skip
        let second ← binary lookup tighter fuel
        more lookup ops tighter (← apply op first second) fuel
      else return first
    | _ => return first

/-- An assignment or a choice. -/
def expression (lookup : ByteText → ByteText) : Nat → Calculate Int64
  | 0 => throw .malformed
  | fuel + 1 => do
    match (← get).tokens with
    | .name name :: .op op :: _ =>
      if op = "=" || (op.endsWith "=" && not (["==", "!=", "<=", ">="].contains op)) then
        skip
        skip
        let right ← expression lookup fuel
        let value ←
          if op = "=" then pure right
          else do
            let left ← valueOf lookup name
            apply (op.dropEnd 1).toString left right
        modify fun p => { p with assigned := (name, value) :: p.assigned }
        return value
      else choice lookup fuel
    | _ => choice lookup fuel

def choice (lookup : ByteText → ByteText) : Nat → Calculate Int64
  | 0 => throw .malformed
  | fuel + 1 => do
    let test ← binary lookup levels fuel
    if ← accept "?" then
      let yes ← expression lookup fuel
      if !(← accept ":") then throw .malformed
      let no ← choice lookup fuel
      return if test != 0 then yes else no
    else return test

end

/-- The value of an expression and the variables it assigns, in order. -/
def evaluate (lookup : ByteText → ByteText) (text : ByteText) :
    Except Fault (Int64 × List (ByteText × Int64)) := do
  match tokensFrom (text.length + 1) text with
  | none => throw .malformed
  | some [] => return (0, [])
  | some tokens =>
    let (value, after) ← (expression lookup (16 * tokens.length + 64)).run ⟨tokens, []⟩
    if after.tokens.isEmpty then return (value, after.assigned.reverse) else throw .malformed

end CipherCorpus.Shell.Sum
