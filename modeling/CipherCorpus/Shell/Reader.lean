import CipherCorpus.Shell.Script

/-!
# Reading scripts

A script is read one line of jobs at a time (`Read.nextLine`), so that what stands before a fault is
run. A reserved word counts as one only where a command can start.
-/

namespace CipherCorpus.Shell

/-- What is still to be read. -/
structure Source where
  rest : ByteText
  line : Nat

/-- Why a script cannot be read further. -/
structure ScriptFault where
  line : Nat
  reason : String

abbrev Read := StateT Source (Except ScriptFault)

/-- Where the pieces of a word end. -/
inductive Stop where
  /-- At a blank or an operator. -/
  | word
  /-- At the brace that closes a parameter, outside of quotes or inside. -/
  | brace (quoted : Bool)
  | quote
  /-- At two closing parentheses, `depth` others being open. -/
  | sum (depth : Nat)
  /-- At the end of the text. -/
  | never
deriving DecidableEq

def Stop.quoted : Stop → Bool
  | word => false
  | brace quoted => quoted
  | _ => true

def openingBrace : Char := Char.ofNat 123

def closingBrace : Char := Char.ofNat 125

def backquote : Char := Char.ofNat 96

/-- The characters that end a word. -/
def endsWord (c : Char) : Bool :=
  c == '\n' || c == ';' || c == '&' || c == '|' || c == '(' || c == ')' || c == '<' || c == '>' ||
  c == ' ' || c == '\t'

def startsName (c : Char) : Bool := c.isAlpha || c == '_'

def isNamePart (c : Char) : Bool := c.isAlphanum || c == '_'

/-- Words that close a list of jobs. -/
def closingWords : List String :=
  ["then", "do", "done", "fi", "else", "elif", "esac", String.singleton closingBrace]

/-- The rest after blanks, joined lines and a comment, and the number of lines passed. -/
def dropBlanks : ByteText → ByteText × Nat
  | '\\' :: '\n' :: rest =>
    let after := dropBlanks rest
    (after.1, after.2 + 1)
  | ' ' :: rest => dropBlanks rest
  | '\t' :: rest => dropBlanks rest
  | '#' :: rest => (rest.dropWhile (· != '\n'), 0)
  | rest => (rest, 0)

namespace Read

def refuse {α : Type} (reason : String) : Read α := do
  throw ⟨(← get).line, reason⟩

def peek : Read (Option Char) := return (← get).rest.head?

def startsWith (s : String) : Read Bool := return s.toList.isPrefixOf (← get).rest

def skip (n : Nat) : Read Unit :=
  modify fun s => ⟨s.rest.drop n, s.line + (s.rest.take n).count '\n'⟩

/-- Take the characters up to the first that fails the test. -/
def takeRun (accepts : Char → Bool) : Read ByteText := do
  let run := (← get).rest.takeWhile accepts
  skip run.length
  return run

def skipBlanks : Read Unit :=
  modify fun s =>
    let after := dropBlanks s.rest
    ⟨after.1, s.line + after.2⟩

/-- Skip blanks and line ends. -/
def skipLines : Read Unit := do
  for _ in [0:(← get).rest.length + 1] do
    skipBlanks
    if (← peek) = some '\n' then skip 1

/-- The word that comes next, up to the character that ends it. -/
def upcoming : Read String := return String.ofList ((← get).rest.takeWhile (!endsWord ·))

/-- The operator that comes next. -/
def operator : Read String := do
  for op in ["&&", "||", ";;", "<<", ">>", "&", "|", ";", "(", ")", "<", ">"] do
    if ← startsWith op then return op
  return ""

/-- Refuse what comes next, with the word that was expected. -/
def unexpected {α : Type} (expected : String) : Read α := do
  let hint := if expected = "" then "" else s!" (expecting \"{expected}\")"
  let word ← upcoming
  let token ← match ← peek with
    | none => pure "end of file"
    | some '\n' => pure "newline"
    | some c =>
      if endsWord c then pure s!"\"{← operator}\""
      else if closingWords.contains word then pure s!"\"{word}\"" else pure "word"
  refuse s!"Syntax error: {token} unexpected{hint}"

/-- No job starts here. -/
def atListEnd : Read Bool := do
  match ← peek with
  | none => return true
  | some c => return c == ')' || (← startsWith ";;") || closingWords.contains (← upcoming)

/-- Take a reserved word. -/
def expectWord (word : String) : Read Unit := do
  skipLines
  if (← upcoming) = word then skip word.length else unexpected word

/-- Read with another text in place of the rest. -/
def within {α : Type} (text : ByteText) (read : Read α) : Read α := do
  let outer ← get
  set { outer with rest := text }
  let x ← read
  set outer
  return x

/-- The fault of a text that ends before its end mark. -/
def unfinished {α : Type} (stop : Stop) : Read α :=
  match stop with
  | .brace _ => refuse "Syntax error: Missing '\x7d'"
  | .sum _ => refuse "Syntax error: Missing '))'"
  | _ => refuse "Syntax error: Unterminated quoted string"

/-- The inside of single quotes. -/
def untilQuote : Read ByteText := do
  let inside ← takeRun (· != '\'')
  if (← peek).isNone then unfinished .quote
  skip 1
  return inside

/-- The text up to a back quote, without the backslashes that protect it. -/
def backquoted : ByteText → Option (ByteText × ByteText)
  | [] => none
  | c :: rest =>
    if c == backquote then some ([], rest)
    else if c == '\\' then
      match rest with
      | [] => none
      | d :: rest =>
        let kept := if d == backquote || d == '\\' || d == '$' then [d] else ['\\', d]
        (backquoted rest).map fun r => (kept ++ r.1, r.2)
    else (backquoted rest).map fun r => (c :: r.1, r.2)

/-- Special parameters of one character. -/
def isSpecial (c : Char) : Bool := "@*#?-$!".toList.contains c

/-- Name of a parameter. -/
def parameterName : Read ByteText := do
  match ← peek with
  | some c =>
    if startsName c then takeRun isNamePart
    else if c.isDigit then takeRun Char.isDigit
    else if isSpecial c then
      skip 1
      return [c]
    else refuse "Bad substitution"
  | none => refuse "Bad substitution"

def fallbackOf? : Char → Option Fallback
  | '-' => some .useWord
  | '=' => some .keepWord
  | '+' => some .swapWord
  | '?' => some .stop
  | _ => none

/-- The lines up to one that equals `mark`, and what follows it. -/
def hereLines (mark : ByteText) (stripTabs : Bool) : Nat → ByteText → ByteText × ByteText
  | 0, s => ([], s)
  | fuel + 1, s =>
    if s.isEmpty then ([], [])
    else
      let line := s.takeWhile (· != '\n')
      let rest := s.drop (line.length + 1)
      let line := if stripTabs then line.dropWhile (· == '\t') else line
      if line == mark then ([], rest)
      else
        let more := hereLines mark stripTabs fuel rest
        (line ++ '\n' :: more.1, more.2)

/-- Take the lines of a here-document from below the current line. -/
def takeHere (mark : ByteText) (stripTabs : Bool) : Read ByteText := do
  let s ← get
  let line := s.rest.takeWhile (· != '\n')
  let (body, after) := hereLines mark stripTabs s.rest.length (s.rest.drop (line.length + 1))
  set { s with rest := line ++ '\n' :: after }
  return body

/-- The text of a word as it is written, quotes aside. -/
def literal (w : Word) : ByteText :=
  w.flatMap fun
    | .text s _ => s
    | _ => []

def hasQuotes (w : Word) : Bool :=
  w.any fun
    | .text _ quoted => quoted
    | _ => false

/-- Channel and operator of a redirection, if one comes next. -/
def redirectionMark? : Read (Option (Nat × String)) := do
  let rest := (← get).rest
  let digits := rest.takeWhile Char.isDigit
  let after := rest.drop digits.length
  match ["<<-", "<<", "<&", "<>", "<", ">>", ">&", ">|", ">"].find? (·.toList.isPrefixOf after) with
  | none => return none
  | some op =>
    skip (digits.length + op.length)
    let standard := if op.toList.head? == some '<' then 0 else 1
    return some (((String.ofList digits).toNat?).getD standard, op)

def openingOf (op : String) : Opening :=
  if op = "<<" || op = "<<-" then .here
  else if op = "<&" || op = ">&" then .duplicate
  else if op = "<" then .read
  else if op = ">>" then .append
  else .write

mutual

/-- The pieces of a word. -/
def pieces (stop : Stop) : Nat → Read Word
  | 0 => refuse "Syntax error: too deep"
  | fuel + 1 => do
    match ← peek with
    | none => if stop = .word || stop = .never then return [] else unfinished stop
    | some c =>
      let quoted := stop.quoted
      match stop with
      | .word => if endsWord c then return []
      | .brace _ =>
        if c == closingBrace then
          skip 1
          return []
      | .quote =>
        if c == '"' then
          skip 1
          return []
      | .sum 0 =>
        if ← startsWith "))" then
          skip 2
          return []
      | _ => pure ()
      skip 1
      if c == '\\' then
        let next ← peek
        let protects := match next with
          | some d =>
            !quoted || d == '$' || d == backquote || d == '\\' || d == '\n' ||
              (d == '"' && stop != .never) || (d == closingBrace && stop = .brace true)
          | none => false
        if !protects then return .text ['\\'] quoted :: (← pieces stop fuel)
        skip 1
        if next = some '\n' then pieces stop fuel
        else return .text next.toList true :: (← pieces stop fuel)
      else if c == '\'' && !quoted then
        let inside ← untilQuote
        return .text inside true :: (← pieces stop fuel)
      else if c == '"' && (!quoted || stop = .brace true) then
        let inside ← pieces .quote fuel
        return .text [] true :: inside ++ (← pieces stop fuel)
      else if c == '$' then
        let piece ← dollar quoted fuel
        return piece :: (← pieces stop fuel)
      else if c == backquote then
        match backquoted (← get).rest with
        | none => refuse "Syntax error: EOF in backquote substitution"
        | some (inside, _) =>
          let taken := (← get).rest.length
          let body ← within inside (jobs fuel)
          match backquoted (← get).rest with
          | some (_, rest) => skip (taken - rest.length)
          | none => pure ()
          return .output body quoted :: (← pieces stop fuel)
      else
        let stop := match stop with
          | .sum depth => .sum (if c == '(' then depth + 1 else if c == ')' then depth - 1 else depth)
          | s => s
        return .text [c] quoted :: (← pieces stop fuel)

/-- What a dollar sign starts. -/
def dollar (quoted : Bool) : Nat → Read Piece
  | 0 => refuse "Syntax error: too deep"
  | fuel + 1 => do
    if ← startsWith "((" then
      skip 2
      return .sum (← pieces (.sum 0) fuel) quoted
    match ← peek with
    | some '(' =>
      skip 1
      let body ← jobs fuel
      if (← peek) = some ')' then skip 1 else unexpected ")"
      return .output body quoted
    | some c =>
      if c == openingBrace then
        skip 1
        parameter quoted fuel
      else if startsName c then return .value (← takeRun isNamePart) quoted
      else if c.isDigit || isSpecial c then
        skip 1
        return .value [c] quoted
      else return .text ['$'] quoted
    | none => return .text ['$'] quoted

/-- A parameter in braces. -/
def parameter (quoted : Bool) : Nat → Read Piece
  | 0 => refuse "Syntax error: too deep"
  | fuel + 1 => do
    let rest := (← get).rest
    let isLength := rest.head? == some '#' && (rest.drop 1).head?.any fun c =>
      startsName c || c.isDigit || c == '@' || c == '*'
    if isLength then skip 1
    let name ← parameterName
    let closing ← peek
    if closing = some closingBrace then
      skip 1
      return if isLength then .length name quoted else .value name quoted
    let whenEmpty := closing == some ':'
    if whenEmpty then skip 1
    match ← peek with
    | none => unfinished (.brace quoted)
    | some c =>
      skip 1
      match fallbackOf? c with
      | some fallback => return .valueOr name fallback whenEmpty (← pieces (.brace quoted) fuel) quoted
      | none =>
        if whenEmpty || !(c == '%' || c == '#') then refuse "Bad substitution"
        let longest := (← peek) == some c
        if longest then skip 1
        return .cut name (c == '%') longest (← pieces (.brace false) fuel) quoted

/-- Jobs up to what closes their list. -/
def jobs : Nat → Read (List Job)
  | 0 => refuse "Syntax error: too deep"
  | fuel + 1 => do
    skipLines
    if ← atListEnd then return []
    let first ← job fuel
    return first :: (← jobs fuel)

/-- A list of jobs that may not be empty. -/
def someJobs : Nat → Read (List Job)
  | 0 => refuse "Syntax error: too deep"
  | fuel + 1 => do
    let list ← jobs fuel
    if list.isEmpty then unexpected "" else return list

/-- A job with the separator after it. -/
def job : Nat → Read Job
  | 0 => refuse "Syntax error: too deep"
  | fuel + 1 => do
    let first ← pipeline fuel
    let rest ← chain fuel
    skipBlanks
    match ← peek with
    | some '&' =>
      skip 1
      return .mk first rest true
    | some ';' =>
      if !(← startsWith ";;") then skip 1
      return .mk first rest false
    | some '\n' =>
      skip 1
      return .mk first rest false
    | _ => if ← atListEnd then return .mk first rest false else unexpected ""

/-- The pipelines after the first. -/
def chain : Nat → Read (List (Bool × Pipeline))
  | 0 => refuse "Syntax error: too deep"
  | fuel + 1 => do
    skipBlanks
    let isAnd ← startsWith "&&"
    if isAnd || (← startsWith "||") then
      skip 2
      skipLines
      let next ← pipeline fuel
      return (isAnd, next) :: (← chain fuel)
    else return []

def pipeline : Nat → Read Pipeline
  | 0 => refuse "Syntax error: too deep"
  | fuel + 1 => do
    skipBlanks
    let negated := (← upcoming) = "!"
    if negated then skip 1
    let first ← command fuel
    return .mk negated (first :: (← piped fuel))

/-- The commands after the first of a pipeline. -/
def piped : Nat → Read (List Command)
  | 0 => refuse "Syntax error: too deep"
  | fuel + 1 => do
    skipBlanks
    if (← startsWith "|") && !(← startsWith "||") then
      skip 1
      skipLines
      let next ← command fuel
      return next :: (← piped fuel)
    else return []

def command : Nat → Read Command
  | 0 => refuse "Syntax error: too deep"
  | fuel + 1 => do
    skipBlanks
    if (← peek) = some '(' then
      skip 1
      let body ← someJobs fuel
      if (← peek) = some ')' then skip 1 else unexpected ")"
      return .subshell body (← redirections fuel)
    let word ← upcoming
    if word = String.singleton openingBrace then
      skip 1
      let body ← someJobs fuel
      expectWord (String.singleton closingBrace)
      return .group body (← redirections fuel)
    else if word = "if" then
      skip 2
      branch [] fuel
    else if word = "while" || word = "until" then
      skip 5
      let test ← someJobs fuel
      let body ← doBody fuel
      return .loop (word = "until") test body (← redirections fuel)
    else if word = "for" then
      skip 3
      each fuel
    else if word = "case" then
      skip 4
      skipBlanks
      let subject ← pieces .word fuel
      expectWord "in"
      let cases ← caseList fuel
      expectWord "esac"
      return .select subject cases (← redirections fuel)
    else if closingWords.contains word then unexpected ""
    else simple (← get).line [] [] [] fuel

/-- The rest of an `if` command, after the word that starts a test. -/
def branch (cases : List (List Job × List Job)) : Nat → Read Command
  | 0 => refuse "Syntax error: too deep"
  | fuel + 1 => do
    let test ← someJobs fuel
    expectWord "then"
    let body ← someJobs fuel
    let cases := cases ++ [(test, body)]
    let word ← upcoming
    if word = "elif" then
      skip 4
      branch cases fuel
    else if word = "else" then
      skip 4
      let otherwise ← someJobs fuel
      expectWord "fi"
      return .branch cases otherwise (← redirections fuel)
    else
      expectWord "fi"
      return .branch cases [] (← redirections fuel)

/-- The body of a loop. -/
def doBody : Nat → Read (List Job)
  | 0 => refuse "Syntax error: too deep"
  | fuel + 1 => do
    expectWord "do"
    let body ← someJobs fuel
    expectWord "done"
    return body

/-- The rest of a `for` command. -/
def each : Nat → Read Command
  | 0 => refuse "Syntax error: too deep"
  | fuel + 1 => do
    skipBlanks
    let name ← takeRun isNamePart
    if name.isEmpty then refuse "Syntax error: Bad for loop variable"
    skipBlanks
    if (← peek) = some ';' then skip 1
    skipLines
    let items ←
      if (← upcoming) = "in" then do
        skip 2
        let items ← wordList fuel
        skipBlanks
        if (← peek) = some ';' then skip 1
        pure (some items)
      else pure none
    let body ← doBody fuel
    return .each name items body (← redirections fuel)

/-- Words up to an operator or the end of the line. -/
def wordList : Nat → Read (List Word)
  | 0 => refuse "Syntax error: too deep"
  | fuel + 1 => do
    skipBlanks
    match ← peek with
    | none => return []
    | some c =>
      if endsWord c then return []
      let w ← pieces .word fuel
      return w :: (← wordList fuel)

/-- The cases of a `case` command. -/
def caseList : Nat → Read (List (List Word × List Job))
  | 0 => refuse "Syntax error: too deep"
  | fuel + 1 => do
    skipLines
    if (← upcoming) = "esac" then return []
    if (← peek) = some '(' then skip 1
    let patterns ← patternList fuel
    if (← peek) = some ')' then skip 1 else unexpected ")"
    let body ← jobs fuel
    skipLines
    if ← startsWith ";;" then
      skip 2
      return (patterns, body) :: (← caseList fuel)
    else return [(patterns, body)]

/-- Patterns with bars between them. -/
def patternList : Nat → Read (List Word)
  | 0 => refuse "Syntax error: too deep"
  | fuel + 1 => do
    skipBlanks
    let first ← pieces .word fuel
    skipBlanks
    if (← peek) = some '|' then
      skip 1
      return first :: (← patternList fuel)
    else return [first]

/-- A redirection, if one comes next. -/
def redirection? : Nat → Read (Option Redirection)
  | 0 => refuse "Syntax error: too deep"
  | fuel + 1 => do
    match ← redirectionMark? with
    | none => return none
    | some (channel, op) =>
      skipBlanks
      if (← peek).all endsWord then unexpected ""
      let target ← pieces .word fuel
      if openingOf op != .here then return some (.mk channel (openingOf op) target)
      let body ← takeHere (literal target) (op = "<<-")
      if hasQuotes target then return some (.mk channel .here [.text body true])
      return some (.mk channel .here (← within body (pieces .never fuel)))

/-- The redirections that follow a command. -/
def redirections : Nat → Read (List Redirection)
  | 0 => refuse "Syntax error: too deep"
  | fuel + 1 => do
    skipBlanks
    match ← redirection? fuel with
    | some r => return r :: (← redirections fuel)
    | none => return []

/-- A simple command, of which some parts have been read. -/
def simple (line : Nat) (assignments : List (ByteText × Word)) (words : List Word)
    (opened : List Redirection) : Nat → Read Command
  | 0 => refuse "Syntax error: too deep"
  | fuel + 1 => do
    skipBlanks
    match ← redirection? fuel with
    | some r => simple line assignments words (opened ++ [r]) fuel
    | none =>
      match ← peek with
      | some '(' =>
        match words, assignments, opened with
        | [w], [], [] =>
          skip 1
          skipBlanks
          if (← peek) != some ')' then unexpected ")"
          skip 1
          skipLines
          return .define (literal w) (← command fuel)
        | _, _, _ => unexpected ""
      | next =>
        if next.all endsWord then
          if words.isEmpty && assignments.isEmpty && opened.isEmpty then unexpected ""
          return .simple line assignments words opened
        let rest := (← get).rest
        let name := rest.takeWhile isNamePart
        let assigns := words.isEmpty && name.head?.any startsName &&
          (rest.drop name.length).head? == some '='
        if assigns then
          skip (name.length + 1)
          let value ← pieces .word fuel
          simple line (assignments ++ [(name, value)]) words opened fuel
        else
          let w ← pieces .word fuel
          simple line assignments (words ++ [w]) opened fuel

end

/-- Enough fuel for a text of this length. -/
def fuelFor (text : ByteText) : Nat := 12 * text.length + 64

/-- The jobs up to the end of the line on which they start. -/
def lineOfJobs (fuel : Nat) : Nat → Read (List Job)
  | 0 => return []
  | n + 1 => do
    let before := (← get).rest
    let first ← job fuel
    let taken := before.take (before.length - (← get).rest.length)
    if taken.getLast? == some '\n' then return [first]
    skipBlanks
    match ← peek with
    | none => return [first]
    | some '\n' =>
      skip 1
      return [first]
    | some _ => return first :: (← lineOfJobs fuel n)

/-- The next line of jobs; none at the end of the script. -/
def nextLine : Read (Option (List Job)) := do
  skipLines
  let s ← get
  if s.rest.isEmpty then return none
  return some (← lineOfJobs (fuelFor s.rest) s.rest.length)

end Read

end CipherCorpus.Shell
