import CipherCorpus.Shell.Condition
import CipherCorpus.Shell.Format
import CipherCorpus.Total

/-!
# Utilities

The commands that need no shell to run them, each a step that answers its exit status. Some are part
of the shell, some are files of the system (`Utility.system?`).
-/

namespace CipherCorpus.Shell

open Run

/-- Takes the arguments and answers the exit status. -/
abbrev Utility := List ByteText → Run Nat

namespace Utility

def succeed : Run Nat := return 0

def joined (args : List ByteText) : ByteText := [' '].intercalate args

/-! ## Output -/

/-- Write the arguments with blanks between them and their escapes replaced. -/
def echo : Utility := fun args => do
  let (newLine, args) := match args with
    | ['-', 'n'] :: rest => (false, rest)
    | args => (true, args)
  let (text, stopped) := Format.expand (joined args)
  print (text ++ if newLine && !stopped then ['\n'] else [])
  succeed

/-- Write the arguments with blanks between them as they are. -/
def plainEcho : Utility := fun args => do
  match args with
  | ['-', 'n'] :: rest => print (joined rest)
  | ['-', 'e'] :: rest => print ((Format.expand (joined rest)).1 ++ ['\n'])
  | args => print (joined args ++ ['\n'])
  succeed

def formatted : Utility := fun args => do
  let args := if args.head? == some ['-', '-'] then args.tail else args
  match args with
  | [] =>
    complain "printf: usage: printf format [arg ...]"
    return 2
  | format :: arguments =>
    let written := Format.run format arguments
    print written.output
    for c in written.complaints do complain s!"printf: {c}"
    return if written.complaints.isEmpty then 0 else if written.stopped then 2 else 1

/-! ## Conditions and numbers -/

/-- The status of a condition. -/
def condition (name : String) : Utility := fun args => do
  let s ← get
  match Condition.evaluate s.files s.cwd args with
  | .ok b => return if b then 0 else 1
  | .error fault =>
    complain (match fault with
      | .badNumber x => s!"{name}: Illegal number: {toText x}"
      | .unexpected x => s!"{name}: {toText x}: unexpected operator"
      | .missingAfter x => s!"{name}: {toText x}: argument expected"
      | .unclosed => s!"{name}: closing paren expected")
    return 2

/-- A condition that ends with a bracket. -/
def bracket : Utility := fun args => do
  if args.getLast? == some [']'] then condition "[" args.dropLast
  else
    complain "[: missing ]"
    return 2

/-- A number of seconds with a fraction and a unit, in nanoseconds. -/
def nanosOf? (s : ByteText) : Option Nat :=
  let whole := s.takeWhile Char.isDigit
  let rest := s.drop whole.length
  let (fraction, rest) := match rest with
    | '.' :: rest => (rest.takeWhile Char.isDigit, rest.dropWhile Char.isDigit)
    | rest => ([], rest)
  let unit := match rest with
    | [] => some 1
    | ['s'] => some 1
    | ['m'] => some 60
    | ['h'] => some 3600
    | ['d'] => some 86400
    | _ => none
  if whole.isEmpty && fraction.isEmpty then none
  else
    let nanos := Format.natOf whole * 1000000000 + Format.natOf ((fraction ++ List.replicate 9 '0').take 9)
    unit.map (· * nanos)

def sleepFor (name : String) : Utility := fun args => do
  match args.mapM nanosOf? with
  | some [] =>
    write 2 (ofText s!"{name}: missing operand\nTry '{name} --help' for more information.\n")
    return 1
  | some times =>
    sleep (total times)
    succeed
  | none =>
    for a in args.filter (nanosOf? · |>.isNone) do
      write 2 (ofText s!"{name}: invalid time interval '{toText a}'\n")
    write 2 (ofText s!"Try '{name} --help' for more information.\n")
    return 1

def sequence : Utility := fun args => do
  match args.mapM Sum.signed? with
  | some [last] => count 1 last.toInt
  | some [first, last] => count first.toInt last.toInt
  | _ => return 1
where
  count (first last : Int) : Run Nat := do
    for i in [0:(last - first + 1).toNat] do print (ofText s!"{first + i}\n")
    succeed

/-! ## Files -/

def pathOf (s : ByteText) : Path := ⟨toText s⟩

/-- Complain about a file in the words of a system tool; `doing` is what failed, if it is told. -/
def fileFault (name : String) (doing : Option String) (file : ByteText) (e : FileError) : Run Unit :=
  match doing with
  | some doing => write 2 (ofText s!"{name}: cannot {doing} '{toText file}': {e.description}\n")
  | none => write 2 (ofText s!"{name}: {toText file}: {e.description}\n")

/-- Text of the named files, or of the standard input. -/
def contents (name : String) (files : List ByteText) : Run (ByteText × Nat) := do
  if files.isEmpty then return (← readAll 0, 0)
  let mut text : ByteText := []
  let mut status := 0
  for f in files do
    if f == ['-'] then text := text ++ (← readAll 0)
    else
      let s ← get
      match s.files.read s.cwd (pathOf f) with
      | .ok data => text := text ++ ofBytes data
      | .error e =>
        fileFault name none f e
        status := 1
  return (text, status)

def concatenate (name : String) : Utility := fun args => do
  let (text, status) ← contents name args
  print text
  return status

/-- The first lines or bytes. -/
def firstPart (name : String) : Utility := fun args => do
  let (count, unit, files) := match args with
    | ['-', 'n'] :: n :: rest => (Format.natOf n, true, rest)
    | ['-', 'c'] :: n :: rest => (Format.natOf n, false, rest)
    | ('-' :: 'n' :: n) :: rest => (Format.natOf n, true, rest)
    | ('-' :: 'c' :: n) :: rest => (Format.natOf n, false, rest)
    | ('-' :: n) :: rest => (Format.natOf n, true, rest)
    | rest => (10, true, rest)
  if !unit && files == ["/dev/zero".toList] then
    print (List.replicate count (Char.ofNat 0))
    return 0
  let (text, status) ← contents name files
  print (if unit then lines count text else text.take count)
  return status
where
  lines : Nat → ByteText → ByteText
    | 0, _ => []
    | _ + 1, [] => []
    | n + 1, c :: rest => c :: if c == '\n' then lines n rest else lines (n + 1) rest

/-- How many lines, or bytes, there are. -/
def countParts (name : String) : Utility := fun args => do
  let (letters, files) := args.partition fun a => a.head? == some '-' && a.length > 1
  let (text, status) ← contents name files
  let n := if letters.any (·.contains 'l') then (text.filter (· == '\n')).length else text.length
  let shown := (files.head?.map fun f => ' ' :: f).getD []
  print (Nat.toDigits 10 n ++ shown ++ ['\n'])
  return status

/-- Copy the input to the output and to files. -/
def copyInput : Utility := fun args => do
  let text ← readAll 0
  print text
  for f in args do
    let s ← get
    match s.files.writeBytes s.cwd (pathOf f) (toBytes text) with
    | .ok files => set { s with files := files }
    | .error _ => pure ()
  succeed

/-- The characters of a set written with escapes and ranges. -/
def charactersOf (s : ByteText) : ByteText :=
  ranges (s.length + 1) (Format.run s []).output
where
  ranges : Nat → ByteText → ByteText
    | 0, _ => []
    | fuel + 1, s =>
      match s with
      | a :: '-' :: b :: rest =>
        (List.range (b.toNat + 1 - a.toNat)).map (fun i => Char.ofNat (a.toNat + i)) ++ ranges fuel rest
      | a :: rest => a :: ranges fuel rest
      | [] => []

/-- Replace or drop characters. -/
def replaceCharacters : Utility := fun args => do
  let text ← readAll 0
  match args with
  | [['-', 'd'], set] =>
    print (text.filter (!(charactersOf set).contains ·))
    succeed
  | [old, new] =>
    let (old, new) := (charactersOf old, charactersOf new)
    let filled := new ++ List.replicate (old.length - new.length) (new.getLastD ' ')
    print (text.map fun c => ((old.zip filled).lookup c).getD c)
    succeed
  | _ => return 1

/-- Change files by one operation for each argument. -/
def forEachFile (name : String) (doing : Option String) (files : List ByteText)
    (f : FileTree → Key → Path → Except FileError FileTree) : Run Nat := do
  let mut status := 0
  for file in files do
    let s ← get
    match f s.files s.cwd (pathOf file) with
    | .ok files => set { s with files := files }
    | .error e =>
      fileFault name doing file e
      status := 1
  return status

def isOption (s : ByteText) : Bool := s.head? == some '-' && s.length > 1

def hasOption (args : List ByteText) (letter : Char) : Bool :=
  args.any fun a => isOption a && a.contains letter

def operands (args : List ByteText) : List ByteText := args.filter (!isOption ·)

def makeDirectories (name : String) : Utility := fun args =>
  forEachFile name (some "create directory") (operands args) fun t cwd p =>
    if hasOption args 'p' then t.makeDirectories cwd p else t.makeDirectory cwd p

def removeFiles (name : String) : Utility := fun args => do
  let force := hasOption args 'f'
  let tree := hasOption args 'r' || hasOption args 'R'
  forEachFile name (some "remove") (operands args) fun t cwd p =>
    match t.linkStat cwd p with
    | .error e => if force then .ok t else .error e
    | .ok (_, entry) =>
      if entry.isDirectory then if tree then t.removeTree cwd p else .error .isDirectory
      else t.removeFile cwd p

def touchFiles (name : String) : Utility := fun args =>
  forEachFile name (some "touch") (operands args) fun t cwd p =>
    if t.isThere cwd p then .ok t else t.writeBytes cwd p []

/-- The place of a file that is put into a directory or under a name of its own. -/
def placeIn (t : FileTree) (cwd : Key) (file target : Path) : Path :=
  if t.isDirectory cwd target then target.child (file.fileName?.getD "") else target

def copyFiles (name : String) : Utility := fun args => do
  match (operands args).reverse with
  | target :: more =>
    forEachFile name (some "stat") more.reverse fun t cwd p => do
      let place := placeIn t cwd p (pathOf target)
      match ← t.stat cwd p with
      | (_, .file body executable) =>
        let isNew := !t.isThere cwd place
        let t ← t.write cwd place body
        if isNew then t.setExecutable cwd place executable else return t
      | _ => throw .isDirectory
  | [] => return 1

def moveFiles (name : String) : Utility := fun args => do
  match (operands args).reverse with
  | target :: more =>
    forEachFile name (some "stat") more.reverse fun t cwd p =>
      t.rename cwd p (placeIn t cwd p (pathOf target))
  | [] => return 1

/-- Make files executable, or not. -/
def changeMode (name : String) : Utility := fun args => do
  match args with
  | mode :: files =>
    let executable := mode.contains 'x' && mode.contains '+' || mode.contains '7' || mode.contains '5'
    forEachFile name (some "access") files fun t cwd p => t.setExecutable cwd p executable
  | [] => return 1

/-- Make a symbolic link. -/
def linkFiles (name : String) : Utility := fun args => do
  match operands args with
  | [target, link] =>
    forEachFile name (some "create symbolic link") [link] fun t cwd p => t.makeLink cwd p (toText target)
  | _ => return 1

def lastPart : Utility := fun args => do
  match args with
  | file :: ending =>
    let name := ofText ((pathOf file).fileName?.getD (toText file))
    let cut := match ending.head? with
      | some e => if e.isSuffixOf name && e != name then name.take (name.length - e.length) else name
      | none => name
    print (cut ++ ['\n'])
    succeed
  | [] => return 1

def directoryPart : Utility := fun args => do
  match args with
  | [file] =>
    let up := ((pathOf file).parent?.map (·.text)).getD "/"
    print (ofText ((if up = "" then "." else up) ++ "\n"))
    succeed
  | _ => return 1

def workingDirectory : Utility := fun _ => do
  print (ofText ((FileTree.pathOf (← get).cwd).text ++ "\n"))
  succeed

def listNames (name : String) : Utility := fun args => do
  let s ← get
  let target := (operands args).headD ['.']
  match s.files.list s.cwd (pathOf target) with
  | .ok names =>
    let shown := (names.mergeSort fun a b => decide (a ≤ b)).filter (!".".isPrefixOf ·)
    print (ofText (String.join (shown.map (· ++ "\n"))))
    succeed
  | .error .notDirectory =>
    print (target ++ ['\n'])
    succeed
  | .error e =>
    write 2 (ofText s!"{name}: cannot access '{toText target}': {e.description}\n")
    return 2

/-- The exported variables. -/
def showEnvironment : Utility := fun _ => do
  for (name, v) in ((← get).bindings.filter (·.2.exported)).reverse do
    print (name ++ '=' :: v.value ++ ['\n'])
  succeed

/-- The tools that the system has, by their names; `name` is what the tool calls itself. -/
def system? (tool : String) (name : String) : Option Utility :=
  match tool with
  | "echo" => some plainEcho
  | "printf" => some formatted
  | "true" => some fun _ => succeed
  | "false" => some fun _ => return 1
  | "test" => some (condition "test")
  | "[" => some bracket
  | "sleep" => some (sleepFor name)
  | "seq" => some sequence
  | "cat" => some (concatenate name)
  | "head" => some (firstPart name)
  | "wc" => some (countParts name)
  | "tee" => some copyInput
  | "tr" => some replaceCharacters
  | "chmod" => some (changeMode name)
  | "ln" => some (linkFiles name)
  | "mkdir" => some (makeDirectories name)
  | "rm" => some (removeFiles name)
  | "touch" => some (touchFiles name)
  | "cp" => some (copyFiles name)
  | "mv" => some (moveFiles name)
  | "basename" => some lastPart
  | "dirname" => some directoryPart
  | "pwd" => some workingDirectory
  | "ls" => some (listNames name)
  | "env" => some showEnvironment
  | _ => none

/-- The names of the shell among the tools of the system. -/
def shellNames : List String := ["sh", "dash"]

end Utility

end CipherCorpus.Shell
