import CipherCorpus.Shell.Expansion
import CipherCorpus.Shell.Program
import CipherCorpus.Shell.Reader

/-!
# Running scripts

Commands run on a session. A subshell works on a copy, of which only files, output and time remain
(`isolated`); a background job in addition gives its time back. Jumps carry `exit`, `return`, `break`,
`continue` and signals out of the commands they stand in.
-/

namespace CipherCorpus.Shell

open Run

/-- Numbers and names of signals. -/
def signals : List (Nat × String) := [
  (1, "HUP"), (2, "INT"), (3, "QUIT"), (4, "ILL"), (5, "TRAP"), (6, "ABRT"), (7, "BUS"), (8, "FPE"),
  (9, "KILL"), (10, "USR1"), (11, "SEGV"), (12, "USR2"), (13, "PIPE"), (14, "ALRM"), (15, "TERM"),
  (17, "CHLD"), (18, "CONT"), (19, "STOP"), (20, "TSTP"), (21, "TTIN"), (22, "TTOU"), (23, "URG"),
  (24, "XCPU"), (25, "XFSZ"), (26, "VTALRM"), (27, "PROF"), (28, "WINCH"), (29, "IO"), (30, "PWR"),
  (31, "SYS")]

/-- Signals that do nothing unless they are trapped. -/
def idleSignals : List Nat := [0, 17, 18, 23, 28]

/-- Signals that stop a process until it is continued. -/
def stoppingSignals : List Nat := [19, 20, 21, 22]

/-- A signal by number or name. -/
def signalOf? (s : ByteText) : Option Nat :=
  if !s.isEmpty && s.all Char.isDigit then some (Format.natOf s)
  else
    let name := String.ofList (if "SIG".toList.isPrefixOf s then s.drop 3 else s)
    if name = "EXIT" then some 0 else (signals.find? (·.2 = name)).map (·.1)

/-- What the shell says when a command was ended by a signal. -/
def signalNote : Nat → String
  | 1 => "Hangup\n"
  | 3 => "Quit\n"
  | 4 => "Illegal instruction\n"
  | 6 => "Aborted\n"
  | 8 => "Floating point exception\n"
  | 9 => "Killed\n"
  | 11 => "Segmentation fault\n"
  | 15 => "Terminated\n"
  | _ => ""

/-- Do a step on each line of jobs of a script. -/
def eachLine (step : List Job → Run Unit) : Nat → Source → Run Unit
  | 0, _ => pure ()
  | n + 1, source =>
    match Read.nextLine.run source with
    | .error fault => do
      modify fun s => { s with line := fault.line }
      complain fault.reason
      throw (.exit 2)
    | .ok (none, _) => pure ()
    | .ok (some jobs, source) => do
      step jobs
      eachLine step n source

/-- Do a step on each line of jobs of a text. -/
def runText (step : List Job → Run Unit) (text : ByteText) : Run Unit :=
  eachLine step (text.length + 2) ⟨text, 1⟩

/-- Run a step as a process or subshell of its own. -/
def isolated (pid? : Option Nat) (body : Run Nat) : Run Nat := do
  let before ← get
  match pid? with
  | some pid => set { before with pid := pid, fresh := before.fresh + 1 }
  | none => pure ()
  let outcome ← attempt body
  let after ← get
  set { before with
    files := after.files, sinks := after.sinks, feeds := after.feeds, fresh := after.fresh,
    clock := after.clock }
  match outcome with
  | .ok status => return status
  | .error (.exit status) => return status
  | .error (.leave status) => return status
  | .error (.killed pid signal) =>
    if pid? = some pid then
      write 2 (ofText (signalNote signal))
      return 128 + signal
    else throw (.killed pid signal)
  | .error .timedOut => throw .timedOut
  | .error _ => return after.status

/-- Run a step with its output collected. -/
def collecting (body : Run Nat) : Run (ByteText × Nat) := do
  let before ← get
  let (n, s) := before.newSink
  set (s.setChannel 1 (.sink n))
  let status ← body
  let text := (← get).collected n
  modify fun s => { s with channels := before.channels }
  return (text, status)

def dropLineEnds (s : ByteText) : ByteText := (s.reverse.dropWhile (· == '\n')).reverse

/-- The characters at which fields are split. -/
def fieldSeparators (s : Session) : ByteText := (s.value? "IFS".toList).getD " \t\n".toList

/-- Value of a parameter. -/
def parameterValue (s : Session) (name : ByteText) : Option ByteText :=
  match name with
  | ['#'] => some (Nat.toDigits 10 s.arguments.length)
  | ['?'] => some (Nat.toDigits 10 s.status)
  | ['$'] => some (Nat.toDigits 10 s.pid)
  | ['!'] => if s.jobs.isEmpty then none else some (Nat.toDigits 10 (s.pid + s.jobs.length))
  | ['-'] => some ((if s.stopOnError then ['e'] else []) ++ if s.refuseUnset then ['u'] else [])
  | ['0'] => some s.name
  | ['@'] => if s.arguments.isEmpty then none else some ([' '].intercalate s.arguments)
  | ['*'] =>
    if s.arguments.isEmpty then none
    else some (((fieldSeparators s).take 1).intercalate s.arguments)
  | name =>
    if name.all Char.isDigit then s.arguments[Format.natOf name - 1]? else s.value? name

/-- The atoms of a parameter's value. -/
def valueAtoms (s : Session) (name : ByteText) (quoted : Bool) : List Atom :=
  let mark : Mark := if quoted then .quoted else .result
  let perArgument := name == ['@'] || (name == ['*'] && !quoted)
  if perArgument then
    if s.arguments.isEmpty then [.void]
    else
      let each (a : ByteText) : List Atom := (if quoted then [.edge] else []) ++ Atom.ofText mark a
      [Atom.split].intercalate (s.arguments.map each)
  else Atom.ofText mark ((parameterValue s name).getD [])

/-- Refuse a parameter without a value when the shell was told to. -/
def checkSet (name : ByteText) : Run Unit := do
  let s ← get
  if s.refuseUnset && (parameterValue s name).isNone && name != ['@'] && name != ['*'] then
    complain s!"{toText name}: parameter not set"
    throw (.exit 2)

def hasOutput (w : Word) : Bool :=
  w.any fun
    | .output .. => true
    | _ => false

/-- Commands that keep the assignments before them. -/
def specialNames : List String :=
  ["eval", ".", "exec", "exit", "return", "break", "continue", "set", "shift", "export", "readonly",
    "unset", "trap", ":"]

/-! ## Commands of the shell that run nothing -/

/-- A status or count written as a number. -/
def numberArgument (name : String) (s : ByteText) : Run Nat := do
  if !s.isEmpty && s.all Char.isDigit && Format.natOf s < 2147483648 then return Format.natOf s
  complain s!"{name}: Illegal number: {toText s}"
  throw (.exit 2)

/-- Set a flag by its letter. -/
def setFlag (on : Bool) (s : Session) : Char → Session
  | 'e' => { s with stopOnError := on }
  | 'u' => { s with refuseUnset := on }
  | 'x' => { s with traces := on }
  | _ => s

def flagLetter : ByteText → ByteText
  | ['e', 'r', 'r', 'e', 'x', 'i', 't'] => ['e']
  | ['n', 'o', 'u', 'n', 's', 'e', 't'] => ['u']
  | ['x', 't', 'r', 'a', 'c', 'e'] => ['x']
  | _ => []

/-- Take flags and arguments. -/
def setFlags (s : Session) : List ByteText → Session
  | [] => s
  | ['-', '-'] :: rest => { s with arguments := rest }
  | ['-', 'o'] :: name :: rest => setFlags ((flagLetter name).foldl (setFlag true) s) rest
  | ['+', 'o'] :: name :: rest => setFlags ((flagLetter name).foldl (setFlag false) s) rest
  | ('-' :: letters) :: rest => setFlags (letters.foldl (setFlag true) s) rest
  | ('+' :: letters) :: rest => setFlags (letters.foldl (setFlag false) s) rest
  | rest => { s with arguments := rest }

/-- Set variables written as `name=value`; other names are only exported. -/
def declare (exports : Bool) (args : List ByteText) : Run Nat := do
  for a in args do
    let name := a.takeWhile isNamePart
    if name.length < a.length then
      modify (·.setVariable name (a.drop (name.length + 1)))
    if exports && !name.isEmpty then modify (·.exportVariable name)
  return 0

/-- Cut a line into as many fields as there are names; the last name gets what is left. -/
def assignFields (ifs : ByteText) (line : ByteText) : List ByteText → Session → Session
  | [], s => s
  | [name], s =>
    let isGap : Char → Bool := fun c => ifs.contains c && Atom.isIfsBlank c
    let value := ((line.dropWhile isGap).reverse.dropWhile isGap).reverse
    s.setVariable name value
  | name :: names, s =>
    let line := line.dropWhile fun c => ifs.contains c && Atom.isIfsBlank c
    let field := line.takeWhile (!ifs.contains ·)
    assignFields ifs (line.drop (field.length + 1)) names (s.setVariable name field)

def readInto (args : List ByteText) : Run Nat := do
  let names := if args.head? == some ['-', 'r'] then args.tail else args
  let (line, ended) ← readLine 0
  let s ← get
  set (assignFields (fieldSeparators s) line names s)
  return if ended then 0 else 1

/-- Go to a directory and note the old one. -/
def enterDirectory (key : Key) : Run Nat := do
  let s ← get
  let old := (s.value? "PWD".toList).getD []
  set ((({ s with cwd := key }.setVariable "OLDPWD".toList old).exportVariable "OLDPWD".toList).setVariable
    "PWD".toList (ofText (FileTree.pathOf key).text))
  return 0

def changeDirectory (args : List ByteText) : Run Nat := do
  let s ← get
  let back := args.head? == some ['-']
  let wanted := if back then "OLDPWD" else "HOME"
  let target := if back then (s.value? wanted.toList).getD []
    else args.headD ((s.value? wanted.toList).getD [])
  if target.isEmpty then return 0
  match s.files.stat s.cwd ⟨toText target⟩ with
  | .ok (key, .directory) =>
    if back then print (target ++ ['\n'])
    enterDirectory key
  | _ =>
    complain s!"cd: can't cd to {toText target}"
    return 2

/-- Make variables local to the function call, with a value where one is given. -/
def declareLocal (args : List ByteText) : Run Nat := do
  for a in args do
    let name := a.takeWhile isNamePart
    let s ← get
    match s.locals with
    | none =>
      complain "local: not in a function"
      throw (.exit 2)
    | some kept =>
      set { s with locals := some ((name, s.bindings.lookup name) :: kept) }
      if name.length < a.length then modify (·.setVariable name (a.drop (name.length + 1)))
  return 0

/-- The number of loops that `break` and `continue` leave, as far as there are that many. -/
def loopCount (name : String) (args : List ByteText) : Run Nat := do
  let n ← numberArgument name (args.headD ['1'])
  if n = 0 then
    complain s!"{name}: Illegal number: 0"
    throw (.exit 2)
  return min n (← get).loops

/-- Wait for one job or for all. -/
def waitFor (args : List ByteText) : Run Nat := do
  let s ← get
  let pids := (List.range s.jobs.length).map fun i => Nat.toDigits 10 (s.pid + i + 1)
  match args with
  | [] =>
    sleep (s.jobs.foldl (fun t job => max t job.1) s.clock - s.clock)
    return 0
  | _ =>
    let mut status := 0
    for a in args do
      match (pids.zip s.jobs).lookup a with
      | none => status := 127
      | some (finish, result) =>
        sleep (finish - (← get).clock)
        status := result
    return status

/-- Remember commands for signals. -/
def setTraps (args : List ByteText) : Run Nat := do
  match args with
  | [] => return 0
  | [only] =>
    modify fun s => { s with traps := s.traps.filter fun t => some t.signal != signalOf? only }
    return 0
  | command :: names =>
    for name in names do
      match signalOf? name with
      | none =>
        complain s!"trap: {toText name}: bad trap"
        return 1
      | some signal =>
        modify fun s =>
          let others := s.traps.filter (·.signal != signal)
          { s with traps := if command == ['-'] then others else ⟨signal, command⟩ :: others }
    return 0

/-- The signal and the processes of a `kill` command. -/
def killArguments (args : List ByteText) : Option (Nat × List ByteText) :=
  match args with
  | ['-', 's'] :: name :: pids => (signalOf? name).map fun n => (n, pids)
  | ['-', '-'] :: pids => some (15, pids)
  | ('-' :: name) :: pids => (signalOf? name).map fun n => (n, pids)
  | pids => some (15, pids)

/-- Channels of a shell before a step are channels after it. -/
def keepingChannels {α : Type} (body : Run α) : Run α := do
  let channels := (← get).channels
  let outcome ← attempt body
  modify fun s => { s with channels := channels }
  match outcome with
  | .ok x => return x
  | .error jump => throw jump

/-- Put back the variables of these names. -/
def keepingVariables {α : Type} (names : List ByteText) (body : Run α) : Run α := do
  let kept := (← get).bindings.filter fun v => names.contains v.1
  let outcome ← attempt body
  modify fun s =>
    { s with bindings := kept ++ s.bindings.filter fun v => !names.contains v.1 }
  match outcome with
  | .ok x => return x
  | .error jump => throw jump

/-- Show a command, if the shell was told to. -/
def showTrace (fields : List ByteText) : Run Unit := do
  if (← get).traces && !fields.isEmpty then write 2 ("+ ".toList ++ [' '].intercalate fields ++ ['\n'])

/-- One round of a loop; the answer tells whether the loop goes on. -/
def loopRound (body : Run Unit) : Run Bool := do
  modify fun s => { s with loops := s.loops + 1 }
  let outcome ← attempt body
  modify fun s => { s with loops := s.loops - 1 }
  match outcome with
  | .ok () => return true
  | .error (.breakOut n) => if n ≤ 1 then return false else throw (.breakOut (n - 1))
  | .error (.again n) => if n ≤ 1 then return true else throw (.again (n - 1))
  | .error jump => throw jump

/-- Rounds of a loop that are waited for. -/
def roundLimit : Nat := 100000

/-- The arguments of a shell: command text or file, name and parameters. -/
structure ShellCall where
  letters : List Char
  isText : Bool
  operands : List ByteText

def shellCall : List ByteText → ShellCall
  | [] => ⟨[], false, []⟩
  | ['-', '-'] :: rest => ⟨[], false, rest⟩
  | ('-' :: letters) :: rest =>
    let call := shellCall rest
    ⟨letters ++ call.letters, call.isText || letters.contains 'c', call.operands⟩
  | rest => ⟨[], false, rest⟩

mutual

/-- The atoms of a word. -/
def atoms (w : Word) : Nat → Run (List Atom)
  | 0 => throw .timedOut
  | fuel + 1 => do
    let mut all : List Atom := []
    for piece in w do all := all ++ (← pieceAtoms piece fuel)
    return all

def pieceAtoms (piece : Piece) : Nat → Run (List Atom)
  | 0 => throw .timedOut
  | fuel + 1 => do
    let markOf (quoted : Bool) : Mark := if quoted then .quoted else .result
    match piece with
    | .text s quoted =>
      if quoted then return .edge :: Atom.ofText .quoted s else return Atom.ofText .literal s
    | .value name quoted =>
      checkSet name
      return valueAtoms (← get) name quoted
    | .length name quoted =>
      checkSet name
      let n := ((parameterValue (← get) name).getD []).length
      return Atom.ofText (markOf quoted) (Nat.toDigits 10 n)
    | .valueOr name fallback whenEmpty word quoted =>
      let value := parameterValue (← get) name
      let isThere := if whenEmpty then value.any (!·.isEmpty) else value.isSome
      match fallback, isThere with
      | .swapWord, true => atoms word fuel
      | .swapWord, false => return []
      | _, true => return valueAtoms (← get) name quoted
      | .useWord, false => atoms word fuel
      | .keepWord, false =>
        let text := Atom.textOf (← atoms word fuel)
        modify (·.setVariable name text)
        return Atom.ofText (markOf quoted) text
      | .stop, false =>
        let text := Atom.textOf (← atoms word fuel)
        let reason := if text.isEmpty then "parameter not set" else toText text
        complain s!"{toText name}: {reason}"
        throw (.exit 2)
    | .cut name atEnd longest pattern quoted =>
      let marked := Atom.markedOf (← atoms pattern fuel)
      let value := (parameterValue (← get) name).getD []
      return Atom.ofText (markOf quoted) (Pattern.cut atEnd longest (Pattern.ofMarked marked) value)
    | .sum expression quoted =>
      let text := Atom.textOf (← atoms expression fuel)
      let s ← get
      match Sum.evaluate (fun name => (s.value? name).getD []) text with
      | .ok (n, assigned) =>
        for (name, n) in assigned do modify (·.setVariable name (ofText s!"{n}"))
        return Atom.ofText (markOf quoted) (ofText s!"{n}")
      | .error fault =>
        complain (match fault with
          | .badNumber x => s!"Illegal number: {toText x}"
          | .zeroDivision => s!"arithmetic expression: division by zero: \"{toText text}\""
          | .malformed => s!"arithmetic expression: expecting primary: \"{toText text}\"")
        throw (.exit 2)
    | .output body quoted =>
      let (text, status) ← collecting (isolated none (subshell body fuel))
      modify fun s => { s with status := status }
      return Atom.ofText (markOf quoted) (dropLineEnds text)

/-- A word as one text. -/
def textOf (w : Word) : Nat → Run ByteText
  | 0 => throw .timedOut
  | fuel + 1 => return Atom.textOf (← atoms w fuel)

/-- A word as fields, file names put in for patterns. -/
def fieldsOf (w : Word) : Nat → Run (List ByteText)
  | 0 => throw .timedOut
  | fuel + 1 => do
    let expanded ← atoms w fuel
    let s ← get
    return (Atom.fieldsOf (fieldSeparators s) expanded).flatMap (fileNames s.files s.cwd)

def allFields (ws : List Word) : Nat → Run (List ByteText)
  | 0 => throw .timedOut
  | fuel + 1 => do
    let mut all : List ByteText := []
    for w in ws do all := all ++ (← fieldsOf w fuel)
    return all

/-- Open the channels of redirections; false when one cannot be opened. -/
def openAll (rs : List Redirection) : Nat → Run Bool
  | 0 => throw .timedOut
  | fuel + 1 => do
    for r in rs do
      match r with
      | .mk n opening target =>
        let text ← textOf target fuel
        let channel : Option Channel ← match opening with
          | .read => openForReading text
          | .write => openForWriting text false
          | .append => openForWriting text true
          | .here =>
            let (m, s) := (← get).newFeed text
            set s
            pure (some (.feed m))
          | .duplicate =>
            if text == ['-'] then
              modify (·.closeChannel n)
              continue
            else if text.all Char.isDigit then
              let open? := (← get).channels.lookup (Format.natOf text)
              if open?.isNone then complain s!"{toText text}: Bad file descriptor"
              pure open?
            else
              complain "Bad fd number"
              pure none
        match channel with
        | some c => modify (·.setChannel n c)
        | none => return false
    return true

/-- Run a command with redirections. -/
def redirected (rs : List Redirection) (body : Run Nat) : Nat → Run Nat
  | 0 => throw .timedOut
  | fuel + 1 => do
    if rs.isEmpty then body
    else keepingChannels do if ← openAll rs fuel then body else return 2

/-- The jobs of a list, one after the other. -/
def runJobs (jobs : List Job) : Nat → Run Unit
  | 0 => throw .timedOut
  | fuel + 1 => do
    for job in jobs do runJob job fuel

/-- The jobs of a subshell. -/
def subshell (body : List Job) : Nat → Run Nat
  | 0 => throw .timedOut
  | fuel + 1 => do
    modify fun s => { s with traps := s.traps.filter (·.command.isEmpty) }
    let outcome ← attempt (runJobs body fuel)
    endShell outcome fuel

/-- The end of a shell: the trap for it is run, and the status decided. -/
def endShell (outcome : Except Jump Unit) : Nat → Run Nat
  | 0 => throw .timedOut
  | fuel + 1 => do
    match outcome with
    | .ok () => pure ()
    | .error (.exit n) => modify fun s => { s with status := n }
    | .error (.leave n) => modify fun s => { s with status := n }
    | .error (.killed pid signal) => throw (.killed pid signal)
    | .error .timedOut => throw .timedOut
    | .error _ => pure ()
    let status := (← get).status
    match (← get).traps.find? (·.signal = 0) with
    | none => return status
    | some trap =>
      modify fun s => { s with traps := s.traps.filter (·.signal != 0) }
      match ← attempt (runText (fun jobs => runJobs jobs fuel) trap.command) with
      | .error (.exit n) => return n
      | .error jump => throw jump
      | .ok () => return status

def runJob (job : Job) : Nat → Run Unit
  | 0 => throw .timedOut
  | fuel + 1 => do
    match job with
    | .mk first rest true =>
      let start := (← get).clock
      let body : Run Nat := do
        modify (·.setChannel 0 .empty)
        runChain first rest fuel
        return (← get).status
      let result ← match ← attempt (isolated none body) with
        | .error (.killed pid signal) => throw (.killed pid signal)
        | .ok status => pure status
        | .error _ => pure 0
      modify fun s => { s with clock := start, status := 0, jobs := s.jobs ++ [(s.clock, result)] }
    | .mk first rest false => runChain first rest fuel

/-- Pipelines joined by success or failure. -/
def runChain (first : Pipeline) (rest : List (Bool × Pipeline)) : Nat → Run Unit
  | 0 => throw .timedOut
  | fuel + 1 => do
    match rest with
    | [] => runPipeline first true fuel
    | _ =>
      runPipeline first false fuel
      runRest rest fuel

def runRest (rest : List (Bool × Pipeline)) : Nat → Run Unit
  | 0 => throw .timedOut
  | fuel + 1 => do
    match rest with
    | [] => pure ()
    | (needsSuccess, p) :: more =>
      if ((← get).status == 0) == needsSuccess then runPipeline p more.isEmpty fuel
      runRest more fuel

/-- Run a pipeline; a failure that counts may end the shell. -/
def runPipeline (p : Pipeline) (counts : Bool) : Nat → Run Unit
  | 0 => throw .timedOut
  | fuel + 1 => do
    match p with
    | .mk negated commands =>
      let counts := counts && !negated
      if !counts then modify fun s => { s with tests := s.tests + 1 }
      let start := (← get).clock
      let outcome ← attempt (match commands with
        | [c] => runCommand c fuel
        | cs => runPiped cs start fuel)
      if !counts then modify fun s => { s with tests := s.tests - 1 }
      match outcome with
      | .error jump => throw jump
      | .ok () => pure ()
      if negated then modify fun s => { s with status := if s.status = 0 then 1 else 0 }
      let s ← get
      if counts && s.stopOnError && s.tests = 0 && s.status != 0 then throw (.exit s.status)

/-- Commands that hand their output on; all start at the same time. -/
def runPiped (commands : List Command) (start : Nat) : Nat → Run Unit
  | 0 => throw .timedOut
  | fuel + 1 => do
    match commands with
    | [] => pure ()
    | [c] =>
      modify fun s => { s with clock := start }
      let status ← isolated none (subshell [.mk (.mk false [c]) [] false] fuel)
      modify fun s => { s with status := status }
    | c :: rest =>
      modify fun s => { s with clock := start }
      let (text, _) ← collecting (isolated none (subshell [.mk (.mk false [c]) [] false] fuel))
      let finished := (← get).clock
      keepingChannels do
        let (n, s) := (← get).newFeed text
        set (s.setChannel 0 (.feed n))
        runPiped rest start fuel
      modify fun s => { s with clock := max s.clock finished }

def runCommand (c : Command) : Nat → Run Unit
  | 0 => throw .timedOut
  | fuel + 1 => do
    let inShell (rs : List Redirection) (body : Run Unit) : Run Unit := do
      let status ← redirected rs (do
        body
        return (← get).status) fuel
      modify fun s => { s with status := status }
    match c with
    | .simple line assignments words rs => runSimple line assignments words rs fuel
    | .group body rs => inShell rs (runJobs body fuel)
    | .subshell body rs =>
      inShell rs do
        let status ← isolated none (subshell body fuel)
        modify fun s => { s with status := status }
    | .branch cases otherwise rs => inShell rs (runBranches cases otherwise fuel)
    | .loop negated test body rs =>
      inShell rs do
        modify fun s => { s with status := 0 }
        let round : Run Bool := do
          let before := (← get).status
          if (← passes test fuel) == negated then
            modify fun s => { s with status := before }
            return false
          loopRound (runJobs body fuel)
        repeatWhile round roundLimit
    | .each name items body rs =>
      inShell rs do
        let values ← match items with
          | some ws => allFields ws fuel
          | none => pure (← get).arguments
        modify fun s => { s with status := 0 }
        eachWhile (fun value => do
          modify (·.setVariable name value)
          loopRound (runJobs body fuel)) values
    | .select subject cases rs =>
      inShell rs do
        let text ← textOf subject fuel
        modify fun s => { s with status := 0 }
        runCases text cases fuel
    | .define name body =>
      modify fun s =>
        { s with functions := (name, body) :: s.functions.filter (·.1 != name), status := 0 }

/-- Whether a test succeeds; its failures end nothing. -/
def passes (test : List Job) : Nat → Run Bool
  | 0 => throw .timedOut
  | fuel + 1 => do
    modify fun s => { s with tests := s.tests + 1 }
    let outcome ← attempt (runJobs test fuel)
    modify fun s => { s with tests := s.tests - 1 }
    match outcome with
    | .ok () => return (← get).status == 0
    | .error jump => throw jump

def runBranches (cases : List (List Job × List Job)) (otherwise : List Job) : Nat → Run Unit
  | 0 => throw .timedOut
  | fuel + 1 => do
    match cases with
    | [] =>
      modify fun s => { s with status := 0 }
      runJobs otherwise fuel
    | (test, body) :: more =>
      if ← passes test fuel then runJobs body fuel else runBranches more otherwise fuel

/-- The first case whose pattern fits. -/
def runCases (text : ByteText) (cases : List (List Word × List Job)) : Nat → Run Unit
  | 0 => throw .timedOut
  | fuel + 1 => do
    match cases with
    | [] => pure ()
    | (patterns, body) :: more =>
      let mut fits := false
      for p in patterns do
        if !fits then
          let marked := Atom.markedOf (← atoms p fuel)
          fits := Pattern.accepts (Pattern.ofMarked marked) text
      if fits then runJobs body fuel else runCases text more fuel

/-- Expand and run a simple command. -/
def runSimple (line : Nat) (assignments : List (ByteText × Word)) (words : List Word)
    (rs : List Redirection) : Nat → Run Unit
  | 0 => throw .timedOut
  | fuel + 1 => do
    modify fun s => { s with line := line }
    let fields ← allFields words fuel
    match fields with
    | [] =>
      let status ← redirected rs (pure 0) fuel
      let runsOutput := words.any hasOutput || assignments.any fun a => hasOutput a.2
      let mut shown := []
      for (name, w) in assignments do
        let value ← textOf w fuel
        modify (·.setVariable name value)
        shown := shown ++ [name ++ '=' :: value]
      showTrace shown
      modify fun s =>
        { s with status := if status != 0 then status else if runsOutput then s.status else 0 }
    | name :: args =>
      showTrace fields
      let isSpecial := specialNames.contains (String.ofList name)
      let assign : Run Unit := do
        for (variableName, w) in assignments do
          let value ← textOf w fuel
          modify fun s =>
            let s := s.setVariable variableName value
            if isSpecial then s else s.exportVariable variableName
      let status ←
        if name == "exec".toList && args.isEmpty then do
          assign
          if ← openAll rs fuel then pure 0 else pure 2
        else if isSpecial then redirected rs (do
          assign
          dispatch name args true fuel) fuel
        else keepingVariables (assignments.map (·.1)) (redirected rs (do
          assign
          dispatch name args true fuel) fuel)
      modify fun s => { s with status := status }

/-- Run a command by its name and answer its status. -/
def dispatch (name : ByteText) (args : List ByteText) (withFunctions : Bool) : Nat → Run Nat
  | 0 => throw .timedOut
  | fuel + 1 => do
    let s ← get
    let text := toText name
    match text with
    | ":" => return 0
    | "exit" =>
      match args with
      | [] => throw (.exit s.status)
      | n :: _ => throw (.exit ((← numberArgument "exit" n) % 256))
    | "return" =>
      match args with
      | [] => throw (.leave s.status)
      | n :: _ => throw (.leave ((← numberArgument "return" n) % 256))
    | "break" =>
      let n ← loopCount "break" args
      if n = 0 then return 0 else throw (.breakOut n)
    | "continue" =>
      let n ← loopCount "continue" args
      if n = 0 then return 0 else throw (.again n)
    | "set" =>
      set (setFlags s args)
      return 0
    | "shift" =>
      let n := Format.natOf (args.headD ['1'])
      if s.arguments.length < n then
        complain "shift: can't shift that many"
        throw (.exit 2)
      set { s with arguments := s.arguments.drop n }
      return 0
    | "export" => declare true (args.filter (!Utility.isOption ·))
    | "readonly" => declare false (args.filter (!Utility.isOption ·))
    | "unset" =>
      set { s with
        bindings := s.bindings.filter fun v => !args.contains v.1
        functions := s.functions.filter fun f => !(args.contains f.1 && args.contains ['-', 'f']) }
      return 0
    | "trap" => setTraps args
    | "eval" =>
      runText (fun jobs => runJobs jobs fuel) (Utility.joined args)
      return (← get).status
    | "." =>
      let path := args.headD []
      match s.files.read s.cwd ⟨toText path⟩ with
      | .error _ =>
        complain s!".: cannot open {toText path}: No such file"
        throw (.exit 2)
      | .ok data =>
        match ← attempt (runText (fun jobs => runJobs jobs fuel) (ofBytes data)) with
        | .error (.leave n) => return n
        | .error jump => throw jump
        | .ok () => return (← get).status
    | "exec" =>
      match args with
      | [] => return 0
      | program :: args =>
        let status ← runFile "exec: " program args fuel
        modify fun s => { s with traps := [] }
        throw (.exit status)
    | _ =>
      match if withFunctions then s.functions.lookup name else none with
      | some body =>
        set { s with arguments := args, loops := 0, locals := some [] }
        let outcome ← attempt (runCommand body fuel)
        modify fun after =>
          let restored := (after.locals.getD []).foldl (fun s v => s.restore v.1 v.2) after
          { restored with arguments := s.arguments, loops := s.loops, locals := s.locals }
        match outcome with
        | .ok () => return (← get).status
        | .error (.leave n) => return n
        | .error jump => throw jump
      | none => runBuiltin text name args fuel

/-- A command that is part of the shell, or else a file. -/
def runBuiltin (text : String) (name : ByteText) (args : List ByteText) : Nat → Run Nat
  | 0 => throw .timedOut
  | fuel + 1 => do
    match text with
    | "cd" => changeDirectory args
    | "read" => readInto args
    | "local" => declareLocal args
    | "umask" =>
      if args.isEmpty then print "0022\n".toList
      return 0
    | "wait" => waitFor args
    | "kill" => sendSignals args fuel
    | "command" =>
      match args with
      | ['-', 'v'] :: wanted :: _ => describe wanted
      | program :: rest => dispatch program rest false fuel
      | [] => return 0
    | "echo" => Utility.echo args
    | "printf" => Utility.formatted args
    | "test" => Utility.condition "test" args
    | "[" => Utility.bracket args
    | "true" => return 0
    | "false" => return 1
    | "pwd" => Utility.workingDirectory args
    | _ => runFile "" name args fuel

/-- Where a command comes from. -/
def describe (name : ByteText) : Run Nat := do
  let s ← get
  let text := toText name
  let builtins := ["cd", "read", "local", "umask", "wait", "kill", "command", "echo", "printf", "test",
    "[", "true", "false", "pwd"]
  if specialNames.contains text || builtins.contains text || (s.functions.lookup name).isSome then
    print (name ++ ['\n'])
    return 0
  match Program.find s.files s.cwd (toText ((s.value? "PATH".toList).getD [])) text with
  | .ok (path, _) =>
    print (ofText (path.text ++ "\n"))
    return 0
  | .error _ => return 127

/-- Send a signal to processes; the shell itself is the only one that notices. -/
def sendSignals (args : List ByteText) : Nat → Run Nat
  | 0 => throw .timedOut
  | fuel + 1 => do
    match killArguments args with
    | none =>
      complain "kill: Illegal option"
      return 2
    | some (signal, pids) =>
      let mut status := 0
      for pid in pids do
        let s ← get
        let isJob := (List.range s.jobs.length).any fun i => pid == Nat.toDigits 10 (s.pid + i + 1)
        if pid == Nat.toDigits 10 s.pid || pid == ['0'] then
          match s.traps.find? fun t => t.signal = signal && signal != 0 && signal != 9 with
          | some trap => runText (fun jobs => runJobs jobs fuel) trap.command
          | none =>
            if stoppingSignals.contains signal then throw .timedOut
            if !idleSignals.contains signal then throw (.killed s.pid signal)
        else if !isJob then
          complain "kill: No such process"
          status := 1
      return status

/-- Run a program as a process of its own. -/
def runFile (lead : String) (name : ByteText) (args : List ByteText) : Nat → Run Nat
  | 0 => throw .timedOut
  | fuel + 1 => do
    let s ← get
    let search := toText ((s.value? "PATH".toList).getD [])
    match Program.find s.files s.cwd search (toText name) with
    | .ok (path, program) =>
      isolated (some (s.pid + 100 + s.fresh))
        (runTool program.tool (if path.text = toText name then name else ofText path.text)
          (program.arguments ++ args) fuel)
    | .error .badFormat =>
      match s.files.read s.cwd ⟨toText name⟩ with
      | .ok data => isolated (some (s.pid + 100 + s.fresh)) (runScript name args (ofBytes data) fuel)
      | .error _ => return 126
    | .error .denied =>
      complain s!"{lead}{toText name}: Permission denied"
      return 126
    | .error _ =>
      complain s!"{lead}{toText name}: not found"
      return 127

/-- Run a tool of the system. -/
def runTool (tool : String) (name : ByteText) (args : List ByteText) : Nat → Run Nat
  | 0 => throw .timedOut
  | fuel + 1 => do
    if Utility.shellNames.contains tool then runShell name args fuel
    else
      match tool, args with
      | "env", program :: rest =>
        let s ← get
        let search := toText ((s.value? "PATH".toList).getD [])
        match Program.find s.files s.cwd search (toText program) with
        | .error e =>
          write 2 (ofText s!"{toText name}: '{toText program}': {e.description}\n")
          return if e = .notFound then 127 else 126
        | .ok _ => runFile "" program rest fuel
      | _, _ =>
        match Utility.system? tool (toText name) with
        | some utility =>
          modify fun s => { s with name := name }
          utility args
        | none => return 127

/-- Run a shell with the arguments of its call. -/
def runShell (name : ByteText) (args : List ByteText) : Nat → Run Nat
  | 0 => throw .timedOut
  | fuel + 1 => do
    let call := shellCall args
    modify fun s => call.letters.foldl (setFlag true)
      { s with name := name, line := 0, stopOnError := false, refuseUnset := false, traces := false }
    match call.isText, call.operands with
    | true, text :: rest => runScript (rest.headD name) rest.tail text fuel
    | true, [] =>
      complain "-c requires an argument"
      return 2
    | false, [] =>
      let text ← readAll 0
      runScript name [] text fuel
    | false, file :: rest =>
      let s ← get
      match s.files.read s.cwd ⟨toText file⟩ with
      | .ok data => runScript file rest (ofBytes data) fuel
      | .error e =>
        complain s!"cannot open {toText file}: {openingFault e false}"
        return 2

/-- Run a script in a new shell. -/
def runScript (name : ByteText) (args : List ByteText) (text : ByteText) : Nat → Run Nat
  | 0 => throw .timedOut
  | fuel + 1 => do
    modify fun s =>
      { s with
        name := name, arguments := args, status := 0, line := 1, tests := 0, functions := []
        traps := s.traps.filter (·.command.isEmpty)
        bindings := s.bindings.filter (·.2.exported), jobs := [], loops := 0, locals := none }
    modify fun s =>
      (s.setVariable "PWD".toList (ofText (FileTree.pathOf s.cwd).text)).exportVariable "PWD".toList
    let outcome ← attempt (runText (fun jobs => runJobs jobs fuel) text)
    endShell outcome fuel

end

/-- How a program ended. -/
inductive Ending where
  | exited (status : Nat)
  | killed (signal : Nat)
  | timedOut
deriving DecidableEq, Repr

/-- What a program leaves behind. -/
structure Execution where
  ending : Ending
  stdout : List UInt8
  stderr : List UInt8
  files : FileTree

/-- How deep commands may be nested. -/
def nesting : Nat := 6000

/-- Run a program up to the deadline. -/
def Program.run (p : Program) (name : String) (args : List String) (files : FileTree) (cwd : Key)
    (environment : List (String × String)) (deadline : Nat) : Execution :=
  let start : Session := {
    files := files, cwd := cwd
    bindings := environment.map fun v => (ofText v.1, ⟨ofText v.2, true⟩)
    functions := [], pid := 1000, name := ofText name, arguments := [], status := 0, line := 0
    stopOnError := false, refuseUnset := false, tests := 0, traps := []
    channels := [(0, .empty), (1, .sink 1), (2, .sink 2)], sinks := [(1, []), (2, [])], feeds := []
    fresh := 3, clock := 0, deadline := deadline, jobs := [], loops := 0, locals := none
    traces := false }
  let (outcome, after) :=
    (runTool p.tool (ofText name) (p.arguments ++ args.map ofText) nesting).run.run start
  let ending : Ending := match outcome with
    | .ok status => .exited status
    | .error (.exit status) => .exited status
    | .error (.leave status) => .exited status
    | .error (.killed _ signal) => .killed signal
    | .error .timedOut => .timedOut
    | .error _ => .exited after.status
  ⟨ending, toBytes (after.collected 1), toBytes (after.collected 2), after.files⟩

end CipherCorpus.Shell
