import CipherCorpus.FileTree.Change
import CipherCorpus.Shell.Script

/-!
# The state of a running shell

A session holds files, variables and open channels, and a clock that only sleeping moves. What is
written to a sink is kept with its time, so output of background jobs falls into place
(`Session.collected`).
-/

namespace CipherCorpus.Shell

/-- What a channel number stands for. -/
inductive Channel where
  /-- Nothing to read; what is written is dropped. -/
  | empty
  /-- What is written is collected. -/
  | sink (number : Nat)
  /-- Text to be read. -/
  | feed (number : Nat)
  /-- What is written goes to the end of a file. -/
  | file (key : Key)
deriving DecidableEq

structure Variable where
  value : ByteText
  exported : Bool

/-- A command that runs when a signal arrives or the shell ends. -/
structure Trap where
  /-- Number of the signal; zero for the end of the shell. -/
  signal : Nat
  command : ByteText

structure Session where
  files : FileTree
  cwd : Key
  bindings : List (ByteText × Variable)
  functions : List (ByteText × Command)
  /-- Number of the process. -/
  pid : Nat
  /-- Name of the shell or script. -/
  name : ByteText
  arguments : List ByteText
  status : Nat
  line : Nat
  /-- End the shell when a command fails. -/
  stopOnError : Bool
  /-- Refuse parameters without a value. -/
  refuseUnset : Bool
  /-- Tests in progress, whose failure ends nothing. -/
  tests : Nat
  traps : List Trap
  channels : List (Nat × Channel)
  /-- Time and text of what was written, the last first. -/
  sinks : List (Nat × List (Nat × ByteText))
  feeds : List (Nat × ByteText)
  /-- The next number for a sink or feed. -/
  fresh : Nat
  /-- Nanoseconds since the start. -/
  clock : Nat
  /-- The last point of the clock that is reached. -/
  deadline : Nat
  /-- When the background jobs end, and their statuses. -/
  jobs : List (Nat × Nat)
  /-- Loops around the current command, those of a function call counted on their own. -/
  loops : Nat
  /-- In a function call, the variables to be put back at its end, the last first. -/
  locals : Option (List (ByteText × Option Variable))
  /-- Show each simple command before it runs. -/
  traces : Bool

/-- What leaves the normal order of commands. -/
inductive Jump where
  | exit (status : Nat)
  | leave (status : Nat)
  | breakOut (levels : Nat)
  | again (levels : Nat)
  /-- A signal ends the process of this number. -/
  | killed (pid signal : Nat)
  | timedOut
deriving DecidableEq, Repr

/-- A step of a running shell. -/
abbrev Run := ExceptT Jump (StateM Session)

namespace Session

def value? (s : Session) (name : ByteText) : Option ByteText :=
  (s.bindings.lookup name).map (·.value)

/-- Set a variable; it stays exported. -/
def setVariable (s : Session) (name value : ByteText) : Session :=
  let exported := match s.bindings.lookup name with
    | some v => v.exported
    | none => false
  { s with bindings := (name, ⟨value, exported⟩) :: s.bindings.filter (·.1 != name) }

def exportVariable (s : Session) (name : ByteText) : Session :=
  let value := (s.value? name).getD []
  { s with bindings := (name, ⟨value, true⟩) :: s.bindings.filter (·.1 != name) }

/-- Put a variable back to what it was. -/
def restore (s : Session) (name : ByteText) (v : Option Variable) : Session :=
  { s with bindings := (v.toList.map fun v => (name, v)) ++ s.bindings.filter (·.1 != name) }

def channel (s : Session) (n : Nat) : Channel := (s.channels.lookup n).getD .empty

def setChannel (s : Session) (n : Nat) (c : Channel) : Session :=
  { s with channels := (n, c) :: s.channels.filter (·.1 != n) }

def closeChannel (s : Session) (n : Nat) : Session :=
  { s with channels := s.channels.filter (·.1 != n) }

/-- A new sink. -/
def newSink (s : Session) : Nat × Session :=
  (s.fresh, { s with fresh := s.fresh + 1, sinks := (s.fresh, []) :: s.sinks })

/-- A new feed with its text. -/
def newFeed (s : Session) (text : ByteText) : Nat × Session :=
  (s.fresh, { s with fresh := s.fresh + 1, feeds := (s.fresh, text) :: s.feeds })

/-- What was written to a sink, in the order of time. -/
def collected (s : Session) (n : Nat) : ByteText :=
  let chunks := ((s.sinks.lookup n).getD []).reverse
  (chunks.mergeSort fun a b => decide (a.1 ≤ b.1)).flatMap (·.2)

def addTo (n : Nat) (chunk : Nat × ByteText) :
    List (Nat × List (Nat × ByteText)) → List (Nat × List (Nat × ByteText))
  | [] => []
  | (m, chunks) :: rest =>
    if m = n then (m, chunk :: chunks) :: rest else (m, chunks) :: addTo n chunk rest

/-- Append to a file. -/
def appendTo (files : FileTree) (key : Key) (text : ByteText) : FileTree :=
  match files.get? key with
  | some (.file body executable) =>
    files.put key (.file (.bytes (body.data ++ toBytes text)) executable)
  | _ => files

def write (s : Session) (n : Nat) (text : ByteText) : Session :=
  match s.channel n with
  | .sink m => { s with sinks := addTo m (s.clock, text) s.sinks }
  | .file key => { s with files := appendTo s.files key text }
  | _ => s

/-- All that is left to read. -/
def unread (s : Session) (n : Nat) : ByteText :=
  match s.channel n with
  | .feed m => (s.feeds.lookup m).getD []
  | _ => []

def setUnread (s : Session) (n : Nat) (text : ByteText) : Session :=
  match s.channel n with
  | .feed m => { s with feeds := (m, text) :: s.feeds.filter (·.1 != m) }
  | _ => s

end Session

namespace Run

def write (n : Nat) (text : ByteText) : Run Unit := modify (·.write n text)

def print (text : ByteText) : Run Unit := write 1 text

/-- Write a complaint of the shell with its name and line. -/
def complain (text : String) : Run Unit := do
  let s ← get
  write 2 (s.name ++ ofText s!": {s.line}: {text}\n")

/-- Let time pass; nothing happens after the deadline. -/
def sleep (nanos : Nat) : Run Unit := do
  let s ← get
  let clock := s.clock + nanos
  if s.deadline < clock then throw .timedOut
  set { s with clock := clock }

/-- The outcome of a step, jumps included. -/
def attempt {α : Type} (step : Run α) : Run (Except Jump α) := ExceptT.lift step.run

/-- Take a line from a channel; the answer tells whether it was ended. -/
def readLine (n : Nat) : Run (ByteText × Bool) := do
  let text := (← get).unread n
  let line := text.takeWhile (· != '\n')
  let rest := text.drop line.length
  modify (·.setUnread n (rest.drop 1))
  return (line, !rest.isEmpty)

/-- Take all that is left on a channel. -/
def readAll (n : Nat) : Run ByteText := do
  let text := (← get).unread n
  modify (·.setUnread n [])
  return text

/-- Repeat a step while it asks for more. A shell that goes on for too long is never waited for. -/
def repeatWhile (step : Run Bool) : Nat → Run Unit
  | 0 => throw .timedOut
  | n + 1 => do
    if ← step then repeatWhile step n else pure ()

/-- Do a step for each item while it asks for more. -/
def eachWhile (step : ByteText → Run Bool) : List ByteText → Run Unit
  | [] => pure ()
  | x :: rest => do
    if ← step x then eachWhile step rest else pure ()

/-- The reason of a failed opening in the words of the shell. -/
def openingFault (e : FileError) (creating : Bool) : String :=
  match e with
  | .notFound => if creating then "Directory nonexistent" else "No such file"
  | .notDirectory => if creating then "Directory nonexistent" else "No such file"
  | e => e.description

/-- The channel of a file to be read. -/
def openForReading (path : ByteText) : Run (Option Channel) := do
  if path == "/dev/null".toList then return some .empty
  let s ← get
  match s.files.read s.cwd ⟨toText path⟩ with
  | .ok data =>
    let (n, s) := s.newFeed (ofBytes data)
    set s
    return some (.feed n)
  | .error e =>
    complain s!"cannot open {toText path}: {openingFault e false}"
    return none

/-- The channel of a file to be written. -/
def openForWriting (path : ByteText) (keep : Bool) : Run (Option Channel) := do
  if path == "/dev/null".toList then return some .empty
  let s ← get
  let p : Path := ⟨toText path⟩
  let files :=
    if keep && s.files.isFile s.cwd p then .ok s.files else s.files.writeBytes s.cwd p []
  match files with
  | .ok files =>
    set { s with files := files }
    match files.stat s.cwd p with
    | .ok (key, _) => return some (.file key)
    | .error _ => return some .empty
  | .error e =>
    complain s!"cannot create {toText path}: {openingFault e true}"
    return none

end Run

end CipherCorpus.Shell
