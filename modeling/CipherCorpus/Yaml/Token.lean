import CipherCorpus.Yaml.Scalar

/-!
# Tokens

The text becomes a row of tokens. Indentation opens and closes blocks; a key without a mark of its own
is known only at the colon after it, and its key token is put in front of it then. Such a key lies on
one line and is at most 1024 characters before its colon.
-/

namespace CipherCorpus.Yaml

/-- A token. -/
inductive Token where
  | version (major minor : Nat)
  | tagDirective (handle lead : String)
  | documentStart
  | documentEnd
  | blockSequenceStart
  | blockMappingStart
  | blockEnd
  | flowSequenceStart
  | flowSequenceEnd
  | flowMappingStart
  | flowMappingEnd
  | blockEntry
  | flowEntry
  | key
  | value
  | alias (name : String)
  | anchor (name : String)
  | tag (handle suffix : String)
  | scalar (text : String) (style : Style)
deriving DecidableEq, Repr

/-- A place where a key may have started. -/
structure KeyPlace where
  /-- The key has to be one, because it starts a line of the block. -/
  isRequired : Bool
  token : Nat
  index : Nat
  line : Nat
  column : Nat

/-- The tokens so far, and what the next one depends on. -/
structure Lexer where
  cursor : Cursor
  tokens : Array Token
  /-- One more than the column of the current block; zero outside of blocks. -/
  indent : Nat
  outerIndents : List Nat
  /-- The possible key of the current collection, and of the flow collections around it. -/
  keyPlace : Option KeyPlace
  outerKeyPlaces : List (Option KeyPlace)
  keyAllowed : Bool

abbrev Lex := StateT Lexer Option

namespace Lexer

def start (text : List Char) : Lexer := ⟨.ofText text, #[], 0, [], none, [], true⟩

/-- Inside a flow collection. -/
def inFlow (l : Lexer) : Bool := !l.outerKeyPlaces.isEmpty

end Lexer

def refuse {α : Type} : Lex α := StateT.lift none

/-- Move the cursor. -/
def scan {α : Type} (s : Scan α) : Lex α := do
  let l ← get
  match s l.cursor with
  | some (x, cursor) => set { l with cursor := cursor }; return x
  | none => refuse

def emit (t : Token) : Lex Unit := modify fun l => { l with tokens := l.tokens.push t }

/-- A possible key is given up; one that was required is a fault. -/
def dropKey : Lex Unit := do
  let l ← get
  match l.keyPlace with
  | some k => if k.isRequired then refuse else set { l with keyPlace := none }
  | none => pure ()

/-- A key may start here. -/
def markKey : Lex Unit := do
  let l ← get
  if l.keyAllowed then
    let c := l.cursor
    let isRequired := !l.inFlow && l.indent == c.column + 1
    dropKey
    modify fun l =>
      { l with keyPlace := some ⟨isRequired, l.tokens.size, c.index, c.line, c.column⟩ }

def allowKey (b : Bool) : Lex Unit := modify fun l => { l with keyAllowed := b }

/-- The place is too far back for a key to have started there. -/
def KeyPlace.isStale (k : KeyPlace) (c : Cursor) : Bool := k.line < c.line || k.index + 1024 < c.index

/-- A key place that is not stale; a stale one that was required is a fault. -/
def freshKey (c : Cursor) : Option KeyPlace → Lex (Option KeyPlace)
  | none => return none
  | some k => if k.isStale c then if k.isRequired then refuse else return none else return some k

/-- Give up the keys that are too far back. -/
def dropStaleKeys : Lex Unit := do
  let l ← get
  let current ← freshKey l.cursor l.keyPlace
  let outer ← l.outerKeyPlaces.mapM (freshKey l.cursor)
  modify fun l => { l with keyPlace := current, outerKeyPlaces := outer }

/-- Open a block at a column that is further in than the current one. -/
def openBlock (column : Nat) (place : Option Nat) (t : Token) : Lex Unit := do
  let l ← get
  if !l.inFlow && l.indent < column + 1 then
    set { l with
      indent := column + 1
      outerIndents := l.indent :: l.outerIndents
      tokens := match place with
        | some i => l.tokens.insertIdxIfInBounds i t
        | none => l.tokens.push t }

/-- Close the blocks that are further in than `limit`. -/
def closeBlocks (limit : Nat) : List Nat → Lex Unit
  | [] => return ()
  | outer :: more => do
    let l ← get
    if limit < l.indent then
      set { l with indent := outer, outerIndents := more, tokens := l.tokens.push .blockEnd }
      closeBlocks limit more

/-- Close blocks at the column of the next token. -/
def unroll (limit : Nat) : Lex Unit := do
  let l ← get
  if !l.inFlow then closeBlocks limit l.outerIndents

/-- Skip spaces, comments and line ends before the next token. -/
def skipToToken : Nat → Lex Unit
  | 0 => return ()
  | fuel + 1 => do
    let l ← get
    if l.cursor.column == 0 && l.cursor.peek.any (·.toNat == 0xfeff) then scan skip
    let tabs := l.inFlow || !l.keyAllowed
    scan (discard (takeAll fun c => c == ' ' || (tabs && c == '\t')))
    scan skipComment
    if (← get).cursor.peek.any isBreak then
      scan skipLine
      if !l.inFlow then allowKey true
      skipToToken fuel

/-! ## Directives, anchors and tags -/

/-- A word that is not empty. -/
def takeName : Scan String := do
  let name ← takeAll isWordChar
  need (!name.isEmpty)
  return String.ofList name

/-- A number of at most nine digits. -/
def takeVersionNumber : Scan Nat := do
  let digits ← takeAll Char.isDigit
  need (!digits.isEmpty && digits.length ≤ 9)
  return digits.foldl (fun n d => n * 10 + (d.toNat - 48)) 0

/-- A handle: an exclamation mark, a word, and perhaps another mark. -/
def takeHandle (inDirective : Bool) : Scan String := do
  need ((← peek) == some '!')
  skip
  let word ← takeAll isWordChar
  if (← peek) == some '!' then
    skip
    return String.ofList ('!' :: word ++ ['!'])
  else
    need (!inDirective || word.isEmpty)
    return String.ofList ('!' :: word)

/-- The characters of tags. -/
def isTagChar (wide : Bool) (c : Char) : Bool :=
  isWordChar c || ";/?:@&=+$.!~*'()%".toList.contains c || (wide && ",[]".toList.contains c)

/-- Bytes written with percent signs that make one character. -/
def takePercentBytes : Nat → Scan (List UInt8)
  | 0 => return []
  | n + 1 => do
    need ((← peek) == some '%')
    skip
    let b ← takeHex 2 0
    return b.toUInt8 :: (← takePercentBytes n)

/-- One character written with percent signs. -/
def takePercentChar : Scan Char := do
  let lead ← takePercentBytes 1
  let more := match lead with
    | [b] => if b < 0x80 then 0 else ((Text.leadOf b).map (·.1)).getD 0
    | _ => 0
  let rest ← takePercentBytes more
  match Text.decode? (lead ++ rest) with
  | some [c] => return c
  | _ => fail

/-- The characters of a tag; at most `fuel`. -/
def takeTagChars (wide : Bool) : Nat → Scan (List Char)
  | 0 => return []
  | fuel + 1 => do
    match ← peek with
    | some c =>
      if c == '%' then
        let x ← takePercentChar
        return x :: (← takeTagChars wide fuel)
      else if isTagChar wide c then
        skip
        return c :: (← takeTagChars wide fuel)
      else return []
    | none => return []

def takeTagText (wide : Bool) : Scan (List Char) := do takeTagChars wide (← remaining)

/-- A directive line. -/
def takeDirective : Scan Token := do
  skip
  let name ← takeName
  need (isGap (← peek))
  let t ←
    if name = "YAML" then do
      skipSpaces
      let major ← takeVersionNumber
      need ((← peek) == some '.')
      skip
      let minor ← takeVersionNumber
      pure (Token.version major minor)
    else if name = "TAG" then do
      skipSpaces
      let handle ← takeHandle true
      need ((← peek).any isSpace)
      skipSpaces
      let lead ← takeTagText true
      need (!lead.isEmpty && isGap (← peek))
      pure (Token.tagDirective handle (String.ofList lead))
    else fail
  skipSpaces
  skipComment
  need (isLineEnd (← peek))
  skipLine
  return t

/-- The name of an anchor or alias, from its mark on. -/
def takeAnchorName : Scan String := do
  skip
  let name ← takeName
  let following ← peek
  need (isGap following || following.any fun c => "?:,]%@".toList.contains c || c.toNat == 125 || c.toNat == 96)
  return name

/-- A tag. -/
def takeTag (inFlow : Bool) : Scan Token := do
  let t ←
    if (← get).at? 1 == some '<' then do
      skip
      skip
      let text ← takeTagText true
      need (!text.isEmpty && (← peek) == some '>')
      skip
      pure (Token.tag "" (String.ofList text))
    else do
      let handle ← takeHandle false
      if handle.length > 1 && handle.toList.getLast? == some '!' then
        let suffix ← takeTagText false
        need (!suffix.isEmpty)
        pure (Token.tag handle (String.ofList suffix))
      else
        let suffix := handle.toList.drop 1 ++ (← takeTagText false)
        pure (if suffix.isEmpty then Token.tag "" "!" else Token.tag "!" (String.ofList suffix))
  let following ← peek
  need (isGap following || (inFlow && following == some ','))
  return t

/-! ## The next token -/

/-- A directive or a document mark ends all blocks. -/
def endBlocks : Lex Unit := do
  unroll 0
  dropKey
  allowKey false

def openFlow (t : Token) : Lex Unit := do
  markKey
  modify fun l => { l with keyPlace := none, outerKeyPlaces := l.keyPlace :: l.outerKeyPlaces }
  allowKey true
  scan skip
  emit t

def closeFlow (t : Token) : Lex Unit := do
  dropKey
  modify fun l =>
    match l.outerKeyPlaces with
    | k :: more => { l with keyPlace := k, outerKeyPlaces := more }
    | [] => l
  allowKey false
  scan skip
  emit t

/-- A mark that starts an entry or key in a block. -/
def startInBlock (t : Token) : Lex Unit := do
  let l ← get
  if !l.inFlow then
    if !l.keyAllowed then refuse
    openBlock l.cursor.column none t

def takeBlockEntry : Lex Unit := do
  startInBlock .blockSequenceStart
  dropKey
  allowKey true
  scan skip
  emit .blockEntry

def takeKeyMark : Lex Unit := do
  startInBlock .blockMappingStart
  dropKey
  allowKey (!(← get).inFlow)
  scan skip
  emit .key

def takeValueMark : Lex Unit := do
  let l ← get
  match l.keyPlace with
  | some k =>
    set { l with tokens := l.tokens.insertIdxIfInBounds k.token .key, keyPlace := none }
    openBlock k.column (some k.token) .blockMappingStart
    allowKey false
  | none =>
    startInBlock .blockMappingStart
    allowKey (!l.inFlow)
  scan skip
  emit .value

/-- A token that may be a key. -/
def takeKeyable (s : Scan Token) : Lex Unit := do
  markKey
  allowKey false
  emit (← scan s)

def takePlain : Lex Unit := do
  markKey
  allowKey false
  let l ← get
  let (text, broken) ← scan (do plainFrom l.inFlow l.indent (← remaining) .empty)
  emit (.scalar (String.ofList text) .plain)
  if broken then allowKey true

/-- Characters that do not start a plain scalar. -/
def isIndicator (c : Char) : Bool :=
  "-?:,[]#&*!|>'%@\"".toList.contains c || c.toNat == 123 || c.toNat == 125 || c.toNat == 96

/-- Take the token that starts with `c`. -/
def takeToken (c : Char) : Lex Unit := do
  let l ← get
  let flow := l.inFlow
  let following := l.cursor.at? 1
  if l.cursor.column == 0 && c == '%' then
    endBlocks
    emit (← scan takeDirective)
  else if l.cursor.isMarker '-' then
    endBlocks
    scan (do skip; skip; skip)
    emit .documentStart
  else if l.cursor.isMarker '.' then
    endBlocks
    scan (do skip; skip; skip)
    emit .documentEnd
  else if c == '[' then openFlow .flowSequenceStart
  else if c.toNat == 123 then openFlow .flowMappingStart
  else if c == ']' then closeFlow .flowSequenceEnd
  else if c.toNat == 125 then closeFlow .flowMappingEnd
  else if c == ',' then
    dropKey
    allowKey true
    scan skip
    emit .flowEntry
  else if c == '-' && isGap following then takeBlockEntry
  else if c == '?' && (flow || isGap following) then takeKeyMark
  else if c == ':' && (flow || isGap following) then takeValueMark
  else if c == '*' then takeKeyable (do return .alias (← takeAnchorName))
  else if c == '&' then takeKeyable (do return .anchor (← takeAnchorName))
  else if c == '!' then takeKeyable (takeTag flow)
  else if (c == '|' || c == '>') && !flow then
    dropKey
    allowKey true
    let style := if c == '|' then Style.literal else Style.folded
    emit (.scalar (String.ofList (← scan (takeBlock (c == '|') l.indent))) style)
  else if c == '\'' || c == '"' then
    takeKeyable (do return .scalar (String.ofList (← takeQuoted c)) .quoted)
  else if (!isIndicator c && !isSpace c) || (c == '-' && !following.any isSpace) ||
      (!flow && (c == '?' || c == ':') && !isGap following) then takePlain
  else refuse

/-- Take all tokens. -/
def takeTokens : Nat → Lex Unit
  | 0 => refuse
  | fuel + 1 => do
    skipToToken ((← get).cursor.rest.length + 1)
    dropStaleKeys
    let l ← get
    unroll (l.cursor.column + 1)
    match l.cursor.peek with
    | none =>
      unroll 0
      dropKey
    | some c =>
      takeToken c
      takeTokens fuel

/-- The tokens of a text. -/
def tokens? (text : List Char) : Option (List Token) :=
  if text.any isForbidden then none
  else (takeTokens (text.length + 2) (.start text)).map fun r => r.2.tokens.toList

end CipherCorpus.Yaml
