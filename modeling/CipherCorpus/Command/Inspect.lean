import CipherCorpus.Command.Place
import CipherCorpus.Labeler
import CipherCorpus.Manifest.File

/-!
# Commands about the host and single binaries
-/

namespace CipherCorpus.Command

/-- List the architectures and whether their compilers are there. -/
def toolchains (json : Bool) : Report Unit := do
  let infos ← look fun h => toolchainRows (Tools.hasCompiler h)
  if json then tell (Json.Value.list (infos.map (·.toJson))).prettyText
  else
    tell s!"Toolchains ({infos.countP (·.available)}/{infos.length} available):"
    for t in infos do
      let state := if t.available then "found" else "missing"
      let a := t.architecture
      tell s!"- {a.id} ({a.description}): {a.compiler} [{state}]"

/-- The functions of a binary as the host's tools find them. -/
def functionsOf (o : Outside) (binary : Path) : Report (List FoundFunction) := do
  let reader ← look (o.lister · symbolLimit)
  act (recoverFunctions reader binary)

/-- The binary that an argument names. -/
def resolve (text : String) : Report Path := do
  match ← look (binaryPath · text) with
  | .ok p => return p
  | .error e => throw e

/-- Show the functions of one binary. -/
def extractFunctions (o : Outside) (binary : String) (json : Bool) : Report Unit := do
  let path ← resolve binary
  let functions ← functionsOf o path
  if json then tell (Json.Value.list (functions.map Json.toJson)).prettyText
  else
    tell s!"Functions ({functions.length}) in {path.text}:"
    if functions.isEmpty then tell "  (none)"
    for f in functions do
      tell (s!"  - {f.name} @ {addressText f.address} size={sizeText f.size} " ++
        s!"[{f.evidence.name}]")

/-- Show the label of one binary and how many functions it covers. -/
def label (o : Outside) (binary : String) (json : Bool) : Report Unit := do
  let path ← resolve binary
  let labeler ← look fun h =>
    match Manifest.enclosing? h path with
    | some m => Labeler.ofManifest m
    | none => .empty
  let functions := labeler.labelAll path (← functionsOf o path)
  let label := labeler.labelOf path
  if json then
    tell (Json.Value.record [("binary", .text path.text), ("label", Json.toJson label),
      ("functions", .list (functions.map Json.toJson))]).prettyText
  else
    tell s!"Label for {path.text}:"
    tell s!"  Algorithm: {label.algorithm}"
    tell ("  Crypto: " ++ if label.isCrypto then "yes" else "no")
    tell ("  Library: " ++ label.library.getD "-")
    tell ("  Function: " ++ label.functionName.getD "-")
    tell ("  Architecture: " ++ label.architecture.getD "-")
    tell ("  Optimization: " ++ label.optimization.getD "-")
    tell s!"  Functions: {functions.length}"

end CipherCorpus.Command
