import CipherCorpus.Json.Decode
import CipherCorpus.Config.Basic
import CipherCorpus.Manifest
import CipherCorpus.Store.Row

/-!
# The records of a dataset as JSON

Each kind of record has its JSON value, the decoder of its shape, and the way back from a value of
that shape.
-/

namespace CipherCorpus.Json

/-- A record with a JSON form. -/
class Document (α : Type) where
  toJson : α → Value
  decoder : Decoder
  ofJson? : Value → Option α

export Document (toJson)

/-- Read a document that holds one record. -/
def Document.read (α : Type) [Document α] (s : Input) : Except Fault α := do
  match Document.ofJson? (← decode (Document.decoder α) s) with
  | some x => return x
  | none => throw .mismatch

namespace Value

/-- The value of a field, if the record has it. -/
def field? (v : Value) (name : String) : Option Value :=
  match v with
  | record fields => fields.lookup name
  | _ => none

def text? : Value → Option String
  | text s => some s
  | _ => none

def word? : Value → Option UInt64
  | count n => if n < Text.wordLimit then some (UInt64.ofNat n) else none
  | _ => none

def truth? : Value → Option Bool
  | truth b => some b
  | _ => none

def list? : Value → Option (List Value)
  | list items => some items
  | _ => none

def textField? (v : Value) (name : String) : Option String := (v.field? name).bind text?

def wordField? (v : Value) (name : String) : Option UInt64 := (v.field? name).bind word?

/-- What `read` makes of a field that may be missing or null. -/
def maybeField {α : Type} (v : Value) (name : String) (read : Value → Option α) : Option (Option α) :=
  match v.field? name with
  | none => some none
  | some null => some none
  | some w => (read w).map some

def texts? (v : Value) : Option (List String) := v.list?.bind (·.mapM text?)

/-- A list of texts. -/
def texts (ss : List String) : Value := list (ss.map text)

def path (p : Path) : Value := text p.text

end Value

open Value

/-- A field that has to be there. -/
def need (name : String) (d : Decoder) : Field := ⟨name, .required, d⟩

/-- A field that may be missing. -/
def may (name : String) (d : Decoder) : Field := ⟨name, .optional, d⟩

/-- A value or null that may be missing by name. -/
def mayByName (name : String) (d : Decoder) : Field := ⟨name, .requiredByPosition, nullable d⟩

/-- The fields that are there. -/
def present (fields : List (String × Option Value)) : Value :=
  .record (fields.filterMap fun f => f.2.map fun v => (f.1, v))

instance : Document Cell where
  toJson c := .record [("architecture", .text c.architecture),
    ("optimization", .text c.optimization), ("function", .text c.function)]
  decoder := record [need "architecture" text, need "optimization" text, need "function" text]
  ofJson? v := do
    return ⟨← v.textField? "architecture", ← v.textField? "optimization", ← v.textField? "function"⟩

instance : Document Artifact where
  toJson a := .record [("library", .text a.library), ("function", .text a.function),
    ("architecture", .text a.architecture), ("optimization", .text a.optimization),
    ("compiler", .text a.compiler), ("binary_path", .path a.binaryPath),
    ("source_path", .path a.sourcePath), ("size", .word a.size), ("md5", .text a.md5)]
  decoder := record [need "library" text, need "function" text, need "architecture" text,
    need "optimization" text, need "compiler" text, need "binary_path" text,
    need "source_path" text, need "size" count, need "md5" text]
  ofJson? v := do
    return {
      library := ← v.textField? "library", function := ← v.textField? "function",
      architecture := ← v.textField? "architecture", optimization := ← v.textField? "optimization",
      compiler := ← v.textField? "compiler", binaryPath := ⟨← v.textField? "binary_path"⟩,
      sourcePath := ⟨← v.textField? "source_path"⟩, size := ← v.wordField? "size",
      md5 := ← v.textField? "md5" }

instance : Document ManifestEntry where
  toJson e := .record [("binary_path", .path e.binaryPath), ("source_path", .path e.sourcePath),
    ("architecture", .text e.architecture), ("optimization", .text e.optimization),
    ("function", .text e.function), ("library", .text e.library), ("size", .word e.size),
    ("md5", .text e.md5)]
  decoder := record [need "binary_path" text, need "source_path" text, need "architecture" text,
    need "optimization" text, need "function" text, need "library" text, need "size" count,
    need "md5" text]
  ofJson? v := do
    return {
      binaryPath := ⟨← v.textField? "binary_path"⟩, sourcePath := ⟨← v.textField? "source_path"⟩,
      architecture := ← v.textField? "architecture", optimization := ← v.textField? "optimization",
      function := ← v.textField? "function", library := ← v.textField? "library",
      size := ← v.wordField? "size", md5 := ← v.textField? "md5" }

/-- A map as a record of its values. -/
def tableJson {α : Type} (f : α → Value) (m : OrderedMap String α) : Value :=
  .record (m.entries.map fun e => (e.1, f e.2))

/-- The map of a record of values. -/
def tableOf? {α : Type} (f : Value → Option α) : Value → Option (OrderedMap String α)
  | .record fields => (fields.mapM fun e => (f e.2).map fun x => (e.1, x)).map OrderedMap.ofList
  | _ => none

instance : Document Manifest where
  toJson m := tableJson (tableJson toJson) m.libraries
  decoder := table (table (Document.decoder ManifestEntry))
  ofJson? v := (tableOf? (tableOf? Document.ofJson?) v).map Manifest.mk

/-- The decoder of `FoundFunction`'s fields, with a given reading of the evidence. -/
def functionFields (evidence : Decoder) : List Field :=
  [need "binary_path" text, need "address" count, mayByName "size" count, need "name" text,
    need "provenance" evidence]

def evidenceWords : List String := ["symbol", "heuristic"]

def functionJson (f : FoundFunction) : List (String × Value) :=
  [("binary_path", .path f.binaryPath), ("address", .word f.address),
    ("size", (f.size.map .word).getD .null), ("name", .text f.name),
    ("provenance", .text f.evidence.name)]

def functionOf? (v : Value) : Option FoundFunction := do
  return {
    binaryPath := ⟨← v.textField? "binary_path"⟩, address := ← v.wordField? "address",
    size := ← v.maybeField "size" word?, name := ← v.textField? "name",
    evidence := ← (v.textField? "provenance").bind Evidence.ofName? }

instance : Document FoundFunction where
  toJson f := .record (functionJson f)
  decoder := record (functionFields (oneOf evidenceWords))
  ofJson? := functionOf?

instance : Document Label where
  toJson l := present [("algorithm", some (.text l.algorithm)), ("library", l.library.map .text),
    ("architecture", l.architecture.map .text), ("optimization", l.optimization.map .text),
    ("function_name", l.functionName.map .text), ("is_crypto", some (.truth l.isCrypto))]
  decoder := record [need "algorithm" text, may "library" (nullable text),
    may "architecture" (nullable text), may "optimization" (nullable text),
    may "function_name" (nullable text), need "is_crypto" truth]
  ofJson? v := do
    return {
      algorithm := ← v.textField? "algorithm", library := ← v.maybeField "library" text?,
      architecture := ← v.maybeField "architecture" text?,
      optimization := ← v.maybeField "optimization" text?,
      functionName := ← v.maybeField "function_name" text?,
      isCrypto := ← (v.field? "is_crypto").bind truth? }

instance : Document LabeledFunction where
  toJson f := .record (functionJson f.function ++ [("label", toJson f.label)])
  decoder := flattened (functionFields (oneOfWith looseUnit evidenceWords))
    (need "label" (Document.decoder Label))
  ofJson? v := do return ⟨← functionOf? v, ← (v.field? "label").bind Document.ofJson?⟩

instance : Document BuildRun where
  toJson r := .record [("config_hash", .optional r.configHash), ("status", .text r.status.name),
    ("attempted", .word r.attempted), ("succeeded", .word r.succeeded), ("failed", .word r.failed),
    ("libraries_built", .word r.builtLibraries), ("started_at", .text r.startedAt),
    ("finished_at", .text r.finishedAt)]
  decoder := record [mayByName "config_hash" text, need "status" (oneOf ["succeeded", "partial", "failed"]),
    need "attempted" count, need "succeeded" count, need "failed" count,
    need "libraries_built" count, need "started_at" text, need "finished_at" text]
  ofJson? v := do
    return {
      configHash := ← v.maybeField "config_hash" text?,
      status := ← (v.textField? "status").bind RunStatus.ofName?,
      attempted := ← v.wordField? "attempted", succeeded := ← v.wordField? "succeeded",
      failed := ← v.wordField? "failed", builtLibraries := ← v.wordField? "libraries_built",
      startedAt := ← v.textField? "started_at", finishedAt := ← v.textField? "finished_at" }

def countOf? : Value → Option (String × UInt64)
  | .list [name, n] => do return (← name.text?, ← n.word?)
  | _ => none

instance : Document CorpusCounts where
  toJson s := .record [("functions", .word s.functions), ("crypto_functions", .word s.cryptoFunctions),
    ("binaries", .word s.binaries),
    ("by_algorithm", .list (s.byAlgorithm.map fun a => .list [.text a.1, .word a.2]))]
  decoder := record [need "functions" count, need "crypto_functions" count, need "binaries" count,
    need "by_algorithm" (list (pair text count))]
  ofJson? v := do
    return {
      functions := ← v.wordField? "functions", cryptoFunctions := ← v.wordField? "crypto_functions",
      binaries := ← v.wordField? "binaries",
      byAlgorithm := ← ((v.field? "by_algorithm").bind list?).bind (·.mapM countOf?) }

instance : Document Library where
  toJson l := present [("name", some (.text l.name)), ("version", l.version.map .text),
    ("url", l.url.map .text), ("functions", l.functions.map .texts)]
  decoder := record [need "name" text, may "version" (nullable text), may "url" (nullable text),
    may "functions" (nullable (list text))]
  ofJson? v := do
    return {
      name := ← v.textField? "name", version := ← v.maybeField "version" text?,
      url := ← v.maybeField "url" text?, functions := ← v.maybeField "functions" texts? }

/-- What `read` makes of a field, or the standard setting when it is missing. -/
def settingOr {α : Type} (standard : α) (v : Value) (name : String) (read : Value → Option α) :
    Option α :=
  match v.field? name with
  | none => some standard
  | some w => read w

instance : Document Config where
  toJson c := .record [("crypto_libraries", .list (c.libraries.map toJson)),
    ("optimization_levels", .texts c.levels), ("compiler", .text c.compiler),
    ("jobs", .word c.jobs), ("compile_timeout_secs", .word c.compileSeconds),
    ("symbol_timeout_secs", .word c.symbolSeconds)]
  decoder := record [may "crypto_libraries" (list (Document.decoder Library)),
    may "optimization_levels" (list text), may "compiler" text, may "jobs" count,
    may "compile_timeout_secs" count, may "symbol_timeout_secs" count]
  ofJson? v := do
    let standard := Config.standard
    return {
      libraries := ← settingOr standard.libraries v "crypto_libraries" fun w =>
        w.list?.bind (·.mapM Document.ofJson?)
      levels := ← settingOr standard.levels v "optimization_levels" texts?
      compiler := ← settingOr standard.compiler v "compiler" text?
      jobs := ← settingOr standard.jobs v "jobs" word?
      compileSeconds := ← settingOr standard.compileSeconds v "compile_timeout_secs" word?
      symbolSeconds := ← settingOr standard.symbolSeconds v "symbol_timeout_secs" word? }

end CipherCorpus.Json
