import CipherCorpus.Config.Basic
import CipherCorpus.Yaml.Decode

/-!
# Configurations as YAML
-/

namespace CipherCorpus

open Yaml.Document (need may)

/-- One library of a document. -/
def Library.ofYaml? (d : Yaml.Document) : Yaml.Read Library := fun node => do
  let fields ← d.fields ["name", "version", "url", "functions"] node
  return {
    name := ← need fields "name" d.text
    version := ← may fields "version" none (d.maybe d.text)
    url := ← may fields "url" none (d.maybe d.text)
    functions := ← may fields "functions" none (d.maybe (d.list d.text)) }

/-- The configuration in a document; settings that it leaves out are the standard ones. -/
def Config.ofYaml? (d : Yaml.Document) : Option Config := do
  let fields ← d.fields ["crypto_libraries", "optimization_levels", "compiler", "jobs",
    "compile_timeout_secs", "symbol_timeout_secs"] d.root
  return {
    libraries := ← may fields "crypto_libraries" standard.libraries (d.list (Library.ofYaml? d))
    levels := ← may fields "optimization_levels" standard.levels (d.list d.text)
    compiler := ← may fields "compiler" standard.compiler d.text
    jobs := ← may fields "jobs" standard.jobs d.word
    compileSeconds := ← may fields "compile_timeout_secs" standard.compileSeconds d.word
    symbolSeconds := ← may fields "symbol_timeout_secs" standard.symbolSeconds d.word }

end CipherCorpus
