import CipherCorpus.Json.Value

/-!
# Architectures and their compilers

The catalog lists the targets in the order in which they are probed, listed and compiled. A registry
holds those whose compiler is there; there is at least one.
-/

namespace CipherCorpus

/-- One target of cross-compilation. -/
structure Architecture where
  /-- Name in file names and in the manifest. -/
  id : String
  /-- Compiler program. -/
  compiler : String
  flags : List String
  triplet : String
  description : String
deriving DecidableEq, Repr

namespace Architecture

def catalog : List Architecture := [
  ⟨"x86", "gcc", ["-m32"], "i686-linux-gnu", "Intel x86 32-bit"⟩,
  ⟨"x86-64", "gcc", ["-m64"], "x86_64-linux-gnu", "Intel x86 64-bit"⟩,
  ⟨"arm", "arm-linux-gnueabi-gcc", [], "arm-linux-gnueabi", "ARM 32-bit"⟩,
  ⟨"aarch64", "aarch64-linux-gnu-gcc", [], "aarch64-linux-gnu", "ARM 64-bit (AArch64)"⟩,
  ⟨"mips", "mips-linux-gnu-gcc", [], "mips-linux-gnu", "MIPS 32-bit"⟩,
  ⟨"riscv", "riscv64-linux-gnu-gcc", [], "riscv64-linux-gnu", "RISC-V 64-bit"⟩]

/-- The catalog entry of an id. -/
def find? (id : String) : Option Architecture := catalog.find? (·.id == id)

end Architecture

/-- The architectures that can be compiled for here, in catalog order. -/
structure Registry where
  available : List Architecture
deriving DecidableEq, Repr

/-- Why there is no registry. -/
inductive RegistryError where
  | noToolchains
deriving DecidableEq, Repr

def RegistryError.message : RegistryError → String
  | noToolchains => "No cross-compilers found; install at least one toolchain first"

namespace Registry

/-- The architectures that `probe` accepts. -/
def probe (accepts : Architecture → Bool) : Except RegistryError Registry :=
  let available := Architecture.catalog.filter accepts
  if available.isEmpty then .error .noToolchains else .ok ⟨available⟩

def ids (r : Registry) : List String := r.available.map (·.id)

def offers (r : Registry) (id : String) : Bool := r.available.any (·.id == id)

/-- The profile of an available architecture. -/
def find? (r : Registry) (id : String) : Option Architecture := r.available.find? (·.id == id)

end Registry

/-- What is told about one architecture of the catalog. -/
structure ToolchainRow where
  architecture : Architecture
  available : Bool

/-- Every architecture of the catalog, with its availability. -/
def toolchainRows (accepts : Architecture → Bool) : List ToolchainRow :=
  Architecture.catalog.map fun a => ⟨a, accepts a⟩

def ToolchainRow.toJson (t : ToolchainRow) : Json.Value :=
  .record [("id", .text t.architecture.id), ("description", .text t.architecture.description),
    ("compiler", .text t.architecture.compiler), ("target_triplet", .text t.architecture.triplet),
    ("available", .truth t.available)]

end CipherCorpus
