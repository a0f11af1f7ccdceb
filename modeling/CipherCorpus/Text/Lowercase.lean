import CipherCorpus.Text.CaseTable

/-!
# Lower case

Full lower-casing without a locale: one character goes to one character, except that the dotted
capital I becomes two and a capital sigma that ends a word becomes the final sigma.
-/

namespace CipherCorpus.Text

def inRanges (table : List (Nat × Nat)) (c : Char) : Bool :=
  table.any fun r => r.1 ≤ c.toNat && c.toNat ≤ r.2

def isCased : Char → Bool := inRanges casedRanges

def isCaseIgnorable : Char → Bool := inRanges caseIgnorableRanges

def LowerRun.holds (r : LowerRun) (n : Nat) : Bool :=
  r.first ≤ n && n ≤ r.last && (n - r.first) % r.step == 0

/-- Lower-case form of a character on its own. -/
def lowerChar (c : Char) : List Char :=
  let n := c.toNat
  if n < 128 then [c.toLower]
  else if n = 0x130 then ['i', Char.ofNat 0x307]
  else
    match lowerRuns.find? (·.holds n) with
    | some r => [Char.ofNat (n + r.shift).toNat]
    | none => [c]

/-- The nearest character that takes part in case decisions has case. -/
def nearestIsCased (s : List Char) : Bool :=
  match s.dropWhile isCaseIgnorable with
  | c :: _ => isCased c
  | [] => false

/-- Here `before` holds what has been read, last first. -/
def lowerFrom (before : List Char) : List Char → List Char
  | [] => []
  | c :: rest =>
    let low :=
      if c.toNat = 0x3a3 then
        [Char.ofNat (if nearestIsCased before && !nearestIsCased rest then 0x3c2 else 0x3c3)]
      else lowerChar c
    low ++ lowerFrom (c :: before) rest

/-- Lower-case form of a text. -/
def lower (s : List Char) : List Char := lowerFrom [] s

end CipherCorpus.Text
