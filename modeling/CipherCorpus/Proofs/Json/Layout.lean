import CipherCorpus.Json.Scan
import CipherCorpus.Proofs.Json.Scan

/-!
# One writer for both layouts of JSON text

`compact` and `prettyAt` differ only in the gaps between the tokens.  `written` takes these gaps from a
layout, so what is proved of it holds for both (`compact_eq_written`, `prettyAt_eq_written`).
-/

namespace CipherCorpus.Json

/-- Only gaps. -/
def Gap (s : List Char) : Prop := ∀ c ∈ s, isGap (some c) = true

theorem Gap.nil : Gap [] := fun c h => by cases h

/-- The gaps of a text: before an item at a depth, and after a colon. -/
structure GapLayout where
  line : Nat → List Char
  colon : List Char
  gap_line : ∀ depth, Gap (line depth)
  gap_colon : Gap colon

theorem gap_newLine (depth : Nat) : Gap (newLine depth) := by
  intro c hc
  rcases List.mem_cons.mp hc with rfl | hc
  · decide
  · rw [List.eq_of_mem_replicate hc]
    decide

/-- No gaps at all. -/
def GapLayout.dense : GapLayout := ⟨fun _ => [], [], fun _ => .nil, .nil⟩

/-- Every item on its own line. -/
def GapLayout.lines : GapLayout :=
  ⟨newLine, [' '], gap_newLine, fun c hc => by rw [List.mem_singleton.mp hc]; decide⟩

mutual

/-- A value with the gaps of a layout. -/
def written (g : GapLayout) (depth : Nat) : Value → List Char
  | .null => "null".toList
  | .truth b => truthChars b
  | .count n => Nat.toDigits 10 n
  | .text s => textChars s
  | .list [] => ['[', ']']
  | .list (v :: rest) =>
    '[' :: g.line (depth + 1) ++ written g (depth + 1) v ++ writtenItems g (depth + 1) rest ++
      g.line depth ++ [']']
  | .record [] => [openBrace, closeBrace]
  | .record ((k, v) :: rest) =>
    openBrace :: g.line (depth + 1) ++ textChars k ++ ':' :: g.colon ++ written g (depth + 1) v ++
      writtenFields g (depth + 1) rest ++ g.line depth ++ [closeBrace]

/-- The items after the first. -/
def writtenItems (g : GapLayout) (depth : Nat) : List Value → List Char
  | [] => []
  | v :: rest => ',' :: g.line depth ++ written g depth v ++ writtenItems g depth rest

/-- The fields after the first. -/
def writtenFields (g : GapLayout) (depth : Nat) : List (String × Value) → List Char
  | [] => []
  | (k, v) :: rest =>
    ',' :: g.line depth ++ textChars k ++ ':' :: g.colon ++ written g depth v ++
      writtenFields g depth rest

end

mutual

theorem prettyAt_eq_written (depth : Nat) : ∀ v : Value,
    prettyAt depth v = written .lines depth v
  | .null => by rw [prettyAt, written]
  | .truth b => by rw [prettyAt, written]
  | .count n => by rw [prettyAt, written]
  | .text s => by rw [prettyAt, written]
  | .list [] => by rw [prettyAt, written]
  | .list (v :: rest) => by
    rw [prettyAt, written, prettyAt_eq_written (depth + 1) v, prettyItems_eq_written (depth + 1) rest]
    rfl
  | .record [] => by rw [prettyAt, written]
  | .record ((k, v) :: rest) => by
    rw [prettyAt, written, prettyAt_eq_written (depth + 1) v, prettyFields_eq_written (depth + 1) rest]
    simp [GapLayout.lines]

theorem prettyItems_eq_written (depth : Nat) : ∀ items : List Value,
    prettyItems depth items = writtenItems .lines depth items
  | [] => by rw [prettyItems, writtenItems]
  | v :: rest => by
    rw [prettyItems, writtenItems, prettyAt_eq_written depth v, prettyItems_eq_written depth rest]
    rfl

theorem prettyFields_eq_written (depth : Nat) : ∀ fields : List (String × Value),
    prettyFields depth fields = writtenFields .lines depth fields
  | [] => by rw [prettyFields, writtenFields]
  | (k, v) :: rest => by
    rw [prettyFields, writtenFields, prettyAt_eq_written depth v, prettyFields_eq_written depth rest]
    simp [GapLayout.lines]

end

/-- All items of a list. -/
def allItems (g : GapLayout) (depth : Nat) : List Value → List Char
  | [] => []
  | v :: rest => written g depth v ++ writtenItems g depth rest

/-- All fields of a record. -/
def allFields (g : GapLayout) (depth : Nat) : List (String × Value) → List Char
  | [] => []
  | (k, v) :: rest =>
    textChars k ++ ':' :: g.colon ++ written g depth v ++ writtenFields g depth rest

mutual

theorem compact_eq_written (depth : Nat) : ∀ v : Value, compact v = written .dense depth v
  | .null => by rw [compact, written]
  | .truth b => by rw [compact, written]
  | .count n => by rw [compact, written]
  | .text s => by rw [compact, written]
  | .list items => by
    rw [compact, compactItems_eq_written (depth + 1) items]
    cases items with
    | nil => rw [written, allItems]; rfl
    | cons v rest => rw [written, allItems]; simp [GapLayout.dense]
  | .record fields => by
    rw [compact, compactFields_eq_written (depth + 1) fields]
    cases fields with
    | nil => rw [written, allFields]; rfl
    | cons f rest => rw [written, allFields]; simp [GapLayout.dense]

theorem compactItems_eq_written (depth : Nat) : ∀ items : List Value,
    compactItems items = allItems .dense depth items
  | [] => by rw [compactItems, allItems]
  | [v] => by
    rw [compactItems, allItems, writtenItems, compact_eq_written depth v, List.append_nil]
  | v :: w :: rest => by
    rw [compactItems, compactItems_eq_written depth (w :: rest), compact_eq_written depth v]
    rw [allItems, allItems, writtenItems]
    simp [GapLayout.dense]

theorem compactFields_eq_written (depth : Nat) : ∀ fields : List (String × Value),
    compactFields fields = allFields .dense depth fields
  | [] => by rw [compactFields, allFields]
  | [(k, v)] => by
    rw [compactFields, allFields, writtenFields, compact_eq_written depth v, List.append_nil]
    simp [GapLayout.dense]
  | (k, v) :: f :: rest => by
    rw [compactFields, compactFields_eq_written depth (f :: rest), compact_eq_written depth v]
    rw [allFields, allFields, writtenFields]
    simp [GapLayout.dense]

end

end CipherCorpus.Json
