import Lalr.Packed.Basic

namespace Lalr

namespace PackedTables

def encodeRow (row : List Word) : List Word :=
  Int32.ofNat row.length :: row

def encode (tables : PackedTables) : List Word :=
  Int32.ofNat tables.actionRows.size
  :: Int32.ofNat tables.gotoRows.size
  :: Int32.ofInt tables.startState.index
  :: Int32.ofInt tables.startProduction.index
  :: (tables.actionRows.toList ++ tables.gotoRows.toList).flatMap encodeRow

def malformed {α : Type} (fault : Malformation) : Except Violation α :=
  .error (.malformedTable fault)

def lengthOf (word : Word) : Except Violation Nat :=
  if word.toInt < 0 then malformed .negativeLength else .ok word.toInt.toNat

/-- Reads one row: its length, which is positive and even, and as many words, with the closing key
before the last one. -/
def decodeRow : List Word → Except Violation (List Word × List Word)
  | [] => malformed (.endOfInput "a row length")
  | word :: words =>
    match lengthOf word with
    | .error e => .error e
    | .ok length =>
      if length < 2 ∨ length % 2 ≠ 0 then malformed .rowLength
      else
        let (row, rest) := words.splitAt length
        if row.length < length then malformed (.endOfInput "a row")
        else if row[length - 2]? ≠ some .close then malformed .unterminatedRow
        else .ok (row, rest)

def decodeRows : Nat → Array (List Word) → List Word →
    Except Violation (Array (List Word) × List Word)
  | 0, rows, words => .ok (rows, words)
  | count + 1, rows, words =>
    match decodeRow words with
    | .error e => .error e
    | .ok (row, rest) => decodeRows count (rows.push row) rest

def decodeHeader : List Word → Except Violation (Word × List Word)
  | [] => malformed (.endOfInput "the header")
  | word :: words => .ok (word, words)

/-- Reads tables back from words.  Nothing may follow the last row, and the start state must have a
row. -/
def decode (words : List Word) : Except Violation PackedTables := do
  let (word, words) ← decodeHeader words
  let actionCount ← lengthOf word
  let (word, words) ← decodeHeader words
  let gotoCount ← lengthOf word
  let (word, words) ← decodeHeader words
  match Ident.ofInt? .state word.toInt with
  | none => malformed .stateRange
  | some startState =>
    let (word, words) ← decodeHeader words
    match Ident.ofInt? .production word.toInt with
    | none => malformed .startProductionRange
    | some startProduction =>
      let (rows, rest) ← decodeRows (actionCount + gotoCount) #[] words
      if rest ≠ [] then malformed .trailingWords
      else if actionCount ≤ startState.index then malformed .startStateRange
      else return {
        actionRows := rows.extract 0 actionCount
        gotoRows := rows.extract actionCount rows.size
        startState
        startProduction }

end PackedTables

end Lalr
