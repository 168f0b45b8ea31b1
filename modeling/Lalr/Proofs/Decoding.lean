import Lalr.Proofs.Encoding

namespace Lalr.PackedTables

theorem lengthOf_cases (word : Word) :
    (∃ n < 2147483648, word = Int32.ofNat n) ∨ ∃ fault, lengthOf word = malformed fault := by
  by_cases hneg : word.toInt < 0
  · exact .inr ⟨.negativeLength, if_pos hneg⟩
  · have hlt := word.toInt_lt
    refine .inl ⟨word.toInt.toNat, by omega, ?_⟩
    rw [← Int32.ofInt_eq_ofNat, Int.toNat_of_nonneg (Int.not_lt.mp hneg), Int32.ofInt_toInt]

theorem ofInt?_cases (kind : Kind) (word : Word) :
    (∃ i : Ident kind, word = Int32.ofInt i.index) ∨ Ident.ofInt? kind word.toInt = none := by
  cases hi : Ident.ofInt? kind word.toInt with
  | none => exact .inr rfl
  | some i =>
      refine .inl ⟨i, ?_⟩
      rw [← Ident.ofInt?_eq_some.mp hi, Int32.ofInt_toInt]

/-- Words begin with the encoding of a row, or no row is read. -/
theorem decodeRow_cases (words : List Word) :
    (∃ row rest, RowShape row ∧ words = encodeRow row ++ rest) ∨
      ∃ fault, decodeRow words = malformed fault := by
  cases words with
  | nil => exact .inr ⟨_, rfl⟩
  | cons word words =>
      rcases lengthOf_cases word with ⟨length, hlt, rfl⟩ | ⟨fault, hfault⟩
      · have hdecode : decodeRow (Int32.ofNat length :: words) =
            if length < 2 ∨ length % 2 ≠ 0 then malformed .rowLength
            else if (words.take length).length < length then malformed (.endOfInput "a row")
            else if (words.take length)[length - 2]? ≠ some .close then malformed .unterminatedRow
            else .ok (words.take length, words.drop length) := by
          simp only [decodeRow, lengthOf_ofNat hlt, List.splitAt_eq]
        rw [hdecode]
        by_cases hlength : length < 2 ∨ length % 2 ≠ 0
        · exact .inr ⟨_, if_pos hlength⟩
        rw [if_neg hlength]
        by_cases hshort : (words.take length).length < length
        · exact .inr ⟨_, if_pos hshort⟩
        rw [if_neg hshort]
        by_cases hclosed : (words.take length)[length - 2]? = some .close
        · have htake : (words.take length).length = length :=
            Nat.le_antisymm (List.length_take_le _ _) (Nat.not_lt.mp hshort)
          refine .inl ⟨words.take length, words.drop length, ⟨?_, ?_, ?_⟩, ?_⟩
          · rw [htake]
            omega
          · rwa [htake]
          · rwa [htake]
          · rw [encodeRow, htake, List.cons_append, List.take_append_drop]
        · exact .inr ⟨_, if_pos hclosed⟩
      · refine .inr ⟨fault, ?_⟩
        simp only [decodeRow, hfault, malformed]

theorem decodeRows_cases (count : Nat) (before : Array (List Word)) (words : List Word) :
    (∃ (rows : List (List Word)) (rest : List Word), rows.length = count ∧
      (∀ row ∈ rows, RowShape row) ∧ words = rows.flatMap encodeRow ++ rest) ∨
      ∃ fault, decodeRows count before words = malformed fault := by
  induction count generalizing before words with
  | zero => exact .inl ⟨[], words, rfl, nofun, rfl⟩
  | succ count ih =>
      rcases decodeRow_cases words with ⟨row, rest, hrow, rfl⟩ | ⟨fault, hfault⟩
      · rcases ih (before.push row) rest with ⟨rows, rest, rfl, hrows, rfl⟩ | ⟨fault, hfault⟩
        · refine .inl ⟨row :: rows, rest, rfl, List.forall_mem_cons.mpr ⟨hrow, hrows⟩, ?_⟩
          rw [List.flatMap_cons, List.append_assoc]
        · refine .inr ⟨fault, ?_⟩
          simp only [decodeRows, decodeRow_encodeRow hrow, hfault]
      · refine .inr ⟨fault, ?_⟩
        simp only [decodeRows, hfault, malformed]

def readCount (words : List Word) (next : Nat → List Word → Except Violation PackedTables) :
    Except Violation PackedTables :=
  (decodeHeader words).bind fun read => (lengthOf read.1).bind fun n => next n read.2

def readIdent (kind : Kind) (fault : Malformation) (words : List Word)
    (next : Ident kind → List Word → Except Violation PackedTables) :
    Except Violation PackedTables :=
  (decodeHeader words).bind fun read =>
    match Ident.ofInt? kind read.1.toInt with
    | none => malformed fault
    | some i => next i read.2

def readRows (m n : Nat) (s : StateId) (p : ProductionId) (words : List Word) :
    Except Violation PackedTables :=
  (decodeRows (m + n) #[] words).bind fun read =>
    if read.2 ≠ [] then malformed .trailingWords
    else if m ≤ s.index then malformed .startStateRange
    else .ok ⟨read.1.extract 0 m, read.1.extract m read.1.size, s, p⟩

theorem decode_eq (words : List Word) :
    decode words = readCount words fun m words => readCount words fun n words =>
      readIdent .state .stateRange words fun s words =>
        readIdent .production .startProductionRange words fun p words =>
          readRows m n s p words := by
  refine congrArg (Except.bind (decodeHeader words)) (funext fun read => ?_)
  refine congrArg (Except.bind (lengthOf read.1)) (funext fun m => ?_)
  refine congrArg (Except.bind (decodeHeader read.2)) (funext fun read => ?_)
  refine congrArg (Except.bind (lengthOf read.1)) (funext fun n => ?_)
  refine congrArg (Except.bind (decodeHeader read.2)) (funext fun read => ?_)
  obtain ⟨word, words⟩ := read
  simp only
  cases Ident.ofInt? .state word.toInt with
  | none => rfl
  | some s =>
      refine congrArg (Except.bind (decodeHeader words)) (funext fun read => ?_)
      obtain ⟨word, words⟩ := read
      simp only
      cases Ident.ofInt? .production word.toInt with
      | none => rfl
      | some p => rfl

theorem readCount_cases (words : List Word)
    (next : Nat → List Word → Except Violation PackedTables) :
    (∃ n < 2147483648, ∃ rest, words = Int32.ofNat n :: rest ∧
      readCount words next = next n rest) ∨ ∃ fault, readCount words next = malformed fault := by
  rcases words with _ | ⟨word, words⟩
  · exact .inr ⟨_, rfl⟩
  have hread : readCount (word :: words) next = (lengthOf word).bind fun n => next n words := rfl
  rcases lengthOf_cases word with ⟨n, hn, rfl⟩ | ⟨fault, hfault⟩
  · refine .inl ⟨n, hn, words, rfl, ?_⟩
    rw [hread, lengthOf_ofNat hn]
    rfl
  · refine .inr ⟨fault, ?_⟩
    rw [hread, hfault]
    rfl

theorem readIdent_cases (kind : Kind) (fault : Malformation) (words : List Word)
    (next : Ident kind → List Word → Except Violation PackedTables) :
    (∃ (i : Ident kind) (rest : List Word), words = Int32.ofInt i.index :: rest ∧
      readIdent kind fault words next = next i rest) ∨
      ∃ fault', readIdent kind fault words next = malformed fault' := by
  rcases words with _ | ⟨word, words⟩
  · exact .inr ⟨_, rfl⟩
  rcases ofInt?_cases kind word with ⟨i, rfl⟩ | hnone
  · refine .inl ⟨i, words, rfl, ?_⟩
    simp only [readIdent, decodeHeader, Except.bind, ofInt?_index]
  · refine .inr ⟨fault, ?_⟩
    simp only [readIdent, decodeHeader, Except.bind, hnone]

theorem readRows_cases (m n : Nat) (s : StateId) (p : ProductionId) (words : List Word) :
    (∃ rows : List (List Word), rows.length = m + n ∧ (∀ row ∈ rows, RowShape row) ∧
      s.index < m ∧ words = rows.flatMap encodeRow) ∨
      ∃ fault, readRows m n s p words = malformed fault := by
  rcases decodeRows_cases (m + n) #[] words with
    ⟨rows, rest, hlength, hrows, rfl⟩ | ⟨fault, hfault⟩
  · have hread := decodeRows_flatMap hrows #[] rest
    rw [hlength] at hread
    rw [readRows, hread, Except.bind]
    by_cases hrest : rest = []
    · by_cases hs : m ≤ s.index
      · refine .inr ⟨.startStateRange, ?_⟩
        simp only [hrest, hs, ne_eq, not_true, if_false, if_true]
      · refine .inl ⟨rows, hlength, hrows, Nat.not_le.mp hs, ?_⟩
        rw [hrest, List.append_nil]
    · exact .inr ⟨.trailingWords, if_pos hrest⟩
  · rw [readRows, hfault]
    exact .inr ⟨fault, rfl⟩

theorem exists_encodable {m n : Nat} (hm : m < 2147483648) (hn : n < 2147483648) {s : StateId}
    (p : ProductionId) {rows : List (List Word)} (hlength : rows.length = m + n)
    (hrows : ∀ row ∈ rows, RowShape row) (hs : s.index < m) :
    ∃ tables : PackedTables, tables.Encodable ∧
      Int32.ofNat m :: Int32.ofNat n :: Int32.ofInt s.index :: Int32.ofInt p.index ::
        rows.flatMap encodeRow = tables.encode := by
  have htake : (rows.take m).length = m := by
    rw [List.length_take]
    omega
  have hdrop : (rows.drop m).length = n := by
    rw [List.length_drop]
    omega
  refine ⟨⟨(rows.take m).toArray, (rows.drop m).toArray, s, p⟩, ⟨?_, ?_, ?_, ?_⟩, ?_⟩
  · rwa [List.take_append_drop]
  · rwa [List.size_toArray, htake]
  · rwa [List.size_toArray, hdrop]
  · rwa [List.size_toArray, htake]
  · rw [encode, List.size_toArray, List.size_toArray, htake, hdrop, List.take_append_drop]

/-- Words are the encoding of tables, or they are malformed. -/
theorem decode_cases (words : List Word) :
    (∃ tables : PackedTables, tables.Encodable ∧ words = tables.encode) ∨
      ∃ fault, decode words = malformed fault := by
  rw [decode_eq]
  rcases readCount_cases words _ with ⟨m, hm, words, rfl, hread⟩ | hfault
  case inr => exact .inr hfault
  rw [hread]
  rcases readCount_cases words _ with ⟨n, hn, words, rfl, hread⟩ | hfault
  case inr => exact .inr hfault
  rw [hread]
  rcases readIdent_cases .state .stateRange words _ with ⟨s, words, rfl, hread⟩ | hfault
  case inr => exact .inr hfault
  rw [hread]
  rcases readIdent_cases .production .startProductionRange words _ with
    ⟨p, words, rfl, hread⟩ | hfault
  case inr => exact .inr hfault
  rw [hread]
  rcases readRows_cases m n s p words with ⟨rows, hlength, hrows, hs, rfl⟩ | hfault
  case inr => exact .inr hfault
  exact .inl (exists_encodable hm hn p hlength hrows hs)

/-- Decoding undoes nothing but encoding. -/
theorem decode_eq_ok {words : List Word} {tables : PackedTables} :
    decode words = .ok tables ↔ tables.Encodable ∧ words = tables.encode := by
  constructor
  · intro h
    rcases decode_cases words with ⟨tables', hencodable, rfl⟩ | ⟨fault, hfault⟩
    · rw [decode_encode hencodable] at h
      cases h
      exact ⟨hencodable, rfl⟩
    · rw [hfault] at h
      cases h
  · rintro ⟨hencodable, rfl⟩
    exact decode_encode hencodable

/-- Decoding accepts the encodings of tables that words can hold, each as that of the tables which
it was made from, and refuses all other words as malformed.  Packed tables come back, provided that
words can count what is in them and their start state is one of the rows. -/
theorem decode_exact :
    (∀ (words : List Word) (tables : PackedTables),
      decode words = .ok tables ↔ tables.Encodable ∧ words = tables.encode) ∧
    (∀ words : List Word, (∀ tables : PackedTables, tables.Encodable → words ≠ tables.encode) →
      ∃ fault, decode words = .error (.malformedTable fault)) ∧
    ∀ (actions : ActionTable) (gotos : GotoTable) (s : StateId) (p : ProductionId)
      (tables : PackedTables), pack actions gotos s p = .ok tables → tables.Countable →
      s.index < actions.rows.size → decode tables.encode = .ok tables := by
  refine ⟨fun words tables => decode_eq_ok, fun words hno => ?_, ?_⟩
  · rcases decode_cases words with ⟨tables, hencodable, rfl⟩ | hfault
    · exact absurd rfl (hno tables hencodable)
    · exact hfault
  · intro actions gotos s p tables hpack hcount hs
    exact decode_encode (hcount.encodable hpack hs)

theorem decode_exact_assorted :
    ∃ tables, pack assorted assortedGotos .start .start = .ok tables ∧
      decode tables.encode = .ok tables ∧ tables.Encodable ∧
      ∃ fault, decode [] = .error (.malformedTable fault) := by
  obtain ⟨tables, htables⟩ := @exists_pack assorted assortedGotos .start .start (by decide)
    (by decide)
  have hfits : Fits assorted assortedGotos := by constructor <;> decide
  have hdecode := decode_exact.2.2 _ _ _ _ _ htables (hfits.countable htables) (by decide)
  refine ⟨tables, htables, hdecode, ((decode_exact.1 _ _).mp hdecode).1, ?_⟩
  exact decode_exact.2.1 [] fun _ _ => nofun

end Lalr.PackedTables
