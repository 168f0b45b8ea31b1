import Mathlib.Data.Nat.Find
import Lalr.Proofs.Decoding

namespace Lalr

namespace PackedAction

theorem ofCode_cases (word : Word) :
    (∃ action : PackedAction, word = action.code ∧ ofCode word = .ok action) ∨
      (65536 < word.toInt ∧ ofCode word = .error (.malformedTable .stateRange)) ∨
      (word.toInt < -65536 ∧ ofCode word = .error (.malformedTable .reduceRange)) := by
  have hcode (action : PackedAction) (h : word.toInt = action.code.toInt) :
      ∃ action : PackedAction, word = action.code ∧ ofCode word = .ok action := by
    obtain rfl := Int32.toInt_inj.mp h
    exact ⟨action, rfl, ofCode_code action⟩
  rcases Int.lt_trichotomy word.toInt 0 with hneg | hzero | hpos
  · cases hp : Ident.ofInt? .production (-(word.toInt + 1)) with
    | none =>
        have hrange := Ident.ofInt?_eq_none.mp hp
        refine .inr (.inr ⟨by omega, ?_⟩)
        rw [ofCode, if_neg (by omega), if_neg (by omega), hp]
    | some p =>
        have hindex := Ident.ofInt?_eq_some.mp hp
        refine .inl (hcode (.reduce p) ?_)
        rw [toInt_code_reduce]
        omega
  · exact .inl (hcode .error (hzero.trans toInt_code_error.symm))
  · cases hnext : Ident.ofInt? .state (word.toInt - 1) with
    | none =>
        have hrange := Ident.ofInt?_eq_none.mp hnext
        refine .inr (.inl ⟨by omega, ?_⟩)
        rw [ofCode, if_neg (by omega), if_pos hpos, hnext]
    | some next =>
        have hindex := Ident.ofInt?_eq_some.mp hnext
        refine .inl (hcode (.shift next) ?_)
        rw [toInt_code_shift]
        omega

section Arithmetic

def sub? (a b : Word) : Option Word :=
  if a.toBitVec.ssubOverflow b.toBitVec then none else some (a - b)

def add? (a b : Int64) : Option Int64 :=
  if a.toBitVec.saddOverflow b.toBitVec then none else some (a + b)

def neg? (a : Int64) : Option Int64 :=
  if a.toBitVec.negOverflow then none else some (-a)

/-- The action of a code, reckoned in machine integers: a state in a word, a production in a long
one.  There is none where a step overflows. -/
def ofCodeIn? (word : Word) : Option (Except Violation PackedAction) :=
  if word = 0 then some (.ok .error)
  else if 0 < word then
    (sub? word 1).map fun state =>
      (Ident.ofInt? .state state.toInt).elim (.error (.malformedTable .stateRange))
        fun next => .ok (.shift next)
  else
    ((add? word.toInt64 1).bind neg?).map fun production =>
      (Ident.ofInt? .production production.toInt).elim (.error (.malformedTable .reduceRange))
        fun p => .ok (.reduce p)

theorem exists_sub? {a b : Word} (hle : -2147483648 ≤ a.toInt - b.toInt)
    (hlt : a.toInt - b.toInt < 2147483648) :
    ∃ c, sub? a b = some c ∧ c.toInt = a.toInt - b.toInt := by
  have hno : ¬ a.toBitVec.ssubOverflow b.toBitVec := by
    simp only [BitVec.ssubOverflow, Int32.toInt_toBitVec, Bool.or_eq_true, decide_eq_true_eq]
    omega
  exact ⟨a - b, if_neg hno, BitVec.toInt_sub_of_not_ssubOverflow hno⟩

theorem exists_add? {a b : Int64} (hle : -9223372036854775808 ≤ a.toInt + b.toInt)
    (hlt : a.toInt + b.toInt < 9223372036854775808) :
    ∃ c, add? a b = some c ∧ c.toInt = a.toInt + b.toInt := by
  have hno : ¬ a.toBitVec.saddOverflow b.toBitVec := by
    simp only [BitVec.saddOverflow, Int64.toInt_toBitVec, Bool.or_eq_true, decide_eq_true_eq]
    omega
  exact ⟨a + b, if_neg hno, BitVec.toInt_add_of_not_saddOverflow hno⟩

theorem exists_neg? {a : Int64} (hlt : -9223372036854775808 < a.toInt) :
    ∃ c, neg? a = some c ∧ c.toInt = -a.toInt := by
  have hno : ¬ a.toBitVec.negOverflow := by
    simp only [BitVec.negOverflow, Int64.toInt_toBitVec, beq_iff_eq]
    omega
  exact ⟨-a, if_neg hno, BitVec.toInt_neg_of_not_negOverflow hno⟩

/-- No step overflows, whatever the word, so that machine integers make no difference. -/
theorem ofCodeIn?_eq (word : Word) : ofCodeIn? word = some (ofCode word) := by
  have hle := word.le_toInt
  have hlt := word.toInt_lt
  rw [ofCodeIn?, ofCode]
  by_cases hzero : word = 0
  · rw [if_pos hzero, if_pos (hzero ▸ Int32.toInt_zero)]
  have hne : word.toInt ≠ 0 := fun h => hzero (Int32.toInt_inj.mp (h.trans Int32.toInt_zero.symm))
  rw [if_neg hzero, if_neg hne]
  have hiff : 0 < word ↔ 0 < word.toInt := by rw [Int32.lt_iff_toInt_lt, Int32.toInt_zero]
  by_cases hpos : 0 < word.toInt
  · obtain ⟨state, hstate, hvalue⟩ : ∃ c, sub? word 1 = some c ∧ c.toInt = word.toInt - 1 :=
      exists_sub? (by rw [Int32.toInt_one]; omega) (by rw [Int32.toInt_one]; omega)
    rw [if_pos (hiff.mpr hpos), if_pos hpos, hstate, Option.map_some, hvalue]
    cases Ident.ofInt? .state (word.toInt - 1) <;> rfl
  · have hlong := word.toInt_toInt64
    obtain ⟨sum, hsum, hvalue⟩ : ∃ c, add? word.toInt64 1 = some c ∧
        c.toInt = word.toInt64.toInt + 1 :=
      exists_add? (by rw [hlong, Int64.toInt_one]; omega) (by rw [hlong, Int64.toInt_one]; omega)
    obtain ⟨production, hproduction, hvalue'⟩ : ∃ c, neg? sum = some c ∧ c.toInt = -sum.toInt :=
      exists_neg? (by omega)
    rw [if_neg (mt hiff.mp hpos), if_neg hpos, hsum, Option.bind_some,
      hproduction, Option.map_some, hvalue', hvalue, hlong]
    cases Ident.ofInt? .production (-(word.toInt + 1)) <;> rfl

end Arithmetic

end PackedAction

namespace PackedTables

/-- The pair at place `i` is the first of the row whose key is `key` or the closing one. -/
structure FirstPair (key : Word) (row : List Word) (i : Nat) (found code : Word) : Prop where
  found_eq : row[2 * i]? = some found
  code_eq : row[2 * i + 1]? = some code
  stops : found = key ∨ found = .close
  passed : ∀ j < i, ∀ k, row[2 * j]? = some k → k ≠ key ∧ k ≠ .close

theorem FirstPair.lookup {key found code : Word} {row : List Word} {i : Nat}
    (h : FirstPair key row i found code) : lookup key row = some (found, code) := by
  induction i generalizing row with
  | zero =>
      rcases row with _ | ⟨k, _ | ⟨w, rest⟩⟩
      · cases h.found_eq
      · cases h.code_eq
      · cases h.found_eq
        cases h.code_eq
        exact if_pos h.stops.symm
  | succ i ih =>
      rcases row with _ | ⟨k, _ | ⟨w, rest⟩⟩
      · cases h.found_eq
      · cases h.code_eq
      · obtain ⟨hkey, hclose⟩ := h.passed 0 (Nat.succ_pos i) k rfl
        have hrest : FirstPair key rest i found code := by
          refine ⟨h.found_eq, h.code_eq, h.stops, fun j hj k hk => ?_⟩
          exact h.passed (j + 1) (Nat.succ_lt_succ hj) k hk
        rw [PackedTables.lookup, if_neg (not_or.mpr ⟨hclose, hkey⟩), ih hrest]

/-- The closing key is at an even place, so a lookup ends there if it has not ended before. -/
theorem RowShape.exists_firstPair {row : List Word} (h : RowShape row) (key : Word) :
    ∃ i found code, FirstPair key row i found code := by
  classical
  have hlength := h.two_le
  have heven := h.even
  have hclosed : ∃ found, row[2 * (row.length / 2 - 1)]? = some found ∧
      (found = key ∨ found = .close) := by
    rw [show 2 * (row.length / 2 - 1) = row.length - 2 by omega]
    exact ⟨.close, h.closed, .inr rfl⟩
  have hex : ∃ i, ∃ found, row[2 * i]? = some found ∧ (found = key ∨ found = .close) :=
    ⟨_, hclosed⟩
  have hle : Nat.find hex ≤ row.length / 2 - 1 := Nat.find_min' hex hclosed
  obtain ⟨found, hfound, hstops⟩ := Nat.find_spec hex
  refine ⟨Nat.find hex, found, row[2 * Nat.find hex + 1], hfound, ?_, hstops, ?_⟩
  · exact List.getElem?_eq_getElem (by omega)
  · intro j hj k hk
    exact not_or.mp fun hstop => Nat.find_min hex hj ⟨k, hk, hstop⟩

theorem Encodable.actionRow {tables : PackedTables} (h : tables.Encodable) {i : Nat}
    (hi : i < tables.actionRows.size) : RowShape tables.actionRows[i] :=
  h.rows _ (List.mem_append_left _ (Array.getElem_mem_toList hi))

theorem Encodable.gotoRow {tables : PackedTables} (h : tables.Encodable) {i : Nat}
    (hi : i < tables.gotoRows.size) : RowShape tables.gotoRows[i] :=
  h.rows _ (List.mem_append_right _ (Array.getElem_mem_toList hi))

section Lookups

variable {tables : PackedTables} {q : StateId} {i : Nat} {found code : Word}

theorem action_eq_ofCode {t : TerminalId} {hq : q.index < tables.actionRows.size}
    (h : FirstPair (Int32.ofInt t.index) tables.actionRows[q.index] i found code) :
    tables.action q t = PackedAction.ofCode code := by
  simp only [action, Array.getElem?_eq_getElem hq, h.lookup]

theorem goto_cases {n : NonterminalId} {hq : q.index < tables.gotoRows.size}
    (h : FirstPair (Int32.ofInt n.index) tables.gotoRows[q.index] i found code) :
    (found = .close ∧ tables.goto q n = .ok none) ∨
      (found = Int32.ofInt n.index ∧
        ((∃ next : StateId, code.toInt = next.index ∧ tables.goto q n = .ok (some next)) ∨
          ((code.toInt < 0 ∨ 65536 ≤ code.toInt) ∧
            tables.goto q n = .error (.malformedTable .stateRange)))) := by
  simp only [goto, Array.getElem?_eq_getElem hq, h.lookup]
  by_cases hclose : found = .close
  · exact .inl ⟨hclose, if_pos hclose⟩
  rw [if_neg hclose]
  refine .inr ⟨h.stops.resolve_right hclose, ?_⟩
  cases hnext : Ident.ofInt? .state code.toInt with
  | none => exact .inr ⟨Ident.ofInt?_eq_none.mp hnext, rfl⟩
  | some next => exact .inl ⟨next, Ident.ofInt?_eq_some.mp hnext, rfl⟩

end Lookups

/-- A lookup in decoded tables answers with the first pair of its row whose key is the one looked up
or the closing one.  An action fails only for a code that is that of no action, a goto only for a
word that is no state where it is not the closing key that was found.  No code overflows. -/
theorem lookups_of_decode :
    (∀ (words : List Word) (tables : PackedTables), decode words = .ok tables →
      (∀ (q : StateId) (t : TerminalId) (hq : q.index < tables.actionRows.size),
        ∃ i found code,
          FirstPair (Int32.ofInt t.index) tables.actionRows[q.index] i found code ∧
          ((∃ action : PackedAction, code = action.code ∧ tables.action q t = .ok action) ∨
            (65536 < code.toInt ∧
              tables.action q t = .error (.malformedTable .stateRange)) ∨
            (code.toInt < -65536 ∧
              tables.action q t = .error (.malformedTable .reduceRange)))) ∧
      ∀ (q : StateId) (n : NonterminalId) (hq : q.index < tables.gotoRows.size),
        ∃ i found code,
          FirstPair (Int32.ofInt n.index) tables.gotoRows[q.index] i found code ∧
          ((found = .close ∧ tables.goto q n = .ok none) ∨
            (found = Int32.ofInt n.index ∧
              ((∃ next : StateId, code.toInt = next.index ∧
                  tables.goto q n = .ok (some next)) ∨
                ((code.toInt < 0 ∨ 65536 ≤ code.toInt) ∧
                  tables.goto q n = .error (.malformedTable .stateRange)))))) ∧
    ∀ code : Word, PackedAction.ofCodeIn? code = some (PackedAction.ofCode code) := by
  refine ⟨fun words tables hdecode => ?_, PackedAction.ofCodeIn?_eq⟩
  have hencodable := (decode_eq_ok.mp hdecode).1
  refine ⟨fun q t hq => ?_, fun q n hq => ?_⟩
  · obtain ⟨i, found, code, hpair⟩ :=
      (hencodable.actionRow hq).exists_firstPair (Int32.ofInt t.index)
    refine ⟨i, found, code, hpair, ?_⟩
    rw [action_eq_ofCode hpair]
    exact PackedAction.ofCode_cases code
  · obtain ⟨i, found, code, hpair⟩ :=
      (hencodable.gotoRow hq).exists_firstPair (Int32.ofInt n.index)
    exact ⟨i, found, code, hpair, goto_cases hpair⟩

/-- One row of actions and one of gotos, with keys that are negative, repeated and out of order, the
closing key before the last pairs, and the extreme words as codes. -/
def crooked : PackedTables where
  actionRows := #[[7, 2147483647, -5, 3, 7, 0, 2, -2147483648, -1, 1, 0, 4, -1, -9]]
  gotoRows := #[[3, 65536, 1, -2147483648, 3, 0, -1, 5, 2, 0, -1, -1]]
  startState := .start
  startProduction := .start

theorem lookups_of_decode_crooked :
    decode crooked.encode = .ok crooked ∧
      (∃ i found code, FirstPair (Int32.ofInt 7) crooked.actionRows[0] i found code ∧
        65536 < code.toInt ∧
        crooked.action .start ⟨7, by decide⟩ = .error (.malformedTable .stateRange)) ∧
      (∃ i found code, FirstPair (Int32.ofInt 1) crooked.gotoRows[0] i found code ∧
        (code.toInt < 0 ∨ 65536 ≤ code.toInt) ∧
        crooked.goto .start ⟨1, by decide⟩ = .error (.malformedTable .stateRange)) ∧
      PackedAction.ofCodeIn? (-2147483648) = some (.error (.malformedTable .reduceRange)) := by
  have hdecode : decode crooked.encode = .ok crooked := by rfl
  obtain ⟨hlookups, harithmetic⟩ := lookups_of_decode
  obtain ⟨hactions, hgotos⟩ := hlookups _ _ hdecode
  refine ⟨hdecode, ?_, ?_, harithmetic _⟩
  · have haction : crooked.action .start ⟨7, by decide⟩ =
        .error (.malformedTable .stateRange) := by rfl
    obtain ⟨i, found, code, hpair, ⟨_, -, h⟩ | ⟨hcode, -⟩ | ⟨-, h⟩⟩ :=
      hactions .start ⟨7, by decide⟩ (by decide)
    · rw [haction] at h
      cases h
    · exact ⟨i, found, code, hpair, hcode, haction⟩
    · rw [haction] at h
      cases h
  · have hgoto : crooked.goto .start ⟨1, by decide⟩ =
        .error (.malformedTable .stateRange) := by rfl
    obtain ⟨i, found, code, hpair, ⟨-, h⟩ | ⟨-, ⟨_, -, h⟩ | ⟨hcode, -⟩⟩⟩ :=
      hgotos .start ⟨1, by decide⟩ (by decide)
    · rw [hgoto] at h
      cases h
    · rw [hgoto] at h
      cases h
    · exact ⟨i, found, code, hpair, hcode, hgoto⟩

end PackedTables

end Lalr
