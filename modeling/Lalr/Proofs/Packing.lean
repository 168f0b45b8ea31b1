import Lalr.Packed.Basic
import Lalr.Proofs.Traversal

namespace Lalr

/-- What a row asks for on a terminal, its default included. -/
def ActionRow.effective (row : ActionRow) (t : TerminalId) : PackedAction :=
  match row.get? t with
  | some (.shift s) => .shift s
  | some (.reduce p) => .reduce p
  | some .nonassoc => .error
  | _ => row.default.elim .error .reduce

theorem toInt_ofInt {n : Int} (h : -2147483648 ≤ n) (h' : n < 2147483648) :
    (Int32.ofInt n).toInt = n :=
  Int32.toInt_ofInt_of_le h h'

namespace Ident

variable {kind : Kind}

theorem ofInt?_eq_some {n : Int} {i : Ident kind} : ofInt? kind n = some i ↔ n = i.index := by
  unfold ofInt?
  split
  case isTrue hneg => exact ⟨nofun, fun h => absurd hneg (by omega)⟩
  case isFalse hneg =>
    rw [ofNat?_eq_some]
    omega

theorem ofInt?_eq_none {n : Int} : ofInt? kind n = none ↔ n < 0 ∨ 65536 ≤ n := by
  unfold ofInt?
  split
  case isTrue hneg => exact iff_of_true rfl (.inl hneg)
  case isFalse hneg =>
    rw [ofNat?_eq_none]
    omega

end Ident

theorem ofInt_ne_close {n : Nat} (h : n < 2147483648) : Int32.ofInt n ≠ Word.close := by
  intro e
  have hclose : Word.close.toInt = -1 := by decide
  rw [← e, toInt_ofInt (by omega) (by omega)] at hclose
  omega

theorem ofInt_inj {m n : Nat} (hm : m < 2147483648) (hn : n < 2147483648) :
    Int32.ofInt m = Int32.ofInt n ↔ m = n := by
  constructor
  · intro e
    have hwords := congrArg Int32.toInt e
    rw [toInt_ofInt (by omega) (by omega), toInt_ofInt (by omega) (by omega)] at hwords
    omega
  · rintro rfl
    rfl

namespace PackedAction

theorem toInt_code_error : error.code.toInt = 0 := Int32.toInt_zero

theorem toInt_code_shift (next : StateId) : (shift next).code.toInt = next.index + 1 := by
  have := next.index_lt
  exact toInt_ofInt (by omega) (by omega)

theorem toInt_code_reduce (p : ProductionId) : (reduce p).code.toInt = -(p.index + 1) := by
  have := p.index_lt
  exact toInt_ofInt (by omega) (by omega)

theorem ofCode_code (action : PackedAction) : ofCode action.code = .ok action := by
  unfold ofCode
  rcases action with _ | next | p
  · rw [if_pos toInt_code_error]
  · rw [toInt_code_shift, if_neg (by omega), if_pos (by omega),
      Ident.ofInt?_eq_some.mpr (Int.add_sub_cancel _ _)]
  · rw [toInt_code_reduce, if_neg (by omega), if_neg (by omega),
      Ident.ofInt?_eq_some.mpr (show -(-((p.index : Int) + 1) + 1) = p.index by omega)]

end PackedAction

namespace PackedTables

theorem keyWord_ok {position : Nat} (h : position < 2147483648) :
    keyWord position = .ok (Int32.ofInt position) :=
  if_pos h

theorem keyWord_error {position : Nat} (h : ¬ position < 2147483648) :
    keyWord position = .error (.malformedTable .symbolRange) :=
  if_neg h

theorem pairsFrom_none (codes : List (Option Word)) (position : Nat) :
    pairsFrom (none :: codes) position = pairsFrom codes (position + 1) := by
  unfold pairsFrom
  rw [List.zipIdx_cons, List.mapM_cons]
  simp only [bind, Except.bind, pure, Except.pure]
  generalize List.mapM (m := Except Violation) _ (codes.zipIdx (position + 1)) = rest
  cases rest <;> rfl

theorem pairsFrom_some {code : Word} {codes : List (Option Word)} {position : Nat}
    (h : position < 2147483648) :
    pairsFrom (some code :: codes) position =
      (pairsFrom codes (position + 1)).map ([Int32.ofInt position, code] ++ ·) := by
  unfold pairsFrom
  rw [List.zipIdx_cons, List.mapM_cons]
  simp only [bind, Except.bind, pure, Except.pure, keyWord_ok h]
  generalize List.mapM (m := Except Violation) _ (codes.zipIdx (position + 1)) = rest
  cases rest <;> rfl

theorem pairsFrom_error {code : Word} {codes : List (Option Word)} {position : Nat}
    (h : ¬ position < 2147483648) :
    pairsFrom (some code :: codes) position = .error (.malformedTable .symbolRange) := by
  unfold pairsFrom
  rw [List.zipIdx_cons, List.mapM_cons]
  simp only [bind, Except.bind, keyWord_error h]

/-- The pairs that stand for codes at positions in a row, one pair for each code that is there. -/
inductive Pairs : List (Option Word) → Nat → List Word → Prop
  | nil (position : Nat) : Pairs [] position []
  | skip {codes : List (Option Word)} {position : Nat} {pairs : List Word}
      (rest : Pairs codes (position + 1) pairs) : Pairs (none :: codes) position pairs
  | write {code : Word} {codes : List (Option Word)} {position : Nat} {pairs : List Word}
      (lt : position < 2147483648) (rest : Pairs codes (position + 1) pairs) :
      Pairs (some code :: codes) position ([Int32.ofInt position, code] ++ pairs)

theorem pairsFrom_eq_ok {codes : List (Option Word)} {position : Nat} {pairs : List Word} :
    pairsFrom codes position = .ok pairs ↔ Pairs codes position pairs := by
  constructor
  · intro h
    induction codes generalizing position pairs with
    | nil =>
        cases h
        exact .nil position
    | cons code codes ih =>
        cases code with
        | none =>
            rw [pairsFrom_none] at h
            exact .skip (ih h)
        | some code =>
            by_cases hlt : position < 2147483648
            · rw [pairsFrom_some hlt] at h
              cases hrest : pairsFrom codes (position + 1) with
              | error e =>
                  rw [hrest] at h
                  cases h
              | ok rest =>
                  rw [hrest] at h
                  cases h
                  exact .write hlt (ih hrest)
            · rw [pairsFrom_error hlt] at h
              cases h
  · intro h
    induction h with
    | nil position => rfl
    | skip _ ih => rw [pairsFrom_none, ih]
    | write hlt _ ih =>
        rw [pairsFrom_some hlt, ih]
        rfl

theorem exists_pairs (codes : List (Option Word)) (position : Nat)
    (h : position + codes.length ≤ 2147483648) : ∃ pairs, Pairs codes position pairs := by
  induction codes generalizing position with
  | nil => exact ⟨[], .nil position⟩
  | cons code codes ih =>
      rw [List.length_cons] at h
      obtain ⟨pairs, hpairs⟩ := ih (position + 1) (by omega)
      cases code with
      | none => exact ⟨pairs, .skip hpairs⟩
      | some code => exact ⟨_, .write (by omega) hpairs⟩

/-- Before a closing pair a lookup finds the code of a position, or the closing pair if there is
none. -/
theorem Pairs.lookup {codes : List (Option Word)} {position : Nat} {pairs : List Word}
    (h : Pairs codes position pairs) (last : Word) {i : Nat} (hi : i < 2147483648) :
    lookup (Int32.ofInt i) (pairs ++ [.close, last]) =
      some (((if position ≤ i then codes[i - position]?.join else none).map fun code =>
        (Int32.ofInt i, code)).getD (Word.close, last)) := by
  -- Behind the first position the rest of the row decides.
  have hrest : ∀ {code : Option Word} {codes : List (Option Word)} {position : Nat},
      i ≠ position → (if position + 1 ≤ i then codes[i - (position + 1)]?.join else none) =
        if position ≤ i then (code :: codes)[i - position]?.join else none := by
    intro code codes position hne
    by_cases hle : position ≤ i
    · rw [if_pos hle, if_pos (by omega), show i - position = i - (position + 1) + 1 by omega,
        List.getElem?_cons_succ]
    · rw [if_neg hle, if_neg (by omega)]
  induction h with
  | nil position => simp [PackedTables.lookup]
  | @skip codes position pairs _ ih =>
      rw [ih]
      by_cases hpos : i = position
      · subst hpos
        rw [if_neg (by omega), if_pos (Nat.le_refl i), Nat.sub_self]
        rfl
      · rw [hrest hpos]
  | @write code codes position pairs hlt _ ih =>
      rw [List.append_assoc, List.cons_append, List.cons_append, List.nil_append,
        PackedTables.lookup]
      by_cases hpos : i = position
      · subst hpos
        simp
      · have hkey : ¬ (Int32.ofInt position = Word.close ∨
            Int32.ofInt position = Int32.ofInt i) := by
          rw [ofInt_inj hlt hi]
          exact fun e => e.elim (ofInt_ne_close hlt) fun e => hpos e.symm
        rw [if_neg hkey, ih, hrest hpos]

/-- The words of a row: the pairs of its codes, and a closing pair that holds `last`. -/
def PackedRow (codes : List (Option Word)) (last : Word) (words : List Word) : Prop :=
  ∃ pairs, Pairs codes 0 pairs ∧ words = pairs ++ [.close, last]

theorem packedRow_iff {codes : List (Option Word)} {last : Word} {words : List Word} :
    (pairsFrom codes 0).map (· ++ [.close, last]) = .ok words ↔ PackedRow codes last words := by
  unfold PackedRow
  constructor
  · intro h
    cases hpairs : pairsFrom codes 0 with
    | error e =>
        rw [hpairs] at h
        cases h
    | ok pairs =>
        rw [hpairs] at h
        cases h
        exact ⟨pairs, pairsFrom_eq_ok.mp hpairs, rfl⟩
  · rintro ⟨pairs, hpairs, rfl⟩
    rw [pairsFrom_eq_ok.mpr hpairs]
    rfl

theorem PackedRow.lookup {codes : List (Option Word)} {last : Word} {words : List Word}
    (h : PackedRow codes last words) {i : Nat} (hi : i < 2147483648) :
    lookup (Int32.ofInt i) words =
      some ((codes[i]?.join.map fun code => (Int32.ofInt i, code)).getD (Word.close, last)) := by
  obtain ⟨pairs, hpairs, rfl⟩ := h
  rw [hpairs.lookup last hi, if_pos (Nat.zero_le i), Nat.sub_zero]

theorem exists_packedRow (codes : List (Option Word)) (last : Word)
    (h : codes.length ≤ 2147483648) : ∃ words, PackedRow codes last words := by
  obtain ⟨pairs, hpairs⟩ := exists_pairs codes 0 (by rwa [Nat.zero_add])
  exact ⟨_, pairs, hpairs, rfl⟩

def actionCodes (row : ActionRow) : List (Option Word) :=
  row.cells.toList.map (cellCode row.default)

def gotoCodes (row : GotoRow) : List (Option Word) :=
  row.toList.map fun target => target.map fun q => Int32.ofInt q.index

@[simp] theorem length_actionCodes (row : ActionRow) :
    (actionCodes row).length = row.cells.size := by
  rw [actionCodes, List.length_map, Array.length_toList]

@[simp] theorem length_gotoCodes (row : GotoRow) : (gotoCodes row).length = row.size := by
  rw [gotoCodes, List.length_map, Array.length_toList]

theorem packActions_eq_ok {row : ActionRow} {words : List Word} :
    packActions row = .ok words ↔ PackedRow (actionCodes row)
      (row.default.elim PackedAction.error PackedAction.reduce).code words :=
  packedRow_iff

theorem packGotos_eq_ok {row : GotoRow} {words : List Word} :
    packGotos row = .ok words ↔ PackedRow (gotoCodes row) .close words :=
  packedRow_iff

theorem lookup_packActions {row : ActionRow} {words : List Word} (h : packActions row = .ok words)
    (t : TerminalId) : ∃ key code, lookup (Int32.ofInt t.index) words = some (key, code) ∧
      PackedAction.ofCode code = .ok (row.effective t) := by
  have hcell : (actionCodes row)[t.index]?.join = (row.get? t).bind (cellCode row.default) := by
    rw [actionCodes, List.getElem?_map, Array.getElem?_toList]
    rcases hcell : row.cells[t.index]? with _ | action <;> simp [ActionRow.get?, hcell]
  refine ⟨_, _, (packActions_eq_ok.mp h).lookup (Nat.lt_trans t.index_lt (by decide)), ?_⟩
  rw [hcell]
  unfold ActionRow.effective
  rcases row.get? t with _ | action
  · exact PackedAction.ofCode_code _
  · rcases action with _ | s | p | _
    · exact PackedAction.ofCode_code _
    · exact PackedAction.ofCode_code _
    · by_cases hdefault : some p = row.default
      · simp only [Option.bind_some, cellCode, ← hdefault]
        exact PackedAction.ofCode_code (.reduce p)
      · simp only [Option.bind_some, cellCode, if_neg hdefault]
        exact PackedAction.ofCode_code (.reduce p)
    · rcases row.default with _ | p
      · exact PackedAction.ofCode_code .error
      · exact PackedAction.ofCode_code .error

theorem lookup_packGotos {row : GotoRow} {words : List Word} (h : packGotos row = .ok words)
    (n : NonterminalId) : lookup (Int32.ofInt n.index) words =
      some ((row[n.index]?.join.map fun s : StateId =>
        (Int32.ofInt n.index, Int32.ofInt s.index)).getD (Word.close, Word.close)) := by
  rw [(packGotos_eq_ok.mp h).lookup (Nat.lt_trans n.index_lt (by decide)), gotoCodes,
    List.getElem?_map, Array.getElem?_toList]
  rcases row[n.index]? with _ | _ | s <;> rfl

section Pack

variable {actions : ActionTable} {gotos : GotoTable} {s : StateId} {p : ProductionId}
  {tables : PackedTables}

theorem pack_eq_ok (h : pack actions gotos s p = .ok tables) :
    actions.rows.mapM packActions = .ok tables.actionRows ∧
      gotos.rows.mapM packGotos = .ok tables.gotoRows ∧
      tables.startState = s ∧ tables.startProduction = p := by
  unfold pack at h
  rcases hactionRows : actions.rows.mapM packActions with e | actionRows
  · rw [hactionRows] at h
    cases h
  rcases hgotoRows : gotos.rows.mapM packGotos with e | gotoRows
  · rw [hactionRows, hgotoRows] at h
    cases h
  rw [hactionRows, hgotoRows] at h
  cases h
  exact ⟨rfl, rfl, rfl, rfl⟩

theorem exists_pack (s : StateId) (p : ProductionId)
    (hactions : ∀ row ∈ actions.rows, row.cells.size ≤ 2147483648)
    (hgotos : ∀ row ∈ gotos.rows, row.size ≤ 2147483648) :
    ∃ tables, pack actions gotos s p = .ok tables := by
  obtain ⟨actionRows, hactionRows⟩ := exists_array_mapM_eq_ok packActions actions.rows
    fun row hrow => by
      obtain ⟨words, hwords⟩ := exists_packedRow (actionCodes row) _
        (by simpa using hactions row hrow)
      exact ⟨words, packActions_eq_ok.mpr hwords⟩
  obtain ⟨gotoRows, hgotoRows⟩ := exists_array_mapM_eq_ok packGotos gotos.rows
    fun row hrow => by
      obtain ⟨words, hwords⟩ := exists_packedRow (gotoCodes row) _
        (by simpa using hgotos row hrow)
      exact ⟨words, packGotos_eq_ok.mpr hwords⟩
  unfold pack
  rw [hactionRows, hgotoRows]
  exact ⟨_, rfl⟩

variable (h : pack actions gotos s p = .ok tables)

include h

theorem action_of_pack {q : StateId} {row : ActionRow} (hrow : actions.rows[q.index]? = some row)
    (t : TerminalId) : tables.action q t = .ok (row.effective t) := by
  have hq := getElem?_of_mapM (pack_eq_ok h).1 q.index
  rw [hrow, Option.map_some] at hq
  obtain ⟨words, hq, hwords⟩ := Option.map_eq_some_iff.mp hq.symm
  obtain ⟨key, code, hkey, hcode⟩ := lookup_packActions hwords.symm t
  unfold action
  simp only [hq, hkey, hcode]

theorem goto_of_pack {q : StateId} {row : GotoRow} (hrow : gotos.rows[q.index]? = some row)
    (n : NonterminalId) : tables.goto q n = .ok row[n.index]?.join := by
  have hq := getElem?_of_mapM (pack_eq_ok h).2.1 q.index
  rw [hrow, Option.map_some] at hq
  obtain ⟨words, hq, hwords⟩ := Option.map_eq_some_iff.mp hq.symm
  unfold goto
  simp only [hq, lookup_packGotos hwords.symm n]
  rcases row[n.index]?.join with _ | next
  · rfl
  · have hn := n.index_lt
    have hnext := next.index_lt
    rw [Option.map_some, Option.getD_some]
    simp only
    rw [if_neg (ofInt_ne_close (by omega)), toInt_ofInt (by omega) (by omega), Ident.ofInt?,
      if_neg (by omega), Int.toNat_natCast, Ident.ofNat?_index]

end Pack

/-- Lookups in packed tables give what the rows say: an action row its default where a cell says
nothing, a goto row its cell. -/
structure Answers (tables : PackedTables) (actions : ActionTable) (gotos : GotoTable) : Prop where
  action : ∀ (q : StateId) (row : ActionRow), actions.row? q = some row →
    ∀ t, tables.action q t = .ok (row.effective t)
  goto : ∀ q : StateId, q.index < gotos.rows.size →
    ∀ n, tables.goto q n = .ok (gotos.get? q n)

theorem answers_of_pack {actions : ActionTable} {gotos : GotoTable} {s : StateId}
    {p : ProductionId} {tables : PackedTables} (h : pack actions gotos s p = .ok tables) :
    tables.Answers actions gotos := by
  constructor
  · intro q row hrow t
    exact action_of_pack h hrow t
  · intro q hq n
    have hrow := Array.getElem?_eq_getElem hq
    rw [goto_of_pack h hrow, GotoTable.get?, hrow, Option.bind_some]

/-- Rows with and without a default, in which all kinds of cells and the largest numbers occur. -/
def assorted : ActionTable where
  rows := #[
    ⟨#[.error, .shift { index := 65535 }, .reduce { index := 3 }, .reduce { index := 65535 },
      .nonassoc], some { index := 3 }⟩,
    ⟨#[.nonassoc, .reduce .start], none⟩]

def assortedGotos : GotoTable :=
  ⟨#[#[none, some { index := 65535 }]]⟩

/-- The default of the first row stands in for its empty cell and for all that is past its end, but
not for the error that is asked for. -/
theorem answers_of_pack_assorted :
    ∃ tables, pack assorted assortedGotos .start .start = .ok tables ∧
      tables.Answers assorted assortedGotos ∧
      tables.action .start { index := 0 } = .ok (.reduce { index := 3 }) ∧
      tables.action .start { index := 4 } = .ok .error ∧
      tables.action .start { index := 65535 } = .ok (.reduce { index := 3 }) := by
  obtain ⟨tables, htables⟩ := @exists_pack assorted assortedGotos .start .start (by decide)
    (by decide)
  have hanswers := answers_of_pack htables
  have hfirst := hanswers.action .start _ rfl
  exact ⟨tables, htables, hanswers, hfirst _, hfirst _, hfirst _⟩

end PackedTables

end Lalr
