import Lalr.Packed.Words
import Lalr.Proofs.Packing

namespace Lalr.PackedTables

theorem toInt_ofNat {n : Nat} (h : n < 2147483648) : (Int32.ofNat n).toInt = n := by
  rw [← Int32.ofInt_eq_ofNat]
  exact toInt_ofInt (by omega) (by omega)

/-- What decoding asks of a row, and that a word can hold its length. -/
structure RowShape (row : List Word) : Prop where
  even : row.length % 2 = 0
  closed : row[row.length - 2]? = some .close
  length_lt : row.length < 2147483648

theorem RowShape.two_le {row : List Word} (h : RowShape row) : 2 ≤ row.length := by
  have hlt := (List.getElem?_eq_some_iff.mp h.closed).1
  have heven := h.even
  omega

theorem RowShape.append_close {pairs : List Word} (code : Word) (heven : pairs.length % 2 = 0)
    (hlength : pairs.length + 2 < 2147483648) : RowShape (pairs ++ [.close, code]) := by
  refine ⟨?_, ?_, ?_⟩
  · rw [List.length_append, List.length_cons, List.length_singleton]
    omega
  · simp
  · rw [List.length_append, List.length_cons, List.length_singleton]
    exact hlength

theorem lengthOf_ofNat {n : Nat} (h : n < 2147483648) : lengthOf (Int32.ofNat n) = .ok n := by
  rw [lengthOf, toInt_ofNat h, if_neg (by omega), Int.toNat_natCast]

theorem ofInt?_index {kind : Kind} (i : Ident kind) :
    Ident.ofInt? kind (Int32.ofInt i.index).toInt = some i := by
  have := i.index_lt
  exact Ident.ofInt?_eq_some.mpr (toInt_ofInt (by omega) (by omega))

theorem decodeRow_encodeRow {row : List Word} (h : RowShape row) (rest : List Word) :
    decodeRow (encodeRow row ++ rest) = .ok (row, rest) := by
  have hlength : ¬ (row.length < 2 ∨ row.length % 2 ≠ 0) := by
    have := h.two_le
    have := h.even
    omega
  rw [encodeRow, List.cons_append, decodeRow]
  simp only [lengthOf_ofNat h.length_lt, if_neg hlength, List.splitAt_eq, List.take_left',
    List.drop_left', Nat.lt_irrefl, if_false, h.closed, ne_eq, not_true]

theorem decodeRows_flatMap {rows : List (List Word)} (h : ∀ row ∈ rows, RowShape row)
    (before : Array (List Word)) (rest : List Word) :
    decodeRows rows.length before (rows.flatMap encodeRow ++ rest) =
      .ok (before ++ rows.toArray, rest) := by
  induction rows generalizing before with
  | nil => simp [decodeRows]
  | cons row rows ih =>
      obtain ⟨hrow, hrows⟩ := List.forall_mem_cons.mp h
      rw [List.flatMap_cons, List.append_assoc, List.length_cons, decodeRows,
        decodeRow_encodeRow hrow]
      simp only
      rw [ih hrows]
      simp

/-- Tables that words can hold. -/
structure Encodable (tables : PackedTables) : Prop where
  rows : ∀ row ∈ tables.actionRows.toList ++ tables.gotoRows.toList, RowShape row
  actions_lt : tables.actionRows.size < 2147483648
  gotos_lt : tables.gotoRows.size < 2147483648
  start : tables.startState.index < tables.actionRows.size

theorem decode_encode {tables : PackedTables} (h : tables.Encodable) :
    decode tables.encode = .ok tables := by
  obtain ⟨actionRows, gotoRows, startState, startProduction⟩ := tables
  have hrows : decodeRows (actionRows.size + gotoRows.size) #[]
      ((actionRows.toList ++ gotoRows.toList).flatMap encodeRow) =
        .ok (actionRows ++ gotoRows, []) := by
    have hread := decodeRows_flatMap h.rows #[] []
    rw [List.append_nil, List.length_append, Array.length_toList, Array.length_toList] at hread
    rw [hread]
    simp
  unfold decode encode
  simp only [decodeHeader, bind, Except.bind, lengthOf_ofNat h.actions_lt,
    lengthOf_ofNat h.gotos_lt, ofInt?_index, hrows]
  rw [if_neg fun hne => hne rfl, if_neg (Nat.not_le.mpr h.start)]
  simp [pure, Except.pure]

theorem Pairs.length {codes : List (Option Word)} {position : Nat} {pairs : List Word}
    (h : Pairs codes position pairs) :
    pairs.length % 2 = 0 ∧ pairs.length ≤ 2 * codes.length := by
  induction h with
  | nil position => exact ⟨rfl, Nat.le_refl _⟩
  | skip _ ih =>
      rw [List.length_cons]
      exact ⟨ih.1, by omega⟩
  | write _ _ ih =>
      rw [List.length_append, List.length_cons, List.length_cons, List.length_cons, List.length_nil]
      exact ⟨by omega, by omega⟩

theorem PackedRow.length_le {codes : List (Option Word)} {last : Word} {words : List Word}
    (h : PackedRow codes last words) : words.length ≤ 2 * codes.length + 2 := by
  obtain ⟨pairs, hpairs, rfl⟩ := h
  rw [List.length_append]
  exact Nat.add_le_add_right hpairs.length.2 2

theorem PackedRow.rowShape {codes : List (Option Word)} {last : Word} {words : List Word}
    (h : PackedRow codes last words) (hlt : words.length < 2147483648) : RowShape words := by
  obtain ⟨pairs, hpairs, rfl⟩ := h
  rw [List.length_append] at hlt
  exact .append_close last hpairs.length.1 hlt

/-- Words can count the rows of the tables and what is in each row. -/
structure Countable (tables : PackedTables) : Prop where
  rows : ∀ row ∈ tables.actionRows.toList ++ tables.gotoRows.toList, row.length < 2147483648
  actions_lt : tables.actionRows.size < 2147483648
  gotos_lt : tables.gotoRows.size < 2147483648

/-- Tables with fewer than 2^29 rows, and rows with fewer than 2^29 cells. -/
structure Fits (actions : ActionTable) (gotos : GotoTable) : Prop where
  actions_lt : actions.rows.size < 536870912
  cells_lt : ∀ row ∈ actions.rows, row.cells.size < 536870912
  gotos_lt : gotos.rows.size < 536870912
  targets_lt : ∀ row ∈ gotos.rows, row.size < 536870912

section Pack

variable {actions : ActionTable} {gotos : GotoTable} {s : StateId} {p : ProductionId}
  {tables : PackedTables} (h : pack actions gotos s p = .ok tables)

include h

theorem exists_codes_of_pack {words : List Word}
    (hwords : words ∈ tables.actionRows.toList ++ tables.gotoRows.toList) :
    ∃ codes last, PackedRow codes last words ∧
      ((∃ row ∈ actions.rows, actionCodes row = codes) ∨
        ∃ row ∈ gotos.rows, gotoCodes row = codes) := by
  obtain ⟨hactionRows, hgotoRows, -, -⟩ := pack_eq_ok h
  rcases List.mem_append.mp hwords with hwords | hwords
  · obtain ⟨row, hrow, hpack⟩ := exists_of_mem_mapM hactionRows (Array.mem_toList_iff.mp hwords)
    exact ⟨_, _, packActions_eq_ok.mp hpack, .inl ⟨row, hrow, rfl⟩⟩
  · obtain ⟨row, hrow, hpack⟩ := exists_of_mem_mapM hgotoRows (Array.mem_toList_iff.mp hwords)
    exact ⟨_, _, packGotos_eq_ok.mp hpack, .inr ⟨row, hrow, rfl⟩⟩

theorem Fits.countable (hfits : Fits actions gotos) : tables.Countable := by
  obtain ⟨hactionRows, hgotoRows, -, -⟩ := pack_eq_ok h
  have hactionsSize := size_of_mapM hactionRows
  have hgotosSize := size_of_mapM hgotoRows
  have hactions := hfits.actions_lt
  have hgotos := hfits.gotos_lt
  refine ⟨fun words hwords => ?_, by omega, by omega⟩
  obtain ⟨codes, last, hpacked, hcodes⟩ := exists_codes_of_pack h hwords
  have hle := hpacked.length_le
  have hlt : codes.length < 536870912 := by
    rcases hcodes with ⟨row, hrow, rfl⟩ | ⟨row, hrow, rfl⟩
    · rw [length_actionCodes]
      exact hfits.cells_lt row hrow
    · rw [length_gotoCodes]
      exact hfits.targets_lt row hrow
  omega

theorem Countable.encodable (hcount : tables.Countable) (hs : s.index < actions.rows.size) :
    tables.Encodable := by
  obtain ⟨hactionRows, hgotoRows, rfl, -⟩ := pack_eq_ok h
  refine ⟨fun words hwords => ?_, hcount.actions_lt, hcount.gotos_lt,
    size_of_mapM hactionRows ▸ hs⟩
  obtain ⟨codes, last, hpacked, -⟩ := exists_codes_of_pack h hwords
  exact hpacked.rowShape (hcount.rows words hwords)

end Pack

end Lalr.PackedTables
