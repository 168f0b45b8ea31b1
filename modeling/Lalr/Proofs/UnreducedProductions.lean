import Lalr.Proofs.Encoding
import Lalr.Proofs.Generation
import Lalr.Proofs.Registries

namespace Lalr

def Action.production? : Action → Option ProductionId
  | reduce p => some p
  | _ => none

theorem Action.production?_eq_some {action : Action} {p : ProductionId} :
    action.production? = some p ↔ action = .reduce p := by
  cases action <;> simp [production?]

def PackedAction.production? : PackedAction → Option ProductionId
  | reduce p => some p
  | _ => none

theorem PackedAction.production?_eq_some {action : PackedAction} {p : ProductionId} :
    action.production? = some p ↔ action = .reduce p := by
  cases action <;> simp [production?]

namespace ActionRow

def ReducesBy (row : ActionRow) (p : ProductionId) : Prop :=
  .reduce p ∈ row.cells ∨ row.default = some p

def reductions (row : ActionRow) : List ProductionId :=
  row.cells.toList.filterMap Action.production? ++ row.default.toList

theorem mem_reductions {row : ActionRow} {p : ProductionId} :
    p ∈ row.reductions ↔ row.ReducesBy p := by
  rw [reductions, ReducesBy, List.mem_append, List.mem_filterMap, Option.mem_toList]
  simp only [Action.production?_eq_some, exists_eq_right, Array.mem_toList_iff]

theorem reducesBy_compact {row : ActionRow} (h : row.default = none) {p : ProductionId} :
    row.compact.ReducesBy p ↔ row.ReducesBy p := by
  constructor
  · rintro (hcell | hdefault)
    · exact .inl hcell
    · exact .inl (mem_cells_of_mostFrequent hdefault)
  · rintro (hcell | hdefault)
    · exact .inl hcell
    · rw [h] at hdefault
      cases hdefault

end ActionRow

namespace ActionTable

theorem size_mark (reduced : Array Bool) (p : ProductionId) :
    (mark reduced p).size = reduced.size :=
  Array.size_setIfInBounds

theorem marked_mark {reduced : Array Bool} {p : ProductionId} {i : Nat} :
    (mark reduced p)[i]?.getD false = true ↔
      reduced[i]?.getD false = true ∨ i < reduced.size ∧ p.index = i := by
  rw [mark, Array.getElem?_setIfInBounds]
  by_cases hp : p.index = i
  · subst hp
    by_cases hlt : p.index < reduced.size <;> simp [hlt]
  · simp [hp]

theorem marked_foldl_mark {ps : List ProductionId} {reduced : Array Bool} {i : Nat} :
    (ps.foldl mark reduced)[i]?.getD false = true ↔
      reduced[i]?.getD false = true ∨ i < reduced.size ∧ ∃ p ∈ ps, p.index = i := by
  induction ps generalizing reduced with
  | nil => simp
  | cons p ps ih =>
      rw [List.foldl_cons, ih, marked_mark, size_mark, List.exists_mem_cons_iff, and_or_left,
        or_assoc]

theorem marked_foldl_replicate {ps : List ProductionId} {count i : Nat} :
    (ps.foldl mark (Array.replicate count false))[i]?.getD false = true ↔
      i < count ∧ ∃ p ∈ ps, p.index = i := by
  rw [marked_foldl_mark, Array.size_replicate, Array.getElem?_replicate]
  split <;> simp

theorem markRow_eq (reduced : Array Bool) (row : ActionRow) :
    markRow reduced row = row.reductions.foldl mark reduced := by
  have hcells : row.cells.foldl (fun reduced action =>
      match action with
      | .reduce p => mark reduced p
      | _ => reduced) reduced =
        (row.cells.toList.filterMap Action.production?).foldl mark reduced := by
    rw [List.foldl_filterMap, ← Array.foldl_toList]
    congr 1
    funext reduced action
    cases action <;> rfl
  rw [markRow, ActionRow.reductions, List.foldl_append, ← hcells]
  cases row.default <;> rfl

def ReducesBy (table : ActionTable) (p : ProductionId) : Prop :=
  ∃ row ∈ table.rows, row.ReducesBy p

theorem reducesBy_compact {table : ActionTable} (h : ∀ row ∈ table.rows, row.default = none)
    {p : ProductionId} : table.compact.ReducesBy p ↔ table.ReducesBy p := by
  simp only [ReducesBy, compact, Array.mem_map]
  constructor
  · rintro ⟨-, ⟨row, hrow, rfl⟩, hp⟩
    exact ⟨row, hrow, (ActionRow.reducesBy_compact (h row hrow)).mp hp⟩
  · rintro ⟨row, hrow, hp⟩
    exact ⟨row.compact, ⟨row, hrow, rfl⟩, (ActionRow.reducesBy_compact (h row hrow)).mpr hp⟩

def reductions (table : ActionTable) : List ProductionId :=
  table.rows.toList.flatMap ActionRow.reductions

theorem mem_reductions {table : ActionTable} {p : ProductionId} :
    p ∈ table.reductions ↔ table.ReducesBy p := by
  simp only [reductions, ReducesBy, List.mem_flatMap, Array.mem_toList_iff,
    ActionRow.mem_reductions]

theorem foldl_markRow (table : ActionTable) (reduced : Array Bool) :
    table.rows.foldl markRow reduced = table.reductions.foldl mark reduced := by
  rw [reductions, List.foldl_flatMap, ← Array.foldl_toList]
  congr 1
  funext reduced row
  exact markRow_eq reduced row

theorem marked_congr (ps qs : List ProductionId) (h : ∀ p, p ∈ ps ↔ p ∈ qs) (count i : Nat) :
    (ps.foldl mark (Array.replicate count false))[i]?.getD false =
      (qs.foldl mark (Array.replicate count false))[i]?.getD false := by
  rw [Bool.eq_iff_iff, marked_foldl_replicate, marked_foldl_replicate]
  simp only [h]

theorem unreduced_congr {table table' : ActionTable} (g : Grammar)
    (h : ∀ p, table.ReducesBy p ↔ table'.ReducesBy p) : table.unreduced g = table'.unreduced g := by
  have hmarked := marked_congr table.reductions table'.reductions
    (fun p => by rw [mem_reductions, mem_reductions, h]) g.productions.size
  simp only [unreduced, foldl_markRow, hmarked]

end ActionTable

namespace PackedTables

variable {count : Nat}

theorem markCode_code (reduced : Array Bool) (action : PackedAction)
    (h : ∀ p, action = .reduce p → p.index < count) :
    markCode count reduced action.code =
      .ok (action.production?.toList.foldl ActionTable.mark reduced) := by
  rw [markCode, PackedAction.ofCode_code]
  cases action with
  | error => rfl
  | shift next => rfl
  | reduce p => exact if_pos (h p rfl)

theorem foldlM_markCode (reduced : Array Bool) (actions : List PackedAction)
    (h : ∀ p, .reduce p ∈ actions → p.index < count) :
    (actions.map PackedAction.code).foldlM (markCode count) reduced =
      .ok ((actions.filterMap PackedAction.production?).foldl ActionTable.mark reduced) := by
  induction actions generalizing reduced with
  | nil => rfl
  | cons action actions ih =>
      have hfirst := markCode_code reduced action fun p hp =>
        h p (hp ▸ List.mem_cons_self)
      have hrest := fun p hp => h p (List.mem_cons_of_mem action hp)
      rw [List.map_cons, List.foldlM_cons, hfirst]
      change (actions.map PackedAction.code).foldlM (markCode count) _ = _
      rw [ih _ hrest, List.filterMap_cons]
      cases action <;> rfl

def cellAction (default : Option ProductionId) : Action → Option PackedAction
  | .error => none
  | .shift next => some (.shift next)
  | .reduce p => if some p = default then none else some (.reduce p)
  | .nonassoc => if default.isSome then some .error else none

theorem cellCode_eq (default : Option ProductionId) (action : Action) :
    cellCode default action = (cellAction default action).map PackedAction.code := by
  cases action with
  | error => rfl
  | shift next => rfl
  | reduce p =>
      simp only [cellCode, cellAction]
      split <;> rfl
  | nonassoc =>
      simp only [cellCode, cellAction]
      split <;> rfl

def rowActions (row : ActionRow) : List PackedAction :=
  row.cells.toList.filterMap (cellAction row.default) ++ [row.default.elim .error .reduce]

theorem cellAction_eq_reduce {default : Option ProductionId} {action : Action} {p : ProductionId} :
    cellAction default action = some (.reduce p) ↔ action = .reduce p ∧ some p ≠ default := by
  cases action with
  | error => simp [cellAction]
  | shift next => simp [cellAction]
  | reduce q =>
      simp only [cellAction]
      split
      · rename_i hdefault
        refine ⟨nofun, ?_⟩
        rintro ⟨⟨⟩, hne⟩
        exact absurd hdefault hne
      · rename_i hdefault
        constructor
        · rintro ⟨⟩
          exact ⟨rfl, hdefault⟩
        · rintro ⟨⟨⟩, -⟩
          rfl
  | nonassoc => simp [cellAction]

theorem reduce_mem_rowActions {row : ActionRow} {p : ProductionId} :
    .reduce p ∈ rowActions row ↔ row.ReducesBy p := by
  have hdefault : .reduce p = row.default.elim PackedAction.error .reduce ↔
      row.default = some p := by
    cases row.default with
    | none => simp
    | some q => simpa using eq_comm
  rw [rowActions, List.mem_append, List.mem_filterMap, List.mem_singleton, hdefault]
  simp only [cellAction_eq_reduce, Array.mem_toList_iff, ActionRow.ReducesBy]
  constructor
  · rintro (⟨action, hcell, rfl, -⟩ | hlast)
    · exact .inl hcell
    · exact .inr hlast
  · rintro (hcell | hlast)
    · by_cases hlast : row.default = some p
      · exact .inr hlast
      · exact .inl ⟨.reduce p, hcell, rfl, Ne.symm hlast⟩
    · exact .inr hlast

theorem Pairs.codes {cells : List (Option Word)} {position : Nat} {pairs : List Word}
    (h : Pairs cells position pairs) (rest : List Word) :
    PackedTables.codes (pairs ++ rest) = cells.filterMap id ++ PackedTables.codes rest := by
  induction h with
  | nil position => rfl
  | skip _ ih => rw [ih, List.filterMap_cons]; rfl
  | @write code codes position pairs _ _ ih =>
      rw [List.append_assoc, List.cons_append, List.cons_append, List.nil_append,
        PackedTables.codes, ih, List.filterMap_cons]
      rfl

theorem codes_packActions {row : ActionRow} {words : List Word} (h : packActions row = .ok words) :
    codes words = (rowActions row).map PackedAction.code := by
  obtain ⟨pairs, hpairs, rfl⟩ := packActions_eq_ok.mp h
  have hcells : (actionCodes row).filterMap id =
      (row.cells.toList.filterMap (cellAction row.default)).map PackedAction.code := by
    rw [actionCodes, List.filterMap_map, List.map_filterMap]
    congr 1
    funext action
    exact cellCode_eq row.default action
  rw [hpairs.codes, hcells, rowActions, List.map_append]
  rfl

section Pack

variable {actions : ActionTable} {gotos : GotoTable} {s : StateId} {p : ProductionId}
  {tables : PackedTables}

theorem flatMap_codes_of_pack (h : pack actions gotos s p = .ok tables) :
    tables.actionRows.toList.flatMap codes =
      (actions.rows.toList.flatMap rowActions).map PackedAction.code := by
  have hrows := mapM_eq_ok.mp (array_mapM_eq_ok.mp (pack_eq_ok h).1)
  generalize actions.rows.toList = rows at hrows
  generalize tables.actionRows.toList = packed at hrows
  induction rows generalizing packed with
  | nil =>
      cases packed with
      | nil => rfl
      | cons words packed => cases hrows
  | cons row rows ih =>
      cases packed with
      | nil => cases hrows
      | cons words packed =>
          rw [List.map_cons, List.map_cons, List.cons.injEq] at hrows
          rw [List.flatMap_cons, List.flatMap_cons, List.map_append, ih packed hrows.2,
            codes_packActions hrows.1]

def reductions (actions : ActionTable) : List ProductionId :=
  (actions.rows.toList.flatMap rowActions).filterMap PackedAction.production?

theorem mem_reductions {q : ProductionId} : q ∈ reductions actions ↔ actions.ReducesBy q := by
  simp only [reductions, ActionTable.ReducesBy, List.mem_filterMap,
    PackedAction.production?_eq_some, exists_eq_right, List.mem_flatMap, Array.mem_toList_iff,
    reduce_mem_rowActions]

theorem markRows_of_pack (h : pack actions gotos s p = .ok tables) {count : Nat}
    (hreduces : ∀ q, actions.ReducesBy q → q.index < count) (reduced : Array Bool) :
    markRows count reduced tables.actionRows.toList =
      .ok ((reductions actions).foldl ActionTable.mark reduced) := by
  rw [markRows, flatMap_codes_of_pack h, foldlM_markCode, reductions]
  intro q hq
  obtain ⟨row, hrow, hq⟩ := List.mem_flatMap.mp hq
  exact hreduces q ⟨row, Array.mem_toList_iff.mp hrow, reduce_mem_rowActions.mp hq⟩

end Pack

end PackedTables

section Numbers

variable {g : Grammar} (h : InPlace (fun p : Production => p.id.index) g.productions)

include h

theorem map_index_productions :
    (g.productions.toList.map (·.id)).map (·.index) = List.range g.productions.size := by
  apply List.ext_getElem
  · simp
  · intro i hi hi'
    have hlt : i < g.productions.size := by simpa using hi'
    simpa using h i _ (Array.getElem?_eq_getElem hlt)

theorem size_productions_le : g.productions.size ≤ 65536 := by
  by_contra hlt
  have hi : 65536 < g.productions.size := Nat.not_le.mp hlt
  have hlast := h 65536 _ (Array.getElem?_eq_getElem hi)
  exact absurd (g.productions[65536]).id.index_lt (Nat.not_lt.mpr hlast.ge)

theorem ActionTable.mem_unreduced {table : ActionTable} {p : ProductionId} :
    p ∈ table.unreduced g ↔ p.index < g.productions.size ∧ ¬ table.ReducesBy p := by
  have hid : p ∈ g.productions.toList.map (·.id) ↔ p.index < g.productions.size := by
    rw [← List.mem_range, ← map_index_productions h,
      List.mem_map_of_injective Ident.index_injective]
  have hmarked : (table.reductions.foldl mark
      (Array.replicate g.productions.size false))[p.index]?.getD false = true ↔
        p.index < g.productions.size ∧ table.ReducesBy p := by
    rw [marked_foldl_replicate, ← mem_reductions]
    refine and_congr_right fun _ => ⟨?_, fun hp => ⟨p, hp, rfl⟩⟩
    rintro ⟨q, hq, hindex⟩
    exact Ident.ext_index hindex ▸ hq
  rw [unreduced, List.mem_filter, foldl_markRow, hid, Bool.not_eq_true', ← Bool.not_eq_true,
    hmarked]
  exact and_congr_right fun hlt => not_congr (and_iff_right hlt)

theorem filterMap_range_productions (marked : Nat → Bool) :
    (List.range g.productions.size).filterMap (fun i =>
      if marked i then none else Ident.ofNat? .production i) =
        (g.productions.toList.map (·.id)).filter fun p => !marked p.index := by
  rw [← map_index_productions h, List.filterMap_map]
  generalize g.productions.toList.map (·.id) = ids
  induction ids with
  | nil => rfl
  | cons p ids ih =>
      rw [List.filterMap_cons, List.filter_cons, ih]
      cases hp : marked p.index <;> simp [hp]

theorem PackedTables.unreduced_of_pack {actions : ActionTable} {gotos : GotoTable} {s : StateId}
    {p : ProductionId} {tables : PackedTables} (hpack : pack actions gotos s p = .ok tables)
    (hreduces : ∀ q, actions.ReducesBy q → q.index < g.productions.size) :
    tables.unreduced g.productions.size = .ok (actions.unreduced g) := by
  have hle := size_productions_le h
  have hmarked := ActionTable.marked_congr (reductions actions) actions.reductions
    (fun q => by rw [mem_reductions, ActionTable.mem_reductions]) g.productions.size
  rw [unreduced, Nat.min_eq_left hle, markRows_of_pack hpack hreduces]
  change (if 65536 < g.productions.size then _ else _) = _
  rw [if_neg (Nat.not_lt.mpr hle), ActionTable.unreduced, ActionTable.foldl_markRow]
  simp only [hmarked]
  exact congrArg Except.ok (filterMap_range_productions h _)

end Numbers

namespace PackedTables

/-- The productions that no row reduces by are the same before the rows are packed and after they
have been through words, and compacting does not change them. -/
theorem unreduced_decode {declarations : List Declaration} {g : Grammar}
    (hg : Grammar.define declarations = .ok g) {actions : ActionTable} {gotos : GotoTable}
    {s : StateId} (p : ProductionId) (hfits : Fits actions gotos) (hs : s.index < actions.rows.size)
    (hreduces : ∀ q, actions.ReducesBy q → q.index < g.productions.size) :
    (∃ packed decoded, pack actions gotos s p = .ok packed ∧
      decode packed.encode = .ok decoded ∧
      decoded.unreduced g.productions.size = .ok (actions.unreduced g)) ∧
    (∀ q, q ∈ actions.unreduced g ↔ q.index < g.productions.size ∧ ¬ actions.ReducesBy q) ∧
    ((∀ row ∈ actions.rows, row.default = none) →
      actions.compact.unreduced g = actions.unreduced g) := by
  have hid := (Grammar.orderly_of_define hg).production_id
  refine ⟨?_, fun q => ActionTable.mem_unreduced hid, fun hdefault => ?_⟩
  · obtain ⟨packed, hpack⟩ := exists_pack s p
      (fun row hrow => Nat.le_of_lt (Nat.lt_trans (hfits.cells_lt row hrow) (by decide)))
      (fun row hrow => Nat.le_of_lt (Nat.lt_trans (hfits.targets_lt row hrow) (by decide)))
    have hdecode := decode_encode ((hfits.countable hpack).encodable hpack hs)
    exact ⟨packed, packed, hpack, hdecode, unreduced_of_pack hid hpack hreduces⟩
  · exact ActionTable.unreduced_congr g fun q => ActionTable.reducesBy_compact hdefault

/-- A table that reduces by the first and the fourth rule, and by the second one also by default. -/
def patchy : ActionTable where
  rows := #[⟨#[.reduce (.nth 1), .error, .reduce (.nth 2), .nonassoc], some (.nth 2)⟩,
    ⟨#[.shift .start, .reduce (.nth 4)], none⟩]

theorem unreduced_decode_patchy :
    ∃ g packed decoded, Grammar.define Grammar.circles = .ok g ∧
      pack patchy assortedGotos .start .start = .ok packed ∧
      decode packed.encode = .ok decoded ∧
      decoded.unreduced g.productions.size = .ok [.nth 0, .nth 3, .nth 5] := by
  obtain ⟨g, hg, hrun⟩ := @Grammar.exists_define Grammar.circles (fun g =>
    g.productions.size = 6 ∧ patchy.unreduced g = [.nth 0, .nth 3, .nth 5]) (by decide +kernel)
  obtain ⟨hsize, hunreduced⟩ := of_decide_eq_true hrun
  have hreduces : ∀ q ∈ patchy.reductions, q.index < 6 := by decide
  obtain ⟨⟨packed, decoded, hpack, hdecode, hresult⟩, -⟩ :=
    @unreduced_decode _ g hg patchy assortedGotos .start .start (by constructor <;> decide)
      (by decide) fun q hq => hsize ▸ hreduces q (ActionTable.mem_reductions.mpr hq)
  exact ⟨g, packed, decoded, hg, hpack, hdecode, hunreduced ▸ hresult⟩

end PackedTables

end Lalr
