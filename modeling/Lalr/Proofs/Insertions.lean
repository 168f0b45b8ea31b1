import Lalr.Proofs.ResolvedTables

namespace Lalr.ActionRow

variable {g : Grammar} {state : StateId} {row row' : ActionRow} {t : TerminalId}
  {current proposed : Action} {e : Violation}

theorem put_put (row : ActionRow) (t : TerminalId) (first action : Action) :
    (row.put t first).put t action = row.put t action := by
  simp only [put, Array.setIfInBounds_setIfInBounds]

theorem get?_put_self (h : row.get? t = some current) (action : Action) :
    (row.put t action).get? t = some action := by
  have hlt := (Array.getElem?_eq_some_iff.mp h).1
  simp [put, get?, hlt]

/-- The rows differ in the cell of `t` only, if at all. -/
structure DiffersAt (t : TerminalId) (row row' : ActionRow) : Prop where
  default : row'.default = row.default
  size : row'.cells.size = row.cells.size
  cell : ∀ i ≠ t.index, row'.cells[i]? = row.cells[i]?

theorem differsAt_put (row : ActionRow) (t : TerminalId) (action : Action) :
    DiffersAt t row (row.put t action) :=
  ⟨rfl, Array.size_setIfInBounds, fun _ hi => Array.getElem?_setIfInBounds_ne hi.symm⟩

theorem insert_insert (hfree : row.get? t = some .error) {first action : Action}
    {insertion : Insertion} (hfirst : first.isError = false)
    (h : meet g state t first proposed = .ok (action, insertion)) :
    row.insert g state t first = .succeed .placed (row.put t first) ∧
      (row.put t first).insert g state t proposed = .succeed insertion (row.put t action) := by
  refine ⟨insert_of_meet hfree (meet_error hfirst), ?_⟩
  rw [insert_of_meet (get?_put_self hfree first) h, put_put]

/-- What the cell of `t` refuses in state `state`, and why. -/
inductive Refuses (g : Grammar) (state : StateId) (t : TerminalId) :
    Action → Action → Violation → Prop
  | bogus (current : Action) {proposed : Action} (h : proposed.isError = true) :
      Refuses g state t current proposed (.bogusResolution state t)
  | nonassoc (proposed : Action) :
      Refuses g state t .nonassoc proposed (.bogusResolution state t)
  | shifts {next other : StateId} (h : next ≠ other) :
      Refuses g state t (.shift next) (.shift other) (.bogusResolution state t)
  | reduce (next : StateId) {p : ProductionId} (h : g.production? p = none) :
      Refuses g state t (.shift next) (.reduce p) (.unknownProduction p)
  | shift (next : StateId) {p : ProductionId} (h : g.production? p = none) :
      Refuses g state t (.reduce p) (.shift next) (.unknownProduction p)

theorem settle_eq_error {next : StateId} {p : ProductionId} (h : settle g t next p = .error e) :
    g.production? p = none ∧ e = .unknownProduction p := by
  cases hp : g.production? p with
  | none =>
      rw [settle_of_unknown t next hp, Except.error.injEq] at h
      exact ⟨rfl, h.symm⟩
  | some production =>
      rw [settle_of_known t next (Option.isSome_iff_exists.mpr ⟨production, hp⟩)] at h
      cases h

theorem meet_eq_error :
    meet g state t current proposed = .error e ↔ Refuses g state t current proposed e := by
  constructor
  · intro h
    unfold meet at h
    split at h
    case h_1 | h_2 =>
      cases h
      exact .bogus _ rfl
    case h_3 => cases h
    case h_4 => split at h <;> cases h
    case h_5 =>
      obtain ⟨hp, rfl⟩ := settle_eq_error h
      exact .reduce _ hp
    case h_6 =>
      obtain ⟨hp, rfl⟩ := settle_eq_error h
      exact .shift _ hp
    case h_7 =>
      split at h
      · cases h
      · cases h
        exact .shifts ‹_›
    case h_8 =>
      cases h
      exact .nonassoc _
  · intro h
    cases h with
    | bogus current h => cases proposed <;> first | rfl | cases h
    | nonassoc proposed => cases proposed <;> rfl
    | shifts h => exact if_neg h
    | reduce next h => exact settle_of_unknown t next h
    | shift next h => exact settle_of_unknown t next h

theorem insert_of_none (h : row.get? t = none) (state : StateId) (proposed : Action) :
    row.insert g state t proposed = .fail (.bogusResolution state t) row := by
  rw [get?] at h
  simp only [insert, h]

theorem insert_of_refuses (hcurrent : row.get? t = some current)
    (h : Refuses g state t current proposed e) :
    row.insert g state t proposed = .fail e row := by
  rw [get?] at hcurrent
  simp only [insert, hcurrent, meet_eq_error.mpr h]

/-- A proposal is refused if there is no cell for it, or because of what the cell holds.  Then the
row stays as it was. -/
theorem insert_eq_fail : row.insert g state t proposed = .fail e row' ↔ row' = row ∧
    (row.get? t = none ∧ e = .bogusResolution state t ∨
      ∃ current, row.get? t = some current ∧ Refuses g state t current proposed e) := by
  constructor
  · intro h
    cases hcurrent : row.get? t with
    | none =>
        rw [insert_of_none hcurrent] at h
        cases h
        exact ⟨rfl, .inl ⟨rfl, rfl⟩⟩
    | some current =>
        cases hmeet : meet g state t current proposed with
        | error e' =>
            rw [insert_of_refuses hcurrent (meet_eq_error.mp hmeet)] at h
            cases h
            exact ⟨rfl, .inr ⟨current, rfl, meet_eq_error.mp hmeet⟩⟩
        | ok result =>
            rw [insert_of_meet hcurrent hmeet] at h
            cases h
  · rintro ⟨rfl, ⟨hnone, rfl⟩ | ⟨current, hcurrent, hrefuses⟩⟩
    · exact insert_of_none hnone state proposed
    · exact insert_of_refuses hcurrent hrefuses

/-- A shift and a reduction are settled in a free cell whichever is proposed first: both proposals go
through, the second is told as the meeting that it is, and the row comes to hold what is declared.  A
proposal that does not go through leaves the row as it was. -/
theorem insert_either_first (g : Grammar) (state : StateId) (row : ActionRow) (t : TerminalId) :
    (∀ next p, row.get? t = some .error → (g.production? p).isSome →
      ∃ shifted reduced row' resolution,
        row.insert g state t (.shift next) = .succeed .placed shifted ∧
        shifted.insert g state t (.reduce p) =
          .succeed (.ofMeeting p (g.resolution? t p)) row' ∧
        row.insert g state t (.reduce p) = .succeed .placed reduced ∧
        reduced.insert g state t (.shift next) =
          .succeed (.ofMeeting p (g.resolution? t p)) row' ∧
        Resolution.Declared (g.precedenceOn t) (g.precedenceOf p) resolution ∧
        row'.get? t = some (resolution.action next p) ∧ DiffersAt t row row') ∧
    ∀ proposed e row', row.insert g state t proposed = .fail e row' ↔ row' = row ∧
      (row.get? t = none ∧ e = .bogusResolution state t ∨
        ∃ current, row.get? t = some current ∧ Refuses g state t current proposed e) := by
  refine ⟨fun next p hfree hp => ?_, fun proposed e row' => insert_eq_fail⟩
  have hsettle := settle_of_known t next hp
  have hmeet : meet g state t (.shift next) (.reduce p) = .ok (_, _) := hsettle
  have hmeet' : meet g state t (.reduce p) (.shift next) = .ok (_, _) := hsettle
  obtain ⟨hshift, hthenReduce⟩ := insert_insert hfree rfl hmeet
  obtain ⟨hreduce, hthenShift⟩ := insert_insert hfree rfl hmeet'
  exact ⟨_, _, _, _, hshift, hthenReduce, hreduce, hthenShift, Resolution.declared_iff.mpr rfl,
    get?_put_self hfree _, differsAt_put row t _⟩

/-- Between comparisons that do not associate neither action stays, and then there is no way on. -/
theorem insert_either_first_comparisons :
    ∃ g row', Grammar.define Tables.comparisons = .ok g ∧
      (blank 4).get? (.nth 3) = some .error ∧ (g.production? (.nth 1)).isSome ∧
      (∃ shifted, (blank 4).insert g .start (.nth 3) (.shift (.nth 5)) = .succeed .placed shifted ∧
        shifted.insert g .start (.nth 3) (.reduce (.nth 1)) =
          .succeed (.resolved (.nth 1) .nonassoc) row') ∧
      (∃ reduced, (blank 4).insert g .start (.nth 3) (.reduce (.nth 1)) = .succeed .placed reduced ∧
        reduced.insert g .start (.nth 3) (.shift (.nth 5)) =
          .succeed (.resolved (.nth 1) .nonassoc) row') ∧
      DiffersAt (.nth 3) (blank 4) row' ∧
      row'.insert g .start (.nth 3) (.shift (.nth 5)) =
        .fail (.bogusResolution .start (.nth 3)) row' := by
  obtain ⟨g, hg, hrun⟩ := @Grammar.exists_define Tables.comparisons (fun g =>
      (g.production? (.nth 1)).isSome ∧
        g.resolution? (.nth 3) (.nth 1) = some .nonassoc) (by decide +kernel)
  obtain ⟨hp, hresolution⟩ := of_decide_eq_true hrun
  obtain ⟨hboth, -⟩ := insert_either_first g .start (blank 4) (.nth 3)
  obtain ⟨shifted, reduced, row', resolution, hshift, hthenReduce, hreduce, hthenShift, hdeclared,
    hcell, hdiffers⟩ := hboth (.nth 5) (.nth 1) rfl hp
  rw [hresolution] at hthenReduce hthenShift
  have hnonassoc : row'.get? (.nth 3) = some .nonassoc := by
    rw [hcell, ← Resolution.declared_iff.mp hdeclared, ← Grammar.resolution?, hresolution]
    rfl
  refine ⟨g, row', hg, rfl, hp, ⟨shifted, hshift, hthenReduce⟩, ⟨reduced, hreduce, hthenShift⟩,
    hdiffers, ?_⟩
  exact ((insert_either_first g .start row' (.nth 3)).2 _ _ _).mpr
    ⟨rfl, .inr ⟨_, hnonassoc, .nonassoc _⟩⟩

end Lalr.ActionRow
