import Lalr.Proofs.Encoding
import Lalr.Proofs.Generation
import Lalr.Proofs.ResolvedTables
import Lalr.Proofs.StateLimit

namespace Lalr

variable {g : Grammar} {a : Automaton}

theorem ActionTable.size_compact (table : ActionTable) :
    table.compact.rows.size = table.rows.size := by
  rw [compact, Array.size_map]

theorem Tables.Tabulate.encodable {tables : Tables} (ht : tables.Tabulate g a) (hg : g.WellFormed)
    (ha : a.Charted g) (config : Config) {packed : PackedTables}
    (h : PackedTables.pack (if config.compact then tables.actions.compact else tables.actions)
      tables.gotos .start .start = .ok packed) : packed.Encodable := by
  have hsize : (if config.compact then tables.actions.compact else tables.actions).rows.size =
      a.states.size := by
    split
    · rw [ActionTable.size_compact, ht.size]
    · exact ht.size
  obtain ⟨q, hq, -⟩ := ha.start
  have hstart := (Array.getElem?_eq_some_iff.mp hq).1
  have hle := ha.size_le
  have hfits : PackedTables.Fits
      (if config.compact then tables.actions.compact else tables.actions) tables.gotos := by
    refine ⟨?_, fun row hrow => ?_, ?_, fun row hrow => ?_⟩
    · rw [hsize]
      omega
    · exact Nat.lt_of_le_of_lt (ht.cells_le config hg row hrow) (by decide)
    · rw [ht.gotos_size]
      omega
    · exact Nat.lt_of_le_of_lt (ht.gotos_le hg row hrow) (by decide)
  refine (hfits.countable h).encodable h ?_
  rwa [hsize]

namespace Config

variable {declarations : List Declaration}

theorem exists_generate (hg : Grammar.define declarations = .ok g) (config : Config)
    (sink : Diagnostics) (ha : Automaton.build g = .ok a) :
    ∃ generated reports, config.generate g sink = ⟨.ok generated, reports⟩ := by
  have hwell := Grammar.wellFormed_of_define hg
  obtain ⟨tables, reported, htables, -⟩ := Tables.exists_addStates
    (fun q hq => (Automaton.exact_of_build hwell ha).grounded hwell (Grammar.closed_of_define hg)
      (Array.mem_toList_iff.mp hq)) .empty sink
  obtain ⟨generated, reports, hgenerate, -⟩ :=
    exists_generate_of_fill ha htables config sink
  exact ⟨generated, reports, hgenerate⟩

theorem exists_decode (hg : g.WellFormed) {config : Config} {sink reports : Diagnostics}
    {generated : Generated} (h : config.generate g sink = ⟨.ok generated, reports⟩) :
    ∃ tables, generated.pack = .ok tables ∧
      PackedTables.decode tables.encode = .ok tables := by
  obtain ⟨dense, reported, hbuild, htables, hyields⟩ := generate_eq_ok h
  obtain ⟨tables, -, hpack, -⟩ := exists_pack hg h
  refine ⟨tables, hpack, PackedTables.decode_encode ?_⟩
  rw [Generated.pack, hyields.actions, hyields.gotos] at hpack
  exact (Tables.tabulate_of_fill htables).encodable hg
    (Automaton.exact_of_build hg hbuild).toCharted config hpack

/-- Generation fails exactly if the grammar reaches more kernels than there are numbers for states,
and it says so.  Otherwise the tables can be packed, and words keep them as they are. -/
theorem generate_total (hg : Grammar.define declarations = .ok g) (config : Config)
    (sink : Diagnostics) :
    (65536 < g.ReachableKernels.encard ∧
      (config.generate g sink).outcome = .error (.violation .tooManyStates)) ∨
    (g.ReachableKernels.encard ≤ 65536 ∧ ∃ generated tables,
      (config.generate g sink).outcome = .ok generated ∧ generated.pack = .ok tables ∧
        PackedTables.decode tables.encode = .ok tables) := by
  have hwell := Grammar.wellFormed_of_define hg
  rcases Automaton.build_cases hwell with ⟨hle, a, ha⟩ | ⟨hlt, herror⟩
  · obtain ⟨generated, reports, hgenerate⟩ := exists_generate hg config sink ha
    obtain ⟨tables, hpack, hdecode⟩ := exists_decode hwell hgenerate
    exact .inr ⟨hle, generated, tables, by rw [hgenerate], hpack, hdecode⟩
  · refine .inl ⟨hlt, ?_⟩
    unfold generate run
    simp only [herror]
    rfl

theorem generate_total_comparisons :
    ∃ g generated tables, Grammar.define Tables.comparisons = .ok g ∧
      g.ReachableKernels.encard ≤ 65536 ∧
      (({ compact := true } : Config).generate g ∅).outcome = .ok generated ∧
      (∃ row ∈ generated.actions.rows, row.default ≠ none ∧ .nonassoc ∈ row.cells) ∧
      generated.pack = .ok tables ∧ PackedTables.decode tables.encode = .ok tables := by
  have hrun : (tablesOf { compact := true } Tables.comparisons).any (fun (_, generated, _) =>
      generated.actions.rows.any fun row =>
        row.default ≠ none ∧ row.cells.any (· = .nonassoc)) = true := by
    decide +kernel
  obtain ⟨⟨g, generated, tables⟩, htables, hchecks⟩ := (Option.any_eq_true _ _).mp hrun
  obtain ⟨hg, ⟨reports, hgenerate⟩, -⟩ := tablesOf_eq_some htables
  simp only [Array.any_eq_true', decide_eq_true_eq] at hchecks
  obtain ⟨row, hrow, hdefault, action, haction, rfl⟩ := hchecks
  rcases generate_total hg { compact := true } ∅ with
    ⟨-, herror⟩ | ⟨hle, generated', tables', hok, hpack, hdecode⟩
  · rw [hgenerate] at herror
    cases herror
  · rw [hgenerate, Except.ok.injEq] at hok
    subst hok
    exact ⟨g, generated, tables', hg, hle, by rw [hgenerate], ⟨row, hrow, hdefault, haction⟩,
      hpack, hdecode⟩

end Config

end Lalr
