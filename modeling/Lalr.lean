import Lalr.Attempt
import Lalr.Automaton.Basic
import Lalr.Automaton.Exploration
import Lalr.Automaton.Propagation
import Lalr.Automaton.Text
import Lalr.Decimal
import Lalr.Diagnostic
import Lalr.Generator
import Lalr.Grammar.Basic
import Lalr.Grammar.Draft
import Lalr.Grammar.Finish
import Lalr.Grammar.First
import Lalr.Grammar.Roster
import Lalr.Grammar.Text
import Lalr.IdentSet
import Lalr.Item.Basic
import Lalr.Item.Closure
import Lalr.Item.Kernel
import Lalr.Item.Set
import Lalr.Packed.Basic
import Lalr.Packed.Words
import Lalr.Parser
import Lalr.Precedence
import Lalr.Proofs.Acceptance
import Lalr.Proofs.Accounts
import Lalr.Proofs.CanonicalCollection
import Lalr.Proofs.Cells
import Lalr.Proofs.Closure
import Lalr.Proofs.Compaction
import Lalr.Proofs.Completeness
import Lalr.Proofs.Conflicts
import Lalr.Proofs.Decisions
import Lalr.Proofs.DeclaredSymbols
import Lalr.Proofs.DecodedLookups
import Lalr.Proofs.Decoding
import Lalr.Proofs.DefaultReductions
import Lalr.Proofs.DefinedGrammar
import Lalr.Proofs.Derivation
import Lalr.Proofs.EffectivePrecedence
import Lalr.Proofs.EmbeddedActions
import Lalr.Proofs.Encoding
import Lalr.Proofs.Encounters
import Lalr.Proofs.Exploration
import Lalr.Proofs.Expressions
import Lalr.Proofs.FirstSets
import Lalr.Proofs.Followers
import Lalr.Proofs.Forests
import Lalr.Proofs.Generation
import Lalr.Proofs.Grouping
import Lalr.Proofs.Histories
import Lalr.Proofs.IdentSets
import Lalr.Proofs.Inheritance
import Lalr.Proofs.Insertions
import Lalr.Proofs.ItemSets
import Lalr.Proofs.Kernels
import Lalr.Proofs.LeastClosure
import Lalr.Proofs.LeastLookaheads
import Lalr.Proofs.Levels
import Lalr.Proofs.Links
import Lalr.Proofs.Lookaheads
import Lalr.Proofs.Meetings
import Lalr.Proofs.Names
import Lalr.Proofs.OperatorParsing
import Lalr.Proofs.Packing
import Lalr.Proofs.Passes
import Lalr.Proofs.Paths
import Lalr.Proofs.Progress
import Lalr.Proofs.Propagation
import Lalr.Proofs.Reclosing
import Lalr.Proofs.Reductions
import Lalr.Proofs.RefusedLevels
import Lalr.Proofs.RefusedRules
import Lalr.Proofs.Registries
import Lalr.Proofs.Resolution
import Lalr.Proofs.ResolvedTables
import Lalr.Proofs.Runs
import Lalr.Proofs.Shifts
import Lalr.Proofs.SlotHistories
import Lalr.Proofs.Soundness
import Lalr.Proofs.StateLimit
import Lalr.Proofs.States
import Lalr.Proofs.Tabulation
import Lalr.Proofs.Termination
import Lalr.Proofs.Totality
import Lalr.Proofs.Traversal
import Lalr.Proofs.UnreducedProductions
import Lalr.Proofs.UnusedSymbols
import Lalr.Proofs.ValidItems
import Lalr.Saturation
import Lalr.Symbol
import Lalr.Table.Action
import Lalr.Table.Basic
import Lalr.Table.Filling
import Lalr.Table.Text
import Lalr.Text
import Lalr.Timings
import Lalr.Usage
import Lalr.Violation
import Lalr.Proofs.SetHistories
import Lalr.Proofs.BitSets
