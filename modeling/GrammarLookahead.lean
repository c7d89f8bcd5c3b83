import GrammarLookahead.Analysis.Expansion
import GrammarLookahead.Analysis.Key
import GrammarLookahead.Analysis.Memory
import GrammarLookahead.Analysis.Query
import GrammarLookahead.Analysis.Reading
import GrammarLookahead.Analysis.Search
import GrammarLookahead.Grammar.Build
import GrammarLookahead.Grammar.Description
import GrammarLookahead.Grammar.Fault
import GrammarLookahead.Grammar.Graph
import GrammarLookahead.Grammar.Layout
import GrammarLookahead.Grammar.Validation
import GrammarLookahead.Handle
import GrammarLookahead.Identifier
import GrammarLookahead.Json.Library
import GrammarLookahead.Json.Value
import GrammarLookahead.LookaheadSet.Basic
import GrammarLookahead.LookaheadSet.Rendering
import GrammarLookahead.OrderedSet
import GrammarLookahead.Proofs.Analysis.Bookkeeping
import GrammarLookahead.Proofs.Analysis.Depths
import GrammarLookahead.Proofs.Analysis.Equations
import GrammarLookahead.Proofs.Analysis.ExpansionContract
import GrammarLookahead.Proofs.Analysis.ExpansionReads
import GrammarLookahead.Proofs.Analysis.FloorAccounts
import GrammarLookahead.Proofs.Analysis.LeastSolution
import GrammarLookahead.Proofs.Analysis.LeftReads
import GrammarLookahead.Proofs.Analysis.ProvisionalReads
import GrammarLookahead.Proofs.Analysis.ReadingContract
import GrammarLookahead.Proofs.Analysis.RecursionSession
import GrammarLookahead.Proofs.Analysis.RecursionStep
import GrammarLookahead.Proofs.Analysis.RecursionWatch
import GrammarLookahead.Proofs.Analysis.Retention
import GrammarLookahead.Proofs.Analysis.RoundEnd
import GrammarLookahead.Proofs.Analysis.RoundHistory
import GrammarLookahead.Proofs.Analysis.Safety
import GrammarLookahead.Proofs.Analysis.SearchInvariant
import GrammarLookahead.Proofs.Analysis.SearchLog
import GrammarLookahead.Proofs.Analysis.SearchMeasure
import GrammarLookahead.Proofs.Analysis.SearchMove
import GrammarLookahead.Proofs.Analysis.SearchStep
import GrammarLookahead.Proofs.Analysis.SearchTrace
import GrammarLookahead.Proofs.Analysis.SearchView
import GrammarLookahead.Proofs.Analysis.Session
import GrammarLookahead.Proofs.Analysis.ValueGrowth
import GrammarLookahead.Proofs.Analysis.WorkBound
import GrammarLookahead.Proofs.Grammar.Alternatives
import GrammarLookahead.Proofs.Grammar.Containment
import GrammarLookahead.Proofs.Grammar.Faults
import GrammarLookahead.Proofs.Grammar.Interning
import GrammarLookahead.Proofs.Grammar.LeftRecursion
import GrammarLookahead.Proofs.Grammar.Links
import GrammarLookahead.Proofs.Grammar.Listing
import GrammarLookahead.Proofs.Grammar.NamedRules
import GrammarLookahead.Proofs.Grammar.Occurrences
import GrammarLookahead.Proofs.Grammar.Placement
import GrammarLookahead.Proofs.Grammar.ReadBack
import GrammarLookahead.Proofs.Grammar.WellLinked
import GrammarLookahead.Proofs.Json.Basic
import GrammarLookahead.Proofs.Json.Reader
import GrammarLookahead.Proofs.Json.Standard
import GrammarLookahead.Proofs.Json.Unambiguity
import GrammarLookahead.Proofs.Language.Completeness
import GrammarLookahead.Proofs.Language.Residue
import GrammarLookahead.Proofs.Language.RuleLanguage
import GrammarLookahead.Proofs.Language.Soundness
import GrammarLookahead.Proofs.Language.Words
import GrammarLookahead.Proofs.LookaheadSet.Construction
import GrammarLookahead.Proofs.LookaheadSet.Displayed
import GrammarLookahead.Proofs.LookaheadSet.Legibility
import GrammarLookahead.Proofs.LookaheadSet.Meaning
import GrammarLookahead.Proofs.LookaheadSet.Members
import GrammarLookahead.Proofs.LookaheadSet.Overlap
import GrammarLookahead.Proofs.LookaheadSet.Splicing
import GrammarLookahead.Proofs.LookaheadSet.Truncation
import GrammarLookahead.Proofs.Parsing.Derivation
import GrammarLookahead.Proofs.Parsing.Foresight
import GrammarLookahead.Proofs.Parsing.Passage
import GrammarLookahead.Proofs.Parsing.Prediction
import GrammarLookahead.Proofs.Report.BlockFindings
import GrammarLookahead.Proofs.Report.BranchComparison
import GrammarLookahead.Proofs.Report.CheckSession
import GrammarLookahead.Proofs.Report.CheckerContract
import GrammarLookahead.Proofs.Report.Conflicts
import GrammarLookahead.Proofs.Report.DecisionDepth
import GrammarLookahead.Proofs.Report.ExportDecoding
import GrammarLookahead.Proofs.Report.ExportRoundTrip
import GrammarLookahead.Proofs.Report.LeftRecursionErrors
import GrammarLookahead.Proofs.Report.LeftRecursionReport
import GrammarLookahead.Proofs.Report.SettingsScope
import GrammarLookahead.Report.Checker
import GrammarLookahead.Report.Comparison
import GrammarLookahead.Report.Diagnostic
import GrammarLookahead.Report.Export
import GrammarLookahead.Report.Findings
import GrammarLookahead.Settings
import GrammarLookahead.Settings.Document
import GrammarLookahead.Vocabulary
