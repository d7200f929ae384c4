import JsonRules.Main
import JsonRules.Proofs.Trace.Layout
import JsonRules.Proofs.Trace.Unfolding
import JsonRules.Proofs.Account
import JsonRules.Proofs.Simulation
import JsonRules.Proofs.Explanation
import JsonRules.Proofs.Outcome
import JsonRules.Proofs.Positions
import JsonRules.Proofs.Validity
import JsonRules.Proofs.Context
import JsonRules.Proofs.Arena
import JsonRules.Proofs.Log
import JsonRules.Proofs.Occurrence
import JsonRules.Proofs.Outline
import JsonRules.Proofs.Noninterference
import JsonRules.Proofs.Comparison
import JsonRules.Proofs.Relations
import JsonRules.Proofs.Extremes
import JsonRules.Proofs.Keys
import JsonRules.Proofs.Documents
import JsonRules.Proofs.Equality
import JsonRules.Proofs.ExitStatus
import JsonRules.Proofs.Dates
import JsonRules.Proofs.Applications
import JsonRules.Proofs.Agreement
import JsonRules.Proofs.Integers
import JsonRules.Proofs.ItemPaths
import JsonRules.Proofs.Presence
import JsonRules.Proofs.WholeNames
import JsonRules.Proofs.ShownNumbers
import JsonRules.Proofs.Remainders
import JsonRules.Proofs.Summaries
import JsonRules.Proofs.Connectives
import JsonRules.Proofs.Flattening
import JsonRules.Proofs.Pruning
import JsonRules.Proofs.Introspection
import JsonRules.Proofs.Report
import JsonRules.Proofs.DateOrder
import JsonRules.Proofs.DatedData
import JsonRules.Proofs.SettingsFile
import JsonRules.Proofs.NormalForm
import JsonRules.Proofs.Frame
