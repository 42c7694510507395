import TreeQuery.Dictionary
import TreeQuery.Text.Blank
import TreeQuery.Text.Bytes
import TreeQuery.Text.Quoted
import TreeQuery.Tree.Passes
import TreeQuery.Tree.Navigation
import TreeQuery.Path.Printer
import TreeQuery.Path.Error
import TreeQuery.Path.Parser
import TreeQuery.Query.Report
import TreeQuery.Xml.Reference
import TreeQuery.Xml.View
import TreeQuery.Json.Numeral
import TreeQuery.Json.Text
import TreeQuery.Json.TreeForm
import TreeQuery.Json.Printer
import TreeQuery.Main
import TreeQuery.Proofs.CommandLine.ParentIndex
import TreeQuery.Proofs.Path.Places
import TreeQuery.Proofs.Query.Missing
import TreeQuery.Proofs.Query.Quiet
import TreeQuery.Proofs.Query.Unchecked
import TreeQuery.Proofs.Query.Inverse
import TreeQuery.Proofs.Json.Nesting
import TreeQuery.Proofs.Json.Numeral
import TreeQuery.Proofs.Json.ReadBack
import TreeQuery.Proofs.Json.TreeForm
import TreeQuery.Proofs.Json.Exposure
import TreeQuery.Proofs.Query.Union
import TreeQuery.Proofs.Xml.Parents
import TreeQuery.Proofs.Xml.Text
import TreeQuery.Proofs.Query.Bisimulation
import TreeQuery.Proofs.Query.Growth
import TreeQuery.Proofs.Query.Bare
import TreeQuery.Proofs.Query.Candidates
import TreeQuery.Proofs.Query.Calls
import TreeQuery.Proofs.Json.Plain
import TreeQuery.Proofs.Query.Report
import TreeQuery.Proofs.Tree.RootPath
import TreeQuery.Proofs.CommandLine.Failure
import TreeQuery.Proofs.Query.Joined
import TreeQuery.Proofs.Query.Repetition
import TreeQuery.Proofs.Query.Composition
import TreeQuery.Proofs.Query.Rank
import TreeQuery.Proofs.Query.Reordering
import TreeQuery.Proofs.Query.Disjunction
import TreeQuery.Proofs.CommandLine.Builtins
import TreeQuery.Proofs.Path.Faults
import TreeQuery.Proofs.Path.Offsets
import TreeQuery.Proofs.Path.TextOrder
import TreeQuery.Proofs.Query.Descendants
import TreeQuery.Proofs.Tree.Ends
import TreeQuery.Proofs.Tree.Fill
import TreeQuery.Proofs.Query.Terminals
import TreeQuery.Proofs.Tree.Passes
import TreeQuery.Proofs.Tree.Revision
import TreeQuery.Proofs.Json.Ignored
