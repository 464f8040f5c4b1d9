import ResourceQuery.Main
import ResourceQuery.Proofs.Clause.LexicalErrors
import ResourceQuery.Proofs.Clause.Places
import ResourceQuery.Proofs.Clause.Rendering
import ResourceQuery.Proofs.Clause.Respacing
import ResourceQuery.Proofs.Clause.UsedPrefixes
import ResourceQuery.Proofs.CommandLine.Expressions
import ResourceQuery.Proofs.Json.Queries
import ResourceQuery.Proofs.PrefixMap.Declaring
import ResourceQuery.Proofs.SearchTerms.Rendering
import ResourceQuery.Proofs.Selection.Answers
import ResourceQuery.Proofs.Selection.NormalForm
import ResourceQuery.Proofs.Selection.Reachable
import ResourceQuery.Proofs.Selection.Rearrangement
import ResourceQuery.Proofs.Selection.Union
import ResourceQuery.Proofs.Term.Numbers
