import GrammarFixpoint.Grammar.Derivation
import GrammarFixpoint.Grammar.Numbering
import GrammarFixpoint.Json.Reader
import GrammarFixpoint.Main
import GrammarFixpoint.Proofs.Built
import GrammarFixpoint.Proofs.Rules
import GrammarFixpoint.Proofs.Saturation
import GrammarFixpoint.Session.Log
import GrammarFixpoint.Proofs.Reachability
import GrammarFixpoint.Proofs.Restriction
import GrammarFixpoint.Proofs.Reduction
import GrammarFixpoint.Proofs.Session
import GrammarFixpoint.Proofs.Printing
import GrammarFixpoint.Proofs.Reading
import GrammarFixpoint.Proofs.RoundTrip
import GrammarFixpoint.Proofs.Audit
import GrammarFixpoint.Proofs.Equality
import GrammarFixpoint.Proofs.LineFormat
import GrammarFixpoint.Proofs.TextFormat
import GrammarFixpoint.Proofs.Bytes
import GrammarFixpoint.Proofs.Numbering
import GrammarFixpoint.Proofs.Canonicity
import GrammarFixpoint.Proofs.JsonText
import GrammarFixpoint.Proofs.Boundary
import GrammarFixpoint.Proofs.CommandLine
import GrammarFixpoint.Proofs.Log
import GrammarFixpoint.Proofs.Idempotence
import GrammarFixpoint.Proofs.OneLine
import GrammarFixpoint.Proofs.TextReport
import GrammarFixpoint.Proofs.Heights
import GrammarFixpoint.Proofs.Expansions
import GrammarFixpoint.Proofs.Remainder
import GrammarFixpoint.Proofs.SpanningTree
import GrammarFixpoint.Proofs.AlternativeSets
import GrammarFixpoint.Grammar.Builder
import GrammarFixpoint.Proofs.Refusals
import GrammarFixpoint.Proofs.LineFaults
import GrammarFixpoint.Proofs.SymbolNames
import GrammarFixpoint.Proofs.LineNumbers
import GrammarFixpoint.Proofs.SetNotation
