import JackAnalyzer.Main
import JackAnalyzer.Proofs.RoundTrip
import JackAnalyzer.Proofs.NodeSpans
import JackAnalyzer.Proofs.PileIndex
import JackAnalyzer.Proofs.Token.Lossless
import JackAnalyzer.Proofs.Token.Spacing
import JackAnalyzer.Proofs.Token.Classification
import JackAnalyzer.Proofs.Token.FirstFault
import JackAnalyzer.Proofs.Token.Separators
import JackAnalyzer.Proofs.Token.LineEndings
import JackAnalyzer.Proofs.Grammar.Advice
import JackAnalyzer.Proofs.Grammar.Answers
import JackAnalyzer.Proofs.Grammar.ErrorPlaces
import JackAnalyzer.Proofs.Grammar.Statements
import JackAnalyzer.Proofs.Grammar.Places
import JackAnalyzer.Proofs.Grammar.Delimiters
import JackAnalyzer.Proofs.Grammar.Census
import JackAnalyzer.Proofs.Tree.Traversals
import JackAnalyzer.Proofs.Render.Listing
import JackAnalyzer.Proofs.Batch.Collision
import JackAnalyzer.Proofs.Batch.Independence
import JackAnalyzer.Proofs.Batch.SourcesKept
import JackAnalyzer.Proofs.Batch.Collection
import JackAnalyzer.Proofs.Command.Agreement
import JackAnalyzer.Proofs.Command.Diagnostics
