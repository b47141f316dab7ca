import LoxLexer.Source.Slice
import LoxLexer.Json.Nesting
import LoxLexer.Lexing.Digest
import LoxLexer.Lexing.Log
import LoxLexer.Report.Encoding
import LoxLexer.CommandLine.FileTree
import LoxLexer.Main
import LoxLexer.Proofs.Lexing.Tiling
import LoxLexer.Proofs.Lexing.Positions
import LoxLexer.Proofs.Lexing.LongestMatch
import LoxLexer.Proofs.Lexing.Acceptance
import LoxLexer.Proofs.Lexing.Layout
import LoxLexer.Proofs.Lexing.Adjacency
import LoxLexer.Proofs.Lexing.Shift
import LoxLexer.Proofs.Lexing.Lines
import LoxLexer.Proofs.Lexing.Continuation
import LoxLexer.Proofs.Lexing.Restart
import LoxLexer.Proofs.Lexing.ClosingQuote
import LoxLexer.Proofs.Lexing.Bodies
import LoxLexer.Proofs.Lexing.Recovery
import LoxLexer.Proofs.Machine.Faultless
import LoxLexer.Proofs.Report.RoundTrip
import LoxLexer.Proofs.Report.Decoding
import LoxLexer.Proofs.Report.Agreement
import LoxLexer.Proofs.CommandLine.Agreement
import LoxLexer.Proofs.CommandLine.Printing
import LoxLexer.Proofs.Lexing.Numbers
import LoxLexer.Proofs.Machine.Logging
import LoxLexer.Proofs.Machine.Reached
import LoxLexer.Proofs.Machine.Progress
import LoxLexer.Proofs.Decimal.Canonical
import LoxLexer.Proofs.Machine.Offsets
