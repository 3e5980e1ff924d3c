import OnePass.Grammar.Equations
import OnePass.Main
import OnePass.Session
import OnePass.Trace
import OnePass.Proofs.Reading.Lexemes
import OnePass.Proofs.Reading.Completeness
import OnePass.Proofs.Reading.Soundness
import OnePass.Proofs.Reading.Texts
import OnePass.Proofs.Reading.Locality
import OnePass.Proofs.Reading.Completion
import OnePass.Proofs.Reading.Glyphs
import OnePass.Proofs.Acceptance
import OnePass.Proofs.Blame
import OnePass.Proofs.RoundTrip
import OnePass.Proofs.Reference
import OnePass.Proofs.Sinks
import OnePass.Proofs.Stores
import OnePass.Proofs.Words
import OnePass.Proofs.Evaluation
import OnePass.Proofs.Assembly
import OnePass.Proofs.Compilation
import OnePass.Proofs.Agreement
import OnePass.Proofs.Wraparound
import OnePass.Proofs.Formation
import OnePass.Proofs.Steps
import OnePass.Proofs.Accounts
import OnePass.Proofs.Independence
import OnePass.Proofs.Discipline
import OnePass.Proofs.Goals
import OnePass.Proofs.Lookahead
import OnePass.Proofs.Decompilation
import OnePass.Proofs.Divergence
import OnePass.Proofs.FirstCall
import OnePass.Proofs.FrontEnds
import OnePass.Proofs.Operands
import OnePass.Proofs.Truncation
import OnePass.Proofs.StackSafety
import OnePass.Proofs.Atomicity
import OnePass.Proofs.Confinement
import OnePass.Proofs.FullSinks
import OnePass.Proofs.Composition
import OnePass.Proofs.Interleaving
import OnePass.Proofs.Layouts
import OnePass.Proofs.Insignificance
import OnePass.Proofs.Vocabulary
import OnePass.Proofs.Dump
import OnePass.Proofs.Encoding
import OnePass.Proofs.Histories
import OnePass.Proofs.Scanning
import OnePass.Proofs.CommandLine
import OnePass.Proofs.Progress
import OnePass.Proofs.Termination
import OnePass.Proofs.Economy
import OnePass.Proofs.Literals
import OnePass.Proofs.Exactness
import OnePass.Proofs.Counting
import OnePass.Proofs.Padding
import OnePass.Proofs.Decoding
import OnePass.Proofs.Diagnostics
