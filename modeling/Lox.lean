import Lox.Machine.Steps
import Lox.Main
import Lox.Proofs.Descent
import Lox.Proofs.Soundness
import Lox.Proofs.Completeness
import Lox.Proofs.Readers
import Lox.Proofs.Consumption
import Lox.Proofs.Locality
import Lox.Proofs.Acceptance
import Lox.Proofs.Frames
import Lox.Proofs.Simulation
import Lox.Proofs.Renumber
import Lox.Proofs.RenumberRun
import Lox.Proofs.Seams
import Lox.Proofs.Diagnostics
import Lox.Proofs.Concatenation
import Lox.Proofs.Layout
import Lox.Proofs.Raising
import Lox.Proofs.WellFormed
import Lox.Proofs.Writing
import Lox.Proofs.History
import Lox.Proofs.LimitedMessages
import Lox.Proofs.Reporting
import Lox.Proofs.Truncation
import Lox.Proofs.Rounding
import Lox.Proofs.Lexicon
import Lox.Proofs.LongestMatch
import Lox.Proofs.Coherence
import Lox.Proofs.Restoration
import Lox.Proofs.Appending
import Lox.Proofs.Footprint
import Lox.Proofs.Lines
import Lox.Proofs.Prompting
import Lox.Proofs.Cursor
import Lox.Proofs.Isolation
import Lox.Proofs.Relaxed
import Lox.Proofs.Viability
import Lox.Proofs.Wrapping
import Lox.Proofs.Counting
import Lox.Proofs.Blame
import Lox.Proofs.LineNumbers
import Lox.Proofs.Independence
import Lox.Proofs.ReadBack
import Lox.Proofs.Form
import Lox.Proofs.PrintedForm
import Lox.Proofs.Echo
import Lox.Proofs.Lookups
import Lox.Proofs.Provenance
