import PlainLedger.Book
import PlainLedger.Json.Ledger
import PlainLedger.Machine.Term
import PlainLedger.Proofs.Language.Entries
import PlainLedger.Proofs.Language.Soundness
import PlainLedger.Token.Scan
import PlainLedger.Transcript
import PlainLedger.Proofs.Automaton.Leads
import PlainLedger.Proofs.Language.Numbered
import PlainLedger.Proofs.Language.Ownership
import PlainLedger.Proofs.Machine.Membership
import PlainLedger.Proofs.Machine.Faults
import PlainLedger.Proofs.Language.Diagnostics
import PlainLedger.Proofs.Machine.Clock
import PlainLedger.Proofs.Language.Layout
import PlainLedger.Proofs.Language.SourceOrder
import PlainLedger.Proofs.Automaton.Follow
import PlainLedger.Proofs.Grammar.Descent
import PlainLedger.Proofs.Machine.Decision
import PlainLedger.Proofs.Machine.Reporting
import PlainLedger.Proofs.Machine.Room
import PlainLedger.Proofs.Language.Arithmetic
import PlainLedger.Proofs.Language.Calculation
import PlainLedger.Proofs.Machine.Attentive
import PlainLedger.Proofs.Machine.Defaults
import PlainLedger.Proofs.Book.Fitting
import PlainLedger.Proofs.Language.Outline
import PlainLedger.Proofs.Language.Lines
import PlainLedger.Proofs.Machine.Growth
import PlainLedger.Proofs.Automaton.Ambiguity
import PlainLedger.Proofs.Automaton.Canonical
import PlainLedger.Proofs.Token.Contract
import PlainLedger.Proofs.Json.Ledger
import PlainLedger.Proofs.Language.Isolation
import PlainLedger.Proofs.Machine.Tally
import PlainLedger.Proofs.Language.Resumption
import PlainLedger.Proofs.Language.Flags
import PlainLedger.Proofs.Language.Places
import PlainLedger.Proofs.Language.Confinement
import PlainLedger.Proofs.Token.Tiling
import PlainLedger.Proofs.Language.Depth
import PlainLedger.Proofs.Token.Rendering
import PlainLedger.Proofs.Language.Offers
import PlainLedger.Proofs.Language.Spelling
import PlainLedger.Proofs.Book.Lot
import PlainLedger.Proofs.Book.Lines
import PlainLedger.Proofs.Date
import PlainLedger.Proofs.Language.Offset
import PlainLedger.Proofs.Machine.Lanes
import PlainLedger.Automaton.Worklist
import PlainLedger.Proofs.Automaton.WellFormed
