import Dotlang.Main
import Dotlang.Proofs.TextSafety
import Dotlang.Proofs.RoundTrip
import Dotlang.Proofs.Simulation
import Dotlang.Proofs.Accumulation
import Dotlang.Proofs.Interpreter
import Dotlang.Proofs.Backends
import Dotlang.Proofs.Outline
import Dotlang.Proofs.Hoisting
import Dotlang.Proofs.Capture
import Dotlang.Proofs.Leaving
import Dotlang.Proofs.Ledgers
import Dotlang.Proofs.Declarations
import Dotlang.Proofs.Calls
import Dotlang.Proofs.Columns
import Dotlang.Proofs.Spacing
import Dotlang.Proofs.Control
import Dotlang.Proofs.Sections
import Dotlang.Proofs.Comparisons
import Dotlang.Proofs.Returns
import Dotlang.Proofs.Targets
import Dotlang.Proofs.Budget
import Dotlang.Proofs.Positions
import Dotlang.Proofs.Phases
import Dotlang.Proofs.Relocation
import Dotlang.Proofs.Transfers
import Dotlang.Proofs.Braces
import Dotlang.Proofs.Phrases
import Dotlang.Proofs.Truncation
import Dotlang.Proofs.Balance
import Dotlang.Proofs.Introductions
import Dotlang.Proofs.Entries
import Dotlang.Proofs.Operands
import Dotlang.Proofs.Temporaries
import Dotlang.Proofs.Onward
import Dotlang.Proofs.Assignments
import Dotlang.Proofs.Terminals
import Dotlang.Proofs.Polarity
import Dotlang.Proofs.Nesting
import Dotlang.Proofs.Rearrangement
import Dotlang.Proofs.Scratch
import Dotlang.Proofs.Rounding
import Dotlang.Proofs.Priority
import Dotlang.Proofs.Addresses
import Dotlang.Proofs.SourceOrder
import Dotlang.Proofs.Numerals
import Dotlang.Proofs.Cursor
import Dotlang.Proofs.Walking
import Dotlang.Proofs.Parentheses
import Dotlang.Proofs.Following
import Dotlang.Proofs.Progress
