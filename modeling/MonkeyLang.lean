import MonkeyLang.Main
import MonkeyLang.Proofs.Phrase
import MonkeyLang.Proofs.Reading
import MonkeyLang.Proofs.Soundness
import MonkeyLang.Proofs.Completeness
import MonkeyLang.Proofs.Limit
import MonkeyLang.Proofs.Braces
import MonkeyLang.Proofs.Containment
import MonkeyLang.Proofs.Alike
import MonkeyLang.Proofs.Recovery
import MonkeyLang.Proofs.Coherence
import MonkeyLang.Proofs.Canonical
import MonkeyLang.Proofs.Legibility
import MonkeyLang.Proofs.Printing
import MonkeyLang.Proofs.FixedPoint
import MonkeyLang.Proofs.Unambiguous
import MonkeyLang.Proofs.Height
import MonkeyLang.Proofs.Coupling
import MonkeyLang.Proofs.Relocation
import MonkeyLang.Proofs.Isolation
import MonkeyLang.Proofs.Stratified
import MonkeyLang.Proofs.Climbing
import MonkeyLang.Proofs.Order
import MonkeyLang.Proofs.Accounting
import MonkeyLang.Proofs.Boundary
import MonkeyLang.Proofs.LongestMatch
import MonkeyLang.Proofs.Pulling
import MonkeyLang.Proofs.Numerals
import MonkeyLang.Proofs.Separation
import MonkeyLang.Proofs.Diagnosis
import MonkeyLang.Proofs.Discovery
import MonkeyLang.Proofs.Layout
import MonkeyLang.Proofs.Sessions
import MonkeyLang.Proofs.LimitedOutput
import MonkeyLang.Proofs.Closing
import MonkeyLang.Proofs.TextLines
import MonkeyLang.Proofs.OneLine
import MonkeyLang.Proofs.Formatting
import MonkeyLang.Proofs.Framing
import MonkeyLang.Proofs.LineEnds
import MonkeyLang.Proofs.Deepening
import MonkeyLang.Proofs.Body
import MonkeyLang.Proofs.Extent
import MonkeyLang.Proofs.OpenExpressions
import MonkeyLang.Proofs.Warrants
import MonkeyLang.Proofs.Pruning
import MonkeyLang.Proofs.Resumption
import MonkeyLang.Proofs.Shortage
