import InputMask.Pattern.Language
import InputMask.Pattern.Printer
import InputMask.TextField
import InputMask.Hook
import InputMask.Main
import InputMask.Proofs.Fitting.Satisfaction
import InputMask.Proofs.Fitting.Record
import InputMask.Proofs.Fitting.Cursor
import InputMask.Proofs.Pattern.Unambiguous
import InputMask.Proofs.Pattern.Parsing
import InputMask.Proofs.Pattern.Openings
import InputMask.Proofs.Fitting.Conformity
import InputMask.Proofs.Pattern.Greedy
import InputMask.Proofs.Fitting.Typing
import InputMask.Proofs.Fitting.Strictness
import InputMask.Proofs.Fitting.Stability
import InputMask.Proofs.Pattern.Scanning
import InputMask.Proofs.Pattern.RoundTrip
import InputMask.Proofs.Fitting.Completion
import InputMask.Proofs.Fitting.Slots
import InputMask.Proofs.Fitting.Independence
import InputMask.Proofs.Fitting.Termination
import InputMask.Proofs.Fitting.CapturedText
import InputMask.Proofs.Fitting.Headroom
import InputMask.Proofs.Fitting.Tracking
import InputMask.Proofs.Fitting.Reuse
import InputMask.Proofs.Fitting.Trials
import InputMask.Proofs.Pattern.Subtokens
import InputMask.Proofs.Fitting.Indifference
import InputMask.Proofs.Pattern.Spelling
import InputMask.Proofs.Pattern.Locality
import InputMask.Proofs.Fitting.Landings
import InputMask.Proofs.Pattern.Acceptance
import InputMask.Proofs.Pattern.Faults
import InputMask.Proofs.Display
import InputMask.Proofs.Fitting.Repeats
