import NaturalDeduction.Main
import NaturalDeduction.Deduction.Json
import NaturalDeduction.Proofs.Pointwise
import NaturalDeduction.Proofs.Nameless
import NaturalDeduction.Proofs.Replacement
import NaturalDeduction.Proofs.Calculus
import NaturalDeduction.Proofs.Established
import NaturalDeduction.Proofs.Steps
import NaturalDeduction.Proofs.Moves
import NaturalDeduction.Proofs.Acts
import NaturalDeduction.Proofs.Building
import NaturalDeduction.Proofs.Soundness
import NaturalDeduction.Proofs.Denotation
import NaturalDeduction.Proofs.Meaning
import NaturalDeduction.Proofs.Agreement
import NaturalDeduction.Proofs.Validity
import NaturalDeduction.Proofs.Consistency
import NaturalDeduction.Proofs.Growth
import NaturalDeduction.Proofs.Matching
import NaturalDeduction.Proofs.Rewriting
import NaturalDeduction.Proofs.Search
import NaturalDeduction.Proofs.Forms
import NaturalDeduction.Proofs.Reading
import NaturalDeduction.Proofs.DecimalPlaces
import NaturalDeduction.Proofs.Numerals
import NaturalDeduction.Proofs.NumberText
import NaturalDeduction.Proofs.Scanning
import NaturalDeduction.Proofs.Parsing
import NaturalDeduction.Proofs.Requoting
import NaturalDeduction.Proofs.Printing
import NaturalDeduction.Proofs.Legibility
import NaturalDeduction.Proofs.RoundTrip
import NaturalDeduction.Proofs.Places
import NaturalDeduction.Proofs.Brackets
import NaturalDeduction.Proofs.Deciphering
import NaturalDeduction.Proofs.Columns
import NaturalDeduction.Proofs.LineBreaks
import NaturalDeduction.Proofs.Unmasking
import NaturalDeduction.Proofs.ScopeStack
import NaturalDeduction.Proofs.Hygiene
import NaturalDeduction.Proofs.Scripts
import NaturalDeduction.Proofs.Runs
import NaturalDeduction.Proofs.Eigenvariables
import NaturalDeduction.Proofs.Keeping
import NaturalDeduction.Proofs.Restoring
import NaturalDeduction.Proofs.Commands
import NaturalDeduction.Proofs.Rollback
import NaturalDeduction.Proofs.Refused
import NaturalDeduction.Proofs.Balance
import NaturalDeduction.Proofs.Reports
import NaturalDeduction.Proofs.Goals
import NaturalDeduction.Proofs.Shadowing
import NaturalDeduction.Proofs.Rechecking
import NaturalDeduction.Proofs.Shifting.Expressions
import NaturalDeduction.Proofs.Shifting.Evaluation
import NaturalDeduction.Proofs.Shifting.Drawing
import NaturalDeduction.Proofs.Shifting.States
import NaturalDeduction.Proofs.Shifting.Tracking
import NaturalDeduction.Proofs.Shifting.Search
import NaturalDeduction.Proofs.Shifting.Scripts
import NaturalDeduction.Proofs.Shifting.Checking
import NaturalDeduction.Proofs.Assignment
import NaturalDeduction.Proofs.Opening
import NaturalDeduction.Proofs.Achieving
import NaturalDeduction.Proofs.ClosedTheorems
import NaturalDeduction.Proofs.Backwards
import NaturalDeduction.Proofs.Congruence
import NaturalDeduction.Proofs.EqualValues
import NaturalDeduction.Proofs.Untraced
import NaturalDeduction.Proofs.ReplacingEquals
import NaturalDeduction.Proofs.Aborts
import NaturalDeduction.Proofs.BoundedQuantifier
import NaturalDeduction.Proofs.ReplacingValues
import NaturalDeduction.Proofs.Enriching
import NaturalDeduction.Proofs.Termination
import NaturalDeduction.Proofs.Exposing
import NaturalDeduction.Proofs.Finishing
import NaturalDeduction.Proofs.Records
import NaturalDeduction.Proofs.FreeVariables
import NaturalDeduction.Proofs.Tables
import NaturalDeduction.Proofs.Naming
