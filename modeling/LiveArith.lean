import LiveArith.Grammar
import LiveArith.Session
import LiveArith.Chronicle
import LiveArith.Metered
import LiveArith.Tree.Written
import LiveArith.Proofs.Reading
import LiveArith.Proofs.Rules
import LiveArith.Proofs.Soundness
import LiveArith.Proofs.Completeness
import LiveArith.Proofs.Language
import LiveArith.Proofs.Height
import LiveArith.Proofs.Printing
import LiveArith.Proofs.Splicing
import LiveArith.Proofs.Motion
import LiveArith.Proofs.Prefixes
import LiveArith.Proofs.Renaming
import LiveArith.Proofs.Effects
import LiveArith.Proofs.Sharing
import LiveArith.Proofs.Lockstep
import LiveArith.Proofs.Reports
import LiveArith.Proofs.Places
import LiveArith.Proofs.Decided
import LiveArith.Proofs.Allowance
import LiveArith.Proofs.Unlimited
import LiveArith.Proofs.Registration
import LiveArith.Proofs.Comparison
import LiveArith.Proofs.Metering
import LiveArith.Proofs.Enclosing
import LiveArith.Proofs.Progress
import LiveArith.Proofs.Retelling
import LiveArith.Proofs.Spelling
import LiveArith.Proofs.Numerals
import LiveArith.Proofs.Display
