import ScalarFusion.Text.Blank
import ScalarFusion.Text.Lines
import ScalarFusion.Real.Binary
import ScalarFusion.Real.Decimal
import ScalarFusion.Real.Elementary
import ScalarFusion.ComplexFloat
import ScalarFusion.Numerics
import ScalarFusion.ScalarType
import ScalarFusion.Hash
import ScalarFusion.Literal.Basic
import ScalarFusion.Literal.Text
import ScalarFusion.Error
import ScalarFusion.Config
import ScalarFusion.Primitive.Basic
import ScalarFusion.Primitive.Typing
import ScalarFusion.Primitive.Evaluation
import ScalarFusion.Primitive.Statement
import ScalarFusion.Graph.Table
import ScalarFusion.Graph.Basic
import ScalarFusion.Graph.Expression
import ScalarFusion.Graph.Evaluation
import ScalarFusion.Graph.Printing
import ScalarFusion.Composite.Basic
import ScalarFusion.Build
import ScalarFusion.Composite.Replay
import ScalarFusion.Composite.Fusion
import ScalarFusion.Composite.Narrowing
import ScalarFusion.Composite.Emission
import ScalarFusion.CModule
import ScalarFusion.Gradient
import ScalarFusion.Proofs.Building
import ScalarFusion.Proofs.Growth
import ScalarFusion.Proofs.Replaying
import ScalarFusion.Proofs.Walking
import ScalarFusion.Proofs.Memoizing
import ScalarFusion.Proofs.Consuming
import ScalarFusion.Proofs.Tables
import ScalarFusion.Proofs.Rounding
import ScalarFusion.Proofs.Doubles
import ScalarFusion.Proofs.Decimals
import ScalarFusion.Proofs.Numerals
import ScalarFusion.Proofs.Conversion
import ScalarFusion.Proofs.Bodies
import ScalarFusion.Proofs.Specialising
import ScalarFusion.Proofs.Differentiating
import ScalarFusion.Proofs.Reaching
import ScalarFusion.Proofs.Representation
import ScalarFusion.Proofs.Mirroring
import ScalarFusion.Proofs.Narrowing
import ScalarFusion.Proofs.Valuing
import ScalarFusion.Proofs.Simulating
import ScalarFusion.Proofs.Fusing
import ScalarFusion.Proofs.Agreement
import ScalarFusion.Proofs.Readability
import ScalarFusion.Proofs.Persistence
import ScalarFusion.Proofs.Verdicts
import ScalarFusion.Proofs.Adjoints
import ScalarFusion.Proofs.Ancestry
import ScalarFusion.Proofs.Sweeping
import ScalarFusion.Proofs.ReverseMode
import ScalarFusion.Proofs.Transplanting
import ScalarFusion.Proofs.Chaining
import ScalarFusion.Proofs.Keys
import ScalarFusion.Proofs.Requirements
import ScalarFusion.Proofs.Denoting
import ScalarFusion.Proofs.Signatures
import ScalarFusion.Proofs.SpecialiserDepth
import ScalarFusion.Proofs.Pairing
import ScalarFusion.Proofs.Retyping
import ScalarFusion.Proofs.Calling
import ScalarFusion.Proofs.Progress
import ScalarFusion.Proofs.Termination
import ScalarFusion.Proofs.Renumbering
import ScalarFusion.Proofs.Typing
import ScalarFusion.Proofs.TypeKinds
import ScalarFusion.Proofs.Continuity
import ScalarFusion.Proofs.Descent
import ScalarFusion.Proofs.Caching
import ScalarFusion.Proofs.BitwiseWords
import ScalarFusion.Proofs.Minuses
import ScalarFusion.Proofs.Decrementing
import ScalarFusion.Proofs.HalfFree
import ScalarFusion.Proofs.Shuffling
import ScalarFusion.Proofs.Comparing
import ScalarFusion.Proofs.Normalizing
import ScalarFusion.Proofs.Leftovers
import ScalarFusion.Proofs.Trimming
import ScalarFusion.Proofs.Residues
import ScalarFusion.Proofs.Failing
import ScalarFusion.Proofs.Naming
import ScalarFusion.Proofs.Dividing
import ScalarFusion.Proofs.Listing
import ScalarFusion.Proofs.Separating
import ScalarFusion.Proofs.Phrasing
import ScalarFusion.Proofs.Declaring
import ScalarFusion.Proofs.Layout
import ScalarFusion.Proofs.Projecting
import ScalarFusion.Proofs.Accepting
import ScalarFusion.Proofs.Vanishing
import ScalarFusion.Proofs.Tagging
import ScalarFusion.Proofs.Constants
import ScalarFusion.Proofs.Hashing
import ScalarFusion.Proofs.Sharing
