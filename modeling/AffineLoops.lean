import AffineLoops.BoundMap.Fold
import AffineLoops.Description
import AffineLoops.Expr.Divisor
import AffineLoops.Identifier.Inlining
import AffineLoops.Loop.Shift
import AffineLoops.Loop.TripCount
import AffineLoops.Reader
import AffineLoops.Session.Analysis
import AffineLoops.Session.Construct
import AffineLoops.Session.Description
import AffineLoops.Session.Names
import AffineLoops.Session.Objects
import AffineLoops.Session.Substitution
import AffineLoops.Proofs.Expr.Substitution
import AffineLoops.Proofs.Expr.Simplification
import AffineLoops.Proofs.BoundMap.Canonical
import AffineLoops.Proofs.IR.Construction
import AffineLoops.Proofs.BoundMap.Composition
import AffineLoops.Proofs.BoundMap.FullComposition
import AffineLoops.Proofs.BoundMap.Difference
import AffineLoops.Proofs.BoundMap.Folding
import AffineLoops.Proofs.Identifier.Scope
import AffineLoops.Proofs.Identifier.SymbolInvariance
import AffineLoops.Proofs.Loop.Contiguity
import AffineLoops.Proofs.Loop.Construction
import AffineLoops.Proofs.Loop.TripCount
import AffineLoops.Proofs.Loop.ConstantTripCount
import AffineLoops.Proofs.BoundMap.Progress
import AffineLoops.Proofs.Expr.Affinity
import AffineLoops.Proofs.IR.Precedence
import AffineLoops.Proofs.IR.Traits
import AffineLoops.Proofs.Identifier.Judgement
import AffineLoops.Proofs.Identifier.ScopeChain
import AffineLoops.Proofs.Identifier.OwnScope
import AffineLoops.Proofs.BoundMap.Legality
import AffineLoops.Proofs.BoundMap.StepCount
import AffineLoops.Proofs.BoundMap.NormalForm
import AffineLoops.Proofs.Loop.Folding
import AffineLoops.Proofs.IR.Links
import AffineLoops.Proofs.IR.Owners
import AffineLoops.Proofs.IR.Uses
import AffineLoops.Proofs.AffineMap.WellFormed
import AffineLoops.Proofs.Session.Exactness
import AffineLoops.Proofs.Session.Steps
import AffineLoops.Proofs.Session.Simplification
import AffineLoops.Proofs.Uniquing.Interning
import AffineLoops.Proofs.Session.Uniquing
import AffineLoops.Proofs.Session.Numbered
import AffineLoops.Proofs.Session.Substitution
import AffineLoops.Proofs.Session.Unguarded
import AffineLoops.Proofs.Session.Combination
import AffineLoops.Proofs.Session.Isolation
import AffineLoops.Proofs.Expr.Evaluation
import AffineLoops.Proofs.Expr.Divisor
import AffineLoops.Proofs.Expr.Linearity
import AffineLoops.Proofs.Expr.Settling
import AffineLoops.Proofs.Loop.StrideNormalization
import AffineLoops.Proofs.Expr.Irreducible
import AffineLoops.Proofs.Loop.TripDivisor
import AffineLoops.Proofs.Loop.Ranges
import AffineLoops.Proofs.IR.Kinds
import AffineLoops.Proofs.IR.Descent
import AffineLoops.Proofs.IR.Walks
import AffineLoops.Proofs.Loop.Shift
import AffineLoops.Proofs.Loop.Vectorization
import AffineLoops.Proofs.Expr.Reading
import AffineLoops.Proofs.AffineMap.Compression
import AffineLoops.Proofs.Expr.Words
import AffineLoops.Proofs.Expr.Machine
import AffineLoops.Proofs.AffineMap.Words
import AffineLoops.Proofs.Expr.KeptOperations
import AffineLoops.Proofs.IR.DynamicSizes
