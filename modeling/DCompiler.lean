import DCompiler.Main
import DCompiler.Outline
import DCompiler.Proofs.Analysis.Escapes
import DCompiler.Proofs.Analysis.Circular
import DCompiler.Proofs.Analysis.Closures
import DCompiler.Proofs.Analysis.Loops
import DCompiler.Proofs.Analysis.Overloads
import DCompiler.Proofs.ArrayOp.LoopBody
import DCompiler.Proofs.Code.Bench
import DCompiler.Proofs.Data.Bench
import DCompiler.Proofs.Emission.Definitions
import DCompiler.Proofs.Expr.RoundTrip
import DCompiler.Proofs.Object.Order
import DCompiler.Proofs.Pool.History
import DCompiler.Proofs.Scalar.Word
import DCompiler.Proofs.Sentinels.Session
import DCompiler.Proofs.Source
import DCompiler.Proofs.Types.Layout
import DCompiler.Proofs.Types.Signatures
import DCompiler.Proofs.Typing.Propagation
import DCompiler.Token.Diagnostic

