import RequestCompiler.Compiler.Request
import RequestCompiler.Session.Script
import RequestCompiler.Signature.Standard
import RequestCompiler.Stored.Request
import RequestCompiler.Proofs.Pipeline.Idempotence
import RequestCompiler.Proofs.Pipeline.Kept
import RequestCompiler.Proofs.Compiler.References
import RequestCompiler.Proofs.Compiler.StageAccount
import RequestCompiler.Proofs.Compiler.Parameters
import RequestCompiler.Proofs.Pipeline.Rows
import RequestCompiler.Proofs.Compiler.Pagination
import RequestCompiler.Proofs.Compiler.Reads
import RequestCompiler.Proofs.Compiler.Transaction
import RequestCompiler.Proofs.Compiler.Acceptance
import RequestCompiler.Proofs.Compiler.PageOrder
import RequestCompiler.Proofs.Compiler.Insertions
import RequestCompiler.Proofs.Compiler.KnownFunctions
import RequestCompiler.Proofs.Compiler.CanonicalRequests
import RequestCompiler.Proofs.Compiler.Policies
import RequestCompiler.Proofs.Pipeline.Upkeep
import RequestCompiler.Proofs.Pipeline.Arrangement
import RequestCompiler.Proofs.Compiler.InferredTypes
import RequestCompiler.Proofs.Select.Runs
import RequestCompiler.Proofs.Select.Readback
import RequestCompiler.Proofs.Compiler.Conduct
import RequestCompiler.Proofs.Compiler.Orderly
import RequestCompiler.Proofs.Compiler.Openings
import RequestCompiler.Proofs.Compiler.WrittenColumns
import RequestCompiler.Proofs.Pipeline.Separation
import RequestCompiler.Proofs.ParameterTypes.TypedOperands
import RequestCompiler.Proofs.Compiler.StrictCalls
import RequestCompiler.Proofs.Compiler.OperatorTypes
import RequestCompiler.Proofs.Compiler.Repetition
import RequestCompiler.Proofs.Stored.Restated
import RequestCompiler.Proofs.Expression.Text
