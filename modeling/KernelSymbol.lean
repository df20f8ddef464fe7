import KernelSymbol.ArgType.Debug
import KernelSymbol.ArgType.Hash
import KernelSymbol.ArgType.Outline
import KernelSymbol.Comparison
import KernelSymbol.Pool.Valid
import KernelSymbol.Session.Step
import KernelSymbol.Symbol.Cursor
import KernelSymbol.Symbol.Descent
import KernelSymbol.Symbol.Grammar
import KernelSymbol.Symbol.Transcript
import KernelSymbol.Symbol.Tree
import KernelSymbol.Proofs.Spelling
import KernelSymbol.Proofs.Components
import KernelSymbol.Proofs.Derivation
import KernelSymbol.Proofs.Descent
import KernelSymbol.Proofs.Building
import KernelSymbol.Proofs.Invariant
import KernelSymbol.Proofs.Acceptance
import KernelSymbol.Proofs.Transcript
import KernelSymbol.Proofs.Encoder
import KernelSymbol.Proofs.Identity
import KernelSymbol.Proofs.Session
import KernelSymbol.Proofs.Interning
import KernelSymbol.Proofs.Isolation
import KernelSymbol.Proofs.Closure
import KernelSymbol.Proofs.Agreement
import KernelSymbol.Proofs.Faults
import KernelSymbol.Proofs.Roundtrip
import KernelSymbol.Proofs.Refinement
import KernelSymbol.Proofs.Tree
import KernelSymbol.Proofs.Unambiguous
import KernelSymbol.Proofs.Image
import KernelSymbol.Proofs.Overload
import KernelSymbol.Proofs.WellFormed
import KernelSymbol.Proofs.Table
import KernelSymbol.Proofs.Cursor
import KernelSymbol.Proofs.Precedence
import KernelSymbol.Proofs.Lockstep
import KernelSymbol.Proofs.Pairing
import KernelSymbol.Proofs.Accounting
import KernelSymbol.Proofs.Looking
import KernelSymbol.Proofs.Candidates
import KernelSymbol.Proofs.Editing
import KernelSymbol.Proofs.Replay
import KernelSymbol.Proofs.Work
import KernelSymbol.Proofs.Extension
import KernelSymbol.Proofs.Equality
import KernelSymbol.Proofs.Rendering
import KernelSymbol.Proofs.Reference
import KernelSymbol.Proofs.TypeCode
