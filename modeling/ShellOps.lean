import ShellOps.Compiler
import ShellOps.Diagnostic
import ShellOps.Eval
import ShellOps.Machine.Basic
import ShellOps.Session
import ShellOps.Special.Core
import ShellOps.Special.Stock
import ShellOps.Proofs.Scope
import ShellOps.Proofs.Survey
import ShellOps.Proofs.Steps
import ShellOps.Proofs.Relations
import ShellOps.Proofs.Coherence
import ShellOps.Proofs.Frames
import ShellOps.Proofs.Shape
import ShellOps.Proofs.Lookups
import ShellOps.Proofs.Captures
import ShellOps.Proofs.References
import ShellOps.Proofs.Readings
import ShellOps.Proofs.ClosedOps
import ShellOps.Proofs.Soundness
import ShellOps.Proofs.Statistics
import ShellOps.Proofs.Functions
import ShellOps.Proofs.PortOwnership
import ShellOps.Proofs.DepthLimit
import ShellOps.Proofs.WriteOnly
import ShellOps.Proofs.RootNames
import ShellOps.Proofs.OpShape
import ShellOps.Proofs.Locations
import ShellOps.Proofs.Redirections
import ShellOps.Proofs.BindingGrammar
import ShellOps.Proofs.Lockstep
import ShellOps.Proofs.Sigils
import ShellOps.Proofs.Products
import ShellOps.Proofs.Assignments
import ShellOps.Proofs.Carets
import ShellOps.Proofs.Forwarding
import ShellOps.Proofs.ScopeRuns
import ShellOps.Proofs.Registrations
