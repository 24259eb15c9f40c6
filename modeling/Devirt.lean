import Devirt.Body.Consistency
import Devirt.Body.Draft
import Devirt.Body.Listing
import Devirt.Devirtualization.Pass
import Devirt.Dispatch.Resolver
import Devirt.Execution.Machine
import Devirt.Program
import Devirt.Proofs.Body.Paths
import Devirt.Proofs.Body.Replacement
import Devirt.Proofs.Body.Writing
import Devirt.Proofs.Devirtualization.Behaviour
import Devirt.Proofs.Devirtualization.Currency
import Devirt.Proofs.Devirtualization.Erasure
import Devirt.Proofs.Devirtualization.InterfaceCalls
import Devirt.Proofs.Devirtualization.Protection
import Devirt.Proofs.Devirtualization.Repetition
import Devirt.Proofs.Devirtualization.Report
import Devirt.Proofs.Devirtualization.Reuse
import Devirt.Proofs.Devirtualization.Sharing
import Devirt.Proofs.Devirtualization.Specialization
import Devirt.Proofs.Devirtualization.SuperCalls
import Devirt.Proofs.Devirtualization.Targets
import Devirt.Proofs.Devirtualization.Typing
import Devirt.Proofs.Devirtualization.Unguarded
import Devirt.Proofs.Dispatch.Agreement
import Devirt.Proofs.Dispatch.DeclarationOrder
import Devirt.Proofs.Dispatch.Receivers
import Devirt.Proofs.Dispatch.Specificity
import Devirt.Proofs.Execution.Conformance
import Devirt.Proofs.Execution.Definedness
import Devirt.Proofs.Execution.Splitting
import Devirt.Proofs.Execution.Termination
import Devirt.Proofs.Hierarchy.Distance
import Devirt.Proofs.Narrowing.Settling
import Devirt.Proofs.Types.Grouping
import Devirt.Proofs.Types.LeastBound
import Devirt.Samples
import Devirt.Settings.File
