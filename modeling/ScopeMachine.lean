import ScopeMachine.Main
import ScopeMachine.Program.Construct
import ScopeMachine.Proofs.Acceptance
import ScopeMachine.Proofs.CallBracket
import ScopeMachine.Proofs.BoundScopes
import ScopeMachine.Proofs.Coherence
import ScopeMachine.Proofs.ControlTransfer
import ScopeMachine.Proofs.Diagnostics
import ScopeMachine.Proofs.Exchange
import ScopeMachine.Proofs.FedOperands
import ScopeMachine.Proofs.JumpLayout
import ScopeMachine.Proofs.Literals
import ScopeMachine.Proofs.OperandCoding
import ScopeMachine.Proofs.PoolAgreement
import ScopeMachine.Proofs.Preservation
import ScopeMachine.Proofs.Reporting
import ScopeMachine.Proofs.StackDiscipline
import ScopeMachine.Proofs.Store.FreshHandles
import ScopeMachine.Proofs.Termination
import ScopeMachine.Proofs.UniqueNames
import ScopeMachine.Proofs.StaleHandles
import ScopeMachine.Proofs.RunsInOrder
import ScopeMachine.Proofs.Arrays
import ScopeMachine.Proofs.Store.Clearing
import ScopeMachine.Proofs.CallEntry
import ScopeMachine.Proofs.Returns
import ScopeMachine.Proofs.Leaks
import ScopeMachine.Proofs.NameResolution
import ScopeMachine.Proofs.BlockScopes
import ScopeMachine.Proofs.Equality
import ScopeMachine.Proofs.CallArguments
import ScopeMachine.Proofs.InPlaceCalls
import ScopeMachine.Proofs.Recovery
import ScopeMachine.Proofs.Copies
import ScopeMachine.Proofs.Store.Resets
