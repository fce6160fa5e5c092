import StackC.Main
import StackC.Proofs.Arguments
import StackC.Proofs.Artifacts
import StackC.Proofs.Correctness
import StackC.Proofs.Faults
import StackC.Proofs.ForwardCalls
import StackC.Proofs.Inclusion
import StackC.Proofs.Interning
import StackC.Proofs.Labels
import StackC.Proofs.Literals
import StackC.Proofs.Nesting
import StackC.Proofs.Order
import StackC.Proofs.Printing
import StackC.Proofs.Recording
import StackC.Proofs.Renaming
import StackC.Proofs.Slots
import StackC.Proofs.Spelling
import StackC.Proofs.Storage
import StackC.Proofs.Truncation
import StackC.Proofs.Usage
import StackC.Proofs.Words
import StackC.Proofs.Writing
