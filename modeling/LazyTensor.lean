import LazyTensor.Linear.Canonical
import LazyTensor.Number.Hex
import LazyTensor.Proofs.Graph.Arena
import LazyTensor.Proofs.Graph.Order
import LazyTensor.Proofs.Kernel.Cache
import LazyTensor.Proofs.Layout.Reach
import LazyTensor.Proofs.Layout.Unbind
import LazyTensor.Proofs.Machine.Element
import LazyTensor.Proofs.Materialize
import LazyTensor.Proofs.Schedule.Bindings
import LazyTensor.Proofs.Schedule.InPlace
import LazyTensor.Proofs.Simplify.Collapse
import LazyTensor.Proofs.Simplify.Value
import LazyTensor.Proofs.SymInt.Bounds
import LazyTensor.Proofs.Tensor.Broadcast
import LazyTensor.Simplify.Sample
