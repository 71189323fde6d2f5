import LazyTensor.Kernel.Compile

/-!
A cache of compiled kernels, by operation tree and device.
-/

namespace LazyTensor

structure KernelCache where
  kernels : List ((Expr × String) × Kernel) := []
  hits : Nat := 0
  misses : Nat := 0

namespace KernelCache

def size (c : KernelCache) : Nat := c.kernels.length

def isEmpty (c : KernelCache) : Bool := c.kernels.isEmpty

/-- The kernel for a tree on a device, compiled unless it is cached. A failure is not cached. -/
def getOrCompile {ε : Type} (c : KernelCache) (e : Expr) (device : String)
    (compile : Except ε Kernel) : Except ε Kernel × KernelCache :=
  match c.kernels.lookup (e, device) with
  | some k => (.ok k, { c with hits := c.hits + 1 })
  | none =>
    match compile with
    | .ok k =>
      (.ok k, { c with misses := c.misses + 1, kernels := ((e, device), k) :: c.kernels })
    | .error err => (.error err, { c with misses := c.misses + 1 })

def clear (c : KernelCache) : KernelCache := { c with kernels := [] }

def retain (c : KernelCache) (live : List Expr) : KernelCache :=
  { c with kernels := c.kernels.filter fun entry => live.contains entry.1.1 }

end KernelCache

end LazyTensor
