import Aesd.Driver.CircularBuffer
import Aesd.Lib.Memory

/-! # The device and the kernel services it uses

`struct aesd_dev` of `aesdchar.h`, together with the blocks that `kzalloc` has
given the driver.  A pointer to an entry block is its number in that ledger;
blocks are never removed from it, so a released block stays visible.  What the
environment decides (interrupted locks, faulting copies, failed allocations) is
part of the call, and the memory behind the `entry` array is a parameter of the
only operation that reads it.
-/

namespace Aesd.Driver

open Aesd.Lib.Memory

/-- `ssize_t` and `loff_t`: 64 bits, read with `BitVec.toInt`. -/
abbrev SSizeT := BitVec 64

abbrev LoffT := BitVec 64

abbrev UInt32T := BitVec 32

def ENOMEM : Int := 12

def EFAULT : Int := 14

def EINVAL : Int := 22

def ENOTTY : Int := 25

def ERESTARTSYS : Int := 512

/-- What the kernel configuration fixes.  The bound on the shift leaves ten
    blocks of the largest size, together, below the sign bit of `ssize_t`. -/
structure Kernel where
  kmallocShiftMax : Nat
  shift_le : kmallocShiftMax ≤ 59

/-- `KMALLOC_MAX_SIZE`. -/
def Kernel.kmallocMaxSize (K : Kernel) : SizeT := (1 : SizeT) <<< K.kmallocShiftMax

/-- The machine of the comment in `main.c`: 4194304 bytes. -/
def Kernel.pc : Kernel := ⟨22, by decide⟩

/-- What a `mutex_lock_interruptible` ends in, once it does not wait any more. -/
inductive LockAttempt where
  | granted
  | interrupted
  deriving Repr, DecidableEq

/-- A block from `kzalloc`, and how often `kfree` was given it. -/
structure Block where
  bytes : List UInt8
  released : Nat
  deriving Repr, DecidableEq

abbrev Heap := List Block

/-- A `kzalloc` that succeeds: a new zeroed block. -/
def kzalloc (heap : Heap) (size : SizeT) : Heap × Nat :=
  (heap ++ [⟨List.replicate size.toNat 0, 0⟩], heap.length)

/-- `kfree`, which ignores NULL. -/
def kfree (heap : Heap) : Option Nat → Heap
  | none => heap
  | some b => heap.modify b fun block => { block with released := block.released + 1 }

/-- `struct aesd_working_entry`; `buffptr` is the memory it points to. -/
structure WorkingEntry where
  buffptr : Nat → UInt8
  size : SizeT
  index : SizeT
  complete : Bool

/-- `struct aesd_dev`, without its mutexes, and the entry blocks in use. -/
structure Dev where
  we : WorkingEntry
  cb : CircularBuffer Nat
  cbSize : SSizeT
  cbIoctlOffs : SSizeT
  heap : Heap

namespace Dev

/-- The device once `aesd_init_module` has succeeded. -/
def afterInit (K : Kernel) : Dev where
  we := { buffptr := fun _ => 0, size := K.kmallocMaxSize, index := 0, complete := false }
  cb := CircularBuffer.init ⟨Vector.replicate 10 .zero, 0, 0, false⟩
  cbSize := 0
  cbIoctlOffs := 0
  heap := []

/-- The first `we.index` bytes of the working entry: the command not yet complete. -/
def pending (d : Dev) : List UInt8 := firstBytes d.we.buffptr d.we.index.toNat

/-- The bytes of the block at a pointer. -/
def blockBytes (d : Dev) : Option Nat → List UInt8
  | none => []
  | some b => (d.heap[b]?).elim [] Block.bytes

/-- The `size` bytes an entry stands for. -/
def contents (d : Dev) (e : BufferEntry Nat) : List UInt8 :=
  (d.blockBytes e.buffptr).take e.size.toNat

/-- The contents of the live entries, oldest first. -/
def liveContents (d : Dev) : List (List UInt8) := d.cb.live.map d.contents

/-- What a reader finds: the contents of the live entries put end to end. -/
def stored (d : Dev) : List UInt8 := d.liveContents.flatten

end Dev

end Aesd.Driver
