import Gfs.Common.Base

/-!
# `chunkserver/data_buffer.cc`: pushed data waits here for the mutation that takes it

`lru` is the list `lru_`, its front the newest entry; a list iterator is the number of the node.
-/

namespace Gfs.Chunkserver

structure BufferKey where
  clientId : Str
  sequence : Nat
deriving DecidableEq, Repr

structure BufferEntry where
  node : Nat
  key : BufferKey
  data : Bytes
deriving DecidableEq

structure DataBuffer where
  capacity : Nat
  used : Nat := 0
  lru : List BufferEntry := []
  index : List (BufferKey × Nat) := []
  nextNode : Nat := 0
deriving DecidableEq

namespace DataBuffer

/-- `used_ -= size`, which wraps below zero. -/
def release (used size : Nat) : Nat := u64 (used + (2 ^ 64 - u64 size))

def entryOf (buffer : DataBuffer) (key : BufferKey) : Option BufferEntry :=
  (buffer.index.lookup key).bind fun node => buffer.lru.find? (·.node = node)

/-- The counter, `lru_.erase(iterator)` and `index_.erase(key)`. -/
def unlink (buffer : DataBuffer) (entry : BufferEntry) : DataBuffer :=
  { buffer with
    used := release buffer.used entry.data.length
    lru := buffer.lru.filter (·.node ≠ entry.node)
    index := buffer.index.filter (·.1 ≠ entry.key) }

/-- The eviction loop of `Put`; each round pops the back of the list. -/
def evict (incoming : Nat) : Nat → DataBuffer → DataBuffer
  | 0, buffer => buffer
  | rounds + 1, buffer =>
      match buffer.lru.getLast? with
      | none => buffer
      | some oldest =>
          if buffer.capacity < u64 (buffer.used + incoming) then
            evict incoming rounds (buffer.unlink oldest)
          else buffer

def put (buffer : DataBuffer) (key : BufferKey) (data : Bytes) : DataBuffer :=
  let fresh := (buffer.entryOf key).elim buffer buffer.unlink
  let roomy := evict data.length fresh.lru.length fresh
  { roomy with
    used := u64 (roomy.used + data.length)
    lru := ⟨roomy.nextNode, key, data⟩ :: roomy.lru
    index := (key, roomy.nextNode) :: roomy.index.filter (·.1 ≠ key)
    nextNode := roomy.nextNode + 1 }

def take (buffer : DataBuffer) (key : BufferKey) : Option (Bytes × DataBuffer) :=
  (buffer.entryOf key).map fun entry => (entry.data, buffer.unlink entry)

def sizeOf (buffer : DataBuffer) (key : BufferKey) : Option Nat :=
  (buffer.entryOf key).map (·.data.length)

end DataBuffer

end Gfs.Chunkserver
