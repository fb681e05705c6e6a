import OsLabs.Data.Memory

/-!
# The heap allocator

`kernel/src/pmm.c`: a first-fit allocator. Its list nodes live inside the managed
memory, in front of the blocks they describe. A word has `w` bytes, and address
arithmetic wraps at `256 ^ w`.
-/

namespace OsLabs.Pmm

/-- `BIAS`: the four words of a `struct node`. -/
def bias (w : Nat) : Nat := 4 * w

/-- `a - b` on addresses. -/
def subWord (w a b : Nat) : Nat := (a + 256 ^ w - b) % 256 ^ w

def addWord (w a b : Nat) : Nat := (a + b) % 256 ^ w

/-! ### The fields of a `struct node` -/

def getNext (w : Nat) (m : Mem) (p : Nat) : Nat := m.load w p
def getPre (w : Nat) (m : Mem) (p : Nat) : Nat := m.load w (p + w)
def getStart (w : Nat) (m : Mem) (p : Nat) : Nat := m.load w (p + 2 * w)
def getEnd (w : Nat) (m : Mem) (p : Nat) : Nat := m.load w (p + 3 * w)

def setNext (w : Nat) (m : Mem) (p v : Nat) : Mem := m.store w p v
def setPre (w : Nat) (m : Mem) (p v : Nat) : Mem := m.store w (p + w) v
def setStart (w : Nat) (m : Mem) (p v : Nat) : Mem := m.store w (p + 2 * w) v
def setEnd (w : Nat) (m : Mem) (p v : Nat) : Mem := m.store w (p + 3 * w) v

structure Node where
  next : Nat
  pre : Nat
  start : Nat
  stop : Nat
  deriving DecidableEq

def nodeAt (w : Nat) (m : Mem) (p : Nat) : Node := ⟨getNext w m p, getPre w m p, getStart w m p, getEnd w m p⟩

/-- The managed memory and the globals `head` and `tail`. -/
structure Heap where
  mem : Mem
  head : Nat
  tail : Nat

def listInit (w : Nat) (m : Mem) (pmStart pmEnd : Nat) : Heap :=
  let head := pmStart
  let tail := subWord w pmEnd (bias w)
  let m := setNext w m head tail
  let m := setPre w m head 0
  let m := setNext w m tail 0
  let m := setPre w m tail head
  let m := setStart w m head pmStart
  let m := setEnd w m head (addWord w (getStart w m head) (bias w))
  let m := setStart w m tail (subWord w pmEnd (bias w))
  let m := setEnd w m tail (addWord w (getStart w m tail) (bias w))
  ⟨m, head, tail⟩

/-- Adds a node after `p` and returns where its content starts. -/
def addNode (w : Nat) (h : Heap) (p size : Nat) : Heap × Nat :=
  let m := h.mem
  let tmp := getEnd w m p
  let m := setStart w m tmp (getEnd w m p)
  let m := setEnd w m tmp (addWord w (addWord w (getStart w m tmp) size) (bias w))
  let m := setPre w m tmp p
  let m := setNext w m tmp (getNext w m p)
  let m := setPre w m (getNext w m p) tmp
  let m := setNext w m p tmp
  (⟨m, h.head, h.tail⟩, addWord w (getStart w m tmp) (bias w))

def deleteNode (w : Nat) (h : Heap) (p : Nat) : Heap :=
  let m := h.mem
  let m := setPre w m (getNext w m p) (getPre w m p)
  let m := setNext w m (getPre w m p) (getNext w m p)
  ⟨m, h.head, h.tail⟩

/-- The loop of `kalloc`, with `p` its variable. The result is the heap and the
returned pointer; `none` when the fuel runs out before the loop does. -/
def kallocLoop (w : Nat) (h : Heap) (size : Nat) : Nat → Nat → Option (Heap × Nat)
  | 0, _ => none
  | fuel + 1, p =>
    if p = h.tail then some (h, 0)
    else if addWord w size (bias w) ≤ subWord w (getStart w h.mem (getNext w h.mem p)) (getEnd w h.mem p) then
      some (addNode w h p size)
    else kallocLoop w h size fuel (getNext w h.mem p)

/-- `kalloc`. A list of different nodes has fewer than `256 ^ w` of them. -/
def kalloc (w : Nat) (h : Heap) (size : Nat) : Option (Heap × Nat) :=
  kallocLoop w h size (256 ^ w) h.head

def kfree (w : Nat) (h : Heap) (ptr : Nat) : Heap := deleteNode w h (subWord w ptr (bias w))

end OsLabs.Pmm
