import OsLabs.Util.Scan

/-!
# getinfo

What `pstree` reads under /proc: the line `stat` of a process with `fscanf`, its children
and the names in its task directory. `tmp` is one buffer for all processes. An error is an
access outside an array.
-/

namespace OsLabs.Pstree
open Util Function

/-- What stands under /proc for a process: its id, its line `stat`, its children and the names in its task directory. -/
inductive Proc where
  | mk (pid : CInt) (stat : List Byte) (children : List Proc) (task : List (List Byte))

/-- `struct Process` for a thread, which has no sons and no threads. -/
structure Thread where
  name : List Byte
  pid : CInt
  deriving DecidableEq, Repr

/-- `struct Process`; `nson` and `nthr` are the lengths. -/
structure Process where
  pid : CInt
  ppid : CInt
  name : List Byte
  son : List Process
  thr : List Thread

/-- A write outside `tmp`, in front of it, outside `name`, `son` or `thr`. -/
inductive Fault where
  | tmp
  | before
  | name
  | son
  | thr
  deriving DecidableEq, Repr

def nameSize : Nat := 512
def tmpSize : Nat := 2048
def arraySize : Nat := 128

structure Stat where
  pid : CInt
  name : List Byte
  ppid : CInt
  deriving DecidableEq, Repr

/-- `fscanf(fp, "%s", tmp)`, with the string in `tmp` before and after. -/
def scanTmp (f : Stream) (tmp : List Byte) : Except Fault (List Byte × Stream) :=
  match f.getWord tmpSize with
  | (none, f) => .ok (tmp, f)
  | (some word, f) => if word.length < tmpSize then .ok (word.takeWhile (· ≠ 0), f) else .error .tmp

/-- `fscanf(fp, "%d", &x)`, for an `x` that holds `old`. -/
def scanInt (f : Stream) (old : CInt) : CInt × Stream :=
  match f.getInt with
  | (none, f) => (old, f)
  | (some value, f) => (BitVec.ofInt 32 value, f)

/-- The lines of `getinfo` up to the first `fclose`; `ret` is what is in the memory before. -/
def getStat (stat tmp : List Byte) (ret : Stat) : Except Fault (Stat × List Byte) := do
  let (pid, f) := scanInt (Stream.opened stat) ret.pid
  let (tmp, f) ← scanTmp f tmp
  -- tmp[strlen(tmp) - 1] = '\0'
  if tmp = [] then .error .before
  else
    let tmp := tmp.dropLast
    let name := tmp.drop 1
    if nameSize ≤ name.length then .error .name
    else
      let (tmp, f) ← scanTmp f tmp
      .ok (⟨pid, name, (scanInt f ret.ppid).1⟩, tmp)

def isnumber (s : List Byte) : Bool := s.all isdigit

/-- The `atoi` of the C library on digits, which does not go beyond the largest `long`. -/
def atoi (digits : List Byte) : CInt := BitVec.ofNat 32 (min (decimal digits) (2 ^ 63 - 1))

structure Threads where
  thr : Nat → Option Thread
  nthr : Nat
  tmp : List Byte

def braced (name : List Byte) : List Byte := 123 :: (name ++ [125])

/-- A node for a thread, with the name that is copied through `tmp`. -/
def Threads.put (t : Threads) (name : List Byte) (i : Nat) (pid : CInt) : Except Fault Threads :=
  if arraySize ≤ i then .error .thr
  else if nameSize ≤ (braced name).length then .error .name
  else .ok { t with thr := update t.thr i (some ⟨braced name, pid⟩), tmp := braced name }

/-- The body of the loop over the task directory. -/
def readEntry (showpid : Bool) (pid : CInt) (name : List Byte) (t : Threads) (dName : List Byte) :
    Except Fault Threads := do
  if isnumber dName then
    let tid := atoi dName
    let t ←
      if tid = pid then .ok t
      else do
        let t ← if showpid then t.put name t.nthr tid else .ok t
        .ok { t with nthr := t.nthr + 1 }
    if !showpid ∧ 0 < t.nthr then
      let t ← t.put name 0 (BitVec.ofNat 32 t.nthr)
      .ok { t with nthr := 1 }
    else .ok t
  else .ok t

def readTask (showpid : Bool) (pid : CInt) (name : List Byte) (task : List (List Byte)) (tmp : List Byte) :
    Except Fault Threads :=
  task.foldlM (readEntry showpid pid name) ⟨fun _ => none, 0, tmp⟩

def Threads.list (t : Threads) : List Thread := (List.range t.nthr).filterMap t.thr

mutual

/-- `getinfo`; `fresh` is what `malloc` leaves in the memory for a process. -/
def getinfo (fresh : CInt → Stat) (showpid : Bool) : Proc → List Byte → Except Fault (Process × List Byte)
  | .mk pid stat children task, tmp => do
    let (ret, tmp) ← getStat stat tmp (fresh pid)
    let (son, tmp) ← getSons fresh showpid children 0 tmp
    let t ← readTask showpid pid ret.name task tmp
    .ok (⟨ret.pid, ret.ppid, ret.name, son, t.list⟩, t.tmp)

def getSons (fresh : CInt → Stat) (showpid : Bool) :
    List Proc → Nat → List Byte → Except Fault (List Process × List Byte)
  | [], _, tmp => .ok ([], tmp)
  | child :: children, nson, tmp =>
    if arraySize ≤ nson then .error .son
    else do
      let (son, tmp) ← getinfo fresh showpid child tmp
      let (sons, tmp) ← getSons fresh showpid children (nson + 1) tmp
      .ok (son :: sons, tmp)

end

end OsLabs.Pstree
