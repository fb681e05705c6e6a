import OsLabs.Data.CString
import OsLabs.Pstree.Search
import OsLabs.Util.Decimal

/-!
# Printing the tree

`search`, with the buffers that it shares between its calls: `pre` is what stands in front
of a line, and `stack` has its length at each level. An error is an access outside an
array.
-/

namespace OsLabs.Pstree
open Util Function

/-- A write outside `tmp`, `pre` or `stack`, or outside the name of a node for threads. -/
inductive DrawFault where
  | tmp | pre | stack | name
  deriving DecidableEq, Repr

def preSize : Nat := 512
def stackSize : Nat := 512

/-- The globals of `search`, and what is printed. -/
structure Pen where
  pre : List Byte
  stack : Nat → Nat
  head : Nat
  isroot : Bool
  tmp : List Byte
  out : List Byte

def intText (x : CInt) : List Byte :=
    if x.toInt < 0 then 45 :: decimalText x.toInt.natAbs else decimalText x.toInt.natAbs

/-- `%s(%d)` with `-p`, else `%s`. -/
def label (showpid : Bool) (name : List Byte) (pid : CInt) : List Byte :=
  if showpid then name ++ 40 :: (intText pid ++ [41]) else name

namespace Pen

def start (tmp : List Byte) : Pen := ⟨List.replicate preSize 0, fun _ => 0, 0, true, tmp, []⟩

def sprintf (p : Pen) (text : List Byte) : Except DrawFault Pen :=
  if text.length < tmpSize then .ok { p with tmp := text } else .error .tmp

def preText (p : Pen) : Except DrawFault (List Byte) :=
  match strlen p.pre with
  | some n => .ok (p.pre.take n)
  | none => .error .pre

def setPre (p : Pen) (i : Nat) (c : Byte) : Except DrawFault Pen :=
  if i < p.pre.length then .ok { p with pre := p.pre.set i c } else .error .pre

def setLast (p : Pen) (i : Nat) (c : Byte) : Except DrawFault Pen :=
  if p.stack i = 0 then .error .pre else p.setPre (p.stack i - 1) c

def setStack (p : Pen) (i n : Nat) : Except DrawFault Pen :=
  if i < stackSize then .ok { p with stack := update p.stack i n } else .error .stack

def print (p : Pen) (text : List Byte) : Pen := { p with out := p.out ++ text }

/-- The first lines of `search`, up to the `printf` of `tmp`. -/
def begin (p : Pen) (text : List Byte) (type : Int) : Except DrawFault Pen :=
  if p.isroot then do
    let p ← p.sprintf text
    let p ← p.setStack (p.head + 1) (p.tmp.length + 1)
    .ok { p with isroot := false, head := p.head + 1 }
  else if type = 0 then do
    let p ← p.sprintf (45 :: text)
    let p ← p.setStack (p.head + 1) (p.stack p.head + p.tmp.length + 1)
    .ok { p with head := p.head + 1 }
  else do
    let p ← if type = -1 then p.setLast p.head 92 else .ok p
    let p ← p.sprintf ((← p.preText) ++ 45 :: text)
    let p ← p.setStack (p.head + 1) (p.tmp.length + 1)
    .ok { p with head := p.head + 1 }

def fill (p : Pen) : Except DrawFault Pen :=
  (List.range' (p.stack (p.head - 1)) (p.stack p.head - p.stack (p.head - 1))).foldlM (fun p i => p.setPre i 32) p

/-- What `search` does with a node before it goes on to the sons. -/
def enter (p : Pen) (text : List Byte) (count : Nat) (type : Int) : Except DrawFault Pen := do
  let p ← p.begin text type
  let p := p.print p.tmp
  let p ← if type = -1 then p.setLast (p.head - 1) 32 else .ok p
  let p ← p.fill
  let p ← p.setPre (p.stack p.head) 124
  let p ← match count with
    | 0 => .ok (p.print [10])
    | 1 => (p.print [45, 45]).setPre (p.stack p.head) 32
    | _ => .ok (p.print [45, 43])
  let p ← p.setStack p.head (p.stack p.head + 1)
  p.setPre (p.stack p.head) 0

def leave (p : Pen) : Except DrawFault Pen := do
  let p := { p with head := p.head - 1 }
  p.setPre (p.stack p.head) 0

end Pen

/-- `search` for a thread, which has no sons and no threads. -/
def searchThread (showpid : Bool) (cur : Thread) (type : Int) (p : Pen) : Except DrawFault Pen := do
  let p ← p.enter (label showpid cur.name cur.pid) 0 type
  p.leave

def threadName (t : Thread) (p : Pen) : Except DrawFault (Thread × Pen) :=
  if 1 < t.pid.toInt then do
    let p ← p.sprintf (intText t.pid ++ 42 :: 91 :: (t.name ++ [93]))
    if p.tmp.length < nameSize then .ok ({ t with name := p.tmp }, p) else .error .name
  else .ok (t, p)

def searchThreads (showpid : Bool) (nson : Nat) (thr : List Thread) (p : Pen) : Except DrawFault Pen :=
  if showpid then
    thr.zipIdx.foldlM (fun p x =>
      let ith : Int := if 1 < nson + thr.length ∧ thr.length - 1 + nson = x.2 + nson then -1 else (x.2 + nson : Nat)
      searchThread showpid x.1 ith p) p
  else
    match thr with
    | [] => .ok p
    | t :: _ => do
      let (t, p) ← threadName t p
      searchThread showpid t (if nson = 0 then 0 else -1) p

theorem sizeOf_perm {l l' : List Process} (same : l.Perm l') : sizeOf l = sizeOf l' := by
  induction same with
  | nil => rfl
  | cons x _ ih => simp only [List.cons.sizeOf_spec, ih]
  | swap x y l =>
    simp only [List.cons.sizeOf_spec]
    omega
  | trans _ _ ih ih' => exact ih.trans ih'

mutual

def search (issort showpid : Bool) (cur : Process) (type : Int) (p : Pen) : Except DrawFault Pen := do
  let p ← p.enter (label showpid cur.name cur.pid) (cur.son.length + cur.thr.length) type
  let p ← searchSons issort showpid cur.son.length cur.thr.length (sortSons issort cur.son) 0 p
  let p ← searchThreads showpid cur.son.length cur.thr p
  p.leave
termination_by sizeOf cur
decreasing_by
  rw [sizeOf_perm (sortSons_perm issort cur.son)]
  cases cur
  simp only [Process.mk.sizeOf_spec]
  omega

def searchSons (issort showpid : Bool) (nson nthr : Nat) (sons : List Process) (i : Nat) (p : Pen) :
    Except DrawFault Pen :=
  match sons with
  | [] => .ok p
  | son :: sons => do
    let ith : Int := if 1 < nson ∧ nthr = 0 ∧ nson - 1 = i then -1 else i
    let p ← search issort showpid son ith p
    searchSons issort showpid nson nthr sons (i + 1) p
termination_by sizeOf sons

end

/-- `main`, once the options are read. -/
def main (fresh : CInt → Stat) (issort showpid : Bool) (root : Proc) : Except (Fault ⊕ DrawFault) (List Byte) :=
  match getinfo fresh showpid root [] with
  | .error e => .error (.inl e)
  | .ok (root, tmp) =>
    match search issort showpid root 0 (Pen.start tmp) with
    | .error e => .error (.inr e)
    | .ok p => .ok p.out

end OsLabs.Pstree
