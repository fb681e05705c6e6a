import Mathlib.Algebra.Order.Ring.Rat
import OsLabs.Data.Exchange
import OsLabs.Util.Number

/-!
# The table of system calls

`info` of `sperf`, with exact numbers for its `double`s. Of `draw_graph` there is what it
does to the table; what it prints depends on the table and nothing depends on it.
-/

namespace OsLabs.Sperf
open Util Function

structure Syscall where
  name : List Byte
  time : ℚ
  color : Nat
  deriving DecidableEq

structure State where
  info : Nat → Syscall
  hInfo : Nat
  colorP : Nat
  sum : ℚ
  totalTime : ℚ

/-- A write outside `info`, or by `strcpy` outside the name of a row. -/
inductive Fault where
  | info
  | name
  deriving DecidableEq, Repr

def infoSize : Nat := 1024
def nameSize : Nat := 64
def colorSet : List Nat := [41, 42, 43, 44, 45, 46, 47, 101]
def colorNum : Nat := 7

def init : State := ⟨fun _ => ⟨[], 0, 0⟩, 0, 0, 0, 0⟩

def State.rows (s : State) : List Syscall := live s.info s.hInfo

def loc (s : State) (name : List Byte) : Except Fault (Nat × State) :=
  match (List.range s.hInfo).find? fun i => name = (s.info i).name with
  | some i => .ok (i, s)
  | none =>
    if infoSize ≤ s.hInfo then .error .info
    else if nameSize ≤ name.length then .error .name
    else .ok (s.hInfo, { s with
      info := update s.info s.hInfo { s.info s.hInfo with name, color := colorSet.getD s.colorP 0 }
      colorP := (s.colorP + 1) % colorNum
      hInfo := s.hInfo + 1 })

def count (s : State) (name : List Byte) (dur : ℚ) : Except Fault State := do
  let (i, s) ← loc s name
  .ok { s with info := update s.info i { s.info i with time := (s.info i).time + dur } }

def sort (s : State) : State := { s with info := exchangeSort (fun x y => x.time < y.time) s.hInfo s.info }

/-- `total_time/sum>0.95`; a quotient by zero is infinite, or no number, and then not larger. -/
def overLimit (totalTime sum : ℚ) : Bool := if sum = 0 then 0 < totalTime else 19 / 20 < totalTime / sum

/-- `total_time` behind the loop of `draw_graph`, from the times of the rows that are still to come. -/
def drawn (sum : ℚ) : List ℚ → ℚ → ℚ
  | [], totalTime => totalTime
  | time :: times, totalTime => if overLimit totalTime sum then totalTime else drawn sum times (totalTime + time)

def setOthers (s : State) : Except Fault State :=
  if infoSize ≤ s.hInfo then .error .info
  else .ok { s with info := update s.info s.hInfo ⟨cstr "others", s.sum - s.totalTime, 101⟩ }

def drawGraph (s : State) : Except Fault State :=
  let times := s.rows.map Syscall.time
  setOthers { s with sum := times.sum, totalTime := drawn times.sum times 0 }

/-- A system call that has been parsed, or a redraw. -/
inductive Event where
  | call (name : List Byte) (dur : ℚ)
  | draw

def step (s : State) : Event → Except Fault State
  | .call name dur => count s name dur
  | .draw => drawGraph (sort s)

def run (events : List Event) : Except Fault State := events.foldlM step init

end OsLabs.Sperf
