import OsLabs.Data.Stream

/-!
# The key-value database

`check_journal`, `kvdb_put` and `kvdb_get` over a byte file with a position, with
the locks taken. `none` is a loop that used up its fuel or a use of memory that
was never written.
-/

namespace OsLabs.Kvdb

def newline : Byte := 10
def blank : Byte := 32

def toInt (n : Int) : Int := n.bmod (2 ^ 32)

def ishead (f : Stream) : Bool := f.pos = 0

def fscanfBak (f : Stream) (flag : Byte) : Byte × Stream :=
  let (flag, f) := (f.seekCur (-1)).getByte flag
  (flag, f.seekCur (-1))

def fscanfVal (f : Stream) (len : Int) : Option (List Byte) × Stream :=
  let (des, f) := f.getWord len
  (des, f.seekCur (-len))

/-- The loops that step back until `stop` is read or the start of the file is reached; `tally`
updates their counter for the byte read. -/
def scanBack (stop : Byte) (tally : Byte → Int → Int) : Nat → Stream → Byte → Int → Option (Byte × Int × Stream)
  | 0, _, _, _ => none
  | fuel + 1, f, flag, n =>
    if flag ≠ stop ∧ !ishead f then
      let (flag, f) := fscanfBak f flag
      scanBack stop tally fuel f flag (tally flag n)
    else some (flag, n, f)

def countBlank (flag : Byte) (hasBlank : Int) : Int := if flag = blank then toInt (hasBlank + 1) else hasBlank

def countByte (_ : Byte) (len : Int) : Int := toInt (len + 1)

/-! ### Journal -/

/-- The outer loop of `check_journal`: `consist`, `to_trun` and the file when it ends. -/
def journalLoop : Nat → Stream → Byte → Int → Option (Bool × Int × Stream)
  | 0, _, _, _ => none
  | fuel + 1, f, flag, toTrun =>
    if ishead f then some (false, toTrun, f)
    else
      let toTrun := toInt f.pos
      let (flag, f) := fscanfBak f flag
      if flag = newline then do
        let (flag, hasBlank, f) ← scanBack newline countBlank fuel f 0 0
        if flag = newline ∧ hasBlank = 1 then some (true, toTrun, f)
        else if flag = newline then journalLoop fuel (f.seekCur 1) flag toTrun
        else journalLoop fuel f flag toTrun
      else journalLoop fuel f flag toTrun

def checkJournal (fuel : Nat) (f : Stream) : Option Stream := do
  let f := f.seekEnd
  let (consist, toTrun, f) ← journalLoop fuel f 0 (toInt f.pos)
  let toTrun := if !consist && ishead f then toInt f.pos else toTrun
  some (f.truncate toTrun)

/-! ### Operations -/

/-- What `fprintf` writes for a key and a value. -/
def record (key value : List Byte) : List Byte := newline :: key ++ blank :: value ++ [newline]

def kvdbPut (fuel : Nat) (f : Stream) (key value : List Byte) : Option Stream := do
  let f ← checkJournal fuel f
  some (f.seekEnd.put (record key value))

def cstr (s : List Byte) : List Byte := s.takeWhile (· ≠ 0)

def getLoop : Nat → Stream → List Byte → Option (Option (List Byte) × Stream)
  | 0, _, _ => none
  | fuel + 1, f, key =>
    if ishead f then some (none, f)
    else do
      let (_, f) := fscanfBak f 0
      let (_, len, f) ← scanBack blank countByte fuel f 0 0
      let (tmpValue, f) := fscanfVal f len
      let (_, len, f) ← scanBack newline countByte fuel f 0 0
      let (tmpKey, f) := fscanfVal f len
      if cstr (← tmpKey) = key then some (some (cstr (← tmpValue)), f)
      else getLoop fuel f key

/-- The value found and the file afterwards; `some none` is the return of `NULL`. -/
def kvdbGet (fuel : Nat) (f : Stream) (key : List Byte) : Option (Option (List Byte) × Stream) := do
  let f ← checkJournal fuel f
  getLoop fuel f.seekEnd key

end OsLabs.Kvdb
