import OsLabs.Data.CString
import OsLabs.Util.Number
import OsLabs.Vfs.FileSystems

/-!
# The shell

`shell_task`: a line is cut into a command and its operands, and a command calls the
VFS and leaves what is to be printed in `text`. The buffers of paths have 128 bytes
and `text` has 1024.
-/

namespace OsLabs.Shell
open Util Vfs

/-! ### Lines -/

/-- The command of a line; `none` where the operands are missing. -/
inductive Command where
  | pwd
  | exit
  | cd (arg1 : Option Path)
  | stat (arg1 : Option Path)
  | ls (arg1 : Option Path)
  | mkdir (arg1 : Option Path)
  | rmdir (arg1 : Option Path)
  | rm (arg1 : Option Path)
  | touch (arg1 : Option Path)
  | cat (arg1 : Option Path)
  | link (args : Option (Path × Path))
  | open (arg1 : Option Path)
  | close (arg1 : Option Path)
  | write (args : Option (Path × Path))
  | read (arg1 : Option Path)
  | lseek (args : Option (Path × Path)) (whence : Int)
  | mount
  | unknown
  deriving DecidableEq

def space : Byte := 32

def get1arg (text : List Byte) (len : Nat) : Option Path :=
  if text[len]? = some space then some (text.drop (len + 1)) else none

/-- The two operands; a text without the second space counts as one without operands. -/
def get2arg (text : List Byte) (len : Nat) : Option (Path × Path) := do
  let operands ← get1arg text len
  let arg1 := operands.takeWhile (· ≠ space)
  if arg1.length < operands.length then some (arg1, operands.drop (arg1.length + 1)) else none

def iscmd (line : List Byte) (cmd : String) : Bool := (cstr cmd).isPrefixOf line

/-- The command of a line, in the order of the tests. -/
def parse (line : List Byte) : Command :=
  if line = cstr "pwd" then .pwd
  else if line = cstr "exit" then .exit
  else if iscmd line "cd" then .cd (get1arg line 2)
  else if iscmd line "stat" then .stat (get1arg line 4)
  else if iscmd line "ls" then .ls (get1arg line 2)
  else if iscmd line "mkdir" then .mkdir (get1arg line 5)
  else if iscmd line "rmdir" then .rmdir (get1arg line 5)
  else if iscmd line "rm" then .rm (get1arg line 2)
  else if iscmd line "touch" then .touch (get1arg line 5)
  else if iscmd line "cat" then .cat (get1arg line 3)
  else if iscmd line "link" then .link (get2arg line 4)
  else if iscmd line "open" then .open (get1arg line 4)
  else if iscmd line "close" then .close (get1arg line 5)
  else if iscmd line "write" then .write (get2arg line 5)
  else if iscmd line "read" then .read (get1arg line 4)
  else if iscmd line "lkset" then .lseek (get2arg line 5) 0
  else if iscmd line "lkcur" then .lseek (get2arg line 5) 1
  else if iscmd line "lkend" then .lseek (get2arg line 5) 2
  else if line = cstr "mount" then .mount
  else .unknown

/-! ### Texts -/

def success (text : List Byte) : List Byte := cstr "[SUCCESS]: " ++ text
def fail (text : List Byte) : List Byte := cstr "[FAIL]: " ++ text

/-- `%d` and `%x`. -/
def showInt (n : Int) : List Byte := cstr (toString n)
def showHex (n : Nat) : List Byte := (Nat.toDigits 16 n).map fun c => c.toNat.toUInt8

def padRight (text : List Byte) : List Byte := text ++ List.replicate (12 - text.length) space

/-- A text with one or two operands and the end of the line. -/
def phrase (front : String) (operand : List Byte) (middle : String) (last : List Byte) : List Byte :=
  cstr front ++ operand ++ cstr middle ++ last ++ cstr "\n"

def missingOperand : List Byte := fail (cstr "missing operand\n")
def noSuchFile (file : Path) : List Byte := fail (phrase "no such file or directory " file "" [])
def notDirectory (file : Path) : List Byte := fail (phrase "not a directory: " file "" [])
def isDirectory (file : Path) : List Byte := fail (phrase "Is a directory: " file "" [])

/-! ### Commands -/

/-- What uninitialized locals and arguments that were not passed hold. -/
structure Junk where
  word : Int
  typename : List Byte
  additional : List Byte

structure Locals where
  pwd : Path
  text : List Byte

/-- Why a command does not return: what happened in the VFS, a text that does not fit its buffer, or `_halt`. -/
inductive Stop (E : Type) where
  | vfs (e : Vfs.Stop E)
  | overflow
  | halted

def call {E α : Type} (x : Except (Vfs.Stop E) α) : Except (Stop E) α := x.mapError .vfs

def pathBytes : Nat := 128

/-- `sizeof(text)`, and how much of it `ls` fills. -/
def textBytes : Nat := 1024
def listBytes : Nat := 128

/-- `sprintf` to a buffer for paths. -/
def fits {E : Type} (path : Path) : Except (Stop E) Path :=
  if path.length < pathBytes then .ok path else .error .overflow

def modify {E : Type} (pwd file : Path) : Except (Stop E) Path :=
  if file.head? = some slash then .ok file else fits (pwd ++ file)

def Locals.store {E : Type} (l : Locals) (bytes : List Byte) : Except (Stop E) Locals :=
  match poke l.text 0 bytes with
  | some text => .ok { l with text := text }
  | none => .error .overflow

def Locals.say {E : Type} (l : Locals) (text : List Byte) : Except (Stop E) Locals := l.store (text ++ [0])

variable {W S I E : Type} (D : FileSystems W S I E)

abbrev After (W S I : Type) := State W S I × Locals

/-- `FILE(fd)` where it is followed. -/
def fileAt (s : State W S I) (fd : Int) : Except (Stop E) (File I) := do
  match ← call (s.file fd) with
  | some file => .ok file
  | none => .error (.vfs .null)

/-- One component of `arg1`, as the loop of `cd` takes it. -/
inductive Move where
  | stay
  | up
  | enter (name : Path)
  deriving DecidableEq

/-- The rounds of the loop from `arg1 + ptr` on: behind dots, `ptr` jumps. -/
def cdMovesFrom : Nat → List Byte → List Move
  | _, [] => []
  | 0, _ => []
  | fuel + 1, c :: rest =>
    if c = 46 then
      if rest.head? = some 46 then .up :: cdMovesFrom fuel (rest.drop 2)
      else .stay :: cdMovesFrom fuel (rest.drop 1)
    else
      let name := (c :: rest).takeWhile (· ≠ slash)
      .enter name :: cdMovesFrom fuel ((c :: rest).drop (name.length + 1))

def cdMoves (arg1 : Path) : List Move :=
  let operand := if arg1.head? = some slash then arg1.drop 1 else arg1
  cdMovesFrom operand.length operand

/-- `pwd` up to its last slash but one. -/
def parent (pwd : Path) : Path :=
  if 1 < pwd.length then
    match lastSlash 0 (pwd.take (pwd.length - 1)) with
    | some i => pwd.take (i + 1)
    | none => pwd
  else pwd

/-- The rounds of the loop of `cd`, with `ret`. -/
def cdLoop (s : State W S I) (pwd : Path) : List Move → Int → Except (Stop E) (State W S I × Path × Int)
  | [], ret => .ok (s, pwd, ret)
  | .stay :: moves, ret => cdLoop s pwd moves ret
  | .up :: moves, ret => cdLoop s (parent pwd) moves ret
  | .enter tmpfile :: moves, ret => do
    let tmppwd ← fits (pwd ++ tmpfile)
    let (s, fd) ← call (vfsOpen D.toDriver s tmppwd false)
    if 0 ≤ fd then do
      let file ← fileAt s fd
      -- a file is left open, and the loop goes on
      if D.isDir file.inode then do
        let (s, _) ← call (vfsClose D.toDriver s fd)
        cdLoop s (← fits (tmppwd ++ [slash])) moves ret
      else cdLoop s pwd moves (-2)
    else .ok (s, pwd, -1)

def cdText (pwd arg1 : Path) (ret : Int) : List Byte :=
  if ret = 0 then success (phrase "change director to " pwd "" [])
  else if ret = -1 then fail (phrase "no such file or directory: " arg1 "" [])
  else notDirectory arg1

def cd (s : State W S I) (l : Locals) : Option Path → Except (Stop E) (After W S I)
  | none => do .ok (s, ← { l with pwd := [slash] }.say (cdText [slash] [] 0))
  | some arg1 => do
    let pwd := if arg1.head? = some slash then [slash] else l.pwd
    let (s, pwd, ret) ← cdLoop D s pwd (cdMoves arg1) 0
    .ok (s, ← { l with pwd := pwd }.say (cdText pwd arg1 ret))

def withFile (s : State W S I) (l : Locals) (file : Path)
    (k : State W S I → Int → File I → Except (Stop E) (After W S I)) : Except (Stop E) (After W S I) := do
  let (s, fd) ← call (vfsOpen D.toDriver s file false)
  if fd < 0 then .ok (s, ← l.say (noSuchFile file)) else k s fd (← fileAt s fd)

/-- `typename` and `additional`, taken as long enough for what `stat` stores in them. -/
def statNames (junk : Junk) (a : Attrs) : List Byte × List Byte :=
  if a.type = FileType.dr.toNat then
    (cstr "directory", phrase "Number of Files: " (showInt (a.dirLen - 2)) "" [])
  else if a.type = FileType.nf.toNat then (cstr "normal file", [])
  else if a.type = FileType.dvChar.toNat then (cstr "char device", [])
  else if a.type = FileType.dvBlock.toNat then (cstr "block device", [])
  else (junk.typename, junk.additional)

def statText (junk : Junk) (file : Path) (a : Attrs) (dev : Path) (id : Nat) : List Byte :=
  let (typename, additional) := statNames junk a
  phrase "  File: " file "\n  Type: " typename ++ phrase "  Size: " (showInt a.size) "\nDevice: " dev ++
    phrase "Access: " (showHex a.permission) "\n    ID: " (showInt id) ++
      phrase " Links: " (showInt a.linkNum) "" [] ++ additional

def stat (junk : Junk) (s : State W S I) (l : Locals) : Option Path → Except (Stop E) (After W S I)
  | none => do .ok (s, ← l.say missingOperand)
  | some arg1 => do
    let file ← modify l.pwd arg1
    withFile D s l file fun s fd f => do
      match D.devName (D.ident f.inode).1 with
      | none => .error (.vfs .null)
      | some dev =>
        let l ← l.say (statText junk file (D.attrs f.inode) dev (D.ident f.inode).2)
        let (s, _) ← call (vfsClose D.toDriver s fd)
        .ok (s, l)

/-- `vfs->read(fd, text, nbyte)` into `text`, of which `clear` bytes are zeroed first. -/
def readText (s : State W S I) (l : Locals) (fd : Int) (clear nbyte : Nat) :
    Except (Stop E) (State W S I × Locals × Int) := do
  let l ← l.store (List.replicate clear 0)
  let (s, text, bytes) ← call (vfsRead D.toDriver s fd l.text nbyte)
  .ok (s, { l with text := text }, bytes)

def cannotRead (fd : Int) : List Byte := fail (phrase "cannot read to file with fd=" (showInt fd) "" [])

def ls (s : State W S I) (l : Locals) (arg1 : Option Path) : Except (Stop E) (After W S I) := do
  let file ← modify l.pwd (arg1.getD l.pwd)
  withFile D s l file fun s fd f => do
    if D.isDir f.inode then do
      let (s, l, _) ← readText D s l fd listBytes listBytes
      let (s, _) ← call (vfsClose D.toDriver s fd)
      .ok (s, l)
    else .ok (s, ← l.say (notDirectory file))

def mkdir (s : State W S I) (l : Locals) : Option Path → Except (Stop E) (After W S I)
  | none => do .ok (s, ← l.say missingOperand)
  | some arg1 => do
    let file ← modify l.pwd arg1
    let (s, _) ← call (vfsMkdir D s file)
    .ok (s, ← l.say (success (phrase "create " file "" [])))

/-- `rmdir` and `rm`: which files are for the other command, what is printed then, and how the name is removed. -/
def remove (wrong : I → Bool) (text : Path → List Byte)
    (unlink : State W S I → Path → Except (Vfs.Stop E) (State W S I × Int)) (s : State W S I) (l : Locals) :
    Option Path → Except (Stop E) (After W S I)
  | none => do .ok (s, ← l.say missingOperand)
  | some arg1 => do
    let file ← modify l.pwd arg1
    withFile D s l file fun s fd f => do
      if wrong f.inode then .ok (s, ← l.say (text file))
      else do
        let (s, _) ← call (vfsClose D.toDriver s fd)
        let (s, ret) ← call (unlink s file)
        if ret = 0 then .ok (s, ← l.say (success (phrase "remove " file "" [])))
        else .ok (s, ← l.say (fail (phrase "fail to remove " file "" [])))

def rmdir : State W S I → Locals → Option Path → Except (Stop E) (After W S I) :=
  remove D (fun i => !D.isDir i) notDirectory (vfsRmdir D)

def rm : State W S I → Locals → Option Path → Except (Stop E) (After W S I) :=
  remove D (fun i => D.isDir i) isDirectory (vfsUnlink D)

def touch (s : State W S I) (l : Locals) : Option Path → Except (Stop E) (After W S I)
  | none => do .ok (s, ← l.say missingOperand)
  | some arg1 => do
    let file ← modify l.pwd arg1
    let (s, fd) ← call (vfsOpen D.toDriver s file false)
    if 0 ≤ fd then .ok (s, ← l.say (fail (phrase "file already exists " file "" [])))
    else do
      let (s, fd) ← call (vfsOpen D.toDriver s file true)
      if 0 ≤ fd then do
        let (s, _) ← call (vfsClose D.toDriver s fd)
        .ok (s, ← l.say (success (phrase "create file " file "" [])))
      else .ok (s, ← l.say (fail (phrase "cannot create file " file "" [])))

def cat (s : State W S I) (l : Locals) : Option Path → Except (Stop E) (After W S I)
  | none => do .ok (s, ← l.say missingOperand)
  | some arg1 => do
    let file ← modify l.pwd arg1
    withFile D s l file fun s fd f => do
      if D.isDir f.inode then .ok (s, ← l.say (isDirectory file))
      else do
        let (s, l, bytes) ← readText D s l fd textBytes textBytes
        let l ← if bytes < 0 then l.say (cannotRead fd) else .ok l
        let (s, _) ← call (vfsClose D.toDriver s fd)
        .ok (s, l)

def link (s : State W S I) (l : Locals) : Option (Path × Path) → Except (Stop E) (After W S I)
  | none => do .ok (s, ← l.say missingOperand)
  | some (arg1, arg2) => do
    let oldpath ← modify l.pwd arg1
    let newpath ← modify l.pwd arg2
    let (s, ret) ← call (vfsLink D.toDriver s oldpath newpath)
    if ret = -1 then .ok (s, ← l.say (fail (phrase "cannot create link to file " oldpath "" [])))
    else .ok (s, ← l.say (success (phrase "create link " newpath " -> " oldpath)))

def openCmd (s : State W S I) (l : Locals) : Option Path → Except (Stop E) (After W S I)
  | none => do .ok (s, ← l.say missingOperand)
  | some arg1 => do
    let file ← modify l.pwd arg1
    withFile D s l file fun s fd f => do
      if D.isDir f.inode then .ok (s, ← l.say (isDirectory file))
      else .ok (s, ← l.say (success (phrase "open file " file " -> fd=" (showInt fd))))

def number (arg : Path) : Int := (atoi arg).toInt

def close (junk : Junk) (s : State W S I) (l : Locals) : Option Path → Except (Stop E) (After W S I)
  | none => do .ok (s, ← l.say missingOperand)
  | some arg1 => do
    let fd := number arg1
    let (s, ret) ← call (vfsClose D.toDriver s fd)
    if ret = 0 then .ok (s, ← l.say (success (phrase "close file with fd=" (showInt fd) "" [])))
    else .ok (s, ← l.say (fail (phrase "unable to close file with fd=" (showInt junk.word) "" [])))

def write (s : State W S I) (l : Locals) : Option (Path × Path) → Except (Stop E) (After W S I)
  | none => do .ok (s, ← l.say missingOperand)
  | some (arg1, arg2) => do
    let fd := number arg1
    let (s, bytes) ← call (vfsWrite D.toDriver s fd arg2)
    if 0 ≤ bytes then
      .ok (s, ← l.say (success (phrase "write " (showInt bytes) " bytes to file with fd=" (showInt fd))))
    else .ok (s, ← l.say (fail (phrase "cannot write to file with fd=" (showInt fd) "" [])))

/-- Without an operand it also reads, from descriptor 0. -/
def read (s : State W S I) (l : Locals) (arg1 : Option Path) : Except (Stop E) (After W S I) := do
  let l ← if arg1 = none then l.say missingOperand else .ok l
  let fd := number (arg1.getD [])
  let (s, l, bytes) ← readText D s l fd 0 textBytes
  if bytes < 0 then .ok (s, ← l.say (cannotRead fd)) else .ok (s, l)

/-- `lkset`, `lkcur` and `lkend`. -/
def lseek (s : State W S I) (l : Locals) (whence : Int) : Option (Path × Path) → Except (Stop E) (After W S I)
  | none => do .ok (s, ← l.say missingOperand)
  | some (arg1, arg2) => do
    let fd := number arg1
    let (s, of) ← call (vfsLseek D.toDriver s fd (number arg2) whence)
    if of < 0 then .ok (s, ← l.say (phrase "cannot set offset for file with fd=" (showInt fd) "" []))
    else .ok (s, ← l.say (phrase "set offset to " (showInt of) " for file with fd=" (showInt fd)))

/-- The lines of the table; the device of a file system without one is followed too. -/
def mountLines : List (Mountpoint S) → Except (Stop E) (List Byte)
  | [] => .ok []
  | m :: ms =>
    if m.exist then do
      match m.fs.bind D.devName with
      | none => .error (.vfs .null)
      | some dev => do .ok (padRight m.path ++ dev ++ cstr "\n" ++ (← mountLines ms))
    else mountLines ms

def mount (s : State W S I) (l : Locals) : Except (Stop E) (After W S I) := do
  .ok (s, ← l.say (cstr "PATH        DEVICE\n" ++ (← mountLines D s.mpt.toList)))

/-- The command of a line, run in a state of the system with the locals of the shell. -/
def run (junk : Junk) (s : State W S I) (l : Locals) (line : List Byte) : Except (Stop E) (After W S I) :=
  match parse line with
  | .pwd => do .ok (s, ← l.say (phrase "" l.pwd "" []))
  | .exit => .error .halted
  | .cd arg1 => cd D s l arg1
  | .stat arg1 => stat D junk s l arg1
  | .ls arg1 => ls D s l arg1
  | .mkdir arg1 => mkdir D s l arg1
  | .rmdir arg1 => rmdir D s l arg1
  | .rm arg1 => rm D s l arg1
  | .touch arg1 => touch D s l arg1
  | .cat arg1 => cat D s l arg1
  | .link args => link D s l args
  | .open arg1 => openCmd D s l arg1
  | .close arg1 => close D junk s l arg1
  | .write args => write D s l args
  | .read arg1 => read D s l arg1
  | .lseek args whence => lseek D s l whence args
  | .mount => mount D s l
  | .unknown => do .ok (s, ← l.say (fail (phrase "command not found " line "" [])))

/-! ### The loop -/

structure Terminal where
  name : Path
  fd : Int

def printText (term : Terminal) (s : State W S I) (l : Locals) : Except (Stop E) (State W S I) :=
  match strlen l.text with
  | some n => do
    let (s, _) ← call (vfsWrite D.toDriver s term.fd (l.text.take n))
    .ok s
  | none => .error .overflow

/-- The round up to the command: the prompt, and the line read into `line`, whose last byte becomes its end. -/
def prompt (term : Terminal) (s : State W S I) (l : Locals) (line : List Byte) :
    Except (Stop E) (State W S I × Locals × List Byte) := do
  let l ← l.say (cstr "(" ++ term.name ++ cstr "):" ++ l.pwd ++ cstr " $ ")
  let s ← printText D term s l
  let (s, line, nread) ← call (vfsRead D.toDriver s term.fd line pathBytes)
  if 1 ≤ nread then
    match poke line (nread - 1).toNat [0] with
    | some line => .ok (s, l, line)
    | none => .error .overflow
  else .error .overflow

/-- The rest of the round, with the command of the line. -/
def execute (junk : Junk) (term : Terminal) (s : State W S I) (l : Locals) (line : List Byte) :
    Except (Stop E) (After W S I) := do
  let (s, l) ← run D junk s l (line.takeWhile (· ≠ 0))
  .ok (← printText D term s l, l)

end OsLabs.Shell
