import OsLabs.Devices.Input
import OsLabs.Devices.Keyboard
import OsLabs.Devices.Screen

/-!
# The console

`input_task`, the ring of events, `tty_task`, the four ttys, and the tasks that read
and write them. Key codes go in, the lines come out of the reads of the tty that was
in front when they were typed, and the line that is still being typed stands on the
screen.
-/

namespace OsLabs.Devices.Console
open Function Util

variable {lines columns : Nat}

abbrev TtyId := Fin 4

def front (tty : TtyId) (ev : InputEvent) : TtyId :=
  if ev.alt = 0 then tty
  else if ev.data = 49 then 0
  else if ev.data = 50 then 1
  else if ev.data = 51 then 2
  else if ev.data = 52 then 3
  else tty

/-- The modifiers and the codes that `input_task` has taken, the ring with the calls on it, the events that `tty_task`
has dealt with, the tty in front, the character that it still has to write, and the ttys.

Besides: the events pushed so far, and for each tty the part of its unfinished line that was written, and whether
nothing else was written since that line began. -/
structure State where
  modifiers : Modifiers
  codes : List CInt
  input : Devices.State InputEvent
  handled : Nat
  ttydev : TtyId
  echo : Option (TtyId × Byte)
  session : TtyId → Session
  screen : TtyId → Screen
  events : List InputEvent
  shown : TtyId → Line
  whole : TtyId → Bool

def NoPush (calls : List (Call InputEvent)) : Prop := ∀ call ∈ calls, call = .wait ∨ call = .read

def NoPop (calls : List (Call InputEvent)) : Prop := ∀ call ∈ calls, (∃ ev, call = .store ev) ∨ call = .signal

def typeLine (line : Line) (ch : Byte) : Line := (typeChar ([], line) ch).2

inductive Label where
  | key (code : CInt)
  | ring
  | pop
  | hotkey
  | cook
  | echo
  | write (tty : TtyId)
  | take (tty : TtyId)
  | read (tty : TtyId)

/-- `input_task` takes the next code when its `push_event` is done, and `tty_task` the next event when it is done with
the last. -/
inductive Step : State → Label → State → Prop where
  | key {s : State} {code : CInt} {modifiers : Modifiers} {ev : Option InputEvent} (isCode : IsCode code)
      (running : s.input.panic = none) (done : NoPush s.input.calls)
      (down : inputKeydown s.modifiers code = some (modifiers, ev)) :
      Step s (.key code) { s with
        modifiers := modifiers
        codes := s.codes ++ [code]
        input := { s.input with calls := ev.toList.map .store ++ s.input.calls }
        events := s.events ++ ev.toList }
  | ring {s : State} {call : Call InputEvent} {input : Devices.State InputEvent}
      (made : Devices.Step s.input (.run call) input) : Step s .ring { s with input := input }
  | pop {s : State} (running : s.input.panic = none) (done : NoPop s.input.calls) (idle : s.echo = none)
      (all : s.handled = s.input.returned.length) :
      Step s .pop { s with input := { s.input with calls := .wait :: s.input.calls } }
  | hotkey {s : State} {ev : InputEvent} (idle : s.echo = none) (next : s.input.returned[s.handled]? = some ev)
      (hot : cookedChar ev = none) :
      Step s .hotkey { s with handled := s.handled + 1, ttydev := front s.ttydev ev }
  | cook {s : State} {ev : InputEvent} {ch : Byte} {tty : Tty} {ret : Int} (idle : s.echo = none)
      (next : s.input.returned[s.handled]? = some ev) (plain : cookedChar ev = some ch)
      (done : ttyCook (s.session s.ttydev).tty ch = some (tty, ret)) :
      Step s .cook { s with
        handled := s.handled + 1
        echo := if ret = 0 then some (s.ttydev, ch) else none
        session := update s.session s.ttydev
          { s.session s.ttydev with tty := tty, typed := (s.session s.ttydev).typed ++ [ch] } }
  | echo {s : State} {t : TtyId} {ch : Byte} {screen : Screen} (pending : s.echo = some (t, ch))
      (done : putAll (s.screen t) [ch] = some screen) :
      Step s .echo { s with
        echo := none
        screen := update s.screen t screen
        shown := update s.shown t (typeLine (s.shown t) ch)
        whole := update s.whole t (s.whole t || ch = newline) }
  | write {s : State} {t : TtyId} {bytes : List Byte} {screen : Screen}
      (done : putAll (s.screen t) bytes = some screen) :
      Step s (.write t) { s with
        screen := update s.screen t screen
        whole := update s.whole t (s.shown t = [] || (s.whole t && bytes = [])) }
  | take {s : State} {t : TtyId} {count : Nat} {session : Session} (made : Typing (s.session t) (.take count) session) :
      Step s (.take t) { s with session := update s.session t session }
  | read {s : State} {t : TtyId} {session : Session} (made : Typing (s.session t) .read session) :
      Step s (.read t) { s with session := update s.session t session }

def newSession : Session := ⟨⟨⟨fun _ => 0, 0, 0⟩, 0⟩, [], [], []⟩

/-- After `dev_init`, with the buffers of the ttys zero-filled. -/
structure Booted (lines columns : Nat) (s : State) : Prop where
  modifiers : s.modifiers = released
  codes : s.codes = []
  input : (inputs InputEvent).Init s.input
  handled : s.handled = 0
  ttydev : s.ttydev = 0
  echo : s.echo = none
  session : s.session = fun _ => newSession
  screen : s.screen = fun _ => ttyInit lines columns
  events : s.events = []
  shown : s.shown = fun _ => []
  whole : s.whole = fun _ => true

variable {s s' : State} {l : Label} {t : TtyId}

/-! ### The events of the codes -/

end OsLabs.Devices.Console
