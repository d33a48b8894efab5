import Mathlib.Data.Int.Notation
import Vp2Motion.CString.Basic

namespace Vp2Motion.Firmware
open CString

def asciiBel : UInt8 := 0x07
def asciiBs : UInt8 := 0x08
def asciiLf : UInt8 := 0x0A
def asciiCr : UInt8 := 0x0D
def asciiEsc : UInt8 := 0x1B
def asciiDel : UInt8 := 0x7F
def asciiSpace : UInt8 := 0x20
def asciiBracket : UInt8 := 0x5B

def vt100ArrowUp : UInt8 := 0x41
def vt100ArrowDown : UInt8 := 0x42
def vt100ArrowRight : UInt8 := 0x43
def vt100ArrowLeft : UInt8 := 0x44

def cmdlineMaxCommands : ℕ := 30
def cmdlineBufferSize : ℕ := 50
def cmdlineHistorySize : ℕ := 10

/-- "cmd> ". -/
def cmdlinePrompt : List UInt8 := [0x63, 0x6D, 0x64, 0x3E, 0x20]

/-- "cmdline: ". -/
def cmdlineNotice : List UInt8 := [0x63, 0x6D, 0x64, 0x6C, 0x69, 0x6E, 0x65, 0x3A, 0x20]

/-- "command not found". -/
def cmdlineCmdNotFound : List UInt8 :=
  [0x63, 0x6F, 0x6D, 0x6D, 0x61, 0x6E, 0x64, 0x20, 0x6E, 0x6F, 0x74, 0x20, 0x66, 0x6F, 0x75, 0x6E,
    0x64]

/-- Assignment to a `uint8_t` and to an `int8_t`. -/
def u8 (n : ℕ) : ℕ := n % 256
def i8 (z : ℤ) : ℤ := z.bmod 256

theorem u8_eq (h : n < 256) : u8 n = n := Nat.mod_eq_of_lt h

theorem i8_eq (hlow : -128 ≤ z) (hhigh : z < 128) : i8 z = z := by
  rw [i8, Int.bmod_def]
  split <;> omega

/-- The values 0, 1 and 2 of `CmdlineInputVT100State`. -/
inductive VT100State where
  | text
  | esc
  | bracket
deriving DecidableEq

inductive HistoryAction where
  | save
  | prev
  | next

abbrev Row := Buf cmdlineBufferSize

/-- One call of a command function, with the `CmdlineBuffer` that it finds. -/
structure Execution (F : Type) where
  function : F
  buffer : Row

/-- The globals of `cmdline.c`, with function pointers of type `F` and the bytes
sent so far. Below, `none` is an access outside an array. -/
structure Cmdline (F : Type) where
  commandList : Vector Row cmdlineMaxCommands
  functionList : Vector (Option F) cmdlineMaxCommands
  numCommands : ℕ
  buffer : Row
  bufferLength : ℕ
  bufferEditPos : ℕ
  inputVT100State : VT100State
  history : Vector Row cmdlineHistorySize
  historyIdx : ℤ
  historyCnt : ℕ
  historyCopy : Bool
  execFunction : Option F
  output : List UInt8

namespace Cmdline
variable {F : Type}

def zeroed : Cmdline F where
  commandList := Vector.replicate _ (.zero _)
  functionList := Vector.replicate _ none
  numCommands := 0
  buffer := .zero _
  bufferLength := 0
  bufferEditPos := 0
  inputVT100State := .text
  history := Vector.replicate _ (.zero _)
  historyIdx := 0
  historyCnt := 0
  historyCopy := false
  execFunction := none
  output := []

def cmdlineInit (s : Cmdline F) : Cmdline F :=
  { s with
    inputVT100State := .text
    bufferLength := 0
    bufferEditPos := 0
    execFunction := none
    numCommands := 0
    historyIdx := -1
    historyCnt := 0
    historyCopy := false }

/-- `newCmdString` points to the bytes of `name` and a zero. -/
def cmdlineAddCommand (name : List UInt8) (newCmdFuncPtr : Option F) (s : Cmdline F) :
    Option (Cmdline F) :=
  if h : s.numCommands < cmdlineMaxCommands then do
    let row ← s.commandList[s.numCommands].strcpy (⟨name ++ [0], rfl⟩ : Buf _)
    return { s with
      commandList := s.commandList.set s.numCommands row
      functionList := s.functionList.set s.numCommands newCmdFuncPtr
      numCommands := u8 (s.numCommands + 1) }
  else none

def cmdlineOutput (cs : List UInt8) (s : Cmdline F) : Cmdline F :=
  { s with output := s.output ++ cs }

def cmdlinePrintPrompt (s : Cmdline F) : Cmdline F := s.cmdlineOutput cmdlinePrompt

def cmdlineRepaint (s : Cmdline F) : Option (Cmdline F) := do
  let line ← (List.range s.bufferLength).mapM s.buffer.get
  return ((s.cmdlineOutput [asciiCr]).cmdlinePrintPrompt.cmdlineOutput
    [asciiEsc, asciiBracket, 0x4B]).cmdlineOutput line

/-- `strcpy(CmdlineHistory[i], src)`. -/
def copyRow (rows : Vector Row cmdlineHistorySize) (i : ℕ) (src : Row) :
    Option (Vector Row cmdlineHistorySize) :=
  if h : i < cmdlineHistorySize then do
    let row ← rows[i].strcpy src
    return rows.set i row
  else none

/-- The loop that moves the first `i` entries up by one. -/
def shiftHistory (rows : Vector Row cmdlineHistorySize) :
    ℕ → Option (Vector Row cmdlineHistorySize)
  | 0 => some rows
  | i + 1 => do
    let src ← rows[i]?
    let rows ← copyRow rows (i + 1) src
    shiftHistory rows i

/-- The entry that a line replaces and the count afterwards. -/
def historySlot (s : Cmdline F) : ℤ × ℕ :=
  if s.historyCopy then
    let cnt := if cmdlineHistorySize ≤ s.historyCnt then cmdlineHistorySize - 1 else s.historyCnt
    (cnt, u8 (cnt + 1))
  else (s.historyIdx, s.historyCnt)

def historySave (s : Cmdline F) : Option (Cmdline F) := do
  let n ← strlen s.buffer.bytes
  if n = 0 then return s
  else
    let rows ← shiftHistory s.history s.historySlot.1.toNat
    let rows ← copyRow rows 0 s.buffer
    return { s with history := rows, historyCnt := s.historySlot.2 }

/-- The index after `CmdlineHistoryIdx++` and its two clamps. -/
def historyClamp (idx : ℤ) (cnt : ℕ) : ℤ :=
  let idx := i8 (idx + 1)
  let idx := if (cnt : ℤ) - 1 ≤ idx then i8 (cnt - 1) else idx
  if idx < 0 then 0 else idx

def historyRecall (s : Cmdline F) : Option (Cmdline F) := do
  let idx := historyClamp s.historyIdx s.historyCnt
  let row ← s.history[idx.toNat]?
  let buffer ← s.buffer.strcpy row
  let n ← strlen buffer.bytes
  let s ← cmdlineRepaint
    { s with
      historyIdx := idx
      buffer := buffer
      bufferLength := u8 n
      bufferEditPos := u8 n }
  return { s with historyCopy := false }

/-- The case of the next entry falls through into that of the previous one. -/
def cmdlineDoHistory (action : HistoryAction) (s : Cmdline F) : Option (Cmdline F) :=
  match action with
  | .save => s.historySave
  | .next => historyRecall { s with historyIdx := i8 (s.historyIdx - 2) }
  | .prev => s.historyRecall

def wordLength : List UInt8 → Option ℕ
  | [] => none
  | c :: cs => if c = asciiSpace ∨ c = 0 then some 0 else (wordLength cs).map (· + 1)

/-- The search loop over `left` commands from `cmdIndex` on, for a word of `n`
bytes. -/
def findCommand (s : Cmdline F) (n : ℕ) : (left cmdIndex : ℕ) → Option (Option ℕ)
  | 0, _ => some none
  | left + 1, cmdIndex => do
    let row ← s.commandList[cmdIndex]?
    if ← strncmpZero n row.bytes s.buffer.bytes then return some cmdIndex
    else findCommand s n left (cmdIndex + 1)

def cmdlinePrintError (s : Cmdline F) : Option (Cmdline F) := do
  let n ← wordLength s.buffer.bytes
  return s.cmdlineOutput (cmdlineNotice ++ s.buffer.bytes.take n ++ [0x3A, asciiSpace] ++
    cmdlineCmdNotFound ++ [asciiCr, asciiLf])

def cmdlineProcessInputString (s : Cmdline F) : Option (Cmdline F) := do
  let s ← s.cmdlineDoHistory .save
  let n ← wordLength s.buffer.bytes
  if n = 0 then return s.cmdlinePrintPrompt
  else
    match ← s.findCommand n s.numCommands 0 with
    | some cmdIndex =>
      let f ← s.functionList[cmdIndex]?
      return { s with execFunction := f }
    | none =>
      let s ← s.cmdlinePrintError
      return s.cmdlinePrintPrompt

/-- `for (i = CmdlineBufferLength; i > CmdlineBufferEditPos; i--)` of an insert. -/
def shiftUp (pos : ℕ) (a : Row) : ℕ → Option Row
  | 0 => some a
  | i + 1 =>
    if pos < i + 1 then do
      let c ← a.get i
      let a ← a.set (i + 1) c
      shiftUp pos a i
    else some a

/-- The loop of a delete, with `left` bytes to go from index `i` on. -/
def shiftDown (a : Row) (i : ℕ) : (left : ℕ) → Option Row
  | 0 => some a
  | left + 1 => do
    let c ← a.get (i + 1)
    let a ← a.set i c
    shiftDown a (i + 1) left

def insertChar (c : UInt8) (s : Cmdline F) : Option (Cmdline F) :=
  if s.bufferEditPos = s.bufferLength then
    if s.bufferLength < cmdlineBufferSize - 2 then do
      let buffer ← s.buffer.set s.bufferEditPos c
      return cmdlineOutput [c]
        { s with
          buffer := buffer
          bufferEditPos := u8 (s.bufferEditPos + 1)
          bufferLength := u8 (s.bufferLength + 1)
          historyCopy := true }
    else return s.cmdlineOutput [asciiBel]
  else if s.bufferLength < cmdlineBufferSize - 2 then do
    let length := u8 (s.bufferLength + 1)
    let shifted ← shiftUp s.bufferEditPos s.buffer length
    let buffer ← shifted.set s.bufferEditPos c
    let s ← cmdlineRepaint
      { s with
        buffer := buffer
        bufferEditPos := u8 (s.bufferEditPos + 1)
        bufferLength := length }
    return cmdlineOutput (List.replicate (s.bufferLength - s.bufferEditPos) asciiBs)
      { s with historyCopy := true }
  else return s.cmdlineOutput [asciiBel]

def enter (s : Cmdline F) : Option (Cmdline F) := do
  let buffer ← s.buffer.set s.bufferLength 0
  let s ← cmdlineProcessInputString
    { s.cmdlineOutput [asciiCr, asciiLf] with
      buffer := buffer
      bufferLength := u8 (s.bufferLength + 1)
      bufferEditPos := u8 (s.bufferEditPos + 1) }
  return { s with
    bufferLength := 0
    bufferEditPos := 0
    historyCopy := false
    historyIdx := -1 }

def deleteChar (s : Cmdline F) : Option (Cmdline F) :=
  if s.bufferEditPos = 0 then return s.cmdlineOutput [asciiBel]
  else
    let length := u8 (s.bufferLength + 255)
    let pos := u8 (s.bufferEditPos + 255)
    if s.bufferEditPos = s.bufferLength then
      return cmdlineOutput [asciiBs, asciiSpace, asciiBs]
        { s with bufferLength := length, bufferEditPos := pos }
    else do
      let buffer ← shiftDown s.buffer pos (length - pos)
      let s ← cmdlineRepaint
        { s with buffer := buffer, bufferLength := length, bufferEditPos := pos }
      return (s.cmdlineOutput [asciiSpace]).cmdlineOutput
        (List.replicate (length + 1 - pos) asciiBs)

/-- The switch over the byte after ESC and a bracket. -/
def vt100Code (c : UInt8) (s : Cmdline F) : Option (Cmdline F) :=
  if c = vt100ArrowUp then s.cmdlineDoHistory .prev
  else if c = vt100ArrowDown then s.cmdlineDoHistory .next
  else if c = vt100ArrowRight then
    if s.bufferEditPos < s.bufferLength then
      return cmdlineOutput [asciiEsc, asciiBracket, vt100ArrowRight]
        { s with bufferEditPos := u8 (s.bufferEditPos + 1) }
    else return s.cmdlineOutput [asciiBel]
  else if c = vt100ArrowLeft then
    if s.bufferEditPos ≠ 0 then
      return cmdlineOutput [asciiBs] { s with bufferEditPos := u8 (s.bufferEditPos + 255) }
    else return s.cmdlineOutput [asciiBel]
  else return s

/-- The part of `cmdlineInputFunc` after the VT100 handling. -/
def regular (c : UInt8) (s : Cmdline F) : Option (Cmdline F) :=
  if 0x20 ≤ c ∧ c < 0x7F then s.insertChar c
  else if c = asciiCr then s.enter
  else if c = asciiDel then s.deleteChar
  else if c = asciiEsc then return { s with inputVT100State := .esc }
  else return s

def cmdlineInputFunc (c : UInt8) (s : Cmdline F) : Option (Cmdline F) :=
  match s.inputVT100State with
  | .bracket => do
    let s ← s.vt100Code c
    return { s with inputVT100State := .text }
  | .esc =>
    if c = asciiBracket then return { s with inputVT100State := .bracket }
    else regular c { s with inputVT100State := .text }
  | .text => regular c { s with inputVT100State := .text }

/-- A command function leaves the globals of `cmdline.c` alone; it sends the bytes
`printed`. -/
def cmdlineMainLoop (printed : List UInt8) (s : Cmdline F) : Cmdline F × List (Execution F) :=
  match s.execFunction with
  | some f =>
    (cmdlinePrintPrompt { s.cmdlineOutput printed with execFunction := none }, [⟨f, s.buffer⟩])
  | none => (s, [])

/-- How many bytes pass `while (*p != 0 && test(*p)) p++;`. -/
def skip (test : UInt8 → Bool) : List UInt8 → Option ℕ
  | [] => none
  | c :: cs => if c ≠ 0 ∧ test c then (skip test cs).map (· + 1) else some 0

/-- The loop of `cmdlineGetArgStr`, with `left` arguments to go from `idx` on. -/
def skipArgs (bytes : List UInt8) (idx : ℕ) : (left : ℕ) → Option ℕ
  | 0 => some idx
  | left + 1 => do
    let n ← skip (· ≠ asciiSpace) (bytes.drop idx)
    let idx := u8 (idx + n)
    let n ← skip (· = asciiSpace) (bytes.drop idx)
    skipArgs bytes (u8 (idx + n)) left

/-- The index of the byte that `cmdlineGetArgStr` points to, in a buffer that holds
`bytes`. -/
def cmdlineGetArgStr (argnum : UInt8) (bytes : List UInt8) : Option ℕ := do
  let n ← skip (· = asciiSpace) bytes
  skipArgs bytes (u8 n) argnum.toNat

/-- Registering `commands` and then feeding `input`. -/
def session (commands : List (List UInt8 × Option F)) (input : List UInt8) : Option (Cmdline F) := do
  let s ← commands.foldlM (fun s c => cmdlineAddCommand c.1 c.2 s) zeroed.cmdlineInit
  input.foldlM (fun s c => cmdlineInputFunc c s) s

end Cmdline

end Vp2Motion.Firmware
