import Mathlib.Data.List.GetD
import Mathlib.Data.List.Induction
import Vp2Motion.CString.Words
import Vp2Motion.Proofs.LineBuffer
import Vp2Motion.Proofs.HistoryRows

namespace Vp2Motion.Proofs.CommandLine
open CString Firmware Firmware.Cmdline Line LineBuffer HistoryRows

variable {F : Type}

/-- The editor as the code has it: a recalled line takes the place of its entry
unless a character has been inserted into it. -/
def coded : Rules where
  capacity := cmdlineBufferSize - 2
  size := cmdlineHistorySize
  replaces o := o ≠ .typed

structure Refines (s : Cmdline F) (e : Editor UInt8) : Prop where
  line : Shows s.buffer s.bufferLength s.bufferEditPos e.line
  history : Remembers s.history s.historyCnt e.history
  idx : s.historyIdx = e.idx
  low : -1 ≤ e.idx
  high : e.idx < cmdlineHistorySize
  copy : e.line.whole ≠ [] → (s.historyCopy = true ↔ e.origin = .typed)
  slot : e.line.whole ≠ [] → e.origin ≠ .typed → 0 ≤ e.idx ∧ e.idx < e.history.length
  commands : s.numCommands ≤ cmdlineMaxCommands

variable {s : Cmdline F} {e : Editor UInt8}

theorem read_line (a : Row) (hn : n ≤ cmdlineBufferSize) :
    (List.range n).mapM a.get = some (a.bytes.take n) := by
  induction n with
  | zero => rfl
  | succ n ih =>
    obtain ⟨c, hget, hc⟩ := a.get_eq (i := n) (by omega)
    rw [List.range_succ, List.mapM_append, ih (by omega), List.take_add_one, hc]
    simp [hget]

/-- The bytes that draw a line from its left margin on. -/
def repainted (line : List UInt8) : List UInt8 :=
  [asciiCr] ++ cmdlinePrompt ++ [asciiEsc, asciiBracket, 0x4B] ++ line

theorem repaint_eq (s : Cmdline F) (hz : Shows s.buffer s.bufferLength s.bufferEditPos z) :
    s.cmdlineRepaint = some (s.cmdlineOutput (repainted z.whole)) := by
  unfold cmdlineRepaint
  rw [read_line s.buffer (hz.length_le.trans (by decide)), hz.text]
  simp [cmdlineOutput, cmdlinePrintPrompt, repainted]

/-- What a key sends that only edits the line. -/
def echo (e : Editor UInt8) : Key UInt8 → List UInt8
  | .insert c =>
    if e.line.whole.length < coded.capacity then
      if e.line.after = [] then [c]
      else repainted (e.line.insert c).whole ++ List.replicate e.line.after.length asciiBs
    else [asciiBel]
  | .delete =>
    if e.line.before = [] then [asciiBel]
    else if e.line.after = [] then [asciiBs, asciiSpace, asciiBs]
    else repainted e.line.delete.whole ++ [asciiSpace] ++
      List.replicate (e.line.after.length + 1) asciiBs
  | .right => if e.line.after = [] then [asciiBel] else [asciiEsc, asciiBracket, vt100ArrowRight]
  | .left => if e.line.before = [] then [asciiBel] else [asciiBs]
  | .older => repainted (e.step coded .older).line.whole
  | .newer => repainted (e.step coded .newer).line.whole
  | .submit => []
  | .other => []

/-- What editing leaves alone, and the bytes that it sends. -/
structure Sends (s s' : Cmdline F) (out : List UInt8) : Prop where
  commandList : s'.commandList = s.commandList
  functionList : s'.functionList = s.functionList
  numCommands : s'.numCommands = s.numCommands
  execFunction : s'.execFunction = s.execFunction
  output : s'.output = s.output ++ out

theorem Sends.refl (s : Cmdline F) : Sends s s [] :=
  ⟨rfl, rfl, rfl, rfl, (List.append_nil _).symm⟩

/-- The escape state is none of it. -/
theorem Sends.escape {s' : Cmdline F} (h : Sends s s' out) (vt : VT100State) :
    Sends s { s' with inputVT100State := vt } out :=
  ⟨h.commandList, h.functionList, h.numCommands, h.execFunction, h.output⟩

theorem end_iff (h : Shows a length pos z) : pos = length ↔ z.after = [] := by
  rw [h.pos, h.length, Zipper.whole, List.length_append, ← List.length_eq_zero_iff]
  omega

theorem start_iff (h : Shows a length pos z) : pos = 0 ↔ z.before = [] := by
  rw [h.pos, List.length_eq_zero_iff]

theorem Refines.output (h : Refines s e) (cs : List UInt8) : Refines (s.cmdlineOutput cs) e :=
  ⟨h.line, h.history, h.idx, h.low, h.high, h.copy, h.slot, h.commands⟩

theorem insert_refines (h : Refines s e) (hc : c ≠ 0) :
    ∃ s', s.insertChar c = some s' ∧ s'.inputVT100State = s.inputVT100State ∧
      Refines s' (e.step coded (.insert c)) ∧ Sends s s' (echo e (.insert c)) := by
  have hlen := h.line.length
  by_cases hlt : s.bufferLength < cmdlineBufferSize - 2
  · have hroom : e.line.whole.length < coded.capacity := by rw [← hlen]; exact hlt
    have hstep : e.step coded (.insert c) =
        { e with line := e.line.insert c, origin := .typed } := by
      rw [Editor.step, if_pos hroom]
    rw [hstep, echo, if_pos hroom]
    by_cases hend : s.bufferEditPos = s.bufferLength
    · obtain ⟨b, hb, hshows⟩ := h.line.append hend hlt hc
      rw [insertChar, if_pos hend, if_pos hlt, hb, if_pos ((end_iff h.line).mp hend)]
      exact ⟨_, rfl, rfl, ⟨hshows, h.history, h.idx, h.low, h.high, fun _ => by simp [cmdlineOutput],
        fun _ hne => absurd rfl hne, h.commands⟩, rfl, rfl, rfl, rfl, rfl⟩
    · obtain ⟨b, b', hb, hb', hshows⟩ := h.line.insert hlt hc
      have hout := repaint_eq { s with
        buffer := b'
        bufferEditPos := u8 (s.bufferEditPos + 1)
        bufferLength := u8 (s.bufferLength + 1) } hshows
      have hbehind : u8 (s.bufferLength + 1) - u8 (s.bufferEditPos + 1) = e.line.after.length := by
        rw [hshows.length, hshows.pos]
        simp [Zipper.insert, Zipper.whole]
        omega
      rw [insertChar, if_neg hend, if_pos hlt, if_neg (mt (end_iff h.line).mpr hend)]
      simp only [hb, hb', hout, Option.bind_eq_bind, Option.bind_some]
      refine ⟨_, rfl, rfl, ⟨hshows, h.history, h.idx, h.low, h.high,
        fun _ => by simp [cmdlineOutput], fun _ hne => absurd rfl hne, h.commands⟩,
        rfl, rfl, rfl, rfl, ?_⟩
      simp only [cmdlineOutput, hbehind, List.append_assoc]
  · have hroom : ¬e.line.whole.length < coded.capacity := by rw [← hlen]; exact hlt
    have hstep : e.step coded (.insert c) = e := by
      rw [Editor.step, if_neg hroom]
    have hbell : s.insertChar c = some (s.cmdlineOutput [asciiBel]) := by
      unfold insertChar
      rw [if_neg hlt, if_neg hlt, ite_self]
      rfl
    rw [hstep, hbell, echo, if_neg hroom]
    exact ⟨_, rfl, rfl, h.output _, rfl, rfl, rfl, rfl, rfl⟩

theorem whole_of_delete {z : Zipper UInt8} (h : z.delete.whole ≠ []) : z.whole ≠ [] := by
  rintro hw
  apply h
  simp only [Zipper.whole, List.append_eq_nil_iff] at hw
  simp [Zipper.whole, Zipper.delete, hw]

theorem delete_refines (h : Refines s e) :
    ∃ s', s.deleteChar = some s' ∧ s'.inputVT100State = s.inputVT100State ∧
      Refines s' (e.step coded .delete) ∧ Sends s s' (echo e .delete) := by
  by_cases h0 : s.bufferEditPos = 0
  · have hb := (start_iff h.line).mp h0
    have hstep : e.step coded .delete = e := by
      rw [Editor.step, if_pos hb]
    rw [hstep, deleteChar, if_pos h0, echo, if_pos hb]
    exact ⟨_, rfl, rfl, h.output _, rfl, rfl, rfl, rfl, rfl⟩
  · have hne : e.line.before ≠ [] := mt (start_iff h.line).mpr h0
    have hstep : e.step coded .delete =
        { e with
          line := e.line.delete
          origin := if e.origin = .typed then .typed else .trimmed } := by
      rw [Editor.step, if_neg hne]
    have hcopy : e.line.delete.whole ≠ [] →
        (s.historyCopy = true ↔ (if e.origin = .typed then Origin.typed else .trimmed) = .typed) := by
      intro hw
      rw [h.copy (whole_of_delete hw)]
      split <;> simp_all
    have hslot : e.line.delete.whole ≠ [] →
        (if e.origin = .typed then Origin.typed else .trimmed) ≠ .typed →
        0 ≤ e.idx ∧ e.idx < e.history.length := by
      intro hw ho
      apply h.slot (whole_of_delete hw)
      intro he
      rw [if_pos he] at ho
      exact ho rfl
    rw [hstep, deleteChar, if_neg h0, echo, if_neg hne]
    by_cases hend : s.bufferEditPos = s.bufferLength
    · have hshows := h.line.truncate hend (by omega)
      rw [if_pos hend, if_pos ((end_iff h.line).mp hend)]
      simp only [Option.pure_def, cmdlineOutput]
      exact ⟨_, rfl, rfl, ⟨hshows, h.history, h.idx, h.low, h.high, hcopy, hslot, h.commands⟩,
        rfl, rfl, rfl, rfl, rfl⟩
    · obtain ⟨b, hb, hshows⟩ := h.line.delete (by omega)
      have hout := repaint_eq { s with
        buffer := b
        bufferLength := u8 (s.bufferLength + 255)
        bufferEditPos := u8 (s.bufferEditPos + 255) } hshows
      have hbehind : u8 (s.bufferLength + 255) + 1 - u8 (s.bufferEditPos + 255) =
          e.line.after.length + 1 := by
        rw [hshows.length, hshows.pos]
        simp [Zipper.delete, Zipper.whole]
        omega
      rw [if_neg hend, if_neg (mt (end_iff h.line).mpr hend)]
      simp only [hb, hout, hbehind, Option.bind_eq_bind, Option.bind_some]
      refine ⟨_, rfl, rfl, ⟨hshows, h.history, h.idx, h.low, h.high, hcopy, hslot, h.commands⟩,
        rfl, rfl, rfl, rfl, ?_⟩
      simp only [cmdlineOutput, List.append_assoc]

/-- `CmdlineHistoryIdx` stays within its eight bits, so the clamps are those of
the editor. -/
theorem clamp_eq {z : ℤ} {n : ℕ} (hlow : -3 ≤ z) (hhigh : z < 10) (hn : n ≤ cmdlineHistorySize) :
    historyClamp z n = max 0 (min (z + 1) ((n : ℤ) - 1)) := by
  simp only [cmdlineHistorySize] at hn
  simp only [historyClamp]
  rw [i8_eq (z := z + 1) (by omega) (by omega), i8_eq (z := (n : ℤ) - 1) (by omega) (by omega)]
  split <;> split <;> omega

theorem text_at (h : Remembers rows cnt H) (hk : k < cmdlineHistorySize) :
    (texts rows)[k]? = some (H.getD k []) := by
  have hfull := h.full
  rw [h.rows]
  grind

/-- A row of the history copied over the line. Rows past the last entry are empty. -/
theorem recalled_row (h : Remembers rows cnt H) (hk : k < cmdlineHistorySize) (a : Row) :
    ∃ row b, rows[k]? = some row ∧ a.strcpy row = some b ∧ 0 ∈ b.bytes ∧
      Shows b (u8 (text b.bytes).length) (u8 (text b.bytes).length) ⟨H.getD k [], []⟩ := by
  obtain ⟨row, hrow, hzero, htext⟩ := row_eq rows h.terminated hk
  rw [text_at h hk, Option.some.injEq] at htext
  obtain ⟨b, hcopy, hbtext, hbzero⟩ := a.strcpy_row row hzero
  have hline : H.getD k [] = text b.bytes := htext.trans hbtext.symm
  have hshort : (text b.bytes).length ≤ cmdlineBufferSize - 2 := by
    rw [← hline]
    by_cases hlt : k < H.length
    · rw [List.getD_eq_getElem _ _ hlt]
      exact (h.entries _ (List.getElem_mem hlt)).2
    · rw [List.getD_eq_default _ _ (by omega)]
      simp
  exact ⟨row, b, hrow, hcopy, hbzero, hline ▸ .of_text hbzero hshort⟩

theorem recall_refines (h : Refines s e) (hlow : -3 ≤ z) (hhigh : z < 10) :
    ∃ s', historyRecall { s with historyIdx := z } = some s' ∧
      s'.inputVT100State = s.inputVT100State ∧ Refines s' (e.select (z + 1)) ∧
      Sends s s' (repainted (e.select (z + 1)).line.whole) := by
  have hcnt := h.history.cnt
  have hfull := h.history.full
  have hclamp : historyClamp z s.historyCnt = max 0 (min (z + 1) ((e.history.length : ℤ) - 1)) := by
    rw [clamp_eq hlow hhigh (by omega), hcnt]
  generalize hk : max 0 (min (z + 1) ((e.history.length : ℤ) - 1)) = k at hclamp
  have hk0 : 0 ≤ k := by omega
  have hk10 : k.toNat < cmdlineHistorySize := by
    simp only [cmdlineHistorySize] at hfull ⊢
    omega
  obtain ⟨row, b, hrow, hcopy, hbzero, hshows⟩ := recalled_row h.history hk10 s.buffer
  have hout := repaint_eq { s with
    historyIdx := k
    buffer := b
    bufferLength := u8 (text b.bytes).length
    bufferEditPos := u8 (text b.bytes).length } hshows
  have hselect : e.select (z + 1) =
      { e with line := ⟨e.history.getD k.toNat [], []⟩, idx := k, origin := .recalled } := by
    simp only [Editor.select, hk]
  unfold historyRecall
  simp only [hclamp, hrow, hcopy, strlen_eq hbzero, hout, Option.bind_eq_bind, Option.bind_some]
  rw [hselect]
  refine ⟨_, rfl, rfl, ⟨hshows, h.history, rfl, ?_, ?_, ?_, ?_, h.commands⟩,
    rfl, rfl, rfl, rfl, rfl⟩
  · change -1 ≤ k
    omega
  · change k < cmdlineHistorySize
    omega
  · intro _
    simp
  · intro hw _
    refine ⟨hk0, ?_⟩
    change k < e.history.length
    by_contra hge
    apply hw
    rw [Zipper.whole, List.append_nil, List.getD_eq_default _ _ (by omega)]

/-- The row that a full history gives up for a new line. -/
theorem last_slot (n : ℕ) :
    (if cmdlineHistorySize ≤ n then cmdlineHistorySize - 1 else n) =
      min n (cmdlineHistorySize - 1) := by
  split <;> omega

/-- Saving the terminated line `b` in the state of a carriage return. -/
theorem save_eq (h : Refines s e) (hz : 0 ∈ b.bytes) (ht : text b.bytes = e.line.whole) :
    ∃ rows cnt,
      historySave { s with buffer := b, bufferLength := m, bufferEditPos := p, output := o } =
        some { s with
          buffer := b
          bufferLength := m
          bufferEditPos := p
          output := o
          history := rows
          historyCnt := cnt } ∧
      Remembers rows cnt (e.saved coded) := by
  have hfull := h.history.full
  have hcnt := h.history.cnt
  unfold historySave
  simp only [strlen_eq hz, Option.bind_eq_bind, Option.bind_some]
  by_cases hw : e.line.whole = []
  · rw [if_pos (by rw [ht, hw]; rfl), Editor.saved, if_pos hw]
    exact ⟨_, _, rfl, h.history⟩
  · have hne : text b.bytes ≠ [] := by rw [ht]; exact hw
    have hle : (text b.bytes).length ≤ cmdlineBufferSize - 2 := by
      rw [ht]
      exact h.line.short
    rw [if_neg (fun h0 => hne (List.length_eq_zero_iff.mp h0)), Editor.saved, if_neg hw]
    by_cases ho : e.origin = .typed
    · have hcopy : s.historyCopy = true := (h.copy hw).mpr ho
      have hu8 : u8 (min s.historyCnt (cmdlineHistorySize - 1) + 1) =
          min s.historyCnt (cmdlineHistorySize - 1) + 1 :=
        u8_eq (by simp only [cmdlineHistorySize]; omega)
      obtain ⟨rows, hrows, hrem⟩ := h.history.push b hz hne hle
      obtain ⟨shifted, hshift, hcopied⟩ := Option.bind_eq_some_iff.mp hrows
      rw [if_neg (by simp [coded, ho]), ← ht]
      simp only [historySlot, hcopy, if_true, last_slot, hu8, Int.toNat_natCast, hshift, hcopied,
        Option.bind_some]
      exact ⟨_, _, rfl, hrem⟩
    · have hcopy : s.historyCopy = false := by
        rw [Bool.eq_false_iff, ne_eq, h.copy hw]
        exact ho
      obtain ⟨hlow, hhigh⟩ := h.slot hw ho
      obtain ⟨rows, hrows, hrem⟩ := h.history.replace (k := e.idx.toNat) (by omega) b hz hne hle
      obtain ⟨shifted, hshift, hcopied⟩ := Option.bind_eq_some_iff.mp hrows
      rw [if_pos (by simp [coded, ho]), ← ht]
      simp only [historySlot, hcopy, Bool.false_eq_true, if_false, h.idx, hshift, hcopied,
        Option.bind_some]
      exact ⟨_, _, rfl, hrem⟩

theorem word_length_eq (hz : 0 ∈ bytes) :
    wordLength bytes = some (firstWord asciiSpace (text bytes)).length := by
  induction bytes with
  | nil => simp at hz
  | cons c cs ih =>
    by_cases hc0 : c = 0
    · simp [wordLength, hc0, text, firstWord]
    · rw [text_cons hc0, wordLength, firstWord, List.takeWhile_cons]
      by_cases hc : c = asciiSpace
      · simp [hc]
      · rw [ih (List.mem_of_ne_of_mem (Ne.symm hc0) hz)]
        simp [hc, hc0, firstWord]

theorem strncmp_eq (n : ℕ) (as bs : List UInt8) (ha : n ≤ as.length) (hb : n ≤ bs.length) :
    ∃ r, strncmpZero n as bs = some r := by
  induction n generalizing as bs with
  | zero => exact ⟨true, rfl⟩
  | succ n ih =>
    cases as with
    | nil => simp at ha
    | cons a as =>
      cases bs with
      | nil => simp at hb
      | cons b bs =>
        simp only [List.length_cons] at ha hb
        simp only [strncmpZero]
        split
        · split
          · exact ⟨true, rfl⟩
          · exact ih as bs (by omega) (by omega)
        · exact ⟨false, rfl⟩

theorem find_command_eq (s : Cmdline F) (hn : n ≤ cmdlineBufferSize) (left k : ℕ)
    (hk : k + left ≤ cmdlineMaxCommands) :
    ∃ r, s.findCommand n left k = some r ∧ ∀ i, r = some i → i < cmdlineMaxCommands := by
  induction left generalizing k with
  | zero => exact ⟨none, rfl, by simp⟩
  | succ left ih =>
    have hrow : s.commandList[k]? = some s.commandList[k] := Vector.getElem?_eq_getElem (by omega)
    obtain ⟨r, hr⟩ := strncmp_eq n s.commandList[k].bytes s.buffer.bytes
      (by rw [s.commandList[k].size]; exact hn) (by rw [s.buffer.size]; exact hn)
    simp only [findCommand, hrow, hr, Option.bind_eq_bind, Option.bind_some]
    cases r with
    | true =>
      refine ⟨some k, rfl, ?_⟩
      intro i hi
      cases hi
      omega
    | false => exact ih (k + 1) (by omega)

/-- The search reads the commands and the line, nothing else. -/
theorem find_command_of {s t : Cmdline F} {n left k : ℕ} {r : Option (Option ℕ)}
    (h : t.findCommand n left k = r) (hlist : s.commandList = t.commandList)
    (hbuffer : s.buffer = t.buffer) : s.findCommand n left k = r := by
  rw [← h]
  clear h
  induction left generalizing k with
  | zero => rfl
  | succ left ih => simp only [findCommand, hlist, hbuffer, ih]

/-- "cmdline: ", the word and ": command not found". -/
def notFound (word : List UInt8) : List UInt8 :=
  cmdlineNotice ++ word ++ [0x3A, asciiSpace] ++ cmdlineCmdNotFound ++ [asciiCr, asciiLf]

/-- What comes of a submitted line: the function to be executed and the bytes sent. -/
inductive Outcome (s : Cmdline F) (b : Row) : Option F → List UInt8 → Prop
  | empty : wordLength b.bytes = some 0 → Outcome s b s.execFunction cmdlinePrompt
  | found (n k : ℕ) (f : Option F) : wordLength b.bytes = some n → n ≠ 0 →
      findCommand { s with buffer := b } n s.numCommands 0 = some (some k) →
      s.functionList[k]? = some f → Outcome s b f []
  | missing (n : ℕ) : wordLength b.bytes = some n → n ≠ 0 →
      findCommand { s with buffer := b } n s.numCommands 0 = some none →
      Outcome s b s.execFunction (notFound (b.bytes.take n) ++ cmdlinePrompt)

theorem process_eq (h : Refines s e) (hz : 0 ∈ b.bytes) (ht : text b.bytes = e.line.whole) :
    ∃ rows cnt f out, Outcome s b f out ∧ Remembers rows cnt (e.saved coded) ∧
      cmdlineProcessInputString
        { s with buffer := b, bufferLength := m, bufferEditPos := p, output := o } =
      some { s with
        buffer := b
        bufferLength := m
        bufferEditPos := p
        history := rows
        historyCnt := cnt
        execFunction := f
        output := o ++ out } := by
  obtain ⟨rows, cnt, hsave, hrem⟩ := save_eq (m := m) (p := p) (o := o) h hz ht
  have hn := word_length_eq hz
  have hle := first_word_length_le asciiSpace (text b.bytes)
  generalize (firstWord asciiSpace (text b.bytes)).length = n at hn hle
  have hshort := h.line.short
  rw [← ht] at hshort
  unfold cmdlineProcessInputString
  simp only [cmdlineDoHistory, hsave, hn, Option.bind_eq_bind, Option.bind_some]
  refine ⟨rows, cnt, ?_⟩
  by_cases h0 : n = 0
  · subst h0
    exact ⟨_, _, .empty hn, hrem, rfl⟩
  · rw [if_neg h0]
    obtain ⟨r, hr, hlt⟩ := find_command_eq { s with buffer := b } (n := n) (by omega)
      s.numCommands 0 (by have := h.commands; omega)
    have hfind : findCommand { s with
        buffer := b
        bufferLength := m
        bufferEditPos := p
        output := o
        history := rows
        historyCnt := cnt } n s.numCommands 0 = some r :=
      find_command_of hr rfl rfl
    simp only [hfind, Option.bind_some]
    cases r with
    | none =>
      simp only [cmdlinePrintError, hn, Option.bind_eq_bind, Option.bind_some]
      refine ⟨_, _, .missing n hn h0 hr, hrem, ?_⟩
      simp [cmdlineOutput, cmdlinePrintPrompt, notFound]
    | some k =>
      have hk := hlt k rfl
      have hf : s.functionList[k]? = some s.functionList[k] := Vector.getElem?_eq_getElem hk
      refine ⟨_, _, .found n k _ hn h0 hr hf, hrem, ?_⟩
      simp [hf]

/-- How a line has been submitted: the buffer holds it as a C string, and a function
waits to be executed if there is one. -/
structure Submits (s : Cmdline F) (line : List UInt8) (s' : Cmdline F) : Prop where
  line : text s'.buffer.bytes = line
  terminated : 0 ∈ s'.buffer.bytes
  commandList : s'.commandList = s.commandList
  functionList : s'.functionList = s.functionList
  numCommands : s'.numCommands = s.numCommands
  outcome : ∃ out, Outcome s s'.buffer s'.execFunction out ∧
    s'.output = s.output ++ [asciiCr, asciiLf] ++ out

/-- A carriage return leaves the whole line in the buffer as a C string. -/
theorem enter_refines (h : Refines s e) :
    ∃ s', s.enter = some s' ∧ s'.inputVT100State = s.inputVT100State ∧
      Refines s' (e.step coded .submit) ∧ Submits s e.line.whole s' := by
  obtain ⟨b, hb, htext, hzero⟩ := h.line.terminate
  obtain ⟨rows, cnt, f, out, houtcome, hrem, hproc⟩ := process_eq (m := u8 (s.bufferLength + 1))
    (p := u8 (s.bufferEditPos + 1)) (o := s.output ++ [asciiCr, asciiLf]) h hzero htext
  unfold enter
  simp only [hb, cmdlineOutput, hproc, Option.bind_eq_bind, Option.bind_some]
  refine ⟨_, rfl, rfl, ⟨?_, hrem, rfl, ?_, ?_, ?_, ?_, h.commands⟩,
    ⟨htext, hzero, rfl, rfl, rfl, out, houtcome, rfl⟩⟩
  · exact ⟨by simp [Editor.step, Zipper.whole, Zipper.empty], rfl, rfl,
      by simp [Editor.step, Zipper.whole, Zipper.empty],
      by simp [Editor.step, Zipper.whole, Zipper.empty]⟩
  · simp [Editor.step]
  · simp [Editor.step, cmdlineHistorySize]
  · simp [Editor.step, Zipper.whole, Zipper.empty]
  · simp [Editor.step, Zipper.whole, Zipper.empty]

/-- A byte outside of an escape sequence. -/
def plainKey (c : UInt8) : VT100State × Key UInt8 :=
  if 0x20 ≤ c ∧ c < 0x7F then (.text, .insert c)
  else if c = asciiCr then (.text, .submit)
  else if c = asciiDel then (.text, .delete)
  else if c = asciiEsc then (.esc, .other)
  else (.text, .other)

/-- The byte that ends an escape sequence. -/
def arrowKey (c : UInt8) : Key UInt8 :=
  if c = vt100ArrowUp then .older
  else if c = vt100ArrowDown then .newer
  else if c = vt100ArrowRight then .right
  else if c = vt100ArrowLeft then .left
  else .other

/-- ESC and anything but a bracket is that byte alone. -/
def decode : VT100State → UInt8 → VT100State × Key UInt8
  | .bracket, c => (.text, arrowKey c)
  | .esc, c => if c = asciiBracket then (.bracket, .other) else plainKey c
  | .text, c => plainKey c

/-- The editor behind a stream of bytes. -/
structure Terminal where
  vt : VT100State
  editor : Editor UInt8

namespace Terminal

def step (rules : Rules) (t : Terminal) (c : UInt8) : Terminal :=
  ⟨(decode t.vt c).1, t.editor.step rules (decode t.vt c).2⟩

def run (rules : Rules) (input : List UInt8) : Terminal :=
  input.foldl (step rules) ⟨.text, .initial⟩

theorem run_append (rules : Rules) (input : List UInt8) (c : UInt8) :
    run rules (input ++ [c]) = (run rules input).step rules c := by
  rw [run, List.foldl_append]
  rfl

end Terminal

/-- Writing the escape state does not touch the line or the history. -/
theorem Refines.escape (h : Refines s e) (vt : VT100State) :
    Refines { s with inputVT100State := vt } e :=
  ⟨h.line, h.history, h.idx, h.low, h.high, h.copy, h.slot, h.commands⟩

/-- Moving the cursor over the same line. -/
theorem Refines.moved {z : Zipper UInt8} (h : Refines s e)
    (hz : Shows s.buffer s.bufferLength pos z) (hw : z.whole = e.line.whole)
    (out : List UInt8) :
    Refines { s with bufferEditPos := pos, output := out } { e with line := z } :=
  ⟨hz, h.history, h.idx, h.low, h.high, by simpa only [hw] using h.copy,
    by simpa only [hw] using h.slot, h.commands⟩

/-- What a key does besides editing. -/
inductive Effect (s : Cmdline F) (e : Editor UInt8) : Key UInt8 → Cmdline F → Prop
  | edited : key ≠ .submit → Sends s s' (echo e key) → Effect s e key s'
  | submitted : Submits s e.line.whole s' → Effect s e .submit s'

theorem Outcome.of_escape {vt : VT100State}
    (h : Outcome { s with inputVT100State := vt } b f out) : Outcome s b f out := by
  cases h with
  | empty hn => exact .empty hn
  | found n k f hn h0 hfind hf =>
    exact .found n k f hn h0 (find_command_of hfind rfl rfl) hf
  | missing n hn h0 hfind =>
    exact .missing n hn h0 (find_command_of hfind rfl rfl)

theorem Effect.of_escape {vt : VT100State}
    (h : Effect { s with inputVT100State := vt } e key s') : Effect s e key s' := by
  cases h with
  | edited hkey hsends =>
    exact .edited hkey ⟨hsends.commandList, hsends.functionList, hsends.numCommands,
      hsends.execFunction, hsends.output⟩
  | submitted hsubmits =>
    obtain ⟨out, houtcome, hout⟩ := hsubmits.outcome
    exact .submitted ⟨hsubmits.line, hsubmits.terminated, hsubmits.commandList,
      hsubmits.functionList, hsubmits.numCommands, out, houtcome.of_escape, hout⟩

theorem regular_refines (h : Refines s e) (hvt : s.inputVT100State = .text) (c : UInt8) :
    ∃ s', s.regular c = some s' ∧ s'.inputVT100State = (plainKey c).1 ∧
      Refines s' (e.step coded (plainKey c).2) ∧ Effect s e (plainKey c).2 s' := by
  unfold regular plainKey
  by_cases hprint : 0x20 ≤ c ∧ c < 0x7F
  · have hc : c ≠ 0 := by
      rintro rfl
      exact absurd hprint.1 (by decide)
    obtain ⟨s', hs, hs', href, hsends⟩ := insert_refines h hc
    simp only [if_pos hprint]
    exact ⟨s', hs, hs'.trans hvt, href, .edited (by simp) hsends⟩
  simp only [if_neg hprint]
  by_cases hcr : c = asciiCr
  · obtain ⟨s', hs, hs', href, hsubmits⟩ := enter_refines h
    simp only [if_pos hcr]
    exact ⟨s', hs, hs'.trans hvt, href, .submitted hsubmits⟩
  simp only [if_neg hcr]
  by_cases hdel : c = asciiDel
  · obtain ⟨s', hs, hs', href, hsends⟩ := delete_refines h
    simp only [if_pos hdel]
    exact ⟨s', hs, hs'.trans hvt, href, .edited (by simp) hsends⟩
  simp only [if_neg hdel]
  by_cases hesc : c = asciiEsc
  · simp only [if_pos hesc]
    exact ⟨_, rfl, rfl, h.escape .esc, .edited (by simp) ((Sends.refl s).escape .esc)⟩
  · simp only [if_neg hesc]
    exact ⟨s, rfl, hvt, h, .edited (by simp) (.refl s)⟩

theorem arrow_refines (h : Refines s e) (c : UInt8) :
    ∃ s', s.vt100Code c = some s' ∧ Refines s' (e.step coded (arrowKey c)) ∧
      Sends s s' (echo e (arrowKey c)) := by
  have hlow := h.low
  have hhigh := h.high
  simp only [cmdlineHistorySize] at hhigh
  unfold vt100Code arrowKey
  by_cases hup : c = vt100ArrowUp
  · obtain ⟨s', hs, -, href⟩ := recall_refines (z := s.historyIdx) h (by rw [h.idx]; omega)
      (by rw [h.idx]; omega)
    simp only [if_pos hup]
    rw [h.idx] at href
    exact ⟨s', hs, href⟩
  simp only [if_neg hup]
  by_cases hdown : c = vt100ArrowDown
  · have h8 : i8 (s.historyIdx - 2) = s.historyIdx - 2 := by
      rw [h.idx]
      exact i8_eq (by omega) (by omega)
    obtain ⟨s', hs, -, href⟩ := recall_refines (z := s.historyIdx - 2) h (by rw [h.idx]; omega)
      (by rw [h.idx]; omega)
    simp only [if_pos hdown, cmdlineDoHistory, h8]
    rw [h.idx, show e.idx - 2 + 1 = e.idx - 1 by omega] at href
    exact ⟨s', hs, href⟩
  simp only [if_neg hdown]
  by_cases hright : c = vt100ArrowRight
  · have href := h.moved h.line.right e.line.whole_right
    have hend := end_iff h.line
    have hle := h.line.pos_le
    simp only [if_pos hright, echo, Option.pure_def, cmdlineOutput]
    by_cases hlt : s.bufferEditPos < s.bufferLength
    · simp only [if_pos hlt, if_neg (mt hend.mpr (Nat.ne_of_lt hlt))] at href ⊢
      exact ⟨_, rfl, href _, rfl, rfl, rfl, rfl, rfl⟩
    · simp only [if_neg hlt, if_pos (hend.mp (Nat.le_antisymm hle (Nat.not_lt.mp hlt)))] at href ⊢
      exact ⟨_, rfl, href _, rfl, rfl, rfl, rfl, rfl⟩
  simp only [if_neg hright]
  by_cases hleft : c = vt100ArrowLeft
  · have href := h.moved h.line.left e.line.whole_left
    have hstart := start_iff h.line
    simp only [if_pos hleft, echo, Option.pure_def, cmdlineOutput]
    by_cases hne : s.bufferEditPos ≠ 0
    · simp only [if_pos hne, if_neg (mt hstart.mpr hne)] at href ⊢
      exact ⟨_, rfl, href _, rfl, rfl, rfl, rfl, rfl⟩
    · simp only [if_neg hne, if_pos (hstart.mp (Classical.not_not.mp hne))] at href ⊢
      exact ⟨_, rfl, href _, rfl, rfl, rfl, rfl, rfl⟩
  · simp only [if_neg hleft]
    exact ⟨s, rfl, h, .refl s⟩

theorem arrow_ne_submit (c : UInt8) : arrowKey c ≠ .submit := by
  unfold arrowKey
  split_ifs <;> simp

theorem plain_submit_iff (c : UInt8) : (plainKey c).2 = .submit ↔ c = asciiCr := by
  unfold plainKey
  by_cases hc : c = asciiCr
  · subst hc
    exact ⟨fun _ => rfl, fun _ => rfl⟩
  · split_ifs <;> simp [hc]

theorem submit_iff (vt : VT100State) (c : UInt8) :
    (decode vt c).2 = .submit ↔ vt ≠ .bracket ∧ c = asciiCr := by
  cases vt with
  | bracket => simp [decode, arrow_ne_submit]
  | text => simp [decode, plain_submit_iff]
  | esc =>
    by_cases hc : c = asciiBracket
    · subst hc
      simp [decode, asciiBracket, asciiCr]
    · simp [decode, hc, plain_submit_iff]

theorem plain_refines (h : Refines s e) (c : UInt8) :
    ∃ s', regular c { s with inputVT100State := .text } = some s' ∧
      s'.inputVT100State = (plainKey c).1 ∧ Refines s' (e.step coded (plainKey c).2) ∧
      Effect s e (plainKey c).2 s' := by
  obtain ⟨s', hs, hvt, href, heffect⟩ := regular_refines (h.escape .text) rfl c
  exact ⟨s', hs, hvt, href, heffect.of_escape⟩

/-- One byte, from any state of the escape sequence. -/
theorem input_refines {t : Terminal} (hvt : s.inputVT100State = t.vt) (h : Refines s t.editor)
    (c : UInt8) :
    ∃ s', s.cmdlineInputFunc c = some s' ∧ s'.inputVT100State = (t.step coded c).vt ∧
      Refines s' (t.step coded c).editor ∧ Effect s t.editor (decode t.vt c).2 s' := by
  unfold cmdlineInputFunc
  rw [hvt]
  cases ht : t.vt with
  | bracket =>
    obtain ⟨s', hs, href, hsends⟩ := arrow_refines h c
    simp only [hs, Option.bind_eq_bind, Option.bind_some]
    refine ⟨_, rfl, by simp [Terminal.step, ht, decode], ?_,
      .edited (arrow_ne_submit c) (hsends.escape .text)⟩
    simp only [Terminal.step, ht, decode]
    exact href.escape .text
  | esc =>
    by_cases hc : c = asciiBracket
    · simp only [if_pos hc, Terminal.step, ht, decode]
      exact ⟨_, rfl, rfl, h.escape .bracket, .edited (by simp) ((Sends.refl s).escape .bracket)⟩
    · simp only [if_neg hc, Terminal.step, ht, decode]
      exact plain_refines h c
  | text =>
    simp only [Terminal.step, ht, decode]
    exact plain_refines h c

theorem add_command_eq (name : List UInt8) (f : Option F) (hnum : s.numCommands < cmdlineMaxCommands)
    (hlen : name.length < cmdlineBufferSize) (h0 : 0 ∉ name) :
    ∃ row : Row, 0 ∈ row.bytes ∧ text row.bytes = name ∧
      s.cmdlineAddCommand name f = some { s with
        commandList := s.commandList.set s.numCommands row
        functionList := s.functionList.set s.numCommands f
        numCommands := s.numCommands + 1 } := by
  have hu8 : u8 (s.numCommands + 1) = s.numCommands + 1 :=
    u8_eq (by simp only [cmdlineMaxCommands] at hnum; omega)
  have htext : text (name ++ [0]) = name := text_append h0
  obtain ⟨row, hcopy, hrow, hzero⟩ := s.commandList[s.numCommands].strcpy_eq
    (⟨name ++ [0], rfl⟩ : Buf _) (by simp) (by rw [htext]; exact hlen)
  refine ⟨row, hzero, hrow.trans htext, ?_⟩
  unfold cmdlineAddCommand
  rw [dif_pos hnum, hcopy, hu8]
  rfl

theorem initial_refines : Refines (zeroed.cmdlineInit : Cmdline F) .initial := by
  refine ⟨⟨rfl, rfl, rfl, by decide, by simp [Editor.initial, Zipper.empty, Zipper.whole]⟩, ?_, rfl,
    by decide, by decide, ?_, ?_, Nat.zero_le _⟩
  · refine ⟨?_, ?_, rfl, by decide, by simp [Editor.initial]⟩
    · intro row hrow
      simp [zeroed, cmdlineInit] at hrow
      rw [hrow.2]
      simp [Buf.zero, cmdlineBufferSize]
    · have htext : text (Buf.zero cmdlineBufferSize).bytes = [] := rfl
      simp [texts, zeroed, cmdlineInit, Editor.initial, htext]
  · intro hw
    simp [Editor.initial, Zipper.empty, Zipper.whole] at hw
  · intro hw
    simp [Editor.initial, Zipper.empty, Zipper.whole] at hw

theorem add_commands_refines (commands : List (List UInt8 × Option F))
    (h : Refines s e) (hcount : s.numCommands + commands.length ≤ cmdlineMaxCommands)
    (hnames : ∀ c ∈ commands, c.1.length < cmdlineBufferSize ∧ 0 ∉ c.1) :
    ∃ s', commands.foldlM (fun s c => cmdlineAddCommand c.1 c.2 s) s = some s' ∧
      s'.inputVT100State = s.inputVT100State ∧ Refines s' e := by
  induction commands generalizing s with
  | nil => exact ⟨s, rfl, rfl, h⟩
  | cons c cs ih =>
    rw [List.length_cons] at hcount
    obtain ⟨hlen, h0⟩ := hnames c (by simp)
    have hnum : s.numCommands < cmdlineMaxCommands := by omega
    obtain ⟨row, -, -, hadd⟩ := add_command_eq (s := s) c.1 c.2 hnum hlen h0
    obtain ⟨s', hs, hvt, href⟩ := ih
      (s := { s with
        commandList := s.commandList.set s.numCommands row
        functionList := s.functionList.set s.numCommands c.2
        numCommands := s.numCommands + 1 })
      ⟨h.line, h.history, h.idx, h.low, h.high, h.copy, h.slot, by
        change s.numCommands + 1 ≤ cmdlineMaxCommands
        omega⟩
      (by
        change s.numCommands + 1 + cs.length ≤ cmdlineMaxCommands
        omega)
      (fun d hd => hnames d (by simp [hd]))
    refine ⟨s', ?_, hvt, href⟩
    rw [List.foldlM_cons, hadd]
    exact hs

theorem session_append {commands : List (List UInt8 × Option F)} {input : List UInt8}
    (hs : session commands input = some s) (c : UInt8) :
    session commands (input ++ [c]) = s.cmdlineInputFunc c := by
  obtain ⟨s₀, hs₀, hfold⟩ := Option.bind_eq_some_iff.mp hs
  simp only [session, hs₀, Option.bind_eq_bind, Option.bind_some, List.foldlM_append, hfold]
  simp

theorem session_refines (commands : List (List UInt8 × Option F))
    (hcount : commands.length ≤ cmdlineMaxCommands)
    (hnames : ∀ c ∈ commands, c.1.length < cmdlineBufferSize ∧ 0 ∉ c.1) (input : List UInt8) :
    ∃ s, session commands input = some s ∧ s.inputVT100State = (Terminal.run coded input).vt ∧
      Refines s (Terminal.run coded input).editor := by
  induction input using List.reverseRecOn with
  | nil =>
    obtain ⟨s, hs, hvt, href⟩ := add_commands_refines commands initial_refines
      (by simpa [zeroed, cmdlineInit] using hcount) hnames
    refine ⟨s, ?_, hvt, href⟩
    simp [session, hs]
  | append_singleton input c ih =>
    obtain ⟨s, hs, hvt, href⟩ := ih
    obtain ⟨s', hs', hvt', href', -⟩ := input_refines hvt href c
    refine ⟨s', ?_, ?_, ?_⟩
    · rw [session_append hs c, hs']
    · rw [Terminal.run_append, hvt']
    · rw [Terminal.run_append]
      exact href'

/-- The command line is the bounded two-list editor: no access leaves an array,
the globals stay in their ranges, and the two halves of the line, the history
and the submitted lines are those of the editor. -/
theorem line_refines_editor (commands : List (List UInt8 × Option F))
    (hcount : commands.length ≤ cmdlineMaxCommands)
    (hnames : ∀ c ∈ commands, c.1.length < cmdlineBufferSize ∧ 0 ∉ c.1) (input : List UInt8) :
    ∃ s, session commands input = some s ∧
      s.bufferEditPos ≤ s.bufferLength ∧ s.bufferLength ≤ cmdlineBufferSize - 2 ∧
      s.historyCnt ≤ cmdlineHistorySize ∧
      -1 ≤ s.historyIdx ∧ s.historyIdx < cmdlineHistorySize ∧
      (∀ row ∈ s.history.toList, 0 ∈ row.bytes) ∧
      s.buffer.bytes.take s.bufferEditPos = (Terminal.run coded input).editor.line.before ∧
      (s.buffer.bytes.take s.bufferLength).drop s.bufferEditPos =
        (Terminal.run coded input).editor.line.after ∧
      (s.history.toList.take s.historyCnt).map (fun row => text row.bytes) =
        (Terminal.run coded input).editor.history ∧
      (∀ front c, input = front ++ [c] → (decode (Terminal.run coded front).vt c).2 = .submit →
        text s.buffer.bytes = (Terminal.run coded front).editor.line.whole) := by
  obtain ⟨s, hs, hvt, href⟩ := session_refines commands hcount hnames input
  have hline := href.line
  refine ⟨s, hs, hline.pos_le, hline.length_le, ?_, ?_, ?_, href.history.terminated, ?_, ?_, ?_, ?_⟩
  · rw [href.history.cnt]
    exact href.history.full
  · rw [href.idx]
    exact href.low
  · rw [href.idx]
    exact href.high
  · rw [← Nat.min_eq_left hline.pos_le, ← List.take_take, hline.text, hline.pos, Zipper.whole,
      List.take_left]
  · rw [hline.text, hline.pos, Zipper.whole, List.drop_left]
  · rw [List.map_take]
    change (texts s.history).take s.historyCnt = _
    rw [href.history.rows, href.history.cnt, List.take_left]
  · rintro front c rfl hsubmit
    obtain ⟨s₁, hs₁, hvt₁, href₁⟩ := session_refines commands hcount hnames front
    obtain ⟨s₂, hs₂, -, -, heffect⟩ := input_refines hvt₁ href₁ c
    rw [session_append hs₁ c, hs₂, Option.some.injEq] at hs
    subst hs
    rw [hsubmit] at heffect
    cases heffect with
    | edited hkey => exact absurd rfl hkey
    | submitted hsubmits => exact hsubmits.line

/-- Typing `ab`, moving left and inserting `c` before the `b`. -/
theorem mid_line_insert : ∃ s : Cmdline ℕ,
    session [([0x68, 0x65, 0x6C, 0x70], some 1)] [0x61, 0x62, 0x1B, 0x5B, 0x44, 0x63] = some s ∧
      s.buffer.bytes.take s.bufferEditPos = [0x61, 0x63] := by
  obtain ⟨s, hs, -, -, -, -, -, -, hbefore, -⟩ := line_refines_editor
    [([0x68, 0x65, 0x6C, 0x70], some (1 : ℕ))] (by decide) (by decide)
    [0x61, 0x62, 0x1B, 0x5B, 0x44, 0x63]
  exact ⟨s, hs, hbefore⟩

end Vp2Motion.Proofs.CommandLine
