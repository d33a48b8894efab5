import Vp2Motion.Proofs.Console

namespace Vp2Motion.Proofs.Dispatch
open CString Firmware Firmware.Cmdline Line CommandLine Console

variable {F : Type} {s s' : Cmdline F} {commands : List (List UInt8 × F)}

/-- The first command whose name begins with the first word of the line. -/
def matching (commands : List (List UInt8 × F)) (line : List UInt8) : Option (List UInt8 × F) :=
  commands.find? fun c => (firstWord asciiSpace line).isPrefixOf c.1

/-- A name is compared with a word that holds no zero. -/
theorem strncmp_prefix {word : List UInt8} (hword : 0 ∉ word) (rest : List UInt8)
    (hz : 0 ∈ bytes) :
    strncmpZero word.length bytes (word ++ rest) = some (word.isPrefixOf (text bytes)) := by
  induction word generalizing bytes with
  | nil => rfl
  | cons c word ih =>
    obtain ⟨hc, hword⟩ := not_or.mp (mt List.mem_cons.mpr hword)
    cases bytes with
    | nil => simp at hz
    | cons b bytes =>
      by_cases hb : b = 0
      · have hne : b ≠ c := hb ▸ hc
        rw [List.length_cons, List.cons_append, strncmpZero, if_neg hne]
        simp [text, hb]
      · rw [text_cons hb, List.length_cons, List.cons_append, strncmpZero, if_neg hb,
          ih hword (List.mem_of_ne_of_mem (Ne.symm hb) hz)]
        by_cases hbc : b = c
        · simp [hbc]
        · have hcb : c ≠ b := Ne.symm hbc
          simp [hbc, List.isPrefixOf_cons_cons, hcb]

theorem buffer_word {b : Row} (hz : 0 ∈ b.bytes) (ht : text b.bytes = line) :
    ∃ rest, b.bytes = firstWord asciiSpace line ++ rest ∧ 0 ∉ firstWord asciiSpace line := by
  obtain ⟨rest, hrest⟩ := exists_of_mem hz
  refine ⟨line.dropWhile (· ≠ asciiSpace) ++ 0 :: rest, ?_, ?_⟩
  · rw [firstWord, ← List.append_assoc, List.takeWhile_append_dropWhile, ← ht]
    exact hrest
  · intro hmem
    refine text_not_mem b.bytes (ht ▸ ?_)
    exact (List.takeWhile_sublist _).subset hmem

/-- The search finds the first matching command from `k` on. -/
theorem find_command_find (hreg : Registered s commands) (hz : 0 ∈ s.buffer.bytes)
    (ht : text s.buffer.bytes = line) (left : ℕ) {k : ℕ} (hk : k + left = commands.length)
    (hfind : s.findCommand (firstWord asciiSpace line).length left k = some r) :
    (∀ i, r = some i → ∃ c, commands[i]? = some c ∧ matching (commands.drop k) line = some c) ∧
      (r = none → matching (commands.drop k) line = none) := by
  induction left generalizing k with
  | zero =>
    rw [findCommand, Option.some.injEq] at hfind
    subst hfind
    have hdrop : commands.drop k = [] := List.drop_of_length_le (by omega)
    refine ⟨fun i hi => absurd hi (by simp), ?_⟩
    intro _
    rw [hdrop]
    rfl
  | succ left ih =>
    have hlt : k < commands.length := by omega
    have hat := List.getElem?_eq_getElem hlt
    obtain ⟨row, hrow, hzero, htext⟩ := hreg.name k _ hat
    obtain ⟨rest, hbytes, hword⟩ := buffer_word hz ht
    have hcmp := strncmp_prefix hword rest hzero
    rw [htext] at hcmp
    rw [List.drop_eq_getElem_cons hlt]
    simp only [findCommand, hrow, hbytes, hcmp, Option.bind_eq_bind, Option.bind_some] at hfind
    rw [matching, List.find?_cons]
    cases hmatch : (firstWord asciiSpace line).isPrefixOf commands[k].1 with
    | true =>
      rw [hmatch, if_pos rfl] at hfind
      cases hfind
      refine ⟨?_, fun h => absurd h (by simp)⟩
      intro i hi
      cases hi
      exact ⟨_, hat, rfl⟩
    | false =>
      rw [hmatch, if_neg Bool.false_ne_true] at hfind
      exact ih (by omega) hfind

theorem drop_take_while (test : UInt8 → Bool) (l : List UInt8) :
    l.drop (l.takeWhile test).length = l.dropWhile test := by
  calc
    l.drop (l.takeWhile test).length =
        (l.takeWhile test ++ l.dropWhile test).drop (l.takeWhile test).length := by
      rw [List.takeWhile_append_dropWhile]
    _ = l.dropWhile test := List.drop_left

theorem drop_spaces_head (l : List UInt8) :
    (l.dropWhile (· = asciiSpace)).head? ≠ some asciiSpace := by
  intro hsome
  have hstop := List.head?_dropWhile_not (· = asciiSpace) l
  rw [hsome] at hstop
  simp at hstop

theorem skip_eq {line : List UInt8} (h0 : 0 ∉ line) (test : UInt8 → Bool) (rest : List UInt8) :
    skip test (line ++ 0 :: rest) = some (line.takeWhile test).length := by
  induction line with
  | nil => simp [skip]
  | cons c line ih =>
    obtain ⟨hc, h0⟩ := not_or.mp (mt List.mem_cons.mpr h0)
    rw [List.cons_append, skip, ih h0, List.takeWhile_cons]
    cases htest : test c with
    | true => simp [Ne.symm hc]
    | false => simp

/-- From the start of a word, or from the end of the line. -/
theorem skip_args_eq {line : List UInt8} (h0 : 0 ∉ line) (hlen : line.length < 256)
    (rest : List UInt8) (n : ℕ) {idx : ℕ} (hidx : idx ≤ line.length)
    (hhead : (line.drop idx).head? ≠ some asciiSpace) :
    skipArgs (line ++ 0 :: rest) idx n = some (idx + wordStart asciiSpace (line.drop idx) n) := by
  have hskip : ∀ {k} (test : UInt8 → Bool), k ≤ line.length →
      skip test ((line ++ 0 :: rest).drop k) = some ((line.drop k).takeWhile test).length := by
    intro k test hk
    rw [List.drop_append_of_le_length hk]
    exact skip_eq (fun hmem => h0 (List.mem_of_mem_drop hmem)) test rest
  have hwithin : ∀ {k} (test : UInt8 → Bool), k ≤ line.length →
      k + ((line.drop k).takeWhile test).length ≤ line.length ∧
      line.drop (k + ((line.drop k).takeWhile test).length) = (line.drop k).dropWhile test := by
    intro k test hk
    have hle := (List.takeWhile_sublist test (l := line.drop k)).length_le
    rw [List.length_drop] at hle
    refine ⟨by omega, ?_⟩
    rw [← List.drop_drop, drop_take_while]
  induction n generalizing idx with
  | zero => rw [skipArgs, word_start_zero hhead, Nat.add_zero]
  | succ n ih =>
    obtain ⟨hword, hafter⟩ := hwithin (· ≠ asciiSpace) hidx
    obtain ⟨hspaces, hnext⟩ := hwithin (· = asciiSpace) hword
    rw [skipArgs, hskip _ hidx, word_start_next hhead, word_start_skip]
    simp only [Option.bind_eq_bind, Option.bind_some]
    rw [u8_eq (by omega), hskip _ hword]
    simp only [Option.bind_some]
    rw [u8_eq (by omega)]
    rw [hafter] at hspaces hnext ⊢
    rw [ih hspaces (by rw [hnext]; exact drop_spaces_head _), hnext]
    congr 1
    omega

theorem get_arg_str_eq {line : List UInt8} (h0 : 0 ∉ line) (hlen : line.length < 256)
    (rest : List UInt8) (argnum : UInt8) :
    cmdlineGetArgStr argnum (line ++ 0 :: rest) =
      some (wordStart asciiSpace line argnum.toNat) := by
  have hle := (List.takeWhile_sublist (· = asciiSpace) (l := line)).length_le
  have hdrop := drop_take_while (· = asciiSpace) line
  rw [cmdlineGetArgStr, skip_eq h0]
  simp only [Option.bind_eq_bind, Option.bind_some]
  have hhead : (line.drop (line.takeWhile (· = asciiSpace)).length).head? ≠ some asciiSpace := by
    rw [hdrop]
    exact drop_spaces_head line
  rw [u8_eq (by omega), skip_args_eq h0 hlen rest _ hle hhead, hdrop, ← word_start_skip]

/-- The line as it stands before a byte. -/
def current (s : Cmdline F) : List UInt8 := s.buffer.bytes.take s.bufferLength

/-- A carriage return that is not taken for the code of an escape sequence. -/
def Submitting (s : Cmdline F) (p : Pass) : Prop :=
  p.received = some asciiCr ∧ s.inputVT100State ≠ .bracket

/-- A line without a first word: it is empty or starts with a space. -/
def Blank (line : List UInt8) : Prop := line = [] ∨ line.head? = some asciiSpace

/-- The buffer that a command finds when `line` was submitted: what
`cmdlineGetArgStr` returns is the start of a word of the line, or its end, and no byte
behind the zero has been read for it. -/
structure Holding (line : List UInt8) (buffer : Row) : Prop where
  bytes : ∃ rest, buffer.bytes = line ++ 0 :: rest
  arg : ∀ argnum : UInt8, cmdlineGetArgStr argnum buffer.bytes =
    some (wordStart asciiSpace line argnum.toNat)
  inside : ∀ argnum : UInt8, cmdlineGetArgStr argnum (line ++ [0]) =
    cmdlineGetArgStr argnum buffer.bytes

/-- What a pass has to execute and to send. -/
structure Dispatched (commands : List (List UInt8 × F)) (s : Cmdline F) (p : Pass)
    (s' : Cmdline F) (runs : List (Execution F)) : Prop where
  other : ¬Submitting s p → runs = []
  blank : Submitting s p → Blank (current s) →
    runs = [] ∧ s'.output = s.output ++ [asciiCr, asciiLf] ++ cmdlinePrompt
  found : ∀ c, Submitting s p → ¬Blank (current s) → matching commands (current s) = some c →
    (∃ buffer, runs = [⟨c.2, buffer⟩] ∧ Holding (current s) buffer) ∧
      s'.output = s.output ++ [asciiCr, asciiLf] ++ p.printed ++ cmdlinePrompt
  missing : Submitting s p → ¬Blank (current s) → matching commands (current s) = none →
    runs = [] ∧ s'.output = s.output ++ [asciiCr, asciiLf] ++
      notFound (firstWord asciiSpace (current s)) ++ cmdlinePrompt

theorem blank_iff (line : List UInt8) : Blank line ↔ (firstWord asciiSpace line).length = 0 := by
  rw [Blank, List.length_eq_zero_iff]
  cases line with
  | nil => simp [firstWord]
  | cons c line =>
    by_cases hc : c = asciiSpace
    · simp [firstWord, hc]
    · simp [firstWord, hc]

theorem submitting_iff {t : Terminal} (h : Running commands s t)
    (hp : p.received = some c) : Submitting s p ↔ (decode t.vt c).2 = .submit := by
  rw [submit_iff, Submitting, hp, h.vt, Option.some.injEq]
  exact and_comm

theorem holding_of_submits (hshort : line.length < 256) (h : Submits s line s') :
    Holding line s'.buffer := by
  obtain ⟨rest, hrest⟩ := exists_of_mem h.terminated
  rw [h.line] at hrest
  have h0 : 0 ∉ line := h.line ▸ text_not_mem _
  refine ⟨⟨rest, hrest⟩, ?_, ?_⟩
  · intro argnum
    rw [hrest, get_arg_str_eq h0 hshort]
  · intro argnum
    rw [hrest, get_arg_str_eq h0 hshort, get_arg_str_eq h0 hshort]

/-- The line that a carriage return submits decides what is executed. -/
theorem submitted_dispatched (hreg : Registered s commands) (hidle : s.execFunction = none)
    (hsub : Submitting s p) (hshort : (current s).length < 256)
    (h : Submits s (current s) s') :
    Dispatched commands s p (s'.cmdlineMainLoop p.printed).1
      (s'.cmdlineMainLoop p.printed).2 := by
  have hword := word_length_eq h.terminated
  rw [h.line] at hword
  have hblank := blank_iff (current s)
  have hholding := holding_of_submits hshort h
  have hregistered : Registered { s with buffer := s'.buffer } commands := hreg.congr rfl rfl rfl
  have hsearch := fun {r} => find_command_find (r := r) hregistered h.terminated h.line
    s.numCommands (k := 0) (by rw [hreg.count, Nat.zero_add])
  obtain ⟨out, houtcome, hout⟩ := h.outcome
  generalize hexec : s'.execFunction = f at houtcome
  cases houtcome with
  | empty hn =>
    rw [hword, Option.some.injEq] at hn
    rw [cmdlineMainLoop, hexec, hidle]
    exact ⟨fun hno => absurd hsub hno, fun _ _ => ⟨rfl, hout⟩,
      fun c _ hnot => absurd (hblank.mpr hn) hnot, fun _ hnot => absurd (hblank.mpr hn) hnot⟩
  | found n k f hn h0 hfind hf =>
    rw [hword, Option.some.injEq] at hn
    subst hn
    obtain ⟨c, hc, hmatch⟩ := (hsearch hfind).1 k rfl
    rw [List.drop_zero] at hmatch
    rw [hreg.function k c hc, Option.some.injEq] at hf
    subst hf
    rw [cmdlineMainLoop, hexec]
    refine ⟨fun hno => absurd hsub hno, fun _ hb => absurd (hblank.mp hb) h0, ?_, ?_⟩
    · intro d _ _ hd
      rw [hmatch, Option.some.injEq] at hd
      subst hd
      refine ⟨⟨s'.buffer, rfl, hholding⟩, ?_⟩
      simp only [cmdlinePrintPrompt, cmdlineOutput, hout, List.append_nil]
    · intro _ _ hnone
      rw [hmatch] at hnone
      cases hnone
  | missing n hn h0 hfind =>
    rw [hword, Option.some.injEq] at hn
    subst hn
    have hmatch := (hsearch hfind).2 rfl
    rw [List.drop_zero] at hmatch
    obtain ⟨rest, hrest, -⟩ := buffer_word h.terminated h.line
    have htake : s'.buffer.bytes.take (firstWord asciiSpace (current s)).length =
        firstWord asciiSpace (current s) := by
      rw [hrest, List.take_left]
    rw [htake, ← List.append_assoc] at hout
    rw [cmdlineMainLoop, hexec, hidle]
    refine ⟨fun hno => absurd hsub hno, fun _ hb => absurd (hblank.mp hb) h0, ?_,
      fun _ _ _ => ⟨rfl, hout⟩⟩
    intro c _ _ hc
    rw [hmatch] at hc
    cases hc

theorem current_eq {t : Terminal} (h : Running commands s t) :
    current s = t.editor.line.whole :=
  h.refines.line.text

theorem pass_dispatched {t : Terminal} (h : Running commands s t) (p : Pass) :
    ∃ s' runs, s.pass p = some (s', runs) ∧ Dispatched commands s p s' runs := by
  obtain ⟨s', runs, hpass, -, hpassed⟩ := h.pass p
  refine ⟨s', runs, hpass, ?_⟩
  have hnothing : ∀ {s'' : Cmdline F}, ¬Submitting s p → Dispatched commands s p s'' [] :=
    fun hno => ⟨fun _ => rfl, fun hsub => absurd hsub hno, fun c hsub => absurd hsub hno,
      fun hsub => absurd hsub hno⟩
  cases hpassed with
  | idle hp =>
    refine hnothing fun hsub => ?_
    rw [Submitting, hp] at hsub
    cases hsub.1
  | edited c s' hp hkey hsends => exact hnothing (mt (submitting_iff h hp).mp hkey)
  | submitted c s' hp hkey hsubmits =>
    rw [← current_eq h] at hsubmits
    have hshort := h.refines.line.short
    rw [← current_eq h, cmdlineBufferSize] at hshort
    exact submitted_dispatched h.registered h.idle ((submitting_iff h hp).mpr hkey) (by omega)
      hsubmits

/-- In every pass of the loop a carriage return executes, once, the first command that
the first word of the line stands for, and nothing else does; the command finds the
words of that very line as its arguments. -/
theorem executes_submitted_line (commands : List (List UInt8 × F))
    (hcount : commands.length ≤ cmdlineMaxCommands) (hnames : Named commands)
    (passes : List Pass) :
    ∃ s, main commands passes = some s ∧
      ∀ p, ∃ s' runs, s.pass p = some (s', runs) ∧
        main commands (passes ++ [p]) = some s' ∧ Dispatched commands s p s' runs := by
  obtain ⟨s, hs, hrunning⟩ := main_running commands hcount hnames passes
  refine ⟨s, hs, ?_⟩
  intro p
  obtain ⟨s', runs, hpass, hdispatched⟩ := pass_dispatched hrunning p
  refine ⟨s', runs, hpass, ?_, hdispatched⟩
  rw [main_append hs p, hpass]
  rfl

/-- "help" as the only command, and passes that receive `bytes`. -/
def help : List (List UInt8 × ℕ) := [([0x68, 0x65, 0x6C, 0x70], 1)]
def receiving (bytes : List UInt8) : List Pass := bytes.map fun c => ⟨some c, []⟩

/-- "he  x" calls the command, with its second argument at index 4. -/
theorem help_executed : ∃ s s' : Cmdline ℕ, ∃ buffer,
    main help (receiving [0x68, 0x65, 0x20, 0x20, 0x78]) = some s ∧
      s.pass ⟨some asciiCr, []⟩ = some (s', [⟨1, buffer⟩]) ∧
      cmdlineGetArgStr 1 buffer.bytes = some 4 := by
  obtain ⟨s, hs, hpasses⟩ := executes_submitted_line help (by decide) (by unfold Named; decide)
    (receiving [0x68, 0x65, 0x20, 0x20, 0x78])
  obtain ⟨s₀, hs₀, hrunning⟩ := main_running help (by decide) (by unfold Named; decide)
    (receiving [0x68, 0x65, 0x20, 0x20, 0x78])
  obtain rfl : s = s₀ := Option.some.inj (hs.symm.trans hs₀)
  obtain ⟨s', runs, hpass, -, hdispatched⟩ := hpasses ⟨some asciiCr, []⟩
  have hline : current s = [0x68, 0x65, 0x20, 0x20, 0x78] := (current_eq hrunning).trans (by decide)
  have hvt : s.inputVT100State = .text := hrunning.vt.trans (by decide)
  obtain ⟨⟨buffer, rfl, hholding⟩, -⟩ := hdispatched.found _ ⟨rfl, by rw [hvt]; decide⟩
    (by rw [hline, blank_iff]; decide) (by rw [hline]; rfl)
  refine ⟨s, s', buffer, hs, hpass, ?_⟩
  rw [hholding.arg 1, hline]
  decide

/-- The carriage return of "help", ESC, a bracket and a carriage return is the code of
an escape sequence: the line stays and nothing is executed. -/
theorem escaped_return_ignored : ∃ s s' : Cmdline ℕ,
    main help (receiving [0x68, 0x65, 0x6C, 0x70, asciiEsc, asciiBracket]) = some s ∧
      current s = [0x68, 0x65, 0x6C, 0x70] ∧
      matching help (current s) = some ([0x68, 0x65, 0x6C, 0x70], 1) ∧
      s.pass ⟨some asciiCr, []⟩ = some (s', []) := by
  obtain ⟨s, hs, hrunning⟩ := main_running help (by decide) (by unfold Named; decide)
    (receiving [0x68, 0x65, 0x6C, 0x70, asciiEsc, asciiBracket])
  have hline : current s = [0x68, 0x65, 0x6C, 0x70] := (current_eq hrunning).trans (by decide)
  have hvt : s.inputVT100State = .bracket := hrunning.vt.trans (by decide)
  obtain ⟨s', runs, hpass, hdispatched⟩ := pass_dispatched hrunning ⟨some asciiCr, []⟩
  obtain rfl := hdispatched.other fun hsub => hsub.2 hvt
  exact ⟨s, s', hs, hline, by rw [hline]; rfl, hpass⟩

end Vp2Motion.Proofs.Dispatch
