import Vp2Motion.Firmware.Console
import Vp2Motion.Proofs.CommandLine

namespace Vp2Motion.Proofs.Console
open CString Firmware Firmware.Cmdline Line CommandLine

variable {F : Type} {s s' : Cmdline F} {commands : List (List UInt8 × F)}

/-- The command list holds `commands`, in the order of their registration. -/
structure Registered (s : Cmdline F) (commands : List (List UInt8 × F)) : Prop where
  count : s.numCommands = commands.length
  name : ∀ (k : ℕ) (c : List UInt8 × F), commands[k]? = some c →
    ∃ row : Row, s.commandList[k]? = some row ∧ 0 ∈ row.bytes ∧ text row.bytes = c.1
  function : ∀ (k : ℕ) (c : List UInt8 × F), commands[k]? = some c →
    s.functionList[k]? = some (some c.2)

/-- Names that fit into the command list and are C strings. -/
def Named (commands : List (List UInt8 × F)) : Prop :=
  ∀ c ∈ commands, c.1.length < cmdlineBufferSize ∧ 0 ∉ c.1

theorem Registered.congr (h : Registered s commands) (hlist : s'.commandList = s.commandList)
    (hfunctions : s'.functionList = s.functionList) (hnum : s'.numCommands = s.numCommands) :
    Registered s' commands :=
  ⟨hnum.trans h.count, fun k c hc => hlist ▸ h.name k c hc,
    fun k c hc => hfunctions ▸ h.function k c hc⟩

theorem Registered.add (h : Registered s commands) (c : List UInt8 × F)
    (hnum : s.numCommands < cmdlineMaxCommands) (hlen : c.1.length < cmdlineBufferSize)
    (h0 : 0 ∉ c.1) :
    ∃ s', s.cmdlineAddCommand c.1 (some c.2) = some s' ∧ Registered s' (commands ++ [c]) ∧
      s'.execFunction = s.execFunction := by
  obtain ⟨row, hzero, htext, hadd⟩ := add_command_eq c.1 (some c.2) hnum hlen h0
  have hnew : ∀ {k : ℕ} {d : List UInt8 × F}, (commands ++ [c])[k]? = some d → commands.length ≤ k →
      k = s.numCommands ∧ d = c := by
    intro k d hd hk
    rw [List.getElem?_append_right hk] at hd
    have hzero : k - commands.length = 0 := by
      by_contra hne
      rw [List.getElem?_eq_none (by simp; omega)] at hd
      cases hd
    rw [hzero] at hd
    cases hd
    exact ⟨by rw [h.count]; omega, rfl⟩
  refine ⟨_, hadd, ⟨by simp [h.count], ?_, ?_⟩, rfl⟩
  · intro k d hd
    by_cases hk : k < commands.length
    · rw [List.getElem?_append_left hk] at hd
      rw [Vector.getElem?_set_ne hnum (by rw [h.count]; omega)]
      exact h.name k d hd
    · obtain ⟨rfl, rfl⟩ := hnew hd (Nat.not_lt.mp hk)
      exact ⟨row, Vector.getElem?_set_self hnum, hzero, htext⟩
  · intro k d hd
    by_cases hk : k < commands.length
    · rw [List.getElem?_append_left hk] at hd
      rw [Vector.getElem?_set_ne hnum (by rw [h.count]; omega)]
      exact h.function k d hd
    · obtain ⟨rfl, rfl⟩ := hnew hd (Nat.not_lt.mp hk)
      exact Vector.getElem?_set_self hnum

theorem Registered.add_all (h : Registered s commands) (more : List (List UInt8 × F))
    (hcount : commands.length + more.length ≤ cmdlineMaxCommands) (hnames : Named more) :
    ∃ s', more.foldlM (fun s c => cmdlineAddCommand c.1 (some c.2) s) s = some s' ∧
      Registered s' (commands ++ more) ∧ s'.execFunction = s.execFunction := by
  induction more generalizing s commands with
  | nil => exact ⟨s, rfl, by rwa [List.append_nil], rfl⟩
  | cons c more ih =>
    rw [List.length_cons] at hcount
    obtain ⟨hlen, h0⟩ := hnames c (List.mem_cons_self ..)
    obtain ⟨s₁, hadd, hreg, hexec⟩ := h.add c (by rw [h.count]; omega) hlen h0
    have hmore : (commands ++ [c]).length + more.length ≤ cmdlineMaxCommands := by
      rw [List.length_append, List.length_singleton]
      omega
    obtain ⟨s', hs, hreg', hexec'⟩ := ih hreg hmore
      fun d hd => hnames d (List.mem_cons_of_mem _ hd)
    refine ⟨s', ?_, by rwa [List.append_assoc] at hreg', hexec'.trans hexec⟩
    rw [List.foldlM_cons, hadd]
    exact hs

/-- Between two passes: the line is that of the editor behind `t`, and no function
waits to be executed. -/
structure Running (commands : List (List UInt8 × F)) (s : Cmdline F) (t : Terminal) : Prop where
  vt : s.inputVT100State = t.vt
  refines : Refines s t.editor
  registered : Registered s commands
  idle : s.execFunction = none

def after (t : Terminal) (p : Pass) : Terminal :=
  match p.received with
  | some c => t.step coded c
  | none => t

/-- What a pass can do. -/
inductive Passed (s : Cmdline F) (t : Terminal) (p : Pass) :
    Cmdline F → List (Execution F) → Prop
  | idle : p.received = none → Passed s t p s []
  | edited (c : UInt8) (s' : Cmdline F) : p.received = some c → (decode t.vt c).2 ≠ .submit →
      Sends s s' (echo t.editor (decode t.vt c).2) → Passed s t p s' []
  | submitted (c : UInt8) (s' : Cmdline F) : p.received = some c → (decode t.vt c).2 = .submit →
      Submits s t.editor.line.whole s' →
      Passed s t p (s'.cmdlineMainLoop p.printed).1 (s'.cmdlineMainLoop p.printed).2

/-- A command function is called at most once and the line stays as it is. -/
theorem main_loop_running {t : Terminal} (hvt : s.inputVT100State = t.vt)
    (href : Refines s t.editor) (hreg : Registered s commands) (printed : List UInt8) :
    Running commands (s.cmdlineMainLoop printed).1 t := by
  unfold cmdlineMainLoop
  split
  · exact ⟨hvt, ⟨href.line, href.history, href.idx, href.low, href.high, href.copy, href.slot,
      href.commands⟩, hreg.congr rfl rfl rfl, rfl⟩
  · rename_i hidle
    exact ⟨hvt, href, hreg, hidle⟩

theorem Running.pass {t : Terminal} (h : Running commands s t) (p : Pass) :
    ∃ s' runs, s.pass p = some (s', runs) ∧ Running commands s' (after t p) ∧
      Passed s t p s' runs := by
  unfold Cmdline.pass after
  cases hp : p.received with
  | none =>
    have hloop : s.cmdlineMainLoop p.printed = (s, []) := by
      simp only [cmdlineMainLoop, h.idle]
    exact ⟨s, [], congrArg some hloop, h, .idle hp⟩
  | some c =>
    obtain ⟨s', hs, hvt, href, heffect⟩ := input_refines h.vt h.refines c
    simp only [hs, Option.bind_eq_bind, Option.bind_some]
    generalize hkey : (decode t.vt c).2 = key at heffect
    cases heffect with
    | edited hne hsends =>
      have hidle : s'.execFunction = none := hsends.execFunction.trans h.idle
      have hloop : s'.cmdlineMainLoop p.printed = (s', []) := by
        simp only [cmdlineMainLoop, hidle]
      exact ⟨s', [], congrArg some hloop, ⟨hvt, href, h.registered.congr hsends.commandList
        hsends.functionList hsends.numCommands, hidle⟩,
        .edited c s' hp (hkey ▸ hne) (hkey ▸ hsends)⟩
    | submitted hsubmits =>
      exact ⟨_, _, rfl, main_loop_running hvt href (h.registered.congr hsubmits.commandList
        hsubmits.functionList hsubmits.numCommands) p.printed, .submitted c s' hp hkey hsubmits⟩

theorem running_initial (commands : List (List UInt8 × F))
    (hcount : commands.length ≤ cmdlineMaxCommands) (hnames : Named commands) :
    ∃ s, main commands [] = some s ∧ Running commands s ⟨.text, .initial⟩ := by
  have hempty : Registered (zeroed.cmdlineInit : Cmdline F) [] :=
    ⟨rfl, fun k c hc => by simp at hc, fun k c hc => by simp at hc⟩
  obtain ⟨s, hs, hreg, hexec⟩ := hempty.add_all commands (by simpa using hcount) hnames
  have hmapped : ∀ d ∈ commands.map (fun c => (c.1, some c.2)),
      d.1.length < cmdlineBufferSize ∧ 0 ∉ d.1 := by
    intro d hd
    obtain ⟨c, hc, rfl⟩ := List.mem_map.mp hd
    exact hnames c hc
  obtain ⟨s', hs', hvt, href⟩ := add_commands_refines (commands.map fun c => (c.1, some c.2))
    initial_refines (by simpa [zeroed, cmdlineInit] using hcount) hmapped
  rw [List.foldlM_map, hs, Option.some.injEq] at hs'
  subst hs'
  refine ⟨s.cmdlinePrintPrompt, ?_, hvt, href.output _, hreg.congr rfl rfl rfl, hexec⟩
  simp [main, hs]

theorem main_append {commands : List (List UInt8 × F)} {passes : List Pass}
    (hs : main commands passes = some s) (p : Pass) :
    main commands (passes ++ [p]) = (s.pass p).map (·.1) := by
  obtain ⟨s₀, hs₀, hfold⟩ := Option.bind_eq_some_iff.mp hs
  simp only [main, hs₀, Option.bind_eq_bind, Option.bind_some, List.foldlM_append, hfold]
  simp

/-- The bytes that the passes have received. -/
def received (passes : List Pass) : List UInt8 := passes.filterMap Pass.received

theorem main_running (commands : List (List UInt8 × F))
    (hcount : commands.length ≤ cmdlineMaxCommands) (hnames : Named commands)
    (passes : List Pass) :
    ∃ s, main commands passes = some s ∧
      Running commands s (Terminal.run coded (received passes)) := by
  induction passes using List.reverseRecOn with
  | nil => exact running_initial commands hcount hnames
  | append_singleton passes p ih =>
    obtain ⟨s, hs, hrunning⟩ := ih
    obtain ⟨s', runs, hpass, hrunning', -⟩ := hrunning.pass p
    refine ⟨s', by rw [main_append hs p, hpass]; rfl, ?_⟩
    rw [received, List.filterMap_append]
    unfold after at hrunning'
    cases hp : p.received with
    | none => simpa [hp, received] using hrunning'
    | some c => simpa [hp, received, Terminal.run_append] using hrunning'

end Vp2Motion.Proofs.Console
