import Vp2Motion.Line.Screen
import Vp2Motion.Proofs.Console

namespace Vp2Motion.Proofs.Screen
open CString Firmware Firmware.Cmdline Line Line.Screen CommandLine Console

/-- The prompt, the line and blanks, with the cursor at its place in the line. -/
def painted (width : ℕ) (z : Zipper UInt8) : Screen :=
  ⟨⟨cmdlinePrompt ++ z.before, z.after ++ List.replicate (width - 5 - z.whole.length) blank⟩,
    .none⟩

variable {width : ℕ} {z : Zipper UInt8}

theorem prompt_printable : ∀ c ∈ cmdlinePrompt, Printable c := by
  intro c hc
  simp only [cmdlinePrompt, List.mem_cons, List.not_mem_nil, or_false] at hc
  rcases hc with rfl | rfl | rfl | rfl | rfl
  all_goals decide

theorem blanks_ne_nil (h : 0 < n) : List.replicate n blank ≠ [] := by
  rw [ne_eq, List.replicate_eq_nil_iff]
  omega

/-- Over a line of any contents. -/
theorem run_repainted {cells : Zipper UInt8} (hcells : cells.whole.length = width)
    (hprint : ∀ c ∈ line, Printable c) (hfit : 5 + line.length < width) :
    Screen.run ⟨cells, .none⟩ (repainted line) = some (painted width ⟨line, []⟩) := by
  have hsplit : cells.whole = cells.whole.take 5 ++ cells.whole.drop 5 :=
    (List.take_append_drop 5 _).symm
  have hprompt : Screen.run ⟨⟨[], cells.whole⟩, .none⟩ cmdlinePrompt =
      some ⟨⟨cmdlinePrompt, cells.whole.drop 5⟩, .none⟩ := by
    rw [hsplit, List.drop_left' (by simp; omega)]
    refine run_text prompt_printable ?_ ?_ []
    · simp [cmdlinePrompt]
      omega
    · rw [ne_eq, ← List.length_eq_zero_iff, List.length_drop]
      omega
  have herase : Screen.run ⟨⟨cmdlinePrompt, cells.whole.drop 5⟩, .none⟩
      [asciiEsc, asciiBracket, 0x4B] =
        some ⟨⟨cmdlinePrompt, List.replicate (width - 5) blank⟩, .none⟩ := by
    rw [← hcells, ← List.length_drop]
    exact run_erase _
  have hblanks : List.replicate (width - 5) blank =
      List.replicate line.length blank ++ List.replicate (width - 5 - line.length) blank := by
    rw [List.replicate_append_replicate]
    congr 1
    omega
  have htext : Screen.run ⟨⟨cmdlinePrompt, List.replicate (width - 5) blank⟩, .none⟩ line =
      some ⟨⟨cmdlinePrompt ++ line, List.replicate (width - 5 - line.length) blank⟩, .none⟩ := by
    rw [hblanks]
    exact run_text hprint List.length_replicate (blanks_ne_nil (by omega)) _
  have hwhole : (⟨line, []⟩ : Zipper UInt8).whole = line := List.append_nil line
  rw [painted, hwhole]
  exact run_append (run_append (run_append (run_return _) hprompt) herase) htext

theorem painted_length (hfit : 5 + z.whole.length ≤ width) :
    (painted width z).cells.whole.length = width := by
  have hprompt : cmdlinePrompt.length = 5 := rfl
  simp only [Zipper.whole, List.length_append] at hfit
  simp only [painted, Zipper.whole, List.length_append, List.length_replicate, hprompt]
  omega

/-- A line that fits leaves a cell for the cursor behind its end. -/
def Fits (width : ℕ) (z : Zipper UInt8) : Prop := 5 + z.whole.length < width

theorem run_repainted_line (hz : Fits width z) (hprint : ∀ c ∈ line, Printable c)
    (hline : 5 + line.length < width) :
    (painted width z).run (repainted line) = some (painted width ⟨line, []⟩) :=
  run_repainted (painted_length (Nat.le_of_lt hz)) hprint hline

theorem blanks_succ (h : m + 1 = n) :
    List.replicate n blank = blank :: List.replicate m blank := by
  rw [← h, List.replicate_succ]

/-- A character typed at the end. -/
theorem run_typed (hc : Printable c) (hend : z.after = []) (hfit : Fits width (z.insert c)) :
    (painted width z).run [c] = some (painted width (z.insert c)) := by
  obtain ⟨before, after⟩ := z
  obtain rfl : after = [] := hend
  simp only [Fits, Zipper.whole, Zipper.insert, List.append_nil, List.length_append,
    List.length_singleton] at hfit
  have hblanks : List.replicate (width - 5 - before.length) blank =
      blank :: List.replicate (width - 5 - (before.length + 1)) blank := blanks_succ (by omega)
  simp only [painted, Zipper.whole, Zipper.insert, List.append_nil, List.nil_append,
    List.length_append, List.length_singleton, hblanks, ← List.append_assoc]
  exact run_char hc (blanks_ne_nil (by omega)) _ _

/-- Redrawn, with the cursor moved back over the end of the line. -/
theorem run_redrawn {before after : List UInt8} (hz : Fits width z)
    (hprint : ∀ c ∈ before ++ after, Printable c) (hfit : Fits width ⟨before, after⟩) :
    (painted width z).run (repainted (before ++ after) ++ List.replicate after.length asciiBs) =
      some (painted width ⟨before, after⟩) := by
  refine run_append (run_repainted_line hz hprint hfit) ?_
  simp only [painted, Zipper.whole, List.append_nil, List.nil_append, ← List.append_assoc]
  exact run_backspaces _ _ _

/-- The last character rubbed out. -/
theorem run_rubbed {before : List UInt8} (hfit : Fits width ⟨before ++ [c], []⟩) :
    (painted width ⟨before ++ [c], []⟩).run [asciiBs, asciiSpace, asciiBs] =
      some (painted width ⟨before, []⟩) := by
  simp only [Fits, Zipper.whole, List.append_nil, List.length_append, List.length_singleton] at hfit
  have hblanks : List.replicate (width - 5 - before.length) blank =
      blank :: List.replicate (width - 5 - (before.length + 1)) blank := blanks_succ (by omega)
  have hspace : Printable asciiSpace := by decide
  simp only [painted, Zipper.whole, List.append_nil, List.nil_append, List.length_append,
    List.length_singleton, hblanks, ← List.append_assoc]
  refine run_append (x := [asciiBs]) (run_backspace _ c _) ?_
  refine run_append (x := [asciiSpace]) (run_char hspace (blanks_ne_nil (by omega)) _ _) ?_
  exact run_backspace _ _ _

/-- Redrawn with one character less, whose cell is overwritten. -/
theorem run_closed_up {before after : List UInt8} (hz : Fits width z)
    (hprint : ∀ c ∈ before ++ after, Printable c)
    (hfit : 5 + (before ++ after).length + 1 < width) :
    (painted width z).run (repainted (before ++ after) ++ [asciiSpace] ++
      List.replicate (after.length + 1) asciiBs) = some (painted width ⟨before, after⟩) := by
  have hblanks : List.replicate (width - 5 - (before ++ after).length) blank =
      blank :: List.replicate (width - 5 - ((before ++ after).length + 1)) blank :=
    blanks_succ (by omega)
  have hspace : Printable asciiSpace := by decide
  have hredraw := run_repainted_line hz hprint (Nat.lt_of_succ_lt hfit)
  have hback := run_backspaces (cmdlinePrompt ++ before) (after ++ [asciiSpace])
    (List.replicate (width - 5 - ((before ++ after).length + 1)) blank)
  have hlength : (after ++ [asciiSpace]).length = after.length + 1 := by simp
  rw [hlength] at hback
  simp only [painted, Zipper.whole, List.append_nil, List.nil_append, hblanks] at hredraw ⊢
  refine run_append (run_append hredraw
    (run_char hspace (blanks_ne_nil (by omega)) _ _)) ?_
  simp only [List.append_assoc, List.singleton_append] at hback ⊢
  exact hback

/-- A line that can be shown. -/
structure Plain (line : List UInt8) : Prop where
  printable : ∀ c ∈ line, Printable c
  short : line.length ≤ coded.capacity

/-- So can the line be shown and every one that may be recalled. -/
structure Legible (e : Editor UInt8) : Prop where
  line : Plain e.line.whole
  history : ∀ entry ∈ e.history, Plain entry

theorem Plain.fits (h : Plain z.whole) (hwidth : 54 ≤ width) : Fits width z := by
  have hshort : z.whole.length ≤ 48 := h.short
  rw [Fits]
  omega

theorem Plain.nil : Plain [] := ⟨by simp, Nat.zero_le _⟩

theorem Legible.initial : Legible Editor.initial := ⟨.nil, by simp [Editor.initial]⟩

theorem Plain.insert (h : Plain z.whole) (hc : Printable c)
    (hroom : z.whole.length < coded.capacity) : Plain (z.insert c).whole := by
  have hlen : (z.insert c).whole.length = z.whole.length + 1 := by
    simp [Zipper.insert, Zipper.whole]
    omega
  refine ⟨?_, by rw [hlen]; exact hroom⟩
  intro d hd
  simp only [Zipper.insert, Zipper.whole, List.mem_append, List.mem_singleton] at hd
  rcases hd with (hbefore | rfl) | hafter
  · exact h.printable d (List.mem_append_left _ hbefore)
  · exact hc
  · exact h.printable d (List.mem_append_right _ hafter)

theorem Plain.delete (h : Plain z.whole) : Plain z.delete.whole := by
  have hsub : List.Sublist z.delete.whole z.whole :=
    List.Sublist.append (List.dropLast_sublist _) (List.Sublist.refl _)
  exact ⟨fun d hd => h.printable d (hsub.subset hd), hsub.length_le.trans h.short⟩

theorem Legible.select (h : Legible e) (idx : ℤ) : Legible (e.select idx) := by
  refine ⟨?_, h.history⟩
  simp only [Editor.select, Zipper.whole, List.append_nil]
  generalize (max 0 (min idx ((e.history.length : ℤ) - 1))).toNat = k
  by_cases hk : k < e.history.length
  · rw [List.getD_eq_getElem _ _ hk]
    exact h.history _ (List.getElem_mem hk)
  · rw [List.getD_eq_default _ _ (Nat.not_lt.mp hk)]
    exact .nil

theorem Legible.saved (h : Legible e) : ∀ entry ∈ e.saved coded, Plain entry := by
  intro entry hentry
  have hall : ∀ entry ∈ e.line.whole :: e.history, Plain entry := by
    intro entry hentry
    rcases List.mem_cons.mp hentry with rfl | hold
    · exact h.line
    · exact h.history entry hold
  unfold Editor.saved at hentry
  split at hentry
  · exact h.history entry hentry
  · split at hentry
    · rcases List.mem_cons.mp hentry with rfl | hold
      · exact h.line
      · exact h.history entry (List.mem_of_mem_eraseIdx hold)
    · exact hall entry (List.mem_of_mem_take hentry)

theorem Legible.step (h : Legible e) (hkey : ∀ c, key = .insert c → Printable c) :
    Legible (e.step coded key) := by
  cases key with
  | insert c =>
    rw [Editor.step]
    split
    · rename_i hroom
      exact ⟨h.line.insert (hkey c rfl) hroom, h.history⟩
    · exact h
  | delete =>
    rw [Editor.step]
    split
    · exact h
    · exact ⟨h.line.delete, h.history⟩
  | right => exact ⟨by simpa [Editor.step] using h.line, h.history⟩
  | left => exact ⟨by simpa [Editor.step] using h.line, h.history⟩
  | older => exact h.select _
  | newer => exact h.select _
  | submit => exact ⟨.nil, h.saved⟩
  | other => exact h

theorem insert_paints {e : Editor UInt8} (h : Legible e) (hwidth : 54 ≤ width)
    (hc : Printable c) :
    (painted width e.line).run (echo e (.insert c)) =
      some (painted width (e.step coded (.insert c)).line) := by
  have hfits := h.line.fits hwidth
  rw [echo, Editor.step]
  by_cases hroom : e.line.whole.length < coded.capacity
  · have hinserted := h.line.insert hc hroom
    rw [if_pos hroom, if_pos hroom]
    by_cases hend : e.line.after = []
    · rw [if_pos hend]
      exact run_typed hc hend (hinserted.fits hwidth)
    · rw [if_neg hend]
      exact run_redrawn hfits hinserted.printable (hinserted.fits hwidth)
  · rw [if_neg hroom, if_neg hroom]
    exact run_bell _

theorem delete_paints {e : Editor UInt8} (h : Legible e) (hwidth : 54 ≤ width) :
    (painted width e.line).run (echo e .delete) =
      some (painted width (e.step coded .delete).line) := by
  have hfits := h.line.fits hwidth
  have hdeleted := h.line.delete
  rw [echo, Editor.step]
  by_cases hstart : e.line.before = []
  · rw [if_pos hstart, if_pos hstart]
    exact run_bell _
  · obtain ⟨before, c, hbefore⟩ := (List.eq_nil_or_concat' _).resolve_left hstart
    rw [if_neg hstart, if_neg hstart]
    obtain ⟨⟨b, after⟩, history, idx, origin⟩ := e
    obtain rfl : b = before ++ [c] := hbefore
    simp only [Zipper.delete, List.dropLast_concat] at hdeleted ⊢
    by_cases hend : after = []
    · subst hend
      rw [if_pos rfl]
      exact run_rubbed hfits
    · rw [if_neg hend]
      refine run_closed_up hfits hdeleted.printable ?_
      simp only [Fits, Zipper.whole, List.length_append, List.length_singleton] at hfits ⊢
      omega

/-- What a key sends draws the line that it makes. -/
theorem echo_paints {e : Editor UInt8} (h : Legible e) (hwidth : 54 ≤ width)
    (hkey : ∀ c, key = .insert c → Printable c) (hsubmit : key ≠ .submit) :
    (painted width e.line).run (echo e key) = some (painted width (e.step coded key).line) := by
  have hrecall : ∀ idx, (painted width e.line).run (repainted (e.select idx).line.whole) =
      some (painted width (e.select idx).line) := by
    intro idx
    have hselected := (h.select idx).line
    have hfit := run_repainted_line (h.line.fits hwidth) hselected.printable
      (hselected.fits hwidth)
    simpa only [Editor.select, Zipper.whole, List.append_nil] using hfit
  cases key with
  | insert c => exact insert_paints h hwidth (hkey c rfl)
  | delete => exact delete_paints h hwidth
  | right =>
    rw [echo, Editor.step]
    cases hafter : e.line.after with
    | nil =>
      have hright : e.line.right = e.line := by simp only [Zipper.right, hafter]
      rw [if_pos rfl, hright]
      exact run_bell _
    | cons c cs =>
      rw [if_neg (List.cons_ne_nil c cs)]
      refine (run_right _).trans ?_
      simp [painted, Zipper.right, Zipper.whole, hafter]
  | left =>
    rw [echo, Editor.step]
    by_cases hbefore : e.line.before = []
    · have hleft : e.line.left = e.line := by simp [Zipper.left, hbefore]
      rw [if_pos hbefore, hleft]
      exact run_bell _
    · obtain ⟨before, c, hconcat⟩ := (List.eq_nil_or_concat' _).resolve_left hbefore
      rw [if_neg hbefore]
      have hback := run_backspace (cmdlinePrompt ++ before) c (e.line.after ++
        List.replicate (width - 5 - e.line.whole.length) blank)
      have hleft : e.line.left = ⟨before, c :: e.line.after⟩ := by
        simp [Zipper.left, hconcat]
      simpa [painted, hleft, Zipper.whole, hconcat, asciiBs] using hback
  | older => exact hrecall _
  | newer => exact hrecall _
  | submit => exact absurd rfl hsubmit
  | other => rfl

theorem plain_key_printable (h : (plainKey c).2 = .insert d) : Printable d := by
  unfold plainKey at h
  split at h
  · rename_i hprint
    cases h
    exact hprint
  · split_ifs at h

theorem decode_printable (vt : VT100State) (c d : UInt8) (h : (decode vt c).2 = .insert d) :
    Printable d := by
  cases vt with
  | text => exact plain_key_printable h
  | esc =>
    rw [decode] at h
    split at h
    · cases h
    · exact plain_key_printable h
  | bracket =>
    simp only [decode, arrowKey] at h
    split_ifs at h

theorem legible_step {t : Terminal} (h : Legible t.editor) (c : UInt8) :
    Legible (t.step coded c).editor :=
  h.step (decode_printable t.vt c)

theorem legible_run (input : List UInt8) : Legible (Terminal.run coded input).editor := by
  induction input using List.reverseRecOn with
  | nil => exact .initial
  | append_singleton input c ih =>
    rw [Terminal.run_append]
    exact legible_step ih c

variable {F : Type} {s : Cmdline F} {t : Terminal}

theorem input_paints (hvt : s.inputVT100State = t.vt) (href : Refines s t.editor)
    (h : Legible t.editor) (hwidth : 54 ≤ width) (hc : c ≠ asciiCr) :
    ∃ s' out, s.cmdlineInputFunc c = some s' ∧ s'.inputVT100State = (t.step coded c).vt ∧
      Refines s' (t.step coded c).editor ∧ s'.output = s.output ++ out ∧
      (painted width t.editor.line).run out =
        some (painted width (t.step coded c).editor.line) := by
  obtain ⟨s', hs, hvt', href', heffect⟩ := input_refines hvt href c
  have hsubmit : (decode t.vt c).2 ≠ .submit := fun hkey => hc ((submit_iff _ _).mp hkey).2
  generalize hkey : (decode t.vt c).2 = key at heffect
  cases heffect with
  | edited _ hsends =>
    refine ⟨s', _, hs, hvt', href', hsends.output, ?_⟩
    rw [← hkey]
    exact echo_paints h hwidth (decode_printable t.vt c) hsubmit
  | submitted _ => exact absurd hkey hsubmit

theorem inputs_paint (hvt : s.inputVT100State = t.vt) (href : Refines s t.editor)
    (h : Legible t.editor) (hwidth : 54 ≤ width) {input : List UInt8} (hinput : asciiCr ∉ input) :
    ∃ (s' : Cmdline F) (t' : Terminal) (out : List UInt8),
      input.foldlM (fun s c => cmdlineInputFunc c s) s = some s' ∧ Refines s' t'.editor ∧
      s'.output = s.output ++ out ∧
      (painted width t.editor.line).run out = some (painted width t'.editor.line) := by
  induction input generalizing s t with
  | nil => exact ⟨s, t, [], rfl, href, (List.append_nil _).symm, rfl⟩
  | cons c input ih =>
    obtain ⟨hc, hinput⟩ := not_or.mp (mt List.mem_cons.mpr hinput)
    obtain ⟨s₁, out₁, hs₁, hvt₁, href₁, hout₁, hrun₁⟩ :=
      input_paints hvt href h hwidth (Ne.symm hc)
    obtain ⟨s', t', out, hs', href', hout, hrun⟩ := ih hvt₁ href₁ (legible_step h c) hinput
    refine ⟨s', t', out₁ ++ out, ?_, href', ?_, run_append hrun₁ hrun⟩
    · rw [List.foldlM_cons, hs₁]
      exact hs'
    · rw [hout, hout₁, List.append_assoc]

/-- The prompt on an empty line. -/
theorem clear_prompted (hwidth : 54 ≤ width) (hz : z.whole = []) :
    (clear width).run cmdlinePrompt = some (painted width z) := by
  obtain ⟨before, after⟩ := z
  obtain ⟨rfl, rfl⟩ := List.append_eq_nil_iff.mp hz
  have hcells : List.replicate width blank =
      List.replicate 5 blank ++ List.replicate (width - 5) blank := by
    rw [List.replicate_append_replicate]
    congr 1
    omega
  rw [clear, hcells]
  exact run_text prompt_printable rfl (blanks_ne_nil (by omega)) []

/-- From any state of the loop with an empty line, as it is after every prompt: on a
line of at least 54 cells with the prompt at its left margin, the operator sees the
prompt, the line as it is in the buffer and blanks, with the cursor at the place where
it is edited, after any input without a carriage return. -/
theorem screen_shows_line (commands : List (List UInt8 × F))
    (hcount : commands.length ≤ cmdlineMaxCommands) (hnames : Named commands)
    (passes : List Pass) (hwidth : 54 ≤ width) (input : List UInt8) (hinput : asciiCr ∉ input) :
    ∃ s, main commands passes = some s ∧ (s.bufferLength = 0 →
      ∃ s' out screen, input.foldlM (fun s c => cmdlineInputFunc c s) s = some s' ∧
        s'.output = s.output ++ out ∧
        (clear width).run (cmdlinePrompt ++ out) = some screen ∧
        screen.cells.whole = cmdlinePrompt ++ s'.buffer.bytes.take s'.bufferLength ++
          List.replicate (width - 5 - s'.bufferLength) blank ∧
        screen.cells.before.length = 5 + s'.bufferEditPos ∧ screen.sequence = .none) := by
  obtain ⟨s, hs, hrunning⟩ := main_running commands hcount hnames passes
  refine ⟨s, hs, ?_⟩
  intro hempty
  have hwhole : (Terminal.run coded (received passes)).editor.line.whole = [] := by
    rw [← List.length_eq_zero_iff, ← hrunning.refines.line.length, hempty]
  obtain ⟨s', t', out, hs', href, hout, hrun⟩ := inputs_paint hrunning.vt hrunning.refines
    (legible_run _) hwidth hinput
  refine ⟨s', out, _, hs', hout, run_append (clear_prompted hwidth hwhole) hrun, ?_, ?_, rfl⟩
  · rw [href.line.text, href.line.length]
    simp [painted, Zipper.whole]
  · rw [href.line.pos, painted, List.length_append]
    rfl

/-- "ab" and the left arrow, in the smallest terminal. -/
theorem moved_left_shown : ∃ s s' : Cmdline ℕ, ∃ out screen,
    main [] [] = some s ∧ s.bufferLength = 0 ∧
      [0x61, 0x62, 0x1B, 0x5B, 0x44].foldlM (fun s c => cmdlineInputFunc c s) s = some s' ∧
      s'.output = s.output ++ out ∧
      (clear 54).run (cmdlinePrompt ++ out) = some screen ∧
      screen.cells.whole = cmdlinePrompt ++ s'.buffer.bytes.take s'.bufferLength ++
        List.replicate (54 - 5 - s'.bufferLength) blank ∧
      screen.cells.before.length = 5 + s'.bufferEditPos := by
  obtain ⟨s, hs, hshown⟩ := screen_shows_line (F := ℕ) [] (by decide) (by simp [Named]) []
    (Nat.le_refl 54) [0x61, 0x62, 0x1B, 0x5B, 0x44] (by decide)
  have hempty : s.bufferLength = 0 := by
    obtain ⟨s₀, hs₀, hrunning⟩ := main_running (F := ℕ) [] (by decide) (by simp [Named]) []
    obtain rfl : s = s₀ := Option.some.inj (hs.symm.trans hs₀)
    exact hrunning.refines.line.length
  obtain ⟨s', out, screen, hs', hout, hrun, hwhole, hcursor, -⟩ := hshown hempty
  exact ⟨s, s', out, screen, hs, hempty, hs', hout, hrun, hwhole, hcursor⟩

end Vp2Motion.Proofs.Screen
