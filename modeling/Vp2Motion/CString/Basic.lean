import Mathlib.Data.List.Basic

namespace Vp2Motion.CString

/-- A byte array of fixed size. Every access is checked; `none` is one outside it. -/
structure Buf (n : ℕ) where
  bytes : List UInt8
  size : bytes.length = n

def text (bytes : List UInt8) : List UInt8 := bytes.takeWhile (· ≠ 0)

def strlen : List UInt8 → Option ℕ
  | [] => none
  | c :: cs => if c = 0 then some 0 else (strlen cs).map (· + 1)

/-- Do the first `n` bytes agree, up to a common terminating zero? This is the
test `!strncmp(a, b, n)`. -/
def strncmpZero : ℕ → List UInt8 → List UInt8 → Option Bool
  | 0, _, _ => some true
  | n + 1, a :: as, b :: bs =>
    if a = b then if a = 0 then some true else strncmpZero n as bs else some false
  | _ + 1, _, _ => none

theorem text_cons (hc : c ≠ 0) (cs : List UInt8) : text (c :: cs) = c :: text cs := by
  simp [text, hc]

theorem strlen_eq (h : 0 ∈ bytes) : strlen bytes = some (text bytes).length := by
  induction bytes with
  | nil => simp at h
  | cons c cs ih =>
    by_cases hc : c = 0
    · simp [strlen, text, hc]
    · simp [strlen, text_cons, hc, ih (List.mem_of_ne_of_mem (Ne.symm hc) h)]

theorem text_append (h : 0 ∉ front) : text (front ++ 0 :: rest) = front := by
  induction front with
  | nil => simp [text]
  | cons c cs ih =>
    simp only [List.mem_cons, not_or] at h
    have hc : c ≠ 0 := fun he => h.1 he.symm
    simpa [text, hc] using ih h.2

theorem text_not_mem (bytes : List UInt8) : 0 ∉ text bytes := by
  induction bytes with
  | nil => simp [text]
  | cons c cs ih =>
    by_cases hc : c = 0
    · simp [text, hc]
    · rw [text_cons hc, List.mem_cons, not_or]
      exact ⟨fun he => hc he.symm, ih⟩

/-- A terminated array is its text, a zero and some leftover. -/
theorem exists_of_mem (h : 0 ∈ bytes) : ∃ rest, bytes = text bytes ++ 0 :: rest := by
  induction bytes with
  | nil => simp at h
  | cons c cs ih =>
    by_cases hc : c = 0
    · exact ⟨cs, by simp [text, hc]⟩
    · obtain ⟨rest, hrest⟩ := ih (List.mem_of_ne_of_mem (Ne.symm hc) h)
      refine ⟨rest, ?_⟩
      rw [text_cons hc, List.cons_append, ← hrest]

theorem text_length_lt (h : 0 ∈ bytes) : (text bytes).length < bytes.length := by
  obtain ⟨rest, hrest⟩ := exists_of_mem h
  have := congrArg List.length hrest
  simp at this
  omega

theorem take_text (h : 0 ∈ bytes) :
    bytes.take ((text bytes).length + 1) = text bytes ++ [0] := by
  obtain ⟨rest, hrest⟩ := exists_of_mem h
  have htake : (text bytes ++ 0 :: rest).take ((text bytes).length + 1) = text bytes ++ [0] := by
    rw [List.take_append, List.take_of_length_le (Nat.le_succ _), Nat.add_sub_cancel_left]
    rfl
  rwa [← hrest] at htake

namespace Buf
variable {m n : ℕ}

def zero (n : ℕ) : Buf n := ⟨List.replicate n 0, List.length_replicate⟩

def get (a : Buf n) (i : ℕ) : Option UInt8 := a.bytes[i]?

def set (a : Buf n) (i : ℕ) (c : UInt8) : Option (Buf n) :=
  if i < n then some ⟨a.bytes.set i c, by rw [List.length_set, a.size]⟩ else none

/-- `strcpy`: the bytes of `src` up to its terminating zero replace the first
ones of `dst`. -/
def strcpy (dst : Buf m) (src : Buf n) : Option (Buf m) := do
  let k ← strlen src.bytes
  if h : k < m ∧ k < n then
    some ⟨src.bytes.take (k + 1) ++ dst.bytes.drop (k + 1), by
      have := src.size
      have := dst.size
      simp
      omega⟩
  else none

theorem strcpy_eq (dst : Buf m) (src : Buf n) (h : 0 ∈ src.bytes)
    (hfit : (text src.bytes).length < m) :
    ∃ a, dst.strcpy src = some a ∧ text a.bytes = text src.bytes ∧ 0 ∈ a.bytes := by
  have hlt := text_length_lt h
  rw [src.size] at hlt
  have htake := take_text h
  unfold strcpy
  rw [strlen_eq h]
  simp only [Option.bind_eq_bind, Option.bind_some]
  rw [dif_pos ⟨hfit, hlt⟩]
  refine ⟨_, rfl, ?_, ?_⟩
  · simp only [htake, List.append_assoc, List.singleton_append]
    exact text_append (text_not_mem _)
  · simp [htake]

/-- Between arrays of one size every C string fits. -/
theorem strcpy_row (dst src : Buf n) (h : 0 ∈ src.bytes) :
    ∃ a, dst.strcpy src = some a ∧ text a.bytes = text src.bytes ∧ 0 ∈ a.bytes := by
  have hlt := text_length_lt h
  rw [src.size] at hlt
  exact dst.strcpy_eq src h hlt

theorem set_eq (a : Buf n) (h : i < n) (c : UInt8) :
    ∃ b, a.set i c = some b ∧ b.bytes = a.bytes.set i c :=
  ⟨_, if_pos h, rfl⟩

theorem get_eq (a : Buf n) (h : i < n) : ∃ c, a.get i = some c ∧ a.bytes[i]? = some c := by
  have hi : i < a.bytes.length := by rw [a.size]; exact h
  exact ⟨a.bytes.get ⟨i, hi⟩, List.getElem?_eq_getElem hi, List.getElem?_eq_getElem hi⟩

end Buf

end Vp2Motion.CString
