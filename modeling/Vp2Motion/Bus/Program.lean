import Mathlib.Logic.Function.Iterate
import Mathlib.Tactic.Common

namespace Vp2Motion.Bus

/-- A program that reaches a device through single bus transactions, over addresses `A`,
words `D` and marks `E`. A mark is a point of the program that takes no transaction. -/
inductive Prog (A D E α : Type) where
  | ret (result : α)
  | read (addr : A) (next : D → Prog A D E α)
  | write (addr : A) (data : D) (next : Prog A D E α)
  | mark (event : E) (next : Prog A D E α)

namespace Prog
variable {A D E α β : Type}

def bind : Prog A D E α → (α → Prog A D E β) → Prog A D E β
  | ret a, f => f a
  | read addr k, f => read addr (fun d => (k d).bind f)
  | write addr d k, f => write addr d (k.bind f)
  | mark e k, f => mark e (k.bind f)

instance : Monad (Prog A D E) where
  pure := ret
  bind := bind

end Prog

/-- What the bus sees of a device. It may take any number of idle clocks before each
transaction, and a read takes one. -/
structure Device (A D E σ : Type) where
  idle : σ → σ
  get : A → σ → D
  put : A → D → σ → σ
  mark : E → σ → σ

variable {A D E α β σ : Type}

inductive Step (dev : Device A D E σ) : Prog A D E α × σ → Prog A D E α × σ → Prop where
  | idle : Step dev (p, s) (p, dev.idle s)
  | read : Step dev (.read addr k, s) (k (dev.get addr s), dev.idle s)
  | write : Step dev (.write addr d k, s) (k, dev.put addr d s)
  | mark : Step dev (.mark e k, s) (k, dev.mark e s)

section Logic
variable (dev : Device A D E σ) (safe : σ → Prop) (due : E → σ → Prop)

/-- `p` run from `s` keeps `safe` in every state, meets the obligation of every
mark it passes and returns in `post`, however many idle clocks are inserted. -/
def Wp : Prog A D E α → (α → σ → Prop) → σ → Prop
  | .ret a, post => fun s => ∀ n, safe (dev.idle^[n] s) ∧ post a (dev.idle^[n] s)
  | .read addr k, post => fun s => ∀ n, safe (dev.idle^[n] s) ∧
      Wp (k (dev.get addr (dev.idle^[n] s))) post (dev.idle (dev.idle^[n] s))
  | .write addr d k, post => fun s => ∀ n, safe (dev.idle^[n] s) ∧
      Wp k post (dev.put addr d (dev.idle^[n] s))
  | .mark e k, post => fun s => ∀ n, safe (dev.idle^[n] s) ∧
      due e (dev.idle^[n] s) ∧ Wp k post (dev.mark e (dev.idle^[n] s))

variable {dev safe due}

theorem Wp.idle {p : Prog A D E α} {post : α → σ → Prop} {s : σ}
    (h : Wp dev safe due p post s) : Wp dev safe due p post (dev.idle s) := by
  cases p
  all_goals
    intro n
    exact h (n + 1)

theorem Wp.invariant {p : Prog A D E α} {post : α → σ → Prop} {s : σ}
    (h : Wp dev safe due p post s) : safe s := by
  cases p
  all_goals exact (h 0).1

theorem Wp.step {p q : Prog A D E α} {post : α → σ → Prop} {s t : σ}
    (h : Wp dev safe due p post s) (hs : Step dev (p, s) (q, t)) :
    Wp dev safe due q post t := by
  cases hs with
  | idle => exact h.idle
  | read => exact (h 0).2
  | write => exact (h 0).2
  | mark => exact (h 0).2.2

theorem Wp.obligation {e : E} {k : Prog A D E α} {post : α → σ → Prop} {s : σ}
    (h : Wp dev safe due (.mark e k) post s) : due e s :=
  (h 0).2.1

theorem Wp.result {a : α} {post : α → σ → Prop} {s : σ}
    (h : Wp dev safe due (.ret a) post s) : post a s :=
  (h 0).2

theorem Wp.bind {p : Prog A D E α} {f : α → Prog A D E β} {post : β → σ → Prop} {s : σ}
    (h : Wp dev safe due p (fun a => Wp dev safe due (f a) post) s) :
    Wp dev safe due (p.bind f) post s := by
  induction p generalizing s with
  | ret a => exact (h 0).2
  | read addr k ih => exact fun n => ⟨(h n).1, ih _ (h n).2⟩
  | write addr d k ih => exact fun n => ⟨(h n).1, ih (h n).2⟩
  | mark e k ih => exact fun n => ⟨(h n).1, (h n).2.1, ih (h n).2.2⟩

def Stable (dev : Device A D E σ) (P : σ → Prop) : Prop := ∀ s, P s → P (dev.idle s)

theorem Stable.iterate {P : σ → Prop} (h : Stable dev P) (hs : P s) (n : ℕ) :
    P (dev.idle^[n] s) := by
  induction n generalizing s with
  | zero => exact hs
  | succ n ih => exact ih (h s hs)

section Rules
variable {P : σ → Prop} {post : α → σ → Prop} {s : σ}

theorem wp_ret (hP : Stable dev P) (hsafe : ∀ s, P s → safe s) (hs : P s)
    (h : ∀ s, P s → post a s) : Wp dev safe due (.ret a) post s :=
  fun n => ⟨hsafe _ (hP.iterate hs n), h _ (hP.iterate hs n)⟩

theorem wp_read {k : D → Prog A D E α} (hP : Stable dev P) (hsafe : ∀ s, P s → safe s) (hs : P s)
    (h : ∀ s, P s → Wp dev safe due (k (dev.get addr s)) post (dev.idle s)) :
    Wp dev safe due (.read addr k) post s :=
  fun n => ⟨hsafe _ (hP.iterate hs n), h _ (hP.iterate hs n)⟩

theorem wp_write {k : Prog A D E α} (hP : Stable dev P) (hsafe : ∀ s, P s → safe s) (hs : P s)
    (h : ∀ s, P s → Wp dev safe due k post (dev.put addr d s)) :
    Wp dev safe due (.write addr d k) post s :=
  fun n => ⟨hsafe _ (hP.iterate hs n), h _ (hP.iterate hs n)⟩

theorem wp_mark {k : Prog A D E α} (hP : Stable dev P) (hsafe : ∀ s, P s → safe s) (hs : P s)
    (hdue : ∀ s, P s → due e s) (h : ∀ s, P s → Wp dev safe due k post (dev.mark e s)) :
    Wp dev safe due (.mark e k) post s :=
  fun n => ⟨hsafe _ (hP.iterate hs n), hdue _ (hP.iterate hs n), h _ (hP.iterate hs n)⟩

end Rules

theorem Wp.mono {p : Prog A D E α} {post post' : α → σ → Prop} {s : σ}
    (h : Wp dev safe due p post s) (hpost : ∀ a s, post a s → post' a s) :
    Wp dev safe due p post' s := by
  induction p generalizing s with
  | ret a => exact fun n => ⟨(h n).1, hpost _ _ (h n).2⟩
  | read addr k ih => exact fun n => ⟨(h n).1, ih _ (h n).2⟩
  | write addr d k ih => exact fun n => ⟨(h n).1, ih (h n).2⟩
  | mark e k ih => exact fun n => ⟨(h n).1, (h n).2.1, ih (h n).2.2⟩

/-- Sequencing: the rest of the program starts where the first part may end. -/
theorem Wp.seq {p : Prog A D E α} {f : α → Prog A D E β} {mid : α → σ → Prop}
    {post : β → σ → Prop} {s : σ} (h : Wp dev safe due p mid s)
    (hf : ∀ a s, mid a s → Wp dev safe due (f a) post s) : Wp dev safe due (p >>= f) post s :=
  (h.mono hf).bind

end Logic

/-- Every mark on every path of the program meets `due` and every result meets
`post`. -/
def Marks (due : E → Prop) (post : α → Prop) : Prog A D E α → Prop
  | .ret a => post a
  | .read _ k => ∀ d, Marks due post (k d)
  | .write _ _ k => Marks due post k
  | .mark e k => due e ∧ Marks due post k

theorem Marks.seq {due : E → Prop} {mid : α → Prop} {post : β → Prop} {p : Prog A D E α}
    {f : α → Prog A D E β} (h : Marks due mid p) (hf : ∀ a, mid a → Marks due post (f a)) :
    Marks due post (p >>= f) := by
  change Marks due post (p.bind f)
  induction p with
  | ret a => exact hf a h
  | read addr k ih => exact fun d => ih d (h d)
  | write addr d k ih => exact ih h
  | mark e k ih => exact ⟨h.1, ih h.2⟩

theorem Marks.step {due : E → Prop} {post : α → Prop} {dev : Device A D E σ}
    {p q : Prog A D E α} {s t : σ} (h : Marks due post p) (hs : Step dev (p, s) (q, t)) :
    Marks due post q := by
  cases hs with
  | idle => exact h
  | read => exact h _
  | write => exact h
  | mark => exact h.2

end Vp2Motion.Bus
