import Mathlib.Tactic.Common

namespace Vp2Motion.Fallible

variable {E S α β : Type}

/-- A program over a state that may fail. A failure leaves the state as it is then. -/
abbrev Prog (E S α : Type) := ExceptT E (StateM S) α

/-- `p` run from `s` returns in `post` or fails in `err`. -/
def Wp (p : Prog E S α) (post : α → S → Prop) (err : E → S → Prop) (s : S) : Prop :=
  match p s with
  | (.ok a, t) => post a t
  | (.error e, t) => err e t

variable {p : Prog E S α} {post : α → S → Prop} {err : E → S → Prop} {s : S}

theorem wp_pure {a : α} : Wp (pure a) post err s ↔ post a s := Iff.rfl

theorem wp_throw {e : E} : Wp (throw e : Prog E S α) post err s ↔ err e s := Iff.rfl

theorem wp_get {post : S → S → Prop} : Wp (get : Prog E S S) post err s ↔ post s s := Iff.rfl

theorem wp_modify {f : S → S} {post : Unit → S → Prop} :
    Wp (modify f : Prog E S Unit) post err s ↔ post () (f s) := Iff.rfl

theorem bind_apply (p : Prog E S α) (f : α → Prog E S β) (s : S) :
    (p >>= f) s = match p s with
      | (.ok a, t) => f a t
      | (.error e, t) => (.error e, t) := by
  simp only [bind, ExceptT.bind, ExceptT.mk, StateT.bind]
  rcases p s with ⟨e | a, t⟩
  · rfl
  · rfl

theorem wp_bind {f : α → Prog E S β} {post : β → S → Prop} :
    Wp (p >>= f) post err s ↔ Wp p (fun a => Wp (f a) post err) err s := by
  unfold Wp
  rw [bind_apply]
  rcases p s with ⟨_ | _, t⟩ <;> rfl

theorem wp_ite {q : Prog E S α} {c : Prop} [Decidable c] :
    Wp (if c then p else q) post err s ↔ if c then Wp p post err s else Wp q post err s := by
  split <;> rfl

theorem Wp.mono (h : Wp p post err s) (hpost : ∀ a t, post a t → post' a t)
    (herr : ∀ e t, err e t → err' e t) : Wp p post' err' s := by
  unfold Wp at h ⊢
  generalize p s = r at h ⊢
  rcases r with ⟨e | a, t⟩
  · exact herr e t h
  · exact hpost a t h

/-- Sequencing: the rest starts where the first part may return. -/
theorem Wp.seq {f : α → Prog E S β} {mid : α → S → Prop} {post : β → S → Prop}
    {err' : E → S → Prop} (h : Wp p mid err' s) (hf : ∀ a t, mid a t → Wp (f a) post err t)
    (herr : ∀ e t, err' e t → err e t) : Wp (p >>= f) post err s :=
  wp_bind.mpr (h.mono hf herr)

/-- `p`, or `a` if it fails. -/
def orElse (p : Prog E S α) (a : α) : Prog E S α := fun s =>
  match p s with
  | (.ok b, t) => (.ok b, t)
  | (.error _, t) => (.ok a, t)

theorem wp_orElse {a : α} :
    Wp (orElse p a) post err s ↔ Wp p post (fun _ => post a) s := by
  unfold Wp orElse
  rcases p s with ⟨_ | _, t⟩ <;> rfl

/-- `p` with another error. -/
def mapError (f : E → E) (p : Prog E S α) : Prog E S α := fun s =>
  match p s with
  | (.ok a, t) => (.ok a, t)
  | (.error e, t) => (.error (f e), t)

theorem wp_mapError {f : E → E} :
    Wp (mapError f p) post err s ↔ Wp p post (fun e => err (f e)) s := by
  unfold Wp mapError
  rcases p s with ⟨_ | _, t⟩ <;> rfl

end Vp2Motion.Fallible
