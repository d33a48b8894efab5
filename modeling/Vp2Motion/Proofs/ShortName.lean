import Vp2Motion.Firmware.Fatfs.Directory

namespace Vp2Motion.Proofs.ShortName
open Firmware Firmware.Fatfs

/-- A character that ends a segment. -/
def ends (c : Byte) : Bool := c ≤ 0x20 ∨ isSeparator c

/-- The first segment of a path, and what is behind it. -/
def segment (path : List Byte) : List Byte :=
  (path.dropWhile fun c => isSeparator c).takeWhile fun c => !ends c

def behind (path : List Byte) : List Byte :=
  (path.dropWhile fun c => isSeparator c).dropWhile fun c => !ends c

/-- Upper case beyond ASCII. -/
def convert (c : Byte) : Byte := if 0x80 ≤ c then excvt.getD (c.toNat - 0x80) 0 else c

def upper (c : Byte) : Byte := if isLower (convert c) then convert c - 0x20 else convert c

def Legal (c : Byte) : Prop := c ≠ dot ∧ convert c ∉ illegal

instance (c : Byte) : Decidable (Legal c) := inferInstanceAs (Decidable (_ ∧ _))

/-- A part of a name, filled up with blanks. -/
def field (n : ℕ) (part : List Byte) : List Byte :=
  part.map upper ++ List.replicate (n - part.length) 0x20

/-- Letters, and all of them small. -/
def LowerOnly (part : List Byte) : Prop :=
  (∃ c ∈ part, isLower c) ∧ ∀ c ∈ part, c < 0x80 ∧ ¬isUpper c

instance (part : List Byte) : Decidable (LowerOnly part) := inferInstanceAs (Decidable (_ ∧ _))

def caseFlag (flag : Byte) (part : List Byte) : Byte := if LowerOnly part then flag else 0

/-- A segment, its name in a directory entry and its case flags. -/
inductive Spells : List Byte → List Byte → Byte → Prop where
  | plain (hne : body ≠ []) (hbody : body.length ≤ 8) (hlegal : ∀ c ∈ body, Legal c) :
    Spells body (field 8 body ++ field 3 []) (caseFlag nsBody body)
  | dotted (hbody : body.length ≤ 8) (hext : ext.length ≤ 3)
    (hlegal : ∀ c ∈ body ++ ext, Legal c) :
    Spells (body ++ dot :: ext) (field 8 body ++ field 3 ext)
      (caseFlag nsExt ext ||| caseFlag nsBody body)

/-- The characters of a segment one after another. -/
def nameSteps : List Byte → NameState → Except FResult NameState
  | [], n => .ok n
  | c :: seg, n =>
    match nameStep c n with
    | .error res => .error res
    | .ok n => nameSteps seg n

theorem name_loop_eq (path : List Byte) (n : NameState) :
    nameLoop path n = match nameSteps (path.takeWhile fun c => !ends c) n with
      | .error res => .error res
      | .ok n => .ok (n, (path.dropWhile fun c => !ends c).headD 0,
          (path.dropWhile fun c => !ends c).tail) := by
  induction path generalizing n with
  | nil => rfl
  | cons c path ih =>
    by_cases hc : c ≤ 0x20 ∨ isSeparator c
    · have hends : ends c = true := decide_eq_true hc
      rw [nameLoop, if_pos hc]
      simp [hends, nameSteps]
    · have hends : ends c = false := decide_eq_false hc
      rw [nameLoop, if_neg hc]
      simp only [List.takeWhile_cons, List.dropWhile_cons, hends, Bool.not_false, ↓reduceIte,
        nameSteps]
      cases nameStep c n with
      | error res => rfl
      | ok n => exact ih n

/-- What a character adds to `b`. -/
def caseBits (c : Byte) : Byte :=
  (if 0x80 ≤ c then 3 else 0) |||
    (if isUpper (convert c) then 2 else if isLower (convert c) then 1 else 0)

def allBits (part : List Byte) : Byte := part.foldl (fun b c => b ||| caseBits c) 0

/-- The variables within the body and within the extension. -/
def inBody (body : List Byte) : NameState :=
  ⟨field 8 body ++ field 3 [], body.length, 8, allBits body⟩

def inExt (body ext : List Byte) : NameState :=
  ⟨field 8 body ++ field 3 ext, 8 + ext.length, 11, allBits body <<< 2 ||| allBits ext⟩

theorem field_length (h : part.length ≤ n) : (field n part).length = n := by
  rw [field, List.length_append, List.length_map, List.length_replicate]
  omega

theorem field_set (h : part.length < n) (c : Byte) :
    (field n part).set part.length (upper c) = field n (part ++ [c]) := by
  rw [field, field, List.set_append_right _ _ (by simp), List.length_map, Nat.sub_self,
    show n - part.length = n - (part ++ [c]).length + 1 by simp; omega, List.replicate_succ,
    List.set_cons_zero]
  simp

theorem all_bits_append (part : List Byte) (c : Byte) :
    allBits (part ++ [c]) = allBits part ||| caseBits c := by
  rw [allBits, List.foldl_append]
  rfl

/-- A legal character where there is room. -/
theorem name_step_legal {n : NameState} (hc : Legal c) (hroom : n.i < n.ni) :
    nameStep c n = .ok { n with
      sfn := n.sfn.set n.i (upper c), i := n.i + 1, b := n.b ||| caseBits c } := by
  have hroom' : ¬(c = dot ∨ n.ni ≤ n.i) := by
    rw [not_or]
    exact ⟨hc.1, by omega⟩
  have hlegal : (if 0x80 ≤ c then excvt.getD (c.toNat - 0x80) 0 else c) ∉ illegal := hc.2
  have hb : (if 0x80 ≤ c then n.b ||| 3 else n.b) = n.b ||| if 0x80 ≤ c then 3 else 0 := by
    split
    · rfl
    · exact (BitVec.or_zero).symm
  rw [nameStep, if_neg hroom']
  dsimp only
  rw [if_neg hlegal, hb]
  change (if isUpper (convert c) then _ else if isLower (convert c) then _ else _ : Except _ _) = _
  rw [upper, caseBits, ← BitVec.or_assoc]
  have hapart : isUpper (convert c) → ¬isLower (convert c) := by
    generalize convert c = d
    revert d
    decide
  by_cases hupper : isUpper (convert c)
  · rw [if_pos hupper, if_pos hupper, if_neg (hapart hupper)]
    rfl
  · rw [if_neg hupper, if_neg hupper]
    by_cases hlower : isLower (convert c)
    · rw [if_pos hlower, if_pos hlower, if_pos hlower]
      rfl
    · rw [if_neg hlower, if_neg hlower, if_neg hlower,
        show n.b ||| _ ||| 0 = n.b ||| _ from BitVec.or_zero]
      rfl

/-- Any other but a first dot is refused. -/
theorem name_step_refused {n : NameState} (hc : ¬(Legal c ∧ n.i < n.ni))
    (hdot : ¬(c = dot ∧ n.ni = 8)) : nameStep c n = .error .invalidName := by
  rw [nameStep]
  by_cases hroom : c = dot ∨ n.ni ≤ n.i
  · rw [if_pos hroom, if_pos]
    by_contra hboth
    rw [not_or, not_ne_iff, not_ne_iff] at hboth
    exact hdot ⟨hboth.2, hboth.1⟩
  · rw [if_neg hroom]
    rw [not_or] at hroom
    have hillegal : convert c ∈ illegal := by
      by_contra hlegal
      exact hc ⟨⟨hroom.1, hlegal⟩, by omega⟩
    exact if_pos hillegal

theorem body_step (hc : Legal c) (hroom : body.length < 8) :
    nameStep c (inBody body) = .ok (inBody (body ++ [c])) := by
  rw [name_step_legal hc hroom]
  simp only [inBody]
  rw [List.set_append_left _ _ (by rw [field_length (by omega)]; exact hroom), field_set hroom,
    all_bits_append, List.length_append, List.length_singleton]

theorem body_dot (body : List Byte) : nameStep dot (inBody body) = .ok (inExt body []) := by
  rw [nameStep, if_pos (.inl rfl), if_neg (by simp [inBody])]
  simp [inBody, inExt, allBits]

theorem ext_step (hc : Legal c) (hbody : body.length ≤ 8) (hroom : ext.length < 3) :
    nameStep c (inExt body ext) = .ok (inExt body (ext ++ [c])) := by
  rw [name_step_legal hc (show 8 + ext.length < 11 by omega)]
  simp only [inExt]
  rw [List.set_append_right _ _ (by rw [field_length hbody]; omega), field_length hbody,
    Nat.add_sub_cancel_left, field_set hroom, all_bits_append, List.length_append,
    List.length_singleton, BitVec.or_assoc, Nat.add_assoc]

/-- The rest of an extension. -/
theorem ext_steps (hbody : body.length ≤ 8) (hext : ext.length ≤ 3) (seg : List Byte)
    (n : NameState) : nameSteps seg (inExt body ext) = .ok n ↔
      (∀ c ∈ seg, Legal c) ∧ ext.length + seg.length ≤ 3 ∧ n = inExt body (ext ++ seg) := by
  induction seg generalizing ext with
  | nil =>
    rw [nameSteps, Except.ok.injEq, List.append_nil]
    exact ⟨fun heq => ⟨nofun, hext, heq.symm⟩, fun h => h.2.2.symm⟩
  | cons c seg ih =>
    rw [nameSteps, List.forall_mem_cons, List.length_cons]
    by_cases hc : Legal c ∧ ext.length < 3
    · have hih := ih (show (ext ++ [c]).length ≤ 3 by simp; omega)
      rw [List.append_assoc, List.length_append, List.length_singleton] at hih
      rw [ext_step hc.1 hbody hc.2]
      refine hih.trans ⟨?_, ?_⟩
      · rintro ⟨hlegal, hlen, heq⟩
        exact ⟨⟨hc.1, hlegal⟩, by omega, heq⟩
      · rintro ⟨⟨-, hlegal⟩, hlen, heq⟩
        exact ⟨hlegal, by omega, heq⟩
    · have hfull : ¬(Legal c ∧ (inExt body ext).i < (inExt body ext).ni) := by
        rintro ⟨hlegal, hroom⟩
        change 8 + ext.length < 11 at hroom
        exact hc ⟨hlegal, by omega⟩
      rw [name_step_refused hfull (by simp [inExt])]
      refine ⟨nofun, ?_⟩
      rintro ⟨⟨hlegal, -⟩, hlen, -⟩
      exact absurd ⟨hlegal, by omega⟩ hc

/-- The rest of a body, and an extension behind a dot. -/
theorem body_steps (hbody : body.length ≤ 8) (seg : List Byte) (n : NameState) :
    nameSteps seg (inBody body) = .ok n ↔
      ((∀ c ∈ seg, Legal c) ∧ body.length + seg.length ≤ 8 ∧ n = inBody (body ++ seg)) ∨
      ∃ front ext, seg = front ++ dot :: ext ∧ (∀ c ∈ front ++ ext, Legal c) ∧
        body.length + front.length ≤ 8 ∧ ext.length ≤ 3 ∧ n = inExt (body ++ front) ext := by
  induction seg generalizing body with
  | nil =>
    rw [nameSteps, Except.ok.injEq, List.append_nil]
    constructor
    · intro heq
      exact .inl ⟨nofun, hbody, heq.symm⟩
    · rintro (⟨-, -, heq⟩ | ⟨front, ext, hnil, -⟩)
      · exact heq.symm
      · simp at hnil
  | cons c seg ih =>
    rw [nameSteps, List.forall_mem_cons, List.length_cons]
    by_cases hdot : c = dot
    · subst hdot
      rw [body_dot]
      refine (ext_steps hbody (show ([] : List Byte).length ≤ 3 by decide) seg n).trans ⟨?_, ?_⟩
      · rintro ⟨hlegal, hlen, heq⟩
        refine .inr ⟨[], seg, rfl, hlegal, hbody, by simpa using hlen, ?_⟩
        rw [heq, List.append_nil, List.nil_append]
      · rintro (⟨⟨hlegal, -⟩, -⟩ | ⟨front, ext, hseg, hlegal, -, hext, heq⟩)
        · exact absurd rfl hlegal.1
        · cases front with
          | nil =>
            obtain rfl := (List.cons.inj hseg).2
            rw [List.append_nil] at heq
            exact ⟨hlegal, by simpa using hext, heq⟩
          | cons d front =>
            obtain rfl := (List.cons.inj hseg).1
            exact absurd rfl (hlegal dot (List.mem_cons_self ..)).1
    · by_cases hc : Legal c ∧ body.length < 8
      · have hih := ih (show (body ++ [c]).length ≤ 8 by simp; omega)
        simp only [List.append_assoc, List.length_append, List.length_singleton] at hih
        rw [body_step hc.1 hc.2]
        refine hih.trans (or_congr ⟨?_, ?_⟩ ⟨?_, ?_⟩)
        · rintro ⟨hlegal, hlen, heq⟩
          exact ⟨⟨hc.1, hlegal⟩, by omega, heq⟩
        · rintro ⟨⟨-, hlegal⟩, hlen, heq⟩
          exact ⟨hlegal, by omega, heq⟩
        · rintro ⟨front, ext, rfl, hlegal, hlen, hext, heq⟩
          refine ⟨c :: front, ext, rfl, ?_, by rw [List.length_cons]; omega, hext, heq⟩
          exact List.forall_mem_cons.mpr ⟨hc.1, hlegal⟩
        · rintro ⟨front, ext, hseg, hlegal, hlen, hext, heq⟩
          cases front with
          | nil => exact absurd (List.cons.inj hseg).1 hdot
          | cons d front =>
            obtain ⟨rfl, rfl⟩ := List.cons.inj hseg
            rw [List.length_cons] at hlen
            exact ⟨front, ext, rfl, (List.forall_mem_cons.mp hlegal).2, by omega, hext, heq⟩
      · rw [name_step_refused hc fun hboth => hdot hboth.1]
        refine ⟨nofun, ?_⟩
        rintro (⟨⟨hlegal, -⟩, hlen, -⟩ | ⟨front, ext, hseg, hlegal, hlen, -⟩)
        · exact absurd ⟨hlegal, by omega⟩ hc
        · cases front with
          | nil => exact absurd (List.cons.inj hseg).1 hdot
          | cons d front =>
            obtain ⟨rfl, rfl⟩ := List.cons.inj hseg
            rw [List.length_cons] at hlen
            exact absurd ⟨(List.forall_mem_cons.mp hlegal).1, by omega⟩ hc

theorem case_bits_spec (c : Byte) : caseBits c ≤ 3 ∧
    ((caseBits c).getLsbD 0 ↔ 0x80 ≤ c ∨ isLower c) ∧
    ((caseBits c).getLsbD 1 ↔ 0x80 ≤ c ∨ isUpper c) := by
  revert c
  decide +kernel

theorem all_bits_le (part : List Byte) : allBits part ≤ 3 := by
  induction part using List.reverseRecOn with
  | nil => decide
  | append_singleton part c ih =>
    rw [all_bits_append]
    have hor : ∀ a ≤ (3 : Byte), ∀ b ≤ (3 : Byte), a ||| b ≤ 3 := by decide +kernel
    exact hor _ ih _ (case_bits_spec c).1

theorem all_bits_bit (part : List Byte) (i : ℕ) :
    (allBits part).getLsbD i ↔ ∃ c ∈ part, (caseBits c).getLsbD i := by
  induction part using List.reverseRecOn with
  | nil => simp [allBits]
  | append_singleton part c ih =>
    rw [all_bits_append, BitVec.getLsbD_or, Bool.or_eq_true, ih]
    simp [or_and_right, exists_or]

theorem all_bits_lower (part : List Byte) : allBits part = 1 ↔ LowerOnly part := by
  have hbits : ∀ a ≤ (3 : Byte), a = 1 ↔ a.getLsbD 0 ∧ ¬a.getLsbD 1 := by decide +kernel
  have hsmall : (¬∃ c ∈ part, (caseBits c).getLsbD 1) ↔
      ∀ c ∈ part, c < 0x80 ∧ ¬isUpper c := by
    rw [not_exists]
    refine forall_congr' fun c => ?_
    rw [not_and, (case_bits_spec c).2.2, not_or, BitVec.not_le]
  rw [hbits _ (all_bits_le part), all_bits_bit, all_bits_bit, hsmall, LowerOnly]
  refine and_congr_left fun hall => exists_congr fun c => and_congr_right fun hc => ?_
  rw [(case_bits_spec c).2.1]
  exact or_iff_right (BitVec.not_le.mpr (hall c hc).1)

/-- The bits of the body are above those of the extension. -/
theorem flag_bits {a e : Byte} (ha : a ≤ 3) (he : e ≤ 3) :
    ((a <<< 2 ||| e) &&& 0x03 = 0x01 ↔ e = 1) ∧ ((a <<< 2 ||| e) &&& 0x0C = 0x04 ↔ a = 1) := by
  have hall : ∀ a ≤ (3 : Byte), ∀ e ≤ (3 : Byte),
      ((a <<< 2 ||| e) &&& 0x03 = 0x01 ↔ e = 1) ∧ ((a <<< 2 ||| e) &&& 0x0C = 0x04 ↔ a = 1) := by
    decide +kernel
  exact hall a ha e he

/-- No name looks like a deleted entry. -/
theorem not_deleted (body rest : List Byte) : (field 8 body ++ rest).head? ≠ some dde := by
  have hupper : ∀ c : Byte, upper c ≠ dde := by decide +kernel
  cases body with
  | nil =>
    change some (0x20 : Byte) ≠ some dde
    decide
  | cons c body =>
    rw [field, List.map_cons, List.cons_append, List.cons_append, List.head?_cons,
      Ne, Option.some.injEq]
    exact hupper c

theorem name_step_error (h : nameStep c n = .error res) : res = .invalidName := by
  by_cases hlegal : Legal c ∧ n.i < n.ni
  · rw [name_step_legal hlegal.1 hlegal.2] at h
    cases h
  · by_cases hdot : c = dot ∧ n.ni = 8
    · rw [nameStep, if_pos (.inl hdot.1), if_neg (by simp [hdot])] at h
      cases h
    · rw [name_step_refused hlegal hdot] at h
      exact (Except.error.inj h).symm

theorem name_steps_error (h : nameSteps seg n = .error res) : res = .invalidName := by
  induction seg generalizing n with
  | nil => cases h
  | cons c seg ih =>
    rw [nameSteps] at h
    split at h
    · rename_i hstep
      cases h
      exact name_step_error hstep
    · exact ih h

/-- What is made of the variables after the loop. -/
theorem create_name_eq (path : List Byte) : createName path =
    match nameSteps (segment path) (inBody []) with
    | .error res => .error res
    | .ok n =>
      if n.i = 0 then .error .invalidName
      else
        let b := if n.ni = 8 then n.b <<< 2 else n.b
        .ok {
          fn := if n.sfn.head? = some dde then n.sfn.set 0 ndde else n.sfn
          ns := (if (behind path).headD 0 ≤ 0x20 then nsLast else 0) |||
            (if b &&& 0x03 = 0x01 then nsExt else 0) ||| (if b &&& 0x0C = 0x04 then nsBody else 0)
          rest := (behind path).tail } := by
  have hinit : (⟨List.replicate 11 0x20, 0, 8, 0⟩ : NameState) = inBody [] := by decide
  have hsegment : ((path.dropWhile fun c => isSeparator c).takeWhile fun c => !ends c) =
    segment path := rfl
  rw [createName, hinit, name_loop_eq, hsegment]
  cases nameSteps (segment path) (inBody []) with
  | error res => rfl
  | ok n => rfl

/-- The flags that stand for the two parts. -/
theorem flags_eq (last : Byte) (body ext : List Byte) :
    last ||| (if (allBits body <<< 2 ||| allBits ext) &&& 0x03 = 0x01 then nsExt else 0) |||
        (if (allBits body <<< 2 ||| allBits ext) &&& 0x0C = 0x04 then nsBody else 0) =
      last ||| (caseFlag nsExt ext ||| caseFlag nsBody body) := by
  obtain ⟨hext, hbody⟩ := flag_bits (all_bits_le body) (all_bits_le ext)
  rw [BitVec.or_assoc, caseFlag, caseFlag]
  simp only [hext, hbody, all_bits_lower]

/-- A name without an extension. -/
theorem create_plain (hne : segment path ≠ [])
    (h : nameSteps (segment path) (inBody []) = .ok (inBody (segment path))) :
    createName path = .ok ⟨field 8 (segment path) ++ field 3 [],
      (if (behind path).headD 0 ≤ 0x20 then nsLast else 0) ||| caseFlag nsBody (segment path),
      (behind path).tail⟩ := by
  have hflags := flags_eq (if (behind path).headD 0 ≤ 0x20 then nsLast else 0) (segment path) []
  have hnone : caseFlag nsExt [] = 0 := by decide
  have hbits : allBits (segment path) <<< 2 ||| allBits [] = allBits (segment path) <<< 2 :=
    BitVec.or_zero
  rw [hnone, hbits, show 0 ||| caseFlag nsBody (segment path) = _ from BitVec.zero_or] at hflags
  have hlen : (inBody (segment path)).i ≠ 0 := fun h0 => hne (List.eq_nil_of_length_eq_zero h0)
  have hfn : (inBody (segment path)).sfn.head? ≠ some dde := not_deleted (segment path) (field 3 [])
  rw [create_name_eq, h]
  dsimp only
  rw [if_neg hlen, if_neg hfn, if_pos (show (inBody (segment path)).ni = 8 from rfl)]
  exact congrArg (fun ns => Except.ok (Name.mk _ ns _)) hflags

/-- A name with a dot. -/
theorem create_dotted (h : nameSteps (segment path) (inBody []) = .ok (inExt body ext)) :
    createName path = .ok ⟨field 8 body ++ field 3 ext,
      (if (behind path).headD 0 ≤ 0x20 then nsLast else 0) |||
        (caseFlag nsExt ext ||| caseFlag nsBody body), (behind path).tail⟩ := by
  have hflags := flags_eq (if (behind path).headD 0 ≤ 0x20 then nsLast else 0) body ext
  have hlen : (inExt body ext).i ≠ 0 := show 8 + ext.length ≠ 0 by omega
  have hfn : (inExt body ext).sfn.head? ≠ some dde := not_deleted body (field 3 ext)
  have hni : (inExt body ext).ni ≠ 8 := show 11 ≠ 8 by decide
  rw [create_name_eq, h]
  dsimp only
  rw [if_neg hlen, if_neg hfn, if_neg hni]
  exact congrArg (fun ns => Except.ok (Name.mk _ ns _)) hflags

/-- `create_name` takes exactly the names of the form 8.3: it gives the name as a directory
entry has it, in capital letters, whether it is the last of the path, and the rest. -/
theorem takes_short_names (path : List Byte) :
    (∀ name, createName path = .ok name ↔ ∃ flags, Spells (segment path) name.fn flags ∧
      name.ns = (if (behind path).headD 0 ≤ 0x20 then nsLast else 0) ||| flags ∧
      name.rest = (behind path).tail) ∧
    ∀ res, createName path = .error res → res = .invalidName := by
  have hempty : ([] : List Byte).length ≤ 8 := by decide
  refine ⟨fun name => ⟨?_, ?_⟩, ?_⟩
  · intro hname
    cases hsteps : nameSteps (segment path) (inBody []) with
    | error res =>
      rw [create_name_eq, hsteps] at hname
      cases hname
    | ok n =>
      rcases (body_steps hempty _ n).mp hsteps with ⟨hlegal, hlen, rfl⟩ |
        ⟨body, ext, hseg, hlegal, hlen, hext, rfl⟩
      · by_cases hne : segment path = []
        · rw [create_name_eq, hsteps, hne] at hname
          cases hname
        · rw [create_plain hne hsteps] at hname
          cases hname
          exact ⟨_, .plain hne (by simpa using hlen) hlegal, rfl, rfl⟩
      · rw [create_dotted hsteps] at hname
        cases hname
        refine ⟨_, ?_, rfl, rfl⟩
        rw [hseg]
        exact .dotted (by simpa using hlen) hext hlegal
  · rintro ⟨flags, hspells, hns, hrest⟩
    obtain ⟨fn, ns, rest⟩ := name
    dsimp only at hspells hns hrest
    subst hns hrest
    generalize hseg : segment path = seg at hspells
    cases hspells with
    | plain hne hbody hlegal =>
      subst hseg
      refine create_plain hne ((body_steps hempty _ _).mpr (.inl ⟨hlegal, ?_, rfl⟩))
      simpa using hbody
    | dotted hbody hext hlegal =>
      refine create_dotted ((body_steps hempty _ _).mpr (.inr ⟨_, _, hseg, hlegal, ?_, hext, rfl⟩))
      simpa using hbody
  · intro res herror
    rw [create_name_eq] at herror
    cases hsteps : nameSteps (segment path) (inBody []) with
    | error res' =>
      rw [hsteps] at herror
      cases herror
      exact name_steps_error hsteps
    | ok n =>
      rw [hsteps] at herror
      dsimp only at herror
      split at herror
      · exact (Except.error.inj herror).symm
      · cases herror

end Vp2Motion.Proofs.ShortName
