import K210Os.DirectoryWrites

/-!
# File objects

A file object keeps one offset for all the descriptors that share it, in whatever process
they are. Abstractly a volume maps each entry to its bytes, and the calls read, overwrite
and extend them where the file objects stand. What a reader gets of a file that one writer
extends is what stands in the file behind the place where the reader began, whatever the
calls between are.
-/

namespace K210Os

open Transition

/-- The bytes of each entry, what its attributes say, and the open files of all processes. -/
structure OpenContents (φ : Type*) where
  content : ℕ → List Byte
  directory : ℕ → Bool
  readOnly : ℕ → Bool
  file : φ → Option OpenEntry

inductive FileObjectCall (φ : Type*)
  | fileread (f : φ) (n : BitVec 32)
  | filewrite (f : φ) (bytes : List Byte)
  | fileopen (f : φ) (ep omode : ℕ)
  | fileclose (f : φ)

/-- What a call returns; with the bytes that a read copied out. -/
inductive FileObjectResult
  | read (r : ℤ) (bytes : List Byte)
  | wrote (r : ℤ)
  | opened
  | closed
  deriving DecidableEq

namespace OpenContents

variable {φ : Type*} [DecidableEq φ]

def setFile (σ : OpenContents φ) (f : φ) (o : Option OpenEntry) : OpenContents φ :=
  { σ with file := Function.update σ.file f o }

def setContent (σ : OpenContents φ) (ep : ℕ) (bytes : List Byte) : OpenContents φ :=
  { σ with content := Function.update σ.content ep bytes }

omit [DecidableEq φ] in
@[simp] theorem setContent_file (σ : OpenContents φ) (ep : ℕ) (bytes : List Byte) :
    (σ.setContent ep bytes).file = σ.file := rfl

@[simp] theorem setFile_content (σ : OpenContents φ) (f : φ) (o : Option OpenEntry) :
    (σ.setFile f o).content = σ.content := rfl

@[simp] theorem setFile_self (σ : OpenContents φ) (f : φ) (o : Option OpenEntry) :
    (σ.setFile f o).file f = o := Function.update_self _ _ _

theorem setFile_of_ne (σ : OpenContents φ) {f f' : φ} (o : Option OpenEntry) (h : f' ≠ f) :
    (σ.setFile f o).file f' = σ.file f' := Function.update_of_ne h _ _

omit [DecidableEq φ] in
@[simp] theorem setContent_self (σ : OpenContents φ) (ep : ℕ) (bytes : List Byte) :
    (σ.setContent ep bytes).content ep = bytes := Function.update_self _ _ _

omit [DecidableEq φ] in
theorem setContent_of_ne (σ : OpenContents φ) {ep i : ℕ} (bytes : List Byte) (h : i ≠ ep) :
    (σ.setContent ep bytes).content i = σ.content i := Function.update_of_ne h _ _

/-- The file reaches to the offset, and `n` bytes from there on keep below 4 GiB. -/
def Reaches (σ : OpenContents φ) (o : OpenEntry) (n : ℕ) : Prop :=
  o.off ≤ (σ.content o.ep).length ∧ o.off + n < 2 ^ 32

instance decidableReaches (σ : OpenContents φ) (o : OpenEntry) (n : ℕ) :
    Decidable (σ.Reaches o n) :=
  inferInstanceAs (Decidable (_ ∧ _))

/-- The bytes that a read of `n` bytes copies out. -/
def slice (σ : OpenContents φ) (o : OpenEntry) (n : ℕ) : List Byte :=
  if σ.Reaches o n ∧ σ.directory o.ep = false then ((σ.content o.ep).drop o.off).take n else []

/-- A count from 2 GiB on is negative for the caller, and does not move the offset. -/
def fileread (σ : OpenContents φ) (f : φ) (n : ℕ) : Option (FileObjectResult × OpenContents φ) :=
  (σ.file f).map fun o =>
    if !o.readable then (.read (-1) [], σ)
    else
      let bytes := σ.slice o n
      (.read (BitVec.ofNat 32 bytes.length).toInt bytes,
        if 0 < bytes.length ∧ bytes.length < 2 ^ 31 then
          σ.setFile f (some { o with off := o.off + bytes.length })
        else σ)

/-- A refused write of 2^32 - 1 bytes returns what it was asked for, -1, and so moves the
offset, one back. -/
def filewrite (σ : OpenContents φ) (f : φ) (bytes : List Byte) :
    Option (FileObjectResult × OpenContents φ) :=
  (σ.file f).map fun o =>
    let n := bytes.length
    if !o.writable then (.wrote (-1), σ)
    else if σ.Reaches o n ∧ σ.readOnly o.ep = false then
      (.wrote (BitVec.ofNat 32 n).toInt,
        (σ.setContent o.ep
          ((σ.content o.ep).take o.off ++ bytes ++ (σ.content o.ep).drop (o.off + n))).setFile f
          (some { o with off := o.off + n }))
    else
      (.wrote (-1),
        if n = 2 ^ 32 - 1 then σ.setFile f (some { o with off := (o.off + n) % 2 ^ 32 }) else σ)

/-- A file is emptied also where it is read only. -/
def fileopen (σ : OpenContents φ) (f : φ) (ep omode : ℕ) :
    Option (FileObjectResult × OpenContents φ) :=
  if (σ.file f).isSome then none
  else
    let σ :=
      if σ.directory ep = false ∧ omode &&& oTrunc ≠ 0 then σ.setContent ep [] else σ
    some (.opened,
      σ.setFile f
        (some
          { ep
            off := if omode &&& oAppend ≠ 0 then (σ.content ep).length else 0
            readable := omode &&& oWronly = 0
            writable := omode &&& oWronly ≠ 0 ∨ omode &&& oRdwr ≠ 0 }))

def step (σ : OpenContents φ) : FileObjectCall φ → Option (FileObjectResult × OpenContents φ)
  | .fileread f n => σ.fileread f n.toNat
  | .filewrite f bytes => σ.filewrite f bytes
  | .fileopen f ep omode => σ.fileopen f ep omode
  | .fileclose f => some (.closed, σ.setFile f none)

def StepRel (σ : OpenContents φ) (l : FileObjectCall φ × FileObjectResult)
    (τ : OpenContents φ) : Prop :=
  σ.step l.1 = some (l.2, τ)

section
variable {σ τ : OpenContents φ} {ep pos : ℕ} {f g : φ} {l : FileObjectCall φ × FileObjectResult}

/-! ## What a call can do -/

omit [DecidableEq φ] in
theorem slice_eq_take (σ : OpenContents φ) (o : OpenEntry) (n : ℕ) :
    σ.slice o n = ((σ.content o.ep).drop o.off).take (σ.slice o n).length := by
  rw [slice]
  split
  · rw [List.length_take, List.take_eq_take_iff]
    omega
  · rfl

omit [DecidableEq φ] in
theorem slice_length_le (σ : OpenContents φ) (o : OpenEntry) (n : ℕ) :
    (σ.slice o n).length ≤ n := by
  rw [slice]
  split
  · exact List.length_take_le _ _
  · exact Nat.zero_le _

theorem setFile_eq_self {o : Option OpenEntry} (h : σ.file f = o) : σ.setFile f o = σ := by
  rw [setFile, ← h, Function.update_eq_self]

/-- A read returns nothing through a file object that is not open for it, and otherwise moves
the offset behind what it delivered. -/
theorem fileread_cases {n : ℕ} {r : FileObjectResult} (hrun : σ.fileread f n = some (r, τ)) :
    ∃ o, σ.file f = some o ∧
      (o.readable = false ∧ r = .read (-1) [] ∧ τ = σ ∨
        ∃ off x, o.readable = true ∧ r = .read x (σ.slice o n) ∧
          τ = σ.setFile f (some { o with off }) ∧
          off ≤ o.off + (σ.slice o n).length ∧ (n < 2 ^ 31 → off = o.off + (σ.slice o n).length)) := by
  rw [fileread, Option.map_eq_some_iff] at hrun
  obtain ⟨o, ho, hrun⟩ := hrun
  refine ⟨o, ho, ?_⟩
  by_cases hreadable : o.readable = true
  · rw [if_neg (by rw [hreadable]; decide)] at hrun
    obtain ⟨rfl, rfl⟩ := Prod.mk.inj hrun
    refine .inr ?_
    have hle := slice_length_le σ o n
    by_cases hmove : 0 < (σ.slice o n).length ∧ (σ.slice o n).length < 2 ^ 31
    · exact ⟨_, _, hreadable, rfl, if_pos hmove, le_rfl, fun _ => rfl⟩
    · rw [if_neg hmove]
      refine ⟨o.off, _, hreadable, rfl, (setFile_eq_self ho).symm, Nat.le_add_right _ _,
        fun hn => ?_⟩
      omega
  · rw [Bool.not_eq_true] at hreadable
    rw [if_pos (by rw [hreadable]; decide)] at hrun
    obtain ⟨rfl, rfl⟩ := Prod.mk.inj hrun
    exact .inl ⟨hreadable, rfl, rfl⟩

/-- A write is refused and keeps the bytes, or puts its bytes at the offset. -/
theorem filewrite_cases {bytes : List Byte} {r : FileObjectResult}
    (hrun : σ.filewrite f bytes = some (r, τ)) :
    ∃ o off, σ.file f = some o ∧
      (o.writable = false ∧ r = .wrote (-1) ∧ τ = σ ∨
        o.writable = true ∧ r = .wrote (-1) ∧ τ = σ.setFile f (some { o with off }) ∧
          (off = o.off ∨ bytes.length = 2 ^ 32 - 1 ∧ off < 2 ^ 32) ∨
        o.writable = true ∧ r = .wrote (BitVec.ofNat 32 bytes.length).toInt ∧
          off = o.off + bytes.length ∧ σ.Reaches o bytes.length ∧
          τ = (σ.setContent o.ep ((σ.content o.ep).take o.off ++ bytes ++
            (σ.content o.ep).drop (o.off + bytes.length))).setFile f (some { o with off })) := by
  rw [filewrite, Option.map_eq_some_iff] at hrun
  obtain ⟨o, ho, hrun⟩ := hrun
  by_cases hwritable : o.writable = true
  · rw [if_neg (by rw [hwritable]; decide)] at hrun
    by_cases hin : σ.Reaches o bytes.length ∧ σ.readOnly o.ep = false
    · rw [if_pos hin] at hrun
      obtain ⟨rfl, rfl⟩ := Prod.mk.inj hrun
      exact ⟨o, _, ho, .inr (.inr ⟨hwritable, rfl, rfl, hin.1, rfl⟩)⟩
    · rw [if_neg hin] at hrun
      obtain ⟨rfl, rfl⟩ := Prod.mk.inj hrun
      by_cases hlen : bytes.length = 2 ^ 32 - 1
      · have hlt := Nat.mod_lt (o.off + bytes.length) (Nat.two_pow_pos 32)
        exact ⟨o, _, ho, .inr (.inl ⟨hwritable, rfl, if_pos hlen, .inr ⟨hlen, hlt⟩⟩)⟩
      · rw [if_neg hlen]
        exact ⟨o, o.off, ho, .inr (.inl ⟨hwritable, rfl, (setFile_eq_self ho).symm, .inl rfl⟩)⟩
  · rw [Bool.not_eq_true] at hwritable
    rw [if_pos (by rw [hwritable]; decide)] at hrun
    obtain ⟨rfl, rfl⟩ := Prod.mk.inj hrun
    exact ⟨o, o.off, ho, .inl ⟨hwritable, rfl, rfl⟩⟩

/-! ## Offsets -/

/-- The offsets are of 32 bits. -/
def OffsetsLt (σ : OpenContents φ) : Prop := ∀ f o, σ.file f = some o → o.off < 2 ^ 32

theorem OffsetsLt.setFile {ρ : OpenContents φ} (h : σ.OffsetsLt) (hfile : ρ.file = σ.file)
    {o : Option OpenEntry} (ho : ∀ o', o = some o' → o'.off < 2 ^ 32) :
    (ρ.setFile f o).OffsetsLt := by
  intro f' o' ho'
  by_cases hf : f' = f
  · subst f'
    rw [setFile_self] at ho'
    exact ho o' ho'
  · rw [setFile_of_ne _ _ hf, hfile] at ho'
    exact h f' o' ho'

theorem OffsetsLt.step (h : σ.OffsetsLt)
    (hsize : ∀ i, (σ.content i).length < 2 ^ 32) {call : FileObjectCall φ} {r : FileObjectResult}
    (hstep : σ.step call = some (r, τ)) : τ.OffsetsLt := by
  cases call with
  | fileread f n =>
      obtain ⟨o, ho, ⟨-, -, rfl⟩ | ⟨off, x, -, -, rfl, hoff, -⟩⟩ := fileread_cases hstep
      · exact h
      · refine h.setFile rfl fun o' ho' => ?_
        obtain rfl := Option.some.inj ho'
        have hin := congrArg List.length (slice_eq_take σ o n.toNat)
        rw [List.length_take, List.length_drop] at hin
        have hold := h f o ho
        have hlen := hsize o.ep
        change off < 2 ^ 32
        omega
  | filewrite f bytes =>
      obtain ⟨o, off, ho, ⟨-, -, rfl⟩ | ⟨-, -, rfl, hoff⟩ | ⟨-, -, rfl, hin, rfl⟩⟩ :=
        filewrite_cases hstep
      · exact h
      · refine h.setFile rfl fun o' ho' => ?_
        obtain rfl := Option.some.inj ho'
        rcases hoff with rfl | ⟨-, hlt⟩
        · exact h f o ho
        · exact hlt
      · refine h.setFile rfl fun o' ho' => ?_
        obtain rfl := Option.some.inj ho'
        exact hin.2
  | fileopen f ep omode =>
      rw [OpenContents.step, OpenContents.fileopen] at hstep
      split at hstep
      · exact absurd hstep.symm (Option.some_ne_none _)
      · obtain ⟨-, rfl⟩ := Prod.mk.inj (Option.some.inj hstep)
        refine h.setFile (by split <;> rfl) fun o' ho' => ?_
        obtain rfl := Option.some.inj ho'
        have hzero : ([] : List Byte).length < 2 ^ 32 := Nat.two_pow_pos 32
        have hlen := hsize ep
        simp only
        split
        · split
          · rw [setContent_self]
            exact hzero
          · exact hlen
        · exact hzero
  | fileclose f =>
      obtain ⟨-, rfl⟩ := Prod.mk.inj (Option.some.inj hstep)
      exact h.setFile rfl fun o' ho' => absurd ho'.symm (Option.some_ne_none _)

/-! ## One writer and a reader -/

/-- The bytes that a call gave the reader `g`. -/
def delivered (g : φ) (l : FileObjectCall φ × FileObjectResult) : List Byte :=
  match l with
  | (.fileread f _, .read _ bytes) => if f = g then bytes else []
  | _ => []

/-- The bytes that a call of the writer `f` put into the file. -/
def written (f : φ) (l : FileObjectCall φ × FileObjectResult) : List Byte :=
  match l with
  | (.filewrite f' bytes, .wrote r) => if f' = f ∧ r ≠ -1 then bytes else []
  | _ => []

/-- `f` writes at the end of the file, `g` reads it from `pos` on, and no other file object
writes it. -/
structure Extended (σ : OpenContents φ) (ep : ℕ) (f g : φ) (pos : ℕ) : Prop where
  writer : σ.file f = some ⟨ep, (σ.content ep).length, false, true⟩
  reader : σ.file g = some ⟨ep, pos, true, false⟩
  alone : ∀ f' o, σ.file f' = some o → o.ep = ep → o.writable = true → f' = f
  pos_le : pos ≤ (σ.content ep).length

/-- The calls that leave the file to `f` and `g`, with counts that are positive for C. -/
def Leaves (ep : ℕ) (f g : φ) : FileObjectCall φ → Prop
  | .fileread g' n => g' = g → n.toNat < 2 ^ 31
  | .filewrite f' bytes => f' = f → bytes.length < 2 ^ 31
  | .fileopen _ i omode =>
      i = ep → omode &&& oWronly = 0 ∧ omode &&& oRdwr = 0 ∧ omode &&& oTrunc = 0
  | .fileclose f' => f' ≠ f ∧ f' ≠ g

/-- What one call does to the file, and what it gives the reader. -/
def Follows (σ τ : OpenContents φ) (ep : ℕ) (f g : φ) (pos : ℕ)
    (l : FileObjectCall φ × FileObjectResult) : Prop :=
  τ.Extended ep f g (pos + (delivered g l).length) ∧
    τ.content ep = σ.content ep ++ written f l ∧
    delivered g l = ((σ.content ep).drop pos).take (delivered g l).length

omit [DecidableEq φ] in
theorem Extended.ne (h : σ.Extended ep f g pos) : g ≠ f := by
  rintro rfl
  have hmode := Option.some.inj (h.writer.symm.trans h.reader)
  exact absurd (congrArg OpenEntry.writable hmode).symm Bool.false_ne_true

/-- Nothing of the file, and no file object that the two are. -/
theorem Extended.follows_of_eq (h : σ.Extended ep f g pos) (hdelivered : delivered g l = [])
    (hwritten : written f l = []) (hcontent : τ.content ep = σ.content ep)
    (hwriter : τ.file f = σ.file f) (hreader : τ.file g = σ.file g)
    (halone : ∀ j o, τ.file j = some o → o.ep = ep → o.writable = true → j = f) :
    Follows σ τ ep f g pos l := by
  rw [Follows, hdelivered, hwritten, List.append_nil]
  refine ⟨⟨?_, ?_, halone, ?_⟩, hcontent, rfl⟩
  · rw [hwriter, hcontent]
    exact h.writer
  · rw [hreader]
    exact h.reader
  · rw [hcontent]
    exact h.pos_le

/-- A file object that gets another offset or leaves stays who it is. -/
theorem Extended.alone_setFile (h : σ.Extended ep f g pos) {ρ : OpenContents φ} {j : φ}
    {o : Option OpenEntry} (hfile : ρ.file = σ.file)
    (hj : ∀ o', o = some o' → o'.ep = ep → o'.writable = true → j = f) :
    ∀ k o', (ρ.setFile j o).file k = some o' → o'.ep = ep → o'.writable = true → k = f := by
  intro k o' hk hep hw
  by_cases hkj : k = j
  · subst k
    rw [setFile_self] at hk
    exact hj o' hk hep hw
  · rw [setFile_of_ne _ _ hkj, hfile] at hk
    exact h.alone k o' hk hep hw

theorem Extended.fileread (h : σ.Extended ep f g pos) {f' : φ} {n : ℕ} {r : FileObjectResult}
    (hn : f' = g → n < 2 ^ 31) (hrun : σ.fileread f' n = some (r, τ)) (n' : BitVec 32) :
    Follows σ τ ep f g pos (.fileread f' n', r) := by
  obtain ⟨o, ho, ⟨-, rfl, rfl⟩ | ⟨off, x, hmode, rfl, rfl, -, hoff⟩⟩ := fileread_cases hrun
  · exact h.follows_of_eq (by simp [delivered]) rfl rfl rfl rfl h.alone
  · have hf : f' ≠ f := by
      rintro rfl
      obtain rfl := Option.some.inj (h.writer.symm.trans ho)
      exact absurd hmode Bool.false_ne_true
    have halone := h.alone_setFile (ρ := σ) (j := f') (o := some { o with off }) rfl
      fun o' ho' hep hw => by
        obtain rfl := Option.some.inj ho'
        exact h.alone f' o ho hep hw
    by_cases hg : f' = g
    · subst f'
      obtain rfl := Option.some.inj (h.reader.symm.trans ho)
      rw [hoff (hn rfl)]
      have hslice := slice_eq_take σ ⟨ep, pos, true, false⟩ n
      have hin := congrArg List.length hslice
      rw [List.length_take, List.length_drop] at hin
      change _ = min _ ((σ.content ep).length - pos) at hin
      have hpos := h.pos_le
      have hdelivered : delivered g (.fileread g n', .read x (σ.slice ⟨ep, pos, true, false⟩ n)) =
          σ.slice ⟨ep, pos, true, false⟩ n := if_pos rfl
      rw [hoff (hn rfl)] at halone
      refine ⟨⟨?_, ?_, halone, ?_⟩, (List.append_nil _).symm, ?_⟩
      · rw [setFile_of_ne _ _ hf.symm, setFile_content]
        exact h.writer
      · rw [hdelivered]
        exact setFile_self _ _ _
      · rw [hdelivered, setFile_content]
        omega
      · rw [hdelivered]
        exact hslice
    · refine h.follows_of_eq (if_neg hg) rfl rfl ?_ ?_ halone
      · exact setFile_of_ne _ _ (Ne.symm hf)
      · exact setFile_of_ne _ _ (Ne.symm hg)

theorem Extended.filewrite (h : σ.Extended ep f g pos) {f' : φ} {bytes : List Byte}
    {r : FileObjectResult} (hn : f' = f → bytes.length < 2 ^ 31)
    (hrun : σ.filewrite f' bytes = some (r, τ)) :
    Follows σ τ ep f g pos (.filewrite f' bytes, r) := by
  have hdelivered : delivered g (.filewrite f' bytes, r) = [] := rfl
  obtain ⟨o, off, ho, ⟨-, rfl, rfl⟩ | ⟨hmode, rfl, rfl, hoff⟩ | ⟨hmode, rfl, rfl, hin, rfl⟩⟩ :=
    filewrite_cases hrun
  · exact h.follows_of_eq hdelivered (if_neg fun hr => hr.2 rfl) rfl rfl rfl h.alone
  · have hg : f' ≠ g := by
      rintro rfl
      obtain rfl := Option.some.inj (h.reader.symm.trans ho)
      exact absurd hmode Bool.false_ne_true
    have halone := h.alone_setFile (ρ := σ) (j := f') (o := some { o with off }) rfl
      fun o' ho' hep hw => by
        obtain rfl := Option.some.inj ho'
        exact h.alone f' o ho hep hw
    refine h.follows_of_eq hdelivered (if_neg fun hr => hr.2 rfl) rfl ?_ ?_ halone
    · by_cases hf : f' = f
      · subst f'
        have hlt := hn rfl
        have hstay : off = o.off := by omega
        rw [setFile_self, hstay, ho]
      · exact setFile_of_ne _ _ (Ne.symm hf)
    · exact setFile_of_ne _ _ (Ne.symm hg)
  · have hg : f' ≠ g := by
      rintro rfl
      obtain rfl := Option.some.inj (h.reader.symm.trans ho)
      exact absurd hmode Bool.false_ne_true
    by_cases hf : f' = f
    · subst f'
      obtain rfl := Option.some.inj (h.writer.symm.trans ho)
      have hlt := hn rfl
      have hr : (BitVec.ofNat 32 bytes.length).toInt ≠ -1 := by
        rw [BitVec.toInt_ofNat', Int.bmod_eq_of_le]
        all_goals omega
      have hcontent : (σ.content ep).take (σ.content ep).length ++ bytes ++
          (σ.content ep).drop ((σ.content ep).length + bytes.length) = σ.content ep ++ bytes := by
        rw [List.take_length, List.drop_eq_nil_of_le (Nat.le_add_right _ _), List.append_nil]
      rw [hcontent]
      refine ⟨⟨?_, ?_, ?_, ?_⟩, ?_, rfl⟩
      · rw [setFile_self, setFile_content, setContent_self, List.length_append]
      · rw [setFile_of_ne _ _ (Ne.symm hg)]
        exact h.reader
      · exact h.alone_setFile rfl fun o' _ _ _ => rfl
      · rw [setFile_content, setContent_self, List.length_append, hdelivered]
        have hpos := h.pos_le
        exact hpos.trans (Nat.le_add_right _ _)
      · rw [setFile_content, setContent_self, written, if_pos ⟨rfl, hr⟩]
    · have hep : ep ≠ o.ep := fun hep => hf (h.alone f' o ho hep.symm hmode)
      refine h.follows_of_eq hdelivered (if_neg fun hr => hf hr.1) ?_ ?_ ?_ ?_
      · exact setContent_of_ne _ _ hep
      · exact setFile_of_ne _ _ (Ne.symm hf)
      · exact setFile_of_ne _ _ (Ne.symm hg)
      · refine h.alone_setFile rfl fun o' ho' hep' _ => ?_
        obtain rfl := Option.some.inj ho'
        exact absurd hep'.symm hep

theorem Extended.fileopen (h : σ.Extended ep f g pos) {f' : φ} {i omode : ℕ} {r : FileObjectResult}
    (hmode : i = ep → omode &&& oWronly = 0 ∧ omode &&& oRdwr = 0 ∧ omode &&& oTrunc = 0)
    (hrun : σ.fileopen f' i omode = some (r, τ)) :
    Follows σ τ ep f g pos (.fileopen f' i omode, r) := by
  rw [OpenContents.fileopen] at hrun
  split at hrun
  · exact absurd hrun.symm (Option.some_ne_none _)
  next hfree =>
    rw [Bool.not_eq_true, Option.isSome_eq_false_iff, Option.isNone_iff_eq_none] at hfree
    obtain ⟨rfl, rfl⟩ := Prod.mk.inj (Option.some.inj hrun)
    have hf : f ≠ f' := by
      rintro rfl
      exact absurd (h.writer.symm.trans hfree) (Option.some_ne_none _)
    have hg : g ≠ f' := by
      rintro rfl
      exact absurd (h.reader.symm.trans hfree) (Option.some_ne_none _)
    refine h.follows_of_eq rfl rfl ?_ ?_ ?_ ?_
    · rw [setFile_content]
      split
      next htrunc =>
        exact setContent_of_ne _ _ fun hep => htrunc.2 (hmode hep.symm).2.2
      · rfl
    · rw [setFile_of_ne _ _ hf]
      split <;> rfl
    · rw [setFile_of_ne _ _ hg]
      split <;> rfl
    · refine h.alone_setFile (by split <;> rfl) fun o' ho' hep hw => ?_
      obtain rfl := Option.some.inj ho'
      obtain ⟨hwronly, hrdwr, -⟩ := hmode hep
      simp [hwronly, hrdwr] at hw

theorem Extended.step (h : σ.Extended ep f g pos) (hl : Leaves ep f g l.1) (hstep : StepRel σ l τ) :
    Follows σ τ ep f g pos l := by
  rcases l with ⟨call, r⟩
  cases call with
  | fileread f' n => exact h.fileread hl hstep n
  | filewrite f' bytes => exact h.filewrite hl hstep
  | fileopen f' i omode => exact h.fileopen hl hstep
  | fileclose f' =>
      obtain ⟨rfl, rfl⟩ := Prod.mk.inj (Option.some.inj hstep)
      refine h.follows_of_eq rfl rfl rfl ?_ ?_ ?_
      · exact setFile_of_ne _ _ hl.1.symm
      · exact setFile_of_ne _ _ hl.2.symm
      · refine h.alone_setFile rfl fun o' ho' => ?_
        exact absurd ho'.symm (Option.some_ne_none _)

/-- What the reader gets is a piece of what the file is in the end, from where the reader
stood on; and the file is what it was with all that was written behind. -/
theorem Extended.run (h : σ.Extended ep f g pos)
    {ls : List (FileObjectCall φ × FileObjectResult)} (hrun : Run StepRel σ ls τ)
    (hls : ∀ l ∈ ls, Leaves ep f g l.1) :
    τ.content ep = σ.content ep ++ ls.flatMap (written f) ∧
      ls.flatMap (delivered g) <+: (τ.content ep).drop pos ∧
      τ.Extended ep f g (pos + (ls.flatMap (delivered g)).length) := by
  induction hrun generalizing pos with
  | done σ => exact ⟨(List.append_nil _).symm, List.nil_prefix, h⟩
  | @step σ ρ τ l ls hstep _ ih =>
      obtain ⟨hnext, hcontent, hread⟩ := h.step (hls l List.mem_cons_self) hstep
      obtain ⟨hend, hrest, hlast⟩ := ih hnext fun l hl => hls l (List.mem_cons_of_mem _ hl)
      rw [hcontent, List.append_assoc] at hend
      rw [List.flatMap_cons, List.flatMap_cons, List.length_append, ← Nat.add_assoc]
      refine ⟨hend, ?_, hlast⟩
      -- the first piece ends where the rest begins
      have hfirst : ((τ.content ep).drop pos).take (delivered g l).length = delivered g l := by
        have hlen := congrArg List.length hread
        rw [List.length_take, List.length_drop] at hlen
        have hpos := h.pos_le
        rw [hend, List.drop_append_of_le_length hpos, List.take_append_of_le_length (by
          rw [List.length_drop]; omega), ← hread]
      obtain ⟨tail, htail⟩ := hrest
      refine ⟨tail, ?_⟩
      rw [List.append_assoc, htail, ← List.drop_drop]
      have hsplit := List.take_append_drop (delivered g l).length ((τ.content ep).drop pos)
      rwa [hfirst] at hsplit

end

end OpenContents

end K210Os
