import K210Os.OpenContents

/-!
# Runs of calls on file objects

What `fileread` and `filewrite` return, and the runs of all processes: on a volume in order
they are runs of the bytes of the entries. `eread` and `ewrite` walk clusters from the place
where the entry was left, whoever used it last, and no file object notices.
-/

namespace K210Os

open Transition

/-- The call with copies that succeed. -/
def FileObjectCall.onVolume {φ : Type*} : FileObjectCall φ → VolumeCall φ
  | .fileread f n => .fileread f (Transfer.of []) n
  | .filewrite f bytes => .filewrite f (Transfer.of bytes) (BitVec.ofNat 32 bytes.length)
  | .fileopen f ep omode => .fileopen f ep omode
  | .fileclose f => .fileclose f

namespace OpenVolume

variable {φ : Type*}

/-- The count that `fileread` returns, as an `int`, and the bytes that it copied out. -/
def filereadResult (fat : Fat32) (s : OpenVolume φ) (f : φ) (data : Transfer) (n : BitVec 32) :
    Option (ℤ × List Byte) :=
  (s.file f).bind fun o =>
    if !o.readable then some (-1, [])
    else
      (eread fat s.fs.disk (s.fs.ent o.ep) data o.off n.toNat).map fun (r, bytes, _, _) =>
        ((BitVec.ofNat 32 r).toInt, bytes)

def filewriteResult (fat : Fat32) (s : OpenVolume φ) (f : φ) (data : Transfer) (n : BitVec 32) :
    Option ℤ :=
  (s.file f).bind fun o =>
    if !o.writable then some (-1)
    else
      (ewrite fat s.fs.disk (s.fs.ent o.ep) data o.off n.toNat).map fun (code, _, _) =>
        if BitVec.ofInt 32 code = n then n.toInt else -1

def callResult (fat : Fat32) (s : OpenVolume φ) : FileObjectCall φ → Option FileObjectResult
  | .fileread f n =>
      (s.filereadResult fat f (Transfer.of []) n).map fun r => .read r.1 r.2
  | .filewrite f bytes =>
      (s.filewriteResult fat f (Transfer.of bytes) (BitVec.ofNat 32 bytes.length)).map .wrote
  | .fileopen .. => some .opened
  | .fileclose .. => some .closed

/-- A call whose copies from and to the memory of the process succeed, with its result. -/
def call [DecidableEq φ] (fat : Fat32) (s : OpenVolume φ) (c : FileObjectCall φ) :
    Option (FileObjectResult × OpenVolume φ) :=
  (s.callResult fat c).bind fun r => (s.step fat c.onVolume).map fun s => (r, s)

/-- A file object for each call but `fileopen`, room for what a write appends, and no directory
that is opened for writing. -/
def CallAllowed (fat : Fat32) (s : OpenVolume φ) : FileObjectCall φ → Prop
  | .fileread f _ => (s.file f).isSome
  | .filewrite f bytes => (s.file f).isSome ∧ bytes.length < 2 ^ 32 ∧
      ∀ o, s.file f = some o → o.writable = true →
        HasRoom fat s.fs.disk (s.fs.ent o.ep) o.off bytes.length
  | .fileopen f ep omode => s.file f = none ∧
      ((s.fs.ent ep).isDirectory = true → omode &&& oWronly = 0 ∧ omode &&& oRdwr = 0)
  | .fileclose f => (s.file f).isSome

/-- The bytes of the entries, and the file objects. -/
def view (fat : Fat32) (s : OpenVolume φ) : OpenContents φ where
  content := contents fat s.fs.files
  directory i := (s.fs.ent i).isDirectory
  readOnly i := (s.fs.ent i).isReadOnly
  file := s.file

/-- A volume in order, with offsets of 32 bits. -/
structure Sound (fat : Fat32) (s : OpenVolume φ) : Prop where
  ok : ∃ chains, Ok fat s chains
  off_lt : ∀ f o, s.file f = some o → o.off < 2 ^ 32

section
variable {fat : Fat32} {s t : OpenVolume φ} {chains : ℕ → List ℕ} {d : Disk} {e : Dirent}
  {f : φ} {o : OpenEntry} {ep : ℕ}

theorem view_content_length (fat : Fat32) (s : OpenVolume φ) (i : ℕ) :
    ((s.view fat).content i).length = (s.fs.ent i).fileSize := fileContent_length _ _ _

variable [DecidableEq φ]

theorem Sound.of_step (h : Sound fat s) {call : FileObjectCall φ} {r : FileObjectResult}
    (hok : ∃ chains, Ok fat t chains) (hstep : (s.view fat).step call = some (r, t.view fat)) :
    Sound fat t := by
  obtain ⟨chains, hs⟩ := h.ok
  refine ⟨hok, OpenContents.OffsetsLt.step (σ := s.view fat) h.off_lt (fun i => ?_) hstep⟩
  rw [view_content_length]
  exact (hs.volume.files.file i).size_lt

omit [DecidableEq φ] in
theorem CallAllowed.allowed {call : FileObjectCall φ} (h : CallAllowed fat s call) :
    Allowed fat s call.onVolume := by
  cases call with
  | fileread f n => trivial
  | filewrite f bytes =>
      obtain ⟨-, hlen, hroom⟩ := h
      have hn : (BitVec.ofNat 32 bytes.length).toNat = bytes.length := by
        rw [BitVec.toNat_ofNat, Nat.mod_eq_of_lt hlen]
      rw [FileObjectCall.onVolume, Allowed, hn]
      exact hroom
  | fileopen f ep omode => exact h.2
  | fileclose f => trivial

end

/-! ## A writer and a reader of one file -/

end OpenVolume

end K210Os
