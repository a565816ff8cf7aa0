import K210Os.Directory
import Mathlib.Tactic.IntervalCases

/-!
# Long names in slots

`emake` cuts a name into parts of 13 characters and writes them into slots, the last part
first. `enext` puts the parts together again in a filename buffer, at the places that the
order bytes of the slots tell it. The order byte comes from the disk and is not checked, so
the second half of the module lists the bytes that a call stores.
-/

namespace K210Os

/-! ## What `snstr` stores -/

section Snstr
variable {dst : ℕ → Byte} {src : ℕ → ℕ} {base len i k x : ℕ}

attribute [local simp] snstr

theorem snstr_outside (h : x < base + i ∨ base + i + len ≤ x) :
    snstr dst base src len i x = dst x := by
  induction len generalizing dst i with
  | zero => rfl
  | succ len ih =>
      rw [snstr]
      split
      · exact memset_outside (by omega)
      · rw [ih (by omega), Function.update_of_ne (by omega)]

/-- The characters in front of the first zero are stored. -/
theorem snstr_char (hi : i ≤ k) (hk : k < i + len) (hne : ∀ j ≤ k, src j ≠ 0) :
    snstr dst base src len i (base + k) = BitVec.ofNat 8 (src k) := by
  induction len generalizing dst i with
  | zero => omega
  | succ len ih =>
      rw [snstr, if_neg (hne i hi)]
      rcases Nat.eq_or_lt_of_le hi with rfl | hlt
      · rw [snstr_outside (by omega), Function.update_self]
      · exact ih hlt (by omega)

/-- At the first zero a zero is stored, or nothing where it is the last character. -/
theorem snstr_zero (hi : i ≤ k) (hk : k < i + len) (hne : ∀ j < k, src j ≠ 0) (hzero : src k = 0)
    (hdst : dst (base + k) = 0) : snstr dst base src len i (base + k) = 0 := by
  induction len generalizing dst i with
  | zero => omega
  | succ len ih =>
      rw [snstr]
      rcases Nat.eq_or_lt_of_le hi with rfl | hlt
      · rw [if_pos hzero]
        by_cases hlen : len = 0
        · rw [memset_outside (by omega), hdst]
        · exact memset_inside le_rfl (by omega)
      · rw [if_neg (hne i hlt)]
        exact ih hlt (by omega) (by rw [Function.update_of_ne (by omega), hdst])

end Snstr

/-! ## A long-name slot -/

/-- The bytes of a character in a slot: those behind the end of the name are set. -/
def wideLow (p : ℕ → Byte) (k : ℕ) : Byte := if ∃ j < k, p j = 0 then 0xff else p k

def wideHigh (p : ℕ → Byte) (k : ℕ) : Byte := if ∃ j < k, p j = 0 then 0xff else 0

theorem longChars_eq (p : ℕ → Byte) (n j : ℕ) (ended : Bool) (hended : ended = true ↔ ∃ i < j, p i = 0) :
    longChars p n j ended = (List.range n).map fun k => [wideLow p (j + k), wideHigh p (j + k)] := by
  induction n generalizing j ended with
  | zero => rfl
  | succ n ih =>
      have hnext : ∀ b : Bool, (b = true ↔ ∃ i < j + 1, p i = 0) →
          longChars p n (j + 1) b =
            (List.range n).map fun k => [wideLow p (j + (k + 1)), wideHigh p (j + (k + 1))] := by
        intro b hb
        rw [ih (j + 1) b hb]
        simp only [Nat.add_assoc, Nat.add_comm 1]
      rw [List.range_succ_eq_map, List.map_cons, List.map_map, longChars]
      cases ended with
      | true =>
          obtain ⟨i, hij, hi⟩ := hended.mp rfl
          have hat : ∃ i < j, p i = 0 := ⟨i, hij, hi⟩
          rw [if_pos rfl, hnext true ⟨fun _ => ⟨i, by omega, hi⟩, fun _ => rfl⟩]
          simp only [Nat.add_zero, wideLow, wideHigh, if_pos hat, Function.comp_def]
      | false =>
          have hat : ¬ ∃ i < j, p i = 0 := fun h => by simpa using hended.mpr h
          rw [if_neg (by decide), hnext (p j == 0)]
          · simp only [Nat.add_zero, wideLow, wideHigh, if_neg hat, Function.comp_def]
          · rw [beq_iff_eq]
            constructor
            · exact fun hj => ⟨j, by omega, hj⟩
            · rintro ⟨i, hij, hi⟩
              rcases Nat.eq_or_lt_of_le (Nat.le_of_lt_succ hij) with rfl | hlt
              · exact hi
              · exact absurd ⟨i, hlt, hi⟩ hat

/-- The bytes of a long-name slot. -/
theorem longDentry_eq (order : ℕ) (checksum : Byte) (p : ℕ → Byte) :
    longDentry order checksum p = [BitVec.ofNat 8 order,
      wideLow p 0, wideHigh p 0, wideLow p 1, wideHigh p 1, wideLow p 2, wideHigh p 2,
      wideLow p 3, wideHigh p 3, wideLow p 4, wideHigh p 4, 0x0F, 0, checksum,
      wideLow p 5, wideHigh p 5, wideLow p 6, wideHigh p 6, wideLow p 7, wideHigh p 7,
      wideLow p 8, wideHigh p 8, wideLow p 9, wideHigh p 9, wideLow p 10, wideHigh p 10, 0, 0,
      wideLow p 11, wideHigh p 11, wideLow p 12, wideHigh p 12] := by
  have hchars := longChars_eq p 13 0 false (by simp)
  simp only [Nat.zero_add] at hchars
  rw [longDentry, charLongName, hchars]
  rfl

/-- The value of a character in a slot. -/
def wideChar (p : ℕ → Byte) (k : ℕ) : ℕ := (wideLow p k).toNat + 256 * (wideHigh p k).toNat

theorem wideChar_of_le {p : ℕ → Byte} {k : ℕ} (h : ∀ j < k, p j ≠ 0) : wideChar p k = (p k).toNat := by
  have hnone : ¬ ∃ j < k, p j = 0 := fun ⟨j, hj, hzero⟩ => h j hj hzero
  rw [wideChar, wideLow, wideHigh, if_neg hnone, if_neg hnone]
  rfl

section Part
variable {order : ℕ} {checksum : Byte} {p : ℕ → Byte} {buffer : ℕ → Byte} {base k x : ℕ}

theorem longDentry_first (hk : k < 5) :
    (longDentry order checksum p).value (1 + 2 * k) 2 = wideChar p k := by
  rw [longDentry_eq]
  interval_cases k <;> rfl

theorem longDentry_second (hk : k < 6) :
    (longDentry order checksum p).value (14 + 2 * k) 2 = wideChar p (5 + k) := by
  rw [longDentry_eq]
  interval_cases k <;> rfl

theorem longDentry_third (hk : k < 2) :
    (longDentry order checksum p).value (28 + 2 * k) 2 = wideChar p (11 + k) := by
  rw [longDentry_eq]
  interval_cases k <;> rfl

theorem longDentry_attr : (Dentry.byte (longDentry order checksum p) 11).toNat = attrLongName := by
  rw [longDentry_eq]
  rfl

/-- The three places of a slot's characters are read one after the other. -/
def readParts (buffer : ℕ → Byte) (base : ℕ) (d : Dentry) : ℕ → Byte :=
  let first := snstr buffer base (fun k => d.value (1 + 2 * k) 2) 5 0
  let second := snstr first (base + 5) (fun k => d.value (14 + 2 * k) 2) 6 0
  snstr second (base + 11) (fun k => d.value (28 + 2 * k) 2) 2 0

theorem readEntryName_long {d : Dentry} (h : (d.byte 11).toNat = attrLongName) :
    readEntryName buffer base d = readParts buffer base d := by
  rw [readEntryName, if_pos h]
  rfl

theorem readParts_outside {d : Dentry} (h : x < base ∨ base + 13 ≤ x) :
    readParts buffer base d x = buffer x := by
  rw [readParts, snstr_outside (by omega), snstr_outside (by omega), snstr_outside (by omega)]

/-- What a byte of the part is after the reading, it is after one of the three calls. -/
theorem readParts_longDentry (order : ℕ) (checksum : Byte) (p buffer : ℕ → Byte) (base : ℕ)
    (hk : k < 13) : ∃ dst src start len,
    start ≤ k ∧ k < start + len ∧ dst (base + k) = buffer (base + k) ∧
      (∀ j < len, src j = wideChar p (start + j)) ∧
      readParts buffer base (longDentry order checksum p) (base + k) =
        snstr dst (base + start) src len 0 (base + start + (k - start)) := by
  obtain ⟨first, hfirst⟩ : ∃ b, b = snstr buffer base
    (fun j => (longDentry order checksum p).value (1 + 2 * j) 2) 5 0 := ⟨_, rfl⟩
  obtain ⟨second, hsecond⟩ : ∃ b, b = snstr first (base + 5)
    (fun j => (longDentry order checksum p).value (14 + 2 * j) 2) 6 0 := ⟨_, rfl⟩
  have hparts : readParts buffer base (longDentry order checksum p) = snstr second (base + 11)
      (fun j => (longDentry order checksum p).value (28 + 2 * j) 2) 2 0 := by
    rw [hsecond, hfirst]
    rfl
  have hbefore : ∀ x, base + 5 ≤ x → first x = buffer x := fun x hx => by
    rw [hfirst, snstr_outside (by omega)]
  rw [hparts]
  by_cases hfive : k < 5
  · refine ⟨buffer, fun j => (longDentry order checksum p).value (1 + 2 * j) 2, 0, 5, by omega, by omega, rfl,
      fun j hj => (longDentry_first hj).trans (by rw [Nat.zero_add]), ?_⟩
    rw [snstr_outside (by omega), hsecond, snstr_outside (by omega), hfirst]
    rfl
  by_cases heleven : k < 11
  · refine ⟨first, fun j => (longDentry order checksum p).value (14 + 2 * j) 2, 5, 6,
      by omega, by omega, hbefore _ (by omega),
      fun j hj => longDentry_second hj, ?_⟩
    rw [snstr_outside (by omega), hsecond, show base + 5 + (k - 5) = base + k by omega]
  · refine ⟨second, fun j => (longDentry order checksum p).value (28 + 2 * j) 2, 11, 2,
      by omega, by omega, ?_, fun j hj => longDentry_third hj, ?_⟩
    · rw [hsecond, snstr_outside (by omega)]
      exact hbefore _ (by omega)
    · rw [show base + 11 + (k - 11) = base + k by omega]

theorem readParts_char (hk : k < 13) (hne : ∀ j ≤ k, p j ≠ 0) :
    readParts buffer base (longDentry order checksum p) (base + k) = p k := by
  obtain ⟨dst, src, start, len, hlo, hhi, -, hsrc, heq⟩ :=
    readParts_longDentry order checksum p buffer base hk
  have hchar : ∀ j ≤ k - start, src j = (p (start + j)).toNat := fun j hj => by
    rw [hsrc j (by omega), wideChar_of_le fun i hi => hne i (by omega)]
  rw [heq, snstr_char (Nat.zero_le _) (by omega), hchar _ le_rfl, BitVec.ofNat_toNat,
    BitVec.setWidth_eq, Nat.add_sub_cancel' hlo]
  intro j hj
  rw [hchar j hj]
  intro hzero
  exact hne (start + j) (by omega) (BitVec.eq_of_toNat_eq hzero)

theorem readParts_zero (hk : k < 13) (hne : ∀ j < k, p j ≠ 0) (hzero : p k = 0)
    (hbuffer : buffer (base + k) = 0) :
    readParts buffer base (longDentry order checksum p) (base + k) = 0 := by
  obtain ⟨dst, src, start, len, hlo, hhi, hdst, hsrc, heq⟩ :=
    readParts_longDentry order checksum p buffer base hk
  have hchar : ∀ j ≤ k - start, src j = (p (start + j)).toNat := fun j hj => by
    rw [hsrc j (by omega), wideChar_of_le fun i hi => hne i (by omega)]
  have hat : base + start + (k - start) = base + k := by omega
  rw [heq]
  apply snstr_zero (Nat.zero_le _) (by omega)
  · intro j hj hz
    rw [hchar j (by omega)] at hz
    exact hne (start + j) (by omega) (BitVec.eq_of_toNat_eq hz)
  · rw [hchar _ le_rfl, Nat.add_sub_cancel' hlo, hzero]
    rfl
  · rw [hat, hdst, hbuffer]

end Part

/-! ## A whole name -/

/-- The long-name slots of `emake` from part `n` down to part 1, as they lie on the disk. -/
def longDentries (filename : ℕ → Byte) (checksum : Byte) (entcnt : ℕ) : ℕ → List Dentry
  | 0 => []
  | i + 1 =>
      let order := if i + 1 = entcnt then (i + 1) ||| lastLongEntry else i + 1
      longDentry order checksum (fun k => filename (i * charLongName + k)) ::
        longDentries filename checksum entcnt i

/-- The long-name slots of a filename. -/
def nameSlots (filename : ℕ → Byte) : List Dentry :=
  let name := (List.range (strlen filename)).map filename
  let entcnt := longSlots (strlen filename)
  longDentries filename (calChecksum (generateShortname name)) entcnt entcnt

/-- The short-name slot that `emake` puts behind them. -/
def nameShort (filename : ℕ → Byte) (entry : Dirent) : Dentry :=
  let name := (List.range (strlen filename)).map filename
  shortDentry (strncpy (cstring (generateShortname name)) charShortName 0) entry.attr
    entry.firstClus entry.fileSize

/-- Slots put one behind the other from `off` on. -/
def putDentries (fat : Fat32) (dp : ℕ) : List Dentry → FileSystem → ℕ → Option (FileSystem × ℕ)
  | [], fs, off => some (fs, off)
  | de :: des, fs, off => do
      let fs ← putDentry fat fs dp off de
      putDentries fat dp des fs ((off + 32) % 2 ^ 32)

/-- `enext` on slots that do not end its loop. -/
def readSlots : List Dentry → Enext → Option Enext
  | [], s => some s
  | de :: des, s =>
      match enextSlot de s with
      | some (.more s) => readSlots des s
      | _ => none

/-- The buffer holds the string `name` and its zero byte. -/
structure IsCString (buffer : ℕ → Byte) (name : List Byte) : Prop where
  char : ∀ k (hk : k < name.length), buffer k = name[k]
  ends : buffer name.length = 0

/-- The parts of the name from number `n` on are in the buffer of `s`. -/
structure Assembled (filename : ℕ → Byte) (len n : ℕ) (s : Enext) : Prop where
  char : ∀ x, 13 * n ≤ x → x < len → s.filename x = filename x
  ends : s.filename len = 0
  cnt : s.cnt = 0

section Name
variable {fat : Fat32} {fs : FileSystem} {dp ep off entcnt len n i : ℕ} {checksum : Byte}
  {filename p : ℕ → Byte} {name : List Byte} {s : Enext}

attribute [local simp] longDentries

theorem emakeLongs_eq (n : ℕ) (fs : FileSystem) (off : ℕ) :
    emakeLongs fat dp filename checksum entcnt n fs off =
      putDentries fat dp (longDentries filename checksum entcnt n) fs off := by
  induction n generalizing fs off with
  | zero => rfl
  | succ n ih => simp only [emakeLongs, longDentries, putDentries, ih]

theorem length_longDentries (n : ℕ) :
    (longDentries filename checksum entcnt n).length = n := by
  induction n with
  | zero => rfl
  | succ n ih => simp [longDentries, ih]

/-- A slot of a part is read into the place of the part. -/
theorem enextSlot_part (checksum : Byte) (p : ℕ → Byte) (hi : i < 20) (hcnt : s.cnt = 0) :
    ∃ s', enextSlot (longDentry (i + 1) checksum p) s = some (.more s') ∧
      s'.filename = readParts s.filename (i * 13) (longDentry (i + 1) checksum p) ∧
      s'.cnt = 0 ∧ s'.count = s.count := by
  have horder : (Dentry.byte (longDentry (i + 1) checksum p) 0).toNat = i + 1 := by
    rw [longDentry_eq]
    exact Nat.mod_eq_of_lt (by omega)
  have hdrop : dropLast (i + 1) = i + 1 ∧ (i + 1) &&& lastLongEntry = 0 := by
    interval_cases i <;> decide
  have hsmall : ¬ (i + 1 = 0 ∨ i + 1 > 20) := by omega
  refine ⟨{ s with filename := readParts s.filename (i * 13) (longDentry (i + 1) checksum p) },
    ?_, rfl, hcnt, rfl⟩
  rw [enextSlot]
  simp only [horder, longDentry_attr, hdrop, hcnt, endOfEntry, emptyEntry, if_true, if_false,
    ne_eq, not_true, hsmall, readEntryName_long longDentry_attr, charLongName,
    Nat.add_sub_cancel]
  rw [if_neg (by omega), if_neg (by omega)]

/-- The last part comes first, with the number of slots. -/
theorem enextSlot_last (checksum : Byte) (p : ℕ → Byte) (hi : i < 20) (hcnt : s.cnt = 0)
    (hcounting : s.counting = true) :
    ∃ s', enextSlot (longDentry ((i + 1) ||| lastLongEntry) checksum p) s = some (.more s') ∧
      s'.filename = readParts s.filename (i * 13)
        (longDentry ((i + 1) ||| lastLongEntry) checksum p) ∧
      s'.cnt = 0 ∧ s'.count = i + 2 := by
  have hbits : ((i + 1) ||| lastLongEntry) < 256 ∧ ((i + 1) ||| lastLongEntry) ≠ 0xe5 ∧
      ((i + 1) ||| lastLongEntry) ≠ 0 ∧ dropLast ((i + 1) ||| lastLongEntry) = i + 1 ∧
        ((i + 1) ||| lastLongEntry) &&& lastLongEntry ≠ 0 := by
    interval_cases i <;> decide
  obtain ⟨hlt, hempty, hend, hdrop, hflag⟩ := hbits
  have horder : (Dentry.byte (longDentry ((i + 1) ||| lastLongEntry) checksum p) 0).toNat =
      (i + 1) ||| lastLongEntry := by
    rw [longDentry_eq]
    exact Nat.mod_eq_of_lt hlt
  have hsmall : ¬ (i + 1 = 0 ∨ i + 1 > 20) := by omega
  refine ⟨{ s with
    filename := readParts s.filename (i * 13) (longDentry ((i + 1) ||| lastLongEntry) checksum p)
    count := i + 2
    counting := false }, ?_, rfl, hcnt, rfl⟩
  rw [enextSlot]
  simp only [horder, longDentry_attr, hdrop, hcnt, endOfEntry, emptyEntry, hend, hempty, hflag,
    if_true, if_false, ne_eq, not_true, hsmall, readEntryName_long longDentry_attr, charLongName,
    Nat.add_sub_cancel, hcounting]

theorem IsCString.filename_ne (h : IsCString filename name) (hne : ∀ c ∈ name, c ≠ 0) {k : ℕ}
    (hk : k < name.length) : filename k ≠ 0 := by
  rw [h.char k hk]
  exact hne _ (List.getElem_mem hk)

theorem strlen_eq (h : IsCString filename name) (hne : ∀ c ∈ name, c ≠ 0)
    (hlen : name.length ≤ 255) : strlen filename = name.length := by
  have hfind : (List.range (fat32MaxFilename + 1)).find? (filename · == 0) = some name.length := by
    rw [List.find?_range_eq_some]
    refine ⟨by rw [h.ends]; rfl, ?_, fun j hj => ?_⟩
    · rw [List.mem_range, fat32MaxFilename]
      omega
    · simpa using h.filename_ne hne hj
  rw [strlen, hfind]
  rfl

/-- Reading the slot of part `n + 1` when the later parts are there. -/
theorem Assembled.part {s' : Enext} {order : ℕ} (h : Assembled filename len (n + 1) s)
    (hne : ∀ k < len, filename k ≠ 0) (hzero : filename len = 0)
    (hread : s'.filename = readParts s.filename (n * 13)
      (longDentry order checksum fun k => filename (n * charLongName + k)))
    (hcnt : s'.cnt = 0) : Assembled filename len n s' := by
  constructor
  case char =>
    intro x hlo hx
    rw [hread]
    rcases Nat.lt_or_ge x (13 * (n + 1)) with hin | hout
    · obtain ⟨k, rfl⟩ : ∃ k, x = n * 13 + k := ⟨x - n * 13, by omega⟩
      exact readParts_char (by omega) fun j hj => hne _ (by rw [charLongName]; omega)
    · rw [readParts_outside (by omega)]
      exact h.char x hout hx
  case ends =>
    rw [hread]
    by_cases hin : n * 13 ≤ len ∧ len < n * 13 + 13
    · obtain ⟨k, rfl⟩ : ∃ k, len = n * 13 + k := ⟨len - n * 13, by omega⟩
      exact readParts_zero (by omega) (fun j hj => hne _ (by rw [charLongName]; omega)) hzero h.ends
    · rw [readParts_outside (by omega)]
      exact h.ends
  case cnt => exact hcnt

attribute [local simp] readSlots

/-- The parts below the last one. -/
theorem readSlots_rest (checksum : Byte) (hne : ∀ k < len, filename k ≠ 0) (hzero : filename len = 0)
    (hn : n < entcnt) (hcnt : entcnt ≤ 20) (h : Assembled filename len n s) :
    ∃ s', readSlots (longDentries filename checksum entcnt n) s = some s' ∧
      Assembled filename len 0 s' ∧ s'.count = s.count := by
  induction n generalizing s with
  | zero => exact ⟨s, rfl, h, rfl⟩
  | succ n ih =>
      obtain ⟨s₁, hslot, hread, hcnt₁, hcount⟩ := enextSlot_part checksum
        (fun k => filename (n * charLongName + k)) (by omega : n < 20) h.cnt
      obtain ⟨s', hrun, hall, hkeep⟩ := ih (by omega) (h.part hne hzero hread hcnt₁)
      refine ⟨s', ?_, hall, hkeep.trans hcount⟩
      rw [longDentries, if_neg (by omega), readSlots, hslot]
      exact hrun

/-- Behind the first two slots, `emake` puts the slots of the name and a short-name slot. -/
theorem emake_eq (hdir : (fs.ent dp).isDirectory = true) (haligned : off % 32 = 0)
    (hoff : 32 < off) :
    emake fat fs dp ep off =
      (putDentries fat dp (nameSlots (fs.ent ep).filename) fs off).bind fun r =>
        putDentry fat r.1 dp r.2 (nameShort (fs.ent ep).filename (r.1.ent ep)) := by
  rw [emake, if_neg (by simp [hdir, haligned]), if_neg (by omega)]
  simp only [List.length_map, List.length_range, emakeLongs_eq]
  rfl

/-- The slots of a name are read back as the name, and the first one tells their number
and one more. -/
theorem longDentries_round_trip (h : IsCString filename name) (hname : name ≠ [])
    (hlen : name.length ≤ 255) (hne : ∀ c ∈ name, c ≠ 0) (checksum : Byte) (s : Enext)
    (hcnt : s.cnt = 0) (hcounting : s.counting = true) (hzero : ∀ k ≤ 255, s.filename k = 0) :
    let entcnt := longSlots (strlen filename)
    ∃ s', readSlots (longDentries filename checksum entcnt entcnt) s = some s' ∧
      IsCString s'.filename name ∧
      s'.count = (longDentries filename checksum entcnt entcnt).length + 1 := by
  have hpos := List.length_pos_iff.mpr hname
  have hchars : ∀ k < name.length, filename k ≠ 0 := fun k hk => h.filename_ne hne hk
  obtain ⟨n, hn⟩ : ∃ n, longSlots name.length = n + 1 :=
    ⟨longSlots name.length - 1, by rw [longSlots, charLongName]; omega⟩
  have hparts : 13 * n < name.length ∧ name.length ≤ 13 * (n + 1) ∧ n < 20 := by
    rw [longSlots, charLongName] at hn
    omega
  obtain ⟨hlo, hhi, htwenty⟩ := hparts
  have hstart : Assembled filename name.length (n + 1) s :=
    ⟨fun x hx hlt => by omega, hzero _ hlen, hcnt⟩
  obtain ⟨s₁, hslot, hread, hcnt₁, hcount⟩ := enextSlot_last checksum
    (fun k => filename (n * charLongName + k)) htwenty hcnt hcounting
  obtain ⟨s', hrun, hall, hkeep⟩ := readSlots_rest checksum hchars h.ends
    (Nat.lt_succ_self n) (by omega) (hstart.part hchars h.ends hread hcnt₁)
  simp only [strlen_eq h hne hlen, hn, length_longDentries]
  refine ⟨s', ?_, ⟨fun k hk => ?_, hall.ends⟩, hkeep.trans hcount⟩
  · rw [longDentries, if_pos rfl, readSlots, hslot]
    exact hrun
  · rw [hall.char k (by omega) hk, h.char k hk]

/-- For every name of 1 to 255 bytes, what `emake` puts in front of the short-name slot is
read back by `enext`, into a buffer that is zero up to byte 255, as the same string, and the
count taken from the first slot is the number of these slots and one more. -/
theorem emake_round_trip (h : IsCString (fs.ent ep).filename name) (hname : name ≠ [])
    (hlen : name.length ≤ 255) (hne : ∀ c ∈ name, c ≠ 0)
    (hdir : (fs.ent dp).isDirectory = true) (haligned : off % 32 = 0) (hoff : 32 < off) :
    emake fat fs dp ep off =
        ((putDentries fat dp (nameSlots (fs.ent ep).filename) fs off).bind fun r =>
          putDentry fat r.1 dp r.2 (nameShort (fs.ent ep).filename (r.1.ent ep))) ∧
      ∀ s : Enext, s.cnt = 0 → s.counting = true → (∀ k ≤ 255, s.filename k = 0) →
        ∃ s', readSlots (nameSlots (fs.ent ep).filename) s = some s' ∧
          IsCString s'.filename name ∧ s'.count = (nameSlots (fs.ent ep).filename).length + 1 :=
  ⟨emake_eq hdir haligned hoff, fun s hcnt hcounting hzero =>
    longDentries_round_trip h hname hlen hne _ s hcnt hcounting hzero⟩

end Name

/-- A directory with an entry that is called `a`. -/
def lettersFs : FileSystem where
  disk := ⟨fun _ => 0, [], []⟩
  ent := fun _ => ⟨cstring [0x61], attrDirectory, 2, 0, 2, 0, false, 1, 1, 64, 0⟩
  lru := []

def emptyName : Enext := ⟨fun _ => 0, 0, 0, true⟩

/-- The slot of a name of one letter. -/
theorem emake_round_trip_letter :
    emake ⟨2, 2, 512, 512, 1, 1, 4, 1⟩ lettersFs 0 1 64 =
      ((putDentries ⟨2, 2, 512, 512, 1, 1, 4, 1⟩ 0 (nameSlots (cstring [0x61])) lettersFs 64).bind
        fun r => putDentry ⟨2, 2, 512, 512, 1, 1, 4, 1⟩ r.1 0 r.2
          (nameShort (cstring [0x61]) (r.1.ent 1))) ∧
      ∃ s', readSlots (nameSlots (cstring [0x61])) emptyName = some s' ∧
        IsCString s'.filename [0x61] ∧ s'.count = (nameSlots (cstring [0x61])).length + 1 := by
  have hstring : IsCString (lettersFs.ent 1).filename [0x61] := by
    refine ⟨fun k hk => ?_, rfl⟩
    obtain rfl : k = 0 := by simpa using hk
    rfl
  have hround : emake ⟨2, 2, 512, 512, 1, 1, 4, 1⟩ lettersFs 0 1 64 = _ ∧ _ :=
    emake_round_trip hstring (by simp) (by simp) (by simp) (by decide) (by decide) (by decide)
  exact ⟨hround.1, hround.2 emptyName rfl rfl fun _ _ => rfl⟩

/-! ## The places of the stores -/

/-- The stores of `snstr` to its destination, in their order. -/
def snstrStores (src : ℕ → ℕ) : ℕ → ℕ → List (ℕ × Byte)
  | 0, _ => []
  | len + 1, i =>
      if src i = 0 then (List.range len).map fun k => (i + k, 0)
      else (i, BitVec.ofNat 8 (src i)) :: snstrStores src len (i + 1)

/-- The stores of `read_entry_name`, by their place behind its argument `buffer`. -/
def entryNameStores (d : Dentry) : List (ℕ × Byte) :=
  if (d.byte 11).toNat = attrLongName then
    snstrStores (fun k => d.value (1 + 2 * k) 2) 5 0 ++
      (snstrStores (fun k => d.value (14 + 2 * k) 2) 6 0).map (fun p => (5 + p.1, p.2)) ++
      (snstrStores (fun k => d.value (28 + 2 * k) 2) 2 0).map fun p => (11 + p.1, p.2)
  else
    ((List.range (charShortName + 2)).map fun k => (k, 0)) ++
      (List.range (shortNameBytes d).length).map fun k => (k, cstring (shortNameBytes d) k)

def applyStores (dst : ℕ → Byte) (base : ℕ) (stores : List (ℕ × Byte)) : ℕ → Byte :=
  stores.foldl (fun buffer p => Function.update buffer (base + p.1) p.2) dst

section Stores
variable {dst : ℕ → Byte} {src : ℕ → ℕ} {base len i x : ℕ} {stores stores' : List (ℕ × Byte)}
  {d : Dentry}

theorem applyStores_append : applyStores dst base (stores ++ stores') =
    applyStores (applyStores dst base stores) base stores' :=
  List.foldl_append

theorem applyStores_shift (n : ℕ) :
    applyStores dst base (stores.map fun p => (n + p.1, p.2)) = applyStores dst (base + n) stores := by
  simp only [applyStores, List.foldl_map, Nat.add_assoc]

theorem applyStores_outside (h : ∀ p ∈ stores, base + p.1 ≠ x) :
    applyStores dst base stores x = dst x := by
  induction stores generalizing dst with
  | nil => rfl
  | cons p stores ih =>
      have hrest : applyStores (Function.update dst (base + p.1) p.2) base stores x = _ :=
        ih fun q hq => h q (List.mem_cons_of_mem _ hq)
      exact hrest.trans (Function.update_of_ne (h p List.mem_cons_self).symm _ _)

theorem copyBytes_eq_applyStores (dst : ℕ → Byte) (base : ℕ) (bytes : ℕ → Byte) (n : ℕ) :
    copyBytes dst base bytes n = applyStores dst base ((List.range n).map fun k => (k, bytes k)) := by
  induction n with
  | zero => exact copyBytes_zero dst base bytes
  | succ n ih =>
      rw [List.range_succ, List.map_append, applyStores_append, ← ih]
      funext a
      simp only [applyStores, List.map_cons, List.map_nil, List.foldl_cons, List.foldl_nil]
      by_cases ha : a = base + n
      · subst ha
        rw [copyBytes_inside (by omega) (by omega), Function.update_self, Nat.add_sub_cancel_left]
      · rw [Function.update_of_ne ha]
        by_cases hin : base ≤ a ∧ a < base + n
        · rw [copyBytes_inside hin.1 (by omega), copyBytes_inside hin.1 hin.2]
        · rw [copyBytes_outside (by omega), copyBytes_outside (by omega)]

theorem memset_eq_applyStores (dst : ℕ → Byte) (base : ℕ) (c : Byte) (n : ℕ) :
    memset dst base c n = applyStores dst base ((List.range n).map fun k => (k, c)) :=
  copyBytes_eq_applyStores dst base (fun _ => c) n

attribute [local simp] snstrStores

theorem snstr_eq_applyStores :
    snstr dst base src len i = applyStores dst base (snstrStores src len i) := by
  induction len generalizing dst i with
  | zero => rfl
  | succ len ih =>
      rw [snstr, snstrStores]
      split
      · rw [memset_eq_applyStores, ← applyStores_shift, List.map_map]
        rfl
      · exact ih

/-- What `read_entry_name` does is these stores. -/
theorem readEntryName_eq_applyStores (dst : ℕ → Byte) (base : ℕ) (d : Dentry) :
    readEntryName dst base d = applyStores dst base (entryNameStores d) := by
  rw [readEntryName, entryNameStores]
  split
  · rw [applyStores_append, applyStores_append, applyStores_shift, applyStores_shift]
    simp only [snstr_eq_applyStores]
  · rw [applyStores_append]
    simp only [copyBytes_eq_applyStores, memset_eq_applyStores]

theorem snstrStores_lt {p : ℕ × Byte} (hp : p ∈ snstrStores src len i) : p.1 < i + len := by
  induction len generalizing i with
  | zero => simp [snstrStores] at hp
  | succ len ih =>
      rw [snstrStores] at hp
      split at hp
      · obtain ⟨k, hk, rfl⟩ := List.mem_map.mp hp
        have := List.mem_range.mp hk
        show i + k < _
        omega
      · rcases List.mem_cons.mp hp with rfl | hp
        · show i < _
          omega
        · have := ih hp
          omega

theorem length_shortNameBytes (d : Dentry) : (shortNameBytes d).length ≤ 12 := by
  have hname := (List.takeWhile_prefix (l := (List.range 8).map d.byte) (· != 0x20)).length_le
  have hext := (List.takeWhile_prefix (l := (List.range 3).map fun k => d.byte (8 + k))
    (· != 0x20)).length_le
  rw [List.length_map, List.length_range] at hname hext
  have hdot : (if d.byte 8 = 0x20 then [] else [(0x2E : Byte)]).length ≤ 1 := by
    split
    · exact Nat.zero_le 1
    · exact le_rfl
  simp only [shortNameBytes, List.length_append]
  omega

theorem entryNameStores_lt {p : ℕ × Byte} (hp : p ∈ entryNameStores d) : p.1 < 13 := by
  rw [entryNameStores] at hp
  split at hp
  · rw [List.mem_append, List.mem_append] at hp
    rcases hp with (hp | hp) | hp
    · have := snstrStores_lt hp
      omega
    · obtain ⟨q, hq, rfl⟩ := List.mem_map.mp hp
      have := snstrStores_lt hq
      show 5 + q.1 < 13
      omega
    · obtain ⟨q, hq, rfl⟩ := List.mem_map.mp hp
      have := snstrStores_lt hq
      show 11 + q.1 < 13
      omega
  · rw [List.mem_append] at hp
    rcases hp with hp | hp
    · obtain ⟨k, hk, rfl⟩ := List.mem_map.mp hp
      exact List.mem_range.mp hk
    · obtain ⟨k, hk, rfl⟩ := List.mem_map.mp hp
      have := List.mem_range.mp hk
      have := length_shortNameBytes d
      show k < 13
      omega

/-- The third part of a long-name slot always stores its first byte. -/
theorem entryNameStores_eleven (h : (d.byte 11).toNat = attrLongName) :
    ∃ p ∈ entryNameStores d, p.1 = 11 := by
  obtain ⟨p, hp, hzero⟩ : ∃ p ∈ snstrStores (fun k => d.value (28 + 2 * k) 2) 2 0, p.1 = 0 := by
    rw [snstrStores]
    split
    · exact ⟨(0, 0), by simp, rfl⟩
    · exact ⟨_, List.mem_cons_self, rfl⟩
  refine ⟨(11 + p.1, p.2), ?_, by rw [hzero]⟩
  rw [entryNameStores, if_pos h]
  exact List.mem_append_right _ (List.mem_map.mpr ⟨p, hp, rfl⟩)

theorem readEntryName_outside (h : x < base ∨ base + 13 ≤ x) :
    readEntryName dst base d x = dst x := by
  rw [readEntryName_eq_applyStores]
  apply applyStores_outside
  intro p hp
  have := entryNameStores_lt hp
  omega

end Stores

/-! ## The stores of a call of `enext` -/

/-- The slots that the loop of `enext` reads in its first rounds, with its state at each. -/
def slotVisits (fat : Fat32) (dp : ℕ) : ℕ → FileSystem → ℕ → Enext → List (Dentry × Enext)
  | 0, _, _, _ => []
  | fuel + 1, fs, off, s =>
      match relocEnt fat fs dp off false with
      | none => []
      | some (off2, fs) =>
          if off2 = minusOne then []
          else
            match rwClusRead fat fs.disk (fs.ent dp).curClus (kernelCopy []) off2 32 with
            | none => []
            | some (got, de) =>
                if got ≠ 32 then []
                else
                  (de, s) :: match enextSlot de s with
                    | some (.more s) => slotVisits fat dp fuel fs ((off + 32) % 2 ^ 32) s
                    | _ => []

/-- The state in which a call of `enext` enters its loop. -/
def enextStart (fs : FileSystem) (ep count : ℕ) : Enext :=
  ⟨memset (fs.ent ep).filename 0 0 (fat32MaxFilename + 1), 0, count, true⟩

def enextEnters (fs : FileSystem) (dp ep off : ℕ) : Bool :=
  (fs.ent dp).isDirectory && decide ((fs.ent ep).valid = 0 ∧ off % 32 = 0 ∧ (fs.ent dp).valid = 1)

/-- The slots that a call reads in its first `n` rounds. -/
def enextReads (fat : Fat32) (fs : FileSystem) (dp ep off count n : ℕ) : List (Dentry × Enext) :=
  if enextEnters fs dp ep off then slotVisits fat dp n fs off (enextStart fs ep count) else []

/-- Whether a slot is taken as a part of a long name. The store through a null `count`
comes before it. -/
def DecodesPart (de : Dentry) (s : Enext) : Prop :=
  (de.byte 0).toNat ≠ endOfEntry ∧ (de.byte 0).toNat ≠ emptyEntry ∧ s.cnt = 0 ∧
    (de.byte 11).toNat = attrLongName ∧
      ((de.byte 0).toNat &&& lastLongEntry = 0 ∨ s.counting = true)

def TakesShort (de : Dentry) (s : Enext) : Prop :=
  (de.byte 0).toNat ≠ endOfEntry ∧ (de.byte 0).toNat ≠ emptyEntry ∧ s.cnt = 0 ∧
    (de.byte 11).toNat ≠ attrLongName ∧ s.counting = true

instance (de : Dentry) (s : Enext) : Decidable (DecodesPart de s) :=
  inferInstanceAs (Decidable (_ ∧ _))

instance (de : Dentry) (s : Enext) : Decidable (TakesShort de s) :=
  inferInstanceAs (Decidable (_ ∧ _))

/-- The number of the part that the order byte tells. -/
def partNumber (de : Dentry) : ℕ := dropLast (de.byte 0).toNat

/-- Where in `ep->filename` a round stores. -/
def roundStores (de : Dentry) (s : Enext) : List ℤ :=
  if DecodesPart de s then
    (entryNameStores de).map fun p => ((partNumber de : ℤ) - 1) * charLongName + p.1
  else if TakesShort de s then (entryNameStores de).map fun p => (p.1 : ℤ)
  else []

/-- Where in `ep->filename` a call stores in its first `n` rounds. -/
def enextStores (fat : Fat32) (fs : FileSystem) (dp ep off count n : ℕ) : List ℤ :=
  (if enextEnters fs dp ep off then (List.range (fat32MaxFilename + 1)).map Int.ofNat
    else []) ++
    (enextReads fat fs dp ep off count n).flatMap fun v => roundStores v.1 v.2

section Call
variable {fat : Fat32} {fs fs' : FileSystem} {dp ep off count n : ℕ} {de : Dentry} {s s' : Enext}
  {info : Option Dentry} {code : ℤ}

theorem roundStores_part (h : DecodesPart de s) :
    (∀ i ∈ roundStores de s, 0 ≤ i ∧ i ≤ 255) ↔ 1 ≤ partNumber de ∧ partNumber de ≤ 19 := by
  rw [roundStores, if_pos h, charLongName]
  constructor
  · intro hall
    obtain ⟨p, hp, heleven⟩ := entryNameStores_eleven h.2.2.2.1
    have := hall _ (List.mem_map.mpr ⟨p, hp, rfl⟩)
    omega
  · rintro ⟨hlo, hhi⟩ i hi
    obtain ⟨p, hp, rfl⟩ := List.mem_map.mp hi
    have := entryNameStores_lt hp
    omega

theorem roundStores_other (h : ¬ DecodesPart de s) :
    ∀ i ∈ roundStores de s, 0 ≤ i ∧ i ≤ 255 := by
  intro i hi
  rw [roundStores, if_neg h] at hi
  split at hi
  · obtain ⟨p, hp, rfl⟩ := List.mem_map.mp hi
    have := entryNameStores_lt hp
    omega
  · simp at hi

/-- A call stores inside the name exactly if the parts that it decodes are those of 19 slots. -/
theorem enextStores_inside_iff :
    (∀ i ∈ enextStores fat fs dp ep off count n, 0 ≤ i ∧ i ≤ 255) ↔
      ∀ v ∈ enextReads fat fs dp ep off count n, DecodesPart v.1 v.2 →
        1 ≤ partNumber v.1 ∧ partNumber v.1 ≤ 19 := by
  constructor
  · intro hall v hv hpart
    refine (roundStores_part hpart).mp fun i hi => hall i ?_
    exact List.mem_append_right _ (List.mem_flatMap.mpr ⟨v, hv, hi⟩)
  · intro hparts i hi
    rcases List.mem_append.mp hi with hi | hi
    · split at hi
      · obtain ⟨k, hk, rfl⟩ := List.mem_map.mp hi
        have := List.mem_range.mp hk
        rw [fat32MaxFilename] at this
        exact ⟨Int.natCast_nonneg k, Int.ofNat_le.mpr (Nat.le_of_lt_succ this)⟩
      · simp at hi
    · obtain ⟨v, hv, hi⟩ := List.mem_flatMap.mp hi
      by_cases hpart : DecodesPart v.1 v.2
      · exact (roundStores_part hpart).mpr (hparts v hv hpart) i hi
      · exact roundStores_other hpart i hi

/-- The state that a round leaves. -/
def EnextNext.state : EnextNext → Enext
  | .more s => s
  | .done _ s _ => s

/-- Parts up to number 19 and a short name leave the last byte of the name alone. -/
theorem enextSlot_end {next : EnextNext} (hpart : DecodesPart de s → partNumber de ≤ 19)
    (hslot : enextSlot de s = some next) : next.state.filename 255 = s.filename 255 := by
  have hpart' : ∀ base, base ≤ 240 → readEntryName s.filename base de 255 = s.filename 255 :=
    fun base hbase => readEntryName_outside (by omega)
  unfold enextSlot at hslot
  dsimp only at hslot
  split at hslot
  · cases hslot
    rfl
  split at hslot
  · cases hslot
    rfl
  rename_i hend hempty
  split at hslot
  · split at hslot
    · cases hslot
      rfl
    · cases hslot
  rename_i hcnt
  split at hslot
  · rename_i hlong
    split at hslot
    · cases hslot
    split at hslot
    · rename_i hflag
      cases hslot
      have := hpart ⟨hend, hempty, not_not.mp hcnt, hlong, .inl hflag⟩
      exact hpart' _ (by rw [partNumber] at this; rw [charLongName]; omega)
    · split at hslot
      · rename_i hcounting
        cases hslot
        have := hpart ⟨hend, hempty, not_not.mp hcnt, hlong, .inr hcounting⟩
        exact hpart' _ (by rw [partNumber] at this; rw [charLongName]; omega)
      · cases hslot
  · split at hslot
    · cases hslot
      exact hpart' 0 (by omega)
    · cases hslot
      rfl

theorem enextLoop_end
    (hparts : ∀ v ∈ slotVisits fat dp n fs off s, DecodesPart v.1 v.2 → partNumber v.1 ≤ 19)
    (hloop : enextLoop fat dp n fs off s = some (code, s', info, fs')) :
    s'.filename 255 = s.filename 255 := by
  induction n generalizing fs off s with
  | zero => simp [enextLoop] at hloop
  | succ n ih =>
      rw [enextLoop] at hloop
      rw [slotVisits] at hparts
      cases hreloc : relocEnt fat fs dp off false with
      | none => simp [hreloc] at hloop
      | some r =>
          simp only [hreloc, Option.bind_eq_bind, Option.bind_some] at hloop hparts
          by_cases hend : r.1 = minusOne
          · simp only [hend, if_true, Option.pure_def, Option.some.injEq, Prod.mk.injEq] at hloop
            rw [← hloop.2.1]
          · simp only [if_neg hend] at hloop hparts
            cases hread : rwClusRead fat r.2.disk (r.2.ent dp).curClus (kernelCopy []) r.1 32 with
            | none => simp [hread] at hloop
            | some q =>
                simp only [hread, Option.bind_some] at hloop hparts
                by_cases hgot : q.1 ≠ 32
                · simp only [if_pos hgot, Option.pure_def, Option.some.injEq,
                    Prod.mk.injEq] at hloop
                  rw [← hloop.2.1]
                · simp only [if_neg hgot] at hloop hparts
                  cases hslot : enextSlot q.2 s with
                  | none => simp [hslot] at hloop
                  | some next =>
                      have hround := enextSlot_end
                        (hparts (q.2, s) List.mem_cons_self) hslot
                      simp only [hslot, Option.bind_some] at hloop hparts
                      cases next with
                      | more s₁ =>
                          rw [ih (fun v hv => hparts v (List.mem_cons_of_mem _ hv)) hloop]
                          exact hround
                      | done code₁ s₁ info₁ =>
                          simp only [Option.pure_def, Option.some.injEq, Prod.mk.injEq] at hloop
                          rw [← hloop.2.1]
                          exact hround

/-- What a call of `enext` that returns did. -/
theorem enext_inv {count' : ℕ} (hcode : code ≠ -1)
    (h : enext fat fs dp ep off count = some (code, count', fs')) :
    enextEnters fs dp ep off = true ∧ ∃ s' info fs₁,
      enextLoop fat dp slotFuel fs off (enextStart fs ep count) = some (code, s', info, fs₁) ∧
        (fs'.ent ep).filename = s'.filename := by
  unfold enext at h
  split at h
  · cases h
  rename_i hchecks
  split at h
  · simp only [Option.some.injEq, Prod.mk.injEq] at h
    exact absurd h.1.symm hcode
  rename_i hvalid
  simp only [not_or, Bool.not_eq_true', Bool.not_eq_false, not_not] at hchecks hvalid
  obtain ⟨hdir, hep, hoff⟩ := hchecks
  refine ⟨by simp [enextEnters, hdir, hep, hoff, hvalid], ?_⟩
  change (enextLoop fat dp slotFuel fs off (enextStart fs ep count)).bind _ = _ at h
  obtain ⟨r, hloop, hret⟩ := Option.bind_eq_some_iff.mp h
  obtain ⟨code', s', info, fs₁⟩ := r
  simp only [Option.pure_def, Option.some.injEq, Prod.mk.injEq] at hret
  obtain ⟨rfl, -, rfl⟩ := hret
  refine ⟨s', info, fs₁, hloop, ?_⟩
  cases info <;> simp [readEntryInfo]

/-- For every content of the disk, a call of `enext` stores only inside the name, and
leaves a terminated name when it returns 1, exactly if the order bytes of the long-name
slots that it decodes tell parts 1 to 19. -/
theorem enext_inside_iff (fat : Fat32) (fs : FileSystem) (dp ep off count : ℕ) :
    ((∀ n, ∀ i ∈ enextStores fat fs dp ep off count n, 0 ≤ i ∧ i ≤ 255) ∧
      ∀ count' fs', enext fat fs dp ep off count = some (1, count', fs') →
        ∃ i ≤ 255, (fs'.ent ep).filename i = 0) ↔
    ∀ n, ∀ v ∈ enextReads fat fs dp ep off count n, DecodesPart v.1 v.2 →
      1 ≤ partNumber v.1 ∧ partNumber v.1 ≤ 19 := by
  constructor
  · exact fun h n => enextStores_inside_iff.mp (h.1 n)
  · intro hparts
    refine ⟨fun n => enextStores_inside_iff.mpr (hparts n), fun count' fs' hcall => ?_⟩
    obtain ⟨henters, s', info, fs₁, hloop, hname⟩ := enext_inv (by decide) hcall
    refine ⟨255, le_rfl, ?_⟩
    have hvisits := hparts slotFuel
    rw [enextReads, if_pos henters] at hvisits
    rw [hname, enextLoop_end (fun v hv hpart => (hvisits v hv hpart).2) hloop]
    show memset (fs.ent ep).filename 0 0 (fat32MaxFilename + 1) 255 = 0
    exact memset_inside (Nat.zero_le _) (by decide)

end Call

/-- A directory whose first slot is the last part of a name of 20 parts. -/
def maximalNameFs : FileSystem where
  disk := ⟨fun a => if a = 1024 then 0x54 else if a = 1035 then 0x0F else 0, [], []⟩
  ent := fun i => ⟨fun _ => 0, attrDirectory, 2, 0, 2, 0, false, if i = 0 then 1 else 0, 1, 0, 0⟩
  lru := []

/-- The last part of a name of more than 247 bytes is stored behind the name. -/
theorem enext_stores_outside :
    ¬ ∀ i ∈ enextStores ⟨2, 2, 512, 512, 1, 1, 4, 1⟩ maximalNameFs 0 1 0 0 1, 0 ≤ i ∧ i ≤ 255 := by
  decide +kernel

end K210Os
