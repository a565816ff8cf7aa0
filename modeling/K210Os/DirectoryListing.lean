import K210Os.DirectoryScan

/-!
# Well-formed directories

A well-formed directory is a list of files and behind them slots that were never used. A
file has the slots of its long name, the last part first, and its short-name slot; in front
of it may lie slots of deleted files. `enext` tells the runs of deleted slots and the files
one after the other, each with the number of its slots.
-/

namespace K210Os

open LinkedChain

def Deleted (de : Dentry) : Prop := (de.byte 0).toNat = emptyEntry

def NeverUsed (de : Dentry) : Prop := (de.byte 0).toNat = endOfEntry

/-- A slot of a file that is there. -/
def Live (de : Dentry) : Prop := ¬ Deleted de ∧ ¬ NeverUsed de

def IsLong (de : Dentry) : Prop := (de.byte 11).toNat = attrLongName

section Decide
variable (de : Dentry)

instance : Decidable (Deleted de) := inferInstanceAs (Decidable (_ = _))

instance : Decidable (NeverUsed de) := inferInstanceAs (Decidable (_ = _))

instance : Decidable (Live de) := inferInstanceAs (Decidable (_ ∧ _))

instance : Decidable (IsLong de) := inferInstanceAs (Decidable (_ = _))

end Decide

/-- The parts of a long name behind its last one, in falling order down to 1. -/
inductive LongRest : List Dentry → Prop
  | nil : LongRest []
  | cons {de : Dentry} {des : List Dentry} : (de.byte 0).toNat = des.length + 1 → IsLong de →
      LongRest des → LongRest (de :: des)

/-- The long-name slots of a file, none or up to 20. -/
inductive LongName : List Dentry → Prop
  | none : LongName []
  | parts {de : Dentry} {des : List Dentry} :
      (de.byte 0).toNat = (des.length + 1) ||| lastLongEntry → IsLong de → des.length < 20 →
        LongRest des → LongName (de :: des)

/-- A file of a directory, with the deleted slots in front of it. -/
structure DirFile where
  gap : List Dentry
  longs : List Dentry
  short : Dentry

def DirFile.own (f : DirFile) : List Dentry := f.longs ++ [f.short]

def DirFile.slots (f : DirFile) : List Dentry := f.gap ++ f.own

structure DirFile.WellFormed (f : DirFile) : Prop where
  gap : ∀ de ∈ f.gap, Deleted de
  longs : LongName f.longs
  live : Live f.short
  short : ¬ IsLong f.short

/-- The slots of a directory: its files, deleted slots behind them, and the unused ones. -/
structure Listing where
  files : List DirFile
  gap : List Dentry
  rest : List Dentry

def Listing.used (l : Listing) : List Dentry := l.files.flatMap DirFile.slots

def Listing.slots (l : Listing) : List Dentry := l.used ++ (l.gap ++ l.rest)

structure Listing.WellFormed (l : Listing) : Prop where
  files : ∀ f ∈ l.files, f.WellFormed
  gap : ∀ de ∈ l.gap, Deleted de
  rest : ∀ de ∈ l.rest, NeverUsed de

/-! ## Names -/

/-- The parts of a long name put together, each at the place that its number tells. -/
def readLongs (buffer : ℕ → Byte) (longs : List Dentry) : ℕ → Byte :=
  longs.foldl (fun buffer de => readEntryName buffer ((partNumber de - 1) * charLongName) de) buffer

def DirFile.readName (f : DirFile) (buffer : ℕ → Byte) : ℕ → Byte :=
  if f.longs = [] then readEntryName buffer 0 f.short else readLongs buffer f.longs

/-- The name of a file. -/
def DirFile.filename (f : DirFile) : ℕ → Byte := f.readName fun _ => 0

section Name
variable {buffer buffer' p q q' : ℕ → Byte} {base x n i : ℕ} {f : DirFile} {d : Dentry}

theorem applyStores_congr (stores : List (ℕ × Byte)) (h : buffer x = buffer' x) :
    applyStores buffer base stores x = applyStores buffer' base stores x := by
  induction stores generalizing buffer buffer' with
  | nil => exact h
  | cons store stores ih =>
      rw [applyStores, applyStores, List.foldl_cons, List.foldl_cons]
      apply ih
      rcases eq_or_ne x (base + store.1) with rfl | hne
      · rw [Function.update_self, Function.update_self]
      · rw [Function.update_of_ne hne, Function.update_of_ne hne, h]

theorem readEntryName_congr (h : buffer x = buffer' x) :
    readEntryName buffer base d x = readEntryName buffer' base d x := by
  rw [readEntryName_eq_applyStores, readEntryName_eq_applyStores]
  exact applyStores_congr _ h

theorem readLongs_congr (longs : List Dentry) (h : buffer x = buffer' x) :
    readLongs buffer longs x = readLongs buffer' longs x := by
  induction longs generalizing buffer buffer' with
  | nil => exact h
  | cons de longs ih => exact ih (readEntryName_congr h)

/-- A byte of the name does not depend on the bytes around it. -/
theorem DirFile.readName_congr (h : buffer x = buffer' x) :
    f.readName buffer x = f.readName buffer' x := by
  rw [readName, readName]
  split
  · exact readEntryName_congr h
  · exact readLongs_congr _ h

theorem strncmpEq_congr (h : ∀ x < i + n, q x = q' x) : strncmpEq p q n i = strncmpEq p q' n i := by
  induction n generalizing i with
  | zero => rfl
  | succ n ih => rw [strncmpEq, strncmpEq, h i (by omega), ih fun x hx => h x (by omega)]

theorem enextStart_zero (fs : FileSystem) (ep count : ℕ) {x : ℕ} (hx : x ≤ fat32MaxFilename) :
    (enextStart fs ep count).filename x = 0 :=
  memset_inside (Nat.zero_le _) (by rw [fat32MaxFilename] at *; omega)

/-- What is read into a fresh buffer compares as the name of the file. -/
theorem DirFile.strncmpEq_readName (h : ∀ x ≤ fat32MaxFilename, buffer x = 0) :
    strncmpEq p (f.readName buffer) fat32MaxFilename 0 =
      strncmpEq p f.filename fat32MaxFilename 0 := by
  apply strncmpEq_congr
  intro x hx
  exact f.readName_congr (h x (by omega))

end Name

/-! ## Scanning -/

section Scan
variable {de : Dentry} {des gap longs rest : List Dentry} {s : Enext} {f : DirFile}

theorem scanSlots_deleted (h : ∀ de ∈ gap, Deleted de) (s : Enext) :
    scanSlots (gap ++ rest) s = scanSlots rest { s with cnt := s.cnt + gap.length } := by
  induction gap generalizing s with
  | nil => rfl
  | cons de gap ih =>
      have hde : (de.byte 0).toNat = emptyEntry := h de List.mem_cons_self
      have hslot : enextSlot de s = some (.more { s with cnt := s.cnt + 1 }) := by
        rw [enextSlot]
        simp only [hde]
        rfl
      rw [List.cons_append, scanSlots, hslot]
      simp only
      rw [ih fun de hde => h de (List.mem_cons_of_mem _ hde), List.length_cons, Nat.add_assoc,
        Nat.add_comm 1]

theorem scanSlots_unused (h : ∀ de ∈ rest, NeverUsed de) (s : Enext) :
    scanSlots rest s = some (-1, s, none) := by
  cases rest with
  | nil => rfl
  | cons de rest =>
      have hde : (de.byte 0).toNat = endOfEntry := h de List.mem_cons_self
      have hslot : enextSlot de s = some (.done (-1) s none) := by
        rw [enextSlot]
        simp only [hde, if_true]
      rw [scanSlots, hslot]

/-- A live slot ends a run of deleted ones. -/
theorem scanSlots_run (hde : Live de) (hcnt : s.cnt ≠ 0) (hcounting : s.counting = true) :
    scanSlots (de :: des) s = some (0, { s with count := s.cnt }, none) := by
  have hdeleted : ¬ (de.byte 0).toNat = emptyEntry := hde.1
  have hused : ¬ (de.byte 0).toNat = endOfEntry := hde.2
  have hslot : enextSlot de s = some (.done 0 { s with count := s.cnt } none) := by
    rw [enextSlot]
    simp only [if_neg hused, if_neg hdeleted, if_pos hcnt, if_pos hcounting]
  rw [scanSlots, hslot]

theorem LongRest.scan (h : LongRest longs) (hlen : longs.length < 20) (s : Enext)
    (hcnt : s.cnt = 0) : scanSlots (longs ++ rest) s =
      scanSlots rest { s with filename := readLongs s.filename longs } := by
  induction h generalizing s with
  | nil => rfl
  | @cons de des horder hlong hrest ih =>
      rw [List.length_cons] at hlen
      have hbits : ∀ n < 20, n + 1 ≠ endOfEntry ∧ n + 1 ≠ emptyEntry ∧ dropLast (n + 1) = n + 1 ∧
          (n + 1) &&& lastLongEntry = 0 := by decide
      obtain ⟨hend, hempty, hdrop, hflag⟩ := hbits des.length (by omega)
      have hpart : partNumber de = des.length + 1 := by rw [partNumber, horder, hdrop]
      have hslot : enextSlot de s = some (.more { s with
          filename := readEntryName s.filename ((partNumber de - 1) * charLongName) de }) := by
        have hsmall : ¬ (des.length + 1 = 0 ∨ des.length + 1 > 20) := by omega
        rw [enextSlot]
        simp only [horder, if_neg hend, if_neg hempty, hcnt, ne_eq, not_true, if_false,
          if_pos (show (de.byte 11).toNat = attrLongName from hlong), hdrop, if_neg hsmall, hflag,
          if_true, hpart]
      rw [List.cons_append, scanSlots, hslot]
      exact ih (by omega) _ hcnt

theorem LongName.scan (h : LongName longs) (hne : longs ≠ []) (s : Enext) (hcnt : s.cnt = 0)
    (hcounting : s.counting = true) : scanSlots (longs ++ rest) s =
      scanSlots rest { s with
        filename := readLongs s.filename longs
        count := longs.length + 1
        counting := false } := by
  cases h with
  | none => exact absurd rfl hne
  | @parts de des horder hlong hlen hrest =>
      have hbits : ∀ n < 20, (n + 1) ||| lastLongEntry ≠ endOfEntry ∧
          (n + 1) ||| lastLongEntry ≠ emptyEntry ∧ dropLast ((n + 1) ||| lastLongEntry) = n + 1 ∧
          ((n + 1) ||| lastLongEntry) &&& lastLongEntry ≠ 0 := by decide
      obtain ⟨hend, hempty, hdrop, hflag⟩ := hbits des.length hlen
      have hpart : partNumber de = des.length + 1 := by rw [partNumber, horder, hdrop]
      have hslot : enextSlot de s = some (.more { s with
          filename := readEntryName s.filename ((partNumber de - 1) * charLongName) de
          count := des.length + 2
          counting := false }) := by
        have hsmall : ¬ (des.length + 1 = 0 ∨ des.length + 1 > 20) := by omega
        rw [enextSlot]
        simp only [horder, if_neg hend, if_neg hempty, hcnt, ne_eq, not_true, if_false,
          if_pos (show (de.byte 11).toNat = attrLongName from hlong), hdrop, if_neg hsmall,
          if_neg hflag, hcounting, if_true, hpart]
      rw [List.cons_append, scanSlots, hslot]
      exact hrest.scan hlen _ hcnt

/-- A file is told with its name, the number of its slots and its short-name slot. -/
theorem DirFile.WellFormed.scan (h : f.WellFormed) (rest : List Dentry) (s : Enext)
    (hcnt : s.cnt = 0) (hcounting : s.counting = true) : ∃ counting, scanSlots (f.own ++ rest) s =
      some (1, ⟨f.readName s.filename, 0, f.own.length, counting⟩, some f.short) := by
  have hend : ¬ (f.short.byte 0).toNat = endOfEntry := h.live.2
  have hempty : ¬ (f.short.byte 0).toNat = emptyEntry := h.live.1
  have hshort : ¬ (f.short.byte 11).toNat = attrLongName := h.short
  rw [own, List.length_append, List.append_assoc]
  by_cases hlongs : f.longs = []
  · refine ⟨true, ?_⟩
    rw [hlongs, readName, if_pos hlongs]
    simp [scanSlots, enextSlot, hend, hempty, hcnt, hshort, hcounting]
  · refine ⟨false, ?_⟩
    rw [h.longs.scan hlongs s hcnt hcounting, readName, if_neg hlongs]
    simp [scanSlots, enextSlot, hend, hempty, hcnt, hshort]

theorem DirFile.own_ne_nil : f.own ≠ [] := by
  rw [own]
  exact List.append_ne_nil_of_right_ne_nil _ (List.cons_ne_nil _ _)

theorem LongName.head_live (h : LongName longs) (hshort : Live de) :
    ∃ first des, longs ++ [de] = first :: des ∧ Live first := by
  have hlive : ∀ n < 20, (n + 1) ||| lastLongEntry ≠ endOfEntry ∧
      (n + 1) ||| lastLongEntry ≠ emptyEntry := by decide
  cases h with
  | none => exact ⟨de, [], rfl, hshort⟩
  | @parts first des horder _ hlen _ =>
      refine ⟨first, des ++ [de], rfl, ?_, ?_⟩
      · rw [Deleted, horder]
        exact (hlive _ hlen).2
      · rw [NeverUsed, horder]
        exact (hlive _ hlen).1

/-- The first slot of a file is live. -/
theorem DirFile.WellFormed.head_live (h : f.WellFormed) : ∃ de des, f.own = de :: des ∧ Live de :=
  h.longs.head_live h.live

/-- A run of deleted slots in front of a file is told by its length, with an empty name. -/
theorem DirFile.WellFormed.scan_gap (h : f.WellFormed) (hgap : f.gap ≠ []) (rest : List Dentry)
    (s : Enext) (hcnt : s.cnt = 0) (hcounting : s.counting = true) : scanSlots (f.slots ++ rest) s =
      some (0, ⟨s.filename, f.gap.length, f.gap.length, true⟩, none) := by
  obtain ⟨de, des, hown, hlive⟩ := h.head_live
  have hpos : s.cnt + f.gap.length ≠ 0 := by
    have := List.length_pos_iff.mpr hgap
    omega
  rw [slots, List.append_assoc, scanSlots_deleted h.gap, hown, List.cons_append,
    scanSlots_run (s := { s with cnt := s.cnt + f.gap.length }) hlive hpos hcounting]
  simp [hcnt, hcounting]

theorem Listing.WellFormed.scan_end {l : Listing} (h : l.WellFormed) (s : Enext) :
    ∃ s', scanSlots (l.gap ++ l.rest) s = some (-1, s', none) := by
  rw [scanSlots_deleted h.gap]
  exact ⟨_, scanSlots_unused h.rest _⟩

end Scan

end K210Os
