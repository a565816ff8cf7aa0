import K210Os.DirectoryLookup
import K210Os.ShortNames
import K210Os.SlotWrites

/-!
# The file of a name

The slots that `emake` writes for a name are those of a file with that name, unless its first
byte is the mark of a deleted slot: then the short-name slot counts as deleted, and the slots
of the long name in front of it lead nowhere.
-/

namespace K210Os

/-- The file that `emake` makes of an entry. -/
def createdFile (filename : ℕ → Byte) (entry : Dirent) : DirFile :=
  ⟨[], nameSlots filename, nameShort filename entry⟩

/-- The file that it makes in one of the first two slots. -/
def dotFile (name : List Byte) (firstClus : ℕ) : DirFile :=
  ⟨[], [], shortDentry (strncpy (cstring name) charShortName 0) attrDirectory firstClus 0⟩

section Names
variable {filename : ℕ → Byte} {name : List Byte} {c : Byte} {n entcnt : ℕ} {checksum : Byte}
  {entry : Dirent} {longs tail gap rest : List Dentry} {de : Dentry} {s s' : Enext}

theorem scanSlots_of_readSlots (h : readSlots longs s = some s') (tail : List Dentry) :
    scanSlots (longs ++ tail) s = scanSlots tail s' := by
  induction longs generalizing s with
  | nil =>
    obtain rfl := Option.some.inj h
    rfl
  | cons de longs ih =>
    rw [readSlots] at h
    rw [List.cons_append, scanSlots]
    cases hslot : enextSlot de s with
    | none =>
      rw [hslot] at h
      cases h
    | some next =>
      rw [hslot] at h
      cases next with
      | more s₁ => exact ih h
      | done code s₁ info => cases h

/-! ## The long name -/

theorem longDentry_order (hn : n < 256) (checksum : Byte) (p : ℕ → Byte) :
    (Dentry.byte (longDentry n checksum p) 0).toNat = n := by
  rw [longDentry_eq]
  exact Nat.mod_eq_of_lt hn

theorem longRest_longDentries (hn : n < entcnt) (hcnt : entcnt ≤ 20) :
    LongRest (longDentries filename checksum entcnt n) := by
  induction n with
  | zero => exact .nil
  | succ n ih =>
    rw [longDentries, if_neg (by omega)]
    refine .cons ?_ longDentry_attr (ih (by omega))
    rw [longDentry_order (by omega), length_longDentries]

theorem longName_longDentries (filename : ℕ → Byte) (checksum : Byte) (hcnt : n < 20) :
    LongName (longDentries filename checksum (n + 1) (n + 1)) := by
  have hbits : ∀ n < 20, (n + 1) ||| lastLongEntry < 256 := by decide
  rw [longDentries, if_pos rfl]
  refine .parts ?_ longDentry_attr ?_ (longRest_longDentries (Nat.lt_succ_self n) (by omega))
  · rw [longDentry_order (hbits n hcnt), length_longDentries]
  · rw [length_longDentries]
    exact hcnt

theorem longName_nameSlots (h : IsCString filename name) (hname : name ≠ [])
    (hlen : name.length ≤ 255) (hne : ∀ c ∈ name, c ≠ 0) :
    LongName (nameSlots filename) ∧ nameSlots filename ≠ [] := by
  have hpos := List.length_pos_iff.mpr hname
  obtain ⟨n, hn⟩ : ∃ n, longSlots name.length = n + 1 :=
    ⟨longSlots name.length - 1, by rw [longSlots, charLongName]; omega⟩
  have htwenty : n < 20 := by
    rw [longSlots, charLongName] at hn
    omega
  have hslots := longName_longDentries filename
    (calChecksum (generateShortname ((List.range (strlen filename)).map filename))) htwenty
  rw [nameSlots, strlen_eq h hne hlen, hn]
  rw [strlen_eq h hne hlen] at hslots
  refine ⟨hslots, fun hnil => ?_⟩
  have := congrArg List.length hnil
  rw [length_longDentries] at this
  exact Nat.succ_ne_zero n this

/-! ## The short name -/

theorem stem_cons (hc : c ≠ 0x2E) (cs : List Byte) :
    ∃ rest, ShortNames.stem (c :: cs) = c :: rest := by
  rw [ShortNames.stem]
  split
  · rename_i hdot
    have hfront := List.rdropWhile_prefix (fun x : Byte => x != 0x2E) (c :: cs)
    have hlast := List.rdropWhile_last_not (fun x : Byte => x != 0x2E) (c :: cs)
    cases hkept : (c :: cs).rdropWhile fun x => x != 0x2E with
    | nil =>
      have hall := List.rdropWhile_eq_nil_iff.mp hkept
      exact absurd (hall 0x2E hdot) (by decide)
    | cons x xs =>
      rw [hkept] at hfront hlast
      obtain ⟨t, ht⟩ := hfront
      obtain rfl : x = c := (List.cons.inj ht).1
      cases xs with
      | nil =>
        have hx := hlast (List.cons_ne_nil _ _)
        simp only [List.getLast_singleton, bne_iff_ne, ne_eq, not_not] at hx
        exact absurd hx hc
      | cons y ys => exact ⟨_, List.dropLast_cons_cons⟩
  · exact ⟨cs, rfl⟩

/-- The first byte of a short name is that of the name, mapped. -/
theorem generateShortname_first (hspace : c ≠ 0x20) (hdot : c ≠ 0x2E) (cs : List Byte)
    (hne : ∀ x ∈ c :: cs, x ≠ 0) (hlen : (c :: cs).length ≤ fat32MaxFilename) :
    ∃ rest, generateShortname (c :: cs) = shortChar c :: rest := by
  obtain ⟨rest, hstem⟩ := stem_cons hdot cs
  have hmapped : ShortNames.mapped (c :: rest) = shortChar c :: ShortNames.mapped rest := by
    rw [ShortNames.mapped, List.filter_cons_of_pos (by simpa using ⟨hspace, hdot⟩)]
    rfl
  rw [ShortNames.generateShortname_eq hne hlen, ShortNames.shortNameOf, hstem, hmapped,
    List.take_succ_cons, ShortNames.padded]
  exact ⟨_, rfl⟩

/-- Mapping a character makes none of the two marks. -/
theorem shortChar_marks (hc : c ≠ 0) : (shortChar c = 0xE5 ↔ c = 0xE5) ∧ shortChar c ≠ 0 := by
  rw [shortChar]
  split
  · rename_i hlower
    constructor
    · bv_omega
    · bv_omega
  · split
    · rename_i hillegal
      refine ⟨⟨fun h => absurd h (by decide), ?_⟩, by decide⟩
      rintro rfl
      exact absurd hillegal (by decide)
    · exact ⟨Iff.rfl, hc⟩

/-! ## The fields of a short-name slot -/

section Fields
variable {src : ℕ → Byte} {attr firstClus fileSize : ℕ}

theorem shortDentry_first :
    Dentry.byte (shortDentry (strncpy src charShortName 0) attr firstClus fileSize) 0 = src 0 := by
  rw [charShortName, strncpy]
  split
  · rename_i hzero
    rw [hzero]
    rfl
  · rfl

theorem value_of_leBytes {m v : ℕ} (h : ∀ k < m, de.byte (n + k) = BitVec.ofNat 8 (v / 256 ^ k)) :
    de.value n m = v % 256 ^ m := by
  rw [← LittleEndian.load_store (fun _ => 0) n m v, Dentry.value]
  apply LittleEndian.load_congr
  intro x hlo hhi
  obtain ⟨k, rfl⟩ := Nat.exists_eq_add_of_le hlo
  rw [h k (by omega), LittleEndian.store, if_pos ⟨hlo, hhi⟩, Nat.add_sub_cancel_left]

theorem shortDentry_fields (hclus : firstClus < 2 ^ 32) (hsize : fileSize < 2 ^ 32)
    (hattr : attr < 256) {short : Dentry}
    (hshort : short = shortDentry (strncpy src charShortName 0) attr firstClus fileSize) :
    (short.byte 11).toNat = attr ∧ short.value 20 2 <<< 16 ||| short.value 26 2 = firstClus ∧
      short.value 28 4 = fileSize := by
  have hname := length_strncpy src charShortName 0
  obtain ⟨name, hlist⟩ : ∃ name, name = strncpy src charShortName 0 := ⟨_, rfl⟩
  rw [← hlist, charShortName] at hname
  rw [← hlist] at hshort
  have hhigh : short.value 20 2 = (firstClus >>> 16) % 256 ^ 2 := by
    apply value_of_leBytes
    intro k hk
    rw [hshort]
    interval_cases k <;> simp [shortDentry, Dentry.byte, leBytes, hname]
  have hlow : short.value 26 2 = firstClus % 256 ^ 2 := by
    apply value_of_leBytes
    intro k hk
    rw [hshort]
    interval_cases k <;> simp [shortDentry, Dentry.byte, leBytes, hname]
  have hbytes : short.value 28 4 = fileSize % 256 ^ 4 := by
    apply value_of_leBytes
    intro k hk
    rw [hshort]
    interval_cases k <;> simp [shortDentry, Dentry.byte, leBytes, hname]
  refine ⟨?_, ?_, ?_⟩
  · rw [hshort]
    simp [shortDentry, Dentry.byte, hname, Nat.mod_eq_of_lt hattr]
  · rw [hhigh, hlow, Nat.shiftRight_eq_div_pow,
      Nat.mod_eq_of_lt (show firstClus / 2 ^ 16 < 256 ^ 2 by omega), Nat.shiftLeft_eq,
      Nat.mul_comm, ← Nat.two_pow_add_eq_or_of_lt (show firstClus % 256 ^ 2 < 2 ^ 16 by omega)]
    omega
  · rw [hbytes, Nat.mod_eq_of_lt (by omega)]

end Fields

/-! ## The file -/

/-- What the entry and its name have to be like. -/
structure Creatable (filename : ℕ → Byte) (name : List Byte) (entry : Dirent) : Prop where
  string : IsCString filename name
  nonempty : name ≠ []
  length : name.length ≤ 255
  chars : ∀ c ∈ name, c ≠ 0
  space : name.head? ≠ some 0x20
  dot : name.head? ≠ some 0x2E
  attr : entry.attr < 256 ∧ entry.attr ≠ attrLongName
  firstClus : entry.firstClus < 2 ^ 32
  fileSize : entry.fileSize < 2 ^ 32

theorem Creatable.chars_of_string (h : Creatable filename name entry) :
    (List.range (strlen filename)).map filename = name := by
  rw [strlen_eq h.string h.chars h.length]
  apply List.ext_getElem (by simp)
  intro k hk hk'
  rw [List.getElem_map, List.getElem_range, h.string.char k hk']

/-- The first byte of the short-name slot. -/
theorem Creatable.short_first (h : Creatable filename name entry) :
    ∃ c cs, name = c :: cs ∧ (createdFile filename entry).short.byte 0 = shortChar c := by
  have hspace := h.space
  have hdot := h.dot
  have hchars := h.chars
  have hlen := h.length
  have hname := h.chars_of_string
  cases hcons : name with
  | nil => exact absurd hcons h.nonempty
  | cons c cs =>
    rw [hcons] at hspace hdot hchars hlen hname
    obtain ⟨rest, hshort⟩ := generateShortname_first (fun hc => hspace (hc ▸ rfl))
      (fun hc => hdot (hc ▸ rfl)) cs hchars hlen
    refine ⟨c, cs, rfl, ?_⟩
    rw [createdFile, nameShort, hname, hshort, shortDentry_first]
    rfl

theorem Creatable.short_deleted (h : Creatable filename name entry) :
    Deleted (createdFile filename entry).short ↔ name.head? = some 0xE5 := by
  obtain ⟨c, cs, rfl, hfirst⟩ := h.short_first
  have hmarks := (shortChar_marks (h.chars c List.mem_cons_self)).1
  rw [Deleted, hfirst, List.head?_cons, Option.some.injEq, ← hmarks, ← BitVec.toNat_inj]
  rfl

theorem Creatable.shows (h : Creatable filename name entry) :
    ((createdFile filename entry).short.byte 11).toNat = entry.attr ∧
      (createdFile filename entry).short.value 20 2 <<< 16 |||
        (createdFile filename entry).short.value 26 2 = entry.firstClus ∧
      (createdFile filename entry).short.value 28 4 = entry.fileSize :=
  shortDentry_fields h.firstClus h.fileSize h.attr.1 rfl

theorem Creatable.wellFormed (h : Creatable filename name entry)
    (hmark : name.head? ≠ some 0xE5) : (createdFile filename entry).WellFormed where
  gap _ hde := nomatch hde
  longs := (longName_nameSlots h.string h.nonempty h.length h.chars).1
  live := by
    refine ⟨fun hdeleted => hmark (h.short_deleted.mp hdeleted), ?_⟩
    obtain ⟨c, cs, rfl, hfirst⟩ := h.short_first
    rw [NeverUsed, hfirst]
    intro hzero
    exact (shortChar_marks (h.chars c List.mem_cons_self)).2 (BitVec.eq_of_toNat_eq hzero)
  short := by
    rw [IsLong, h.shows.1]
    exact h.attr.2

/-- The name of the file is the name that was given. -/
theorem Creatable.reads (h : Creatable filename name entry) :
    IsCString (createdFile filename entry).filename name := by
  obtain ⟨hlong, hne⟩ := longName_nameSlots h.string h.nonempty h.length h.chars
  obtain ⟨s', hread, hstring, -⟩ := longDentries_round_trip h.string h.nonempty h.length h.chars
    (calChecksum (generateShortname ((List.range (strlen filename)).map filename))) emptyName
    rfl rfl fun _ _ => rfl
  have hscan := scanSlots_of_readSlots hread []
  have hlongs := @LongName.scan _ [] hlong hne emptyName rfl rfl
  rw [nameSlots] at hlongs
  rw [hscan, scanSlots, scanSlots, Option.some.injEq, Prod.mk.injEq, Prod.mk.injEq] at hlongs
  have hfilename : (createdFile filename entry).filename = s'.filename := by
    rw [hlongs.2.1, DirFile.filename, DirFile.readName, createdFile, if_neg hne]
    rfl
  rw [hfilename]
  exact hstring

theorem strncmpEq_isCString {p : ℕ → Byte} (h : IsCString p name) (hlen : name.length ≤ n) (i : ℕ)
    (hi : i ≤ name.length) : strncmpEq (cstring name) p (n - i) i = true := by
  induction hn : n - i generalizing i with
  | zero => rfl
  | succ m ih =>
    rw [strncmpEq]
    rcases Nat.lt_or_eq_of_le hi with hin | rfl
    · have hsame : cstring name i = p i := by
        rw [h.char i hin, cstring, List.getD_eq_getElem?_getD, List.getElem?_eq_getElem hin]
        rfl
      split
      · exact ih (i + 1) hin (by omega)
      · simp [hsame]
    · have hzero : cstring name name.length = 0 := by simp [cstring]
      rw [if_neg (by simp [hzero]), hzero, h.ends]
      rfl

theorem Creatable.lookup (h : Creatable filename name entry) :
    strncmpEq (cstring name) (createdFile filename entry).filename fat32MaxFilename 0 = true :=
  strncmpEq_isCString (n := fat32MaxFilename) h.reads h.length 0 (Nat.zero_le _)

theorem barren_unused (hgap : ∀ de ∈ gap, Deleted de) (hrest : ∀ de ∈ rest, NeverUsed de) :
    Barren (gap ++ rest) := fun s _ _ => by
  rw [scanSlots_deleted hgap]
  exact ⟨_, scanSlots_unused hrest _⟩

/-- A long name in front of deleted slots leads nowhere. -/
theorem Creatable.barren (h : Creatable filename name entry) (hmark : name.head? = some 0xE5)
    (hgap : ∀ de ∈ gap, Deleted de) (hrest : ∀ de ∈ rest, NeverUsed de) :
    Barren ((createdFile filename entry).own ++ (gap ++ rest)) := fun s hcnt hcounting => by
  obtain ⟨hlong, hne⟩ := longName_nameSlots h.string h.nonempty h.length h.chars
  have hdeleted : ∀ de ∈ (createdFile filename entry).short :: gap, Deleted de :=
    List.forall_mem_cons.mpr ⟨h.short_deleted.mpr hmark, hgap⟩
  rw [DirFile.own, List.append_assoc, List.singleton_append, ← List.cons_append]
  show ∃ s', scanSlots (nameSlots filename ++ _) s = _
  rw [hlong.scan hne s hcnt hcounting, scanSlots_deleted hdeleted]
  exact ⟨_, scanSlots_unused hrest _⟩

/-! ## `.` and `..` -/

theorem dotFile_first {dots : List Byte} (hfirst : dots.head? = some 0x2E) (firstClus : ℕ) :
    (dotFile dots firstClus).short.byte 0 = 0x2E := by
  rw [dotFile, shortDentry_first]
  cases dots with
  | nil => cases hfirst
  | cons c cs => exact Option.some.inj hfirst

theorem dotFile_wellFormed {dots : List Byte} (hfirst : dots.head? = some 0x2E) (firstClus : ℕ) :
    (dotFile dots firstClus).WellFormed := by
  refine ⟨fun de hde => (nomatch hde), .none, ⟨?_, ?_⟩, ?_⟩
  · rw [Deleted, dotFile_first hfirst]
    decide
  · rw [NeverUsed, dotFile_first hfirst]
    decide
  · simp [IsLong, dotFile, shortDentry, Dentry.byte, length_strncpy, charShortName, attrDirectory,
      attrLongName]

theorem strncmpEq_first {p q : ℕ → Byte} (h : strncmpEq p q (n + 1) 0 = true) : p 0 = q 0 := by
  rw [strncmpEq] at h
  split at h
  · rename_i hboth
    exact hboth.2
  · exact beq_iff_eq.mp h

/-- The name of such a file begins with a dot. -/
theorem dotFile_filename {dots : List Byte} (hfirst : dots.head? = some 0x2E) (firstClus : ℕ) :
    (dotFile dots firstClus).filename 0 = 0x2E := by
  have hshort : ¬ ((dotFile dots firstClus).short.byte 11).toNat = attrLongName :=
    (dotFile_wellFormed hfirst firstClus).short
  have hname : ∃ rest, shortNameBytes (dotFile dots firstClus).short = 0x2E :: rest := by
    rw [shortNameBytes, List.range_succ_eq_map, List.map_cons, dotFile_first hfirst,
      List.takeWhile_cons_of_pos (by decide)]
    exact ⟨_, rfl⟩
  obtain ⟨rest, hrest⟩ := hname
  have hlongs : (dotFile dots firstClus).longs = [] := rfl
  rw [DirFile.filename, DirFile.readName, if_pos hlongs, readEntryName, if_neg hshort, hrest]
  exact copyBytes_inside le_rfl (Nat.succ_pos _)

end Names

end K210Os
