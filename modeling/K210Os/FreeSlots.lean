import K210Os.DirectoryListing
import Mathlib.Order.Bounds.Basic

/-!
# Where `dirlookup` lets a new name go

`while ((type = enext(..) != -1))` compares before it assigns, so that runs of deleted
slots are taken for files with an empty name and passed over. The offset that `dirlookup`
stores for a name that it does not find is that behind the last file.
-/

namespace K210Os

open LinkedChain

/-- From number `i` on there are `n` deleted slots. -/
def Fits (slots : List Dentry) (n i : ℕ) : Prop :=
  ∀ j < n, ∃ de, slots[i + j]? = some de ∧ Deleted de

def UnusedFrom (slots : List Dentry) (i : ℕ) : Prop := ∀ de ∈ slots.drop i, ¬ Live de

/-- The offset that `dirlookup` is to store for a name that takes `n` slots. -/
def RightOffset (slots : List Dentry) (n off : ℕ) : Prop :=
  off % 32 = 0 ∧ off / 32 ≤ slots.length ∧
    (IsLeast {i | Fits slots n i} (off / 32) ∨
      (¬ ∃ i, Fits slots n i) ∧ UnusedFrom slots (off / 32))

/-- A name that the directory with these files does not have. The entry cache agrees. -/
structure Absent (fs : FileSystem) (dp : ℕ) (files : List DirFile) (name : List Byte) : Prop where
  nonempty : name ≠ []
  chars : ∀ c ∈ name, c ≠ 0
  dot : name ≠ [0x2E]
  dotdot : name ≠ [0x2E, 0x2E]
  files : ∀ f ∈ files, strncmpEq (cstring name) f.filename fat32MaxFilename 0 = false
  cached : fs.lru.find? (egetHit fs dp name) = none

/-! ## Comparing names -/

section Compare
variable {p q : ℕ → Byte} {n i : ℕ} {a b : List Byte}

theorem strncmpEq_shift : strncmpEq p q n (i + 1) =
    strncmpEq (fun k => p (k + 1)) (fun k => q (k + 1)) n i := by
  induction n generalizing i with
  | zero => rfl
  | succ n ih => rw [strncmpEq, strncmpEq, ih]

/-- Strings that compare as equal are equal. -/
theorem strncmpEq_cstring (ha : ∀ c ∈ a, c ≠ 0) (hb : ∀ c ∈ b, c ≠ 0) (hlen : b.length < n)
    (h : strncmpEq (cstring a) (cstring b) n 0 = true) : a = b := by
  induction b generalizing a n with
  | nil =>
      obtain ⟨n, rfl⟩ := Nat.exists_eq_add_of_lt hlen
      cases a with
      | nil => rfl
      | cons c a =>
          have hc : c ≠ 0 := ha c List.mem_cons_self
          rw [strncmpEq, if_neg fun h => hc h.2, beq_iff_eq] at h
          exact absurd h hc
  | cons c' b ih =>
      obtain ⟨m, rfl⟩ : ∃ m, n = m + 1 := ⟨n - 1, by omega⟩
      have hc' : c' ≠ 0 := hb c' List.mem_cons_self
      rw [List.length_cons] at hlen
      cases a with
      | nil =>
          rw [strncmpEq, if_neg fun h => h.1 rfl, beq_iff_eq] at h
          exact absurd h.symm hc'
      | cons c a =>
          have hc : c ≠ 0 := ha c List.mem_cons_self
          have hhead : cstring (c :: a) 0 = c ∧ cstring (c' :: b) 0 = c' := ⟨rfl, rfl⟩
          rw [strncmpEq, hhead.1, hhead.2] at h
          by_cases heq : c = c'
          · subst heq
            rw [if_pos ⟨hc, rfl⟩, strncmpEq_shift] at h
            rw [ih (fun c h => ha c (List.mem_cons_of_mem _ h))
              (fun c h => hb c (List.mem_cons_of_mem _ h)) (by omega) h]
          · rw [if_neg fun h => heq h.2, beq_iff_eq] at h
            exact absurd h heq

/-- A name is not the empty one. -/
theorem strncmpEq_empty (hne : a ≠ []) (ha : ∀ c ∈ a, c ≠ 0) (hq : q 0 = 0) :
    strncmpEq (cstring a) q (n + 1) 0 = false := by
  cases a with
  | nil => exact absurd rfl hne
  | cons c a =>
      have hc : c ≠ 0 := ha c List.mem_cons_self
      have hhead : cstring (c :: a) 0 = c := rfl
      rw [strncmpEq, hhead, hq, if_neg fun h => hc h.2]
      simpa using hc

end Compare

/-! ## The rounds of `dirlookup` -/

section Lookup
variable {fat : Fat32} {fs : FileSystem} {cs : List ℕ} {dp ep k count fuel : ℕ} {name : List Byte}
  {poff : Bool} {stored : Option ℕ} {info : Option Dentry} {code : ℤ} {s : Enext} {f : DirFile}
  {rest : List Dentry}

/-- A round that goes on to the slot behind what `enext` told. -/
theorem OpenDirectory.lookup_skip (h : OpenDirectory fat fs dp cs) (hep : (fs.ent ep).valid = 0)
    (hscan : scanSlots ((dirSlots fat fs.disk cs).drop k) (enextStart fs ep count) =
      some (code, s, info)) (hcode : code ≠ -1)
    (hmiss : strncmpEq (cstring name) s.filename fat32MaxFilename 0 = false)
    (hle : k + s.count ≤ (dirSlots fat fs.disk cs).length) (fuel : ℕ) (poff : Bool)
    (stored : Option ℕ) :
    ∃ fs', dirlookupLoop fat name dp ep (fuel + 1) fs (32 * k) count poff stored =
        dirlookupLoop fat name dp ep fuel fs' (32 * (k + s.count)) s.count poff stored ∧
      OpenDirectory fat fs' dp cs ∧ (fs'.ent ep).valid = 0 ∧ fs'.disk = fs.disk := by
  obtain ⟨c, q, hc, hround⟩ := h.dirlookupLoop_round hep name fuel k count poff stored
  have hslots := h.slots_lt
  have hnext : (32 * k + s.count <<< 5) % 2 ^ 32 = 32 * (k + s.count) := by
    rw [Nat.shiftLeft_eq, Nat.mod_eq_of_lt (by omega)]
    omega
  refine ⟨afterEnext fs dp ep c q s info, ?_, h.after hep hc, ?_, rfl⟩
  · rw [hround, hscan]
    simp only [Option.bind_some, if_neg hcode, hmiss, hnext, Bool.false_eq_true, if_false]
  · rw [afterEnext_entry, enextEntry_valid, hep]

/-- Passing a file. -/
theorem OpenDirectory.lookup_own (h : OpenDirectory fat fs dp cs) (hep : (fs.ent ep).valid = 0)
    (hf : f.WellFormed) (hdrop : (dirSlots fat fs.disk cs).drop k = f.own ++ rest)
    (hmiss : strncmpEq (cstring name) f.filename fat32MaxFilename 0 = false) (fuel : ℕ)
    (poff : Bool) (stored : Option ℕ) :
    ∃ fs', dirlookupLoop fat name dp ep (fuel + 1) fs (32 * k) count poff stored =
        dirlookupLoop fat name dp ep fuel fs' (32 * (k + f.own.length)) f.own.length poff stored ∧
      OpenDirectory fat fs' dp cs ∧ (fs'.ent ep).valid = 0 ∧ fs'.disk = fs.disk := by
  obtain ⟨counting, hscan⟩ := hf.scan rest (enextStart fs ep count) rfl rfl
  rw [← hdrop] at hscan
  have hlen := congrArg List.length hdrop
  rw [List.length_drop, List.length_append] at hlen
  have hpos := List.length_pos_iff.mpr f.own_ne_nil
  apply h.lookup_skip hep hscan (by decide)
  · rw [f.strncmpEq_readName fun x hx => enextStart_zero fs ep count hx]
    exact hmiss
  · show k + f.own.length ≤ _
    omega

/-- Passing a run of deleted slots: it is taken for a file with an empty name. -/
theorem OpenDirectory.lookup_gap (h : OpenDirectory fat fs dp cs) (hep : (fs.ent ep).valid = 0)
    (hf : f.WellFormed) (hgap : f.gap ≠ [])
    (hdrop : (dirSlots fat fs.disk cs).drop k = f.slots ++ rest) (hname : name ≠ [])
    (hchars : ∀ c ∈ name, c ≠ 0) (fuel : ℕ) (poff : Bool) (stored : Option ℕ) :
    ∃ fs', dirlookupLoop fat name dp ep (fuel + 1) fs (32 * k) count poff stored =
        dirlookupLoop fat name dp ep fuel fs' (32 * (k + f.gap.length)) f.gap.length poff stored ∧
      OpenDirectory fat fs' dp cs ∧ (fs'.ent ep).valid = 0 ∧ fs'.disk = fs.disk := by
  have hscan := hf.scan_gap hgap rest (enextStart fs ep count) rfl rfl
  rw [← hdrop] at hscan
  have hlen := congrArg List.length hdrop
  rw [List.length_drop, DirFile.slots, List.length_append, List.length_append] at hlen
  have hpos := List.length_pos_iff.mpr f.own_ne_nil
  apply h.lookup_skip hep hscan (by decide)
  · exact strncmpEq_empty hname hchars (enextStart_zero fs ep count (Nat.zero_le _))
  · show k + f.gap.length ≤ _
    omega

theorem OpenDirectory.lookup_file (h : OpenDirectory fat fs dp cs) (hep : (fs.ent ep).valid = 0)
    (hf : f.WellFormed) (hdrop : (dirSlots fat fs.disk cs).drop k = f.slots ++ rest)
    (hname : name ≠ []) (hchars : ∀ c ∈ name, c ≠ 0)
    (hmiss : strncmpEq (cstring name) f.filename fat32MaxFilename 0 = false)
    (count fuel : ℕ) (hfuel : f.slots.length ≤ fuel) (poff : Bool) (stored : Option ℕ) :
    ∃ fs' fuel' count', fuel - f.slots.length ≤ fuel' ∧
      dirlookupLoop fat name dp ep fuel fs (32 * k) count poff stored =
        dirlookupLoop fat name dp ep fuel' fs' (32 * (k + f.slots.length)) count' poff stored ∧
      OpenDirectory fat fs' dp cs ∧ (fs'.ent ep).valid = 0 ∧ fs'.disk = fs.disk := by
  have hpos := List.length_pos_iff.mpr f.own_ne_nil
  have hlen : f.slots.length = f.gap.length + f.own.length := by
    rw [DirFile.slots, List.length_append]
  by_cases hgap : f.gap = []
  · obtain ⟨fuel, rfl⟩ : ∃ n, fuel = n + 1 := ⟨fuel - 1, by omega⟩
    have hown : f.slots = f.own := by rw [DirFile.slots, hgap, List.nil_append]
    rw [hown] at hdrop
    obtain ⟨fs', hrun, hrest⟩ := h.lookup_own hep hf hdrop hmiss fuel poff stored
    rw [hown]
    exact ⟨fs', fuel, f.own.length, by omega, hrun, hrest⟩
  · have hgappos := List.length_pos_iff.mpr hgap
    obtain ⟨fuel, rfl⟩ : ∃ n, fuel = n + 2 := ⟨fuel - 2, by omega⟩
    obtain ⟨fs₁, hrun₁, hopen₁, hep₁, hdisk₁⟩ :=
      h.lookup_gap hep hf hgap hdrop hname hchars (fuel + 1) poff stored
    have hbehind : (dirSlots fat fs₁.disk cs).drop (k + f.gap.length) = f.own ++ rest := by
      rw [hdisk₁, ← List.drop_drop, hdrop, DirFile.slots, List.append_assoc, List.drop_left]
    obtain ⟨fs₂, hrun₂, hopen₂, hep₂, hdisk₂⟩ :=
      hopen₁.lookup_own hep₁ hf hbehind hmiss fuel poff stored
    refine ⟨fs₂, fuel, f.own.length, by omega, ?_, hopen₂, hep₂, hdisk₂.trans hdisk₁⟩
    rw [hrun₁, hrun₂, hlen, Nat.add_assoc]

/-- The rounds on the files that are left, and the last one behind them. -/
theorem OpenDirectory.lookup_files {l : Listing} (hl : l.WellFormed) (hname : name ≠ [])
    (hchars : ∀ c ∈ name, c ≠ 0) (files : List DirFile)
    (hfiles : ∀ f ∈ files, f.WellFormed ∧
      strncmpEq (cstring name) f.filename fat32MaxFilename 0 = false)
    (h : OpenDirectory fat fs dp cs) (hep : (fs.ent ep).valid = 0)
    (hdrop : (dirSlots fat fs.disk cs).drop k = files.flatMap DirFile.slots ++ (l.gap ++ l.rest))
    (hfuel : (files.flatMap DirFile.slots).length < fuel) :
    ∃ fs', dirlookupLoop fat name dp ep fuel fs (32 * k) count poff stored =
      some (none, if poff then some (32 * (k + (files.flatMap DirFile.slots).length)) else stored,
        fs') := by
  induction files generalizing fs k count fuel with
  | nil =>
      obtain ⟨s', hscan⟩ := hl.scan_end (enextStart fs ep count)
      obtain ⟨fuel, rfl⟩ : ∃ n, fuel = n + 1 := ⟨fuel - 1, by omega⟩
      obtain ⟨c, q, -, hround⟩ := h.dirlookupLoop_round hep name fuel k count poff stored
      rw [hround, hdrop, List.flatMap_nil, List.nil_append, hscan]
      exact ⟨_, rfl⟩
  | cons f files ih =>
      obtain ⟨hf, hmiss⟩ := hfiles f List.mem_cons_self
      rw [List.flatMap_cons, List.append_assoc] at hdrop
      rw [List.flatMap_cons, List.length_append] at hfuel
      obtain ⟨fs₁, fuel₁, count₁, hfuel₁, hrun, hopen, hep₁, hdisk⟩ :=
        h.lookup_file hep hf hdrop hname hchars hmiss count fuel (by omega) poff stored
      rw [hrun, List.flatMap_cons, List.length_append, ← Nat.add_assoc]
      apply ih (fun f hf => hfiles f (List.mem_cons_of_mem _ hf)) hopen hep₁
      · rw [hdisk, ← List.drop_drop, hdrop, List.drop_left]
      · omega

/-- `eget` of a name that is not cached. -/
theorem eget_uncached (hmiss : fs.lru.find? (egetHit fs dp name) = none)
    (hfree : ∃ i ∈ fs.lru, (fs.ent i).ref = 0) : ∃ ep, (fs.ent ep).ref = 0 ∧
      eget fs dp name = some (ep, fs.set ep
        { fs.ent ep with ref := 1, off := 0, valid := 0, dirty := false }) := by
  obtain ⟨i, hi, href⟩ := hfree
  have hsome : (fs.lru.reverse.find? fun i => (fs.ent i).ref == 0).isSome :=
    List.find?_isSome.mpr ⟨i, List.mem_reverse.mpr hi, by simp [href]⟩
  obtain ⟨ep, hfind⟩ := Option.isSome_iff_exists.mp hsome
  have hep := List.find?_some hfind
  refine ⟨ep, by simpa using hep, ?_⟩
  rw [eget, hmiss]
  simp only [hfind, Option.map_some]

/-- The offset that `dirlookup` stores for a name that the directory does not have. -/
theorem OpenDirectory.dirlookup_absent {l : Listing} (h : OpenDirectory fat fs dp cs)
    (hl : l.WellFormed) (hslots : dirSlots fat fs.disk cs = l.slots)
    (hname : Absent fs dp l.files name) (hheld : (fs.ent dp).ref ≠ 0)
    (hfree : ∃ i ∈ fs.lru, (fs.ent i).ref = 0) (poff : Bool) :
    ∃ fs', dirlookup fat fs dp name poff =
      some (none, if poff then some (32 * l.used.length) else none, fs') := by
  have hdot : strncmpEq (cstring name) (cstring [0x2E]) fat32MaxFilename 0 = false :=
    Bool.eq_false_iff.mpr fun h => hname.dot (strncmpEq_cstring hname.chars (by decide) (by decide) h)
  have hdotdot : strncmpEq (cstring name) (cstring [0x2E, 0x2E]) fat32MaxFilename 0 = false :=
    Bool.eq_false_iff.mpr fun h =>
      hname.dotdot (strncmpEq_cstring hname.chars (by decide) (by decide) h)
  obtain ⟨ep, href, htaken⟩ := eget_uncached hname.cached hfree
  have hne : ep ≠ dp := by
    rintro rfl
    exact hheld href
  have hent : (fs.set ep { fs.ent ep with ref := 1, off := 0, valid := 0, dirty := false }).ent dp =
      fs.ent dp := FileSystem.set_ent_of_ne _ _ hne.symm
  have hopen : OpenDirectory fat
      (fs.set ep { fs.ent ep with ref := 1, off := 0, valid := 0, dirty := false }) dp cs :=
    h.congr rfl hent
  have hstart : cs[0 / fat.bytsPerClus]? = some (fs.ent dp).firstClus := by
    rw [Nat.zero_div]
    exact h.chain.head_eq
  have hslots_lt := h.slots_lt
  have hfuel : (l.files.flatMap DirFile.slots).length < slotFuel := by
    have hlen := congrArg List.length hslots
    rw [Listing.slots, List.length_append, Listing.used] at hlen
    rw [slotFuel]
    omega
  have hvalid : ((fs.set ep { fs.ent ep with ref := 1, off := 0, valid := 0, dirty := false }).ent
      ep).valid = 0 := by rw [FileSystem.set_ent_self]
  rw [← hent] at hstart
  have hmoved := hopen.move hstart
  obtain ⟨fs', hrun⟩ := hmoved.lookup_files (k := 0) hl hname.nonempty hname.chars l.files
    (fun f hf => ⟨hl.files f hf, hname.files f hf⟩)
    (by rw [FileSystem.set_ent_of_ne _ _ hne, hvalid]) hslots hfuel
  refine ⟨fs', ?_⟩
  rw [dirlookup, if_neg (by simp [h.directory]), hdot, hdotdot, if_neg Bool.false_ne_true,
    if_neg Bool.false_ne_true, if_neg (by simp [h.valid]), htaken]
  simp only [Option.bind_eq_bind, Option.bind_some, hvalid]
  rw [if_neg (by decide), hopen.relocEnt_found hstart, Option.bind_some]
  rw [Nat.zero_add] at hrun
  exact hrun

end Lookup

/-! ## Deleted slots among the live ones -/

section Fits
variable {l : Listing} {n i : ℕ}

theorem Listing.WellFormed.unused_from (h : l.WellFormed) (hi : l.used.length ≤ i) :
    UnusedFrom l.slots i := by
  intro de hde hlive
  rw [Listing.slots, List.drop_append, List.drop_eq_nil_of_le hi, List.nil_append] at hde
  rcases List.mem_append.mp (List.mem_of_mem_drop hde) with hgap | hrest
  · exact hlive.1 (h.gap de hgap)
  · exact hlive.2 (h.rest de hrest)

/-- In front of the unused slots lies the short-name slot of the last file. -/
theorem Listing.WellFormed.used_of_unused (h : l.WellFormed) (hi : UnusedFrom l.slots i) :
    l.used.length ≤ i := by
  by_contra hlt
  rcases List.eq_nil_or_concat l.files with hnil | ⟨files, f, hfiles⟩
  · rw [Listing.used, hnil] at hlt
    exact hlt (Nat.zero_le _)
  · have hused : l.used = files.flatMap DirFile.slots ++ (f.gap ++ f.longs) ++ [f.short] := by
      rw [Listing.used, hfiles]
      simp [DirFile.slots, DirFile.own]
    have hf : f ∈ l.files := by
      rw [hfiles, List.concat_eq_append]
      exact List.mem_append_right _ (List.mem_singleton_self f)
    apply hi f.short _ (h.files f hf).live
    have hlen := congrArg List.length hused
    rw [List.length_append, List.length_singleton] at hlen
    rw [Listing.slots, List.drop_append_of_le_length (by omega), hused,
      List.drop_append_of_le_length (by omega)]
    simp

/-- Behind the last file, where `n` deleted slots fit they fit directly behind it. -/
theorem Listing.WellFormed.fits_used (h : l.WellFormed) (hn : 0 < n) (hfits : Fits l.slots n i)
    (hi : l.used.length ≤ i) : Fits l.slots n l.used.length := by
  have hget : ∀ j, l.slots[l.used.length + j]? = (l.gap ++ l.rest)[j]? := fun j => by
    rw [Listing.slots, List.getElem?_append_right (by omega), Nat.add_sub_cancel_left]
  -- the last of the `n` slots is deleted, so it is not yet one of those that were never used
  obtain ⟨de, hde, hdeleted⟩ := hfits (n - 1) (by omega)
  rw [show i + (n - 1) = l.used.length + (i - l.used.length + (n - 1)) by omega, hget] at hde
  have hinside : i - l.used.length + (n - 1) < l.gap.length := by
    by_contra hge
    rw [List.getElem?_append_right (by omega)] at hde
    have hnever := h.rest de (List.mem_of_getElem? hde)
    rw [Deleted] at hdeleted
    rw [NeverUsed, hdeleted] at hnever
    exact absurd hnever (by decide)
  intro j hj
  have hjlt : j < l.gap.length := by omega
  refine ⟨l.gap[j], ?_, h.gap _ (List.getElem_mem hjlt)⟩
  rw [hget, List.getElem?_append_left hjlt, List.getElem?_eq_getElem hjlt]

theorem Listing.WellFormed.right_iff (h : l.WellFormed) (hn : 0 < n) :
    RightOffset l.slots n (32 * l.used.length) ↔
      ∀ i, Fits l.slots n i → UnusedFrom l.slots i := by
  have hoff : 32 * l.used.length / 32 = l.used.length := Nat.mul_div_cancel_left _ (by decide)
  have hlen : l.used.length ≤ l.slots.length := by
    rw [Listing.slots, List.length_append]
    exact Nat.le_add_right _ _
  rw [RightOffset, hoff]
  constructor
  · rintro ⟨-, -, hleast | ⟨hnone, -⟩⟩ i hfits
    · exact h.unused_from (hleast.2 hfits)
    · exact absurd ⟨i, hfits⟩ hnone
  · intro hall
    refine ⟨Nat.mul_mod_right _ _, hlen, ?_⟩
    by_cases hsome : ∃ i, Fits l.slots n i
    · obtain ⟨i, hfits⟩ := hsome
      left
      refine ⟨h.fits_used hn hfits (h.used_of_unused (hall i hfits)), fun j hj => ?_⟩
      exact h.used_of_unused (hall j hj)
    · exact .inr ⟨hsome, h.unused_from le_rfl⟩

end Fits

/-- For a name that a well-formed directory does not have, `dirlookup` stores an offset from
which on nothing is in use. It is the right one exactly if no run of deleted slots in front
of a file is long enough for the name. -/
theorem OpenDirectory.dirlookup_offset_iff {fat : Fat32} {fs : FileSystem} {dp : ℕ} {cs : List ℕ}
    {l : Listing} {name : List Byte} (h : OpenDirectory fat fs dp cs) (hl : l.WellFormed)
    (hslots : dirSlots fat fs.disk cs = l.slots) (hname : Absent fs dp l.files name)
    (hheld : (fs.ent dp).ref ≠ 0) (hfree : ∃ i ∈ fs.lru, (fs.ent i).ref = 0) :
    ∃ off fs', dirlookup fat fs dp name true = some (none, some off, fs') ∧
      off % 32 = 0 ∧ UnusedFrom l.slots (off / 32) ∧
      (RightOffset l.slots (longSlots name.length + 1) off ↔
        ∀ i, Fits l.slots (longSlots name.length + 1) i → UnusedFrom l.slots i) := by
  obtain ⟨fs', hrun⟩ := h.dirlookup_absent hl hslots hname hheld hfree true
  refine ⟨_, fs', hrun, Nat.mul_mod_right _ _, ?_, hl.right_iff (Nat.succ_pos _)⟩
  rw [Nat.mul_div_cancel_left _ (by decide)]
  exact hl.unused_from le_rfl

/-! ## Two deleted slots in front of a file -/

def holesDirectory : FileSystem :=
  { pairDirectory with
    disk := ⟨fun a =>
      if a = 1024 ∨ a = 1056 then 0xe5
      else if a = 1088 then 0x42
      else if 1088 < a ∧ a < 1099 then 0x20
      else pairDisk.data a, [], []⟩ }

def holesListing : Listing :=
  let slots := dirSlots pairFat holesDirectory.disk [2]
  ⟨[⟨slots.take 2, [], slots.getD 2 []⟩], [], slots.drop 3⟩

theorem holes_open : OpenDirectory pairFat holesDirectory 0 [2] := pair_open (by decide) rfl

theorem holes_listed :
    holesListing.WellFormed ∧ dirSlots pairFat holesDirectory.disk [2] = holesListing.slots ∧
      Absent holesDirectory 0 holesListing.files [0x41] := by
  refine ⟨⟨?_, by decide +kernel, by decide +kernel⟩, by decide +kernel,
    by constructor <;> decide +kernel⟩
  intro f hf
  rw [List.mem_singleton.mp hf]
  exact ⟨by decide +kernel, .none, by decide +kernel, by decide +kernel⟩

theorem dirlookup_offset_holes :
    ∃ off fs', dirlookup pairFat holesDirectory 0 [0x41] true = some (none, some off, fs') ∧
      off % 32 = 0 ∧ UnusedFrom holesListing.slots (off / 32) ∧
      (RightOffset holesListing.slots 2 off ↔
        ∀ i, Fits holesListing.slots 2 i → UnusedFrom holesListing.slots i) :=
  holes_open.dirlookup_offset_iff holes_listed.1 holes_listed.2.1 holes_listed.2.2
    (by decide) ⟨1, by decide, by decide⟩

/-- The name `A` would fit at offset 0, but is to go behind the file. -/
theorem dirlookup_passes_holes :
    ∃ fs', dirlookup pairFat holesDirectory 0 [0x41] true = some (none, some 96, fs') ∧
      ¬ RightOffset (dirSlots pairFat holesDirectory.disk [2]) 2 96 := by
  obtain ⟨fs', hrun⟩ := holes_open.dirlookup_absent holes_listed.1 holes_listed.2.1
    holes_listed.2.2 (by decide) ⟨1, by decide, by decide⟩ true
  have hused : holesListing.used.length = 3 := by decide +kernel
  rw [hused] at hrun
  refine ⟨fs', hrun, ?_⟩
  have hfits : Fits (dirSlots pairFat holesDirectory.disk [2]) 2 0 := by
    have hslots : ∀ j < 2, ∃ de ∈ (dirSlots pairFat holesDirectory.disk [2])[0 + j]?,
        Deleted de := by decide +kernel
    exact hslots
  rintro ⟨-, -, hleast | ⟨hnone, -⟩⟩
  · exact absurd (hleast.2 hfits) (by decide)
  · exact hnone ⟨0, hfits⟩

end K210Os
