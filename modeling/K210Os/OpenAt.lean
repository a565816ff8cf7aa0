import K210Os.DirectoryWrites
import K210Os.EntryCacheRuns
import K210Os.EntryNesting
import K210Os.FileTableRuns
import K210Os.Syscall

/-!
# Opening a name in a directory

`fileopen` with a descriptor of a directory repeats by hand what `create` does with a path:
the entry of the directory belongs to the open file here, and not to the call. Followed
are the reference counts of the entries, the file table and the descriptors of the task.
-/

namespace K210Os

open Syscalls

/-! ## References that a lookup takes and `eput` gives back -/

section Counts

variable {fat : Fat32} {fs fs' fs₁ : FileSystem} {dp ep e n : ℕ} {name name' : List Byte}

theorem etrunc_keeps {d d' : Disk} {entry entry' : Dirent}
    (hcall : etrunc fat d entry = some (d', entry')) :
    entry' = { entry with fileSize := 0, firstClus := 0, dirty := true } := by
  obtain ⟨d₁, -, heq⟩ := Option.map_eq_some_iff.mp hcall
  exact (Prod.mk.inj heq).2.symm

/-- A reference is dropped; when it was the last one of a child, the parent's goes too. -/
theorem eput_cases (hcall : eput fat (n + 1) fs e = some fs') :
    (¬ (e ≠ 0 ∧ (fs.ent e).valid ≠ 0 ∧ (fs.ent e).ref = 1) ∧ fs' = edrop fs e) ∨
    (e ≠ 0 ∧ (fs.ent e).valid ≠ 0 ∧ (fs.ent e).ref = 1) ∧
      ∃ fs₁, KeepsTree (fun _ => True) fs { fs₁ with lru := fs.lru } ∧
        eput fat n (edrop fs₁ e) (fs.ent e).parent = some fs' := by
  rw [eput] at hcall
  dsimp only at hcall
  by_cases hlast : e ≠ 0 ∧ (fs.ent e).valid ≠ 0 ∧ (fs.ent e).ref = 1
  · rw [if_pos hlast] at hcall
    have hend : ∀ {c : Option FileSystem}, (∀ fs₁, c = some fs₁ →
          KeepsTree (fun _ => True) { fs with lru := e :: fs.lru.erase e } fs₁) →
        (c.bind fun fs₁ => if ((edrop fs₁ e).ent e).ref = 0 then
          eput fat n (edrop fs₁ e) (fs.ent e).parent else some (edrop fs₁ e)) = some fs' →
        ∃ fs₁, KeepsTree (fun _ => True) fs { fs₁ with lru := fs.lru } ∧
          eput fat n (edrop fs₁ e) (fs.ent e).parent = some fs' := by
      intro c hkeep hrun
      obtain ⟨fs₁, hc, hrun⟩ := Option.bind_eq_some_iff.mp hrun
      have hk := hkeep fs₁ hc
      have hone : ((edrop fs₁ e).ent e).ref = 0 := by
        have href := hk.ref e
        simp only [edrop, FileSystem.set_ent_self]
        rw [href]
        exact sub_eq_zero.mpr hlast.2.2
      rw [if_pos hone] at hrun
      exact ⟨fs₁, ⟨rfl, hk.ref, hk.valid, hk.parent, hk.filename⟩, hrun⟩
    refine Or.inr ⟨hlast, ?_⟩
    split at hcall
    · refine hend (fun fs₁ hc => ?_) hcall
      obtain ⟨⟨d, entry⟩, htrunc, rfl⟩ := Option.map_eq_some_iff.mp hc
      rw [etrunc_keeps htrunc]
      exact .set (by rfl) (by rfl) (by rfl) fun _ => by rfl
    · split at hcall
      · exact absurd hcall.symm (Option.some_ne_none _)
      · exact hend (fun fs₁ hc => eupdate_keeps hc) hcall
  · rw [if_neg hlast] at hcall
    exact Or.inl ⟨hlast, (Option.some.inj hcall).symm⟩

theorem edrop_ref (fs : FileSystem) (e i : ℕ) :
    ((edrop fs e).ent i).ref = if i = e then (fs.ent e).ref - 1 else (fs.ent i).ref := by
  by_cases hi : i = e
  · subst hi
    simp [edrop]
  · simp [edrop, FileSystem.set, hi]

/-- `eput` takes no reference and gives one of the entry back. -/
theorem eput_drops (hcall : eput fat n fs e = some fs') :
    (∀ i, (fs'.ent i).ref ≤ (fs.ent i).ref) ∧ (fs'.ent e).ref < (fs.ent e).ref := by
  have hdrop : ∀ (fs : FileSystem) (e : ℕ), (∀ i, ((edrop fs e).ent i).ref ≤ (fs.ent i).ref) ∧
      ((edrop fs e).ent e).ref < (fs.ent e).ref := by
    intro fs e
    refine ⟨fun i => ?_, ?_⟩
    · rw [edrop_ref]
      split
      · rename_i hi
        subst hi
        omega
      · exact le_rfl
    · rw [edrop_ref, if_pos rfl]
      omega
  induction n generalizing fs e with
  | zero => exact absurd hcall.symm (Option.some_ne_none _)
  | succ n ih =>
      rcases eput_cases hcall with ⟨-, rfl⟩ | ⟨-, fs₁, hkeep, hrest⟩
      · exact hdrop fs e
      · obtain ⟨hle, -⟩ := ih hrest
        obtain ⟨hle', hlt⟩ := hdrop fs₁ e
        have href : ∀ i, (fs₁.ent i).ref = (fs.ent i).ref := hkeep.ref
        refine ⟨fun i => ?_, ?_⟩
        · exact (hle i).trans ((hle' i).trans (href i).le)
        · exact (hle e).trans_lt (hlt.trans_le (href e).le)

/-- The entry of a name in a directory was found or made: a reference to it was taken, and
with the first one another to the directory. -/
structure Acquired (dp ep : ℕ) (name : List Byte) (fs fs' : FileSystem) : Prop where
  ref : ∀ i, (fs'.ent i).ref = (fs.ent i).ref + (if i = ep then 1 else 0) +
    if i = dp ∧ (fs.ent ep).ref = 0 then 1 else 0
  hit : egetHit fs' dp name ep = true
  root : ep ≠ 0

theorem egetHit_iff {i : ℕ} : egetHit fs dp name i = true ↔ (fs.ent i).valid = 1 ∧
    (fs.ent i).parent = dp ∧ nameKey (fs.ent i).filename = nameKey (cstring name) := by
  rw [egetHit, Bool.and_eq_true, Bool.and_eq_true, beq_iff_eq, beq_iff_eq, strncmpEq_iff_nameKey,
    and_assoc]

theorem edup_ref (fs : FileSystem) (e i : ℕ) :
    ((edup fs e).ent i).ref = if i = e then (fs.ent i).ref + 1 else (fs.ent i).ref := by
  by_cases hi : i = e
  · subst hi
    simp [edup]
  · simp [edup, FileSystem.set, hi]

/-- The entry is cached. -/
theorem eget_acquires (hlru : 0 ∉ fs.lru) (hheld : 1 ≤ (fs.ent dp).ref)
    (hfind : fs.lru.find? (egetHit fs dp name) = some e)
    (hcall : eget fs dp name = some (ep, fs')) : ep = e ∧ Acquired dp ep name fs fs' := by
  obtain ⟨hvalid, hparent, hname⟩ := egetHit_iff.mp (List.find?_some hfind)
  have hroot : e ≠ 0 := fun heq => hlru (heq ▸ List.mem_of_find?_eq_some hfind)
  rw [eget, hfind] at hcall
  dsimp only at hcall
  obtain ⟨rfl, rfl⟩ := Prod.mk.inj (Option.some.inj hcall)
  have hstay := EntryCache.stays_edup fs e
  have hup : ((edup fs e).ent e).parent = dp := (hstay.parent e).trans hparent
  refine ⟨rfl, fun i => ?_, ?_, hroot⟩
  · by_cases hzero : (fs.ent e).ref = 0
    · have hne : dp ≠ e := by
        rintro rfl
        omega
      rw [if_pos hzero, hup, edup_ref, edup_ref]
      split_ifs <;> simp_all
    · rw [if_neg hzero, edup_ref]
      split_ifs <;> simp_all
  · have hstays : EntryCache.Stays fs (if (fs.ent e).ref = 0 then
        edup (edup fs e) ((edup fs e).ent e).parent else edup fs e) := by
      split
      · exact hstay.trans (EntryCache.stays_edup _ _)
      · exact hstay
    have hvalid' : (fs.ent e).valid ≠ 0 := by
      rw [hvalid]
      exact one_ne_zero
    rw [egetHit_iff, hstays.valid, hstays.parent, hstays.filename e hvalid']
    exact ⟨hvalid, hparent, hname⟩

/-- The name was looked up in vain: nobody holds anything more. -/
structure Missed (dp : ℕ) (name : List Byte) (fs fs' : FileSystem) : Prop where
  ref : ∀ i, (fs'.ent i).ref = (fs.ent i).ref
  lru : fs'.lru = fs.lru
  none : fs'.lru.find? (egetHit fs' dp name) = none

/-- The slot that is taken has no references. -/
theorem eget_takes (hheld : 1 ≤ (fs.ent dp).ref) (hfind : fs.lru.find? (egetHit fs dp name) = none)
    (hcall : eget fs dp name = some (ep, fs')) :
    (fs.ent ep).ref = 0 ∧ ep ∈ fs.lru ∧ dp ≠ ep ∧ fs' = EntryCache.takeSlot fs ep := by
  rw [eget, hfind] at hcall
  obtain ⟨c, hfree, heq⟩ := Option.map_eq_some_iff.mp hcall
  obtain ⟨rfl, rfl⟩ := Prod.mk.inj heq
  have hzero : (fs.ent c).ref = 0 := by simpa using List.find?_some hfree
  refine ⟨hzero, List.mem_reverse.mp (List.mem_of_find?_eq_some hfree), ?_, rfl⟩
  rintro rfl
  omega

theorem takeSlot_ref (fs : FileSystem) (c i : ℕ) (hzero : (fs.ent c).ref = 0) :
    ((EntryCache.takeSlot fs c).ent i).ref = (fs.ent i).ref + if i = c then 1 else 0 := by
  by_cases hi : i = c
  · subst hi
    simp [EntryCache.takeSlot, hzero]
  · simp [EntryCache.takeSlot, FileSystem.set, hi]

/-- A slot that was taken became the entry. -/
theorem EntryCache.Linked.acquired {c : ℕ} (h : EntryCache.Linked dp c (nameKey (cstring name)) fs₁ fs')
    (hkeep : KeepsTree (· ≠ c) (EntryCache.takeSlot fs c) fs₁) (hzero : (fs.ent c).ref = 0)
    (hroot : c ≠ 0) : Acquired dp c name fs fs' := by
  refine ⟨fun i => ?_, ?_, hroot⟩
  · rw [h.ref, hkeep.ref, takeSlot_ref fs c i hzero]
    split_ifs <;> simp_all
  · rw [egetHit_iff, h.valid, if_pos rfl]
    exact ⟨rfl, h.parent, h.name⟩

/-- A slot that was taken is given back. -/
theorem missed_of_eput {c : ℕ} (hfind : fs.lru.find? (egetHit fs dp name) = none)
    (hkeep : KeepsTree (· ≠ c) (EntryCache.takeSlot fs c) fs₁) (hzero : (fs.ent c).ref = 0)
    (hcall : eput fat eputFuel fs₁ c = some fs') : Missed dp name fs fs' := by
  have hfree : (fs₁.ent c).valid = 0 := by
    rw [hkeep.valid]
    simp [EntryCache.takeSlot]
  rcases eput_cases hcall with ⟨-, rfl⟩ | ⟨⟨-, hvalid, -⟩, -⟩
  · refine ⟨fun i => ?_, hkeep.lru, ?_⟩
    · rw [edrop_ref]
      by_cases hi : i = c
      · subst hi
        rw [if_pos rfl, hkeep.ref, takeSlot_ref fs i i hzero, if_pos rfl]
        omega
      · rw [if_neg hi, hkeep.ref, takeSlot_ref fs c i hzero, if_neg hi, add_zero]
    · have hstay := EntryCache.stays_edrop fs₁ c
      rw [List.find?_eq_none] at hfind ⊢
      intro i hi hhit
      have hlru : fs₁.lru = fs.lru := hkeep.lru
      have hmem : i ∈ fs.lru := hlru ▸ hi
      obtain ⟨hvalid, hparent, hname⟩ := egetHit_iff.mp hhit
      rw [hstay.valid] at hvalid
      have hne : i ≠ c := by
        rintro rfl
        omega
      have hsame : (EntryCache.takeSlot fs c).ent i = fs.ent i := by
        simp [EntryCache.takeSlot, FileSystem.set, hne]
      have hold : (fs₁.ent i).valid ≠ 0 := by omega
      rw [hstay.parent, hkeep.parent, hsame] at hparent
      rw [hstay.filename i hold, hkeep.filename i hne, hsame] at hname
      rw [hkeep.valid, hsame] at hvalid
      exact hfind i hmem (egetHit_iff.mpr ⟨hvalid, hparent, hname⟩)
  · exact absurd hfree hvalid

theorem dirlookup_acquires {poff : Bool} {found stored : Option ℕ} (hlru : 0 ∉ fs.lru)
    (hheld : 1 ≤ (fs.ent dp).ref) (hvalid : (fs.ent dp).valid = 1)
    (hdot : strncmpEq (cstring name) (cstring [0x2E]) fat32MaxFilename 0 = false)
    (hdotdot : strncmpEq (cstring name) (cstring [0x2E, 0x2E]) fat32MaxFilename 0 = false)
    (hcall : dirlookup fat fs dp name poff = some (found, stored, fs')) :
    (∀ ep, found = some ep → Acquired dp ep name fs fs') ∧ (found = none → Missed dp name fs fs') := by
  rw [dirlookup] at hcall
  split at hcall
  · exact absurd hcall.symm (Option.some_ne_none _)
  rw [if_neg (Bool.eq_false_iff.mp hdot), if_neg (Bool.eq_false_iff.mp hdotdot),
    if_neg (not_not.mpr hvalid)] at hcall
  obtain ⟨⟨c, fs₁⟩, hget, hcall⟩ := Option.bind_eq_some_iff.mp hcall
  dsimp only at hcall
  cases hfind : fs.lru.find? (egetHit fs dp name) with
  | some i =>
      obtain ⟨rfl, hacq⟩ := eget_acquires hlru hheld hfind hget
      rw [if_pos (egetHit_iff.mp hacq.hit).1] at hcall
      simp only [Option.pure_def, Option.some.injEq, Prod.mk.injEq] at hcall
      obtain ⟨rfl, -, rfl⟩ := hcall
      refine ⟨fun ep hep => ?_, fun hnone => absurd hnone (Option.some_ne_none _)⟩
      obtain rfl := Option.some.inj hep
      exact hacq
  | none =>
      obtain ⟨hzero, hmem, hne, rfl⟩ := eget_takes hheld hfind hget
      have hroot : c ≠ 0 := fun heq => hlru (heq ▸ hmem)
      rw [if_neg (by simp [EntryCache.takeSlot])] at hcall
      obtain ⟨⟨off, fs₂⟩, hreloc, hcall⟩ := Option.bind_eq_some_iff.mp hcall
      obtain ⟨fs₃, hkeep, hor⟩ := EntryCache.dirlookupLoop_cases hne hcall
      have hkeep := (relocEnt_keeps hreloc).trans hkeep
      rcases hor with ⟨rfl, hput⟩ | ⟨rfl, hlinked⟩
      · exact ⟨fun ep hep => absurd hep.symm (Option.some_ne_none _),
          fun _ => missed_of_eput hfind hkeep hzero hput⟩
      · refine ⟨fun ep hep => ?_, fun hnone => absurd hnone (Option.some_ne_none _)⟩
        obtain rfl := Option.some.inj hep
        exact hlinked.acquired hkeep hzero hroot

/-- A name that `formatname` accepts does not begin with a dot. -/
theorem formatname_no_dot (hname : formatname name = some name') (rest : List Byte) :
    strncmpEq (cstring name') (cstring (0x2E :: rest)) fat32MaxFilename 0 = false := by
  rw [Bool.eq_false_iff]
  intro heq
  have hfirst : cstring name' 0 = 0x2E := by
    rw [show fat32MaxFilename = 254 + 1 from rfl, strncmpEq] at heq
    split at heq
    · rename_i hboth
      exact hboth.2
    · exact beq_iff_eq.mp heq
  rw [formatname] at hname
  split at hname
  · exact absurd hname.symm (Option.some_ne_none _)
  · obtain rfl := Option.some.inj hname
    have hhead := List.head?_dropWhile_not (fun c : Byte => c == 0x20 || c == 0x2E) name
    have hfront := List.rdropWhile_prefix (fun c : Byte => c == 0x20)
      (name.dropWhile fun c => c == 0x20 || c == 0x2E)
    cases hlist : (name.dropWhile fun c => c == 0x20 || c == 0x2E).rdropWhile fun c => c == 0x20 with
    | nil =>
        rw [hlist] at hfirst
        exact absurd hfirst (by decide)
    | cons c cs =>
        rw [hlist] at hfirst hfront
        obtain ⟨tail, htail⟩ := hfront
        rw [← htail] at hhead
        have hc : c = 0x2E := hfirst
        rw [hc] at hhead
        exact Bool.noConfusion hhead

/-- `ealloc` of a plain file. -/
theorem ealloc_acquires (hlru : 0 ∉ fs.lru) (hheld : 1 ≤ (fs.ent dp).ref)
    (hcall : ealloc fat fs dp name 0 = some (some ep, fs')) :
    ∃ name', formatname name = some name' ∧ Acquired dp ep name' fs fs' := by
  rw [ealloc] at hcall
  split at hcall
  · exact absurd hcall.symm (Option.some_ne_none _)
  split at hcall
  · exact absurd (Prod.mk.inj (Option.some.inj hcall)).1.symm (Option.some_ne_none _)
  rename_i hvalid
  cases hname : formatname name with
  | none =>
      rw [hname] at hcall
      exact absurd (Prod.mk.inj (Option.some.inj hcall)).1.symm (Option.some_ne_none _)
  | some name' =>
      rw [hname] at hcall
      refine ⟨name', rfl, ?_⟩
      obtain ⟨⟨found, stored, fs₁⟩, hlook, hcall⟩ := Option.bind_eq_some_iff.mp hcall
      obtain ⟨hsome, hnone⟩ := dirlookup_acquires hlru hheld (not_not.mp hvalid)
        (formatname_no_dot hname []) (formatname_no_dot hname [0x2E]) hlook
      cases found with
      | some i =>
          simp only [Option.isSome_some, if_true, Option.pure_def, Option.some.injEq,
            Prod.mk.injEq] at hcall
          obtain ⟨rfl, rfl⟩ := hcall
          exact hsome i rfl
      | none =>
          obtain ⟨href, hlru₁, hfind⟩ := hnone rfl
          simp only [Option.isSome_none, if_false, Bool.false_eq_true] at hcall
          obtain ⟨⟨c, fs₂⟩, hget, hcall⟩ := Option.bind_eq_some_iff.mp hcall
          dsimp only at hcall
          have hheld₁ : 1 ≤ (fs₁.ent dp).ref := by
            rw [href]
            exact hheld
          obtain ⟨hzero, hmem, hne, rfl⟩ := eget_takes hheld₁ hfind hget
          have hroot : c ≠ 0 := fun heq => hlru (hlru₁ ▸ heq ▸ hmem)
          split at hcall
          · exact absurd hcall.symm (Option.some_ne_none _)
          rw [if_neg (by decide)] at hcall
          obtain ⟨fs₂, hset, hmake⟩ := Option.bind_eq_some_iff.mp hcall
          obtain rfl := Option.some.inj hset
          obtain ⟨fs₃, hput, hmade⟩ := Option.bind_eq_some_iff.mp hmake
          simp only [Option.pure_def, Option.some.injEq, Prod.mk.injEq] at hmade
          obtain ⟨rfl, rfl⟩ := hmade
          have hkeep : KeepsTree (fun _ => True)
              (eallocEntry (EntryCache.takeSlot fs₁ c) dp c name' 0 (stored.getD 0)) fs₃ :=
            KeepsTree.trans (.set (by rfl) (by rfl) (by rfl) fun _ => by rfl) (emake_keeps hput)
          have hacq : Acquired dp c name' fs₁ _ :=
            (EntryCache.linked_ealloc hne hkeep).acquired (KeepsTree.refl _ _) hzero hroot
          refine ⟨fun i => ?_, hacq.hit, hroot⟩
          rw [hacq.ref, href, href]

/-- What a lookup took, `eput` gives back. -/
theorem Acquired.eput (h : Acquired dp ep name fs fs₁) (hheld : 1 ≤ (fs.ent dp).ref)
    (hcall : K210Os.eput fat (n + 2) fs₁ ep = some fs') : ∀ i, (fs'.ent i).ref = (fs.ent i).ref := by
  obtain ⟨hvalid, hparent, -⟩ := egetHit_iff.mp h.hit
  rcases eput_cases hcall with ⟨hmore, rfl⟩ | ⟨⟨-, -, hone⟩, fs₂, hkeep, hrest⟩
  · -- somebody else holds the entry
    have hold : (fs.ent ep).ref ≠ 0 := by
      intro hzero
      have hne : ep ≠ dp := by
        rintro rfl
        omega
      refine hmore ⟨h.root, by rw [hvalid]; exact one_ne_zero, ?_⟩
      rw [h.ref, if_pos rfl, if_neg fun hboth => hne hboth.1, hzero]
      rfl
    intro i
    have hno : ∀ i, ¬ (i = dp ∧ (fs.ent ep).ref = 0) := fun i hboth => hold hboth.2
    rw [edrop_ref, h.ref, h.ref, if_pos rfl, if_neg (hno ep), if_neg (hno i)]
    split_ifs with hi
    · rw [hi]
      omega
    · omega
  · have hzero : (fs.ent ep).ref = 0 := by
      have href := h.ref ep
      rw [hone, if_pos rfl] at href
      split_ifs at href with hboth
      · exact hboth.2
      · omega
    have hne : dp ≠ ep := by
      rintro rfl
      omega
    have href₂ : ∀ i, (fs₂.ent i).ref = (fs₁.ent i).ref := hkeep.ref
    have hdp : ((edrop fs₂ ep).ent dp).ref = (fs.ent dp).ref + 1 := by
      rw [edrop_ref, if_neg hne, href₂, h.ref, if_neg hne, if_pos ⟨rfl, hzero⟩]
      omega
    rw [hparent] at hrest
    rcases eput_cases hrest with ⟨-, rfl⟩ | ⟨⟨-, -, hlast⟩, -⟩
    · intro i
      rw [edrop_ref, hdp, edrop_ref, href₂, href₂, h.ref, h.ref]
      split_ifs <;> simp_all
    · omega

end Counts

/-! ## Entries that are no directory -/

section Attributes

variable {fat : Fat32} {fs fs' : FileSystem} {dp ep off off' : ℕ} {path : List Byte}

/-- The entry that `ealloc` delivers for a file was found, or it is new and no directory. -/
theorem ealloc_found_or_new (hcall : ealloc fat fs dp path 0 = some (some ep, fs')) :
    ∃ name found stored fs₁, formatname path = some name ∧
      dirlookup fat fs dp name true = some (found, stored, fs₁) ∧
      (found = some ep ∧ fs₁ = fs' ∨ found = none ∧ (fs'.ent ep).isDirectory = false) := by
  rw [ealloc] at hcall
  split at hcall
  · exact absurd hcall.symm (Option.some_ne_none _)
  split at hcall
  · exact absurd (Prod.mk.inj (Option.some.inj hcall)).1.symm (Option.some_ne_none _)
  cases hname : formatname path with
  | none =>
      rw [hname] at hcall
      exact absurd (Prod.mk.inj (Option.some.inj hcall)).1.symm (Option.some_ne_none _)
  | some name =>
      rw [hname] at hcall
      obtain ⟨⟨found, stored, fs₁⟩, hlook, hcall⟩ := Option.bind_eq_some_iff.mp hcall
      refine ⟨name, found, stored, fs₁, rfl, hlook, ?_⟩
      cases found with
      | some i =>
          obtain ⟨heq, rfl⟩ := Prod.mk.inj (Option.some.inj hcall)
          obtain rfl := Option.some.inj heq
          exact Or.inl ⟨rfl, rfl⟩
      | none =>
          obtain ⟨⟨c, fs₂⟩, hget, hcall⟩ := Option.bind_eq_some_iff.mp hcall
          dsimp only at hcall
          split at hcall
          · exact absurd hcall.symm (Option.some_ne_none _)
          rw [if_neg (by decide)] at hcall
          obtain ⟨fs₃, hset, hmake⟩ := Option.bind_eq_some_iff.mp hcall
          obtain rfl := Option.some.inj hset
          obtain ⟨fs₄, hput, hmade⟩ := Option.bind_eq_some_iff.mp hmake
          obtain ⟨heq, rfl⟩ := Prod.mk.inj (Option.some.inj hmade)
          obtain rfl := Option.some.inj heq
          refine Or.inr ⟨rfl, ?_⟩
          have hattr := emake_attr hput c
          rw [FileSystem.set_ent_self] at hattr ⊢
          rw [Dirent.isDirectory]
          dsimp only at hattr ⊢
          rw [hattr]
          simp [eallocEntry, attrArchive, attrDirectory]

/-- `ealloc` delivers nothing for a removed directory or a name that is not accepted. -/
theorem ealloc_none (hcall : ealloc fat fs dp path 0 = some (none, fs')) :
    fs' = fs ∧ ((fs.ent dp).valid ≠ 1 ∨ formatname path = none) := by
  rw [ealloc] at hcall
  split at hcall
  · exact absurd hcall.symm (Option.some_ne_none _)
  split at hcall
  · rename_i hvalid
    exact ⟨(Prod.mk.inj (Option.some.inj hcall)).2.symm, Or.inl hvalid⟩
  cases hname : formatname path with
  | none =>
      rw [hname] at hcall
      exact ⟨(Prod.mk.inj (Option.some.inj hcall)).2.symm, Or.inr rfl⟩
  | some name =>
      rw [hname] at hcall
      obtain ⟨⟨found, stored, fs₁⟩, hlook, hcall⟩ := Option.bind_eq_some_iff.mp hcall
      cases found with
      | some i =>
          exact absurd (Prod.mk.inj (Option.some.inj hcall)).1 (Option.some_ne_none _)
      | none =>
          obtain ⟨⟨c, fs₂⟩, hget, hcall⟩ := Option.bind_eq_some_iff.mp hcall
          dsimp only at hcall
          split at hcall
          · exact absurd hcall.symm (Option.some_ne_none _)
          rw [if_neg (by decide)] at hcall
          obtain ⟨fs₃, hset, hmake⟩ := Option.bind_eq_some_iff.mp hcall
          obtain ⟨fs₄, hput, hmade⟩ := Option.bind_eq_some_iff.mp hmake
          exact absurd (Prod.mk.inj (Option.some.inj hmade)).1 (Option.some_ne_none _)

theorem ealloc_valid (hcall : ealloc fat fs dp path 0 = some (some ep, fs')) :
    (fs.ent dp).valid = 1 := by
  rw [ealloc] at hcall
  split at hcall
  · exact absurd hcall.symm (Option.some_ne_none _)
  split at hcall
  · exact absurd (Prod.mk.inj (Option.some.inj hcall)).1.symm (Option.some_ne_none _)
  · rename_i hvalid
    exact not_not.mp hvalid

end Attributes

/-! ## `fileopen` -/

/-- What `fileopen` reads and changes, beside the entries the offsets of the files and the
current directories of the tasks. -/
structure OpenState (ι : Type) where
  entries : EntryCache
  files : OpenFiles ι
  off : Fin nfile → ℕ
  cwd : ι → ℕ

/-- A call panics in `elock` or `eunlock`, or it returns. -/
inductive OpenOutcome (ι : Type) where
  | elock
  | eunlock
  | returns (fd : ℤ) (s : OpenState ι)

namespace OpenState

variable {ι : Type} [DecidableEq ι]

/-- Whether a flag is set in `omode`. -/
def flag (omode : BitVec 32) (n : ℕ) : Bool := omode &&& BitVec.ofNat 32 n != 0

/-- `eput`, where `fileclose` dropped the last reference of a file with an entry. -/
def closeEntry (fat : Fat32) (entries : EntryCache) (file : File) : Option EntryCache :=
  if file.type = .entry then entries.eput fat file.ep else some entries

/-- `eunlock`, `eput` and -1. -/
def giveUp (fat : Fat32) (s : OpenState ι) (ep : ℕ) : Option (OpenOutcome ι) :=
  if (s.entries.fs.ent ep).ref < 1 then some .eunlock
  else (s.entries.eput fat ep).map fun entries => .returns (-1) { s with entries }

/-- The entries after the truncation that `omode` asks for. -/
def truncated (fat : Fat32) (fs : FileSystem) (ep : ℕ) (omode : BitVec 32) : Option FileSystem :=
  if !(fs.ent ep).isDirectory ∧ flag omode oTrunc then
    (etrunc fat fs.disk (fs.ent ep)).map fun (d, entry) => { fs with disk := d }.set ep entry
  else some fs

/-- What `fileopen` sets at its end. -/
def setOpen (s : OpenState ι) (p : ι) (fd : Fin nofile) (f : Fin nfile) (fs : FileSystem) (ep : ℕ)
    (omode : BitVec 32) : OpenState ι :=
  let files := s.files.setSlot p fd (.file f)
  let file :=
    { files.file f with
      type := .entry
      ep
      readable := !flag omode oWronly
      writable := flag omode oWronly || flag omode oRdwr }
  { s with
    entries := { s.entries with fs }
    files := files.setFile f file
    off := Function.update s.off f (if flag omode oAppend then (fs.ent ep).fileSize else 0) }

/-- `fileopen` from `filealloc` on, with `ep` locked. -/
def openLocked (fat : Fat32) (s : OpenState ι) (p : ι) (ep : ℕ) (omode : BitVec 32) :
    Option (OpenOutcome ι) :=
  match s.files.filealloc with
  | none => s.giveUp fat ep
  | some (f, files) =>
      match files.fdalloc p (.file f) with
      | none => do
          let entries ← closeEntry fat s.entries (files.file f)
          let files ← files.fileclose (.file f)
          giveUp fat { s with entries, files } ep
      | some (fd, files) => do
          let fs ← truncated fat s.entries.fs ep omode
          if (fs.ent ep).ref < 1 then return .eunlock
          return .returns fd.val ({ s with files }.setOpen p fd f fs ep omode)

/-- `elock` of an entry, and on with it. -/
def openEntry (fat : Fat32) (s : OpenState ι) (p : ι) (ep : ℕ) (omode : BitVec 32) :
    Option (OpenOutcome ι) :=
  if (s.entries.fs.ent ep).ref < 1 then some .elock else s.openLocked fat p ep omode

/-- `fileopen` of a name in the directory `dp` of an open file. -/
def openIn (fat : Fat32) (s : OpenState ι) (p : ι) (dp : ℕ) (path : List Byte)
    (omode : BitVec 32) : Option (OpenOutcome ι) :=
  if omode &&& oCreate ≠ 0 then
    if (s.entries.fs.ent dp).ref < 1 then some .elock
    else do
      -- `mode` is not set, but `O_RDONLY` is 0
      let (ep, entries) ← s.entries.ealloc fat dp path 0
      if (entries.fs.ent dp).ref < 1 then return .eunlock
      match ep with
      | none => (entries.eput fat dp).map fun entries => .returns (-1) { s with entries }
      | some ep =>
          if (entries.fs.ent ep).isDirectory then
            let entries ← entries.eput fat ep
            (entries.eput fat dp).map fun entries => .returns (-1) { s with entries }
          else openEntry fat { s with entries } p ep omode
  -- `ep` is still null
  else some .elock

/-- `fileopen` by the task `p`; `create` returns with the entry locked. -/
def fileopen (fat : Fat32) (s : OpenState ι) (p : ι) (dfd : ℤ) (path : List Byte)
    (omode : BitVec 32) : Option (OpenOutcome ι) :=
  if dfd = atFdcwd then
    if omode &&& oCreate ≠ 0 then
      (s.entries.create fat (s.cwd p) path tFile omode.toNat).bind fun
        | (none, entries) => some (.returns (-1) { s with entries })
        | (some ep, entries) => openLocked fat { s with entries } p ep omode
    else
      (s.entries.ename fat (s.cwd p) path).bind fun
        | (none, entries) => some (.returns (-1) { s with entries })
        | (some ep, entries) => openEntry fat { s with entries } p ep omode
  else if 0 ≤ dfd ∧ dfd.toNat < nofile then
    match s.files.ofile p (Fin.ofNat nofile dfd.toNat) with
    | .file f => s.openIn fat p (s.files.file f).ep path omode
    | _ => if omode &&& oCreate ≠ 0 then none else some .elock
  else none

/-! ## What is wanted -/

/-- What holds between the calls. -/
structure Ok (s : OpenState ι) : Prop where
  root : 0 ∉ s.entries.fs.lru
  counts : ∀ e, 0 ≤ (s.entries.fs.ent e).ref
  free : s.files.FreeNone

/-- The descriptor is one of the directory `dp`. -/
structure DirectoryOpen (s : OpenState ι) (p : ι) (dfd : ℤ) (dp : ℕ) : Prop where
  slot : ∃ (fd : Fin nofile) (f : Fin nfile), dfd = fd.val ∧ s.files.ofile p fd = .file f ∧
    (s.files.file f).ep = dp
  directory : (s.entries.fs.ent dp).isDirectory = true
  held : 1 ≤ (s.entries.fs.ent dp).ref

/-- Entry `ep` is the one of that name in the directory. -/
def Names (fs : FileSystem) (dp : ℕ) (path : List Byte) (ep : ℕ) : Prop :=
  path ≠ [] ∧ egetHit fs dp path ep = true

/-- The counts and the tables were left alone. -/
structure Untouched (s s' : OpenState ι) : Prop where
  ref : ∀ e, (s'.entries.fs.ent e).ref = (s.entries.fs.ent e).ref
  file : s'.files.file = s.files.file
  ofile : s'.files.ofile = s.files.ofile

/-- The free slot `n` was given a file of the entry `ep`. -/
structure NewFile (s : OpenState ι) (p : ι) (ep : ℕ) (n : Fin nofile) (f : Fin nfile)
    (s' : OpenState ι) : Prop where
  slot : s.files.ofile p n = .null
  unused : (s.files.file f).ref = 0
  ofile : s'.files.ofile =
    Function.update s.files.ofile p (Function.update (s.files.ofile p) n (.file f))
  others : ∀ g, g ≠ f → s'.files.file g = s.files.file g
  ref : (s'.files.file f).ref = 1
  type : (s'.files.file f).type = .entry
  ep : (s'.files.file f).ep = ep

/-- Descriptor `fd` is new, and for the file that was named. -/
def Opened (s : OpenState ι) (p : ι) (dp : ℕ) (path : List Byte) (fd : ℤ) (s' : OpenState ι) :
    Prop :=
  ∃ n f ep, fd = (n : Fin nofile).val ∧ NewFile s p ep n f s' ∧ Names s'.entries.fs dp path ep

/-- What is wanted of a call. -/
def OpenLaws (s : OpenState ι) (p : ι) (dp : ℕ) (path : List Byte) (fd : ℤ) (s' : OpenState ι) :
    Prop :=
  fd = -1 ∧ Untouched s s' ∨ Opened s p dp path fd s'

/-- No file or no descriptor of the task is free. -/
def TablesFull (s : OpenState ι) (p : ι) : Prop :=
  (∀ f, (s.files.file f).ref ≠ 0) ∨ ∀ fd : Fin nofile, 3 ≤ fd.val → s.files.ofile p fd ≠ .null

/-- `formatname` leaves the name as it is. -/
def Kept (path : List Byte) : Prop :=
  path ≠ [] ∧ ∃ name, formatname path = some name ∧
    strncmpEq (cstring name) (cstring path) fat32MaxFilename 0 = true

/-- The name does not stand for a directory. -/
def NoDirectory (fat : Fat32) (fs : FileSystem) (dp : ℕ) (path : List Byte) : Prop :=
  ∀ name ep stored fs', formatname path = some name →
    dirlookup fat fs dp name true = some (some ep, stored, fs') → (fs'.ent ep).isDirectory = false

/-- When a call does what is wanted: it creates, in a directory that is not removed, a file
of a name that `formatname` takes and, unless a table is full, leaves as it is. Nothing
panics in `ealloc`, in the last `eput` or in `etrunc`. -/
structure CanOpen (fat : Fat32) (s : OpenState ι) (p : ι) (dp : ℕ) (path : List Byte)
    (omode : BitVec 32) : Prop where
  creates : omode &&& oCreate ≠ 0
  valid : (s.entries.fs.ent dp).valid = 1
  accepted : formatname path ≠ none
  plain : NoDirectory fat s.entries.fs dp path
  kept : s.TablesFull p ∨ Kept path
  ends : ∃ found fs, ealloc fat s.entries.fs dp path 0 = some (found, fs) ∧
    ∀ ep, found = some ep → (s.TablesFull p → (K210Os.eput fat eputFuel fs ep).isSome) ∧
      (¬ s.TablesFull p → (truncated fat fs ep omode).isSome)

end OpenState

/-! ## What a call does -/

section Calls

variable {ι : Type} [DecidableEq ι] {fat : Fat32} {s s' : OpenState ι} {p : ι} {dp ep : ℕ} {dfd : ℤ}
  {name path : List Byte} {omode : BitVec 32}

theorem noDirectory_iff {fs fs' : FileSystem}
    (hcall : ealloc fat fs dp path 0 = some (some ep, fs')) :
    OpenState.NoDirectory fat fs dp path ↔ (fs'.ent ep).isDirectory = false := by
  obtain ⟨name, found, stored, fs₁, hname, hlook, hor⟩ := ealloc_found_or_new hcall
  constructor
  · intro hplain
    rcases hor with ⟨rfl, rfl⟩ | ⟨-, hnew⟩
    · exact hplain name ep stored fs₁ hname hlook
    · exact hnew
  · intro hfile name' i stored' fs₂ hname' hlook'
    obtain rfl := Option.some.inj (hname.symm.trans hname')
    obtain ⟨rfl, heq⟩ := Prod.mk.inj (Option.some.inj (hlook.symm.trans hlook'))
    obtain ⟨rfl, rfl⟩ := Prod.mk.inj heq
    rcases hor with ⟨hfound, rfl⟩ | ⟨hnone, -⟩
    · obtain rfl := Option.some.inj hfound
      exact hfile
    · exact absurd hnone (Option.some_ne_none _)


theorem EntryCache.ealloc_fs {c c' : EntryCache} {attr : ℕ} {found : Option ℕ}
    (hcall : c.ealloc fat dp name attr = some (found, c')) :
    K210Os.ealloc fat c.fs dp name attr = some (found, c'.fs) := by
  obtain ⟨⟨i, fs⟩, hrun, heq⟩ := Option.map_eq_some_iff.mp hcall
  obtain ⟨rfl, rfl⟩ := Prod.mk.inj heq
  rw [hrun]
  split_ifs with hvalid
  · rw [K210Os.ealloc] at hrun
    split at hrun
    · exact absurd hrun.symm (Option.some_ne_none _)
    rw [(Prod.mk.inj (Option.some.inj hrun)).2]
  · rfl

theorem EntryCache.eput_fs {c c' : EntryCache} (hcall : c.eput fat ep = some c') :
    K210Os.eput fat eputFuel c.fs ep = some c'.fs := by
  obtain ⟨fs, hrun, rfl⟩ := Option.map_eq_some_iff.mp hcall
  exact hrun

namespace OpenState

theorem truncated_keeps {fs fs' : FileSystem} (hcall : truncated fat fs ep omode = some fs') :
    KeepsTree (fun _ => True) fs fs' := by
  rw [truncated] at hcall
  split at hcall
  · obtain ⟨⟨d, entry⟩, htrunc, rfl⟩ := Option.map_eq_some_iff.mp hcall
    rw [etrunc_keeps htrunc]
    exact .set (by rfl) (by rfl) (by rfl) fun _ => by rfl
  · exact Option.some.inj hcall ▸ KeepsTree.refl _ _

/-- Everything is given back, and what remains is `eput`. -/
theorem openLocked_full (hfree : s.files.FreeNone) (hfull : s.TablesFull p)
    (href : 1 ≤ (s.entries.fs.ent ep).ref) : ∃ files : OpenFiles ι, files.file = s.files.file ∧
      files.ofile = s.files.ofile ∧ s.openLocked fat p ep omode =
        (s.entries.eput fat ep).map fun entries => .returns (-1) { s with entries, files } := by
  have hgive : ∀ files, giveUp fat { s with files } ep =
      (s.entries.eput fat ep).map fun entries => .returns (-1) { s with entries, files } := by
    intro files
    rw [giveUp, if_neg (by simpa using href)]
  rw [openLocked]
  cases halloc : s.files.filealloc with
  | none => exact ⟨s.files, rfl, rfl, hgive s.files⟩
  | some found =>
      obtain ⟨f, files⟩ := found
      obtain ⟨hzero, rfl⟩ := OpenFiles.filealloc_eq halloc
      have hslots := hfull.resolve_left fun hnone => hnone f hzero
      have hnofd : (s.files.setFile f { s.files.file f with ref := 1 }).fdalloc p (.file f) = none := by
        rw [OpenFiles.fdalloc, Option.map_eq_none_iff, List.find?_eq_none]
        intro fd _ hfd
        obtain ⟨hthree, hnull⟩ := of_decide_eq_true hfd
        exact hslots fd hthree hnull
      have htype := hfree f hzero
      -- the new file goes back to what it was
      have hback : Function.update (Function.update s.files.file f { s.files.file f with ref := 1 }) f
          { s.files.file f with ref := 0, type := .none } = s.files.file := by
        rw [Function.update_idem]
        refine Function.update_eq_self_iff.mpr ?_
        rw [← hzero, ← htype]
      refine ⟨{ s.files with
        file := Function.update (Function.update s.files.file f { s.files.file f with ref := 1 }) f
          { s.files.file f with ref := 0, type := .none }
        closed := (f, { s.files.file f with ref := 1 }) :: s.files.closed }, hback, rfl, ?_⟩
      dsimp only
      rw [hnofd, ← hgive]
      simp [closeEntry, OpenFiles.fileclose, OpenFiles.setFile, htype]

/-- A file and a descriptor are free. -/
theorem openLocked_free (hfree : ¬ s.TablesFull p) (href : 1 ≤ (s.entries.fs.ent ep).ref) :
    ∃ n f, (∀ fs, truncated fat s.entries.fs ep omode = some fs → ∃ s',
        s.openLocked fat p ep omode = some (.returns (n : Fin nofile).val s') ∧
        s'.entries.fs = fs ∧ NewFile s p ep n f s') ∧
      (truncated fat s.entries.fs ep omode = none → s.openLocked fat p ep omode = none) := by
  rw [TablesFull, not_or, not_forall, not_forall] at hfree
  obtain ⟨⟨g, hg⟩, m, hm⟩ := hfree
  rw [Classical.not_imp, not_not] at hm
  have hfile : s.files.filealloc ≠ none := by
    rw [OpenFiles.filealloc, ne_eq, Option.map_eq_none_iff, List.find?_eq_none, not_forall]
    exact ⟨g, by simpa using hg⟩
  obtain ⟨⟨f, files⟩, halloc⟩ := Option.ne_none_iff_exists'.mp hfile
  obtain ⟨hzero, rfl⟩ := OpenFiles.filealloc_eq halloc
  have hslot : (s.files.setFile f { s.files.file f with ref := 1 }).fdalloc p (.file f) ≠ none := by
    rw [OpenFiles.fdalloc, ne_eq, Option.map_eq_none_iff, List.find?_eq_none, not_forall]
    exact ⟨m, fun hno => hno (List.mem_finRange m) (decide_eq_true hm)⟩
  obtain ⟨⟨n, files⟩, hfd⟩ := Option.ne_none_iff_exists'.mp hslot
  obtain ⟨hnull, rfl⟩ := OpenFiles.fdalloc_eq hfd
  refine ⟨n, f, fun fs htrunc => ?_, fun hnone => ?_⟩
  · have href' : 1 ≤ (fs.ent ep).ref := by
      rw [(truncated_keeps htrunc).ref]
      exact href
    let files := (s.files.setFile f { s.files.file f with ref := 1 }).setSlot p n (.file f)
    refine ⟨{ s with files }.setOpen p n f fs ep omode, ?_, rfl, ?_⟩
    · rw [openLocked, halloc]
      dsimp only
      rw [hfd]
      dsimp only
      rw [htrunc]
      simp only [Option.bind_eq_bind, Option.bind_some]
      rw [if_neg (by omega)]
      rfl
    · refine ⟨hnull, hzero, ?_, fun g hg => ?_, ?_, ?_, ?_⟩ <;>
        simp [setOpen, files, OpenFiles.setFile, OpenFiles.setSlot, *]
  · rw [openLocked, halloc]
    dsimp only
    rw [hfd]
    dsimp only
    rw [hnone]
    rfl

theorem names_iff {fs fs' : FileSystem} (hkeep : KeepsTree (fun _ => True) fs fs')
    (hhit : egetHit fs dp name ep = true) (hname : formatname path = some name) :
    Names fs' dp path ep ↔ Kept path := by
  obtain ⟨hvalid, hparent, hkey⟩ := egetHit_iff.mp hhit
  constructor
  · rintro ⟨hne, hpath⟩
    obtain ⟨-, -, hkey'⟩ := egetHit_iff.mp hpath
    rw [hkeep.filename ep trivial, hkey] at hkey'
    exact ⟨hne, name, hname, strncmpEq_iff_nameKey.mpr hkey'⟩
  · rintro ⟨hne, name', hname', hsame⟩
    obtain rfl := Option.some.inj (hname.symm.trans hname')
    refine ⟨hne, egetHit_iff.mpr ?_⟩
    rw [hkeep.valid, hkeep.parent, hkeep.filename ep trivial]
    exact ⟨hvalid, hparent, hkey.trans (strncmpEq_iff_nameKey.mp hsame)⟩

/-- The descriptor and its slot say which file it is. -/
theorem NewFile.same {n n' : Fin nofile} {f f' : Fin nfile} {ep' : ℕ} (h : NewFile s p ep n f s')
    (h' : NewFile s p ep' n' f' s') (heq : (n : ℤ) = n') : ep = ep' := by
  obtain rfl : n = n' := Fin.ext (by exact_mod_cast heq)
  have hslot := congrFun (congrFun (h.ofile.symm.trans h'.ofile) p) n
  simp only [Function.update_self, Slot.file.injEq] at hslot
  subst hslot
  exact h.ep.symm.trans h'.ep

/-- What remains once the entry was found or made. -/
theorem openEntry_iff {entries : EntryCache} (hok : s.Ok) (hheld : 1 ≤ (s.entries.fs.ent dp).ref)
    (hacq : Acquired dp ep name s.entries.fs entries.fs) (hname : formatname path = some name) :
    (∃ fd s', openEntry fat { s with entries } p ep omode = some (.returns fd s') ∧
        OpenLaws s p dp path fd s') ↔
      (s.TablesFull p ∨ Kept path) ∧
        (s.TablesFull p → (K210Os.eput fat eputFuel entries.fs ep).isSome) ∧
        (¬ s.TablesFull p → (truncated fat entries.fs ep omode).isSome) := by
  have href : 1 ≤ (entries.fs.ent ep).ref := by
    have hone := hacq.ref ep
    have hcount := hok.counts ep
    rw [if_pos rfl] at hone
    split_ifs at hone <;> omega
  rw [openEntry, if_neg (by simpa using href)]
  by_cases hfull : s.TablesFull p
  · obtain ⟨files, hfile, hofile, hrun⟩ :=
      @openLocked_full _ _ fat { s with entries } p ep omode hok.free hfull href
    rw [hrun]
    constructor
    · rintro ⟨fd, s', hend, -⟩
      obtain ⟨entries', hput, -⟩ := Option.map_eq_some_iff.mp hend
      exact ⟨Or.inl hfull, fun _ => Option.isSome_of_mem (EntryCache.eput_fs hput),
        fun hno => absurd hfull hno⟩
    · rintro ⟨-, hsome, -⟩
      obtain ⟨fs, hput⟩ := Option.isSome_iff_exists.mp (hsome hfull)
      refine ⟨-1, { s with entries := { entries with fs }, files }, ?_, Or.inl ⟨rfl, ?_⟩⟩
      · rw [EntryCache.eput, hput]
        rfl
      · exact ⟨hacq.eput hheld hput, hfile, hofile⟩
  · obtain ⟨n, f, hruns, hpanics⟩ :=
      @openLocked_free _ _ fat { s with entries } p ep omode hfull href
    cases htrunc : truncated fat entries.fs ep omode with
    | none =>
        rw [hpanics htrunc]
        constructor
        · rintro ⟨fd, s', hend, -⟩
          exact absurd hend.symm (Option.some_ne_none _)
        · rintro ⟨-, -, hsome⟩
          exact Bool.noConfusion (hsome hfull)
    | some fs =>
        obtain ⟨s', hrun, rfl, h⟩ := hruns fs htrunc
        have hnew : NewFile s p ep n f s' :=
          ⟨h.slot, h.unused, h.ofile, h.others, h.ref, h.type, h.ep⟩
        have hnames := names_iff (truncated_keeps htrunc) hacq.hit hname
        rw [hrun]
        constructor
        · rintro ⟨fd, s'', hend, hlaws⟩
          obtain ⟨rfl, rfl⟩ := OpenOutcome.returns.inj (Option.some.inj hend)
          rcases hlaws with ⟨hneg, -⟩ | ⟨n', f', ep', heq, hnew', hname'⟩
          · omega
          · obtain rfl := NewFile.same hnew hnew' heq
            exact ⟨Or.inr (hnames.mp hname'), fun hyes => absurd hyes hfull, fun _ => rfl⟩
        · rintro ⟨hkept, -, -⟩
          exact ⟨n, s', rfl, Or.inr ⟨n, f, ep, rfl, hnew, hnames.mpr (hkept.resolve_left hfull)⟩⟩

theorem fileopen_at (hdir : DirectoryOpen s p dfd dp) :
    fileopen fat s p dfd path omode = s.openIn fat p dp path omode := by
  obtain ⟨fd, f, rfl, hslot, rfl⟩ := hdir.slot
  have hne : (fd.val : ℤ) ≠ atFdcwd := by
    rw [atFdcwd]
    omega
  have hrange : (0 : ℤ) ≤ fd.val ∧ (fd.val : ℤ).toNat < nofile := by
    rw [Int.toNat_natCast]
    exact ⟨Int.natCast_nonneg _, fd.isLt⟩
  have hfd : Fin.ofNat nofile (fd.val : ℤ).toNat = fd := by
    rw [Int.toNat_natCast]
    exact Fin.ext (Nat.mod_eq_of_lt fd.isLt)
  rw [fileopen, if_neg hne, if_pos hrange, hfd, hslot]

/-- A count went down. -/
theorem not_openLaws {fd : ℤ} {e : ℕ} (hfd : fd = -1)
    (hless : (s'.entries.fs.ent e).ref < (s.entries.fs.ent e).ref) :
    ¬ OpenLaws s p dp path fd s' := by
  rintro (⟨-, hsame⟩ | ⟨n, f, ep, heq, -, -⟩)
  · rw [hsame.ref e] at hless
    exact lt_irrefl _ hless
  · omega

/-- A call on a directory does what is wanted, and panics in no lock, if and only if the
condition holds. -/
theorem fileopen_at_iff (hok : s.Ok) (hdir : DirectoryOpen s p dfd dp) :
    (∃ fd s', fileopen fat s p dfd path omode = some (.returns fd s') ∧
        OpenLaws s p dp path fd s') ↔ CanOpen fat s p dp path omode := by
  have hheld := hdir.held
  rw [fileopen_at hdir, openIn]
  by_cases hcreate : omode &&& oCreate ≠ 0
  swap
  · rw [if_neg hcreate]
    constructor
    · rintro ⟨fd, s', hend, -⟩
      cases Option.some.inj hend
    · intro h
      exact absurd h.creates hcreate
  rw [if_pos hcreate, if_neg (by omega)]
  cases hcall : s.entries.ealloc fat dp path 0 with
  | none =>
      constructor
      · rintro ⟨fd, s', hend, -⟩
        exact absurd hend.symm (Option.some_ne_none _)
      · intro h
        obtain ⟨found, fs, hrun, -⟩ := h.ends
        rw [EntryCache.ealloc, hrun] at hcall
        exact absurd hcall (Option.some_ne_none _)
  | some result =>
      obtain ⟨found, entries⟩ := result
      have hrun := EntryCache.ealloc_fs hcall
      simp only [Option.bind_eq_bind, Option.bind_some]
      cases found with
      | none =>
          obtain ⟨hsame, hwhy⟩ := ealloc_none hrun
          rw [hsame, if_neg (by omega)]
          constructor
          · rintro ⟨fd, s', hend, hlaws⟩
            obtain ⟨entries', hput, heq⟩ := Option.map_eq_some_iff.mp hend
            obtain ⟨rfl, rfl⟩ := OpenOutcome.returns.inj heq
            refine absurd hlaws (not_openLaws (e := dp) rfl ?_)
            rw [← hsame]
            exact (eput_drops (EntryCache.eput_fs hput)).2
          · intro h
            exact absurd hwhy (not_or.mpr ⟨not_not.mpr h.valid, h.accepted⟩)
      | some ep =>
          obtain ⟨name, hname, hacq⟩ := ealloc_acquires hok.root hheld hrun
          have hdp : ¬ (entries.fs.ent dp).ref < 1 := by
            have href := hacq.ref dp
            split_ifs at href <;> omega
          rw [if_neg hdp]
          dsimp only
          have hplain := noDirectory_iff hrun
          by_cases hisdir : (entries.fs.ent ep).isDirectory = true
          · rw [if_pos hisdir]
            constructor
            · rintro ⟨fd, s', hend, hlaws⟩
              obtain ⟨entries₁, hput, hrest⟩ := Option.bind_eq_some_iff.mp hend
              obtain ⟨entries₂, hput₂, heq⟩ := Option.map_eq_some_iff.mp hrest
              obtain ⟨rfl, rfl⟩ := OpenOutcome.returns.inj heq
              -- the first `eput` undoes `ealloc`, the second one takes from the open file
              refine absurd hlaws (not_openLaws (e := dp) rfl ?_)
              rw [← hacq.eput hheld (EntryCache.eput_fs hput) dp]
              exact (eput_drops (EntryCache.eput_fs hput₂)).2
            · intro h
              exact absurd hisdir (Bool.eq_false_iff.mp (hplain.mp h.plain))
          · rw [if_neg hisdir, openEntry_iff hok hheld hacq hname]
            constructor
            · rintro ⟨hkept, hfull, hfree⟩
              refine ⟨hcreate, ealloc_valid hrun, ?_, hplain.mpr (Bool.eq_false_iff.mpr hisdir), hkept,
                some ep, entries.fs, hrun, fun i hi => ?_⟩
              · rw [hname]
                exact Option.some_ne_none _
              · obtain rfl := Option.some.inj hi
                exact ⟨hfull, hfree⟩
            · intro h
              obtain ⟨found, fs, hrun', hends⟩ := h.ends
              obtain ⟨rfl, rfl⟩ := Prod.mk.inj (Option.some.inj (hrun.symm.trans hrun'))
              exact ⟨h.kept, hends ep rfl⟩

theorem ok_of_run {r : EntryRun} {ls : List (EntryOp × Option ℕ)} {ops : List (FileOp ι)}
    {disk : Disk} {rootClus : ℕ} {ent : ℕ → Dirent}
    (hentries : Transition.Run (EntryRun.EntryStep fat) (EntryRun.start disk rootClus ent) ls r)
    (hfiles : Transition.Run OpenFiles.FileStep OpenFiles.fileinit ops s.files)
    (hcache : s.entries = r.cache) : s.Ok := by
  have hok := EntryRun.cacheOk_of_run hentries
  rw [← hcache] at hok
  refine ⟨hok.tree.rootFree, fun e => ?_, OpenFiles.freeNone_of_run hfiles⟩
  rw [hok.ref]
  omega

/-! ## The root of an empty volume is open -/

/-- Descriptor 3 is one of the root. -/
def rootOpen : OpenState Unit where
  entries := EntryRun.emptyRun.cache.edup 0
  files := (OpenFiles.fileinit.setFile 3 ⟨.entry, 1, true, false, 0, 0⟩).setSlot () 3 (.file 3)
  off _ := 0
  cwd _ := 0

theorem rootOpen_ok : rootOpen.Ok := by
  refine ⟨by decide, fun e => ?_, ?_⟩
  · by_cases he : e = 0
    · subst he
      decide
    · have hzero : (rootOpen.entries.fs.ent e).ref = 0 := by
        simp [rootOpen, EntryCache.edup, edup, FileSystem.set, EntryRun.emptyRun, EntryRun.start,
          EntryCache.fat32Init, he]
      rw [hzero]
  · have hinit : (OpenFiles.fileinit : OpenFiles Unit).FreeNone := OpenFiles.freeNone_of_run (.done _)
    exact OpenFiles.FreeNone.setFile hinit fun hzero => absurd hzero one_ne_zero

theorem rootOpen_directory : DirectoryOpen rootOpen () 3 0 :=
  ⟨⟨3, 3, rfl, by decide, by decide⟩, by decide, by decide⟩

/-- A file "a" is created and opened. -/
theorem fileopen_at_creates : ∃ fd s',
    fileopen EntryRun.emptyFat rootOpen () 3 [0x61] oCreate = some (.returns fd s') ∧
      OpenLaws rootOpen () 0 [0x61] fd s' := by
  have hnone : (dirlookup EntryRun.emptyFat rootOpen.entries.fs 0 [0x61] true).map Prod.fst =
      some none := by decide +kernel
  have hsome : (ealloc EntryRun.emptyFat rootOpen.entries.fs 0 [0x61] 0).isSome = true := by
    decide +kernel
  obtain ⟨⟨found, fs⟩, hcall⟩ := Option.isSome_iff_exists.mp hsome
  have hnofull : ¬ rootOpen.TablesFull () := by
    rintro (hfull | hfull)
    · exact hfull 4 rfl
    · exact hfull 4 (by decide) rfl
  refine (fileopen_at_iff rootOpen_ok rootOpen_directory).mpr ⟨by decide, rfl, by decide, ?_,
    Or.inr ⟨by decide, [0x61], by decide, by decide⟩, found, fs, hcall,
    fun ep _ => ⟨fun hfull => absurd hfull hnofull, fun _ => ?_⟩⟩
  · intro name ep stored fs' hname hlook
    have hkept : formatname [0x61] = some [0x61] := by decide
    obtain rfl := Option.some.inj (hkept.symm.trans hname)
    rw [hlook] at hnone
    exact absurd (Option.some.inj hnone) (Option.some_ne_none _)
  · rw [truncated, if_neg]
    · rfl
    · rintro ⟨-, htrunc⟩
      exact absurd htrunc (by decide)

/-- Without `O_CREATE` the lock of no entry is taken, and a path of two names costs the open
file its directory. -/
theorem fileopen_at_fails :
    rootOpen.Ok ∧ DirectoryOpen rootOpen () 3 0 ∧
      fileopen EntryRun.emptyFat rootOpen () 3 [0x61] 0 = some .elock ∧
      ∃ s', fileopen EntryRun.emptyFat rootOpen () 3 [0x61, 0x2F, 0x62] oCreate =
          some (.returns (-1) s') ∧
        (rootOpen.entries.fs.ent 0).ref = 1 ∧ (s'.entries.fs.ent 0).ref = 0 := by
  refine ⟨rootOpen_ok, rootOpen_directory, rfl, ?_⟩
  have hrun : ((fileopen EntryRun.emptyFat rootOpen () 3 [0x61, 0x2F, 0x62] oCreate).bind fun
      | .returns fd s' => some (fd, (s'.entries.fs.ent 0).ref)
      | _ => none) = some (-1, 0) := by decide +kernel
  obtain ⟨out, hcall, hout⟩ := Option.bind_eq_some_iff.mp hrun
  cases out with
  | elock => exact absurd hout.symm (Option.some_ne_none _)
  | eunlock => exact absurd hout.symm (Option.some_ne_none _)
  | returns fd s' =>
      obtain ⟨rfl, href⟩ := Prod.mk.inj (Option.some.inj hout)
      exact ⟨s', hcall, by decide, href⟩

end OpenState

end Calls

end K210Os
