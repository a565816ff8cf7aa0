import K210Os.DirectoryLookup
import K210Os.EntryAlloc
import K210Os.EntrySlots

/-!
# Putting slots into a directory

`emake` puts one slot behind the other and lets the directory grow under them. The slots of
the directory are then the old ones with the new ones laid over them; a cluster that was
appended brings slots of zeros.
-/

namespace K210Os

open LinkedChain

/-- Slot `k` of the bytes of a directory. -/
def slotOf (g : ℕ → Byte) (k : ℕ) : Dentry := (List.range 32).map fun j => g (32 * k + j)

/-- The slot of a zeroed cluster. -/
def blankSlot : Dentry := List.replicate 32 0

/-- The slots from number `k` on are `des`. -/
def overlay (slots : List Dentry) (k : ℕ) (des : List Dentry) : List Dentry :=
  slots.take k ++ (des ++ slots.drop (k + des.length))

/-- The bytes of slots one behind the other. -/
def slotBytes (des : List Dentry) : ℕ → Byte := Dentry.byte des.flatten

section Bytes
variable {fat : Fat32} {fs : FileSystem} {d : Disk} {cs : List ℕ} {dp k m n i a : ℕ}
  {g src src' : ℕ → Byte} {de : Dentry} {des des' : List Dentry}

theorem copyBytes_append : copyBytes (copyBytes g a src n) (a + n) src' m =
    copyBytes g a (fun j => if j < n then src j else src' (j - n)) (n + m) := by
  funext x
  simp only [copyBytes]
  split_ifs <;> first | rfl | omega | (congr 1; omega)

theorem slotBytes_cons (hde : de.length = 32) :
    slotBytes (de :: des) = fun j => if j < 32 then de.byte j else slotBytes des (j - 32) := by
  funext j
  rw [slotBytes, Dentry.byte, List.flatten_cons, List.getD_eq_getElem?_getD]
  split
  · rw [List.getElem?_append_left (by omega), Dentry.byte, List.getD_eq_getElem?_getD]
  · rw [List.getElem?_append_right (by omega), hde, slotBytes, Dentry.byte,
      List.getD_eq_getElem?_getD]

theorem slotBytes_singleton : slotBytes [de] = de.byte := by
  rw [slotBytes, List.flatten_singleton]

theorem slotOf_slotBytes (hdes : ∀ de ∈ des, de.length = 32) (hi : i < des.length) :
    slotOf (slotBytes des) i = des[i] := by
  induction des generalizing i with
  | nil => simp at hi
  | cons de des ih =>
    have hde := hdes de List.mem_cons_self
    have hrest : ∀ de ∈ des, de.length = 32 := fun de h => hdes de (List.mem_cons_of_mem _ h)
    rw [slotBytes_cons hde]
    cases i with
    | zero =>
      apply ext_byte (by simp [slotOf]) hde
      intro j hj
      simp [slotOf, Dentry.byte, hj]
    | succ i =>
      rw [List.getElem_cons_succ, ← ih hrest (by simpa using hi), slotOf, slotOf]
      apply List.map_congr_left
      intro j hj
      have hj := List.mem_range.mp hj
      rw [if_neg (by omega)]
      congr 1
      omega

/-- Bytes laid over whole slots. -/
theorem slotOf_copyBytes (i : ℕ) : slotOf (copyBytes g (32 * k) src (32 * n)) i =
    if k ≤ i ∧ i < k + n then slotOf src (i - k) else slotOf g i := by
  split
  · apply List.map_congr_left
    intro j hj
    have hj := List.mem_range.mp hj
    rw [copyBytes_inside (by omega) (by omega)]
    congr 1
    omega
  · apply List.map_congr_left
    intro j hj
    have hj := List.mem_range.mp hj
    rw [copyBytes_outside (by omega)]

theorem StoredDirectory.dirSlots_bytes (h : StoredDirectory fat fs dp cs) (d : Disk) :
    dirSlots fat d cs =
      (List.range (cs.length * fat.bytsPerClus / 32)).map (slotOf (chainByte fat d cs)) := by
  rw [dirSlots]
  apply List.map_congr_left
  intro k hk
  have hk : k < (dirSlots fat d cs).length := by
    rw [length_dirSlots]
    exact List.mem_range.mp hk
  obtain ⟨c, hc, -, hin, hbyte⟩ := h.place hk
  rw [← h.geometry.cluster] at hin
  apply ext_byte length_dirSlot (by simp [slotOf])
  intro j hj
  rw [hbyte d j hj, ← chainByte_unit h.geometry hc hin hj]
  simp [slotOf, Dentry.byte, hj]

theorem length_overlay {slots : List Dentry} (h : k + des.length ≤ slots.length) :
    (overlay slots k des).length = slots.length := by
  simp only [overlay, List.length_append, List.length_take, List.length_drop]
  omega

/-- The slots of bytes with slots laid over them. -/
theorem map_slotOf_overlay (hdes : ∀ de ∈ des, de.length = 32) (hin : k + des.length ≤ n) :
    (List.range n).map (slotOf (copyBytes g (32 * k) (slotBytes des) (32 * des.length))) =
      overlay ((List.range n).map (slotOf g)) k des := by
  have hlen : (overlay ((List.range n).map (slotOf g)) k des).length = n := by
    rw [length_overlay (by simpa using hin), List.length_map, List.length_range]
  apply List.ext_getElem (by rw [hlen, List.length_map, List.length_range])
  intro i hi _
  have hi : i < n := by simpa using hi
  rw [List.getElem_map, List.getElem_range, slotOf_copyBytes]
  simp only [overlay]
  by_cases hlow : i < k
  · rw [if_neg (by omega), List.getElem_append_left (by simp; omega)]
    simp
  · rw [List.getElem_append_right (by simp; omega)]
    by_cases hmid : i < k + des.length
    · rw [if_pos ⟨by omega, hmid⟩, List.getElem_append_left (by simp; omega)]
      simp only [List.length_take, List.length_map, List.length_range]
      rw [slotOf_slotBytes hdes (by omega)]
      congr 1
      omega
    · rw [if_neg (by omega), List.getElem_append_right (by simp; omega)]
      simp only [List.getElem_drop, List.getElem_map, List.getElem_range, List.length_take,
        List.length_map, List.length_range]
      congr 1
      omega

/-- Behind the end of a chain there are zeros. -/
theorem slotOf_chainByte_end (hbpc : 32 ∣ fat.bytsPerClus) (hpos : 0 < fat.bytsPerClus)
    (hk : cs.length * fat.bytsPerClus / 32 ≤ k) : slotOf (chainByte fat d cs) k = blankSlot := by
  obtain ⟨w, hw⟩ := hbpc
  have hend : cs.length * fat.bytsPerClus ≤ 32 * k := by
    rw [hw] at hk ⊢
    have : cs.length * (32 * w) = 32 * (cs.length * w) := by ring
    omega
  apply List.eq_replicate_iff.mpr
  refine ⟨by simp [slotOf], fun b hb => ?_⟩
  obtain ⟨j, -, rfl⟩ := List.mem_map.mp hb
  have hlen : cs.length ≤ (32 * k + j) / fat.bytsPerClus :=
    (Nat.le_div_iff_mul_le hpos).mpr (by omega)
  rw [chainByte, List.getElem?_eq_none hlen]

end Bytes

/-! ## The calls -/

/-- From `fs` to `fs'` the slots `des` were put into directory `dp` at `off`. -/
structure SlotsLaid (fat : Fat32) (dp : ℕ) (cs new : List ℕ) (off : ℕ) (des : List Dentry)
    (fs fs' : FileSystem) : Prop where
  clus : DirectoryClus fat fs' dp (cs ++ new)
  step : FileStep fat (fs.ent dp).firstClus cs new
    (copyBytes (chainByte fat fs.disk cs) off (slotBytes des) (32 * des.length)) fs.disk fs'.disk
  dir : ∃ c q, fs'.ent dp = (fs.ent dp).at c q
  other : ∀ j ≠ dp, fs'.ent j = fs.ent j
  lru : fs'.lru = fs.lru
  inside : off + 32 * des.length ≤ (cs ++ new).length * fat.bytsPerClus
  reach : (cs ++ new).length ≤ max cs.length ((off + 32 * des.length) / fat.bytsPerClus + 1)

section Put
variable {fat : Fat32} {fs fs' fs'' : FileSystem} {cs new new' : List ℕ} {dp ep off k : ℕ}
  {de : Dentry} {des des' : List Dentry}

/-- One slot. -/
theorem DirectoryClus.putDentry_put (hg : Geometry fat) (h : DirectoryClus fat fs dp cs)
    (hoff : off % 32 = 0)
    (hroom : off / fat.bytsPerClus + 1 - cs.length ≤ (freeClusters fat fs.disk).card) :
    ∃ new fs', putDentry fat fs dp off de = some fs' ∧ SlotsLaid fat dp cs new off [de] fs fs' ∧
      new.length = off / fat.bytsPerClus + 1 - cs.length := by
  obtain ⟨new, d₁, c, hreloc, hc, hlen, hext⟩ :=
    relocClus_alloc hg h.sound h.fileChain (h.file.cursor h.nonempty) off hroom
  have hin := slot_inside hg hoff
  obtain ⟨d₂, hwrite, hw⟩ := rwClusWrite_eq hg
    (hext.chain.range _ (List.mem_of_getElem? hc)) d₁ (kernelCopy de) (fun _ _ => rfl)
    (by omega : 0 < 32) hin
  have hstep := (hext.fileStep hg h.fileChain).trans
    (hw.fileStep hg hext.sound hext.chain hc hin)
  rw [List.append_nil, chainByte_extended hg h.fileChain hext, Nat.div_add_mod] at hstep
  have hcur : ((fs.ent dp).at c (off / fat.bytsPerClus)).curClus = c := rfl
  have hput : putDentry fat fs dp off de =
      some ({ fs with disk := d₂ }.set dp ((fs.ent dp).at c (off / fat.bytsPerClus))) := by
    simp only [putDentry, relocEnt, hreloc, Option.map_some, Option.bind_eq_bind,
      Option.bind_some, FileSystem.set, Function.update_self, hcur, hwrite]
    rfl
  have hlast := (List.getElem?_eq_some_iff.mp hc).1
  have hend : off + 32 ≤ (cs ++ new).length * fat.bytsPerClus := by
    have hsplit := Nat.div_add_mod off fat.bytsPerClus
    have hle := Nat.mul_le_mul_right fat.bytsPerClus (Nat.succ_le_of_lt hlast)
    rw [Nat.succ_mul, Nat.mul_comm] at hle
    omega
  refine ⟨new, _, hput, ⟨⟨hstep.sound, ?_, by simp [h.nonempty], ?_⟩, ?_,
    ⟨c, _, FileSystem.set_ent_self _ _ _⟩, fun j hj => FileSystem.set_ent_of_ne _ _ hj, rfl,
    hend, ?_⟩, hlen⟩
  · rw [FileSystem.set_ent_self]
    refine ⟨.inr hstep.chain, h.file.long.trans ?_, h.file.size_lt, fun _ => hc⟩
    exact Nat.mul_le_mul_right _ (by rw [List.length_append]; omega)
  · rw [FileSystem.set_ent_self]
    exact h.directory
  · rw [slotBytes_singleton]
    exact hstep
  · rw [List.length_append, hlen]
    have hmono : off / fat.bytsPerClus ≤ (off + 32 * 1) / fat.bytsPerClus :=
      Nat.div_le_div_right (by omega)
    show _ ≤ max cs.length ((off + 32 * 1) / fat.bytsPerClus + 1)
    omega

theorem SlotsLaid.free (h : SlotsLaid fat dp cs new off des fs fs') :
    (freeClusters fat fs'.disk).card = (freeClusters fat fs.disk).card - new.length ∧
      new.length ≤ (freeClusters fat fs.disk).card := by
  have hnodup : new.Nodup :=
    (List.nodup_append.mp h.step.chain.chain.nodup).2.1
  have hsub : new.toFinset ⊆ freeClusters fat fs.disk := fun c hc =>
    h.step.fresh c (List.mem_toFinset.mp hc)
  have hcard := List.toFinset_card_of_nodup hnodup
  exact ⟨h.step.card_free, hcard ▸ Finset.card_le_card hsub⟩

theorem SlotsLaid.trans (h : SlotsLaid fat dp cs new off [de] fs fs') (hde : de.length = 32)
    (k : SlotsLaid fat dp (cs ++ new) new' (off + 32) des fs' fs'') :
    SlotsLaid fat dp cs (new ++ new') off (de :: des) fs fs'' where
  clus := by
    rw [← List.append_assoc]
    exact k.clus
  step := by
    obtain ⟨c, q, hdir⟩ := h.dir
    have hfirst : (fs'.ent dp).firstClus = (fs.ent dp).firstClus := by
      rw [hdir]
      rfl
    have hsecond := k.step
    rw [hfirst, h.step.bytes] at hsecond
    have hboth := h.step.trans hsecond
    rw [List.length_singleton, copyBytes_append, slotBytes_singleton] at hboth
    rw [List.length_cons, Nat.mul_succ, Nat.add_comm _ 32, slotBytes_cons hde]
    exact hboth
  dir := by
    obtain ⟨c, q, hdir⟩ := h.dir
    obtain ⟨c', q', hdir'⟩ := k.dir
    refine ⟨c', q', ?_⟩
    rw [hdir', hdir]
    rfl
  other j hj := (k.other j hj).trans (h.other j hj)
  lru := k.lru.trans h.lru
  inside := by
    have hinside := k.inside
    rw [← List.append_assoc, List.length_cons]
    omega
  reach := by
    have hreach := k.reach
    have hreach' := h.reach
    have hmono : (off + 32 * 1) / fat.bytsPerClus ≤ (off + 32 * (des.length + 1)) / fat.bytsPerClus :=
      Nat.div_le_div_right (by omega)
    have heq : off + 32 + 32 * des.length = off + 32 * (des.length + 1) := by omega
    rw [heq] at hreach
    rw [List.length_singleton] at hreach'
    rw [← List.append_assoc, List.length_cons]
    omega

/-- Slots one behind the other. -/
theorem DirectoryClus.putDentries_put (hg : Geometry fat) (h : DirectoryClus fat fs dp cs)
    (hoff : off % 32 = 0) (hdes : ∀ x ∈ de :: des, x.length = 32)
    (hwrap : off + 32 * des.length < 2 ^ 32)
    (hroom : slotsReach fat des.length off - cs.length ≤ (freeClusters fat fs.disk).card) :
    ∃ new fs' off', putDentries fat dp (de :: des) fs off = some (fs', off') ∧
      SlotsLaid fat dp cs new off (de :: des) fs fs' := by
  induction des generalizing de fs off cs with
  | nil =>
    obtain ⟨new, fs', hput, hslots, -⟩ :=
      h.putDentry_put hg hoff hroom
    refine ⟨new, fs', (off + 32) % 2 ^ 32, ?_, hslots⟩
    rw [putDentries, hput]
    rfl
  | cons de' des ih =>
    have hde := hdes de List.mem_cons_self
    rw [List.length_cons] at hwrap hroom
    rw [slotsReach, Nat.mod_eq_of_lt (by omega)] at hroom
    obtain ⟨new, fs₁, hput, hslots, hlen⟩ := h.putDentry_put hg hoff (by omega)
    obtain ⟨hfree, hle⟩ := hslots.free
    have hoff' : (off + 32) % 32 = 0 := by omega
    obtain ⟨new', fs', off', hrest, hslots'⟩ := ih hslots.clus hoff'
      (fun x hx => hdes x (List.mem_cons_of_mem _ hx)) (by omega)
      (by rw [List.length_append]; omega)
    refine ⟨new ++ new', fs', off', ?_, hslots.trans hde hslots'⟩
    rw [putDentries, hput, Option.bind_eq_bind, Option.bind_some, Nat.mod_eq_of_lt (by omega)]
    exact hrest

/-- What the directory holds behind the calls. -/
theorem SlotsLaid.dirSlots_eq (h : SlotsLaid fat dp cs new (32 * k) des fs fs')
    (hdes : ∀ de ∈ des, de.length = 32) (hs : StoredDirectory fat fs dp cs)
    (hs' : StoredDirectory fat fs' dp (cs ++ new)) :
    k + des.length ≤ (dirSlots fat fs'.disk (cs ++ new)).length ∧
      ∃ z, dirSlots fat fs'.disk (cs ++ new) =
        overlay (dirSlots fat fs.disk cs ++ List.replicate z blankSlot) k des := by
  obtain ⟨w, hw⟩ := hs.sizes.dvd
  have hinside := h.inside
  have hlen : ∀ n, n * fat.bytsPerClus / 32 = n * w := fun n => by
    rw [hw, Nat.mul_left_comm, Nat.mul_div_cancel_left _ (by decide)]
  have hsplit : (cs ++ new).length * w = cs.length * w + new.length * w := by
    rw [List.length_append, Nat.add_mul]
  have hfits : k + des.length ≤ (cs ++ new).length * w := by
    rw [hw, Nat.mul_left_comm] at hinside
    omega
  refine ⟨by rw [length_dirSlots, hlen]; exact hfits, new.length * w, ?_⟩
  have hgrown : (List.range ((cs ++ new).length * w)).map (slotOf (chainByte fat fs.disk cs)) =
      dirSlots fat fs.disk cs ++ List.replicate (new.length * w) blankSlot := by
    rw [hs.dirSlots_bytes, hlen, hsplit, List.range_add, List.map_append, List.map_map]
    congr 1
    apply List.eq_replicate_iff.mpr
    refine ⟨by simp, fun b hb => ?_⟩
    obtain ⟨j, -, rfl⟩ := List.mem_map.mp hb
    exact slotOf_chainByte_end hs.sizes.dvd hs.sizes.pos
      ((hlen cs.length).le.trans (Nat.le_add_right _ _))
  rw [hs'.dirSlots_bytes, hlen, h.step.bytes, map_slotOf_overlay hdes hfits, hgrown]

/-! ## `emake` -/

/-- The slots that `emake` writes. -/
def emakeSlots (fs : FileSystem) (ep off : ℕ) : List Dentry :=
  if off ≤ 32 then
    let name := if off = 0 then cstring (0x2E :: List.replicate 10 0x20)
      else cstring (0x2E :: 0x2E :: List.replicate 9 0x20)
    [shortDentry (strncpy name charShortName 0) attrDirectory (fs.ent ep).firstClus 0]
  else nameSlots (fs.ent ep).filename ++ [nameShort (fs.ent ep).filename (fs.ent ep)]

theorem putDentries_append (des des' : List Dentry) (fs : FileSystem) (off : ℕ) :
    putDentries fat dp (des ++ des') fs off =
      (putDentries fat dp des fs off).bind fun r => putDentries fat dp des' r.1 r.2 := by
  induction des generalizing fs off with
  | nil => rfl
  | cons de des ih =>
    simp only [List.cons_append, putDentries, Option.bind_eq_bind, Option.bind_assoc, ih]

theorem putDentry_other (hput : putDentry fat fs dp off de = some fs') {j : ℕ} (hj : j ≠ dp) :
    fs'.ent j = fs.ent j := by
  simp only [putDentry, relocEnt, Option.bind_eq_bind, Option.bind_eq_some_iff,
    Option.map_eq_some_iff] at hput
  obtain ⟨_, ⟨r, -, rfl⟩, _, -, hend⟩ := hput
  obtain rfl := Option.some.inj hend
  exact FileSystem.set_ent_of_ne _ _ hj

theorem putDentries_other {off' : ℕ} (hput : putDentries fat dp des fs off = some (fs', off'))
    {j : ℕ} (hj : j ≠ dp) : fs'.ent j = fs.ent j := by
  induction des generalizing fs off with
  | nil =>
    obtain ⟨rfl, -⟩ := Prod.mk.inj (Option.some.inj hput)
    rfl
  | cons de des ih =>
    rw [putDentries] at hput
    obtain ⟨fs₁, hfirst, hrest⟩ := Option.bind_eq_some_iff.mp hput
    exact (ih hrest).trans (putDentry_other hfirst hj)

/-- `emake` puts its slots one behind the other. -/
theorem emake_eq_putDentries (hdir : (fs.ent dp).isDirectory = true) (hoff : off % 32 = 0)
    (hep : off ≤ 32 ∨ ep ≠ dp) : emake fat fs dp ep off =
      (putDentries fat dp (emakeSlots fs ep off) fs off).map Prod.fst := by
  by_cases hdot : off ≤ 32
  · rw [emake, if_neg (by simp [hdir, hoff]), if_pos hdot, emakeSlots, if_pos hdot]
    simp only [putDentries, Option.bind_eq_bind, Option.map_bind]
    cases putDentry fat fs dp off _ <;> rfl
  · rw [emake_eq hdir hoff (by omega), emakeSlots, if_neg hdot, putDentries_append]
    cases hlongs : putDentries fat dp (nameSlots (fs.ent ep).filename) fs off with
    | none => rfl
    | some r =>
      have hsame := putDentries_other hlongs (hep.resolve_left hdot)
      simp only [Option.bind_some, hsame, putDentries, Option.bind_eq_bind]
      cases putDentry fat r.1 dp r.2 (nameShort (fs.ent ep).filename (fs.ent ep)) <;> rfl

theorem length_strncpy (src : ℕ → Byte) (n i : ℕ) : (strncpy src n i).length = n := by
  induction n generalizing i with
  | zero => rfl
  | succ n ih =>
    rw [strncpy]
    split <;> simp [ih]

theorem length_shortDentry (src : ℕ → Byte) (attr firstClus fileSize : ℕ) :
    (shortDentry (strncpy src charShortName 0) attr firstClus fileSize).length = 32 := by
  simp [shortDentry, length_strncpy, charShortName, leBytes]

theorem length_longDentry (order : ℕ) (checksum : Byte) (p : ℕ → Byte) :
    (longDentry order checksum p).length = 32 := by
  rw [longDentry_eq]
  rfl

theorem length_of_mem_longDentries {filename : ℕ → Byte} {checksum : Byte} {entcnt n : ℕ}
    (hde : de ∈ longDentries filename checksum entcnt n) : de.length = 32 := by
  induction n with
  | zero => cases hde
  | succ n ih =>
    rw [longDentries] at hde
    rcases List.mem_cons.mp hde with rfl | hde
    · exact length_longDentry _ _ _
    · exact ih hde

theorem length_of_mem_emakeSlots (fs : FileSystem) (ep off : ℕ) :
    ∀ de ∈ emakeSlots fs ep off, de.length = 32 := by
  intro de hde
  rw [emakeSlots] at hde
  split at hde
  · rw [List.mem_singleton.mp hde]
    exact length_shortDentry _ _ _ _
  · rcases List.mem_append.mp hde with hde | hde
    · exact length_of_mem_longDentries hde
    · rw [List.mem_singleton.mp hde]
      exact length_shortDentry _ _ _ _

theorem length_emakeSlots (fs : FileSystem) (ep off : ℕ) :
    (emakeSlots fs ep off).length =
      (if off ≤ 32 then 0 else longSlots (strlen (fs.ent ep).filename)) + 1 := by
  rw [emakeSlots]
  split
  · rfl
  · rw [List.length_append, nameSlots, length_longDentries, List.length_singleton]

/-- `emake` in a directory for whose growth there are free clusters. -/
theorem DirectoryClus.emake_laid (hg : Geometry fat) (h : DirectoryClus fat fs dp cs)
    (ep : ℕ) (hoff : off % 32 = 0) (hep : off ≤ 32 ∨ ep ≠ dp)
    (hwrap : off + 32 * (emakeSlots fs ep off).length ≤ 2 ^ 32)
    (hroom : emakeReach fat (fs.ent ep).filename off - cs.length ≤
      (freeClusters fat fs.disk).card) :
    ∃ new fs', emake fat fs dp ep off = some fs' ∧
      SlotsLaid fat dp cs new off (emakeSlots fs ep off) fs fs' := by
  have hlen := length_emakeSlots fs ep off
  have hdes := length_of_mem_emakeSlots fs ep off
  rw [emake_eq_putDentries h.directory hoff hep]
  cases hslots : emakeSlots fs ep off with
  | nil =>
    rw [hslots] at hlen
    exact absurd hlen (Nat.succ_ne_zero _).symm
  | cons de des =>
    rw [hslots, List.length_cons] at hlen hwrap
    rw [hslots] at hdes
    have hreach : slotsReach fat des.length off = emakeReach fat (fs.ent ep).filename off := by
      rw [Nat.add_right_cancel hlen, emakeReach]
      split <;> rfl
    obtain ⟨new, fs', off', hput, hlaid⟩ :=
      h.putDentries_put hg hoff hdes (by omega) (hreach ▸ hroom)
    exact ⟨new, fs', by rw [hput]; rfl, hlaid⟩

end Put

end K210Os
