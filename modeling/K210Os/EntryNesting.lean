import K210Os.DirectoryWrites
import K210Os.EntryCacheRuns

/-!
# Where cached entries lie

A valid entry lies in a directory, under a name that `dirlookup` looks for: the two names that it
answers by itself are never linked. All calls on the cache keep this.
-/

namespace K210Os

open Transition EntryCache

/-! ## Attributes -/

section Attributes

variable {fat : Fat32} {fs fs' : FileSystem} {dp ep off off' : ℕ}

theorem relocEnt_attr {alloc : Bool} (h : relocEnt fat fs dp off alloc = some (off', fs')) (i : ℕ) :
    (fs'.ent i).attr = (fs.ent i).attr := by
  obtain ⟨⟨_, d, entry⟩, hreloc, heq⟩ := Option.map_eq_some_iff.mp h
  obtain ⟨-, rfl⟩ := Prod.mk.inj heq
  obtain ⟨cur, cnt, rfl⟩ := relocClus_keeps hreloc
  by_cases hi : i = dp
  · subst hi
    rw [FileSystem.set_ent_self]
  · simp [FileSystem.set, hi]

theorem putDentry_attr {de : Dentry} (h : putDentry fat fs dp off de = some fs') (i : ℕ) :
    (fs'.ent i).attr = (fs.ent i).attr := by
  obtain ⟨⟨off₁, fs₁⟩, hreloc, hrest⟩ := Option.bind_eq_some_iff.mp h
  obtain ⟨⟨n, d⟩, -, hend⟩ := Option.bind_eq_some_iff.mp hrest
  obtain rfl := Option.some.inj hend
  exact relocEnt_attr hreloc i

theorem emakeLongs_attr {entcnt n : ℕ} {filename : ℕ → Byte} {checksum : Byte}
    (h : emakeLongs fat dp filename checksum entcnt n fs off = some (fs', off')) (i : ℕ) :
    (fs'.ent i).attr = (fs.ent i).attr := by
  induction n generalizing fs off with
  | zero =>
      obtain ⟨rfl, -⟩ := Prod.mk.inj (Option.some.inj h)
      rfl
  | succ n ih =>
      obtain ⟨fs₁, hput, hrest⟩ := Option.bind_eq_some_iff.mp h
      exact (ih hrest).trans (putDentry_attr hput i)

theorem emake_attr (h : emake fat fs dp ep off = some fs') (i : ℕ) :
    (fs'.ent i).attr = (fs.ent i).attr := by
  rw [emake] at h
  split at h
  · exact absurd h.symm (Option.some_ne_none _)
  split at h
  · exact putDentry_attr h i
  · obtain ⟨⟨fs₁, off₁⟩, hlongs, hput⟩ := Option.bind_eq_some_iff.mp h
    exact (putDentry_attr hput i).trans (emakeLongs_attr hlongs i)

theorem eupdate_attr (h : eupdate fat fs ep = some fs') (i : ℕ) :
    (fs'.ent i).attr = (fs.ent i).attr := by
  rw [eupdate] at h
  dsimp only at h
  split at h
  · obtain rfl := Option.some.inj h
    rfl
  · simp only [Option.bind_eq_bind, Option.bind_eq_some_iff] at h
    obtain ⟨⟨off₁, fs₁⟩, h₁, ⟨_, order⟩, -, ⟨off₂, fs₂⟩, h₂, ⟨_, de⟩, -, ⟨_, d⟩, -, h⟩ := h
    obtain rfl := Option.some.inj h
    exact (sameAttr_set (by rfl) i).trans ((relocEnt_attr h₂ i).trans (relocEnt_attr h₁ i))

theorem eput_attr {n : ℕ} (h : K210Os.eput fat n fs ep = some fs') (i : ℕ) :
    (fs'.ent i).attr = (fs.ent i).attr := by
  induction n generalizing fs ep with
  | zero => exact absurd h.symm (Option.some_ne_none _)
  | succ n ih =>
      have hset : ∀ (fs₁ : FileSystem) (entry : Dirent), entry.attr = (fs₁.ent ep).attr →
          ((fs₁.set ep entry).ent i).attr = (fs₁.ent i).attr :=
        fun fs₁ entry hattr => sameAttr_set hattr i
      have hdrop : ∀ fs₁ : FileSystem, ((edrop fs₁ ep).ent i).attr = (fs₁.ent i).attr :=
        fun fs₁ => hset fs₁ _ rfl
      have hup : ∀ {fs₁ : FileSystem} {up : ℕ}, (fs₁.ent i).attr = (fs.ent i).attr →
          (if ((edrop fs₁ ep).ent ep).ref = 0 then K210Os.eput fat n (edrop fs₁ ep) up
            else some (edrop fs₁ ep)) = some fs' → (fs'.ent i).attr = (fs.ent i).attr := by
        intro fs₁ up hsame hrest
        split at hrest
        · exact (ih hrest).trans ((hdrop fs₁).trans hsame)
        · obtain rfl := Option.some.inj hrest
          exact (hdrop fs₁).trans hsame
      rw [K210Os.eput] at h
      dsimp only at h
      split at h
      · split at h
        · obtain ⟨fs₁, htrunc, h⟩ := Option.bind_eq_some_iff.mp h
          obtain ⟨⟨d, entry⟩, hfreed, rfl⟩ := Option.map_eq_some_iff.mp htrunc
          obtain ⟨d', -, heq⟩ := Option.map_eq_some_iff.mp hfreed
          obtain ⟨rfl, rfl⟩ := Prod.mk.inj heq
          refine hup ?_ h
          exact hset _ _ rfl
        split at h
        · exact absurd h.symm (Option.some_ne_none _)
        · obtain ⟨fs₁, hupdate, h⟩ := Option.bind_eq_some_iff.mp h
          exact hup (eupdate_attr hupdate i) h
      · obtain rfl := Option.some.inj h
        exact hdrop fs

theorem enextLoop_attr {fuel : ℕ} {s s' : Enext} {code : ℤ} {info : Option Dentry}
    (h : enextLoop fat dp fuel fs off s = some (code, s', info, fs')) (i : ℕ) :
    (fs'.ent i).attr = (fs.ent i).attr := by
  induction fuel generalizing fs off s with
  | zero => exact absurd h.symm (Option.some_ne_none _)
  | succ fuel ih =>
      rw [enextLoop] at h
      obtain ⟨⟨off₁, fs₁⟩, hreloc, h⟩ := Option.bind_eq_some_iff.mp h
      have hsame := relocEnt_attr hreloc i
      dsimp only at h
      split at h
      · obtain ⟨-, -, -, rfl⟩ := by simpa using h
        exact hsame
      obtain ⟨⟨got, de⟩, -, h⟩ := Option.bind_eq_some_iff.mp h
      dsimp only at h
      split at h
      · obtain ⟨-, -, -, rfl⟩ := by simpa using h
        exact hsame
      obtain ⟨next, -, h⟩ := Option.bind_eq_some_iff.mp h
      cases next with
      | more s => exact (ih h).trans hsame
      | done code s info =>
          obtain ⟨-, -, -, rfl⟩ := by simpa using h
          exact hsame

/-- `enext` writes the entry that it reads into. -/
theorem enext_attr {count count' : ℕ} {code : ℤ}
    (h : enext fat fs dp ep off count = some (code, count', fs')) {i : ℕ} (hi : i ≠ ep) :
    (fs'.ent i).attr = (fs.ent i).attr := by
  rw [enext] at h
  split at h
  · exact absurd h.symm (Option.some_ne_none _)
  split at h
  · obtain ⟨-, -, rfl⟩ := by simpa using h
    rfl
  · obtain ⟨⟨code', s, info, fs₁⟩, hloop, h⟩ := Option.bind_eq_some_iff.mp h
    obtain ⟨-, -, rfl⟩ := by simpa using h
    rw [FileSystem.set_ent_of_ne _ _ hi]
    exact enextLoop_attr hloop i

theorem dirlookupLoop_attr {filename : List Byte} {n count : ℕ} {poff : Bool}
    {stored stored' found : Option ℕ}
    (h : dirlookupLoop fat filename dp ep n fs off count poff stored = some (found, stored', fs'))
    {i : ℕ} (hi : i ≠ ep) : (fs'.ent i).attr = (fs.ent i).attr := by
  induction n generalizing fs off count poff stored with
  | zero => exact absurd h.symm (Option.some_ne_none _)
  | succ n ih =>
      rw [dirlookupLoop] at h
      obtain ⟨⟨code, count₁, fs₁⟩, hnext, h⟩ := Option.bind_eq_some_iff.mp h
      have hsame := enext_attr hnext hi
      by_cases hcode : code = -1
      · simp only [hcode, ne_eq, not_true_eq_false, if_false] at h
        obtain ⟨fs₂, hput, h⟩ := Option.bind_eq_some_iff.mp h
        obtain ⟨-, -, rfl⟩ := by simpa using h
        exact (eput_attr hput i).trans hsame
      · simp only [hcode, ne_eq, not_false_eq_true, if_true, one_ne_zero, if_false] at h
        split at h
        · obtain ⟨-, -, rfl⟩ := by simpa using h
          rw [FileSystem.set_ent_of_ne _ _ hi]
          exact (sameAttr_set (by rfl) i).trans hsame
        · exact (ih h).trans hsame

theorem eallocNew_attr {name : List Byte} {attr : ℕ}
    (h : eallocNew fat fs dp ep name attr off = some fs') {i : ℕ} (hi : i ≠ ep) :
    (fs'.ent i).attr = (fs.ent i).attr := by
  have hentry : ((eallocEntry fs dp ep name attr off).ent i).attr = (fs.ent i).attr := by
    rw [eallocEntry, FileSystem.set_ent_of_ne _ _ hi]
    exact sameAttr_set (by rfl) i
  rw [eallocNew] at h
  dsimp only at h
  have hend : ∀ {fs₁ : FileSystem}, (fs₁.ent i).attr = (fs.ent i).attr →
      ((emake fat fs₁ dp ep off).bind fun fs => some (fs.set ep { fs.ent ep with valid := 1 })) =
        some fs' → (fs'.ent i).attr = (fs.ent i).attr := by
    intro fs₁ hsame hrest
    obtain ⟨fs₂, hput, hrest⟩ := Option.bind_eq_some_iff.mp hrest
    obtain rfl := Option.some.inj hrest
    rw [FileSystem.set_ent_of_ne _ _ hi]
    exact (emake_attr hput i).trans hsame
  split at h
  · obtain ⟨fs₁, hdot, h⟩ := Option.bind_eq_some_iff.mp h
    obtain ⟨fs₂, hdotdot, h⟩ := Option.bind_eq_some_iff.mp h
    refine hend ((emake_attr hdotdot i).trans ((emake_attr hdot i).trans ?_)) h
    rw [FileSystem.set_ent_of_ne _ _ hi]
    exact hentry
  · obtain ⟨fs₁, hset, h⟩ := Option.bind_eq_some_iff.mp h
    obtain rfl := Option.some.inj hset
    refine hend ?_ h
    rw [FileSystem.set_ent_of_ne _ _ hi]
    exact hentry

end Attributes

/-! ## One call -/

/-- The name is none that `dirlookup` answers without looking. -/
def Plain (key : List Byte) : Prop := key ≠ [0x2E] ∧ key ≠ [0x2E, 0x2E]

/-- Every valid entry lies in a directory, under a name that is looked for. -/
def Nested (fs : FileSystem) : Prop :=
  ∀ c, c ≠ 0 → (fs.ent c).valid ≠ 0 →
    (fs.ent (fs.ent c).parent).isDirectory = true ∧ Plain (nameKey (fs.ent c).filename)

/-- Nothing but counts has changed. -/
def OnlyRefs (fs fs' : FileSystem) : Prop :=
  ∃ ref : ℕ → ℤ, fs' = { fs with ent := fun i => { fs.ent i with ref := ref i } }

section Calls

variable {fat : Fat32} {fs fs' fs'' : FileSystem} {s s' : EntryCache} {handles : ℕ → ℕ}
  {dp ep e : ℕ}

theorem OnlyRefs.trans (h : OnlyRefs fs fs') (h' : OnlyRefs fs' fs'') : OnlyRefs fs fs'' := by
  obtain ⟨ref, rfl⟩ := h
  obtain ⟨ref', rfl⟩ := h'
  exact ⟨ref', rfl⟩

theorem onlyRefs_set (fs : FileSystem) (i : ℕ) (n : ℤ) :
    OnlyRefs fs (fs.set i { fs.ent i with ref := n }) := by
  refine ⟨Function.update (fun j => (fs.ent j).ref) i n, ?_⟩
  refine congrArg (fun ent => ({ fs with ent := ent } : FileSystem)) (funext fun j => ?_)
  by_cases hj : j = i
  · subst hj
    rw [Function.update_self, Function.update_self]
  · rw [Function.update_of_ne hj, Function.update_of_ne hj]

theorem EntryCache.eget_onlyRefs {name : List Byte} (hcached : s.cached dp name = some e)
    (hrun : eget s.fs dp name = some (ep, fs')) : ep = e ∧ OnlyRefs s.fs fs' := by
  rw [eget, show s.fs.lru.find? (egetHit s.fs dp name) = some e from hcached] at hrun
  obtain ⟨rfl, rfl⟩ := Prod.mk.inj (Option.some.inj hrun)
  refine ⟨rfl, ?_⟩
  split
  · exact (onlyRefs_set _ _ _).trans (onlyRefs_set _ _ _)
  · exact onlyRefs_set _ _ _

theorem Nested.onlyRefs (h : Nested fs) (hrefs : OnlyRefs fs fs') : Nested fs' := by
  obtain ⟨ref, rfl⟩ := hrefs
  exact h

theorem Nested.stays (h : Nested fs) (hstay : Stays fs fs')
    (hattr : ∀ i, (fs'.ent i).attr = (fs.ent i).attr) : Nested fs' := by
  intro c hc hvalid
  rw [hstay.valid] at hvalid
  rw [hstay.parent, hstay.filename c hvalid, Dirent.isDirectory, hattr]
  exact h c hc hvalid

/-- Nothing lies in the entry `ep` that changes. -/
theorem Nested.change (h : Nested fs)
    (hchildless : ∀ c, c ≠ 0 → (fs.ent c).valid ≠ 0 → (fs.ent c).parent ≠ ep)
    (hattr : ∀ i, i ≠ ep → (fs'.ent i).attr = (fs.ent i).attr)
    (hrest : ∀ c, c ≠ ep → (fs'.ent c).valid ≠ 0 → (fs.ent c).valid ≠ 0 ∧
      (fs'.ent c).parent = (fs.ent c).parent ∧ (fs'.ent c).filename = (fs.ent c).filename)
    (hep : (fs'.ent ep).valid ≠ 0 → (fs'.ent (fs'.ent ep).parent).isDirectory = true ∧
      Plain (nameKey (fs'.ent ep).filename)) : Nested fs' := by
  intro c hc hvalid
  by_cases hcep : c = ep
  · subst hcep
    exact hep hvalid
  · obtain ⟨hvalid', hparent, hname⟩ := hrest c hcep hvalid
    rw [hparent, hname, Dirent.isDirectory, hattr _ (hchildless c hc hvalid')]
    exact h c hc hvalid'

theorem Nested.takeSlot (h : Nested fs) (c : ℕ) : Nested (EntryCache.takeSlot fs c) := by
  have hattr : ∀ i, ((EntryCache.takeSlot fs c).ent i).attr = (fs.ent i).attr :=
    fun i => sameAttr_set (by rfl) i
  intro d hd hvalid
  have hdc : d ≠ c := by
    rintro rfl
    rw [EntryCache.takeSlot, FileSystem.set_ent_self] at hvalid
    exact hvalid rfl
  have hent : (EntryCache.takeSlot fs c).ent d = fs.ent d := FileSystem.set_ent_of_ne _ _ hdc
  rw [hent] at hvalid ⊢
  rw [Dirent.isDirectory, hattr]
  exact h d hd hvalid

theorem EntryCache.Taken.childless (h : Taken s handles e) {c : ℕ} (hc : c ≠ 0)
    (hvalid : (s.fs.ent c).valid ≠ 0) : (s.fs.ent c).parent ≠ e := by
  rintro rfl
  obtain ⟨-, hup⟩ := h.tree.parent c _ _ (tree_child_of_valid _ hc hvalid)
  rcases hup with hroot | ⟨hin, -⟩
  · have hfree := h.free
    rw [hroot, h.root] at hfree
    exact one_ne_zero hfree
  · exact hin (tree_child_of_invalid _ h.free)

/-- A lookup that misses leaves a name to be linked. -/
theorem EntryCache.CacheOk.dirlookup_nested (h : CacheOk s handles) (hnest : Nested s.fs)
    (hdp : dp = 0 ∨ handles dp ≠ 0) {filename : List Byte} {poff : Bool}
    {found stored : Option ℕ}
    (hrun : K210Os.dirlookup fat s.fs dp filename poff = some (found, stored, fs')) :
    Nested fs' ∧ (found = none → Plain (nameKey (cstring filename)) ∧
      (fs'.ent dp).isDirectory = true) := by
  have hvalid := h.valid_of_held hdp
  rw [K210Os.dirlookup] at hrun
  split at hrun
  · exact absurd hrun.symm (Option.some_ne_none _)
  rename_i hdir
  rw [Bool.not_eq_true', Bool.not_eq_false] at hdir
  have hdup : ∀ i, Nested (K210Os.edup s.fs i) := fun i =>
    hnest.stays (stays_edup s.fs i) fun j => sameAttr_set (by rfl) j
  by_cases hdot : strncmpEq (cstring filename) (cstring [0x2E]) fat32MaxFilename 0 = true
  · rw [if_pos hdot] at hrun
    obtain ⟨rfl, -, rfl⟩ := by simpa using hrun
    exact ⟨hdup _, fun hnone => absurd hnone (Option.some_ne_none _)⟩
  rw [if_neg hdot] at hrun
  by_cases hdotdot : strncmpEq (cstring filename) (cstring [0x2E, 0x2E]) fat32MaxFilename 0 = true
  · rw [if_pos hdotdot] at hrun
    obtain ⟨rfl, -, rfl⟩ := by simpa using hrun
    exact ⟨hdup _, fun hnone => absurd hnone (Option.some_ne_none _)⟩
  rw [if_neg hdotdot, if_neg (not_not.mpr hvalid)] at hrun
  have hplain : Plain (nameKey (cstring filename)) := by
    rw [strncmpEq_iff_nameKey] at hdot hdotdot
    exact ⟨hdot, hdotdot⟩
  obtain ⟨⟨ep, fs₁⟩, hget, hrun⟩ := Option.bind_eq_some_iff.mp hrun
  dsimp only at hrun
  cases hcached : s.cached dp filename with
  | some i =>
      obtain ⟨rfl, hrefs⟩ := eget_onlyRefs hcached hget
      have hhit : (fs₁.ent ep).valid = 1 := by
        obtain ⟨ref, rfl⟩ := hrefs
        exact (child_of_cached handles h.tree.rootFree hcached).2.1
      rw [if_pos hhit] at hrun
      obtain ⟨rfl, -, rfl⟩ := by simpa using hrun
      exact ⟨hnest.onlyRefs hrefs, fun hnone => absurd hnone (Option.some_ne_none _)⟩
  | none =>
      obtain ⟨hfree, rfl⟩ := eget_missed hcached hget
      have htaken := h.take hfree
      have hne := htaken.ne_held hdp
      rw [if_neg (by rw [htaken.free]; exact zero_ne_one)] at hrun
      obtain ⟨⟨off, fs₂⟩, hreloc, hrun⟩ := Option.bind_eq_some_iff.mp hrun
      have hattr : ∀ i, i ≠ ep → (fs'.ent i).attr = ((takeSlot s.fs ep).ent i).attr :=
        fun i hi => (dirlookupLoop_attr hrun hi).trans (relocEnt_attr hreloc i)
      obtain ⟨fs₃, hkeep, hor⟩ := dirlookupLoop_cases hne hrun
      have hkeep := (relocEnt_keeps hreloc).trans hkeep
      have hdir' : (fs'.ent dp).isDirectory = true := by
        rw [Dirent.isDirectory, hattr dp hne, EntryCache.takeSlot, FileSystem.set_ent_of_ne _ _ hne]
        exact hdir
      refine ⟨(hnest.takeSlot ep).change (fun c => htaken.childless) hattr ?_ ?_,
        fun _ => ⟨hplain, hdir'⟩⟩
      all_goals rcases hor with ⟨-, hput⟩ | ⟨-, hlinked⟩
      · intro c hc hused
        have hstay := ((htaken.stays hkeep).eput hput).2
        rw [hstay.valid] at hused
        rw [hstay.parent, hstay.filename c hused]
        rw [hkeep.valid] at hused
        exact ⟨hused, hkeep.parent c, hkeep.filename c hc⟩
      · intro c hc hused
        rw [hlinked.valid, if_neg hc, hkeep.valid] at hused
        rw [(hlinked.same c hc).1, (hlinked.same c hc).2]
        exact ⟨hused, hkeep.parent c, hkeep.filename c hc⟩
      · intro hused
        have hstay := ((htaken.stays hkeep).eput hput).2
        rw [hstay.valid, hkeep.valid] at hused
        exact absurd htaken.free hused
      · intro _
        rw [hlinked.parent, hlinked.name]
        exact ⟨hdir', hplain⟩

theorem EntryCache.CacheOk.ealloc_nested (h : CacheOk s handles) (hnest : Nested s.fs)
    (hdp : dp = 0 ∨ handles dp ≠ 0) {name : List Byte} {attr : ℕ} {found : Option ℕ}
    (hrun : s.ealloc fat dp name attr = some (found, s')) : Nested s'.fs := by
  obtain ⟨⟨found', fs'⟩, hcall, heq⟩ := Option.map_eq_some_iff.mp hrun
  dsimp only at heq
  rw [if_neg (not_not.mpr (h.valid_of_held hdp))] at heq
  obtain ⟨-, rfl⟩ := Prod.mk.inj heq
  change Nested fs'
  rcases ealloc_cases (h.valid_of_held hdp) hcall with
    ⟨-, -, rfl⟩ | ⟨name', found₁, stored, fs₁, -, hlook, hor⟩
  · exact hnest
  obtain ⟨hnest₁, hmissed⟩ := h.dirlookup_nested hnest hdp hlook
  rcases hor with ⟨-, -, rfl⟩ | ⟨rfl, ep, fs₂, hget, -, hnew⟩
  · exact hnest₁
  have hlook' : s.dirlookup fat dp name' true =
      some (none, { s.noteLookup dp name' none with fs := fs₁ }) := by
    rw [EntryCache.dirlookup, hlook]
    rfl
  obtain ⟨-, rfl, htaken⟩ := h.take_missed hdp hlook' hget
  obtain ⟨hplain, hdir⟩ := hmissed rfl
  have hne := htaken.ne_held hdp
  have hlinked := eallocNew_linked hne hnew
  refine (hnest₁.takeSlot ep).change (fun c => htaken.childless)
    (fun i hi => eallocNew_attr hnew hi) (fun c hc hused => ?_) fun _ => ?_
  · rw [hlinked.valid, if_neg hc] at hused
    exact ⟨hused, hlinked.same c hc⟩
  · rw [hlinked.parent, hlinked.name, Dirent.isDirectory, eallocNew_attr hnew hne,
      EntryCache.takeSlot, FileSystem.set_ent_of_ne _ _ hne]
    exact ⟨hdir, hplain⟩

theorem EntryCache.CacheOk.eput_nested (h : CacheOk s handles) (hnest : Nested s.fs)
    (he : handles e ≠ 0) (hrun : s.eput fat e = some s') : Nested s'.fs := by
  obtain ⟨fs', hput, rfl⟩ := Option.map_eq_some_iff.mp hrun
  exact hnest.stays (eput_ok h.tree h.flags he hput).2 (eput_attr hput)

theorem Nested.edup (h : Nested fs) (e : ℕ) : Nested (K210Os.edup fs e) :=
  h.stays (stays_edup fs e) fun i => sameAttr_set (by rfl) i

end Calls

/-! ## Paths -/

namespace EntryCache

variable {fat : Fat32} {s s' : EntryCache} {handles : ℕ → ℕ}

theorem CacheOk.lookupLoop_nested {parent : Bool} {fuel entry : ℕ} {path name name' : List Byte}
    {found : Option ℕ} (h : CacheOk s handles) (hnest : Nested s.fs) (hentry : handles entry ≠ 0)
    (hrun : EntryCache.lookupLoop fat parent fuel s entry path name = some (found, name', s')) :
    Nested s'.fs := by
  induction fuel generalizing s handles entry path name with
  | zero => exact absurd hrun.symm (Option.some_ne_none _)
  | succ fuel ih =>
      have hput : ∀ {name : List Byte}, ((s.eput fat entry).map fun s =>
          ((none : Option ℕ), name, s)) = some (found, name', s') → Nested s'.fs := fun hput => by
        obtain ⟨s₁, hput₁, heq⟩ := Option.map_eq_some_iff.mp hput
        obtain ⟨-, -, rfl⟩ := by simpa using heq
        exact h.eput_nested hnest hentry hput₁
      have hdone : ∀ {name : List Byte}, some (some entry, name, s) = some (found, name', s') →
          Nested s'.fs := fun hdone => by
        obtain ⟨-, -, rfl⟩ := by simpa using hdone
        exact hnest
      rw [EntryCache.lookupLoop] at hrun
      cases hskip : skipelem path with
      | none =>
          rw [hskip] at hrun
          dsimp only at hrun
          split at hrun
          · exact hput hrun
          · exact hdone hrun
      | some elem =>
          obtain ⟨elem, path'⟩ := elem
          rw [hskip] at hrun
          dsimp only at hrun
          split at hrun
          · exact absurd hrun.symm (Option.some_ne_none _)
          split at hrun
          · exact hput hrun
          split at hrun
          · exact hdone hrun
          obtain ⟨⟨next, s₁⟩, hlook, hrun⟩ := Option.bind_eq_some_iff.mp hrun
          obtain ⟨s₂, hput₂, hrun⟩ := Option.bind_eq_some_iff.mp hrun
          have hok₁ := (h.dirlookup (.inr hentry) hlook).1
          have hheld : gain handles next entry ≠ 0 := gain_ne_zero hentry next
          obtain ⟨⟨found₁, stored, fs₁⟩, hcall, heq⟩ := Option.map_eq_some_iff.mp hlook
          obtain ⟨rfl, rfl⟩ := Prod.mk.inj heq
          have hnest₁ := (h.dirlookup_nested hnest (.inr hentry) hcall).1
          have hnest₂ := hok₁.eput_nested hnest₁ hheld hput₂
          cases found₁ with
          | none =>
              obtain ⟨-, -, rfl⟩ := by simpa using hrun
              exact hnest₂
          | some next =>
              have hnext : lose (gain handles (some next)) entry next ≠ 0 := by
                by_cases hne : next = entry
                · subst hne
                  rwa [lose_gain]
                · simp [lose, gain, hne]
              exact ih (hok₁.eput hheld hput₂) hnest₂ hnext hrun

theorem CacheOk.lookupPath_nested {parent : Bool} {cwd : ℕ} {path name : List Byte}
    {found : Option ℕ} (h : CacheOk s handles) (hnest : Nested s.fs)
    (hcwd : (cwd = 0 ∨ handles cwd ≠ 0) ∨ path.head? = some 0x2F)
    (hrun : s.lookupPath fat cwd path parent = some (found, name, s')) : Nested s'.fs := by
  rw [EntryCache.lookupPath] at hrun
  split at hrun
  · obtain ⟨-, -, rfl⟩ := by simpa using hrun
    exact hnest
  · have hentry : (if path.head? = some 0x2F then 0 else cwd) = 0 ∨
        handles (if path.head? = some 0x2F then 0 else cwd) ≠ 0 := by
      by_cases hhead : path.head? = some 0x2F
      · exact .inl (if_pos hhead)
      · rw [if_neg hhead]
        exact hcwd.resolve_right hhead
    exact (h.edup_held hentry).lookupLoop_nested (hnest.edup _) (by simp [gain]) hrun

theorem CacheOk.create_nested {cwd mode : ℕ} {path : List Byte} {type : ℤ} {found : Option ℕ}
    (h : CacheOk s handles) (hnest : Nested s.fs)
    (hcwd : (cwd = 0 ∨ handles cwd ≠ 0) ∨ path.head? = some 0x2F)
    (hrun : s.create fat cwd path type mode = some (found, s')) : Nested s'.fs := by
  obtain ⟨⟨dp, name, s₁⟩, hparent, hrun⟩ := Option.bind_eq_some_iff.mp hrun
  have hok₁ := h.lookupPath hcwd hparent
  have hnest₁ := h.lookupPath_nested hnest hcwd hparent
  cases dp with
  | none =>
      obtain ⟨-, rfl⟩ := by simpa using hrun
      exact hnest₁
  | some dp =>
      have hdp : gain handles (some dp) dp ≠ 0 := by simp [gain]
      dsimp only at hrun
      split at hrun
      · exact absurd hrun.symm (Option.some_ne_none _)
      obtain ⟨⟨ep, s₂⟩, halloc, hrun⟩ := Option.bind_eq_some_iff.mp hrun
      have hok₂ := hok₁.ealloc (.inr hdp) halloc
      have hnest₂ := hok₁.ealloc_nested hnest₁ (.inr hdp) halloc
      cases ep with
      | none =>
          obtain ⟨s₃, hput, hrun⟩ := Option.map_eq_some_iff.mp hrun
          obtain ⟨rfl, rfl⟩ := Prod.mk.inj hrun
          exact hok₂.eput_nested hnest₂ hdp hput
      | some ep =>
          dsimp only at hrun
          split at hrun
          · obtain ⟨s₃, hput₃, hrun⟩ := Option.bind_eq_some_iff.mp hrun
            obtain ⟨s₄, hput₄, hrun⟩ := Option.bind_eq_some_iff.mp hrun
            obtain ⟨-, rfl⟩ := by simpa using hrun
            have hep : gain (gain handles (some dp)) (some ep) ep ≠ 0 := by simp [gain]
            have hok₃ := hok₂.eput hep hput₃
            rw [lose_gain] at hok₃
            exact hok₃.eput_nested (hok₂.eput_nested hnest₂ hep hput₃) hdp hput₄
          · obtain ⟨s₃, hput, hrun⟩ := Option.bind_eq_some_iff.mp hrun
            have hnest₃ := hok₂.eput_nested hnest₂ (gain_ne_zero hdp (some ep)) hput
            split at hrun
            · exact absurd hrun.symm (Option.some_ne_none _)
            obtain ⟨-, rfl⟩ := by simpa using hrun
            exact hnest₃

end EntryCache

/-! ## Runs -/

namespace EntryRun

variable {fat : Fat32} {s s' : EntryRun} {disk : Disk} {rootClus : ℕ} {ent : ℕ → Dirent}

theorem nested_step (h : s.cache.CacheOk s.handles) (hnest : Nested s.cache.fs)
    {l : EntryOp × Option ℕ} (hstep : s.EntryStep fat l s') : Nested s'.cache.fs := by
  obtain ⟨op, found⟩ := l
  obtain ⟨hp, hstep⟩ := hstep
  cases op with
  | ename cwd path =>
      obtain ⟨⟨r, cache⟩, hrun, heq⟩ := Option.map_eq_some_iff.mp hstep
      obtain ⟨rfl, rfl⟩ := Prod.mk.inj heq
      obtain ⟨⟨r', name, cache'⟩, hpath, heq⟩ := Option.map_eq_some_iff.mp hrun
      obtain ⟨rfl, rfl⟩ := Prod.mk.inj heq
      exact h.lookupPath_nested hnest (hp.imp_left held_iff.mp) hpath
  | enameparent cwd path =>
      obtain ⟨⟨r, name, cache⟩, hrun, heq⟩ := Option.map_eq_some_iff.mp hstep
      obtain ⟨rfl, rfl⟩ := Prod.mk.inj heq
      exact h.lookupPath_nested hnest (hp.imp_left held_iff.mp) hrun
  | create cwd path type mode =>
      obtain ⟨⟨r, cache⟩, hrun, heq⟩ := Option.map_eq_some_iff.mp hstep
      obtain ⟨rfl, rfl⟩ := Prod.mk.inj heq
      exact h.create_nested hnest (hp.imp_left held_iff.mp) hrun
  | ealloc dp name attr =>
      obtain ⟨⟨r, cache⟩, hrun, heq⟩ := Option.map_eq_some_iff.mp hstep
      obtain ⟨rfl, rfl⟩ := Prod.mk.inj heq
      exact h.ealloc_nested hnest (held_iff.mp hp) hrun
  | dirlookup dp filename poff =>
      obtain ⟨⟨r, cache⟩, hrun, heq⟩ := Option.map_eq_some_iff.mp hstep
      obtain ⟨rfl, rfl⟩ := Prod.mk.inj heq
      obtain ⟨⟨r', stored, fs⟩, hlook, heq⟩ := Option.map_eq_some_iff.mp hrun
      obtain ⟨rfl, rfl⟩ := Prod.mk.inj heq
      exact (h.dirlookup_nested hnest (held_iff.mp hp) hlook).1
  | edup e =>
      obtain ⟨rfl, rfl⟩ := Prod.mk.inj (Option.some.inj hstep)
      exact hnest.edup e
  | eput e =>
      obtain ⟨cache, hrun, heq⟩ := Option.map_eq_some_iff.mp hstep
      obtain ⟨rfl, rfl⟩ := Prod.mk.inj heq
      exact h.eput_nested hnest (Nat.one_le_iff_ne_zero.mp hp) hrun

theorem nested_of_run {ls : List (EntryOp × Option ℕ)}
    (hrun : Run (EntryStep fat) (start disk rootClus ent) ls s) : Nested s.cache.fs := by
  have hinit : Nested (start disk rootClus ent).cache.fs := fun c hc hvalid => by
    refine absurd ?_ hvalid
    simp [start, EntryCache.fat32Init, hc]
  have hboth : s.cache.CacheOk s.handles ∧ Nested s.cache.fs :=
    hrun.invariant (I := fun s => s.cache.CacheOk s.handles ∧ Nested s.cache.fs)
      (fun _ _ _ h hstep => ⟨(cacheOk_step h.1 hstep).1, nested_step h.1 h.2 hstep⟩)
      ⟨EntryCache.fat32Init_ok disk rootClus ent, hinit⟩
  exact hboth.2

end EntryRun

end K210Os
