import K210Os.DirectoryWrites
import K210Os.EntryCache
import K210Os.TreeCache

/-!
# The entry cache over runs

The cache is seen as a cache of a tree: an entry that is not valid is no child. Every
function of the cache is then a few operations of the tree, and between its calls each
count is the handles of the clients and the children in use.
-/

namespace K210Os

/-! ## Names -/

/-- The bytes that `strncmp` compares, `n` of them from byte `i` on. -/
def keyFrom (p : ℕ → Byte) : ℕ → ℕ → List Byte
  | 0, _ => []
  | n + 1, i => if p i = 0 then [] else p i :: keyFrom p n (i + 1)

def nameKey (filename : ℕ → Byte) : List Byte := keyFrom filename fat32MaxFilename 0

theorem strncmpEq_iff_keyFrom {p q : ℕ → Byte} {n i : ℕ} :
    strncmpEq p q n i = true ↔ keyFrom p n i = keyFrom q n i := by
  induction n generalizing i with
  | zero => simp [strncmpEq, keyFrom]
  | succ n ih =>
      rw [strncmpEq, keyFrom, keyFrom]
      by_cases hp : p i = 0
      · rw [if_neg fun h => h.1 hp, if_pos hp, hp]
        by_cases hq : q i = 0
        · rw [if_pos hq, hq]
          exact iff_of_true (beq_self_eq_true _) rfl
        · rw [if_neg hq, beq_iff_eq]
          exact iff_of_false (fun heq => hq heq.symm) (List.cons_ne_nil _ _).symm
      · rw [if_neg hp]
        by_cases heq : p i = q i
        · rw [if_pos ⟨hp, heq⟩, if_neg (heq ▸ hp), ih, heq, List.cons.injEq]
          simp
        · rw [if_neg fun h => heq h.2, beq_iff_eq]
          refine iff_of_false heq fun hkey => ?_
          split at hkey
          · exact List.cons_ne_nil _ _ hkey
          · exact heq (List.cons.inj hkey).1

theorem strncmpEq_iff_nameKey {p q : ℕ → Byte} :
    strncmpEq p q fat32MaxFilename 0 = true ↔ nameKey p = nameKey q :=
  strncmpEq_iff_keyFrom

/-- A copy of `strncpy` has the name of its source. -/
theorem keyFrom_strncpy {src p : ℕ → Byte} {n i : ℕ}
    (hp : ∀ k < n, p (i + k) = (strncpy src n i).getD k 0) : keyFrom p n i = keyFrom src n i := by
  induction n generalizing i with
  | zero => rfl
  | succ n ih =>
      have hhead := hp 0 (Nat.succ_pos n)
      simp only [strncpy, Nat.add_zero] at hp hhead
      simp only [keyFrom]
      by_cases hsrc : src i = 0
      · simp [hhead, hsrc]
      · simp only [hsrc, if_false, List.getD_cons_zero] at hhead hp
        rw [hhead, if_neg hsrc, if_neg hsrc, ih fun k hk => ?_]
        have hnext := hp (k + 1) (Nat.succ_lt_succ hk)
        rwa [List.getD_cons_succ, Nat.add_comm k, ← Nat.add_assoc] at hnext

theorem nameKey_copied (name : List Byte) :
    nameKey (cstring (strncpy (cstring name) fat32MaxFilename 0)) = nameKey (cstring name) :=
  keyFrom_strncpy fun k _ => by rw [Nat.zero_add]; rfl

/-! ## Fields that a function keeps -/

/-- The list, the counts, the flags and the parents stay, and the names of the entries in `p`. -/
structure KeepsTree (p : ℕ → Prop) (fs fs' : FileSystem) : Prop where
  lru : fs'.lru = fs.lru
  ref : ∀ i, (fs'.ent i).ref = (fs.ent i).ref
  valid : ∀ i, (fs'.ent i).valid = (fs.ent i).valid
  parent : ∀ i, (fs'.ent i).parent = (fs.ent i).parent
  filename : ∀ i, p i → (fs'.ent i).filename = (fs.ent i).filename

variable {p q : ℕ → Prop} {fs fs' fs'' : FileSystem} {fat : Fat32}

theorem KeepsTree.refl (p : ℕ → Prop) (fs : FileSystem) : KeepsTree p fs fs :=
  ⟨rfl, fun _ => rfl, fun _ => rfl, fun _ => rfl, fun _ _ => rfl⟩

theorem KeepsTree.trans (h : KeepsTree p fs fs') (h' : KeepsTree p fs' fs'') : KeepsTree p fs fs'' :=
  ⟨h'.lru.trans h.lru, fun i => (h'.ref i).trans (h.ref i),
    fun i => (h'.valid i).trans (h.valid i), fun i => (h'.parent i).trans (h.parent i),
    fun i hi => (h'.filename i hi).trans (h.filename i hi)⟩

theorem KeepsTree.mono (h : KeepsTree p fs fs') (hpq : ∀ i, q i → p i) : KeepsTree q fs fs' :=
  ⟨h.lru, h.ref, h.valid, h.parent, fun i hi => h.filename i (hpq i hi)⟩

/-- One entry was set. -/
theorem KeepsTree.set {i : ℕ} {entry : Dirent} (href : entry.ref = (fs.ent i).ref)
    (hvalid : entry.valid = (fs.ent i).valid) (hparent : entry.parent = (fs.ent i).parent)
    (hname : p i → entry.filename = (fs.ent i).filename) {d : Disk} :
    KeepsTree p fs ({ fs with disk := d }.set i entry) := by
  refine ⟨rfl, fun j => ?_, fun j => ?_, fun j => ?_, fun j hj => ?_⟩ <;>
    by_cases hji : j = i
  all_goals first | subst hji | skip
  all_goals simp_all [FileSystem.set]

theorem relocForward_keeps {alloc : Bool} {n : ℕ} {d d' : Disk} {entry entry' : Dirent} {b : Bool}
    (h : relocForward fat alloc n d entry = (b, d', entry')) :
    ∃ cur cnt, entry' = { entry with curClus := cur, clusCnt := cnt } := by
  induction n generalizing d entry with
  | zero =>
      simp only [relocForward, Prod.mk.injEq] at h
      exact ⟨entry.curClus, entry.clusCnt, h.2.2.symm⟩
  | succ n ih =>
      simp only [relocForward] at h
      split at h
      · split at h
        · obtain ⟨cur, cnt, rfl⟩ := ih h
          exact ⟨cur, cnt, rfl⟩
        · simp only [Prod.mk.injEq] at h
          exact ⟨_, _, h.2.2.symm⟩
      · obtain ⟨cur, cnt, rfl⟩ := ih h
        exact ⟨cur, cnt, rfl⟩

theorem relocClus_keeps {alloc : Bool} {off off' : ℕ} {d d' : Disk} {entry entry' : Dirent}
    (h : relocClus fat d entry off alloc = some (off', d', entry')) :
    ∃ cur cnt, entry' = { entry with curClus := cur, clusCnt := cnt } := by
  simp only [relocClus] at h
  generalize hf : relocForward fat alloc (off / fat.bytsPerClus - entry.clusCnt) d entry = r at h
  obtain ⟨found, d₁, entry₁⟩ := r
  obtain ⟨cur, cnt, rfl⟩ := relocForward_keeps hf
  dsimp only at h
  split at h
  · simp only [Option.some.injEq, Prod.mk.injEq] at h
    exact ⟨cur, cnt, h.2.2.symm⟩
  · split at h
    · simp only [Option.map_eq_some_iff, Prod.mk.injEq] at h
      obtain ⟨cur', -, -, -, rfl⟩ := h
      exact ⟨_, _, rfl⟩
    · simp only [Option.some.injEq, Prod.mk.injEq] at h
      exact ⟨cur, cnt, h.2.2.symm⟩

theorem relocEnt_keeps {alloc : Bool} {i off off' : ℕ}
    (h : relocEnt fat fs i off alloc = some (off', fs')) : KeepsTree p fs fs' := by
  simp only [relocEnt, Option.map_eq_some_iff, Prod.mk.injEq] at h
  obtain ⟨⟨_, d, entry⟩, hreloc, -, rfl⟩ := h
  obtain ⟨cur, cnt, rfl⟩ := relocClus_keeps hreloc
  exact .set (by rfl) (by rfl) (by rfl) fun _ => by rfl

theorem KeepsTree.disk (h : KeepsTree p fs fs') (d : Disk) : KeepsTree p fs { fs' with disk := d } :=
  ⟨h.lru, h.ref, h.valid, h.parent, h.filename⟩

theorem putDentry_keeps {dp off : ℕ} {de : Dentry} (h : putDentry fat fs dp off de = some fs') :
    KeepsTree p fs fs' := by
  simp only [putDentry, Option.bind_eq_bind, Option.bind_eq_some_iff] at h
  obtain ⟨⟨off', fs₁⟩, hreloc, ⟨put, d⟩, -, h⟩ := h
  obtain rfl := Option.some.inj h
  exact (relocEnt_keeps hreloc).disk d

theorem emakeLongs_keeps {dp entcnt n off off' : ℕ} {filename : ℕ → Byte} {checksum : Byte}
    (h : emakeLongs fat dp filename checksum entcnt n fs off = some (fs', off')) :
    KeepsTree p fs fs' := by
  induction n generalizing fs off with
  | zero =>
      simp only [emakeLongs, Option.some.injEq, Prod.mk.injEq] at h
      exact h.1 ▸ KeepsTree.refl p fs
  | succ n ih =>
      simp only [emakeLongs, Option.bind_eq_bind, Option.bind_eq_some_iff] at h
      obtain ⟨fs₁, hput, h⟩ := h
      exact (putDentry_keeps hput).trans (ih h)

theorem emake_keeps {dp ep off : ℕ} (h : emake fat fs dp ep off = some fs') : KeepsTree p fs fs' := by
  simp only [emake] at h
  split at h
  · exact absurd h (by simp)
  · split at h
    · exact putDentry_keeps h
    · simp only [Option.bind_eq_bind, Option.bind_eq_some_iff] at h
      obtain ⟨⟨fs₁, off₁⟩, hlongs, h⟩ := h
      exact (emakeLongs_keeps hlongs).trans (putDentry_keeps h)

theorem eupdate_keeps {i : ℕ} (h : eupdate fat fs i = some fs') : KeepsTree p fs fs' := by
  simp only [eupdate] at h
  split at h
  · exact Option.some.inj h ▸ KeepsTree.refl p fs
  · simp only [Option.bind_eq_bind, Option.bind_eq_some_iff] at h
    obtain ⟨⟨off₁, fs₁⟩, h₁, ⟨_, order⟩, -, ⟨off₂, fs₂⟩, h₂, ⟨_, de⟩, -, ⟨_, d⟩, -, h⟩ := h
    obtain rfl := Option.some.inj h
    exact ((relocEnt_keeps h₁).trans (relocEnt_keeps h₂)).trans
      (.set (by rfl) (by rfl) (by rfl) fun _ => by rfl)

theorem enextLoop_keeps {dp fuel off : ℕ} {s s' : Enext} {code : ℤ} {info : Option Dentry}
    (h : enextLoop fat dp fuel fs off s = some (code, s', info, fs')) : KeepsTree p fs fs' := by
  induction fuel generalizing fs off s with
  | zero => simp [enextLoop] at h
  | succ fuel ih =>
      simp only [enextLoop, Option.bind_eq_bind, Option.bind_eq_some_iff] at h
      obtain ⟨⟨off₁, fs₁⟩, hreloc, h⟩ := h
      have hkeep : KeepsTree p fs fs₁ := relocEnt_keeps hreloc
      split at h
      · simp only [Option.pure_def, Option.some.injEq, Prod.mk.injEq] at h
        exact h.2.2.2 ▸ hkeep
      · obtain ⟨⟨got, de⟩, -, h⟩ := Option.bind_eq_some_iff.mp h
        split at h
        · simp only [Option.pure_def, Option.some.injEq, Prod.mk.injEq] at h
          exact h.2.2.2 ▸ hkeep
        · obtain ⟨next, -, h⟩ := Option.bind_eq_some_iff.mp h
          cases next with
          | more s => exact hkeep.trans (ih h)
          | done code s info =>
              simp only [Option.pure_def, Option.some.injEq, Prod.mk.injEq] at h
              exact h.2.2.2 ▸ hkeep

/-- `enext` writes the name of an entry that is not valid. -/
theorem enext_keeps {dp ep off count count' : ℕ} {code : ℤ}
    (h : enext fat fs dp ep off count = some (code, count', fs')) :
    (fs.ent ep).valid = 0 ∧ KeepsTree (· ≠ ep) fs fs' := by
  simp only [enext] at h
  split at h
  · exact absurd h (by simp)
  · rename_i hguard
    simp only [not_or, not_not] at hguard
    refine ⟨hguard.2.1, ?_⟩
    split at h
    · simp only [Option.some.injEq, Prod.mk.injEq] at h
      exact h.2.2 ▸ KeepsTree.refl _ fs
    · simp only [Option.bind_eq_bind, Option.bind_eq_some_iff] at h
      obtain ⟨⟨code, s, info, fs₁⟩, hloop, h⟩ := h
      simp only [Option.pure_def, Option.some.injEq, Prod.mk.injEq] at h
      obtain ⟨-, -, rfl⟩ := h
      refine (enextLoop_keeps hloop).trans ?_
      cases info <;> exact .set (by rfl) (by rfl) (by rfl) fun hne => absurd (by rfl) hne

namespace EntryCache

variable {s : EntryCache} {handles : ℕ → ℕ} {e dp i : ℕ}

/-! ## The tree -/

/-- An entry that is not valid is no child. -/
def tree (s : EntryCache) (handles : ℕ → ℕ) : TreeCache ℕ (List Byte) where
  ref i := (s.fs.ent i).ref
  child i :=
    if i = 0 ∨ (s.fs.ent i).valid = 0 then none
    else some ((s.fs.ent i).parent, nameKey (s.fs.ent i).filename)
  lru := s.fs.lru
  handles := handles
  occupant := s.occupant
  home i := (s.link i).occupant

theorem tree_child_of_valid (handles : ℕ → ℕ) (hi : i ≠ 0) (hvalid : (s.fs.ent i).valid ≠ 0) :
    (s.tree handles).child i = some ((s.fs.ent i).parent, nameKey (s.fs.ent i).filename) :=
  if_neg (not_or.mpr ⟨hi, hvalid⟩)

theorem tree_child_of_invalid (handles : ℕ → ℕ) (hvalid : (s.fs.ent i).valid = 0) :
    (s.tree handles).child i = none :=
  if_pos (.inr hvalid)

theorem tree_of_keeps (h : KeepsTree p s.fs fs') (hp : ∀ i, (s.fs.ent i).valid ≠ 0 → p i) :
    ({ s with fs := fs' } : EntryCache).tree handles = s.tree handles := by
  refine TreeCache.ext (funext h.ref) (funext fun i => ?_) h.lru rfl rfl rfl
  simp only [tree, h.valid, h.parent]
  by_cases hvalid : (s.fs.ent i).valid = 0
  · simp [hvalid]
  · rw [h.filename i (hp i hvalid)]

theorem tree_edup (s : EntryCache) (handles : ℕ → ℕ) (e : ℕ) :
    (s.edup e).tree (gain handles (some e)) = (s.tree handles).dup e := by
  refine TreeCache.ext (funext fun i => ?_) (funext fun i => ?_) rfl rfl rfl rfl <;>
    by_cases hie : i = e <;>
    simp [tree, edup, K210Os.edup, FileSystem.set, TreeCache.dup, hie]

theorem tree_edrop (s : EntryCache) (handles : ℕ → ℕ) (e : ℕ) :
    ({ s with fs := edrop s.fs e } : EntryCache).tree (lose handles e) =
      (s.tree handles).drop e := by
  refine TreeCache.ext (funext fun i => ?_) (funext fun i => ?_) rfl rfl rfl rfl <;>
    by_cases hie : i = e <;>
    simp [tree, edrop, FileSystem.set, TreeCache.drop, hie]

theorem lose_gain (handles : ℕ → ℕ) (e : ℕ) : lose (gain handles (some e)) e = handles := by
  simp [lose, gain]

/-! ## Giving a handle up -/

/-- The entries stay what they are; only the counts and the order of the list change. -/
structure Stays (fs fs' : FileSystem) : Prop where
  lru : fs'.lru.Perm fs.lru
  valid : ∀ i, (fs'.ent i).valid = (fs.ent i).valid
  parent : ∀ i, (fs'.ent i).parent = (fs.ent i).parent
  filename : ∀ i, (fs.ent i).valid ≠ 0 → (fs'.ent i).filename = (fs.ent i).filename

theorem Stays.trans (h : Stays fs fs') (h' : Stays fs' fs'') : Stays fs fs'' :=
  ⟨h'.lru.trans h.lru, fun i => (h'.valid i).trans (h.valid i),
    fun i => (h'.parent i).trans (h.parent i),
    fun i hi => (h'.filename i (by rwa [h.valid])).trans (h.filename i hi)⟩

theorem stays_of_keeps (h : KeepsTree p fs fs') (hp : ∀ i, (fs.ent i).valid ≠ 0 → p i) : Stays fs fs' :=
  ⟨h.lru ▸ List.Perm.refl _, h.valid, h.parent, fun i hi => h.filename i (hp i hi)⟩

theorem stays_edrop (fs : FileSystem) (e : ℕ) : Stays fs (edrop fs e) := by
  refine ⟨List.Perm.refl _, fun i => ?_, fun i => ?_, fun i _ => ?_⟩ <;>
    by_cases hie : i = e <;> simp [edrop, FileSystem.set, hie]

theorem stays_edup (fs : FileSystem) (e : ℕ) : Stays fs (K210Os.edup fs e) := by
  refine ⟨List.Perm.refl _, fun i => ?_, fun i => ?_, fun i _ => ?_⟩ <;>
    by_cases hie : i = e <;> simp [K210Os.edup, FileSystem.set, hie]

/-- `valid` is 0 or 1 as long as no entry is removed. -/
def Flags (fs : FileSystem) : Prop := ∀ i, (fs.ent i).valid = 0 ∨ (fs.ent i).valid = 1

theorem tree_release (handles : ℕ → ℕ)
    (hkeep : KeepsTree (fun _ => True) { s.fs with lru := e :: s.fs.lru.erase e } fs') :
    ({ s with fs := edrop fs' e } : EntryCache).tree
        (gain (lose handles e) (some (s.fs.ent e).parent)) =
      (s.tree handles).release e (s.fs.ent e).parent := by
  have hset : ∀ i, ((edrop fs' e).ent i).ref =
      if i = e then (s.fs.ent e).ref - 1 else (s.fs.ent i).ref := fun i => by
    by_cases hie : i = e <;> simp [edrop, FileSystem.set, hie, hkeep.ref]
  have hname : ∀ i, ((edrop fs' e).ent i).filename = (s.fs.ent i).filename := fun i => by
    rw [← hkeep.filename i trivial]
    by_cases hie : i = e <;> simp [edrop, FileSystem.set, hie]
  have hstay := stays_edrop fs' e
  refine TreeCache.ext (funext fun i => ?_) (funext fun i => ?_) hkeep.lru rfl rfl rfl
  · by_cases hie : i = e <;> simp [tree, TreeCache.release, TreeCache.drop, hset, hie]
  · simp only [tree, hstay.valid, hstay.parent, hname, hkeep.valid, hkeep.parent]
    rfl

/-- The last holding of a child was given up, which had been holding the parent. -/
theorem climb_ok (hok : (s.tree handles).Ok 0) (he : handles e ≠ 0) (hroot : e ≠ 0)
    (hvalid : (s.fs.ent e).valid ≠ 0) (hone : (s.fs.ent e).ref = 1)
    (hkeep : KeepsTree (fun _ => True) { s.fs with lru := e :: s.fs.lru.erase e } fs') :
    (({ s with fs := edrop fs' e } : EntryCache).tree
        (gain (lose handles e) (some (s.fs.ent e).parent))).Ok 0 ∧
      Stays s.fs (edrop fs' e) ∧
      ∀ i, ((edrop fs' e).ent i).ref = if i = e then 0 else (s.fs.ent i).ref := by
  have hchild := tree_child_of_valid handles hroot hvalid
  refine ⟨tree_release handles hkeep ▸ hok.release he hone hchild, ?_, fun i => ?_⟩
  · refine Stays.trans ⟨?_, hkeep.valid, hkeep.parent, fun i _ => hkeep.filename i trivial⟩
      (stays_edrop fs' e)
    rw [hkeep.lru]
    exact (List.perm_cons_erase (hok.parent e _ _ hchild).1).symm
  · by_cases hie : i = e <;> simp [edrop, FileSystem.set, hkeep.ref, hie, hone]

/-- The way up keeps the tree, whatever the length of it. -/
theorem eput_ok {n : ℕ} (hok : (s.tree handles).Ok 0) (hflags : Flags s.fs) (he : handles e ≠ 0)
    (hrun : K210Os.eput fat n s.fs e = some fs') :
    (({ s with fs := fs' } : EntryCache).tree (lose handles e)).Ok 0 ∧ Stays s.fs fs' := by
  induction n generalizing s handles e with
  | zero => simp [K210Os.eput] at hrun
  | succ n ih =>
      simp only [K210Os.eput] at hrun
      split at hrun
      · rename_i hlast
        obtain ⟨hroot, hvalid, hone⟩ := hlast
        rw [if_neg (by have := hflags e; omega)] at hrun
        split at hrun
        · exact absurd hrun (by simp)
        · simp only [Option.bind_eq_bind, Option.bind_eq_some_iff] at hrun
          obtain ⟨fs₂, hupdate, hrun⟩ := hrun
          obtain ⟨hok', hstay, href⟩ := climb_ok hok he hroot hvalid hone (eupdate_keeps hupdate)
          rw [if_pos ((href e).trans (if_pos rfl))] at hrun
          obtain ⟨hend, hstay'⟩ := ih hok' (fun i => by simpa [hstay.valid] using hflags i)
            (by simp [gain]) hrun
          rw [lose_gain] at hend
          exact ⟨hend, hstay.trans hstay'⟩
      · rename_i hmore
        obtain rfl := Option.some.inj hrun
        rw [tree_edrop]
        refine ⟨hok.drop he ?_, stays_edrop s.fs e⟩
        simp only [tree]
        by_cases hchild : e = 0 ∨ (s.fs.ent e).valid = 0
        · exact .inl (if_pos hchild)
        · exact .inr fun hone => hmore ⟨(not_or.mp hchild).1, (not_or.mp hchild).2, hone⟩

/-- The way up is no longer than there are entries in use. -/
theorem eput_fuel {n : ℕ} (hok : (s.tree handles).Ok 0) (hflags : Flags s.fs) (he : handles e ≠ 0)
    (hn : s.fs.lru.countP (fun i => decide (0 < (s.fs.ent i).ref)) < n) :
    K210Os.eput fat (n + 1) s.fs e = K210Os.eput fat n s.fs e := by
  induction n generalizing s handles e with
  | zero => omega
  | succ n ih =>
      rw [K210Os.eput]
      conv_rhs => rw [K210Os.eput]
      dsimp only
      by_cases hlast : e ≠ 0 ∧ (s.fs.ent e).valid ≠ 0 ∧ (s.fs.ent e).ref = 1
      · have hlast' := hlast
        obtain ⟨hroot, hvalid, hone⟩ := hlast'
        have hflag : (s.fs.ent e).valid ≠ -1 := by
          have := hflags e
          omega
        rw [if_pos hlast, if_pos hlast, if_neg hflag, if_neg hflag]
        by_cases hparent : (s.fs.ent (s.fs.ent e).parent).ref < 1
        · rw [if_pos hparent, if_pos hparent]
          rfl
        rw [if_neg hparent, if_neg hparent]
        cases hupdate : eupdate fat { s.fs with lru := e :: s.fs.lru.erase e } e with
        | none => rfl
        | some fs₂ =>
            have hkeep : KeepsTree (fun _ => True) { s.fs with lru := e :: s.fs.lru.erase e } fs₂ :=
              eupdate_keeps hupdate
            obtain ⟨hok', hstay, href⟩ := climb_ok hok he hroot hvalid hone hkeep
            have hless : (edrop fs₂ e).lru.countP
                  (fun i => decide (0 < ((edrop fs₂ e).ent i).ref)) + 1 =
                s.fs.lru.countP fun i => decide (0 < (s.fs.ent i).ref) := by
              have hmem : e ∈ s.fs.lru :=
                (hok.parent e _ _ (tree_child_of_valid handles hroot hvalid)).1
              have hrest : ∀ i ∈ s.fs.lru.erase e, ((edrop fs₂ e).ent i).ref = (s.fs.ent i).ref :=
                fun i hi => by rw [href, if_neg (hok.nodup.mem_erase_iff.mp hi).1]
              rw [(List.perm_cons_erase hmem).countP_eq,
                show (edrop fs₂ e).lru = e :: s.fs.lru.erase e from hkeep.lru, List.countP_cons,
                List.countP_cons, href, if_pos rfl, hone]
              simpa using List.countP_congr fun i hi => by rw [hrest i hi]
            simp only [Option.bind_eq_bind, Option.bind_some]
            rw [if_pos ((href e).trans (if_pos rfl)), if_pos ((href e).trans (if_pos rfl))]
            exact ih (s := { s with fs := edrop fs₂ e }) hok'
              (fun i => by simpa [hstay.valid] using hflags i) (by simp [gain])
              (by dsimp only; omega)
      · rw [if_neg hlast, if_neg hlast]

/-! ## What holds between the calls -/

/-- Which entries are valid, and how they became the children that they are. -/
structure Sound (s : EntryCache) (handles : ℕ → ℕ) : Prop where
  length : s.fs.lru.length = entryCacheNum
  flags : Flags s.fs
  root : (s.fs.ent 0).valid = 1
  held : ∀ e, handles e ≠ 0 → (s.fs.ent e).valid = 1
  linked : ∀ c ∈ s.fs.lru, (s.fs.ent c).valid ≠ 0 → (s.link c).parent = (s.fs.ent c).parent ∧
    nameKey (cstring (s.link c).name) = nameKey (s.fs.ent c).filename
  hits : ∀ hit ∈ s.hits, hit.link.parent = hit.parent ∧ hit.link.occupant = hit.occupant ∧
    nameKey (cstring hit.link.name) = nameKey (cstring hit.name)

structure CacheOk (s : EntryCache) (handles : ℕ → ℕ) : Prop extends Sound s handles where
  tree : (s.tree handles).Ok 0

/-- In a call: the slot `c` was taken, and no entry is in it yet. -/
structure Taken (s : EntryCache) (handles : ℕ → ℕ) (c : ℕ) : Prop extends Sound s handles where
  tree : (s.tree (gain handles (some c))).Ok 0
  free : (s.fs.ent c).valid = 0

theorem Sound.stays (h : Sound s handles) (hstay : Stays s.fs fs') {handles' : ℕ → ℕ}
    (hheld : ∀ e, handles' e ≠ 0 → (s.fs.ent e).valid = 1) :
    Sound { s with fs := fs' } handles' := by
  refine ⟨hstay.lru.length_eq.trans h.length, fun i => ?_, ?_, fun e he => ?_,
    fun c hc hvalid => ?_, h.hits⟩
  · simpa only [hstay.valid] using h.flags i
  · simpa only [hstay.valid] using h.root
  · simpa only [hstay.valid] using hheld e he
  · rw [hstay.valid] at hvalid
    have hlink := h.linked c (hstay.lru.mem_iff.mp hc) hvalid
    rwa [← hstay.parent, ← hstay.filename c hvalid] at hlink

theorem CacheOk.edup (h : CacheOk s handles) (he : e = 0 ∨ (s.fs.ent e).valid = 1 ∧
    0 < (s.fs.ent e).ref ∧ e ∈ s.fs.lru) : CacheOk (s.edup e) (gain handles (some e)) where
  toSound := by
    refine h.toSound.stays (stays_edup s.fs e) fun x hx => ?_
    by_cases hxe : x = e
    · subst hxe
      exact he.elim (fun hzero => hzero ▸ h.root) fun hor => hor.1
    · exact h.held x (by simpa [gain, hxe] using hx)
  tree := by
    rw [tree_edup]
    exact h.tree.dup (he.imp_right fun hor => hor.2)

theorem CacheOk.eput (h : CacheOk s handles) (he : handles e ≠ 0) {s' : EntryCache}
    (hrun : s.eput fat e = some s') : CacheOk s' (lose handles e) := by
  simp only [EntryCache.eput, Option.map_eq_some_iff] at hrun
  obtain ⟨fs', hrun, rfl⟩ := hrun
  obtain ⟨htree, hstay⟩ := eput_ok h.tree h.flags he hrun
  refine ⟨h.toSound.stays hstay fun x hx => h.held x fun hzero => hx ?_, htree⟩
  by_cases hxe : x = e <;> simp_all [lose]

/-- `eputFuel` never runs out. -/
theorem CacheOk.eput_fuel (h : CacheOk s handles) (he : handles e ≠ 0) (n : ℕ) :
    K210Os.eput fat (eputFuel + n) s.fs e = K210Os.eput fat eputFuel s.fs e := by
  induction n with
  | zero => rfl
  | succ n ih =>
      rw [← ih, ← Nat.add_assoc]
      refine EntryCache.eput_fuel h.tree h.flags he (Nat.lt_of_le_of_lt List.countP_le_length ?_)
      rw [h.length]
      exact Nat.lt_add_right n (by decide)

/-! ## Taking a slot -/

def takeSlot (fs : FileSystem) (c : ℕ) : FileSystem :=
  fs.set c { fs.ent c with ref := 1, off := 0, valid := 0, dirty := false }

theorem eget_missed {name : List Byte} (hcached : s.cached dp name = none)
    (hrun : eget s.fs dp name = some (e, fs')) :
    (s.fs.lru.reverse.find? fun i => (s.fs.ent i).ref == 0) = some e ∧ fs' = takeSlot s.fs e := by
  rw [eget, show s.fs.lru.find? (egetHit s.fs dp name) = none from hcached] at hrun
  obtain ⟨c, hfree, heq⟩ := Option.map_eq_some_iff.mp hrun
  obtain ⟨rfl, rfl⟩ := Prod.mk.inj heq
  exact ⟨hfree, rfl⟩

/-- The slot that `eget` takes, in the list. -/
theorem free_slot {c : ℕ}
    (hfree : (fs.lru.reverse.find? fun i => (fs.ent i).ref == 0) = some c) :
    ∃ xs ys, fs.lru = xs ++ c :: ys ∧ (fs.ent c).ref = 0 ∧ ∀ y ∈ ys, (fs.ent y).ref ≠ 0 := by
  obtain ⟨hzero, xs, ys, hlru, hlast⟩ := List.find?_eq_some_iff_append.mp hfree
  simp only [beq_iff_eq, Bool.not_eq_true', beq_eq_false_iff_ne] at hzero hlast
  rw [List.reverse_eq_append_iff, List.reverse_cons, List.append_assoc,
    List.singleton_append] at hlru
  exact ⟨ys.reverse, xs.reverse, hlru, hzero, fun y hy => hlast y (List.mem_reverse.mp hy)⟩

theorem CacheOk.take (h : CacheOk s handles) {c : ℕ}
    (hfree : (s.fs.lru.reverse.find? fun i => (s.fs.ent i).ref == 0) = some c) :
    Taken { s.noteTaken with fs := takeSlot s.fs c } handles c := by
  obtain ⟨xs, ys, hlru, hzero, hlast⟩ := free_slot hfree
  have htaken : s.noteTaken =
      { s with occupant := Function.update s.occupant c (s.occupant c + 1) } := by
    simp [noteTaken, hfree]
  have hcmem : c ∈ s.fs.lru := by simp [hlru]
  have hunheld : handles c = 0 := by
    have hcount := h.tree.count c
    simp only [EntryCache.tree, hzero] at hcount
    omega
  have hother : ∀ {i}, i ≠ c → (takeSlot s.fs c).ent i = s.fs.ent i := fun hne => by
    simp [takeSlot, FileSystem.set, hne]
  have hself : ((takeSlot s.fs c).ent c).valid = 0 := by simp [takeSlot, FileSystem.set]
  have htree : ({ s.noteTaken with fs := takeSlot s.fs c } : EntryCache).tree
      (gain handles (some c)) = (s.tree handles).recycle c := by
    rw [htaken]
    refine TreeCache.ext (funext fun i => ?_) (funext fun i => ?_) rfl rfl rfl rfl <;>
      by_cases hic : i = c <;>
      simp [EntryCache.tree, takeSlot, FileSystem.set, TreeCache.recycle, hic]
  have hsound : Sound { s.noteTaken with fs := takeSlot s.fs c } handles := by
    rw [htaken]
    have hroot : (0 : ℕ) ≠ c := fun heq => h.tree.rootFree (heq ▸ hcmem)
    refine ⟨h.length, fun i => ?_, ?_, fun e he => ?_, fun d hd hvalid => ?_, h.hits⟩
    · by_cases hic : i = c
      · exact .inl (hic ▸ hself)
      · simpa only [hother hic] using h.flags i
    · simpa only [hother hroot] using h.root
    · have hec : e ≠ c := fun heq => he (heq ▸ hunheld)
      simpa only [hother hec] using h.held e he
    · have hdc : d ≠ c := fun heq => hvalid (heq ▸ hself)
      simp only [hother hdc] at hvalid ⊢
      exact h.linked d hd hvalid
  refine ⟨hsound, ?_, hself⟩
  rw [htree]
  exact h.tree.recycle hlru hzero hlast

/-- A child is not in the slot that was taken. -/
theorem child_of_takeSlot {s' : EntryCache} {c d : ℕ} {x : ℕ × List Byte}
    (hchild : (({ s' with fs := takeSlot s.fs c } : EntryCache).tree handles).child d = some x) :
    (s.tree handles).child d = some x := by
  by_cases hdc : d = c
  · subst hdc
    rw [tree_child_of_invalid handles (by simp [takeSlot, FileSystem.set])] at hchild
    exact absurd hchild (by simp)
  · simpa [EntryCache.tree, takeSlot, FileSystem.set, hdc] using hchild

theorem Taken.stays (h : Taken s handles e) (hkeep : KeepsTree (· ≠ e) s.fs fs') :
    Taken { s with fs := fs' } handles e where
  toSound := h.toSound.stays (stays_of_keeps hkeep fun i hi heq => hi (heq ▸ h.free)) h.held
  tree := by
    rw [tree_of_keeps hkeep fun i hi heq => hi (heq ▸ h.free)]
    exact h.tree
  free := (hkeep.valid e).trans h.free

/-- The slot is given back. -/
theorem Taken.eput (h : Taken s handles e) {n : ℕ} (hrun : K210Os.eput fat n s.fs e = some fs') :
    CacheOk { s with fs := fs' } handles ∧ Stays s.fs fs' := by
  obtain ⟨htree, hstay⟩ := eput_ok h.tree h.flags (by simp [gain]) hrun
  rw [lose_gain] at htree
  exact ⟨⟨h.toSound.stays hstay h.held, htree⟩, hstay⟩

/-- `ep` became the child of `dp` under a name, and holds it. -/
structure Linked (dp ep : ℕ) (key : List Byte) (fs fs' : FileSystem) : Prop where
  lru : fs'.lru = fs.lru
  ref : ∀ i, (fs'.ent i).ref = if i = dp then (fs.ent i).ref + 1 else (fs.ent i).ref
  valid : ∀ i, (fs'.ent i).valid = if i = ep then 1 else (fs.ent i).valid
  parent : (fs'.ent ep).parent = dp
  name : nameKey (fs'.ent ep).filename = key
  same : ∀ i, i ≠ ep → (fs'.ent i).parent = (fs.ent i).parent ∧
    (fs'.ent i).filename = (fs.ent i).filename

theorem tree_noteLink {c : ℕ} {name : List Byte} (hne : c ≠ 0)
    (hl : Linked dp c (nameKey (cstring name)) s.fs fs') :
    ({ s.noteLink c dp name with fs := fs' } : EntryCache).tree handles =
      ((s.tree handles).dup dp).adopt c dp (nameKey (cstring name)) := by
  refine TreeCache.ext (funext fun i => ?_) (funext fun i => ?_) hl.lru ?_ rfl (funext fun i => ?_)
  · by_cases hi : i = dp <;> simp [EntryCache.tree, TreeCache.adopt, TreeCache.dup, hl.ref, hi]
  · by_cases hic : i = c
    · subst hic
      simp [EntryCache.tree, TreeCache.adopt, TreeCache.dup, hl.valid, hl.parent, hl.name, hne]
    · simp [EntryCache.tree, TreeCache.adopt, TreeCache.dup, hl.valid, hl.same i hic, hic]
  · simp [EntryCache.tree, TreeCache.adopt, TreeCache.dup]
  · by_cases hic : i = c <;>
      simp [EntryCache.tree, TreeCache.adopt, TreeCache.dup, noteLink, hic]

theorem Taken.ne_held {c : ℕ} (h : Taken s handles c) (hdp : dp = 0 ∨ handles dp ≠ 0) : dp ≠ c := by
  rintro rfl
  have hvalid : (s.fs.ent dp).valid = 1 := hdp.elim (fun hz => hz ▸ h.root) (h.held dp)
  have hfree := h.free
  omega

theorem Taken.link {c : ℕ} {name : List Byte} (h : Taken s handles c)
    (hdp : dp = 0 ∨ handles dp ≠ 0)
    (hfresh : ∀ d, (s.tree handles).child d ≠ some (dp, nameKey (cstring name)))
    (hl : Linked dp c (nameKey (cstring name)) s.fs fs') :
    CacheOk { s.noteLink c dp name with fs := fs' } (gain handles (some c)) := by
  have hne := h.ne_held hdp
  have hroot : c ≠ 0 := (h.ne_held (.inl rfl)).symm
  have hvalid : (s.fs.ent dp).valid = 1 := hdp.elim (fun hz => hz ▸ h.root) (h.held dp)
  have hdup : ((s.tree (gain handles (some c))).dup dp).Ok 0 := by
    refine h.tree.dup (or_iff_not_imp_left.mpr fun hz => ?_)
    have hheld : (s.tree (gain handles (some c))).handles dp ≠ 0 := by
      simpa [EntryCache.tree, gain, hne] using hdp.resolve_left hz
    exact ⟨h.tree.ref_pos hheld, (h.tree.held dp hheld).resolve_left hz⟩
  refine ⟨⟨(congrArg List.length hl.lru).trans h.length, fun i => ?_, ?_, fun e he => ?_,
    fun d hd hdvalid => ?_, h.hits⟩, ?_⟩
  · rw [hl.valid]
    split
    · exact .inr rfl
    · exact h.flags i
  · rw [hl.valid, if_neg hroot.symm]
    exact h.root
  · rw [hl.valid]
    by_cases hec : e = c
    · rw [if_pos hec]
    · rw [if_neg hec]
      exact h.held e (by simpa [gain, hec] using he)
  · by_cases hdc : d = c
    · subst hdc
      simp [noteLink, hl.parent, hl.name]
    · have hsame := hl.same d hdc
      rw [hl.lru] at hd
      rw [hl.valid, if_neg hdc] at hdvalid
      simpa [noteLink, hdc, hsame] using h.linked d hd hdvalid
  · rw [tree_noteLink hroot hl]
    refine hdup.adopt (tree_child_of_invalid handles h.free) ?_ ?_ hne hroot ?_ hfresh
    · simp [EntryCache.tree, TreeCache.dup, gain, hne.symm]
    · simp [TreeCache.dup]
    · refine or_iff_not_imp_left.mpr fun hz => ?_
      change (s.tree handles).child dp ≠ none
      rw [tree_child_of_valid handles hz (by omega)]
      exact Option.some_ne_none _

/-! ## Looking a name up -/

theorem linked_set {ep : ℕ} {key : List Byte} {entry : Dirent} (hne : dp ≠ ep)
    (href : entry.ref = (fs.ent ep).ref) (hvalid : entry.valid = 1) (hparent : entry.parent = dp)
    (hname : nameKey entry.filename = key) :
    Linked dp ep key fs ((K210Os.edup fs dp).set ep entry) := by
  have hself : ((K210Os.edup fs dp).set ep entry).ent ep = entry := by simp [FileSystem.set]
  have hother : ∀ {i}, i ≠ ep → ((K210Os.edup fs dp).set ep entry).ent i =
      (K210Os.edup fs dp).ent i := fun hi => by simp [FileSystem.set, hi]
  have hdup := stays_edup fs dp
  refine ⟨rfl, fun i => ?_, fun i => ?_, by rwa [hself], by rwa [hself], fun i hi => ?_⟩
  · by_cases hi : i = ep
    · subst hi
      rw [hself, if_neg hne.symm, href]
    · rw [hother hi]
      by_cases hidp : i = dp <;> simp [K210Os.edup, FileSystem.set, hidp]
  · by_cases hi : i = ep
    · rw [hi, hself, if_pos rfl, hvalid]
    · rw [hother hi, if_neg hi, hdup.valid]
  · rw [hother hi]
    by_cases hidp : i = dp <;> simp [K210Os.edup, FileSystem.set, hidp]

/-- The slot is filled with the entry that was found, or given back. -/
theorem dirlookupLoop_cases {filename : List Byte} {ep n off count : ℕ} {poff : Bool}
    {stored stored' found : Option ℕ} (hne : dp ≠ ep)
    (hrun : dirlookupLoop fat filename dp ep n fs off count poff stored =
      some (found, stored', fs')) :
    ∃ fs₁, KeepsTree (· ≠ ep) fs fs₁ ∧
      (found = none ∧ K210Os.eput fat eputFuel fs₁ ep = some fs' ∨
        found = some ep ∧ Linked dp ep (nameKey (cstring filename)) fs₁ fs') := by
  induction n generalizing fs off count poff stored with
  | zero => simp [dirlookupLoop] at hrun
  | succ n ih =>
      simp only [dirlookupLoop, Option.bind_eq_bind, Option.bind_eq_some_iff] at hrun
      obtain ⟨⟨code, count₁, fs₁⟩, hnext, hrun⟩ := hrun
      obtain ⟨-, hkeep⟩ := enext_keeps hnext
      have hmore : ∀ {off count poff stored},
          dirlookupLoop fat filename dp ep n fs₁ off count poff stored =
            some (found, stored', fs') →
          ∃ fs₂, KeepsTree (· ≠ ep) fs fs₂ ∧
            (found = none ∧ K210Os.eput fat eputFuel fs₂ ep = some fs' ∨
              found = some ep ∧ Linked dp ep (nameKey (cstring filename)) fs₂ fs') :=
        fun hrest => by
          obtain ⟨fs₂, hkeep₂, hor⟩ := ih hrest
          exact ⟨fs₂, hkeep.trans hkeep₂, hor⟩
      by_cases hcode : code = -1
      · simp only [hcode, ne_eq, not_true_eq_false, if_false, Option.bind_eq_some_iff] at hrun
        obtain ⟨fs₂, hput, hrun⟩ := hrun
        simp only [Option.pure_def, Option.some.injEq, Prod.mk.injEq] at hrun
        obtain ⟨rfl, -, rfl⟩ := hrun
        exact ⟨fs₁, hkeep, .inl ⟨rfl, hput⟩⟩
      · simp only [hcode, ne_eq, not_false_eq_true, if_true, one_ne_zero, if_false] at hrun
        split at hrun
        · rename_i hname
          simp only [Option.pure_def, Option.some.injEq, Prod.mk.injEq] at hrun
          obtain ⟨rfl, -, rfl⟩ := hrun
          have hep : (K210Os.edup fs₁ dp).ent ep = fs₁.ent ep := by
            simp [K210Os.edup, FileSystem.set, hne.symm]
          refine ⟨fs₁, hkeep, .inr ⟨rfl, linked_set hne ?_ rfl rfl ?_⟩⟩
          · simp [hep]
          · rw [strncmpEq_iff_nameKey.mp hname, hep]
        · exact hmore hrun

theorem child_of_cached (handles : ℕ → ℕ) {name : List Byte} (hroot : (0 : ℕ) ∉ s.fs.lru)
    (hcached : s.cached dp name = some i) :
    i ∈ s.fs.lru ∧ (s.fs.ent i).valid = 1 ∧
      (s.tree handles).child i = some (dp, nameKey (cstring name)) := by
  have hmem := List.mem_of_find?_eq_some hcached
  have hhit := List.find?_some hcached
  simp only [egetHit, Bool.and_eq_true, beq_iff_eq] at hhit
  obtain ⟨⟨hvalid, hparent⟩, hname⟩ := hhit
  have hi : i ≠ 0 := fun heq => hroot (heq ▸ hmem)
  refine ⟨hmem, hvalid, ?_⟩
  rw [tree_child_of_valid handles hi (by omega), hparent, strncmpEq_iff_nameKey.mp hname]

theorem fresh_of_not_cached {name : List Byte} (h : CacheOk s handles)
    (hcached : s.cached dp name = none) (d : ℕ) :
    (s.tree handles).child d ≠ some (dp, nameKey (cstring name)) := by
  intro hd
  have hmem : d ∈ s.fs.lru := h.tree.mem_of_child (by simp [hd])
  have hmiss := List.find?_eq_none.mp hcached d hmem
  have hguard : ¬ (d = 0 ∨ (s.fs.ent d).valid = 0) := fun hguard => by
    simp [EntryCache.tree, hguard] at hd
  rw [not_or] at hguard
  rw [tree_child_of_valid handles hguard.1 hguard.2, Option.some.injEq, Prod.mk.injEq] at hd
  simp only [egetHit, Bool.and_eq_true, beq_iff_eq, not_and] at hmiss
  exact hmiss ⟨(h.flags d).resolve_left hguard.2, hd.1⟩ (strncmpEq_iff_nameKey.mpr hd.2)

/-- A hit is the child of the entry that is in the slot now. -/
theorem CacheOk.hit {name : List Byte} {j : ℕ} (h : CacheOk s handles)
    (hdp : dp = 0 ∨ handles dp ≠ 0) (hcached : s.cached dp name = some i)
    (hrun : eget s.fs dp name = some (j, fs')) (found : Option ℕ) :
    j = i ∧ CacheOk { s.noteEget dp name found with fs := fs' } (gain handles (some i)) := by
  obtain ⟨hmem, hvalid, hchild⟩ := child_of_cached handles h.tree.rootFree hcached
  have hi : i ≠ 0 := fun heq => h.tree.rootFree (heq ▸ hmem)
  have hparent : (s.fs.ent i).parent = dp := by
    rw [tree_child_of_valid handles hi (by omega), Option.some.injEq, Prod.mk.injEq] at hchild
    exact hchild.1
  have hnote : s.noteEget dp name found =
      { s with hits := ⟨dp, name, i, s.link i, s.occupant dp⟩ :: s.hits } := by
    simp [noteEget, hcached]
  rw [eget, show s.fs.lru.find? (egetHit s.fs dp name) = some i from hcached] at hrun
  simp only [Option.some.injEq, Prod.mk.injEq] at hrun
  obtain ⟨rfl, hfs⟩ := hrun
  refine ⟨rfl, ?_⟩
  have hok : CacheOk { s with fs := fs' } (gain handles (some i)) := by
    by_cases hzero : (s.fs.ent i).ref = 0
    · rw [if_pos hzero, (stays_edup s.fs i).parent, hparent] at hfs
      subst hfs
      refine ⟨h.toSound.stays ((stays_edup s.fs i).trans (stays_edup _ dp)) fun x hx => ?_, ?_⟩
      · by_cases hxi : x = i
        · rw [hxi, hvalid]
        · exact h.held x (by simpa [gain, hxi] using hx)
      · have hrevive : ({ s with fs := K210Os.edup (K210Os.edup s.fs i) dp } : EntryCache).tree
            (gain handles (some i)) = (s.tree handles).revive i dp := by
          refine TreeCache.ext (funext fun x => ?_) (funext fun x => ?_) rfl rfl rfl rfl <;>
            by_cases hxi : x = i <;> by_cases hxp : x = dp <;>
            simp_all [EntryCache.tree, K210Os.edup, FileSystem.set, TreeCache.revive, TreeCache.dup]
        rw [hrevive]
        exact h.tree.revive hchild hzero (hdp.imp_right h.tree.ref_pos)
    · rw [if_neg hzero] at hfs
      subst hfs
      have hnonneg : 0 ≤ (s.fs.ent i).ref := h.tree.ref_nonneg i
      exact h.edup (.inr ⟨hvalid, by omega, hmem⟩)
  rw [hnote]
  refine ⟨⟨hok.length, hok.flags, hok.root, hok.held, hok.linked, ?_⟩, hok.tree⟩
  rintro hit (_ | ⟨_, hin⟩)
  · have hlink := h.linked i hmem (by omega)
    refine ⟨hlink.1.trans hparent, h.tree.home i dp _ hchild, hlink.2.trans ?_⟩
    rw [tree_child_of_valid handles hi (by omega), Option.some.injEq, Prod.mk.injEq] at hchild
    exact hchild.2
  · exact h.hits hit hin

theorem child_of_stays {s' : EntryCache} (hstay : Stays s.fs s'.fs) (handles handles' : ℕ → ℕ)
    (d : ℕ) : (s'.tree handles').child d = (s.tree handles).child d := by
  simp only [EntryCache.tree, hstay.valid, hstay.parent]
  by_cases hvalid : (s.fs.ent d).valid = 0
  · simp [hvalid]
  · rw [hstay.filename d hvalid]

theorem CacheOk.valid_of_child (h : CacheOk s handles) (hchild : (s.tree handles).child i ≠ none) :
    (s.fs.ent i).valid = 1 := by
  refine (h.flags i).resolve_left fun hzero => hchild ?_
  exact tree_child_of_invalid handles hzero

theorem CacheOk.valid_of_held (h : CacheOk s handles) (hdp : dp = 0 ∨ handles dp ≠ 0) :
    (s.fs.ent dp).valid = 1 :=
  hdp.elim (fun hz => hz ▸ h.root) (h.held dp)

theorem CacheOk.edup_held (h : CacheOk s handles) (he : e = 0 ∨ handles e ≠ 0) :
    CacheOk (s.edup e) (gain handles (some e)) := by
  refine h.edup (or_iff_not_imp_left.mpr fun hz => ?_)
  have hheld := he.resolve_left hz
  exact ⟨h.held e hheld, h.tree.ref_pos hheld, (h.tree.held e hheld).resolve_left hz⟩

/-- The parent of a held directory is held by it. -/
theorem CacheOk.edup_parent (h : CacheOk s handles) (hdp : dp = 0 ∨ handles dp ≠ 0) {up : ℕ}
    (hup : up = if dp = 0 then 0 else (s.fs.ent dp).parent) :
    CacheOk (s.edup up) (gain handles (some up)) := by
  refine h.edup (or_iff_not_imp_left.mpr fun hupz => ?_)
  have hdpz : dp ≠ 0 := fun hz => hupz (by rw [hup, if_pos hz])
  rw [if_neg hdpz] at hup
  subst hup
  have hvalid : (s.fs.ent dp).valid ≠ 0 := by
    rw [h.valid_of_held hdp]
    exact one_ne_zero
  have hchild := tree_child_of_valid handles hdpz hvalid
  have hin := ((h.tree.parent dp _ _ hchild).2.resolve_left hupz).1
  exact ⟨h.valid_of_child hin,
    h.tree.ref_parent hchild (h.tree.ref_pos (hdp.resolve_left hdpz)), h.tree.mem_of_child hin⟩

/-- A lookup gains what it returns; what is not found is not cached afterwards. -/
theorem CacheOk.dirlookup {filename : List Byte} {poff : Bool} {found : Option ℕ}
    {s' : EntryCache} (h : CacheOk s handles) (hdp : dp = 0 ∨ handles dp ≠ 0)
    (hrun : s.dirlookup fat dp filename poff = some (found, s')) :
    CacheOk s' (gain handles found) ∧ (found = none →
      ∀ handles' d, (s'.tree handles').child d ≠ some (dp, nameKey (cstring filename))) := by
  have hvalid := h.valid_of_held hdp
  simp only [EntryCache.dirlookup, Option.map_eq_some_iff, Prod.mk.injEq] at hrun
  obtain ⟨⟨found', stored, fs'⟩, hrun, rfl, rfl⟩ := hrun
  rw [K210Os.dirlookup] at hrun
  split at hrun
  · exact absurd hrun (by simp)
  by_cases hdot : strncmpEq (cstring filename) (cstring [0x2E]) fat32MaxFilename 0 = true
  · rw [if_pos hdot, Option.some.injEq, Prod.mk.injEq, Prod.mk.injEq] at hrun
    obtain ⟨rfl, -, rfl⟩ := hrun
    have honce : s.answersAtOnce dp filename = true := by
      rw [answersAtOnce, hdot, Bool.true_or, Bool.true_or]
    rw [noteLookup, if_pos honce]
    exact ⟨h.edup_held hdp, by simp⟩
  rw [if_neg hdot] at hrun
  by_cases hdotdot : strncmpEq (cstring filename) (cstring [0x2E, 0x2E]) fat32MaxFilename 0 = true
  · rw [if_pos hdotdot, Option.some.injEq, Prod.mk.injEq, Prod.mk.injEq] at hrun
    obtain ⟨rfl, -, rfl⟩ := hrun
    have honce : s.answersAtOnce dp filename = true := by
      rw [answersAtOnce, hdotdot, Bool.or_true, Bool.true_or]
    rw [noteLookup, if_pos honce]
    exact ⟨h.edup_parent hdp rfl, by simp⟩
  rw [if_neg hdotdot, if_neg (not_not.mpr hvalid)] at hrun
  obtain ⟨⟨ep, fs₁⟩, hget, hrun⟩ := Option.bind_eq_some_iff.mp hrun
  dsimp only at hrun
  have hasks : s.answersAtOnce dp filename = false := by
    rw [Bool.not_eq_true] at hdot hdotdot
    rw [answersAtOnce, hdot, hdotdot, hvalid]
    rfl
  rw [noteLookup, if_neg (by simp [hasks])]
  cases hcached : s.cached dp filename with
  | some i =>
      obtain ⟨rfl, hok⟩ := h.hit hdp hcached hget found'
      have hhit : (fs₁.ent ep).valid = 1 := hok.held ep (by simp [gain])
      rw [if_pos hhit, Option.pure_def, Option.some.injEq, Prod.mk.injEq, Prod.mk.injEq] at hrun
      obtain ⟨rfl, -, rfl⟩ := hrun
      exact ⟨hok, by simp⟩
  | none =>
      obtain ⟨hfree, rfl⟩ := eget_missed hcached hget
      have htaken := h.take hfree
      rw [if_neg (by rw [htaken.free]; exact zero_ne_one)] at hrun
      obtain ⟨⟨off, fs₂⟩, hreloc, hrun⟩ := Option.bind_eq_some_iff.mp hrun
      obtain ⟨fs₃, hkeep, hor⟩ := dirlookupLoop_cases (htaken.ne_held hdp) hrun
      have hkeep := (relocEnt_keeps hreloc).trans hkeep
      have htaken' := htaken.stays hkeep
      have hfresh : ∀ d, (({ s.noteTaken with fs := fs₃ } : EntryCache).tree handles).child d ≠
          some (dp, nameKey (cstring filename)) := fun d hd => by
        have hstay := stays_of_keeps hkeep fun i hi heq => hi (heq ▸ htaken.free)
        rw [child_of_stays (s := { s.noteTaken with fs := takeSlot s.fs ep }) hstay handles] at hd
        exact fresh_of_not_cached h hcached d (child_of_takeSlot hd)
      obtain ⟨rfl, hput⟩ | ⟨rfl, hlinked⟩ := hor
      · obtain ⟨hok, hstay⟩ := htaken'.eput hput
        rw [show s.noteEget dp filename none = s.noteTaken by simp [noteEget, hcached]]
        refine ⟨hok, fun _ handles' d hd => hfresh d ?_⟩
        rwa [child_of_stays (s := { s.noteTaken with fs := fs₃ }) hstay handles] at hd
      · rw [show s.noteEget dp filename (some ep) = s.noteTaken.noteLink ep dp filename by
          simp [noteEget, hcached]]
        exact ⟨htaken'.link hdp hfresh hlinked, by simp⟩

/-! ## Creating an entry -/

theorem linked_ealloc {ep attr off : ℕ} {name : List Byte} (hne : dp ≠ ep)
    (hkeep : KeepsTree (fun _ => True) (eallocEntry fs dp ep name attr off) fs') :
    Linked dp ep (nameKey (cstring name)) fs (fs'.set ep { fs'.ent ep with valid := 1 }) := by
  have hself : (fs'.set ep { fs'.ent ep with valid := 1 }).ent ep =
      { fs'.ent ep with valid := 1 } := by simp [FileSystem.set]
  have hother : ∀ {i}, i ≠ ep →
      (fs'.set ep { fs'.ent ep with valid := 1 }).ent i = fs'.ent i :=
    fun hi => by simp [FileSystem.set, hi]
  have hep : (K210Os.edup fs dp).ent ep = fs.ent ep := by
    simp [K210Os.edup, FileSystem.set, hne.symm]
  have hentry : ∀ {i}, i ≠ ep →
      (eallocEntry fs dp ep name attr off).ent i = (K210Os.edup fs dp).ent i :=
    fun hi => by simp [eallocEntry, FileSystem.set, hi]
  have hdup := stays_edup fs dp
  refine ⟨hkeep.lru, fun i => ?_, fun i => ?_, ?_, ?_, fun i hi => ?_⟩
  · by_cases hi : i = ep
    · subst hi
      rw [hself, if_neg hne.symm]
      simp [hkeep.ref, eallocEntry, FileSystem.set, hep]
    · rw [hother hi, hkeep.ref, hentry hi]
      by_cases hidp : i = dp <;> simp [K210Os.edup, FileSystem.set, hidp]
  · by_cases hi : i = ep
    · rw [hi, hself, if_pos rfl]
    · rw [hother hi, hkeep.valid, hentry hi, if_neg hi, hdup.valid]
  · rw [hself, hkeep.parent]
    simp [eallocEntry, FileSystem.set]
  · rw [hself]
    change nameKey (fs'.ent ep).filename = _
    rw [hkeep.filename ep trivial]
    simp only [eallocEntry, FileSystem.set, Function.update_self]
    exact nameKey_copied name
  · rw [hother hi, hkeep.parent, hkeep.filename i trivial, hentry hi]
    by_cases hidp : i = dp <;> simp [K210Os.edup, FileSystem.set, hidp]

theorem eallocNew_linked {ep attr off : ℕ} {name : List Byte} (hne : dp ≠ ep)
    (hrun : eallocNew fat fs dp ep name attr off = some fs') :
    Linked dp ep (nameKey (cstring name)) fs fs' := by
  rw [eallocNew] at hrun
  dsimp only at hrun
  have hend : ∀ {fs₁}, KeepsTree (fun _ => True) (eallocEntry fs dp ep name attr off) fs₁ →
      ((emake fat fs₁ dp ep off).bind fun fs => some (fs.set ep { fs.ent ep with valid := 1 })) =
        some fs' → Linked dp ep (nameKey (cstring name)) fs fs' := by
    intro fs₁ hkeep hrest
    obtain ⟨fs₂, hput, hrest⟩ := Option.bind_eq_some_iff.mp hrest
    obtain rfl := Option.some.inj hrest
    exact linked_ealloc hne (hkeep.trans (emake_keeps hput))
  split at hrun
  · obtain ⟨fs₁, hdot, hrun⟩ := Option.bind_eq_some_iff.mp hrun
    obtain ⟨fs₂, hdotdot, hrun⟩ := Option.bind_eq_some_iff.mp hrun
    refine hend (KeepsTree.trans ?_ ((emake_keeps hdot).trans (emake_keeps hdotdot))) hrun
    exact .set (by rfl) (by rfl) (by rfl) fun _ => by rfl
  · obtain ⟨fs₁, hset, hrun⟩ := Option.bind_eq_some_iff.mp hrun
    obtain rfl := Option.some.inj hset
    exact hend (.set (by rfl) (by rfl) (by rfl) fun _ => by rfl) hrun

/-- A name that is accepted was found, or it is that of a new entry. -/
theorem ealloc_cases {attr : ℕ} {name : List Byte} {found : Option ℕ}
    (hvalid : (fs.ent dp).valid = 1)
    (hrun : K210Os.ealloc fat fs dp name attr = some (found, fs')) :
    formatname name = none ∧ found = none ∧ fs' = fs ∨
      ∃ name' found₁ stored fs₁, formatname name = some name' ∧
        K210Os.dirlookup fat fs dp name' true = some (found₁, stored, fs₁) ∧
        (found₁.isSome ∧ found = found₁ ∧ fs' = fs₁ ∨
          found₁ = none ∧ ∃ ep fs₂, eget fs₁ dp name' = some (ep, fs₂) ∧ found = some ep ∧
            eallocNew fat fs₂ dp ep name' attr (stored.getD 0) = some fs') := by
  have hcall := hrun
  rw [K210Os.ealloc] at hrun
  split at hrun
  · exact absurd hrun (by simp)
  rename_i hdir
  rw [Bool.not_eq_true', Bool.not_eq_false] at hdir
  rw [if_neg (not_not.mpr hvalid)] at hrun
  cases hname : formatname name with
  | none =>
      rw [hname] at hrun
      obtain ⟨rfl, rfl⟩ := Prod.mk.inj (Option.some.inj hrun)
      exact .inl ⟨rfl, rfl, rfl⟩
  | some name' =>
      rw [hname] at hrun
      obtain ⟨⟨found₁, stored, fs₁⟩, hlook, hrun⟩ := Option.bind_eq_some_iff.mp hrun
      refine .inr ⟨name', found₁, stored, fs₁, rfl, hlook, ?_⟩
      cases found₁ with
      | some i =>
          obtain ⟨rfl, rfl⟩ := Prod.mk.inj (Option.some.inj hrun)
          exact .inl ⟨rfl, rfl, rfl⟩
      | none =>
          simp only [Option.isSome_none, if_false, Bool.false_eq_true] at hrun
          obtain ⟨⟨ep, fs₂⟩, hget, hrun⟩ := Option.bind_eq_some_iff.mp hrun
          have href : ¬ (fs₂.ent ep).ref < 1 := fun hlow => by
            dsimp only at hrun
            rw [if_pos hlow] at hrun
            cases hrun
          rw [ealloc_of_not_found hdir hvalid hname hlook hget href] at hcall
          obtain ⟨fs₃, hnew, heq⟩ := Option.map_eq_some_iff.mp hcall
          obtain ⟨rfl, rfl⟩ := Prod.mk.inj heq
          exact .inr ⟨rfl, ep, fs₂, hget, rfl, hnew⟩

/-- The slot that `eget` takes for a name that was not found. -/
theorem CacheOk.take_missed {name : List Byte} {poff : Bool} {s' : EntryCache} {ep : ℕ}
    (h : CacheOk s handles) (hdp : dp = 0 ∨ handles dp ≠ 0)
    (hlook : s.dirlookup fat dp name poff = some (none, s'))
    (hget : eget s'.fs dp name = some (ep, fs')) :
    s'.cached dp name = none ∧ fs' = takeSlot s'.fs ep ∧
      Taken { s'.noteTaken with fs := fs' } handles ep := by
  obtain ⟨hok, hfresh⟩ := h.dirlookup hdp hlook
  have hcached : s'.cached dp name = none := by
    refine Option.eq_none_iff_forall_ne_some.mpr fun i hi => ?_
    have hchild := child_of_cached handles hok.tree.rootFree hi
    exact hfresh rfl handles i hchild.2.2
  obtain ⟨hfree, rfl⟩ := eget_missed hcached hget
  exact ⟨hcached, rfl, hok.take hfree⟩

theorem CacheOk.ealloc {name : List Byte} {attr : ℕ} {found : Option ℕ} {s' : EntryCache}
    (h : CacheOk s handles) (hdp : dp = 0 ∨ handles dp ≠ 0)
    (hrun : s.ealloc fat dp name attr = some (found, s')) :
    CacheOk s' (gain handles found) := by
  have hvalid := h.valid_of_held hdp
  simp only [EntryCache.ealloc, Option.map_eq_some_iff, Prod.mk.injEq] at hrun
  obtain ⟨⟨found', fs'⟩, hrun, rfl, rfl⟩ := hrun
  rw [if_neg (not_not.mpr hvalid)]
  rcases ealloc_cases hvalid hrun with
    ⟨hname, rfl, rfl⟩ | ⟨name', found₁, stored, fs₁, hname, hlook, hor⟩
  · rw [noteEalloc, hname]
    exact h
  have hlook' : s.dirlookup fat dp name' true =
      some (found₁, { s.noteLookup dp name' found₁ with fs := fs₁ }) := by
    rw [EntryCache.dirlookup, hlook]
    rfl
  obtain ⟨hok, hfresh⟩ := h.dirlookup hdp hlook'
  rcases hor with ⟨hsome, rfl, rfl⟩ | ⟨rfl, ep, fs₂, hget, rfl, hnew⟩
  · obtain ⟨i, rfl⟩ := Option.isSome_iff_exists.mp hsome
    simp only [noteEalloc, hname, hlook', Option.bind_some, Option.map_some]
    exact hok
  · obtain ⟨hcached, rfl, htaken⟩ := h.take_missed hdp hlook' hget
    simp only [noteEalloc, hname, hlook', Option.bind_some, Option.map_some]
    simp only [noteEget, hcached]
    exact htaken.link hdp (fun d hd => hfresh rfl handles d (child_of_takeSlot hd))
      (eallocNew_linked (htaken.ne_held hdp) hnew)

/-! ## Paths -/

theorem skipelem_length {path elem rest : List Byte} (h : skipelem path = some (elem, rest)) :
    rest.length < path.length := by
  simp only [skipelem] at h
  split at h
  · exact absurd h (by simp)
  · rename_i hne
    obtain ⟨rfl, rfl⟩ := Prod.mk.inj (Option.some.inj h)
    have hfront := (path.dropWhile_suffix (· == 0x2F)).length_le
    have hback := ((path.dropWhile (· == 0x2F)).dropWhile (· != 0x2F)).dropWhile_suffix (· == 0x2F)
    have helem : ((path.dropWhile (· == 0x2F)).dropWhile (· != 0x2F)).length <
        (path.dropWhile (· == 0x2F)).length := by
      cases hpath : path.dropWhile (· == 0x2F) with
      | nil => exact absurd (by rw [hpath]; rfl) hne
      | cons c tail =>
          have hc : (c == 0x2F) = false := by
            have hhead := List.head?_dropWhile_not (· == 0x2F) path
            rw [hpath] at hhead
            simpa using hhead
          have htail := (tail.dropWhile_suffix (· != 0x2F)).length_le
          rw [List.dropWhile_cons_of_pos (by rw [bne, hc]; rfl), List.length_cons]
          omega
    have hback := hback.length_le
    omega

/-- The loop of `lookup_path` ends before its rounds run out. -/
theorem lookupLoop_fuel {parent : Bool} {n entry : ℕ} {path name : List Byte}
    (hn : path.length < n) :
    EntryCache.lookupLoop fat parent (n + 1) s entry path name =
      EntryCache.lookupLoop fat parent n s entry path name := by
  induction n generalizing s entry path name with
  | zero => omega
  | succ n ih =>
      rw [EntryCache.lookupLoop]
      conv_rhs => rw [EntryCache.lookupLoop]
      cases hskip : skipelem path with
      | none => rfl
      | some elem =>
          obtain ⟨elem, rest⟩ := elem
          have hless := skipelem_length hskip
          have hrest : ∀ s next name, EntryCache.lookupLoop fat parent (n + 1) s next rest name =
              EntryCache.lookupLoop fat parent n s next rest name := fun _ _ _ => ih (by omega)
          simp only [hrest]

theorem gain_lose (he : handles e ≠ 0) : gain (lose handles e) (some e) = handles := by
  funext x
  by_cases hxe : x = e
  · subst hxe
    simp only [gain, lose, Function.update_self]
    omega
  · simp [gain, lose, hxe]

/-- A holding of `e` is swapped for one of `i`. -/
theorem lose_swap (handles : ℕ → ℕ) (e i : ℕ) :
    lose (lose (gain handles (some i)) e) i = lose handles e := by
  funext x
  by_cases hxe : x = e <;> by_cases hxi : x = i
  · subst hxe hxi
    simp [gain, lose]
  · subst hxe
    simp [gain, lose, hxi]
  · subst hxi
    simp [gain, lose, hxe]
  · simp [gain, lose, hxe, hxi]

theorem lose_gain_gain (handles : ℕ → ℕ) (e i : ℕ) :
    lose (gain (gain handles (some e)) (some i)) e = gain handles (some i) := by
  funext x
  by_cases hxe : x = e <;> by_cases hxi : x = i
  · subst hxe hxi
    simp [gain, lose]
  · subst hxe
    simp [gain, lose, hxi]
  · subst hxi
    simp [gain, lose, hxe]
  · simp [gain, lose, hxe, hxi]

theorem gain_ne_zero (he : handles e ≠ 0) (found : Option ℕ) : gain handles found e ≠ 0 := by
  cases found with
  | none => exact he
  | some i => by_cases hei : e = i <;> simp_all [gain]

/-- The loop gives up the directory that it holds for what it returns. -/
theorem CacheOk.lookupLoop {parent : Bool} {fuel entry : ℕ} {path name name' : List Byte}
    {found : Option ℕ} {s' : EntryCache} (h : CacheOk s handles) (hentry : handles entry ≠ 0)
    (hrun : EntryCache.lookupLoop fat parent fuel s entry path name = some (found, name', s')) :
    CacheOk s' (gain (lose handles entry) found) := by
  induction fuel generalizing s handles entry path name with
  | zero => simp [EntryCache.lookupLoop] at hrun
  | succ fuel ih =>
      have hput : ∀ {name : List Byte} {r : Option ℕ × List Byte × EntryCache},
          ((s.eput fat entry).map fun s => ((none : Option ℕ), name, s)) = some r →
          CacheOk r.2.2 (gain (lose handles entry) r.1) := fun hput => by
        obtain ⟨s₁, hput₁, rfl⟩ := Option.map_eq_some_iff.mp hput
        exact h.eput hentry hput₁
      have hdone : ∀ {name : List Byte} {r : Option ℕ × List Byte × EntryCache},
          some (some entry, name, s) = some r → CacheOk r.2.2 (gain (lose handles entry) r.1) :=
        fun hdone => by
          obtain rfl := Option.some.inj hdone
          exact (gain_lose hentry).symm ▸ h
      rw [EntryCache.lookupLoop] at hrun
      cases hskip : skipelem path with
      | none =>
          rw [hskip] at hrun
          dsimp only at hrun
          split at hrun
          · exact hput hrun
          · exact hdone hrun
      | some elem =>
          obtain ⟨elem, path'⟩ := elem
          rw [hskip] at hrun
          dsimp only at hrun
          split at hrun
          · exact absurd hrun (by simp)
          split at hrun
          · exact hput hrun
          split at hrun
          · exact hdone hrun
          obtain ⟨⟨next, s₁⟩, hlook, hrun⟩ := Option.bind_eq_some_iff.mp hrun
          obtain ⟨s₂, hput₂, hrun⟩ := Option.bind_eq_some_iff.mp hrun
          have hok₂ := (h.dirlookup (.inr hentry) hlook).1.eput (gain_ne_zero hentry next) hput₂
          cases next with
          | none =>
              obtain ⟨rfl, -, rfl⟩ := by
                simpa only [Option.pure_def, Option.some.injEq, Prod.mk.injEq] using hrun
              exact hok₂
          | some next =>
              have hnext : lose (gain handles (some next)) entry next ≠ 0 := by
                by_cases hne : next = entry
                · subst hne
                  rwa [lose_gain]
                · simp [lose, gain, hne]
              have hend := ih hok₂ hnext hrun
              rwa [lose_swap] at hend

theorem CacheOk.lookupPath {parent : Bool} {cwd : ℕ} {path name : List Byte} {found : Option ℕ}
    {s' : EntryCache} (h : CacheOk s handles)
    (hcwd : (cwd = 0 ∨ handles cwd ≠ 0) ∨ path.head? = some 0x2F)
    (hrun : s.lookupPath fat cwd path parent = some (found, name, s')) :
    CacheOk s' (gain handles found) := by
  rw [EntryCache.lookupPath] at hrun
  split at hrun
  · simp only [Option.some.injEq, Prod.mk.injEq] at hrun
    obtain ⟨rfl, -, rfl⟩ := hrun
    exact h
  · have hentry : (if path.head? = some 0x2F then 0 else cwd) = 0 ∨
        handles (if path.head? = some 0x2F then 0 else cwd) ≠ 0 := by
      by_cases hhead : path.head? = some 0x2F
      · exact .inl (if_pos hhead)
      · rw [if_neg hhead]
        exact hcwd.resolve_right hhead
    have hend := (h.edup_held hentry).lookupLoop (by simp [gain]) hrun
    rwa [lose_gain] at hend

theorem CacheOk.create {cwd mode : ℕ} {path : List Byte} {type : ℤ} {found : Option ℕ}
    {s' : EntryCache} (h : CacheOk s handles)
    (hcwd : (cwd = 0 ∨ handles cwd ≠ 0) ∨ path.head? = some 0x2F)
    (hrun : s.create fat cwd path type mode = some (found, s')) :
    CacheOk s' (gain handles found) := by
  obtain ⟨⟨dp, name, s₁⟩, hparent, hrun⟩ := Option.bind_eq_some_iff.mp hrun
  have hok₁ := h.lookupPath hcwd hparent
  cases dp with
  | none =>
      simp only [Option.pure_def, Option.some.injEq, Prod.mk.injEq] at hrun
      obtain ⟨rfl, rfl⟩ := hrun
      exact hok₁
  | some dp =>
      have hdp : gain handles (some dp) dp ≠ 0 := by simp [gain]
      dsimp only at hrun
      split at hrun
      · exact absurd hrun (by simp)
      obtain ⟨⟨ep, s₂⟩, halloc, hrun⟩ := Option.bind_eq_some_iff.mp hrun
      have hok₂ := hok₁.ealloc (.inr hdp) halloc
      cases ep with
      | none =>
          obtain ⟨s₃, hput, hrun⟩ := Option.map_eq_some_iff.mp hrun
          obtain ⟨rfl, rfl⟩ := Prod.mk.inj hrun
          have hok₃ := hok₂.eput (e := dp) hdp hput
          rwa [show gain (gain handles (some dp)) none = gain handles (some dp) from rfl,
            lose_gain] at hok₃
      | some ep =>
          dsimp only at hrun
          split at hrun
          · obtain ⟨s₃, hput₃, hrun⟩ := Option.bind_eq_some_iff.mp hrun
            obtain ⟨s₄, hput₄, hrun⟩ := Option.bind_eq_some_iff.mp hrun
            simp only [Option.pure_def, Option.some.injEq, Prod.mk.injEq] at hrun
            obtain ⟨rfl, rfl⟩ := hrun
            have hok₃ := hok₂.eput (by simp [gain]) hput₃
            rw [lose_gain] at hok₃
            have hok₄ := hok₃.eput hdp hput₄
            rwa [lose_gain] at hok₄
          · obtain ⟨s₃, hput, hrun⟩ := Option.bind_eq_some_iff.mp hrun
            have hok₃ := hok₂.eput (gain_ne_zero hdp (some ep)) hput
            rw [lose_gain_gain] at hok₃
            split at hrun
            · exact absurd hrun (by simp)
            simp only [Option.pure_def, Option.some.injEq, Prod.mk.injEq] at hrun
            obtain ⟨rfl, rfl⟩ := hrun
            exact hok₃

/-! ## Runs -/

theorem fat32Init_ok (disk : Disk) (rootClus : ℕ) (ent : ℕ → Dirent) :
    CacheOk (fat32Init disk rootClus ent) fun _ => 0 := by
  have hvalid : ∀ i, i ≠ 0 → ((fat32Init disk rootClus ent).fs.ent i).valid = 0 := fun i hi => by
    simp [fat32Init, hi]
  have hchild : ∀ i, ((fat32Init disk rootClus ent).tree fun _ => 0).child i = none := fun i => by
    by_cases hi : i = 0
    · exact if_pos (.inl hi)
    · exact tree_child_of_invalid _ (hvalid i hi)
  have href : ∀ i, ((fat32Init disk rootClus ent).tree fun _ => 0).ref i = 0 := fun i => by
    by_cases hi : i = 0 <;> simp [EntryCache.tree, fat32Init, hi]
  have hlru : (fat32Init disk rootClus ent).fs.lru =
      (List.range entryCacheNum).map fun k => entryCacheNum - k := rfl
  have hroot : (0 : ℕ) ∉ (fat32Init disk rootClus ent).fs.lru := by
    rw [hlru]
    decide
  have hnodup : (fat32Init disk rootClus ent).fs.lru.Nodup := by
    rw [hlru]
    decide
  refine ⟨⟨rfl, fun i => ?_, rfl, by simp, fun c hc hne => ?_, by simp [fat32Init]⟩,
    ⟨hnodup, hroot, by simp [EntryCache.tree], fun e => ?_, ?_, ?_, ?_⟩⟩
  · by_cases hi : i = 0
    · exact .inr (hi ▸ rfl)
    · exact .inl (hvalid i hi)
  · exact absurd (hvalid c fun heq => hroot (heq ▸ hc)) hne
  · have huse : ((fat32Init disk rootClus ent).tree fun _ => 0).inUse e = 0 := by
      refine List.countP_eq_zero.mpr fun c _ => ?_
      simp [hchild]
    rw [href, huse]
    rfl
  all_goals simp [hchild]

end EntryCache

/-- The number of cached entries in use whose parent is `e`. -/
def FileSystem.childrenInUse (fs : FileSystem) (e : ℕ) : ℕ :=
  fs.lru.countP fun c =>
    decide (0 < (fs.ent c).ref ∧ (fs.ent c).valid ≠ 0 ∧ (fs.ent c).parent = e)

/-- How many handles the counts leave for the clients. -/
def FileSystem.handleCount (fs : FileSystem) (e : ℕ) : ℤ := (fs.ent e).ref - fs.childrenInUse e

theorem KeepsTree.handleCount {p : ℕ → Prop} {fs fs' : FileSystem}
    (h : KeepsTree p fs fs') (e : ℕ) : fs'.handleCount e = fs.handleCount e := by
  simp only [FileSystem.handleCount, FileSystem.childrenInUse, h.lru, h.ref, h.valid, h.parent]

/-- How a call that returns `found` changes the number of handles on `e`. -/
def EntryOp.change : EntryOp → Option ℕ → ℕ → ℤ
  | .eput i, _, e => if e = i then -1 else 0
  | _, found, e => if found = some e then 1 else 0

/-- What a hit returns was linked to the directory that is in the slot now, under the name
that was asked; and a slot that is free to be taken is the parent of no valid entry. -/
structure HitLaws (s : EntryCache) : Prop where
  hits : ∀ hit ∈ s.hits, hit.link.parent = hit.parent ∧ hit.link.occupant = hit.occupant ∧
    strncmpEq (cstring hit.link.name) (cstring hit.name) fat32MaxFilename 0
  parents : ∀ c ∈ s.fs.lru, (s.fs.ent c).valid ≠ 0 →
    (s.link c).parent = (s.fs.ent c).parent ∧ (s.link c).occupant = s.occupant (s.fs.ent c).parent ∧
      strncmpEq (cstring (s.link c).name) (s.fs.ent c).filename fat32MaxFilename 0
  recycled : ∀ c, (s.fs.lru.reverse.find? fun i => (s.fs.ent i).ref == 0) = some c →
    ∀ d ∈ s.fs.lru, (s.fs.ent d).valid ≠ 0 → (s.fs.ent d).parent ≠ c
  unique : ∀ c ∈ s.fs.lru, ∀ d ∈ s.fs.lru, (s.fs.ent c).valid ≠ 0 → (s.fs.ent d).valid ≠ 0 →
    (s.fs.ent c).parent = (s.fs.ent d).parent →
      strncmpEq (s.fs.ent c).filename (s.fs.ent d).filename fat32MaxFilename 0 → c = d

namespace EntryCache

variable {s : EntryCache} {handles : ℕ → ℕ}

theorem CacheOk.inUse (h : CacheOk s handles) (e : ℕ) :
    (s.tree handles).inUse e = s.fs.childrenInUse e := by
  refine List.countP_congr fun c hc => ?_
  have hcz : c ≠ 0 := fun heq => h.tree.rootFree (heq ▸ hc)
  by_cases hvalid : (s.fs.ent c).valid = 0
  · simp [tree_child_of_invalid handles hvalid, hvalid]
  · rw [tree_child_of_valid handles hcz hvalid]
    simp [EntryCache.tree, hvalid]

theorem CacheOk.ref (h : CacheOk s handles) (e : ℕ) :
    (s.fs.ent e).ref = handles e + s.fs.childrenInUse e := by
  rw [← h.inUse]
  exact h.tree.count e

theorem CacheOk.hitLaws (h : CacheOk s handles) : HitLaws s := by
  have hchild : ∀ c ∈ s.fs.lru, (s.fs.ent c).valid ≠ 0 →
      (s.tree handles).child c = some ((s.fs.ent c).parent, nameKey (s.fs.ent c).filename) :=
    fun c hc hvalid => tree_child_of_valid handles (fun heq => h.tree.rootFree (heq ▸ hc)) hvalid
  refine ⟨fun hit hin => ?_, fun c hc hvalid => ?_, fun c hfree d hd hvalid heq => ?_,
    fun c hc d hd hcvalid hdvalid hparent hname => ?_⟩
  · obtain ⟨hparent, hoccupant, hname⟩ := h.hits hit hin
    exact ⟨hparent, hoccupant, strncmpEq_iff_nameKey.mpr hname⟩
  · obtain ⟨hparent, hname⟩ := h.linked c hc hvalid
    exact ⟨hparent, h.tree.home c _ _ (hchild c hc hvalid), strncmpEq_iff_nameKey.mpr hname⟩
  · obtain ⟨xs, ys, hlru, hzero, hlast⟩ := free_slot hfree
    exact h.tree.childless hlru hzero hlast d _ (heq ▸ hchild d hd hvalid)
  · refine h.tree.unique c d ?_ ?_
    · rw [hchild c hc hcvalid, hchild d hd hdvalid, hparent, strncmpEq_iff_nameKey.mp hname]
    · simp [hchild c hc hcvalid]

end EntryCache

namespace EntryRun

open Transition

variable {s s' s₀ : EntryRun} {disk : Disk} {rootClus : ℕ} {ent : ℕ → Dirent}

theorem held_iff {s : EntryRun} {e : ℕ} : s.Held e ↔ e = 0 ∨ s.handles e ≠ 0 := by
  rw [Held, Nat.one_le_iff_ne_zero]

theorem cacheOk_step (h : s.cache.CacheOk s.handles) {l : EntryOp × Option ℕ}
    (hstep : s.EntryStep fat l s') :
    s'.cache.CacheOk s'.handles ∧ ∀ e, (s'.handles e : ℤ) = s.handles e + l.1.change l.2 e := by
  have hgain : ∀ found e, (gain s.handles found e : ℤ) =
      s.handles e + if found = some e then 1 else 0 := fun found e => by
    cases found with
    | none => simp [gain]
    | some i =>
        by_cases hei : e = i
        · subst hei
          simp [gain]
        · simp [gain, hei, Ne.symm hei]
  obtain ⟨op, found⟩ := l
  obtain ⟨hp, hstep⟩ := hstep
  cases op with
  | ename cwd path =>
      obtain ⟨⟨r, cache⟩, hrun, heq⟩ := Option.map_eq_some_iff.mp hstep
      obtain ⟨rfl, rfl⟩ := Prod.mk.inj heq
      obtain ⟨⟨r', name, cache'⟩, hpath, heq⟩ := Option.map_eq_some_iff.mp hrun
      obtain ⟨rfl, rfl⟩ := Prod.mk.inj heq
      exact ⟨h.lookupPath (hp.imp_left held_iff.mp) hpath, hgain _⟩
  | enameparent cwd path =>
      obtain ⟨⟨r, name, cache⟩, hrun, heq⟩ := Option.map_eq_some_iff.mp hstep
      obtain ⟨rfl, rfl⟩ := Prod.mk.inj heq
      exact ⟨h.lookupPath (hp.imp_left held_iff.mp) hrun, hgain _⟩
  | create cwd path type mode =>
      obtain ⟨⟨r, cache⟩, hrun, heq⟩ := Option.map_eq_some_iff.mp hstep
      obtain ⟨rfl, rfl⟩ := Prod.mk.inj heq
      exact ⟨h.create (hp.imp_left held_iff.mp) hrun, hgain _⟩
  | ealloc dp name attr =>
      obtain ⟨⟨r, cache⟩, hrun, heq⟩ := Option.map_eq_some_iff.mp hstep
      obtain ⟨rfl, rfl⟩ := Prod.mk.inj heq
      exact ⟨h.ealloc (held_iff.mp hp) hrun, hgain _⟩
  | dirlookup dp filename poff =>
      obtain ⟨⟨r, cache⟩, hrun, heq⟩ := Option.map_eq_some_iff.mp hstep
      obtain ⟨rfl, rfl⟩ := Prod.mk.inj heq
      exact ⟨(h.dirlookup (held_iff.mp hp) hrun).1, hgain _⟩
  | edup e =>
      obtain ⟨rfl, rfl⟩ := Prod.mk.inj (Option.some.inj hstep)
      exact ⟨h.edup_held (held_iff.mp hp), hgain (some e)⟩
  | eput e =>
      obtain ⟨cache, hrun, heq⟩ := Option.map_eq_some_iff.mp hstep
      obtain ⟨rfl, rfl⟩ := Prod.mk.inj heq
      have he : s.handles e ≠ 0 := Nat.one_le_iff_ne_zero.mp hp
      refine ⟨h.eput he hrun, fun x => ?_⟩
      by_cases hxe : x = e
      · subst hxe
        simp only [lose, Function.update_self, EntryOp.change, if_true]
        omega
      · simp [lose, hxe, EntryOp.change]

theorem cacheOk_of_run {ls : List (EntryOp × Option ℕ)}
    (hrun : Run (EntryStep fat) (start disk rootClus ent) ls s) :
    s.cache.CacheOk s.handles :=
  hrun.invariant (I := fun s => s.cache.CacheOk s.handles)
    (fun _ _ _ hok hstep => (cacheOk_step hok hstep).1)
    (EntryCache.fat32Init_ok disk rootClus ent)

/-- A call changes the number of handles of what it returns only. -/
theorem handleCount_step (h : s.cache.CacheOk s.handles) {l : EntryOp × Option ℕ}
    (hstep : s.EntryStep fat l s') (e : ℕ) :
    s'.cache.fs.handleCount e = s.cache.fs.handleCount e + l.1.change l.2 e := by
  obtain ⟨hok', hchange⟩ := cacheOk_step h hstep
  have hbefore := h.ref e
  have hafter := hok'.ref e
  have hdiff := hchange e
  simp only [FileSystem.handleCount]
  omega

/-! ## A run on an empty volume -/

instance (s : EntryRun) (e : ℕ) : Decidable (s.Held e) := inferInstanceAs (Decidable (_ ∨ _))

instance (s : EntryRun) : DecidablePred s.Permitted
  | .ename _ _ | .enameparent _ _ | .create _ _ _ _ => inferInstanceAs (Decidable (_ ∨ _))
  | .ealloc _ _ _ | .dirlookup _ _ _ | .edup _ => inferInstanceAs (Decidable (Held _ _))
  | .eput _ => inferInstanceAs (Decidable (_ ≤ _))

/-- A step with a given result, for runs that are computed. -/
def checkedStep (fat : Fat32) (s : EntryRun) (l : EntryOp × Option ℕ) : Option EntryRun :=
  if s.Permitted l.1 then
    (s.entryStep fat l.1).bind fun (r, s') => if r = l.2 then some s' else none
  else none

theorem entryStep_of_checkedStep {l : EntryOp × Option ℕ} (h : s.checkedStep fat l = some s') :
    s.EntryStep fat l s' := by
  rw [checkedStep, Option.ite_none_right_eq_some] at h
  obtain ⟨hp, h⟩ := h
  obtain ⟨⟨r, t⟩, hstep, hr⟩ := Option.bind_eq_some_iff.mp h
  simp only [Option.ite_none_right_eq_some, Option.some.injEq] at hr
  obtain ⟨rfl, rfl⟩ := hr
  exact ⟨hp, hstep⟩

/-- A volume of one FAT sector and four clusters, with nothing in it. -/
def emptyFat : Fat32 := ⟨2, 4, 512, 512, 1, 1, 6, 1⟩

def emptyRun : EntryRun :=
  start ⟨fun _ => 0, [], []⟩ 2 fun _ => ⟨fun _ => 0, 0, 0, 0, 0, 0, false, 0, 0, 0, 0⟩

/-- A file is created and found again in the cache, and both handles are given up. -/
theorem exists_run_create_ename :
    ∃ s, Run (EntryStep emptyFat) emptyRun
        [(.create 0 [0x2F, 0x61] tFile 0, some 1), (.ename 0 [0x2F, 0x61], some 1),
          (.eput 1, none), (.eput 1, none)] s ∧
      (s.cache.hits.length, s.cache.fs.lru.head?) = (1, some 1) := by
  obtain ⟨s₀, s, hs₀, hrun, hg⟩ := exists_run_of_execute (checkedStep emptyFat) (some emptyRun)
    [(.create 0 [0x2F, 0x61] tFile 0, some 1), (.ename 0 [0x2F, 0x61], some 1), (.eput 1, none),
      (.eput 1, none)]
    (fun s => (s.cache.hits.length, s.cache.fs.lru.head?)) (1, some 1) (by decide +kernel)
  obtain rfl := Option.some.inj hs₀
  exact ⟨s, hrun.mono fun _ _ _ => entryStep_of_checkedStep, hg⟩

/-! ## What holds in every run -/

/-- Every count is the handles of the clients and the children in use, and a call changes the
number of handles of what it returns only. -/
theorem entryRefs_of_run {ls : List (EntryOp × Option ℕ)}
    (hrun : Run (EntryStep fat) (start disk rootClus ent) ls s) :
    (∀ e, (s.cache.fs.ent e).ref = s.handles e + s.cache.fs.childrenInUse e) ∧
      ∀ op found s', s.EntryStep fat (op, found) s' →
        ∀ e, s'.cache.fs.handleCount e = s.cache.fs.handleCount e + op.change found e := by
  have hok := cacheOk_of_run hrun
  exact ⟨hok.ref, fun op found s' hstep => handleCount_step hok hstep⟩

theorem entryRefs_create_ename :
    ∃ s, Run (EntryStep emptyFat) emptyRun
        [(.create 0 [0x2F, 0x61] tFile 0, some 1), (.ename 0 [0x2F, 0x61], some 1),
          (.eput 1, none), (.eput 1, none)] s ∧
      ∀ e, (s.cache.fs.ent e).ref = s.handles e + s.cache.fs.childrenInUse e := by
  obtain ⟨s, hrun, -⟩ := exists_run_create_ename
  exact ⟨s, hrun, (entryRefs_of_run hrun).1⟩

/-- The entry cache never mistakes a directory, in every state of every run. -/
theorem entryHits_of_run {ls : List (EntryOp × Option ℕ)}
    (hrun : Run (EntryStep fat) (start disk rootClus ent) ls s) : HitLaws s.cache :=
  (cacheOk_of_run hrun).hitLaws

/-- The second call of the run hits. -/
theorem entryHits_create_ename :
    ∃ s, Run (EntryStep emptyFat) emptyRun
        [(.create 0 [0x2F, 0x61] tFile 0, some 1), (.ename 0 [0x2F, 0x61], some 1),
          (.eput 1, none), (.eput 1, none)] s ∧
      s.cache.hits.length = 1 ∧ HitLaws s.cache := by
  obtain ⟨s, hrun, hg⟩ := exists_run_create_ename
  exact ⟨s, hrun, (Prod.mk.inj hg).1, entryHits_of_run hrun⟩

end EntryRun

end K210Os
