import K210Os.EntryCacheRuns
import K210Os.FatTruncate

/-!
# `sys_unlink`

`sys_unlink` takes the entry that `ename` found down by one reference itself, without
`eput`, and removes it from its directory where none is left. The null pointer of a path
that does not resolve is not tested. A removed entry keeps its hold on its parent, and an
entry that is open elsewhere stays as it is.
-/

namespace K210Os

/-! ## Coming into use along a path -/

/-- From the children in use `A` on, the nodes of a path came into use, each as the child of
the one before, down to the current one. -/
inductive Climbed {ν : Type*} [DecidableEq ν] (root : ν) (A : ν → Option ν) :
    (ν → Option ν) → ν → Prop
  | base {x : ν} : x = root ∨ A x ≠ none → Climbed root A A x
  | push {B : ν → Option ν} {x c : ν} : Climbed root A B x → B c = none → c ≠ root →
      Climbed root A (Function.update B c (some x)) c

/-- The parent of a child in use is in use itself. -/
def Rooted {ν : Type*} (root : ν) (A : ν → Option ν) : Prop :=
  ∀ d q, A d = some q → q = root ∨ A q ≠ none

namespace Climbed

variable {ν : Type*} [DecidableEq ν] {root x d : ν} {A B : ν → Option ν}

theorem keeps (h : Climbed root A B x) (hd : A d ≠ none) : B d = A d := by
  induction h with
  | base => rfl
  | @push B x c _ hfree _ ih =>
      have hne : d ≠ c := by
        rintro rfl
        exact hd (ih ▸ hfree)
      rw [Function.update_of_ne hne]
      exact ih

theorem current (h : Climbed root A B x) : x = root ∨ B x ≠ none := by
  cases h with
  | base h => exact h
  | push => exact .inr (by simp)

theorem rooted (h : Climbed root A B x) (hA : Rooted root A) : Rooted root B := by
  induction h with
  | base => exact hA
  | @push B x c hB _ _ ih =>
      intro d q hd
      have hkeep : q = root ∨ B q ≠ none → q = root ∨ Function.update B c (some x) q ≠ none := by
        refine Or.imp_right fun hq => ?_
        by_cases hqc : q = c
        · simp [hqc]
        · rwa [Function.update_of_ne hqc]
      by_cases hdc : d = c
      · subst hdc
        rw [Function.update_self, Option.some.injEq] at hd
        subst hd
        exact hkeep hB.current
      · rw [Function.update_of_ne hdc] at hd
        exact hkeep (ih d q hd)

/-- The current node has no other children than it had. -/
theorem children (h : Climbed root A B x) (hA : Rooted root A) (hd : B d = some x) :
    A d = some x := by
  cases h with
  | base => exact hd
  | @push B x' _ hB hfree hroot =>
      have hB' := hB.rooted hA
      by_cases hdx : d = x
      · subst hdx
        rw [Function.update_self, Option.some.injEq] at hd
        subst hd
        exact absurd hfree (hB.current.resolve_left hroot)
      · rw [Function.update_of_ne hdx] at hd
        exact absurd hfree ((hB' d x hd).resolve_left hroot)

/-- A child of the current node that is in use was so before. -/
theorem child (h : Climbed root A B x) (hA : Rooted root A) (hd : B d = some x) :
    Climbed root A B d := by
  have hd' := h.children hA hd
  cases h with
  | base => exact .base (.inr (hd' ▸ Option.some_ne_none x))
  | @push B x' _ hB hfree hroot =>
      have hx := (hA d x hd').resolve_left hroot
      exact absurd (hB.keeps hx ▸ hfree) hx

end Climbed

namespace EntryCache

open Transition

/-- `sys_unlink` of a path that was fetched. -/
def sysUnlink (fat : Fat32) (s : EntryCache) (cwd : ℕ) (path : List Byte) :
    Option (ℤ × EntryCache) :=
  match s.ename fat cwd path with
  | none => none
  | some (none, _) => none
  | some (some ep, s) =>
      let fs := edrop s.fs ep
      if (fs.ent ep).ref = 0 then (eremove fat fs ep).map fun fs => (0, { s with fs })
      else some (0, { s with fs })

/-- The directory and the name of the last step of `lookup_path`, if it makes one. -/
def lastStep (fat : Fat32) : ℕ → EntryCache → ℕ → List Byte → Option (ℕ × List Byte)
  | 0, _, _, _ => none
  | fuel + 1, s, entry, path =>
      match skipelem path with
      | none => none
      | some (name, path) =>
          if (skipelem path).isNone then some (entry, name)
          else
            match s.dirlookup fat entry name false with
            | some (some next, s) =>
                match s.eput fat entry with
                | some s => lastStep fat fuel s next path
                | none => none
            | _ => none

def pathStep (fat : Fat32) (s : EntryCache) (cwd : ℕ) (path : List Byte) :
    Option (ℕ × List Byte) :=
  let entry := if path.head? = some 0x2F then 0 else cwd
  lastStep fat (path.length + 1) (s.edup entry) entry path

/-- A lookup in `s'` of the name that a path ends with in `s`, in the directory where it is
looked for; of a path without names, of the path. -/
def lookupAgain (fat : Fat32) (s s' : EntryCache) (cwd : ℕ) (path : List Byte) :
    Option (Option ℕ) :=
  match pathStep fat s cwd path with
  | some (dp, name) => (s'.dirlookup fat dp name false).map Prod.fst
  | none => (s'.ename fat cwd path).map Prod.fst

/-- `a` is above `e`. -/
inductive Ancestor (fs : FileSystem) (e : ℕ) : ℕ → Prop
  | parent : e ≠ 0 → Ancestor fs e (fs.ent e).parent
  | up {a : ℕ} : Ancestor fs e a → a ≠ 0 → Ancestor fs e (fs.ent a).parent

/-- The holders of `e` give it up, one after the other. -/
def putAll (fat : Fat32) (e : ℕ) : ℕ → EntryCache → Option EntryCache
  | 0, s => some s
  | n + 1, s => (s.eput fat e).bind (putAll fat e n)

/-- What `sys_unlink` promises of the entry `ep` that it removed, from `s` over the state
`s₁` in which `ep` was found to `s'`. -/
structure Unlinked (fat : Fat32) (s s₁ s' : EntryCache) (cwd : ℕ) (path : List Byte) (ep : ℕ) :
    Prop where
  gone : lookupAgain fat s s' cwd path = some none
  others : ∀ cwd' path' e t, s.ename fat cwd' path' = some (some e, t) → e ≠ ep →
    ∃ e' t', s'.ename fat cwd' path' = some (some e', t')
  freed : ∀ n t, putAll fat ep n s' = some t → (t.fs.ent ep).ref = 0 →
    ∀ c ∈ LinkedClus fat s₁.fs.disk (s₁.fs.ent ep).firstClus, fatEntry fat t.fs.disk c = 0
  ancestors : (s'.fs.ent ep).ref = 0 → ∀ a, Ancestor s₁.fs ep a →
    (s'.fs.ent a).ref = (s.fs.ent a).ref

/-- What `sys_unlink` promises. -/
def UnlinkRight (fat : Fat32) (s : EntryCache) (cwd : ℕ) (path : List Byte) : Prop :=
  ∃ r s', s.sysUnlink fat cwd path = some (r, s') ∧
    (∀ t, s.ename fat cwd path = some (none, t) → r = -1 ∧ s' = s) ∧
    ∀ ep s₁, s.ename fat cwd path = some (some ep, s₁) → r = 0 →
      Unlinked fat s s₁ s' cwd path ep

/-! ## Children in use -/

/-- The parent of an entry in use. -/
def used (s : EntryCache) (c : ℕ) : Option ℕ :=
  if c ≠ 0 ∧ 0 < (s.fs.ent c).ref ∧ (s.fs.ent c).valid ≠ 0 then some (s.fs.ent c).parent else none

variable {fat : Fat32} {s t s' : EntryCache} {fs' : FileSystem} {handles : ℕ → ℕ} {e c dp x : ℕ}

theorem used_eq_some {p : ℕ} : s.used c = some p ↔
    c ≠ 0 ∧ 0 < (s.fs.ent c).ref ∧ (s.fs.ent c).valid ≠ 0 ∧ (s.fs.ent c).parent = p := by
  rw [used, Option.ite_none_right_eq_some, Option.some.injEq]
  exact ⟨fun h => ⟨h.1.1, h.1.2.1, h.1.2.2, h.2⟩, fun h => ⟨⟨h.1, h.2.1, h.2.2.1⟩, h.2.2.2⟩⟩

theorem used_congr (href : 0 < (t.fs.ent c).ref ↔ 0 < (s.fs.ent c).ref)
    (hvalid : (t.fs.ent c).valid = (s.fs.ent c).valid)
    (hparent : (t.fs.ent c).parent = (s.fs.ent c).parent) : t.used c = s.used c := by
  simp only [used, href, hvalid, hparent]

theorem used_of_fs (hfs : t.fs = s.fs) : t.used = s.used := by
  funext c
  simp only [used, hfs]

theorem used_edup (he : e = 0 ∨ 0 < (s.fs.ent e).ref) : (s.edup e).used = s.used := by
  funext c
  have hdup := stays_edup s.fs e
  rcases eq_or_ne c 0 with rfl | hc
  · rfl
  · apply used_congr _ (hdup.valid c) (hdup.parent c)
    by_cases hce : c = e
    · subst hce
      have := he.resolve_left hc
      simp only [edup, K210Os.edup, FileSystem.set_ent_self]
      omega
    · simp [edup, K210Os.edup, FileSystem.set, hce]

/-- A reference is given up that is not the last one. -/
theorem used_edrop (he : e = 0 ∨ (s.fs.ent e).ref ≠ 1) :
    ({ s with fs := edrop s.fs e } : EntryCache).used = s.used := by
  funext c
  have hdrop := stays_edrop s.fs e
  rcases eq_or_ne c 0 with rfl | hc
  · rfl
  · apply used_congr _ (hdrop.valid c) (hdrop.parent c)
    by_cases hce : c = e
    · subst hce
      have := he.resolve_left hc
      simp only [edrop, FileSystem.set_ent_self]
      omega
    · simp [edrop, FileSystem.set, hce]

/-- The last reference of an entry is given up. -/
theorem used_edrop_last (he : (s.fs.ent e).ref = 1) :
    ({ s with fs := edrop s.fs e } : EntryCache).used = Function.update s.used e none := by
  funext c
  have hdrop := stays_edrop s.fs e
  by_cases hce : c = e
  · subst hce
    rw [Function.update_self, used]
    simp [edrop, he]
  · rw [Function.update_of_ne hce]
    apply used_congr _ (hdrop.valid c) (hdrop.parent c)
    simp [edrop, FileSystem.set, hce]

theorem used_keeps {p : ℕ → Prop} (h : KeepsTree p s.fs fs') :
    ({ s with fs := fs' } : EntryCache).used = s.used :=
  funext fun c => used_congr (by rw [h.ref]) (h.valid c) (h.parent c)

/-- The children of an entry that are in use, as the counts see them. -/
theorem childrenInUse_eq (hroot : (0 : ℕ) ∉ s.fs.lru) (e : ℕ) :
    s.fs.childrenInUse e = s.fs.lru.countP fun c => decide (s.used c = some e) := by
  apply List.countP_congr
  intro c hc
  have hcz : c ≠ 0 := fun heq => hroot (heq ▸ hc)
  simp [used_eq_some, hcz]

theorem CacheOk.rooted (h : CacheOk s handles) : Rooted 0 s.used := by
  intro d q hd
  obtain ⟨hdz, href, hvalid, rfl⟩ := used_eq_some.mp hd
  refine or_iff_not_imp_left.mpr fun hq => ?_
  have hchild := tree_child_of_valid handles hdz hvalid
  have hpos := h.tree.ref_parent hchild href
  have hq' := ((h.tree.parent d _ _ hchild).2.resolve_left hq).1
  have hqvalid : (s.fs.ent (s.fs.ent d).parent).valid ≠ 0 := by
    rw [h.valid_of_child hq']
    exact one_ne_zero
  exact Option.ne_none_iff_exists'.mpr ⟨_, used_eq_some.mpr ⟨hq, hpos, hqvalid, rfl⟩⟩

theorem CacheOk.used_of_held (h : CacheOk s handles) (he : handles e ≠ 0) (hne : e ≠ 0) :
    s.used e = some (s.fs.ent e).parent := by
  apply used_eq_some.mpr ⟨hne, h.tree.ref_pos he, _, rfl⟩
  rw [h.held e he]
  exact one_ne_zero

/-! ## One step of a lookup -/

theorem eput_more {fs : FileSystem} (n : ℕ) (he : e = 0 ∨ (fs.ent e).ref ≠ 1) :
    K210Os.eput fat (n + 1) fs e = some (edrop fs e) := by
  rw [K210Os.eput, if_neg]
  rintro ⟨hroot, -, hone⟩
  exact he.elim hroot fun hne => hne hone

/-- Giving up a reference that is not the last one. -/
theorem eput_plain (he : e = 0 ∨ (s.fs.ent e).ref ≠ 1) :
    s.eput fat e = some { s with fs := edrop s.fs e } := by
  rw [eput, eputFuel, eput_more _ he]
  rfl

/-- Giving up the last reference of an entry whose parent has another holder. -/
theorem used_eput_last (hroot : e ≠ 0) (hvalid : (s.fs.ent e).valid = 1)
    (hone : (s.fs.ent e).ref = 1) (hne : (s.fs.ent e).parent ≠ e)
    (hparent : (s.fs.ent e).parent = 0 ∨ (s.fs.ent (s.fs.ent e).parent).ref ≠ 1)
    (hrun : s.eput fat e = some s') : s'.used = Function.update s.used e none := by
  obtain ⟨fs', hput, rfl⟩ := Option.map_eq_some_iff.mp hrun
  rw [eputFuel, K210Os.eput] at hput
  dsimp only at hput
  rw [if_pos ⟨hroot, by omega, hone⟩, if_neg (by omega)] at hput
  split at hput
  · cases hput
  obtain ⟨fs₂, hupdate, hput⟩ := Option.bind_eq_some_iff.mp hput
  have hkeep : KeepsTree (fun _ => True) { s.fs with lru := e :: s.fs.lru.erase e } fs₂ :=
    eupdate_keeps hupdate
  have hone₂ : (fs₂.ent e).ref = 1 := (hkeep.ref e).trans hone
  have hzero : ((edrop fs₂ e).ent e).ref = 0 := by simp [edrop, hone₂]
  have hparent₂ : (s.fs.ent e).parent = 0 ∨
      ((edrop fs₂ e).ent (s.fs.ent e).parent).ref ≠ 1 := by
    refine hparent.imp_right fun h => ?_
    rw [edrop, FileSystem.set_ent_of_ne _ _ hne, hkeep.ref]
    exact h
  rw [if_pos hzero, eput_more _ hparent₂, Option.some.injEq] at hput
  subst hput
  have hsame : ({ s with fs := fs₂ } : EntryCache).used = s.used :=
    used_keeps (s := { s with fs := { s.fs with lru := e :: s.fs.lru.erase e } }) hkeep
  have hlast := used_edrop_last (s := { s with fs := fs₂ }) hone₂
  rw [hsame] at hlast
  rw [← hlast]
  exact used_edrop (s := { s with fs := edrop fs₂ e }) hparent₂

def isDot (name : List Byte) : Prop :=
  strncmpEq (cstring name) (cstring [0x2E]) fat32MaxFilename 0 = true

def isDotDot (name : List Byte) : Prop :=
  strncmpEq (cstring name) (cstring [0x2E, 0x2E]) fat32MaxFilename 0 = true

/-- `e` is the child of `dp` under a name. -/
structure ChildOf (s : EntryCache) (dp : ℕ) (name : List Byte) (e : ℕ) : Prop where
  mem : e ∈ s.fs.lru
  valid : (s.fs.ent e).valid = 1
  parent : (s.fs.ent e).parent = dp
  name : nameKey (s.fs.ent e).filename = nameKey (cstring name)

/-- Only the entry `e` came into use, or was in use before. -/
theorem used_update {p : ℕ} (hself : t.used e = some p)
    (hother : ∀ c, c ≠ 0 → c ≠ e → (0 < (t.fs.ent c).ref ↔ 0 < (s.fs.ent c).ref) ∧
      (t.fs.ent c).valid = (s.fs.ent c).valid ∧ (t.fs.ent c).parent = (s.fs.ent c).parent) :
    t.used = Function.update s.used e (some p) := by
  funext c
  by_cases hce : c = e
  · subst hce
    rw [Function.update_self, hself]
  · rw [Function.update_of_ne hce]
    rcases eq_or_ne c 0 with rfl | hc
    · simp [used]
    · obtain ⟨href, hvalid, hparent⟩ := hother c hc hce
      exact used_congr href hvalid hparent

theorem CacheOk.ref_pos_of_held (h : CacheOk s handles) (hdp : dp = 0 ∨ handles dp ≠ 0)
    (hne : dp ≠ 0) : 0 < (s.fs.ent dp).ref :=
  h.tree.ref_pos (hdp.resolve_left hne)

/-- A hit of `eget`. -/
theorem CacheOk.used_hit {name : List Byte} (h : CacheOk s handles)
    (hdp : dp = 0 ∨ handles dp ≠ 0) (hcached : s.cached dp name = some c)
    (hget : eget s.fs dp name = some (e, t.fs)) :
    e = c ∧ t.fs.lru = s.fs.lru ∧ (s.used e = none ∨ s.used e = some dp) ∧
      t.used = Function.update s.used e (some dp) ∧ ChildOf t dp name e := by
  obtain ⟨hmem, hvalid, hchild⟩ := child_of_cached handles h.tree.rootFree hcached
  have hroot : c ≠ 0 := fun heq => h.tree.rootFree (heq ▸ hmem)
  rw [tree_child_of_valid handles hroot (by omega), Option.some.injEq, Prod.mk.injEq] at hchild
  obtain ⟨hparent, hname⟩ := hchild
  rw [eget, show s.fs.lru.find? (egetHit s.fs dp name) = some c from hcached] at hget
  simp only [Option.some.injEq, Prod.mk.injEq] at hget
  obtain ⟨rfl, hfs⟩ := hget
  have hnonneg : 0 ≤ (s.fs.ent c).ref := h.tree.ref_nonneg c
  by_cases hzero : (s.fs.ent c).ref = 0
  · rw [if_pos hzero, (stays_edup s.fs c).parent, hparent] at hfs
    have hstay := (stays_edup s.fs c).trans (stays_edup (K210Os.edup s.fs c) dp)
    have hne : dp ≠ c := by
      rintro rfl
      have := h.ref_pos_of_held hdp hroot
      omega
    have href : (t.fs.ent c).ref = 1 := by
      rw [← hfs, K210Os.edup, FileSystem.set_ent_of_ne _ _ hne.symm]
      simp [K210Os.edup, hzero]
    rw [hfs] at hstay
    refine ⟨rfl, by rw [← hfs]; rfl, .inl ?_, used_update ?_ ?_, ?_⟩
    · simp [used, hzero]
    · apply used_eq_some.mpr ⟨hroot, by omega, _, _⟩
      · rw [hstay.valid, hvalid]
        exact one_ne_zero
      · rw [hstay.parent, hparent]
    · intro d hd hdc
      refine ⟨?_, hstay.valid d, hstay.parent d⟩
      rw [← hfs]
      by_cases hddp : d = dp
      · subst hddp
        have := h.ref_pos_of_held hdp hd
        simp only [K210Os.edup, FileSystem.set_ent_self, FileSystem.set_ent_of_ne _ _ hne]
        omega
      · simp [K210Os.edup, FileSystem.set, hddp, hdc]
    · exact ⟨by rw [← hfs]; exact hmem, by rw [hstay.valid, hvalid], by rw [hstay.parent, hparent],
        by rw [hstay.filename c (by omega), hname]⟩
  · rw [if_neg hzero] at hfs
    have hstay := stays_edup s.fs c
    have hused : s.used c = some dp :=
      used_eq_some.mpr ⟨hroot, by omega, by omega, hparent⟩
    have hsame : t.used = s.used := by
      rw [← used_edup (s := s) (e := c) (.inr (by omega))]
      exact used_of_fs hfs.symm
    rw [hfs] at hstay
    refine ⟨rfl, by rw [← hfs]; rfl, .inr hused, ?_, ?_⟩
    · rw [hsame, ← hused, Function.update_eq_self]
    · exact ⟨by rw [← hfs]; exact hmem, by rw [hstay.valid, hvalid], by rw [hstay.parent, hparent],
        by rw [hstay.filename c (by omega), hname]⟩

/-- A slot was taken and became the child that was found. -/
theorem CacheOk.used_taken {name : List Byte} {fs₁ : FileSystem} (h : CacheOk s handles)
    (hdp : dp = 0 ∨ handles dp ≠ 0)
    (hfree : (s.fs.lru.reverse.find? fun i => (s.fs.ent i).ref == 0) = some e)
    (hkeep : KeepsTree (· ≠ e) (takeSlot s.fs e) fs₁)
    (hlinked : Linked dp e (nameKey (cstring name)) fs₁ t.fs) :
    t.fs.lru = s.fs.lru ∧ s.used e = none ∧
      t.used = Function.update s.used e (some dp) ∧ ChildOf t dp name e := by
  obtain ⟨xs, ys, hlru, hzero, -⟩ := free_slot hfree
  have hmem : e ∈ s.fs.lru := by simp [hlru]
  have hroot : e ≠ 0 := fun heq => h.tree.rootFree (heq ▸ hmem)
  have hne : e ≠ dp := by
    rintro rfl
    have := h.ref_pos_of_held hdp hroot
    omega
  have hlru' : t.fs.lru = s.fs.lru := hlinked.lru.trans hkeep.lru
  refine ⟨hlru', by simp [used, hzero], used_update ?_ ?_, ?_⟩
  · apply used_eq_some.mpr ⟨hroot, _, _, hlinked.parent⟩
    · rw [hlinked.ref, if_neg hne, hkeep.ref]
      simp [takeSlot]
    · rw [hlinked.valid, if_pos rfl]
      exact one_ne_zero
  · intro d hd hde
    have hent : (takeSlot s.fs e).ent d = s.fs.ent d := FileSystem.set_ent_of_ne _ _ hde
    refine ⟨?_, ?_, ?_⟩
    · rw [hlinked.ref, hkeep.ref, hent]
      by_cases hddp : d = dp
      · subst hddp
        have := h.ref_pos_of_held hdp hd
        rw [if_pos rfl]
        omega
      · rw [if_neg hddp]
    · rw [hlinked.valid, if_neg hde, hkeep.valid, hent]
    · rw [(hlinked.same d hde).1, hkeep.parent, hent]
  · exact ⟨by rwa [hlru'], by rw [hlinked.valid, if_pos rfl], hlinked.parent, hlinked.name⟩

/-- What a successful `dirlookup` does to the entries in use. -/
theorem CacheOk.dirlookup_found {name : List Byte} (h : CacheOk s handles)
    (hdp : dp = 0 ∨ handles dp ≠ 0)
    (hrun : s.dirlookup fat dp name false = some (some e, t)) :
    t.fs.lru = s.fs.lru ∧
      (isDot name ∧ e = dp ∧ t.fs = K210Os.edup s.fs dp ∨
        isDotDot name ∧ e = (if dp = 0 then 0 else (s.fs.ent dp).parent) ∧
          t.fs = K210Os.edup s.fs e ∨
        (s.used e = none ∨ s.used e = some dp) ∧ t.used = Function.update s.used e (some dp) ∧
          ChildOf t dp name e) := by
  have hvalid := h.valid_of_held hdp
  obtain ⟨⟨found', stored, fs'⟩, hlook, hend⟩ := Option.map_eq_some_iff.mp hrun
  simp only [Prod.mk.injEq] at hend
  obtain ⟨rfl, rfl⟩ := hend
  rw [K210Os.dirlookup] at hlook
  split at hlook
  · cases hlook
  split at hlook
  · rename_i hdot
    simp only [Option.some.injEq, Prod.mk.injEq] at hlook
    obtain ⟨rfl, -, rfl⟩ := hlook
    exact ⟨rfl, .inl ⟨hdot, rfl, rfl⟩⟩
  split at hlook
  · rename_i hdotdot
    simp only [Option.some.injEq, Prod.mk.injEq] at hlook
    obtain ⟨hup, -, rfl⟩ := hlook
    rw [hup]
    exact ⟨rfl, .inr (.inl ⟨hdotdot, rfl, rfl⟩)⟩
  rw [if_neg (not_not.mpr hvalid)] at hlook
  obtain ⟨⟨ep, fs₁⟩, hget, hlook⟩ := Option.bind_eq_some_iff.mp hlook
  dsimp only at hlook
  cases hcached : s.cached dp name with
  | some i =>
      obtain ⟨hmem, hivalid, -⟩ := child_of_cached handles h.tree.rootFree hcached
      obtain ⟨rfl, hlru, hused, hupdate, hchild⟩ :=
        h.used_hit (t := { s with fs := fs₁ }) hdp hcached hget
      rw [if_pos hchild.valid, Option.pure_def, Option.some.injEq, Prod.mk.injEq,
        Prod.mk.injEq] at hlook
      obtain ⟨heq, -, rfl⟩ := hlook
      obtain rfl := Option.some.inj heq
      exact ⟨hlru, .inr (.inr ⟨hused, hupdate, hchild.mem, hchild.valid, hchild.parent,
        hchild.name⟩)⟩
  | none =>
      obtain ⟨hfree, rfl⟩ := eget_missed hcached hget
      have htaken := h.take hfree
      rw [if_neg (by rw [htaken.free]; exact zero_ne_one)] at hlook
      obtain ⟨⟨off, fs₂⟩, hreloc, hlook⟩ := Option.bind_eq_some_iff.mp hlook
      obtain ⟨fs₃, hkeep, hor⟩ := dirlookupLoop_cases (htaken.ne_held hdp) hlook
      obtain ⟨hnone, -⟩ | ⟨heq, hlinked⟩ := hor
      · cases hnone
      obtain rfl := Option.some.inj heq
      obtain ⟨hlru, hused, hupdate, hchild⟩ := h.used_taken (t := { s with fs := fs' }) hdp hfree
        ((relocEnt_keeps hreloc).trans hkeep) hlinked
      exact ⟨hlru, .inr (.inr ⟨.inl hused, hupdate, hchild.mem, hchild.valid, hchild.parent,
        hchild.name⟩)⟩

theorem ChildOf.stays {name : List Byte} (h : ChildOf s dp name e) (hstay : Stays s.fs t.fs) :
    ChildOf t dp name e where
  mem := hstay.lru.mem_iff.mpr h.mem
  valid := (hstay.valid e).trans h.valid
  parent := (hstay.parent e).trans h.parent
  name := by rw [hstay.filename e (h.valid ▸ one_ne_zero), h.name]

/-- An entry that is used by a child beside its holder. -/
theorem CacheOk.ref_two (h : CacheOk s handles) (hheld : handles e ≠ 0) (hc : c ∈ s.fs.lru)
    (hused : s.used c = some e) : 2 ≤ (s.fs.ent e).ref := by
  have hpos : 0 < s.fs.childrenInUse e := by
    rw [childrenInUse_eq h.tree.rootFree]
    exact List.countP_pos_iff.mpr ⟨c, hc, decide_eq_true hused⟩
  have href := h.ref e
  omega

/-- What was in use before a lookup has another reference than that of the lookup. -/
theorem CacheOk.ref_two_of_used (hs : CacheOk s handles) (ht : CacheOk t (gain handles (some x)))
    (hlru : t.fs.lru.Perm s.fs.lru) (hsame : t.used = s.used) (hx : s.used x ≠ none) :
    2 ≤ (t.fs.ent x).ref := by
  have href := ht.ref x
  have hgain : gain handles (some x) x = handles x + 1 := by simp [gain]
  obtain ⟨p, hp⟩ := Option.ne_none_iff_exists'.mp hx
  have hpos := (used_eq_some.mp hp).2.1
  have hbefore := hs.ref x
  have hcount : t.fs.childrenInUse x = s.fs.childrenInUse x := by
    rw [childrenInUse_eq ht.tree.rootFree, childrenInUse_eq hs.tree.rootFree, hsame,
      hlru.countP_eq]
  omega

/-- The entry that a lookup just brought into use has no other reference. -/
theorem CacheOk.ref_one_of_pushed {B : ℕ → Option ℕ} {p : ℕ} (hs : CacheOk s handles)
    (ht : CacheOk t (gain handles (some x))) (hclimb : Climbed 0 s.used B p) (hfree : B x = none)
    (hroot : x ≠ 0) (hused : t.used = Function.update B x (some p)) : (t.fs.ent x).ref = 1 := by
  have hbefore : s.used x = none := by
    by_contra hne
    exact hne (hclimb.keeps hne ▸ hfree)
  have hheld : handles x = 0 := by
    by_contra hne
    rw [hs.used_of_held hne hroot] at hbefore
    cases hbefore
  have hcount : t.fs.childrenInUse x = 0 := by
    rw [childrenInUse_eq ht.tree.rootFree, List.countP_eq_zero]
    intro c hc hcx
    have hchild : s.used c = some x :=
      (hused ▸ hclimb.push hfree hroot).children hs.rooted (of_decide_eq_true hcx)
    exact absurd hbefore ((hs.rooted c x hchild).resolve_left hroot)
  have href := ht.ref x
  simp only [gain, Function.update_self, hheld, hcount] at href
  exact href

/-- The step of a lookup to the parent. -/
theorem CacheOk.climb_up {t₁ t₂ : EntryCache} (hs : CacheOk s handles)
    (ht : CacheOk t (gain handles (some x))) (hlru : t.fs.lru.Perm s.fs.lru)
    (hclimb : Climbed 0 s.used t.used x) (hroot : x ≠ 0)
    (hfs : t₁.fs = K210Os.edup t.fs (t.fs.ent x).parent) (hput : t₁.eput fat x = some t₂) :
    Climbed 0 s.used t₂.used (t.fs.ent x).parent := by
  have hheld : gain handles (some x) x ≠ 0 := by simp [gain]
  have hxused : t.used x = some (t.fs.ent x).parent := ht.used_of_held hheld hroot
  have hppos : (t.fs.ent x).parent = 0 ∨ 0 < (t.fs.ent (t.fs.ent x).parent).ref := by
    refine (ht.rooted x _ hxused).imp_right fun hp => ?_
    obtain ⟨q, hq⟩ := Option.ne_none_iff_exists'.mp hp
    exact (used_eq_some.mp hq).2.1
  have hsame : t₁.used = t.used := by
    rw [← used_edup (s := t) hppos]
    exact used_of_fs hfs
  generalize hU : t.used = U at hclimb hxused
  cases hclimb with
  | base hor =>
      have hin : s.used x ≠ none := hor.resolve_left hroot
      have htwo := hs.ref_two_of_used ht hlru hU hin
      have hne : (t₁.fs.ent x).ref ≠ 1 := by
        by_cases hxp : x = (t.fs.ent x).parent
        · rw [hfs, ← hxp, K210Os.edup, FileSystem.set_ent_self]
          dsimp only
          omega
        · rw [hfs, K210Os.edup, FileSystem.set_ent_of_ne _ _ hxp]
          omega
      rw [eput_plain (.inr hne), Option.some.injEq] at hput
      rw [← hput, used_edrop (.inr hne), hsame, hU]
      exact .base (hs.rooted x _ hxused)
  | @push B p _ hclimb hfree _ =>
      rw [Function.update_self, Option.some.injEq] at hxused
      have hone := hs.ref_one_of_pushed ht hclimb hfree hroot hU
      rw [← hxused] at hfs hppos ⊢
      have hne : p ≠ x := by
        rintro rfl
        exact absurd hfree (hclimb.current.resolve_left hroot)
      have hstay : Stays t.fs t₁.fs := hfs ▸ stays_edup t.fs p
      have hup : (t₁.fs.ent x).parent = p := (hstay.parent x).trans hxused.symm
      have hone₁ : (t₁.fs.ent x).ref = 1 := by
        rw [hfs, K210Os.edup, FileSystem.set_ent_of_ne _ _ hne.symm, hone]
      have htwo : p = 0 ∨ (t₁.fs.ent p).ref ≠ 1 := by
        refine hppos.imp_right fun hpos => ?_
        rw [hfs, K210Os.edup, FileSystem.set_ent_self]
        dsimp only
        omega
      have hvalid : (t₁.fs.ent x).valid = 1 := (hstay.valid x).trans (ht.held x hheld)
      rw [used_eput_last hroot hvalid hone₁ (hup ▸ hne) (hup ▸ htwo) hput, hsame, hU,
        Function.update_idem, Function.update_eq_self_iff.mpr hfree.symm]
      exact hclimb

/-- One step of a lookup from the current directory `x` to what it found there. -/
theorem CacheOk.climb {name : List Byte} {t₁ t₂ : EntryCache} (hs : CacheOk s handles)
    (ht : CacheOk t (gain handles (some x))) (hlru : t.fs.lru.Perm s.fs.lru)
    (hclimb : Climbed 0 s.used t.used x)
    (hlook : t.dirlookup fat x name false = some (some e, t₁)) (hput : t₁.eput fat x = some t₂) :
    CacheOk t₂ (gain handles (some e)) ∧ t₂.fs.lru.Perm s.fs.lru ∧ Climbed 0 s.used t₂.used e ∧
      (isDot name ∨ isDotDot name ∨ ChildOf t₂ x name e) := by
  have hheld : gain handles (some x) x ≠ 0 := by simp [gain]
  have ht₁ := (ht.dirlookup (.inr hheld) hlook).1
  have ht₂ := ht₁.eput (gain_ne_zero hheld _) hput
  rw [lose_gain_gain] at ht₂
  have hstay : Stays t₁.fs t₂.fs := by
    obtain ⟨fs', hrun, rfl⟩ := Option.map_eq_some_iff.mp hput
    exact (eput_ok ht₁.tree ht₁.flags (gain_ne_zero hheld _) hrun).2
  have hplain : x = 0 ∨ 2 ≤ (t₁.fs.ent x).ref → t₂.used = t₁.used := fun hor => by
    have hne : x = 0 ∨ (t₁.fs.ent x).ref ≠ 1 := hor.imp_right fun h => by omega
    rw [eput_plain hne, Option.some.injEq] at hput
    rw [← hput]
    exact used_edrop hne
  have hxpos : x ≠ 0 → 0 < (t.fs.ent x).ref := fun _ => ht.tree.ref_pos hheld
  obtain ⟨hlru₁, hor⟩ := ht.dirlookup_found (.inr hheld) hlook
  refine ⟨ht₂, hstay.lru.trans (hlru₁ ▸ hlru), ?_⟩
  rcases hor with ⟨hdot, rfl, hfs⟩ | ⟨hdotdot, he, hfs⟩ | ⟨hused, hupdate, hchild⟩
  · have hsame : t₁.used = t.used := by
      rw [← used_edup (s := t) (e := e) (or_iff_not_imp_left.mpr hxpos)]
      exact used_of_fs hfs
    rw [hplain, hsame]
    · exact ⟨hclimb, .inl hdot⟩
    · refine or_iff_not_imp_left.mpr fun hne => ?_
      have := hxpos hne
      rw [hfs, K210Os.edup, FileSystem.set_ent_self]
      dsimp only
      omega
  · refine ⟨?_, .inr (.inl hdotdot)⟩
    by_cases hroot : x = 0
    · rw [if_pos hroot] at he
      subst hroot he
      rw [hplain (.inl rfl), used_of_fs (s := t.edup 0) hfs, used_edup (.inl rfl)]
      exact hclimb
    · rw [if_neg hroot] at he
      subst he
      exact hs.climb_up ht hlru hclimb hroot hfs hput
  · have hroot : e ≠ 0 := fun heq => ht₁.tree.rootFree (heq ▸ hchild.mem)
    have hself : t₁.used e = some x := by rw [hupdate, Function.update_self]
    rw [hplain (.inr (ht₁.ref_two (gain_ne_zero hheld _) hchild.mem hself)), hupdate]
    refine ⟨?_, .inr (.inr (hchild.stays hstay))⟩
    rcases hused with hfree | hin
    · exact hclimb.push hfree hroot
    · rw [← hin, Function.update_eq_self]
      exact hclimb.child hs.rooted hin

/-! ## A whole lookup -/

theorem skipelem_none_of_slash {path : List Byte} (h : skipelem path = none)
    (hpath : path.isEmpty = false) : path.head? = some 0x2F := by
  cases path with
  | nil => cases hpath
  | cons c path =>
      have hslashes : c = 0x2F ∧ ∀ d ∈ path, d = 0x2F := by simpa [skipelem] using h
      rw [List.head?_cons, hslashes.1]

/-- The loop of `lookup_path` finds what its last step finds. -/
theorem CacheOk.lookupLoop_climb {fuel : ℕ} {path name name' : List Byte} (hs : CacheOk s handles)
    (ht : CacheOk t (gain handles (some x))) (hlru : t.fs.lru.Perm s.fs.lru)
    (hclimb : Climbed 0 s.used t.used x)
    (hrun : EntryCache.lookupLoop fat false fuel t x path name = some (some e, name', s')) :
    CacheOk s' (gain handles (some e)) ∧ s'.fs.lru.Perm s.fs.lru ∧ Climbed 0 s.used s'.used e ∧
      (skipelem path ≠ none → ∃ dp elem, lastStep fat fuel t x path = some (dp, elem) ∧
        (isDot elem ∨ isDotDot elem ∨ ChildOf s' dp elem e)) := by
  induction fuel generalizing t x path name with
  | zero => cases hrun
  | succ fuel ih =>
      rw [EntryCache.lookupLoop] at hrun
      cases hskip : skipelem path with
      | none =>
          rw [hskip] at hrun
          simp only [Bool.false_eq_true, if_false, Option.some.injEq, Prod.mk.injEq] at hrun
          obtain ⟨rfl, -, rfl⟩ := hrun
          exact ⟨ht, hlru, hclimb, fun hne => absurd rfl hne⟩
      | some elem =>
          obtain ⟨elem, rest⟩ := elem
          rw [hskip] at hrun
          dsimp only at hrun
          split at hrun
          · cases hrun
          split at hrun
          · obtain ⟨s₁, -, heq⟩ := Option.map_eq_some_iff.mp hrun
            cases heq
          rw [Bool.false_and, if_neg Bool.false_ne_true] at hrun
          obtain ⟨⟨found, t₁⟩, hlook, hrun⟩ := Option.bind_eq_some_iff.mp hrun
          obtain ⟨t₂, hput, hrun⟩ := Option.bind_eq_some_iff.mp hrun
          cases found with
          | none => cases hrun
          | some next =>
              dsimp only at hrun
              obtain ⟨ht₂, hlru₂, hclimb₂, hfound⟩ := hs.climb ht hlru hclimb hlook hput
              obtain ⟨hend, hlruEnd, hclimbEnd, hstep⟩ := ih ht₂ hlru₂ hclimb₂ hrun
              refine ⟨hend, hlruEnd, hclimbEnd, fun _ => ?_⟩
              rw [lastStep, hskip]
              dsimp only
              cases hrest : skipelem rest with
              | none =>
                  refine ⟨x, elem, rfl, ?_⟩
                  cases fuel with
                  | zero => cases hrun
                  | succ fuel =>
                      rw [EntryCache.lookupLoop, hrest] at hrun
                      simp only [Bool.false_eq_true, if_false, Option.some.injEq,
                        Prod.mk.injEq] at hrun
                      obtain ⟨rfl, -, rfl⟩ := hrun
                      exact hfound
              | some _ =>
                  rw [hlook]
                  dsimp only
                  rw [hput]
                  exact hstep (hrest ▸ Option.some_ne_none _)

/-- What `ename` found, and which entries came into use on the way. -/
theorem CacheOk.ename_climb {cwd : ℕ} {path : List Byte} (hs : CacheOk s handles)
    (hcwd : (cwd = 0 ∨ handles cwd ≠ 0) ∨ path.head? = some 0x2F)
    (hrun : s.ename fat cwd path = some (some e, s')) :
    CacheOk s' (gain handles (some e)) ∧ s'.fs.lru.Perm s.fs.lru ∧ Climbed 0 s.used s'.used e ∧
      (skipelem path ≠ none → ∃ dp elem, pathStep fat s cwd path = some (dp, elem) ∧
        (isDot elem ∨ isDotDot elem ∨ ChildOf s' dp elem e)) := by
  obtain ⟨⟨found, name, s₁⟩, hpath, heq⟩ := Option.map_eq_some_iff.mp hrun
  obtain ⟨rfl, rfl⟩ := Prod.mk.inj heq
  rw [EntryCache.lookupPath] at hpath
  split at hpath
  · cases hpath
  have hentry : (if path.head? = some 0x2F then 0 else cwd) = 0 ∨
      handles (if path.head? = some 0x2F then 0 else cwd) ≠ 0 := by
    split
    · exact .inl rfl
    · rename_i hhead
      exact hcwd.resolve_right hhead
  rw [pathStep]
  generalize (if path.head? = some 0x2F then 0 else cwd) = entry at hpath hentry
  have hused : (s.edup entry).used = s.used :=
    used_edup (hentry.imp_right fun hheld => hs.tree.ref_pos hheld)
  have hclimb : Climbed 0 s.used (s.edup entry).used entry := by
    rw [hused]
    refine .base (or_iff_not_imp_left.mpr fun hroot => ?_)
    rw [hs.used_of_held (hentry.resolve_left hroot) hroot]
    exact Option.some_ne_none _
  exact hs.lookupLoop_climb (hs.edup_held hentry) (.refl _) hclimb hpath

/-- A path without names is found in every state. -/
theorem ename_of_skipelem {cwd : ℕ} {path : List Byte} (hskip : skipelem path = none)
    (hpath : path.isEmpty = false) (s : EntryCache) :
    s.ename fat cwd path = some (some 0, s.edup 0) := by
  rw [EntryCache.ename, EntryCache.lookupPath, if_neg (by simp [hpath]),
    if_pos (skipelem_none_of_slash hskip hpath), EntryCache.lookupLoop, hskip]
  rfl

/-! ## What goes wrong -/

theorem eremoveLoop_keeps {p : ℕ → Prop} {fs fs' : FileSystem} {dp n off off2 : ℕ}
    (h : eremoveLoop fat dp n fs off off2 = some fs') : KeepsTree p fs fs' := by
  induction n generalizing fs off off2 with
  | zero => exact Option.some.inj h ▸ KeepsTree.refl p fs
  | succ n ih =>
      obtain ⟨⟨_, d⟩, -, h⟩ := Option.bind_eq_some_iff.mp h
      obtain ⟨⟨off', fs₁⟩, hreloc, h⟩ := Option.bind_eq_some_iff.mp h
      exact (((KeepsTree.refl p fs).disk d).trans (relocEnt_keeps hreloc)).trans (ih h)

/-- `eremove` changes no count. -/
theorem eremove_ref {fs fs' : FileSystem} (h : eremove fat fs e = some fs') (i : ℕ) :
    (fs'.ent i).ref = (fs.ent i).ref := by
  rw [eremove] at h
  dsimp only at h
  split at h
  · rw [Option.some.inj h]
  · obtain ⟨⟨off2, fs₁⟩, hreloc, h⟩ := Option.bind_eq_some_iff.mp h
    obtain ⟨⟨_, order⟩, -, h⟩ := Option.bind_eq_some_iff.mp h
    obtain ⟨fs₂, hloop, h⟩ := Option.bind_eq_some_iff.mp h
    have hkeep : KeepsTree (fun _ => True) fs fs₂ :=
      (relocEnt_keeps hreloc).trans (eremoveLoop_keeps hloop)
    rw [← hkeep.ref i, ← Option.some.inj h]
    by_cases hie : i = e <;> simp [FileSystem.set, hie]

/-- What `.` and `..` name is always found. -/
theorem dirlookup_of_dots {name : List Byte} (hname : isDot name ∨ isDotDot name) :
    (s.dirlookup fat dp name false).map Prod.fst ≠ some none := by
  intro hnone
  obtain ⟨⟨found, t⟩, hrun, rfl⟩ := Option.map_eq_some_iff.mp hnone
  obtain ⟨⟨found, stored, fs'⟩, hlook, heq⟩ := Option.map_eq_some_iff.mp hrun
  obtain ⟨rfl, -⟩ := Prod.mk.inj heq
  rw [K210Os.dirlookup] at hlook
  split at hlook
  · cases hlook
  split at hlook
  · cases hlook
  rename_i hdot
  split at hlook
  · cases hlook
  · rename_i hdotdot
    exact absurd hname (not_or.mpr ⟨hdot, hdotdot⟩)

/-- A child is found again in its directory. -/
theorem dirlookup_of_child {name : List Byte} (hdp : (s.fs.ent dp).valid = 1)
    (hchild : ChildOf s dp name e) : (s.dirlookup fat dp name false).map Prod.fst ≠ some none := by
  have hhit : egetHit s.fs dp name e = true := by
    rw [egetHit, hchild.valid, hchild.parent, strncmpEq_iff_nameKey.mpr hchild.name]
    simp
  obtain ⟨i, hcached⟩ :=
    Option.isSome_iff_exists.mp (List.find?_isSome.mpr ⟨e, hchild.mem, hhit⟩)
  have hivalid : (s.fs.ent i).valid = 1 := by
    have := List.find?_some hcached
    simp only [egetHit, Bool.and_eq_true, beq_iff_eq] at this
    exact this.1.1
  intro hnone
  obtain ⟨⟨found, t⟩, hrun, rfl⟩ := Option.map_eq_some_iff.mp hnone
  obtain ⟨⟨found, stored, fs'⟩, hlook, heq⟩ := Option.map_eq_some_iff.mp hrun
  obtain ⟨rfl, -⟩ := Prod.mk.inj heq
  rw [K210Os.dirlookup] at hlook
  split at hlook
  · cases hlook
  split at hlook
  · cases hlook
  split at hlook
  · cases hlook
  rw [if_neg (not_not.mpr hdp)] at hlook
  obtain ⟨⟨ep, fs₁⟩, hget, hlook⟩ := Option.bind_eq_some_iff.mp hlook
  rw [eget, hcached] at hget
  simp only [Option.some.injEq, Prod.mk.injEq] at hget
  obtain ⟨rfl, hfs₁⟩ := hget
  have hvalid₁ : (fs₁.ent i).valid = 1 := by
    rw [← hfs₁]
    split
    · rw [((stays_edup s.fs i).trans (stays_edup _ _)).valid, hivalid]
    · rw [(stays_edup s.fs i).valid, hivalid]
  dsimp only at hlook
  rw [if_pos hvalid₁] at hlook
  cases hlook

/-- Another entry, or another reference of this one, was there before the call: what the
path names is found again. -/
theorem lookupAgain_of_kept {cwd : ℕ} {path : List Byte} {s₁ : EntryCache}
    (h : CacheOk s₁ handles) (hstay : e ≠ 0 → Stays s₁.fs s'.fs) (hpath : path.isEmpty = false)
    (hstep : skipelem path ≠ none → ∃ dp elem, pathStep fat s cwd path = some (dp, elem) ∧
      (isDot elem ∨ isDotDot elem ∨ ChildOf s₁ dp elem e)) :
    lookupAgain fat s s' cwd path ≠ some none := by
  rw [lookupAgain]
  cases hskip : skipelem path with
  | none =>
      have hnone : pathStep fat s cwd path = none := by
        rw [pathStep, lastStep, hskip]
      rw [hnone]
      dsimp only
      rw [ename_of_skipelem hskip hpath]
      simp
  | some elem =>
      obtain ⟨dp, name, hlast, hor⟩ := hstep (hskip ▸ Option.some_ne_none elem)
      rw [hlast]
      rcases hor with hdot | hdotdot | hchild
      · exact dirlookup_of_dots (.inl hdot)
      · exact dirlookup_of_dots (.inr hdotdot)
      · have hroot : e ≠ 0 := fun heq => h.tree.rootFree (heq ▸ hchild.mem)
        refine dirlookup_of_child ?_ (hchild.stays (hstay hroot))
        have htree := tree_child_of_valid handles hroot (hchild.valid ▸ one_ne_zero)
        rw [(hstay hroot).valid, ← hchild.parent]
        rcases (h.tree.parent e _ _ htree).2 with hzero | ⟨hparent, -⟩
        · rw [hzero, h.root]
        · exact h.valid_of_child hparent

/-- The count of the directory of an entry that came into use last. -/
theorem CacheOk.ref_parent_of_pushed {B : ℕ → Option ℕ} {p : ℕ} {s₁ : EntryCache}
    (hs : CacheOk s handles) (h₁ : CacheOk s₁ (gain handles (some e)))
    (hlru : s₁.fs.lru.Perm s.fs.lru) (hclimb : Climbed 0 s.used B p) (hfree : B e = none)
    (hroot : e ≠ 0) (hmem : e ∈ s.fs.lru) (hused : s₁.used = Function.update B e (some p)) :
    (s₁.fs.ent p).ref = (s.fs.ent p).ref + 1 := by
  have hne : p ≠ e := by
    rintro rfl
    exact absurd hfree (hclimb.current.resolve_left hroot)
  have hbefore : s.used e = none := by
    by_contra hin
    exact hin (hclimb.keeps hin ▸ hfree)
  have hcount : s₁.fs.childrenInUse p = s.fs.childrenInUse p + 1 := by
    rw [childrenInUse_eq h₁.tree.rootFree, childrenInUse_eq hs.tree.rootFree, hlru.countP_eq,
      (List.perm_cons_erase hmem).countP_eq, (List.perm_cons_erase hmem).countP_eq,
      List.countP_cons, List.countP_cons, hused, Function.update_self, hbefore]
    simp only [decide_true, if_true, reduceCtorEq, decide_false, if_false, add_zero,
      Bool.false_eq_true]
    congr 1
    apply List.countP_congr
    intro c hc
    have hce : c ≠ e := (hs.tree.nodup.mem_erase_iff.mp hc).1
    rw [Function.update_of_ne hce, decide_eq_true_iff, decide_eq_true_iff]
    refine ⟨hclimb.children hs.rooted, fun hin => ?_⟩
    rw [hclimb.keeps (hin ▸ Option.some_ne_none p), hin]
  have href := hs.ref p
  have href₁ := h₁.ref p
  simp only [gain, Function.update_of_ne hne] at href₁
  omega

/-- `sys_unlink` does what it promises for no path, with the current directory held by its
task. -/
theorem CacheOk.not_unlinkRight {cwd : ℕ} {path : List Byte} (hs : CacheOk s handles)
    (hcwd : (cwd = 0 ∨ handles cwd ≠ 0) ∨ path.head? = some 0x2F) :
    ¬ UnlinkRight fat s cwd path := by
  rintro ⟨r, s', hrun, -, hright⟩
  rw [sysUnlink] at hrun
  split at hrun
  · cases hrun
  · cases hrun
  rename_i ep s₁ hname
  obtain ⟨h₁, hlru, hclimb, hstep⟩ := hs.ename_climb hcwd hname
  have hpath : path.isEmpty = false := by
    by_contra hempty
    rw [Bool.not_eq_false] at hempty
    simp [EntryCache.ename, EntryCache.lookupPath, hempty] at hname
  have hr : r = 0 := by
    dsimp only at hrun
    split at hrun
    · obtain ⟨fs', -, heq⟩ := Option.map_eq_some_iff.mp hrun
      exact (Prod.mk.inj heq).1.symm
    · exact (Prod.mk.inj (Option.some.inj hrun)).1.symm
  have hunlinked := hright ep s₁ hname hr
  have hdrop : ((edrop s₁.fs ep).ent ep).ref = (s₁.fs.ent ep).ref - 1 := by simp [edrop]
  dsimp only at hrun
  generalize hU : s₁.used = U at hclimb
  cases hclimb with
  | base hor =>
      refine lookupAgain_of_kept h₁ (fun hroot => ?_) hpath hstep hunlinked.gone
      have htwo := hs.ref_two_of_used h₁ hlru hU (hor.resolve_left hroot)
      rw [if_neg (by rw [hdrop]; omega), Option.some.injEq] at hrun
      obtain rfl := (Prod.mk.inj hrun).2
      exact stays_edrop s₁.fs ep
  | @push B p _ hclimb hfree hroot =>
      have hone := hs.ref_one_of_pushed h₁ hclimb hfree hroot hU
      rw [if_pos (by rw [hdrop]; omega)] at hrun
      obtain ⟨fs', hremove, heq⟩ := Option.map_eq_some_iff.mp hrun
      obtain rfl := (Prod.mk.inj heq).2
      obtain ⟨-, -, hvalid, hparent⟩ : ep ≠ 0 ∧ _ ∧ (s₁.fs.ent ep).valid ≠ 0 ∧ _ :=
        used_eq_some.mp (by rw [hU, Function.update_self])
      have hmem : ep ∈ s.fs.lru := by
        apply hlru.mem_iff.mp (h₁.tree.mem_of_child _)
        rw [tree_child_of_valid _ hroot hvalid]
        exact Option.some_ne_none _
      have hne : p ≠ ep := by
        rintro rfl
        exact absurd hfree (hclimb.current.resolve_left hroot)
      have hzero : (fs'.ent ep).ref = 0 := by
        rw [eremove_ref hremove, hdrop, hone]
        rfl
      have hkept := hunlinked.ancestors hzero p (hparent ▸ .parent hroot)
      have hmore := hs.ref_parent_of_pushed h₁ hlru hclimb hfree hroot hmem hU
      have hsame : (fs'.ent p).ref = (s₁.fs.ent p).ref := by
        rw [eremove_ref hremove, edrop, FileSystem.set_ent_of_ne _ _ hne]
      dsimp only at hkept
      omega

end EntryCache

namespace EntryRun

open Transition

variable {fat : Fat32} {s : EntryRun} {disk : Disk} {rootClus : ℕ} {ent : ℕ → Dirent}

/-- In no state of a run, and for no path, does `sys_unlink` do what it promises. -/
theorem sysUnlink_of_run {ls : List (EntryOp × Option ℕ)}
    (hrun : Run (EntryStep fat) (start disk rootClus ent) ls s) (cwd : ℕ) (path : List Byte)
    (hcwd : s.Held cwd ∨ path.head? = some 0x2F) :
    ¬ EntryCache.UnlinkRight fat s.cache cwd path :=
  (cacheOk_of_run hrun).not_unlinkRight (hcwd.imp_left held_iff.mp)

/-- A file is created and closed; it can be removed, and its directory keeps a reference. -/
theorem sysUnlink_create_eput :
    ∃ s, Run (EntryStep emptyFat) emptyRun
        [(.create 0 [0x2F, 0x61] tFile 0, some 1), (.eput 1, none)] s ∧
      (s.cache.sysUnlink emptyFat 0 [0x2F, 0x61]).map
          (fun r => (r.1, (s.cache.fs.ent 0).ref, (r.2.fs.ent 0).ref)) = some (0, 0, 1) ∧
      ¬ EntryCache.UnlinkRight emptyFat s.cache 0 [0x2F, 0x61] := by
  obtain ⟨s₀, s, hs₀, hrun, hg⟩ := exists_run_of_execute (checkedStep emptyFat) (some emptyRun)
    [(.create 0 [0x2F, 0x61] tFile 0, some 1), (.eput 1, none)]
    (fun s => (s.cache.sysUnlink emptyFat 0 [0x2F, 0x61]).map
      fun r => (r.1, (s.cache.fs.ent 0).ref, (r.2.fs.ent 0).ref))
    (some (0, 0, 1)) (by decide +kernel)
  obtain rfl := Option.some.inj hs₀
  have hrun := hrun.mono fun _ _ _ => entryStep_of_checkedStep
  exact ⟨s, hrun, hg, sysUnlink_of_run hrun 0 [0x2F, 0x61] (.inr rfl)⟩

/-- A path to nothing. -/
theorem sysUnlink_unresolved :
    (emptyRun.cache.ename emptyFat 0 [0x2F, 0x62]).map Prod.fst = some none ∧
      ¬ EntryCache.UnlinkRight emptyFat emptyRun.cache 0 [0x2F, 0x62] := by
  refine ⟨by decide +kernel, ?_⟩
  rintro ⟨r, s', hrun, -⟩
  have hnone : (emptyRun.cache.sysUnlink emptyFat 0 [0x2F, 0x62]).isNone = true := by
    decide +kernel
  rw [hrun] at hnone
  cases hnone

end EntryRun

end K210Os
