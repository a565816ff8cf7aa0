import K210Os.EntryNesting
import K210Os.UserCopy
import Mathlib.Data.List.DropRight

/-!
# `sys_getcwd` and the way back through `ename`

The path is built from its end, one entry on the way up to the root after the other. `ename` of it
comes down through the entry cache: every entry on the way is cached, since the task holds the last
one.
-/

namespace K210Os

open Transition EntryCache

def fat32MaxPath : ℕ := 260
def slash : Byte := 0x2F

/-- The bytes that `strlen` counts. -/
def Dirent.name (entry : Dirent) : List Byte :=
  (List.range (strlen entry.filename)).map entry.filename

/-- Bytes written from `s` on into `path`, `none` where one of them lies outside. -/
def putPath (path : ℕ → Byte) (s : ℤ) (bytes : List Byte) : Option (ℕ → Byte) :=
  if 0 ≤ s ∧ s.toNat + bytes.length ≤ fat32MaxPath then
    some (copyBytes path s.toNat (cstring bytes) bytes.length)
  else none

/-- The loop of `sys_getcwd` from the entry `de` on, with `s` as its distance from `path`; `root`
alone has no parent. The inner `none` is the return of -1. -/
def getcwdLoop (fs : FileSystem) :
    ℕ → ℕ → ℤ → (ℕ → Byte) → Option (Option (ℤ × (ℕ → Byte)))
  | 0, _, _, _ => none
  | fuel + 1, de, s, path =>
      if de = 0 then some (some (s, path))
      else
        let len := strlen (fs.ent de).filename
        let s := s - len
        if s ≤ 0 then some none
        else do
          let path ← putPath path s (strncpy (fs.ent de).filename len 0)
          let s := s - 1
          let path ← putPath path s [slash]
          getcwdLoop fs fuel (fs.ent de).parent s path

/-- The string at `s`, up to its zero byte. -/
def stringAt (path : ℕ → Byte) (s : ℤ) : List Byte :=
  ((List.range' s.toNat (fat32MaxPath - s.toNat)).map path).takeWhile (· != 0)

/-- The string that `sys_getcwd` copies out. `path` holds what is on the stack. -/
def getcwd (fs : FileSystem) (fuel cwd : ℕ) (path : ℕ → Byte) : Option (Option (List Byte)) :=
  if cwd = 0 then some (some [slash])
  else do
    let s : ℤ := fat32MaxPath - 1
    let path ← putPath path s [0]
    let r ← getcwdLoop fs fuel cwd s path
    return r.map fun (s, path) => stringAt path s

/-- The value returned, `none` where `copyout2` stops the system, and the memory. -/
def sysGetcwd (fs : FileSystem) (fuel cwd : ℕ) (path : ℕ → Byte) (task : Mytask) (mem : Memory)
    (addr : ℕ) : Option (Option ℤ × Memory) :=
  (getcwd fs fuel cwd path).map fun
    | none => (some (-1), mem)
    | some string =>
        let (r, mem) := copyout2 task mem addr (cstring string) (string.length + 1)
        (r.map fun r => if r < 0 then 0 else 1, mem)

/-- The names from the root down to an entry. -/
inductive PathTo (fs : FileSystem) : ℕ → List (List Byte) → Prop
  | root : PathTo fs 0 []
  | child {e : ℕ} {names : List (List Byte)} :
      e ≠ 0 → (fs.ent e).name ≠ [] → slash ∉ (fs.ent e).name → PathTo fs (fs.ent e).parent names →
      PathTo fs e (names ++ [(fs.ent e).name])

/-- Every name with a slash before it. -/
def slashed (names : List (List Byte)) : List Byte := names.flatMap fun name => slash :: name

def pathString (names : List (List Byte)) : List Byte :=
  if names = [] then [slash] else slashed names

def pathLength (names : List (List Byte)) : ℕ := (names.map fun name => name.length + 1).sum

/-! ## Names -/

theorem strlen_spec (p : ℕ → Byte) :
    strlen p ≤ 256 ∧ (∀ j < strlen p, p j ≠ 0) ∧ (strlen p < 256 → p (strlen p) = 0) := by
  rw [strlen]
  cases hfind : (List.range (fat32MaxFilename + 1)).find? (p · == 0) with
  | none =>
      have hall := List.find?_eq_none.mp hfind
      refine ⟨le_refl 256, fun j hj hzero => ?_, fun h => absurd h (lt_irrefl 256)⟩
      exact hall j (List.mem_range.mpr hj) (beq_iff_eq.mpr hzero)
  | some n =>
      obtain ⟨hzero, hmem, hbefore⟩ := List.find?_range_eq_some.mp hfind
      have hlt : n < 256 := List.mem_range.mp hmem
      rw [Option.getD_some]
      refine ⟨hlt.le, fun j hj => ?_, fun _ => beq_iff_eq.mp hzero⟩
      have hne := hbefore j hj
      rw [Bool.not_eq_true', beq_eq_false_iff_ne] at hne
      exact hne

theorem length_name (entry : Dirent) : entry.name.length = strlen entry.filename := by
  rw [Dirent.name, List.length_map, List.length_range]

theorem ne_zero_of_mem_name {entry : Dirent} {c : Byte} (hc : c ∈ entry.name) : c ≠ 0 := by
  obtain ⟨j, hj, rfl⟩ := List.mem_map.mp hc
  exact (strlen_spec entry.filename).2.1 j (List.mem_range.mp hj)

/-- The bytes up to the first zero byte, of at most `n`. -/
theorem keyFrom_eq {p : ℕ → Byte} {m n i : ℕ} (hne : ∀ j < m, p (i + j) ≠ 0)
    (hend : m < n → p (i + m) = 0) : keyFrom p n i = ((List.range' i m).take n).map p := by
  induction n generalizing i m with
  | zero => rw [keyFrom, List.take_zero, List.map_nil]
  | succ n ih =>
      rw [keyFrom]
      cases m with
      | zero =>
          rw [if_pos (show p i = 0 from hend (Nat.succ_pos n))]
          rfl
      | succ m =>
          rw [if_neg (show p i ≠ 0 from hne 0 (Nat.succ_pos m)), List.range'_succ,
            List.take_succ_cons, List.map_cons, ih (fun j hj => ?_) fun h => ?_]
          · rw [Nat.add_assoc, Nat.add_comm 1]
            exact hne (j + 1) (Nat.succ_lt_succ hj)
          · rw [Nat.add_assoc, Nat.add_comm 1]
            exact hend (Nat.succ_lt_succ h)

theorem nameKey_filename (entry : Dirent) :
    nameKey entry.filename = entry.name.take fat32MaxFilename := by
  obtain ⟨-, hne, hend⟩ := strlen_spec entry.filename
  rw [nameKey, keyFrom_eq (m := strlen entry.filename) (fun j hj => ?_) fun h => ?_, Dirent.name,
    List.range_eq_range', List.map_take]
  · rw [Nat.zero_add]
    exact hne j hj
  · rw [Nat.zero_add]
    exact hend (h.trans (by decide))

theorem nameKey_cstring {name : List Byte} (hne : ∀ c ∈ name, c ≠ 0) :
    nameKey (cstring name) = name.take fat32MaxFilename := by
  rw [nameKey, keyFrom_eq (m := name.length) (fun j hj => ?_) fun _ => ?_, List.map_take]
  · congr 1
    refine List.ext_getElem (by simp) fun j hj hj' => ?_
    simp [cstring, List.getD_eq_getElem?_getD, hj']
  · have hget : cstring name (0 + j) = name[j] := by simp [cstring, hj]
    rw [hget]
    exact hne _ (List.getElem_mem hj)
  · simp [cstring]

/-- The whole string is copied. -/
theorem strncpy_filename {p : ℕ → Byte} {n i : ℕ} (hne : ∀ j < n, p (i + j) ≠ 0) :
    strncpy p n i = (List.range' i n).map p := by
  induction n generalizing i with
  | zero => rfl
  | succ n ih =>
      rw [strncpy, if_neg (show p i ≠ 0 from hne 0 (Nat.succ_pos n)), List.range'_succ,
        List.map_cons, ih fun j hj => ?_]
      rw [Nat.add_assoc, Nat.add_comm 1]
      exact hne (j + 1) (Nat.succ_lt_succ hj)

theorem strncpy_name (entry : Dirent) :
    strncpy entry.filename (strlen entry.filename) 0 = entry.name := by
  rw [strncpy_filename fun j hj => ?_, Dirent.name, List.range_eq_range']
  rw [Nat.zero_add]
  exact (strlen_spec entry.filename).2.1 j hj

theorem pathLength_append (names : List (List Byte)) (name : List Byte) :
    pathLength (names ++ [name]) = pathLength names + (name.length + 1) := by
  rw [pathLength, List.map_append, List.sum_append]
  rfl

theorem slashed_append (names : List (List Byte)) (name : List Byte) :
    slashed (names ++ [name]) = slashed names ++ slash :: name := by
  rw [slashed, List.flatMap_append]
  simp [slashed]

/-! ## The loop -/

variable {fs : FileSystem} {e cwd fuel : ℕ} {names : List (List Byte)}

/-- Bytes put in front of others. -/
theorem map_copyBytes_front (path : ℕ → Byte) (a m : ℕ) (bytes : List Byte) :
    (List.range' a (bytes.length + m)).map (copyBytes path a (cstring bytes) bytes.length) =
      bytes ++ (List.range' (a + bytes.length) m).map path := by
  rw [← List.range'_append_1, List.map_append]
  congr 1
  · refine List.ext_getElem (by simp) fun j hj hj' => ?_
    rw [List.getElem_map, List.getElem_range', copyBytes_inside (by omega) (by omega)]
    simp [cstring, hj']
  · refine List.map_congr_left fun j hj => copyBytes_outside (Or.inr ?_)
    exact (List.mem_range'_1.mp hj).1

theorem putPath_nat {path : ℕ → Byte} {a : ℕ} {bytes : List Byte}
    (h : a + bytes.length ≤ fat32MaxPath) :
    putPath path a bytes = some (copyBytes path a (cstring bytes) bytes.length) := by
  rw [putPath, Int.toNat_natCast, if_pos ⟨Int.natCast_nonneg a, h⟩]

/-- The loop with the string `below` at `k`: it gives up if the names do not fit in front of it, and
puts them there else. -/
theorem getcwdLoop_of_pathTo (h : PathTo fs e names) (k : ℕ) (path : ℕ → Byte) (below : List Byte)
    (hfuel : names.length < fuel) (hend : k + below.length + 1 = fat32MaxPath)
    (hbelow : (List.range' k below.length).map path = below) (hzero : path (fat32MaxPath - 1) = 0) :
    (k < pathLength names → getcwdLoop fs fuel e k path = some none) ∧
      (pathLength names ≤ k → ∃ path',
        getcwdLoop fs fuel e k path = some (some (((k - pathLength names : ℕ) : ℤ), path')) ∧
        (List.range' (k - pathLength names) (pathLength names + below.length)).map path' =
          slashed names ++ below ∧ path' (fat32MaxPath - 1) = 0) := by
  induction h generalizing fuel k path below with
  | root =>
      obtain ⟨fuel, rfl⟩ : ∃ n, fuel = n + 1 := ⟨fuel - 1, by omega⟩
      refine ⟨fun hlt => absurd hlt (Nat.not_lt_zero k), fun _ => ⟨path, ?_, ?_, hzero⟩⟩
      · rw [getcwdLoop, if_pos rfl]
        rfl
      · rw [show pathLength [] = 0 from rfl, Nat.sub_zero, Nat.zero_add, hbelow]
        rfl
  | @child e names he hne hslash hpath ih =>
      obtain ⟨fuel, rfl⟩ : ∃ n, fuel = n + 1 := ⟨fuel - 1, by omega⟩
      rw [List.length_append, List.length_singleton] at hfuel
      rw [pathLength_append, slashed_append]
      obtain ⟨name, hname⟩ : ∃ name, name = (fs.ent e).name := ⟨_, rfl⟩
      rw [getcwdLoop, if_neg he]
      dsimp only
      rw [strncpy_name, ← length_name, ← hname]
      by_cases hfits : (k : ℤ) - name.length ≤ 0
      · rw [if_pos hfits]
        exact ⟨fun _ => rfl, fun hle => absurd hle (by omega)⟩
      · rw [if_neg hfits]
        have hs : (k : ℤ) - name.length = ((k - name.length : ℕ) : ℤ) := by omega
        have hs' : ((k - name.length : ℕ) : ℤ) - 1 = ((k - name.length - 1 : ℕ) : ℤ) := by omega
        rw [hs, putPath_nat (by omega), Option.bind_eq_bind, Option.bind_some, hs',
          putPath_nat (by rw [List.length_singleton]; omega), Option.bind_some]
        obtain ⟨path₁, hpath₁⟩ : ∃ path₁, path₁ =
          copyBytes path (k - name.length) (cstring name) name.length := ⟨_, rfl⟩
        obtain ⟨path₂, hpath₂⟩ : ∃ path₂, path₂ = copyBytes path₁ (k - name.length - 1)
          (cstring [slash]) [slash].length := ⟨_, rfl⟩
        rw [← hpath₁, ← hpath₂]
        have hfirst : (List.range' (k - name.length) (name.length + below.length)).map path₁ =
            name ++ below := by
          rw [hpath₁, map_copyBytes_front, Nat.sub_add_cancel (by omega), hbelow]
        have hsecond : (List.range' (k - name.length - 1)
            (slash :: name ++ below).length).map path₂ = slash :: name ++ below := by
          have hlength : (slash :: name ++ below).length =
              [slash].length + (name.length + below.length) := by
            simp
            omega
          rw [hlength, hpath₂, map_copyBytes_front, List.length_singleton,
            Nat.sub_add_cancel (show 1 ≤ k - name.length by omega), hfirst]
          rfl
        have hlast : path₂ (fat32MaxPath - 1) = 0 := by
          rw [hpath₂, copyBytes_outside (Or.inr (by rw [List.length_singleton]; omega)), hpath₁,
            copyBytes_outside (Or.inr (by omega)), hzero]
        have hend' : k - name.length - 1 + (slash :: name ++ below).length + 1 = fat32MaxPath := by
          simp only [List.cons_append, List.length_cons, List.length_append]
          omega
        obtain ⟨hstops, hends⟩ := ih _ path₂ _ (Nat.lt_of_succ_lt_succ hfuel) hend' hsecond hlast
        refine ⟨fun hlt => hstops (by omega), fun hle => ?_⟩
        obtain ⟨path', hloop, hstring, hzero'⟩ := hends (by omega)
        have hstart : k - name.length - 1 - pathLength names =
            k - (pathLength names + (name.length + 1)) := by omega
        rw [hstart] at hloop hstring
        have hlength : pathLength names + (slash :: name ++ below).length =
            pathLength names + (name.length + 1) + below.length := by
          simp only [List.cons_append, List.length_cons, List.length_append]
          omega
        rw [hlength] at hstring
        rw [List.append_assoc]
        exact ⟨path', hloop, hstring, hzero'⟩

theorem ne_zero_of_mem_slashed (h : PathTo fs e names) {c : Byte} (hc : c ∈ slashed names) :
    c ≠ 0 := by
  induction h with
  | root => exact absurd hc List.not_mem_nil
  | child he hne hslash hpath ih =>
      rw [slashed_append] at hc
      rcases List.mem_append.mp hc with hc | hc
      · exact ih hc
      · rcases List.mem_cons.mp hc with rfl | hc
        · decide
        · exact ne_zero_of_mem_name hc

theorem length_slashed (names : List (List Byte)) : (slashed names).length = pathLength names := by
  rw [slashed, List.length_flatMap, pathLength]
  rfl

theorem PathTo.length_le (h : PathTo fs e names) :
    names.length ≤ pathLength names := by
  induction h with
  | root => exact Nat.zero_le _
  | child hez hne hslash hpath ih =>
      rw [List.length_append, pathLength_append, List.length_singleton]
      omega

/-- The string ends at the zero byte at the end of `path`. -/
theorem stringAt_eq {path : ℕ → Byte} (hfits : ¬ fat32MaxPath - 1 < pathLength names)
    (hstring : (List.range' (fat32MaxPath - 1 - pathLength names) (pathLength names)).map path =
      slashed names)
    (hlast : path (fat32MaxPath - 1) = 0) (h : PathTo fs e names) :
    stringAt path ((fat32MaxPath - 1 - pathLength names : ℕ) : ℤ) = slashed names := by
  have hall : ∀ c ∈ slashed names, (c != 0) = true := fun c hc =>
    bne_iff_ne.mpr (ne_zero_of_mem_slashed h hc)
  rw [stringAt, Int.toNat_natCast, show fat32MaxPath - (fat32MaxPath - 1 - pathLength names) =
    pathLength names + 1 by have : fat32MaxPath = 260 := rfl; omega, ← List.range'_append_1,
    List.map_append, hstring, List.takeWhile_append_of_pos hall]
  have hend : fat32MaxPath - 1 - pathLength names + pathLength names = fat32MaxPath - 1 :=
    Nat.sub_add_cancel (not_lt.mp hfits)
  rw [hend, List.range'_one, List.map_singleton, hlast]
  simp

/-- The string, if it fits. -/
theorem getcwd_of_pathTo (h : PathTo fs e names) (hfuel : names.length < fuel) (path : ℕ → Byte) :
    getcwd fs fuel e path =
      if fat32MaxPath - 1 < pathLength names then some none
      else some (some (pathString names)) := by
  rw [getcwd]
  by_cases he : e = 0
  · subst he
    cases h with
    | root => rw [if_pos rfl]; rfl
    | child he => exact absurd rfl he
  · have hnames : names ≠ [] := by
      cases h with
      | root => exact absurd rfl he
      | child => exact List.append_ne_nil_of_right_ne_nil _ (List.cons_ne_nil _ _)
    have hput : putPath path (((fat32MaxPath - 1 : ℕ) : ℤ)) [0] =
        some (copyBytes path (fat32MaxPath - 1) (cstring [0]) [(0 : Byte)].length) :=
      putPath_nat (by decide)
    have hzero : copyBytes path (fat32MaxPath - 1) (cstring [0]) [(0 : Byte)].length
        (fat32MaxPath - 1) = 0 := by
      rw [copyBytes_inside (le_refl _) (by decide), Nat.sub_self]
      rfl
    obtain ⟨hstops, hends⟩ :=
      getcwdLoop_of_pathTo h (fat32MaxPath - 1) _ [] hfuel (by decide) rfl hzero
    rw [if_neg he]
    dsimp only
    rw [show ((fat32MaxPath : ℤ) - 1) = ((fat32MaxPath - 1 : ℕ) : ℤ) from rfl, hput]
    by_cases hlong : fat32MaxPath - 1 < pathLength names
    · rw [if_pos hlong, Option.bind_eq_bind, Option.bind_some, hstops hlong]
      rfl
    · obtain ⟨path', hloop, hstring, hlast⟩ := hends (not_lt.mp hlong)
      rw [List.length_nil, Nat.add_zero, List.append_nil] at hstring
      rw [if_neg hlong, Option.bind_eq_bind, Option.bind_some, hloop, pathString, if_neg hnames]
      exact congrArg (fun string => some (some string)) (stringAt_eq hlong hstring hlast h)

/-! ## The way down -/

section Skipping

variable {name rest : List Byte}

/-- What follows a name: nothing, or a slash. -/
def Follows (rest : List Byte) : Prop := rest = [] ∨ ∃ tail, rest = slash :: tail

theorem skipelem_slash (hne : name ≠ []) (hslash : slash ∉ name) (hrest : Follows rest) :
    skipelem (slash :: name ++ rest) =
      some (name.take fat32MaxFilename, rest.dropWhile (· == slash)) := by
  have hall : ∀ c ∈ name, (c != slash) = true := fun c hc =>
    bne_iff_ne.mpr fun heq => hslash (heq ▸ hc)
  have hfront : (slash :: name ++ rest).dropWhile (· == slash) = name ++ rest := by
    rw [List.cons_append, List.dropWhile_cons_of_pos (p := (· == slash)) (by simp)]
    obtain ⟨c, tail, rfl⟩ := List.exists_cons_of_ne_nil hne
    have hc := hall c List.mem_cons_self
    rw [bne, Bool.not_eq_true'] at hc
    rw [List.cons_append, List.dropWhile_cons_of_neg (by rw [hc]; exact Bool.false_ne_true)]
  have htake : (name ++ rest).takeWhile (· != slash) = name := by
    rw [List.takeWhile_append_of_pos hall]
    rcases hrest with rfl | ⟨tail, rfl⟩
    · exact List.append_nil name
    · rw [List.takeWhile_cons_of_neg (by simp), List.append_nil]
  have hdrop : (name ++ rest).dropWhile (· != slash) = rest := by
    rw [List.dropWhile_append_of_pos hall]
    rcases hrest with rfl | ⟨tail, rfl⟩
    · rfl
    · rw [List.dropWhile_cons_of_neg (by simp)]
  have hsome : (name ++ rest).isEmpty = false := by
    obtain ⟨c, tail, rfl⟩ := List.exists_cons_of_ne_nil hne
    rfl
  rw [skipelem]
  change (if (List.dropWhile (· == slash) (slash :: name ++ rest)).isEmpty then none else
    some ((List.takeWhile (· != slash)
        (List.dropWhile (· == slash) (slash :: name ++ rest))).take _,
      (List.dropWhile (· != slash) (List.dropWhile (· == slash) (slash :: name ++ rest))).dropWhile
        (· == slash))) = _
  rw [hfront, hsome, htake, hdrop]
  rfl

theorem skipelem_dropWhile (rest : List Byte) :
    skipelem (rest.dropWhile (· == slash)) = skipelem rest := by
  rw [skipelem, skipelem]
  change (if (List.dropWhile (· == slash) (List.dropWhile (· == slash) rest)).isEmpty then _ else
    some (((List.dropWhile (· == slash) (List.dropWhile (· == slash) rest)).takeWhile _).take _,
      (((List.dropWhile (· == slash)
        (List.dropWhile (· == slash) rest)).dropWhile _)).dropWhile _)) =
    _
  rw [List.dropWhile_idempotent]
  rfl

/-- Only what `skipelem` finds matters. -/
theorem lookupLoop_congr {fat : Fat32} {s : EntryCache} {path path' : List Byte}
    (h : skipelem path = skipelem path') :
    EntryCache.lookupLoop fat false fuel s e path name =
      EntryCache.lookupLoop fat false fuel s e path' name := by
  cases fuel with
  | zero => rfl
  | succ fuel => rw [EntryCache.lookupLoop, EntryCache.lookupLoop, h]

end Skipping

namespace EntryCache

variable {s : EntryCache} {handles : ℕ → ℕ} {dp : ℕ} {fat : Fat32} {name : List Byte}

/-- The child that is cached under a name is the one. -/
theorem CacheOk.cached_eq (h : CacheOk s handles)
    (hchild : (s.tree handles).child e = some (dp, nameKey (cstring name))) :
    s.cached dp name = some e := by
  cases hcached : s.cached dp name with
  | none => exact absurd hchild (fresh_of_not_cached h hcached e)
  | some i =>
      obtain ⟨-, -, hi⟩ := child_of_cached handles h.tree.rootFree hcached
      rw [h.tree.unique i e (hi.trans hchild.symm) (by rw [hi]; exact Option.some_ne_none _)]

/-- A lookup of a cached child returns it. -/
theorem CacheOk.dirlookup_child (fat : Fat32) (h : CacheOk s handles)
    (hdp : dp = 0 ∨ handles dp ≠ 0)
    (hchild : (s.tree handles).child e = some (dp, nameKey (cstring name)))
    (hdir : (s.fs.ent dp).isDirectory = true) (hplain : Plain (nameKey (cstring name))) :
    ∃ s', s.dirlookup fat dp name false = some (some e, s') ∧ OnlyRefs s.fs s'.fs := by
  have hvalid := h.valid_of_held hdp
  have hcached := h.cached_eq hchild
  have hdots : strncmpEq (cstring name) (cstring [0x2E]) fat32MaxFilename 0 = false ∧
      strncmpEq (cstring name) (cstring [0x2E, 0x2E]) fat32MaxFilename 0 = false := by
    rw [← Bool.not_eq_true, ← Bool.not_eq_true, strncmpEq_iff_nameKey, strncmpEq_iff_nameKey]
    exact hplain
  obtain ⟨fs', hget⟩ : ∃ fs', eget s.fs dp name = some (e, fs') := by
    rw [eget, show s.fs.lru.find? (egetHit s.fs dp name) = some e from hcached]
    exact ⟨_, rfl⟩
  obtain ⟨-, hrefs⟩ := eget_onlyRefs hcached hget
  have hhit : (fs'.ent e).valid = 1 := by
    obtain ⟨ref, rfl⟩ := hrefs
    exact h.valid_of_child (by rw [hchild]; exact Option.some_ne_none _)
  have hrun : K210Os.dirlookup fat s.fs dp name false = some (some e, none, fs') := by
    rw [K210Os.dirlookup, hdir, hdots.1, hdots.2, if_neg (by decide), if_neg (by decide),
      if_neg (by decide), if_neg (not_not.mpr hvalid), hget]
    exact if_pos hhit
  exact ⟨_, by rw [EntryCache.dirlookup, hrun]; rfl, hrefs⟩

/-- The directory of an entry in use has another holder. -/
theorem CacheOk.eput_parent (fat : Fat32) (h : CacheOk s handles) (hdp : handles dp ≠ 0)
    (hchild : ((s.tree handles).child e).map Prod.fst = some dp) (he : handles e ≠ 0) :
    ∃ s', s.eput fat dp = some s' ∧ OnlyRefs s.fs s'.fs := by
  have hsome : (s.tree handles).child e ≠ none := fun hnone => by
    rw [hnone] at hchild
    cases hchild
  have hmore : (s.fs.ent dp).ref ≠ 1 := by
    have hcount : (s.fs.ent dp).ref = handles dp + (s.tree handles).inUse dp := h.tree.count dp
    have hpos : 0 < (s.tree handles).inUse dp :=
      List.countP_pos_iff.mpr ⟨e, h.tree.mem_of_child hsome,
        decide_eq_true ⟨h.tree.ref_pos he, hchild⟩⟩
    omega
  refine ⟨{ s with fs := edrop s.fs dp }, ?_, onlyRefs_set _ _ _⟩
  rw [EntryCache.eput, eputFuel, K210Os.eput]
  dsimp only
  rw [if_neg fun hlast => hmore hlast.2.2]
  rfl

theorem child_of_onlyRefs {s' : EntryCache} (h : OnlyRefs s.fs s'.fs) (handles handles' : ℕ → ℕ)
    (i : ℕ) : (s'.tree handles').child i = (s.tree handles).child i := by
  obtain ⟨ref, hfs⟩ := h
  simp only [EntryCache.tree, hfs]

/-- One name further down. -/
theorem CacheOk.lookup_step (fat : Fat32) {s₁ : EntryCache} {rest : List Byte}
    (h : CacheOk s₁ handles) (fuel : ℕ) (name : List Byte) (hdp : handles dp ≠ 0)
    (hdir : (s₁.fs.ent dp).isDirectory = true)
    (hchild : (s₁.tree handles).child e = some (dp, nameKey (s₁.fs.ent e).filename))
    (hplain : Plain (nameKey (s₁.fs.ent e).filename)) (hne : (s₁.fs.ent e).name ≠ [])
    (hslash : slash ∉ (s₁.fs.ent e).name) (hrest : Follows rest) :
    ∃ s₂ name', EntryCache.lookupLoop fat false (fuel + 1) s₁ dp
        (slash :: (s₁.fs.ent e).name ++ rest) name =
          EntryCache.lookupLoop fat false fuel s₂ e rest name' ∧
      CacheOk s₂ (lose (gain handles (some e)) dp) ∧ OnlyRefs s₁.fs s₂.fs := by
  obtain ⟨asked, hasked⟩ : ∃ asked, asked = (s₁.fs.ent e).name.take fat32MaxFilename := ⟨_, rfl⟩
  have hkey : nameKey (cstring asked) = nameKey (s₁.fs.ent e).filename := by
    rw [nameKey_cstring fun c hc => ?_, nameKey_filename, hasked, List.take_take, Nat.min_self]
    rw [hasked] at hc
    exact ne_zero_of_mem_name (List.mem_of_mem_take hc)
  rw [← hkey] at hchild hplain
  obtain ⟨s₂, hlook, hrefs₂⟩ := h.dirlookup_child fat (Or.inr hdp) hchild hdir hplain
  have hok₂ := (h.dirlookup (Or.inr hdp) hlook).1
  have hchild₂ : ((s₂.tree (gain handles (some e))).child e).map Prod.fst = some dp := by
    rw [child_of_onlyRefs hrefs₂ handles, hchild]
    rfl
  have hheld : gain handles (some e) e ≠ 0 := by
    rw [gain, Function.update_self]
    exact Nat.succ_ne_zero _
  obtain ⟨s₃, hput, hrefs₃⟩ :=
    hok₂.eput_parent fat (gain_ne_zero hdp (some e)) hchild₂ hheld
  refine ⟨s₃, asked, ?_, hok₂.eput (gain_ne_zero hdp (some e)) hput, hrefs₂.trans hrefs₃⟩
  have href : ¬ (s₁.fs.ent dp).ref < 1 := by
    have hpos : 0 < (s₁.fs.ent dp).ref := h.tree.ref_pos hdp
    omega
  rw [EntryCache.lookupLoop, skipelem_slash hne hslash hrest, ← hasked]
  dsimp only
  rw [if_neg href, hdir, if_neg (by decide), if_neg (by rw [Bool.false_and]; decide), hlook]
  rw [Option.bind_eq_bind, Option.bind_some]
  dsimp only
  rw [hput, Option.bind_eq_bind, Option.bind_some]
  exact lookupLoop_congr (skipelem_dropWhile rest)

/-- The way from the root down to an entry. -/
theorem CacheOk.lookup_down (fat : Fat32) (h : CacheOk s handles) (hnest : Nested s.fs)
    {names : List (List Byte)} (hpath : PathTo s.fs e names)
    (he : e = 0 ∨ (s.tree handles).child e ≠ none) (fuel : ℕ) {rest : List Byte}
    (hrest : Follows rest) (name : List Byte) :
    ∃ s₁ name', EntryCache.lookupLoop fat false (fuel + names.length) (s.edup 0) 0
        (slashed names ++ rest) name = EntryCache.lookupLoop fat false fuel s₁ e rest name' ∧
      CacheOk s₁ (gain handles (some e)) ∧ OnlyRefs s.fs s₁.fs := by
  induction hpath generalizing fuel rest with
  | root => exact ⟨s.edup 0, name, rfl, h.edup_held (Or.inl rfl), onlyRefs_set _ _ _⟩
  | @child e names hez hne hslash hpath ih =>
      have hsome := he.resolve_left hez
      have hvalid : (s.fs.ent e).valid ≠ 0 :=
        fun hzero => hsome (tree_child_of_invalid handles hzero)
      have hchild := tree_child_of_valid handles hez hvalid
      have hup := (h.tree.parent e _ _ hchild).2.imp_right And.left
      obtain ⟨hdir, hplain⟩ := hnest e hez hvalid
      have hfollows : Follows (slash :: (s.fs.ent e).name ++ rest) := Or.inr ⟨_, rfl⟩
      obtain ⟨s₁, name₁, hloop, hok₁, hrefs₁⟩ := ih hup (fuel + 1) hfollows
      have hfile : (s₁.fs.ent e).filename = (s.fs.ent e).filename ∧
          (s₁.fs.ent (s.fs.ent e).parent).isDirectory = true := by
        obtain ⟨ref, hfs⟩ := hrefs₁
        rw [hfs]
        exact ⟨rfl, hdir⟩
      have hname : (s₁.fs.ent e).name = (s.fs.ent e).name := by
        rw [Dirent.name, Dirent.name, hfile.1]
      have hheld : gain handles (some (s.fs.ent e).parent) (s.fs.ent e).parent ≠ 0 := by
        rw [gain, Function.update_self]
        exact Nat.succ_ne_zero _
      have hchild₁ : (s₁.tree (gain handles (some (s.fs.ent e).parent))).child e =
          some ((s.fs.ent e).parent, nameKey (s₁.fs.ent e).filename) := by
        rw [child_of_onlyRefs hrefs₁ handles, hfile.1]
        exact hchild
      have hplain₁ : Plain (nameKey (s₁.fs.ent e).filename) := by
        rw [hfile.1]
        exact hplain
      obtain ⟨s₂, name₂, hstep, hok₂, hrefs₂⟩ := hok₁.lookup_step fat fuel name₁
        hheld hfile.2 hchild₁ hplain₁ (by rw [hname]; exact hne)
        (by rw [hname]; exact hslash) hrest
      rw [lose_gain_gain] at hok₂
      rw [hname] at hstep
      refine ⟨s₂, name₂, ?_, hok₂, hrefs₁.trans hrefs₂⟩
      rw [slashed_append, List.append_assoc, List.length_append, List.length_singleton,
        Nat.add_comm names.length, ← Nat.add_assoc]
      exact hloop.trans hstep

/-- `ename` of the string comes down to the entry. -/
theorem CacheOk.ename_pathString (fat : Fat32) (h : CacheOk s handles) (hnest : Nested s.fs)
    {names : List (List Byte)} (hpath : PathTo s.fs e names)
    (he : e = 0 ∨ (s.tree handles).child e ≠ none) (cwd : ℕ) :
    ∃ s', s.ename fat cwd (pathString names) = some (some e, s') := by
  by_cases hnames : names = []
  · subst hnames
    have hroot : e = 0 := by
      generalize hnil : ([] : List (List Byte)) = names at hpath
      cases hpath with
      | root => rfl
      | child =>
          exact absurd hnil.symm (List.append_ne_nil_of_right_ne_nil _ (List.cons_ne_nil _ _))
    subst hroot
    exact ⟨s.edup 0, rfl⟩
  · have hle := hpath.length_le
    rw [← length_slashed] at hle
    obtain ⟨fuel, hfuel⟩ : ∃ fuel, (slashed names).length + 1 = fuel + 1 + names.length :=
      ⟨(slashed names).length - names.length, by omega⟩
    obtain ⟨s₁, name₁, hloop, -, -⟩ := h.lookup_down fat hnest hpath he (fuel + 1)
      (Or.inl rfl) []
    have hhead : (slashed names).head? = some slash := by
      obtain ⟨name, names, rfl⟩ := List.exists_cons_of_ne_nil hnames
      rfl
    have hempty : (slashed names).isEmpty = false := by
      rw [List.isEmpty_eq_false_iff_exists_mem]
      exact ⟨slash, List.mem_of_mem_head? hhead⟩
    rw [List.append_nil] at hloop
    refine ⟨s₁, ?_⟩
    rw [EntryCache.ename, EntryCache.lookupPath, pathString, if_neg hnames, hempty,
      if_neg (by decide)]
    dsimp only
    rw [if_pos (show (slashed names).head? = some 0x2F from hhead), hfuel, hloop]
    rfl

end EntryCache

/-! ## Round trip -/

section RoundTrip

variable {fs : FileSystem} {cwd : ℕ} {names : List (List Byte)}

/-- -1 where the names do not fit, and the string is copied out else. -/
theorem sysGetcwd_of_pathTo (h : PathTo fs cwd names) {fuel : ℕ} (hfuel : names.length < fuel)
    (path : ℕ → Byte) (task : Mytask) (mem : Memory) (addr : ℕ) :
    sysGetcwd fs fuel cwd path task mem addr =
      if fat32MaxPath - 1 < pathLength names then some (some (-1), mem)
      else
        let r := copyout2 task mem addr (cstring (pathString names)) ((pathString names).length + 1)
        some (r.1.map fun r => if r < 0 then 0 else 1, r.2) := by
  rw [sysGetcwd, getcwd_of_pathTo h hfuel]
  split <;> rfl

end RoundTrip

namespace EntryRun

/-- In every run of the calls on the entry cache, a held directory whose names up to the root are
`names` is told as their string, if that fits, and `ename` of the string returns it. -/
theorem getcwd_ename {fat : Fat32} {disk : Disk} {rootClus : ℕ} {ent : ℕ → Dirent} {s : EntryRun}
    {ls : List (EntryOp × Option ℕ)} {cwd : ℕ} {names : List (List Byte)}
    (hrun : Run (EntryStep fat) (start disk rootClus ent) ls s) (hcwd : s.Held cwd)
    (hpath : PathTo s.cache.fs cwd names) :
    (∀ fuel path, names.length < fuel → getcwd s.cache.fs fuel cwd path =
        if 259 < pathLength names then some none else some (some (pathString names))) ∧
      (∀ fuel path task mem addr, names.length < fuel →
        sysGetcwd s.cache.fs fuel cwd path task mem addr =
          if 259 < pathLength names then some (some (-1), mem)
          else
            let r := copyout2 task mem addr (cstring (pathString names))
              ((pathString names).length + 1)
            some (r.1.map fun r => if r < 0 then 0 else 1, r.2)) ∧
      ∀ cur, ∃ cache, s.cache.ename fat cur (pathString names) = some (some cwd, cache) := by
  have hok := cacheOk_of_run hrun
  have hin : cwd = 0 ∨ (s.cache.tree s.handles).child cwd ≠ none := by
    by_cases hroot : cwd = 0
    · exact Or.inl hroot
    · have hvalid := hok.held cwd (held_iff.mp hcwd |>.resolve_left hroot)
      rw [tree_child_of_valid _ hroot (by omega)]
      exact Or.inr (Option.some_ne_none _)
  exact ⟨fun fuel path hfuel => getcwd_of_pathTo hpath hfuel path,
    fun fuel path task mem addr hfuel => sysGetcwd_of_pathTo hpath hfuel path task mem addr,
    hok.ename_pathString fat (nested_of_run hrun) hpath hin⟩

/-- A directory is created in the root. -/
theorem getcwd_ename_created : ∃ s : EntryRun,
    getcwd s.cache.fs 2 1 (fun _ => 0) = some (some [0x2F, 0x61]) ∧
      ∀ cur, ∃ cache, s.cache.ename emptyFat cur [0x2F, 0x61] = some (some 1, cache) := by
  obtain ⟨s₀, s, hs₀, hrun, hg⟩ := exists_run_of_execute (checkedStep emptyFat) (some emptyRun)
    [(.create 0 [0x2F, 0x61] tDir 0, some 1)]
    (fun s => (s.handles 1, (s.cache.fs.ent 1).name, (s.cache.fs.ent 1).parent)) (1, [0x61], 0)
    (by decide +kernel)
  obtain rfl := Option.some.inj hs₀
  obtain ⟨hheld, hname, hparent⟩ := by simpa only [Prod.mk.injEq] using hg
  have hpath : PathTo s.cache.fs 1 [[0x61]] := by
    have hroot : PathTo s.cache.fs (s.cache.fs.ent 1).parent [] := hparent ▸ .root
    have hchild := PathTo.child one_ne_zero (by rw [hname]; decide) (by rw [hname]; decide) hroot
    rwa [hname] at hchild
  obtain ⟨hstring, -, hename⟩ := getcwd_ename
    (hrun.mono fun _ _ _ => entryStep_of_checkedStep) (Or.inr hheld.ge) hpath
  exact ⟨s, hstring 2 (fun _ => 0) (by decide), hename⟩

end EntryRun

end K210Os
