import K210Os.PathElements
import Mathlib.Data.List.DropRight

/-!
# Short names, in memory

`generate_shortname` with its pointers. The first loop follows the stem of the name up to the last
dot and then the extension behind it; when the stem is too long it sets its pointer behind the
dot itself. The lengths that it hands to `memset` are kept, to show that none is negative.
-/

namespace K210Os.ShortNames

open MachineInt PathMemory

/-! ## The function -/

/-- The length of a string; the loop of the source looks at whole words. -/
def strlen (fuel : ℕ) (mem : Memory) (s : ℕ) : Option ℕ :=
  (PathMemory.scanLoop (· != 0) mem fuel s).map fun a => a - s

/-- The loop that looks for the last dot, `j` counted from 1; without one the name's start. -/
def dotLoop (mem : Memory) (name : ℕ) : ℕ → ℕ
  | 0 => name
  | j + 1 => if mem (name + j) = 0x2E then name + j else dotLoop mem name j

/-- The first loop, with the lengths of its calls of `memset`; the pointer `p` is null once the
last dot was passed. -/
def shortLoop (shortname : ℕ) :
    ℕ → Memory → ℕ → ℕ → ℕ → List ℤ → Option (ℕ × Memory × List ℤ)
  | 0, _, _, _, _, _ => none
  | fuel + 1, mem, name, i, p, lens =>
      let c := mem name
      if i < charShortName ∧ c ≠ 0 then
        let name := name + 1
        if i = 8 ∧ p ≠ 0 then
          if p + 1 < name then some (i, mem, lens)
          else shortLoop shortname fuel mem (p + 1) i 0 lens
        else if c = 0x20 then shortLoop shortname fuel mem name i p lens
        else if c = 0x2E then
          if name > p then
            let len : ℤ := 8 - i
            let mem := memset mem (shortname + i) 0x20 (toUint64 len)
            shortLoop shortname fuel mem name 8 0 (lens ++ [len])
          else shortLoop shortname fuel mem name i p lens
        else
          let mem := Function.update mem (shortname + i) (shortChar c)
          shortLoop shortname fuel mem name (i + 1) p lens
      else some (i, mem, lens)

/-- The second loop, with `n` bytes to go. -/
def padLoop (shortname : ℕ) : ℕ → ℕ → Memory → Memory
  | 0, _, mem => mem
  | n + 1, i, mem => padLoop shortname n (i + 1) (Function.update mem (shortname + i) 0x20)

/-- The memory after the call, and the lengths that `memset` was called with. -/
def generateShortname (fuel : ℕ) (mem : Memory) (shortname name : ℕ) :
    Option (Memory × List ℤ) := do
  let len ← strlen fuel mem name
  let j := toInt32 ((len : ℤ) - 1)
  let p := dotLoop mem name (j + 1).toNat
  let (i, mem, lens) ← shortLoop shortname fuel mem name 0 p []
  return (padLoop shortname (charShortName - i) i mem, lens)

/-! ## What it is for -/

/-- The part of a name in front of its last dot, the whole name if there is none. -/
def stem (name : List Byte) : List Byte :=
  if 0x2E ∈ name then (name.rdropWhile (· != 0x2E)).dropLast else name

/-- The part behind the last dot, nothing if there is none. -/
def extension (name : List Byte) : List Byte :=
  if 0x2E ∈ name then name.rtakeWhile (· != 0x2E) else []

/-- The characters of a part of a name that a short name can have. -/
def mapped (part : List Byte) : List Byte :=
  (part.filter fun c => c != 0x20 && c != 0x2E).map shortChar

def padded (n : ℕ) (l : List Byte) : List Byte := l ++ List.replicate (n - l.length) 0x20

def shortNameOf (name : List Byte) : List Byte :=
  padded 8 ((mapped (stem name)).take 8) ++ padded 3 ((mapped (extension name)).take 3)

theorem shortNameOf_length (name : List Byte) : (shortNameOf name).length = charShortName := by
  simp only [shortNameOf, padded, List.length_append, List.length_replicate, List.length_take,
    charShortName]
  omega

/-! ## What was stored -/

/-- The memory `mem` with the bytes `l` at `shortname`. -/
def put (mem : Memory) (shortname : ℕ) (l : List Byte) : Memory :=
  copyBytes mem shortname (cstring l) l.length

variable {mem : Memory} {shortname name : ℕ} {l bytes : List Byte}

@[simp] theorem put_nil : put mem shortname [] = mem := copyBytes_zero mem shortname _

theorem put_append (l l' : List Byte) {mem' : Memory}
    (hin : ∀ k < l'.length, mem' (shortname + l.length + k) = cstring l' k)
    (hout : ∀ a, a < shortname + l.length ∨ shortname + l.length + l'.length ≤ a →
      mem' a = put mem shortname l a) :
    mem' = put mem shortname (l ++ l') := by
  funext a
  rcases Nat.lt_or_ge a shortname with hlow | hlow
  · rw [hout a (by omega), put, put, copyBytes_outside (by omega), copyBytes_outside (by omega)]
  · obtain ⟨k, rfl⟩ := Nat.exists_eq_add_of_le hlow
    rcases Nat.lt_or_ge k l.length with hk | hk
    · rw [hout _ (by omega), put, put, copyBytes_inside (by omega) (by omega),
        copyBytes_inside (by omega) (by rw [List.length_append]; omega), Nat.add_sub_cancel_left]
      simp only [cstring, List.getD_eq_getElem?_getD, List.getElem?_append_left hk]
    · obtain ⟨m, rfl⟩ := Nat.exists_eq_add_of_le hk
      rcases Nat.lt_or_ge m l'.length with hm | hm
      · rw [← Nat.add_assoc, hin m hm, put, copyBytes_inside (by omega)
          (by rw [List.length_append]; omega), Nat.add_assoc, Nat.add_sub_cancel_left]
        simp only [cstring, List.getD_eq_getElem?_getD,
          List.getElem?_append_right (Nat.le_add_right _ _), Nat.add_sub_cancel_left]
      · rw [hout _ (by omega), put, put, copyBytes_outside (by omega),
          copyBytes_outside (by rw [List.length_append]; omega)]

theorem update_put (c : Byte) :
    Function.update (put mem shortname l) (shortname + l.length) c =
      put mem shortname (l ++ [c]) := by
  apply put_append
  · intro k hk
    obtain rfl : k = 0 := by simpa using hk
    rw [Nat.add_zero, Function.update_self]
    rfl
  · intro a ha
    rw [List.length_singleton] at ha
    rw [Function.update_of_ne (by omega)]

theorem memset_put (c : Byte) (n : ℕ) :
    memset (put mem shortname l) (shortname + l.length) c n =
      put mem shortname (l ++ List.replicate n c) := by
  apply put_append
  · intro k hk
    rw [List.length_replicate] at hk
    rw [memset_inside (by omega) (by omega), cstring, List.getD_replicate _ hk]
  · intro a ha
    rw [List.length_replicate] at ha
    rw [memset_outside (by omega)]

theorem padLoop_put (n : ℕ) :
    padLoop shortname n l.length (put mem shortname l) =
      put mem shortname (l ++ List.replicate n 0x20) := by
  induction n generalizing l with
  | zero => rw [padLoop, List.replicate_zero, List.append_nil]
  | succ n ih =>
    have hlength : l.length + 1 = (l ++ [0x20]).length := by simp
    rw [padLoop, update_put, hlength, ih, List.append_assoc, List.singleton_append,
      ← List.replicate_succ]

/-! ## The first loop -/

/-- The buffer for the short name lies beside the name. -/
def Apart (shortname name : ℕ) (bytes : List Byte) : Prop :=
  shortname + charShortName ≤ name ∨ name + bytes.length < shortname

theorem stringAt_put (h : StringAt mem name bytes) (happ : Apart shortname name bytes)
    (hl : l.length ≤ charShortName) : StringAt (put mem shortname l) name bytes := by
  refine ⟨fun i hi => ?_, h.nonzero, h.low, h.high⟩
  rw [put, copyBytes_outside, h.text i hi]
  rcases happ with happ | happ
  · exact Or.inr (by omega)
  · exact Or.inl (by omega)

theorem stringAt_tail {c : Byte} {t : List Byte} (h : StringAt mem name (c :: t)) :
    StringAt mem (name + 1) t := by
  have htail := h.drop (i := 1) (by simp)
  rwa [List.drop_one, List.tail_cons] at htail

theorem Apart.tail {c : Byte} {t : List Byte} (h : Apart shortname name (c :: t)) :
    Apart shortname (name + 1) t := by
  rcases h with h | h
  · exact Or.inl (by omega)
  · rw [List.length_cons] at h
    exact Or.inr (by omega)

@[simp] theorem mapped_nil : mapped [] = [] := rfl

theorem mapped_dropped {c : Byte} (hc : c = 0x20 ∨ c = 0x2E) (t : List Byte) :
    mapped (c :: t) = mapped t := by
  rcases hc with rfl | rfl <;> rfl

theorem mapped_kept {c : Byte} (hblank : c ≠ 0x20) (hdot : c ≠ 0x2E) (t : List Byte) :
    mapped (c :: t) = shortChar c :: mapped t := by
  have hkeep : (c != 0x20 && c != 0x2E) = true := by
    rw [bne_iff_ne.mpr hblank, bne_iff_ne.mpr hdot]
    rfl
  rw [mapped, List.filter_cons, if_pos hkeep, List.map_cons, ← mapped]

attribute [local simp] shortLoop

/-- Over characters without a dot the loop stores what it can up to byte `n`: the end of the short
name once the last dot was passed, the end of the stem if there is none. -/
theorem shortLoop_plain {p n fuel : ℕ} (h : StringAt mem name bytes)
    (happ : Apart shortname name bytes) (hnodot : 0x2E ∉ bytes) (hl : l.length ≤ n)
    (hn : p = 0 ∧ n = 11 ∨ p ≠ 0 ∧ p + l.length ≤ name ∧ n = 8) (hfuel : bytes.length < fuel)
    (lens : List ℤ) :
    shortLoop shortname fuel (put mem shortname l) name l.length p lens =
      some ((l ++ (mapped bytes).take (n - l.length)).length,
        put mem shortname (l ++ (mapped bytes).take (n - l.length)), lens) := by
  have hmax : charShortName = 11 := rfl
  induction fuel generalizing name l bytes with
  | zero => cases hfuel
  | succ fuel ih =>
    have hhead := (stringAt_put h happ (by omega : l.length ≤ charShortName)).head
    rw [shortLoop]
    dsimp only
    rw [hhead]
    cases bytes with
    | nil =>
      rw [if_neg (fun hif => hif.2 rfl), mapped_nil, List.take_nil, List.append_nil]
    | cons c t =>
      have hc : cstring (c :: t) 0 = c := rfl
      have hzero : c ≠ 0 := h.nonzero c List.mem_cons_self
      have hdot : c ≠ 0x2E := fun heq => hnodot (heq ▸ List.mem_cons_self)
      have hnodot' : 0x2E ∉ t := fun hin => hnodot (List.mem_cons_of_mem c hin)
      have htail := stringAt_tail h
      rw [hc]
      rcases Nat.lt_or_eq_of_le hl with hlt | rfl
      · have hskip : ¬ (l.length = 8 ∧ p ≠ 0) := by omega
        rw [if_pos ⟨by omega, hzero⟩, if_neg hskip]
        by_cases hblank : c = 0x20
        · rw [if_pos hblank, mapped_dropped (Or.inl hblank)]
          exact ih htail happ.tail hnodot' hl (by omega) (by simpa using hfuel)
        · have hlength : l.length + 1 = (l ++ [shortChar c]).length := by simp
          have hless : n - l.length = n - (l ++ [shortChar c]).length + 1 := by
            rw [← hlength]
            omega
          rw [if_neg hblank, if_neg hdot, update_put, hlength, mapped_kept hblank hdot, hless,
            List.take_succ_cons, List.append_cons l (shortChar c) (List.take _ (mapped t))]
          exact ih htail happ.tail hnodot' (by omega) (by omega) (by simpa using hfuel)
      · rw [Nat.sub_self, List.take_zero, List.append_nil]
        rcases hn with ⟨-, h11⟩ | ⟨hp, hle, h8⟩
        · rw [if_neg (by omega)]
        · rw [if_pos ⟨by omega, hzero⟩, if_pos ⟨h8, hp⟩, if_pos (by omega)]

theorem shortLoop_extension {ext m : List Byte} {fuel : ℕ} (h : StringAt mem name ext)
    (happ : Apart shortname name ext) (hnodot : 0x2E ∉ ext) (hm : m.length = 8)
    (hfuel : ext.length < fuel) (lens : List ℤ) :
    shortLoop shortname fuel (put mem shortname m) name 8 0 lens =
      some ((m ++ (mapped ext).take 3).length, put mem shortname (m ++ (mapped ext).take 3),
        lens) := by
  have hplain := shortLoop_plain h happ hnodot (by omega : m.length ≤ 11)
    (Or.inl ⟨rfl, rfl⟩) hfuel lens
  rwa [hm] at hplain

theorem stringAt_behind {st ext : List Byte} {c : Byte} (h : StringAt mem name (st ++ c :: ext)) :
    StringAt mem (name + st.length + 1) ext := by
  have hdrop := h.drop (i := st.length) (by simp)
  rw [List.drop_left] at hdrop
  exact stringAt_tail hdrop

theorem Apart.behind {st ext : List Byte} {c : Byte} (h : Apart shortname name (st ++ c :: ext)) :
    Apart shortname (name + st.length + 1) ext := by
  rcases h with h | h
  · exact Or.inl (by omega)
  · rw [List.length_append, List.length_cons] at h
    exact Or.inr (by omega)

theorem padded_of_length {n : ℕ} (h : l.length = n) : padded n l = l := by
  rw [padded, h, Nat.sub_self, List.replicate_zero, List.append_nil]

/-- In front of the last dot the loop stores the stem, pads it, and goes on behind the dot. -/
theorem shortLoop_stem {st ext : List Byte} {p fuel : ℕ}
    (h : StringAt mem name (st ++ 0x2E :: ext)) (happ : Apart shortname name (st ++ 0x2E :: ext))
    (hnodot : 0x2E ∉ ext) (hl : l.length ≤ 8) (hp : p = name + st.length)
    (hfuel : (st ++ 0x2E :: ext).length < fuel) (lens : List ℤ) :
    ∃ l' lens', l' = padded 8 (l ++ (mapped st).take (8 - l.length)) ++ (mapped ext).take 3 ∧
      (∀ len ∈ lens', 0 ≤ len) ∧
      shortLoop shortname fuel (put mem shortname l) name l.length p lens =
        some (l'.length, put mem shortname l', lens ++ lens') := by
  have hmax : charShortName = 11 := rfl
  have hbase : rustsbiBase = 0x80000000 := rfl
  induction fuel generalizing name l st lens with
  | zero => cases hfuel
  | succ fuel ih =>
    have hlow := h.low
    have hhead := (stringAt_put h happ (by omega : l.length ≤ charShortName)).head
    have hext := stringAt_behind h
    have hfuelExt : ext.length < fuel := by
      simp only [List.length_append, List.length_cons] at hfuel
      omega
    have hne : mem name ≠ 0 := by
      rw [h.head]
      cases st with
      | nil => exact h.nonzero _ List.mem_cons_self
      | cons c t => exact h.nonzero _ List.mem_cons_self
    rw [← h.head] at hhead
    rw [shortLoop]
    dsimp only
    rw [hhead, if_pos ⟨by omega, hne⟩]
    rcases Nat.lt_or_eq_of_le hl with hlt | hfull
    · rw [if_neg (by omega)]
      cases st with
      | nil =>
        have hdot : mem name = 0x2E := h.head
        have hlen : toUint64 (8 - (l.length : ℤ)) = 8 - l.length := by
          have hcast : (8 : ℤ) - l.length = (8 - l.length : ℕ) := by omega
          rw [hcast, toUint64_of_lt (by omega)]
        rw [hdot, if_neg (by decide), if_pos rfl, if_pos (by simp [hp]), hlen, memset_put]
        have hpad : (l ++ List.replicate (8 - l.length) 0x20).length = 8 := by
          rw [List.length_append, List.length_replicate]
          omega
        refine ⟨_, [8 - (l.length : ℤ)], rfl, by simp; omega, ?_⟩
        rw [mapped_nil, List.take_nil, List.append_nil, padded]
        exact shortLoop_extension hext happ.behind hnodot hpad hfuelExt _
      | cons c t =>
        have hc : mem name = c := h.head
        have htail : StringAt mem (name + 1) (t ++ 0x2E :: ext) := stringAt_tail h
        have happ' : Apart shortname (name + 1) (t ++ 0x2E :: ext) := happ.tail
        have hp' : p = name + 1 + t.length := by
          rw [hp, List.length_cons]
          omega
        have hfuel' : (t ++ 0x2E :: ext).length < fuel := by
          simp only [List.cons_append, List.length_cons] at hfuel
          omega
        rw [hc]
        by_cases hblank : c = 0x20
        · rw [if_pos hblank, mapped_dropped (Or.inl hblank)]
          exact ih htail happ' hl hp' hfuel' lens
        · by_cases hdot : c = 0x2E
          · rw [if_neg hblank, if_pos hdot, if_neg (by omega), mapped_dropped (Or.inr hdot)]
            exact ih htail happ' hl hp' hfuel' lens
          · have hlength : l.length + 1 = (l ++ [shortChar c]).length := by simp
            have hless : 8 - l.length = 8 - (l ++ [shortChar c]).length + 1 := by
              rw [← hlength]
              omega
            rw [if_neg hblank, if_neg hdot, update_put, hlength, mapped_kept hblank hdot, hless,
              List.take_succ_cons, List.append_cons l (shortChar c) (List.take _ (mapped t))]
            exact ih htail happ' (by omega) hp' hfuel' lens
    · rw [if_pos ⟨hfull, by omega⟩, if_neg (by omega), hfull, hp]
      refine ⟨_, [], rfl, List.forall_mem_nil _, ?_⟩
      rw [Nat.sub_self, List.take_zero, List.append_nil, padded_of_length hfull, List.append_nil]
      exact shortLoop_extension hext happ.behind hnodot hfull hfuelExt lens

/-! ## The last dot -/

theorem exists_last_dot (h : 0x2E ∈ bytes) :
    ∃ st ext, bytes = st ++ 0x2E :: ext ∧ 0x2E ∉ ext := by
  obtain ⟨ext, st, hsplit, hnot⟩ := List.eq_append_cons_of_mem (List.mem_reverse.mpr h)
  refine ⟨st.reverse, ext.reverse, ?_, fun hin => hnot (List.mem_reverse.mp hin)⟩
  rw [← List.reverse_reverse bytes, hsplit]
  simp

section Split

variable {st ext : List Byte}

theorem mem_split : (0x2E : Byte) ∈ st ++ 0x2E :: ext :=
  List.mem_append_right st List.mem_cons_self

theorem stem_split (hnodot : 0x2E ∉ ext) : stem (st ++ 0x2E :: ext) = st := by
  have hall : ∀ c ∈ ext.reverse, (c != 0x2E) = true := fun c hc =>
    bne_iff_ne.mpr fun heq => hnodot (heq ▸ List.mem_reverse.mp hc)
  rw [stem, if_pos mem_split, List.rdropWhile, List.reverse_append, List.reverse_cons,
    List.append_assoc, List.dropWhile_append_of_pos hall, List.singleton_append,
    List.dropWhile_cons_of_neg (by decide), List.reverse_cons, List.reverse_reverse,
    List.dropLast_concat]

theorem extension_split (hnodot : 0x2E ∉ ext) : extension (st ++ 0x2E :: ext) = ext := by
  have hall : ∀ c ∈ ext.reverse, (c != 0x2E) = true := fun c hc =>
    bne_iff_ne.mpr fun heq => hnodot (heq ▸ List.mem_reverse.mp hc)
  rw [extension, if_pos mem_split, List.rtakeWhile, List.reverse_append, List.reverse_cons,
    List.append_assoc, List.takeWhile_append_of_pos hall, List.singleton_append,
    List.takeWhile_cons_of_neg (by decide), List.append_nil, List.reverse_reverse]

end Split

attribute [local simp] dotLoop

theorem dotLoop_none (h : StringAt mem name bytes) (hnodot : 0x2E ∉ bytes) {n : ℕ}
    (hn : n ≤ bytes.length) : dotLoop mem name n = name := by
  induction n with
  | zero => rfl
  | succ n ih =>
    have hbyte : mem (name + n) ≠ 0x2E := by
      rw [h.text n (by omega), cstring, List.getD_eq_getElem _ _ hn]
      exact fun heq => hnodot (heq ▸ List.getElem_mem hn)
    rw [dotLoop, if_neg hbyte, ih (by omega)]

theorem dotLoop_last {st ext : List Byte} (h : StringAt mem name (st ++ 0x2E :: ext))
    (hnodot : 0x2E ∉ ext) {k : ℕ} (hk : k ≤ ext.length) :
    dotLoop mem name (st.length + 1 + k) = name + st.length := by
  have hlength : (st ++ 0x2E :: ext).length = st.length + 1 + ext.length := by
    rw [List.length_append, List.length_cons]
    omega
  induction k with
  | zero =>
    have hdot : mem (name + st.length) = 0x2E := by
      rw [h.text _ (by omega)]
      simp [cstring]
    rw [Nat.add_zero, dotLoop, if_pos hdot]
  | succ k ih =>
    have hbyte : mem (name + (st.length + 1 + k)) ≠ 0x2E := by
      have hget : cstring (st ++ 0x2E :: ext) (st.length + 1 + k) = ext.getD k 0 := by
        rw [cstring, Nat.add_assoc, Nat.add_comm 1 k, List.getD_append_right _ _ _ _ (by omega),
          Nat.add_sub_cancel_left, List.getD_cons_succ]
      rw [h.text _ (by omega), hget, List.getD_eq_getElem _ _ (by omega)]
      exact fun heq => hnodot (heq ▸ List.getElem_mem _)
    rw [← Nat.add_assoc, dotLoop, if_neg hbyte, ih (by omega)]

theorem strlen_eq (h : StringAt mem name bytes) {fuel : ℕ} (hfuel : bytes.length < fuel) :
    strlen fuel mem name = some bytes.length := by
  obtain ⟨q, hcall, hq, -, -⟩ := h.scanLoop (fun c => c != 0) (by decide) hfuel
  have hall : bytes.takeWhile (fun c => c != 0) = bytes :=
    List.takeWhile_eq_self_iff.mpr fun c hc => bne_iff_ne.mpr (h.nonzero c hc)
  rw [hall] at hq
  rw [strlen, hcall, hq, Option.map_some, Nat.add_sub_cancel_left]

/-! ## The call -/

/-- A name and the buffer for the short name beside it. -/
structure ShortBuffers (mem : Memory) (shortname name : ℕ) (bytes : List Byte) : Prop
    extends StringAt mem name bytes where
  apart : Apart shortname name bytes

/-- The call writes the short name to the eleven bytes of the buffer and nothing else. -/
structure Written (mem : Memory) (shortname : ℕ) (bytes : List Byte) (mem' : Memory)
    (lens : List ℤ) : Prop where
  text : ∀ k < charShortName, mem' (shortname + k) = cstring (shortNameOf bytes) k
  keep : ∀ a, a < shortname ∨ shortname + charShortName ≤ a → mem' a = mem a
  lens : ∀ len ∈ lens, 0 ≤ len

theorem written_put {lens : List ℤ} (hlens : ∀ len ∈ lens, 0 ≤ len) :
    Written mem shortname bytes (put mem shortname (shortNameOf bytes)) lens := by
  have hlength := shortNameOf_length bytes
  refine ⟨fun k hk => ?_, fun a ha => ?_, hlens⟩
  · rw [put, copyBytes_inside (by omega) (by omega), Nat.add_sub_cancel_left]
  · rw [put, hlength, copyBytes_outside ha]

theorem padded_length {n : ℕ} (h : l.length ≤ n) : (padded n l).length = n := by
  rw [padded, List.length_append, List.length_replicate]
  omega

theorem shortNameOf_no_dot (hnodot : 0x2E ∉ bytes) {l : List Byte}
    (hl : (mapped bytes).take 8 = l) :
    l ++ List.replicate (charShortName - l.length) 0x20 = shortNameOf bytes := by
  have hle : l.length ≤ 8 := by
    rw [← hl, List.length_take]
    omega
  have hsplit : charShortName - l.length = 8 - l.length + 3 := by
    rw [charShortName]
    omega
  rw [shortNameOf, stem, extension, if_neg hnodot, if_neg hnodot, mapped_nil, List.take_nil, hl,
    padded, padded, hsplit, ← List.replicate_append_replicate, List.append_assoc]
  rfl

theorem shortNameOf_split {st ext l m : List Byte} (hnodot : 0x2E ∉ ext)
    (hl : (mapped st).take 8 = l) (hm : (mapped ext).take 3 = m) :
    padded 8 l ++ m ++ List.replicate (charShortName - (padded 8 l ++ m).length) 0x20 =
      shortNameOf (st ++ 0x2E :: ext) := by
  have hle : l.length ≤ 8 := by
    rw [← hl, List.length_take]
    omega
  have hsplit : charShortName - (padded 8 l ++ m).length = 3 - m.length := by
    rw [List.length_append, padded_length hle, charShortName]
    omega
  rw [shortNameOf, stem_split hnodot, extension_split hnodot, hl, hm, hsplit, List.append_assoc]
  rfl

/-- The call, from what its two scans and its first loop deliver. -/
theorem generateShortname_of_loop (h : StringAt mem name bytes) {fuel p : ℕ}
    (hfuel : bytes.length < fuel) (hp : dotLoop mem name bytes.length = p) {l : List Byte}
    {lens : List ℤ} (hloop : shortLoop shortname fuel mem name 0 p [] =
      some (l.length, put mem shortname l, lens))
    (hpad : l ++ List.replicate (charShortName - l.length) 0x20 = shortNameOf bytes) :
    generateShortname fuel mem shortname name =
      some (put mem shortname (shortNameOf bytes), lens) := by
  have hbase : rustsbiBase = 0x80000000 := rfl
  have hend : memoryEnd = 0x80800000 := rfl
  have hlow := h.low
  have hhigh := h.high
  have hj : (toInt32 ((bytes.length : ℤ) - 1) + 1).toNat = bytes.length := by
    rw [toInt32_of_range (by omega) (by omega)]
    omega
  unfold generateShortname
  rw [strlen_eq h hfuel, Option.bind_eq_bind, Option.bind_some]
  dsimp only
  rw [hj, hp, hloop, Option.bind_eq_bind, Option.bind_some]
  dsimp only
  rw [padLoop_put, hpad]
  rfl

/-- What the first loop of a call stores, and that its lengths are not negative. -/
theorem shortLoop_result (h : ShortBuffers mem shortname name bytes) {fuel : ℕ}
    (hfuel : bytes.length < fuel) :
    ∃ l lens, shortLoop shortname fuel mem name 0 (dotLoop mem name bytes.length) [] =
        some (l.length, put mem shortname l, lens) ∧ (∀ len ∈ lens, 0 ≤ len) ∧
      l ++ List.replicate (charShortName - l.length) 0x20 = shortNameOf bytes := by
  have hbase : rustsbiBase = 0x80000000 := rfl
  have hlow := h.low
  by_cases hdot : 0x2E ∈ bytes
  · obtain ⟨st, ext, rfl, hnodot⟩ := exists_last_dot hdot
    have hlast : dotLoop mem name (st ++ 0x2E :: ext).length = name + st.length := by
      rw [List.length_append, List.length_cons, Nat.add_comm ext.length 1, ← Nat.add_assoc]
      exact dotLoop_last h.toStringAt hnodot (le_refl _)
    obtain ⟨l, lens, hl, hlens, hloop⟩ := shortLoop_stem (l := []) h.toStringAt h.apart hnodot
      (Nat.zero_le 8) rfl hfuel []
    rw [put_nil, List.nil_append] at hloop
    refine ⟨l, lens, hlast ▸ hloop, hlens, ?_⟩
    rw [hl]
    exact shortNameOf_split hnodot rfl rfl
  · have hstart := dotLoop_none h.toStringAt hdot (le_refl bytes.length)
    have hloop := shortLoop_plain (l := []) (p := name) h.toStringAt h.apart hdot
      (Nat.zero_le 8) (Or.inr ⟨by omega, le_refl name, rfl⟩) hfuel []
    rw [put_nil, List.nil_append] at hloop
    exact ⟨_, [], hstart.symm ▸ hloop, List.forall_mem_nil _, shortNameOf_no_dot hdot rfl⟩

theorem generateShortname_writes (h : ShortBuffers mem shortname name bytes) {fuel : ℕ}
    (hfuel : bytes.length < fuel) :
    ∃ mem' lens, generateShortname fuel mem shortname name = some (mem', lens) ∧
      Written mem shortname bytes mem' lens := by
  obtain ⟨l, lens, hloop, hlens, hpad⟩ := shortLoop_result h hfuel
  exact ⟨_, lens, generateShortname_of_loop h.toStringAt hfuel rfl hloop hpad, written_put hlens⟩

/-- The name `my file.v2.text`. -/
def dottedName : List Byte :=
  [0x6D, 0x79, 0x20, 0x66, 0x69, 0x6C, 0x65, 0x2E, 0x76, 0x32, 0x2E, 0x74, 0x65, 0x78, 0x74]

def dottedMemory : Memory := fun a => cstring dottedName (a - 0x80100000)

theorem dottedName_buffers : ShortBuffers dottedMemory 0x80200000 0x80100000 dottedName where
  text i _ := by rw [dottedMemory, Nat.add_sub_cancel_left]
  nonzero := by decide
  low := by decide
  high := by decide
  apart := Or.inr (by decide)

theorem generateShortname_dotted :
    ∃ mem' lens, generateShortname 16 dottedMemory 0x80200000 0x80100000 = some (mem', lens) ∧
      Written dottedMemory 0x80200000 dottedName mem' lens :=
  generateShortname_writes dottedName_buffers (by decide)

/-! ## The model on lists -/

/-- The pointer to the dot of a name at `name`. -/
def dotPointer (name : ℕ) : Option ℕ → ℕ
  | none => 0
  | some dot => name + dot

theorem shortLoop_lens {fuel i p i' : ℕ} {mem' : Memory} {lens lens' : List ℤ}
    (hcall : shortLoop shortname fuel mem name i p lens = some (i', mem', lens')) :
    ∀ len ∈ lens, len ∈ lens' := by
  induction fuel generalizing mem name i p lens with
  | zero => cases hcall
  | succ fuel ih =>
    rw [shortLoop] at hcall
    dsimp only at hcall
    split at hcall
    · split at hcall
      · split at hcall
        · simp only [Option.some.injEq, Prod.mk.injEq] at hcall
          exact fun len hlen => hcall.2.2 ▸ hlen
        · exact ih hcall
      · split at hcall
        · exact ih hcall
        · split at hcall
          · split at hcall
            · exact fun len hlen => ih hcall len (List.mem_append_left _ hlen)
            · exact ih hcall
          · exact ih hcall
    · simp only [Option.some.injEq, Prod.mk.injEq] at hcall
      exact fun len hlen => hcall.2.2 ▸ hlen

/-- The loop on lists follows the loop in memory while no length is negative. -/
theorem shortLoop_list (pos : ℕ) (p : Option ℕ) (sn : ℕ → Byte) {fuel i i' : ℕ}
    {lens lens' : List ℤ} {mem' : Memory} (hname : 0 < name)
    (hbelow : shortname + charShortName ≤ name)
    (htext : ∀ j, mem (name + j) = cstring bytes j) (hsn : ∀ k < i, mem (shortname + k) = sn k)
    (hcall : shortLoop shortname fuel mem (name + pos) i (dotPointer name p) lens =
      some (i', mem', lens')) (hlens : ∀ len ∈ lens', 0 ≤ len) :
    ∃ sn', shortnameLoop bytes fuel pos i p sn = (i', sn') ∧
      ∀ k < i', mem' (shortname + k) = sn' k := by
  have hmax : charShortName = 11 := rfl
  induction fuel generalizing mem pos i p sn lens with
  | zero => cases hcall
  | succ fuel ih =>
    obtain ⟨c, hc⟩ : ∃ c, bytes.getD pos 0 = c := ⟨_, rfl⟩
    have hread : mem (name + pos) = c := (htext pos).trans hc
    rw [shortLoop] at hcall
    dsimp only at hcall
    rw [hread] at hcall
    rw [shortnameLoop, hc]
    by_cases hgo : i < charShortName ∧ c ≠ 0
    · rw [if_pos hgo] at hcall ⊢
      by_cases hjump : i = 8 ∧ dotPointer name p ≠ 0
      · rw [if_pos hjump] at hcall
        obtain ⟨dot, rfl⟩ : ∃ dot, p = some dot := by
          cases p with
          | none => exact (hjump.2 rfl).elim
          | some dot => exact ⟨dot, rfl⟩
        have hpointer : dotPointer name (some dot) = name + dot := rfl
        rw [hpointer] at hcall
        rw [if_pos hjump.1]
        dsimp only
        by_cases hlt : dot < pos
        · rw [if_pos (by omega), Option.some.injEq, Prod.mk.injEq, Prod.mk.injEq] at hcall
          obtain ⟨rfl, rfl, -⟩ := hcall
          rw [if_pos hlt]
          exact ⟨sn, rfl, hsn⟩
        · rw [if_neg (by omega), Nat.add_assoc] at hcall
          rw [if_neg hlt]
          exact ih _ _ _ htext hsn hcall
      · rw [if_neg hjump] at hcall
        have hnone : (if i = 8 then p else none) = none := by
          split
          · next h8 =>
            cases p with
            | none => rfl
            | some dot =>
              exfalso
              rw [dotPointer] at hjump
              omega
          · rfl
        rw [hnone]
        dsimp only
        by_cases hblank : c = 0x20
        · rw [if_pos hblank, Nat.add_assoc] at hcall
          rw [if_pos hblank]
          exact ih _ _ _ htext hsn hcall
        · rw [if_neg hblank] at hcall ⊢
          by_cases hdot : c = 0x2E
          · rw [if_pos hdot] at hcall ⊢
            have hiff : name + pos + 1 > dotPointer name p ↔ p.getD 0 ≤ pos := by
              cases p with
              | none => simp [dotPointer]
              | some dot =>
                rw [dotPointer, Option.getD_some]
                omega
            by_cases hlast : p.getD 0 ≤ pos
            · rw [if_pos (hiff.mpr hlast)] at hcall
              rw [if_pos hlast]
              have hnonneg : (0 : ℤ) ≤ 8 - i :=
                hlens _ (shortLoop_lens hcall _ (List.mem_append_right _ List.mem_cons_self))
              have hlen : toUint64 (8 - (i : ℤ)) = 8 - i := by
                have hcast : (8 : ℤ) - i = (8 - i : ℕ) := by omega
                rw [hcast, toUint64_of_lt (by omega)]
              rw [hlen, Nat.add_assoc] at hcall
              refine ih _ _ _ (fun j => ?_) (fun k hk => ?_) hcall
              · rw [memset_outside (by omega), htext]
              · by_cases hik : i ≤ k
                · rw [memset_inside (by omega) (by omega), if_pos ⟨hik, hk⟩]
                · rw [memset_outside (by omega), if_neg (by omega), hsn k (by omega)]
            · rw [if_neg fun hlt => hlast (hiff.mp hlt), Nat.add_assoc] at hcall
              rw [if_neg hlast]
              exact ih _ _ _ htext hsn hcall
          · rw [if_neg hdot, Nat.add_assoc] at hcall
            rw [if_neg hdot]
            refine ih _ _ _ (fun j => ?_) (fun k hk => ?_) hcall
            · rw [Function.update_of_ne (by omega), htext]
            · rcases Nat.lt_succ_iff_lt_or_eq.mp hk with hk | rfl
              · rw [Function.update_of_ne (by omega), Function.update_of_ne (by omega), hsn k hk]
              · rw [Function.update_self, Function.update_self]
    · rw [if_neg hgo, Option.some.injEq, Prod.mk.injEq, Prod.mk.injEq] at hcall
      obtain ⟨rfl, rfl, -⟩ := hcall
      rw [if_neg hgo]
      exact ⟨sn, rfl, hsn⟩

theorem dotLoop_find (htext : ∀ j, mem (name + j) = cstring bytes j) (n : ℕ) :
    dotLoop mem name n =
      name + ((List.range n).reverse.find? fun j => bytes.getD j 0 == 0x2E).getD 0 := by
  induction n with
  | zero => rfl
  | succ n ih =>
    rw [dotLoop, htext, cstring, List.range_succ, List.reverse_append, List.reverse_singleton,
      List.singleton_append, List.find?_cons, ih]
    by_cases hdot : bytes.getD n 0 = 0x2E
    · rw [if_pos hdot, beq_iff_eq.mpr hdot, Option.getD_some]
    · rw [if_neg hdot, beq_eq_false_iff_ne.mpr hdot]

/-- The list model of the short name of an entry is the name that the call writes. -/
theorem generateShortname_eq (hzero : ∀ c ∈ bytes, c ≠ 0)
    (hlength : bytes.length ≤ fat32MaxFilename) :
    K210Os.generateShortname bytes = shortNameOf bytes := by
  have hmax : fat32MaxFilename = 255 := rfl
  have heleven : charShortName = 11 := rfl
  -- a buffer and the name behind it
  let mem : Memory := fun a => cstring bytes (a - 0x80000200)
  have htext : ∀ j, mem (0x80000200 + j) = cstring bytes j := by
    intro j
    change cstring bytes (0x80000200 + j - 0x80000200) = _
    rw [Nat.add_sub_cancel_left]
  have hbuffers : ShortBuffers mem 0x80000000 0x80000200 bytes := by
    refine ⟨⟨fun i _ => htext i, hzero, by decide, ?_⟩, Or.inl (by decide)⟩
    rw [memoryEnd]
    omega
  obtain ⟨l, lens, hloop, hlens, hpad⟩ := shortLoop_result hbuffers (Nat.lt_succ_self _)
  rw [dotLoop_find htext] at hloop
  obtain ⟨sn, hlist, hsn⟩ := shortLoop_list 0 (some (lastDot bytes)) (fun _ => 0)
    (by decide) (by decide) htext (fun k hk => absurd hk (Nat.not_lt_zero k)) hloop hlens
  have hle : l.length ≤ charShortName := by
    have := shortNameOf_length bytes
    rw [← hpad, List.length_append, List.length_replicate] at this
    omega
  rw [K210Os.generateShortname, hlist, ← hpad]
  dsimp only
  apply List.ext_getElem
  · rw [List.length_map, List.length_range, List.length_append, List.length_replicate]
    omega
  · intro k hk hk'
    rw [List.length_map, List.length_range] at hk
    rw [List.getElem_map, List.getElem_range]
    by_cases hstored : k < l.length
    · rw [if_neg (by omega), ← hsn k hstored, put, copyBytes_inside (by omega) (by omega),
        Nat.add_sub_cancel_left, List.getElem_append_left hstored, cstring,
        List.getD_eq_getElem _ _ hstored]
    · rw [if_pos (by omega), List.getElem_append_right (by omega), List.getElem_replicate]

end K210Os.ShortNames
