import K210Os.Getcwd
import K210Os.KernelStacks
import K210Os.MachineInt

/-!
# The elements of a path, in memory

`skipelem` with its pointers: the path and the buffer for the name are in memory, the length of a
name is an `int`. Calls in a row deliver the elements of the path, which are its longest runs of
bytes that are no slash.
-/

namespace K210Os

open MachineInt

/-! ## Elements -/

section Elements

variable {α : Type*} [BEq α] [LawfulBEq α] {sep : α} {l run rest : List α}

/-- The longest runs that are not empty and do not contain `sep`. -/
def elements (sep : α) (l : List α) : List (List α) :=
  (l.splitOn sep).filter fun run => !run.isEmpty

omit [LawfulBEq α] in
@[simp] theorem elements_nil : elements sep ([] : List α) = [] := rfl

@[simp] theorem elements_cons_self : elements sep (sep :: l) = elements sep l := by
  rw [elements, elements, List.splitOn_eq_splitOnP, ← List.nil_append (sep :: l),
    List.splitOnP_append_cons [] l (by simp), List.filter_append]
  rfl

theorem elements_run (hne : run ≠ []) (hrun : ∀ c ∈ run, (c == sep) = false)
    (hrest : rest = [] ∨ ∃ tail, rest = sep :: tail) :
    elements sep (run ++ rest) = run :: elements sep rest := by
  have hkeep : (!run.isEmpty) = true := by simpa using hne
  rcases hrest with rfl | ⟨tail, rfl⟩
  · rw [List.append_nil, elements, List.splitOn_eq_splitOnP, List.splitOnP_eq_singleton hrun,
      List.filter_cons, if_pos hkeep]
    rfl
  · rw [elements_cons_self, elements, List.splitOn_eq_splitOnP,
      List.splitOnP_append_cons_of_forall_mem hrun sep (by simp), List.filter_cons, if_pos hkeep,
      elements, List.splitOn_eq_splitOnP]

theorem elements_dropWhile (l : List α) :
    elements sep (l.dropWhile (· == sep)) = elements sep l := by
  induction l with
  | nil => rfl
  | cons c l ih =>
    rw [List.dropWhile_cons]
    split
    · next h =>
      rw [ih, eq_of_beq h, elements_cons_self]
    · rfl

omit [BEq α] [LawfulBEq α] in
theorem head_of_dropWhile {p : α → Bool} {c : α} {tail : List α}
    (h : l.dropWhile p = c :: tail) : p c = false := by
  have hhead := List.head?_dropWhile_not p l
  rw [h] at hhead
  exact hhead

omit [BEq α] [LawfulBEq α] in
theorem while_congr {p q : α → Bool} (h : ∀ c ∈ l, p c = q c) :
    l.takeWhile p = l.takeWhile q ∧ l.dropWhile p = l.dropWhile q := by
  induction l with
  | nil => exact ⟨rfl, rfl⟩
  | cons c l ih =>
    obtain ⟨htake, hdrop⟩ := ih fun d hd => h d (List.mem_cons_of_mem c hd)
    simp only [List.takeWhile_cons, List.dropWhile_cons, h c List.mem_cons_self, htake, hdrop,
      and_self]

/-- What is left after the separators in front begins with an element. -/
theorem elements_step {l' : List α} (hl : l.dropWhile (· == sep) = l') (hne : l' ≠ []) :
    elements sep l = l'.takeWhile (· != sep) :: elements sep (l'.dropWhile (· != sep)) := by
  obtain ⟨c, tail, rfl⟩ := List.exists_cons_of_ne_nil hne
  have hc := head_of_dropWhile hl
  rw [← elements_dropWhile, hl]
  nth_rewrite 1 [← List.takeWhile_append_dropWhile (p := (· != sep)) (l := c :: tail)]
  apply elements_run
  · simp [bne, hc]
  · intro d hd
    have := List.mem_takeWhile_imp hd
    simpa [bne] using this
  · cases hrest : (c :: tail).dropWhile (· != sep) with
    | nil => exact Or.inl rfl
    | cons d tail' =>
      have hstop := head_of_dropWhile hrest
      rw [bne, Bool.not_eq_false'] at hstop
      exact Or.inr ⟨tail', by rw [eq_of_beq hstop]⟩

end Elements

/-! ## `skipelem` in memory -/

namespace PathMemory

/-- A loop that goes on while it reads bytes that `go` accepts. -/
def scanLoop (go : Byte → Bool) (mem : Memory) : ℕ → ℕ → Option ℕ
  | 0, _ => none
  | fuel + 1, path => if go (mem path) then scanLoop go mem fuel (path + 1) else some path

/-- `while (*path == '/') path++`. -/
def slashLoop : Memory → ℕ → ℕ → Option ℕ := scanLoop (· == slash)

/-- `while (*path != '/' && *path != 0) path++`. -/
def elemLoop : Memory → ℕ → ℕ → Option ℕ := scanLoop fun c => c != slash && c != 0

/-- `none` is a loop that needs more than `fuel` rounds, `some (none, _)` the null pointer. -/
def skipelem (fuel : ℕ) (mem : Memory) (path name : ℕ) : Option (Option ℕ × Memory) := do
  let path ← slashLoop mem fuel path
  if mem path = 0 then return (none, mem)
  let s := path
  let path ← elemLoop mem fuel path
  let len := toInt32 ((path : ℤ) - s)
  let len := if len > fat32MaxFilename then (fat32MaxFilename : ℤ) else len
  let mem := Function.update mem (toUint64 (name + len)) 0
  let mem := copyBytes mem name (fun k => mem (s + k)) (toUint32 len)
  let path ← slashLoop mem fuel path
  return (some path, mem)

/-- Calls of `skipelem` until it returns `NULL`: the memory and the pointer after each of the
others. -/
def skipelems (fuel name : ℕ) : ℕ → Memory → ℕ → Option (List (Memory × ℕ))
  | 0, _, _ => none
  | calls + 1, mem, path => do
      let (next, mem) ← skipelem fuel mem path name
      match next with
      | none => return []
      | some path => return (mem, path) :: (← skipelems fuel name calls mem path)

/-- A string of the kernel: the bytes in front of its zero byte, in the memory of the machine. -/
structure StringAt (mem : Memory) (path : ℕ) (bytes : List Byte) : Prop where
  text : ∀ i ≤ bytes.length, mem (path + i) = cstring bytes i
  nonzero : ∀ c ∈ bytes, c ≠ 0
  low : rustsbiBase ≤ path
  high : path + bytes.length < memoryEnd

variable {mem mem' : Memory} {path name : ℕ} {bytes : List Byte}

theorem StringAt.drop (h : StringAt mem path bytes) {i : ℕ} (hi : i ≤ bytes.length) :
    StringAt mem (path + i) (bytes.drop i) := by
  have hlow := h.low
  have hhigh := h.high
  refine ⟨fun j hj => ?_, fun c hc => h.nonzero c (List.mem_of_mem_drop hc), by omega, ?_⟩
  · rw [List.length_drop] at hj
    rw [Nat.add_assoc, h.text (i + j) (by omega)]
    simp only [cstring, List.getD_eq_getElem?_getD, List.getElem?_drop]
  · rw [List.length_drop]
    omega

theorem StringAt.head (h : StringAt mem path bytes) : mem path = cstring bytes 0 :=
  h.text 0 (Nat.zero_le _)

/-- A loop over a string stops behind the bytes that it accepts, at the latest at the zero byte. -/
theorem StringAt.scanLoop (h : StringAt mem path bytes) (go : Byte → Bool) (hzero : go 0 = false)
    {fuel : ℕ} (hfuel : bytes.length < fuel) :
    ∃ q, scanLoop go mem fuel path = some q ∧ q = path + (bytes.takeWhile go).length ∧
      StringAt mem q (bytes.dropWhile go) ∧
      q + (bytes.dropWhile go).length = path + bytes.length := by
  induction fuel generalizing path bytes with
  | zero => cases hfuel
  | succ fuel ih =>
    rw [PathMemory.scanLoop, h.head]
    cases bytes with
    | nil =>
      rw [if_neg (by rw [cstring, List.getD_nil, hzero]; decide)]
      exact ⟨path, rfl, rfl, h, rfl⟩
    | cons c bytes =>
      rw [cstring, List.getD_cons_zero]
      cases hgo : go c with
      | true =>
        have htail := h.drop (i := 1) (by simp)
        rw [List.drop_one, List.tail_cons] at htail
        obtain ⟨q, hcall, hq, hstring, hend⟩ := ih htail (by simpa using hfuel)
        rw [List.takeWhile_cons_of_pos hgo, List.dropWhile_cons_of_pos hgo]
        refine ⟨q, by rw [if_pos rfl, hcall], ?_, hstring, ?_⟩
        · rw [hq, List.length_cons]
          omega
        · rw [hend, List.length_cons]
          omega
      | false =>
        have hnot : ¬ go c = true := by simp [hgo]
        rw [List.takeWhile_cons_of_neg hnot, List.dropWhile_cons_of_neg hnot]
        exact ⟨path, by rw [if_neg Bool.false_ne_true], rfl, h, rfl⟩

/-- A path and the buffer for a name beside it, which holds 256 bytes. -/
structure PathBuffers (mem : Memory) (path name : ℕ) (bytes : List Byte) : Prop
    extends StringAt mem path bytes where
  name_high : name + fat32MaxFilename < memoryEnd
  apart : name + fat32MaxFilename < path ∨ path + bytes.length < name

/-- Further on in the path. -/
theorem PathBuffers.suffix (h : PathBuffers mem path name bytes) {rest : List Byte} {q : ℕ}
    (hstring : StringAt mem q rest) (hend : q + rest.length = path + bytes.length)
    (hq : path ≤ q) : PathBuffers mem q name rest := by
  refine ⟨hstring, h.name_high, ?_⟩
  rcases h.apart with happ | happ
  · exact Or.inl (by omega)
  · exact Or.inr (by omega)

/-- Only the buffer for the name was written. -/
theorem PathBuffers.write (h : PathBuffers mem path name bytes)
    (hkeep : ∀ a, a < name ∨ name + fat32MaxFilename < a → mem' a = mem a) :
    PathBuffers mem' path name bytes := by
  have happ := h.apart
  refine ⟨⟨fun i hi => ?_, h.nonzero, h.low, h.high⟩, h.name_high, happ⟩
  rw [hkeep _ (by omega), h.text i hi]

/-- What a call that does not return `NULL` has done: `elem` is in the buffer, and the pointer
stands at `rest`. -/
structure Skipped (mem : Memory) (path name : ℕ) (bytes elem rest : List Byte) (q : ℕ)
    (mem' : Memory) : Prop where
  elem_length : elem.length ≤ fat32MaxFilename
  text : ∀ k ≤ elem.length, mem' (name + k) = cstring elem k
  keep : ∀ a, a < name ∨ name + elem.length < a → mem' a = mem a
  pointer : q + rest.length = path + bytes.length
  buffers : PathBuffers mem' q name rest

/-- The length of a name, cut. -/
theorem cut_eq {i : ℕ} (hi : i < 2 ^ 31) :
    (if toInt32 (i : ℤ) > fat32MaxFilename then (fat32MaxFilename : ℤ) else toInt32 (i : ℤ)) =
      (min i fat32MaxFilename : ℕ) := by
  rw [toInt32_of_lt hi]
  split <;> omega

/-- The zero byte and the copy leave the first `len` bytes of a string in the buffer. -/
theorem copy_elem {s len : ℕ} {text : List Byte}
    (htext : ∀ k < len, mem (s + k) = cstring text k) (hlen : len ≤ text.length)
    (happ : ∀ k < len, s + k ≠ name + len)
    (hmem : copyBytes (Function.update mem (name + len) 0) name
      (fun k => Function.update mem (name + len) 0 (s + k)) len = mem') :
    (∀ k ≤ len, mem' (name + k) = cstring (text.take len) k) ∧
      ∀ a, a < name ∨ name + len < a → mem' a = mem a := by
  subst hmem
  constructor
  · intro k hk
    rcases Nat.lt_or_eq_of_le hk with hk | rfl
    · rw [copyBytes_inside (by omega) (by omega), Nat.add_sub_cancel_left,
        Function.update_of_ne (happ k hk), htext k hk]
      simp only [cstring, List.getD_eq_getElem?_getD, List.getElem?_take, if_pos hk]
    · rw [copyBytes_outside (by omega), Function.update_self]
      simp only [cstring, List.getD_eq_getElem?_getD, List.getElem?_take, lt_irrefl, if_false,
        Option.getD_none]
  · intro a ha
    rw [copyBytes_outside (by omega), Function.update_of_ne (by omega)]

theorem skipelem_spec (h : PathBuffers mem path name bytes) {fuel : ℕ}
    (hfuel : bytes.length < fuel) :
    (EntryCache.skipelem bytes = none ∧ skipelem fuel mem path name = some (none, mem)) ∨
      ∃ elem rest q mem', EntryCache.skipelem bytes = some (elem, rest) ∧
        skipelem fuel mem path name = some (some q, mem') ∧
        Skipped mem path name bytes elem rest q mem' := by
  have hlow := h.low
  have hhigh := h.high
  have hbase : rustsbiBase = 0x80000000 := rfl
  have hmemoryEnd : memoryEnd = 0x80800000 := rfl
  have hmax : fat32MaxFilename = 255 := rfl
  obtain ⟨s, hslash, hs, hstring, hend⟩ :=
    h.toStringAt.scanLoop (fun c => c == slash) (by decide) hfuel
  obtain ⟨text, htext⟩ : ∃ text, bytes.dropWhile (· == slash) = text := ⟨_, rfl⟩
  rw [htext] at hstring hend
  have hlist : EntryCache.skipelem bytes = if text.isEmpty then none else
      some ((text.takeWhile (· != slash)).take fat32MaxFilename,
        (text.dropWhile (· != slash)).dropWhile (· == slash)) := by
    rw [← htext]
    rfl
  have hhead := hstring.head
  have hslash' : slashLoop mem fuel path = some s := hslash
  unfold skipelem
  rw [hslash', Option.bind_eq_bind, Option.bind_some, hlist, hhead]
  cases text with
  | nil => exact Or.inl ⟨rfl, rfl⟩
  | cons c text =>
    right
    have hc : cstring (c :: text) 0 ≠ 0 := hstring.nonzero c List.mem_cons_self
    rw [if_neg hc]
    obtain ⟨htake, hdrop⟩ := while_congr (l := c :: text) (p := fun c => c != slash && c != 0)
      (q := (· != slash)) fun d hd => by
        have hne : (d != 0) = true := bne_iff_ne.mpr (hstring.nonzero d hd)
        rw [hne, Bool.and_true]
    obtain ⟨q₁, helem, hq₁, hstring₁, hend₁⟩ :=
      hstring.scanLoop (fun c => c != slash && c != 0) (by decide)
        (by omega : (c :: text).length < fuel)
    rw [htake] at hq₁
    rw [hdrop] at hstring₁ hend₁
    obtain ⟨run, hrun⟩ : ∃ run, (c :: text).takeWhile (· != slash) = run := ⟨_, rfl⟩
    obtain ⟨after, hafter⟩ : ∃ after, (c :: text).dropWhile (· != slash) = after := ⟨_, rfl⟩
    rw [hrun] at hq₁ ⊢
    rw [hafter] at hstring₁ hend₁ ⊢
    have hfront : run = (c :: text).take run.length :=
      List.prefix_iff_eq_take.mp (hrun ▸ List.takeWhile_prefix _)
    have hrunLength : run.length ≤ (c :: text).length := hrun ▸ (List.takeWhile_sublist _).length_le
    obtain ⟨len, hlen⟩ : ∃ len, min run.length fat32MaxFilename = len := ⟨_, rfl⟩
    have helemEq : run.take fat32MaxFilename = (c :: text).take len := by
      rw [hfront, List.take_take, Nat.min_comm, hlen]
    have helemLength : (run.take fat32MaxFilename).length = len := by
      rw [List.length_take, Nat.min_comm, hlen]
    have happ := h.apart
    obtain ⟨mem', hmem⟩ : ∃ mem', copyBytes (Function.update mem (name + len) 0) name
        (fun k => Function.update mem (name + len) 0 (s + k)) len = mem' := ⟨_, rfl⟩
    obtain ⟨hcopy, hkeep⟩ := copy_elem (fun k hk => hstring.text k (by omega))
      (by omega : len ≤ (c :: text).length) (by omega) hmem
    have hbuffers := (h.suffix hstring₁ (by omega) (by omega)).write fun a ha =>
      hkeep a (by omega)
    obtain ⟨q₂, hslash₂, hq₂, hstring₂, hend₂⟩ :=
      hbuffers.toStringAt.scanLoop (fun c => c == slash) (by decide) (by omega : _ < fuel)
    refine ⟨_, _, q₂, mem', rfl, ?_, ⟨by omega, ?_, ?_, by omega, ?_⟩⟩
    · have helem' : elemLoop mem fuel s = some q₁ := helem
      have hdiff : (q₁ : ℤ) - s = (run.length : ℕ) := by omega
      have hstore : toUint64 ((name : ℤ) + (len : ℕ)) = name + len := by
        have hname := h.name_high
        rw [← Nat.cast_add]
        exact toUint64_of_lt (by omega)
      have hslash₂' : slashLoop mem' fuel q₁ = some q₂ := hslash₂
      rw [helem', Option.bind_some, hdiff]
      dsimp only
      rw [cut_eq (by omega), hlen, hstore, toUint32_of_lt (by omega), hmem, hslash₂',
        Option.bind_some]
      rfl
    · intro k hk
      rw [hcopy k (by omega), helemEq]
    · intro a ha
      exact hkeep a (by omega)
    · exact hbuffers.suffix hstring₂ hend₂ (by omega)

/-- What `skipelem` on the bytes of a path has to do with the elements of the path. -/
theorem skipelem_elements (bytes : List Byte) :
    (EntryCache.skipelem bytes = none ∧ elements slash bytes = []) ∨
      ∃ run rest, EntryCache.skipelem bytes = some (run.take fat32MaxFilename, rest) ∧
        elements slash bytes = run :: elements slash rest ∧
        (rest = [] ↔ elements slash rest = []) := by
  obtain ⟨text, htext⟩ : ∃ text, bytes.dropWhile (· == slash) = text := ⟨_, rfl⟩
  have hlist : EntryCache.skipelem bytes = if text.isEmpty then none else
      some ((text.takeWhile (· != slash)).take fat32MaxFilename,
        (text.dropWhile (· != slash)).dropWhile (· == slash)) := by
    rw [← htext]
    rfl
  rw [hlist]
  cases text with
  | nil =>
    left
    rw [← elements_dropWhile, htext]
    exact ⟨rfl, rfl⟩
  | cons c text =>
    right
    refine ⟨_, _, rfl, ?_, ?_⟩
    · rw [elements_step htext (List.cons_ne_nil c text), elements_dropWhile]
    · constructor
      · intro hrest
        rw [hrest, elements_nil]
      · intro hnone
        by_contra hne
        have hstep : elements slash _ = _ := elements_step
          (List.dropWhile_idempotent (p := (· == slash)) ((c :: text).dropWhile (· != slash))) hne
        rw [hnone] at hstep
        cases hstep

/-- The calls have delivered the elements of the path one after the other, and the pointer has
come to the end of the path with the last of them and not before. -/
structure Delivers (mem : Memory) (path name : ℕ) (bytes : List Byte)
    (results : List (Memory × ℕ)) : Prop where
  names : List.Forall₂ (fun run r => ∀ k ≤ (run.take fat32MaxFilename).length,
    r.1 (name + k) = cstring (run.take fat32MaxFilename) k) (elements slash bytes) results
  writes : ∀ r ∈ results, ∀ a, a < name ∨ name + fat32MaxFilename < a → r.1 a = mem a
  pointers : ∀ r ∈ results, path ≤ r.2 ∧ r.2 ≤ path + bytes.length
  last : ∀ i r, results[i]? = some r → (r.2 = path + bytes.length ↔ i + 1 = results.length)
  parentTest : ∀ i r, results[i]? = some r → (r.1 r.2 = 0 ↔ i + 1 = results.length)

theorem Delivers.nil (h : elements slash bytes = []) : Delivers mem path name bytes [] where
  names := h ▸ List.Forall₂.nil
  writes r hr := by cases hr
  pointers r hr := by cases hr
  last i r hr := by cases hr
  parentTest i r hr := by cases hr

theorem PathBuffers.head_eq_zero (h : PathBuffers mem path name bytes) :
    mem path = 0 ↔ bytes = [] := by
  rw [h.toStringAt.head]
  cases bytes with
  | nil => exact ⟨fun _ => rfl, fun _ => rfl⟩
  | cons c bytes =>
    have hc := h.nonzero c List.mem_cons_self
    exact ⟨fun hzero => (hc hzero).elim, fun hnil => by cases hnil⟩

theorem Delivers.cons {run rest : List Byte} {q : ℕ} {results : List (Memory × ℕ)}
    (hskip : Skipped mem path name bytes (run.take fat32MaxFilename) rest q mem')
    (helements : elements slash bytes = run :: elements slash rest)
    (hrest : rest = [] ↔ elements slash rest = []) (hq : path ≤ q)
    (h : Delivers mem' q name rest results) :
    Delivers mem path name bytes ((mem', q) :: results) := by
  have hpointer := hskip.pointer
  have hlength := hskip.elem_length
  have hnil : results.length = 0 ↔ rest.length = 0 := by
    rw [← h.names.length_eq, List.length_eq_zero_iff, List.length_eq_zero_iff, hrest]
  constructor
  · rw [helements]
    exact List.Forall₂.cons hskip.text h.names
  · intro r hr a ha
    rcases List.mem_cons.mp hr with rfl | hr
    · exact hskip.keep a (by omega)
    · rw [h.writes r hr a ha]
      exact hskip.keep a (by omega)
  · intro r hr
    rcases List.mem_cons.mp hr with rfl | hr
    · exact ⟨hq, by omega⟩
    · have := h.pointers r hr
      omega
  · intro i r hr
    cases i with
    | zero =>
      obtain rfl := Option.some.inj hr
      rw [List.length_cons]
      dsimp only
      omega
    | succ i =>
      rw [List.length_cons, ← hpointer, h.last i r hr]
      omega
  · intro i r hr
    cases i with
    | zero =>
      obtain rfl := Option.some.inj hr
      rw [List.length_cons, hskip.buffers.head_eq_zero, ← List.length_eq_zero_iff]
      omega
    | succ i =>
      rw [List.length_cons, h.parentTest i r hr]
      omega

/-- Calls in a row come to an end, after one call for each element and a last one, and deliver the
elements. -/
theorem skipelems_delivers (h : PathBuffers mem path name bytes) {fuel calls : ℕ}
    (hfuel : bytes.length < fuel) (hcalls : (elements slash bytes).length < calls) :
    ∃ results, skipelems fuel name calls mem path = some results ∧
      Delivers mem path name bytes results := by
  induction calls generalizing mem path bytes with
  | zero => cases hcalls
  | succ calls ih =>
    rw [skipelems]
    rcases skipelem_elements bytes with ⟨hlist, hnone⟩ | ⟨run, rest, hlist, helements, hrest⟩
    · rcases skipelem_spec h hfuel with ⟨-, hcall⟩ | ⟨elem, rest, q, mem', hlist', -⟩
      · exact ⟨[], by rw [hcall]; rfl, Delivers.nil hnone⟩
      · rw [hlist] at hlist'
        cases hlist'
    · rcases skipelem_spec h hfuel with ⟨hlist', -⟩ | ⟨elem, rest', q, mem', hlist', hcall, hskip⟩
      · rw [hlist] at hlist'
        cases hlist'
      · rw [hlist, Option.some.injEq, Prod.mk.injEq] at hlist'
        obtain ⟨rfl, rfl⟩ := hlist'
        have hless := EntryCache.skipelem_length hlist
        have hpointer := hskip.pointer
        rw [helements, List.length_cons] at hcalls
        obtain ⟨results, hresults, hdelivers⟩ := ih hskip.buffers (by omega) (by omega)
        refine ⟨(mem', q) :: results, ?_, hdelivers.cons hskip helements hrest (by omega)⟩
        rw [hcall]
        dsimp only [Option.bind_eq_bind, Option.bind_some]
        rw [hresults]
        rfl

/-- The path `//a/bc/`. -/
def twoElements : List Byte := [slash, slash, 0x61, slash, 0x62, 0x63, slash]

def twoElementsMemory : Memory := fun a => cstring twoElements (a - 0x80100000)

theorem twoElements_buffers :
    PathBuffers twoElementsMemory 0x80100000 0x80200000 twoElements where
  text i _ := by rw [twoElementsMemory, Nat.add_sub_cancel_left]
  nonzero := by decide
  low := by decide
  high := by decide
  name_high := by decide
  apart := by decide

theorem skipelems_two_elements :
    ∃ results, skipelems 8 0x80200000 3 twoElementsMemory 0x80100000 = some results ∧
      Delivers twoElementsMemory 0x80100000 0x80200000 twoElements results :=
  skipelems_delivers twoElements_buffers (by decide) (by decide)

end PathMemory

end K210Os
