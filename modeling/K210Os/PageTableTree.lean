import K210Os.PageTable
import K210Os.RadixTree
import Mathlib.Data.Nat.Bitwise

/-!
# A page table is a radix tree of frames

Reading and writing single entries, the tree that the valid entries of the two
upper levels form, and what the walk that makes missing tables does to it.
-/

namespace K210Os

open FrameAllocator RadixTree

theorem pteGetPpn_eq (pte : ℕ) : pteGetPpn pte = pte / 1024 % 2 ^ 44 := by
  have h44 : (1 <<< 44 - 1 : ℕ) = 2 ^ 44 - 1 := by decide
  rw [pteGetPpn, h44, Nat.and_two_pow_sub_one_eq_mod, Nat.shiftRight_eq_div_pow]

theorem pteGetFlags_eq (pte : ℕ) : pteGetFlags pte = pte % 256 :=
  Nat.and_two_pow_sub_one_eq_mod pte 8

theorem pteIsValid_iff (pte : ℕ) : pteIsValid pte = true ↔ pte % 2 = 1 := by
  have h : pteGetFlags pte &&& pteV = pte % 2 := by
    rw [pteGetFlags_eq]
    change pte % 256 &&& (2 ^ 1 - 1) = _
    rw [Nat.and_two_pow_sub_one_eq_mod]
    omega
  rw [pteIsValid, h, bne_iff_ne]
  omega

/-- The upper bits of a page number that has more than 54 are lost. -/
theorem pteNew_eq_mod {ppn flags : ℕ} (hflags : flags < 256) :
    pteNew ppn flags = ppn % 2 ^ 54 * 1024 + flags := by
  have hshift : ppn <<< 10 % 2 ^ 64 = (ppn % 2 ^ 54) <<< 10 := by
    rw [Nat.shiftLeft_eq, Nat.shiftLeft_eq]
    omega
  rw [pteNew, hshift, ← Nat.shiftLeft_add_eq_or_of_lt (show flags < 2 ^ 10 by omega),
    Nat.shiftLeft_eq]

theorem pteNew_eq {ppn flags : ℕ} (hppn : ppn < 2 ^ 44) (hflags : flags < 256) :
    pteNew ppn flags = ppn * 1024 + flags := by
  rw [pteNew_eq_mod hflags, Nat.mod_eq_of_lt (by omega)]

theorem pteNew_lt {ppn flags : ℕ} (hflags : flags < 256) : pteNew ppn flags < 2 ^ 64 := by
  rw [pteNew_eq_mod hflags]
  omega

theorem orV_lt {flags : ℕ} (h : flags < 256) : flags ||| pteV < 256 :=
  Nat.or_lt_two_pow (n := 8) h (by decide)

theorem orV_odd (flags : ℕ) : (flags ||| pteV) % 2 = 1 := by
  rw [show (2 : ℕ) = 2 ^ 1 from rfl, Nat.or_mod_two_pow]
  have : flags % 2 ^ 1 = 0 ∨ flags % 2 ^ 1 = 1 := by omega
  rcases this with h | h <;> rw [h] <;> rfl

/-- What a valid entry says. -/
def decodePte (pte : ℕ) : Option (ℕ × ℕ) :=
  if pteIsValid pte then some (pteGetPpn pte, pteGetFlags pte) else none

theorem decodePte_zero : decodePte 0 = none := by decide

theorem decodePte_pteNew_mod {ppn flags : ℕ} (hflags : flags < 256) (hodd : flags % 2 = 1) :
    decodePte (pteNew ppn flags) = some (ppn % 2 ^ 44, flags) := by
  have hvalid : pteIsValid (pteNew ppn flags) = true := by
    rw [pteIsValid_iff, pteNew_eq_mod hflags]
    omega
  rw [decodePte, if_pos hvalid, pteGetPpn_eq, pteGetFlags_eq, pteNew_eq_mod hflags]
  congr 2 <;> omega

theorem decodePte_pteNew {ppn flags : ℕ} (hppn : ppn < 2 ^ 44) (hflags : flags < 256)
    (hodd : flags % 2 = 1) : decodePte (pteNew ppn flags) = some (ppn, flags) := by
  rw [decodePte_pteNew_mod hflags hodd, Nat.mod_eq_of_lt hppn]

/-! ## Entries -/

def entry (mem : Memory) (f i : ℕ) : ℕ := load64 mem (pteArray f i)

/-- The table that an entry points to. -/
def child (mem : Memory) (f i : ℕ) : Option ℕ :=
  if i < 512 then (decodePte (entry mem f i)).map Prod.fst else none

variable {mem mem' : Memory} {f g i j : ℕ}

theorem pteArray_eq (hf : f < 0x80800) (hi : i < 512) : pteArray f i = f * 4096 + 8 * i := by
  rw [pteArray, ppn2pa_eq (by omega)]
  omega

/-- An entry lies in the frame that its table is in, also where the number of the
frame is too large for an address. -/
theorem pteArray_div (f : ℕ) {a : ℕ} (hi : i < 512) (hlo : pteArray f i ≤ a)
    (hhi : a < pteArray f i + 8) : a / 4096 = f % 2 ^ 52 := by
  have hpa : ppn2pa f = f % 2 ^ 52 * 4096 := by
    simp only [ppn2pa, pageOffsetBits, Nat.shiftLeft_eq]
    omega
  rw [pteArray, hpa] at hlo hhi
  omega

theorem entry_congr (hi : i < 512) (h : ∀ a, a / 4096 = f % 2 ^ 52 → mem' a = mem a) :
    entry mem' f i = entry mem f i := by
  rw [entry, entry, load64, load64]
  exact LittleEndian.load_congr fun a hlo hhi => h a (pteArray_div f hi hlo hhi)

theorem child_congr (h : ∀ a, a / 4096 = f % 2 ^ 52 → mem' a = mem a) :
    child mem' f i = child mem f i := by
  unfold child
  split
  · rename_i hi
    rw [entry_congr hi h]
  · rfl

theorem entry_store_self (mem : Memory) (f i : ℕ) {v : ℕ} (hv : v < 2 ^ 64) :
    entry (store64 mem (pteArray f i) v) f i = v := by
  rw [entry, load64, store64, LittleEndian.load_store]
  omega

theorem entry_store_of_ne (hf : f < 0x80800) (hi : i < 512) (hg : g < 0x80800) (hj : j < 512)
    (hne : (g, j) ≠ (f, i)) (v : ℕ) :
    entry (store64 mem (pteArray f i) v) g j = entry mem g j := by
  have hne' : ¬ (g = f ∧ j = i) := by simpa using hne
  rw [entry, entry, store64, load64, load64, pteArray_eq hf hi, pteArray_eq hg hj]
  exact LittleEndian.load_store_of_disjoint (by omega)

theorem child_store_of_ne (hf : f < 0x80800) (hi : i < 512) (hg : g < 0x80800)
    (hne : (g, j) ≠ (f, i)) (v : ℕ) :
    child (store64 mem (pteArray f i) v) g j = child mem g j := by
  unfold child
  split
  · rename_i hj
    rw [entry_store_of_ne hf hi hg hj hne]
  · rfl

/-- A cleared frame is a table without entries. -/
theorem entry_memset_self (hf : f < 0x80800) (hi : i < 512) :
    entry (memset mem (ppn2pa f) 0 pageSize) f i = 0 := by
  rw [entry, load64, pteArray_eq hf hi, ppn2pa_eq (by omega)]
  refine LittleEndian.load_zero fun a hlo hhi =>
    memset_inside ((Nat.le_add_right _ _).trans hlo) ?_
  rw [pageSize]
  omega

theorem memset_frame_of_ne (hf : f < 0x80800) {a : ℕ} (hne : a / 4096 ≠ f) :
    memset mem (ppn2pa f) 0 pageSize a = mem a := by
  refine memset_outside ?_
  rw [ppn2pa_eq (by omega), pageSize]
  omega

/-! ## Page numbers -/

/-- The indexes of a page number in the two upper levels. -/
def upper (vpn : ℕ) : List ℕ := [vpn / 2 ^ 18 % 512, vpn / 2 ^ 9 % 512]

def low (vpn : ℕ) : ℕ := vpn % 512

theorem vpnIndexes_eq (vpn : ℕ) : vpnIndexes vpn = upper vpn ++ [low vpn] := by
  have h : ∀ x : ℕ, x &&& 511 = x % 512 := fun x => Nat.and_two_pow_sub_one_eq_mod x 9
  simp only [vpnIndexes, h, Nat.shiftRight_eq_div_pow, upper, low, List.cons_append,
    List.nil_append, Nat.div_div_eq_div_mul]
  rfl

theorem low_lt (vpn : ℕ) : low vpn < 512 := Nat.mod_lt _ (by decide)

theorem mem_upper_lt {vpn : ℕ} (h : i ∈ upper vpn) : i < 512 := by
  simp only [upper, List.mem_cons, List.not_mem_nil, or_false] at h
  rcases h with rfl | rfl <;> exact Nat.mod_lt _ (by decide)

/-- Two page numbers share their entry exactly when their low 27 bits agree. -/
theorem upper_low_iff (vpn vpn' : ℕ) :
    upper vpn = upper vpn' ∧ low vpn = low vpn' ↔ vpn % 2 ^ 27 = vpn' % 2 ^ 27 := by
  simp only [upper, low, List.cons.injEq, and_true]
  omega

/-- What the table with root `root` says about a page. -/
def translation (mem : Memory) (root vpn : ℕ) : Option (ℕ × ℕ) :=
  (findPte mem root vpn).bind fun pte => decodePte (load64 mem pte)

theorem findPteLoop_cons (mem : Memory) (n j k : ℕ) (q : List ℕ) :
    findPteLoop mem n (j :: k :: q) =
      if !pteIsValid (load64 mem (pteArray n j)) then none
      else findPteLoop mem (pteGetPpn (load64 mem (pteArray n j))) (k :: q) := by
  simp [findPteLoop]

theorem findPteLoop_snoc (mem : Memory) (n : ℕ) {p : List ℕ} (hp : ∀ j ∈ p, j < 512) (i : ℕ) :
    findPteLoop mem n (p ++ [i]) = (walk (child mem) n p).map fun f => pteArray f i := by
  induction p generalizing n with
  | nil => rfl
  | cons j p ih =>
      have hj : j < 512 := hp j (by simp)
      obtain ⟨k, q, hq⟩ : ∃ k q, p ++ [i] = k :: q := by cases p <;> simp
      rw [List.cons_append, hq, findPteLoop_cons, walk, child, if_pos hj, decodePte, entry]
      cases pteIsValid (load64 mem (pteArray n j)) with
      | false => rfl
      | true =>
          simp only [Bool.not_true, Bool.false_eq_true, if_false, if_true, Option.map_some,
            Option.bind_some]
          rw [← hq]
          exact ih _ fun j hj => hp j (List.mem_cons_of_mem _ hj)

theorem translation_eq (mem : Memory) (root vpn : ℕ) :
    translation mem root vpn =
      (walk (child mem) root (upper vpn)).bind fun f => decodePte (entry mem f (low vpn)) := by
  rw [translation, findPte, vpnIndexes_eq, findPteLoop_snoc _ _ fun j hj => mem_upper_lt hj]
  cases walk (child mem) root (upper vpn) with
  | none => simp only [Option.map_none, Option.bind_none]
  | some f => simp only [Option.map_some, Option.bind_some, entry]

/-! ## Tables -/

/-- The frames of the table are out, and form a tree of depth 2 below the root. -/
structure Table (pt : PageTable) (s : Physical) : Prop where
  sound : Sound s.frames
  taken : ∀ f ∈ pt.fnode, Taken s.frames f
  head : pt.fnode.head? = some pt.rootPpn
  tree : Tree (child s.mem) pt.rootPpn 2 pt.fnode

variable {pt pt' : PageTable} {s s' : Physical} {p r : List ℕ} {n vpn : ℕ}

theorem Table.lt (h : Table pt s) (hf : f ∈ pt.fnode) : f < 0x80800 :=
  h.sound.taken_lt (h.taken f hf)

theorem Table.mem_of_walk (h : Table pt s) (hp : p.length ≤ 2)
    (hw : walk (child s.mem) pt.rootPpn p = some n) : n ∈ pt.fnode :=
  h.tree.mem_of_walk hp hw

/-- The same table in a memory that agrees on its frames. -/
theorem Table.congr (h : Table pt s) (hsound : Sound s'.frames)
    (htaken : ∀ f ∈ pt.fnode, Taken s'.frames f)
    (hmem : ∀ f ∈ pt.fnode, ∀ a, a / 4096 = f → s'.mem a = s.mem a) :
    Table pt s' ∧ ∀ vpn, translation s'.mem pt.rootPpn vpn = translation s.mem pt.rootPpn vpn := by
  have hchild : ∀ q m i, q.length < 2 → walk (child s.mem) pt.rootPpn q = some m →
      child s'.mem m i = child s.mem m i := by
    intro q m i hq hw
    have hm := h.mem_of_walk (Nat.le_of_lt hq) hw
    have hlt := h.lt hm
    exact child_congr fun a ha => hmem m hm a (by omega)
  refine ⟨⟨hsound, htaken, h.head, h.tree.congr hchild⟩, fun vpn => ?_⟩
  rw [translation_eq, translation_eq, walk_congr hchild (p := upper vpn) le_rfl]
  cases hw : walk (child s.mem) pt.rootPpn (upper vpn) with
  | none => simp only [Option.bind_none]
  | some f =>
      have hf := h.mem_of_walk le_rfl hw
      simp only [Option.bind_some]
      have hlt := h.lt hf
      rw [entry_congr (low_lt vpn) fun a ha => hmem f hf a (by omega)]

theorem fvecPush_perm (l : List ℕ) (g : ℕ) : (fvecPush l g).Perm (g :: l) := by
  cases l with
  | nil => rfl
  | cons head next => exact List.Perm.swap _ _ _

/-- A new table below an empty entry changes the translation of no page. -/
theorem Table.newTable (h : Table pt s) (hp : p.length < 2)
    (hw : walk (child s.mem) pt.rootPpn p = some n) (hi : i < 512)
    (hempty : pteIsValid (entry s.mem n i) = false) :
    (frameRemainSize s.frames = 0 ∧ newTable pt s (pteArray n i) = none) ∨
      ∃ pt' s', newTable pt s (pteArray n i) = some (pt', s') ∧ Table pt' s' ∧
        pt'.rootPpn = pt.rootPpn ∧
        walk (child s'.mem) pt.rootPpn (p ++ [i]) = some (pteGetPpn (entry s'.mem n i)) ∧
        frameRemainSize s.frames = frameRemainSize s'.frames + 1 ∧
        ∀ vpn, translation s'.mem pt.rootPpn vpn = translation s.mem pt.rootPpn vpn := by
  rcases h.sound.frameAlloc with ⟨hfull, hnone⟩ | ⟨g, frames, hsome, hsound, hnew, htaken, hremain⟩
  · exact Or.inl ⟨hfull, by simp [K210Os.newTable, hnone]⟩
  · right
    have hg : g < 0x80800 := hsound.taken_lt ((htaken g).mpr (Or.inl rfl))
    have hn : n ∈ pt.fnode := h.mem_of_walk (Nat.le_of_lt hp) hw
    have hnlt := h.lt hn
    have hgn : ∀ m ∈ pt.fnode, m ≠ g := by
      rintro m hm rfl
      exact hnew (h.taken m hm)
    have hodd : (pteV : ℕ) % 2 = 1 := rfl
    have hpte : decodePte (pteNew g pteV) = some (g, pteV) :=
      decodePte_pteNew (by omega) (by decide) hodd
    have hlt : pteNew g pteV < 2 ^ 64 := pteNew_lt (by decide)
    obtain ⟨mem, hmem⟩ : ∃ mem, store64 (memset s.mem (ppn2pa g) 0 pageSize) (pteArray n i)
        (pteNew g pteV) = mem := ⟨_, rfl⟩
    have hhere : entry mem n i = pteNew g pteV := by
      rw [← hmem]
      exact entry_store_self _ n i hlt
    have hother : ∀ m j, m ∈ pt.fnode → j < 512 → (m, j) ≠ (n, i) →
        entry mem m j = entry s.mem m j := by
      intro m j hm hj hne
      rw [← hmem, entry_store_of_ne hnlt hi (h.lt hm) hj hne]
      have hlt := h.lt hm
      have hmg := hgn m hm
      exact entry_congr hj fun a ha => memset_frame_of_ne hg (by omega)
    have hzero : ∀ j < 512, entry mem g j = 0 := by
      intro j hj
      rw [← hmem, entry_store_of_ne hnlt hi hg hj fun heq => hgn n hn (congrArg Prod.fst heq).symm]
      exact entry_memset_self hg hj
    have hattach : Attach (child s.mem) (child mem) pt.rootPpn 2 pt.fnode p n i g := by
      refine ⟨hp, hw, ?_, fun hm => hgn g hm rfl, ?_, fun m j hm hne => ?_, fun j => ?_⟩
      · simp [child, decodePte, hempty]
      · rw [child, if_pos hi, hhere, hpte]
        rfl
      · unfold child
        split
        · rename_i hj
          rw [hother m j hm hj hne]
        · rfl
      · unfold child
        split
        · rename_i hj
          rw [hzero j hj]
          rfl
        · rfl
    have htree := hattach.tree h.tree (fvecPush_perm pt.fnode g)
    have hppn : pteGetPpn (entry mem n i) = g := by
      rw [hhere, pteGetPpn_eq, pteNew_eq (by omega) (by decide), pteV]
      omega
    refine ⟨{ pt with fnode := fvecPush pt.fnode g }, ⟨mem, frames⟩, ?_, ?_, rfl, ?_, hremain,
      fun vpn => ?_⟩
    · rw [← hmem]
      simp [K210Os.newTable, hsome]
    · refine ⟨hsound, fun f hf => (htaken f).mpr ?_, ?_, htree⟩
      · rcases List.mem_cons.mp ((fvecPush_perm pt.fnode g).mem_iff.mp hf) with rfl | hold
        · exact Or.inl rfl
        · exact Or.inr (h.taken f hold)
      · have hhead := h.head
        cases hl : pt.fnode with
        | nil => simp [hl] at hn
        | cons head next => simpa [hl, fvecPush] using hhead
    · rw [hppn]
      exact hattach.walk_here h.tree
    · rw [translation_eq, translation_eq]
      cases hold : walk (child s.mem) pt.rootPpn (upper vpn) with
      | some f =>
          have hf := h.mem_of_walk le_rfl hold
          have hfn : (f, low vpn) ≠ (n, i) := by
            rintro heq
            obtain ⟨rfl, -⟩ := Prod.mk.inj heq
            have hlen := h.tree.unique _ p f le_rfl (Nat.le_of_lt hp) hold hw
            rw [← hlen] at hp
            simp [upper] at hp
          rw [hattach.walk_old h.tree le_rfl hold]
          simp only [Option.bind_some]
          rw [hother f _ hf (low_lt vpn) hfn]
      | none =>
          cases hnew' : walk (child mem) pt.rootPpn (upper vpn) with
          | none => simp only [Option.bind_none]
          | some f =>
              rcases hattach.walk_new h.tree le_rfl hnew' with hw' | ⟨-, rfl⟩
              · exact absurd (hold.symm.trans hw') (Option.some_ne_none f).symm
              · simp only [Option.bind_some, Option.bind_none]
                rw [hzero _ (low_lt vpn)]
                exact decodePte_zero

end K210Os
