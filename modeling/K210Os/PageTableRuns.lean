import K210Os.PageTableTree
import K210Os.Transition

/-!
# Page tables refine finite maps

`map` and `unmap` against a map from the low 27 bits of the page number, over runs
in which the rest of the kernel may do anything to memory and to the frame
allocator except touch the frames of the table.
-/

namespace K210Os

open FrameAllocator RadixTree Transition

variable {pt pt' : PageTable} {s s' : Physical} {p r : List ℕ} {n f i vpn : ℕ}

theorem findPteCreateLoop_cons (pt : PageTable) (s : Physical) (n j k : ℕ) (q : List ℕ) :
    findPteCreateLoop pt s n (j :: k :: q) =
      (if !pteIsValid (entry s.mem n j) then newTable pt s (pteArray n j) else some (pt, s)).bind
        fun (pt, s) => findPteCreateLoop pt s (pteGetPpn (entry s.mem n j)) (k :: q) := by
  rw [findPteCreateLoop]
  · cases hvalid : pteIsValid (load64 s.mem (pteArray n j)) <;> simp [entry, hvalid]
  · simp

theorem walk_snoc_of_valid {mem : Memory} {root : ℕ} (hi : i < 512)
    (hw : walk (child mem) root p = some n) (hvalid : pteIsValid (entry mem n i) = true) :
    walk (child mem) root (p ++ [i]) = some (pteGetPpn (entry mem n i)) := by
  refine walk_snoc_eq_some.mpr ⟨n, hw, ?_⟩
  rw [child, if_pos hi, decodePte, if_pos hvalid]
  rfl

/-- The creating walk reaches the last table of a path, and makes what is missing.
It only fails when the frames run out before. -/
theorem Table.findPteCreateLoop (h : Table pt s) (hpr : p.length + r.length = 2)
    (hr : ∀ j ∈ r, j < 512) (hw : walk (child s.mem) pt.rootPpn p = some n) (i : ℕ) :
    (frameRemainSize s.frames < r.length ∧ walk (child s.mem) pt.rootPpn (p ++ r) = none ∧
      findPteCreateLoop pt s n (r ++ [i]) = none) ∨
    ∃ f pt' s', findPteCreateLoop pt s n (r ++ [i]) = some (pteArray f i, pt', s') ∧
      Table pt' s' ∧ pt'.rootPpn = pt.rootPpn ∧
      walk (child s'.mem) pt.rootPpn (p ++ r) = some f ∧
      ∀ vpn, translation s'.mem pt.rootPpn vpn = translation s.mem pt.rootPpn vpn := by
  induction r generalizing p n pt s with
  | nil =>
      right
      exact ⟨n, pt, s, rfl, h, rfl, by simpa using hw, fun _ => rfl⟩
  | cons j r ih =>
      have hj : j < 512 := hr j (by simp)
      have hr' : ∀ k ∈ r, k < 512 := fun k hk => hr k (List.mem_cons_of_mem _ hk)
      have hlen : (p ++ [j]).length + r.length = 2 := by
        simp only [List.length_append, List.length_cons, List.length_nil] at hpr ⊢
        omega
      have hsplit : p ++ j :: r = p ++ [j] ++ r := by simp
      obtain ⟨k, q, hq⟩ : ∃ k q, r ++ [i] = k :: q := by cases r <;> simp
      have hstep := findPteCreateLoop_cons pt s n j k q
      rw [← hq] at hstep
      rw [List.cons_append, hstep, hsplit]
      cases hvalid : pteIsValid (entry s.mem n j) with
      | true =>
          have hw' := walk_snoc_of_valid hj hw hvalid
          rcases ih h hlen hr' hw' with ⟨hfew, hnone, hcall⟩ | hfound
          · left
            exact ⟨Nat.lt_succ_of_lt hfew, hnone, hcall⟩
          · exact Or.inr hfound
      | false =>
          have hp : p.length < 2 := by simp only [List.length_cons] at hpr; omega
          simp only [Bool.not_false, if_true]
          rcases h.newTable hp hw hj hvalid with ⟨hfull, hcall⟩ |
            ⟨pt₁, s₁, hcall, h₁, hroot, hw₁, hremain, htr⟩
          · left
            refine ⟨by simp [hfull], ?_, by rw [hcall]; rfl⟩
            rw [walk_append, walk_snoc, hw]
            simp [child, decodePte, hvalid]
          · rw [hcall, Option.bind_some]
            have hih := ih h₁ hlen hr' (hroot ▸ hw₁)
            rw [hroot] at hih
            rcases hih with ⟨hfew, -, hcall'⟩ | ⟨f, pt', s', hcall', h', hroot', hw', htr'⟩
            · left
              refine ⟨by simp only [List.length_cons]; omega, ?_, hcall'⟩
              rw [walk_append, walk_snoc, hw]
              simp [child, decodePte, hvalid]
            · right
              exact ⟨f, pt', s', hcall', h', hroot', hw',
                fun vpn => (htr' vpn).trans (htr vpn)⟩

theorem Table.findPteCreate (h : Table pt s) (vpn : ℕ) :
    (frameRemainSize s.frames < 2 ∧ walk (child s.mem) pt.rootPpn (upper vpn) = none ∧
      findPteCreate pt s vpn = none) ∨
    ∃ f pt' s', findPteCreate pt s vpn = some (pteArray f (low vpn), pt', s') ∧
      Table pt' s' ∧ pt'.rootPpn = pt.rootPpn ∧
      walk (child s'.mem) pt.rootPpn (upper vpn) = some f ∧
      ∀ vpn, translation s'.mem pt.rootPpn vpn = translation s.mem pt.rootPpn vpn := by
  rw [K210Os.findPteCreate, vpnIndexes_eq]
  exact h.findPteCreateLoop (p := []) rfl (fun j hj => mem_upper_lt hj) rfl (low vpn)

/-- Writing the last entry of a path changes the translation of its pages only. -/
theorem Table.storeLeaf (h : Table pt s)
    (hw : walk (child s.mem) pt.rootPpn (upper vpn) = some f) {v : ℕ} (hv : v < 2 ^ 64) :
    Table pt { s with mem := store64 s.mem (pteArray f (low vpn)) v } ∧
    ∀ vpn', translation (store64 s.mem (pteArray f (low vpn)) v) pt.rootPpn vpn' =
      if vpn' % 2 ^ 27 = vpn % 2 ^ 27 then decodePte v else translation s.mem pt.rootPpn vpn' := by
  have hf := h.mem_of_walk le_rfl hw
  have hlow := low_lt vpn
  have hchild : ∀ q m j, q.length < 2 → walk (child s.mem) pt.rootPpn q = some m →
      child (store64 s.mem (pteArray f (low vpn)) v) m j = child s.mem m j := by
    intro q m j hq hwq
    have hm := h.mem_of_walk (Nat.le_of_lt hq) hwq
    refine child_store_of_ne (h.lt hf) hlow (h.lt hm) ?_ v
    rintro heq
    obtain ⟨rfl, -⟩ := Prod.mk.inj heq
    have hlen := h.tree.unique q _ m (Nat.le_of_lt hq) le_rfl hwq hw
    rw [hlen] at hq
    simp [upper] at hq
  refine ⟨⟨h.sound, h.taken, h.head, h.tree.congr hchild⟩, fun vpn' => ?_⟩
  rw [translation_eq, translation_eq, walk_congr hchild (p := upper vpn') le_rfl]
  cases hw' : walk (child s.mem) pt.rootPpn (upper vpn') with
  | none =>
      have hne : ¬ vpn' % 2 ^ 27 = vpn % 2 ^ 27 := by
        intro hsame
        rw [((upper_low_iff vpn' vpn).mpr hsame).1, hw] at hw'
        contradiction
      rw [if_neg hne, Option.bind_none, Option.bind_none]
  | some f' =>
      have hf' := h.mem_of_walk le_rfl hw'
      simp only [Option.bind_some]
      by_cases hsame : vpn' % 2 ^ 27 = vpn % 2 ^ 27
      · obtain ⟨hup, hlo⟩ := (upper_low_iff vpn' vpn).mpr hsame
        rw [hup, hw, Option.some.injEq] at hw'
        subst hw'
        rw [if_pos hsame, hlo, entry_store_self _ _ _ hv]
      · rw [if_neg hsame, entry_store_of_ne (h.lt hf) hlow (h.lt hf') (low_lt vpn')]
        rintro heq
        obtain ⟨rfl, hlo⟩ := Prod.mk.inj heq
        have hup := h.tree.unique _ _ f' le_rfl le_rfl hw' hw
        exact hsame ((upper_low_iff vpn' vpn).mp ⟨hup, hlo⟩)

/-- `map` on an unmapped page gives it the wanted translation, with the low 44 bits of
the page number; it only fails when the frames for its tables run out. -/
theorem Table.map_mod (h : Table pt s) (hfree : translation s.mem pt.rootPpn vpn = none)
    {ppn flags : ℕ} (hflags : flags < 256) :
    (frameRemainSize s.frames < 2 ∧ map pt s vpn ppn flags = none) ∨
    ∃ pt' s', map pt s vpn ppn flags = some (pt', s') ∧ Table pt' s' ∧
      pt'.rootPpn = pt.rootPpn ∧
      ∀ vpn', translation s'.mem pt.rootPpn vpn' =
        if vpn' % 2 ^ 27 = vpn % 2 ^ 27 then some (ppn % 2 ^ 44, flags ||| pteV)
        else translation s.mem pt.rootPpn vpn' := by
  rcases h.findPteCreate vpn with ⟨hfew, -, hcall⟩ | ⟨f, pt', s', hcall, h', hroot, hw, htr⟩
  · exact Or.inl ⟨hfew, by simp [K210Os.map, hcall]⟩
  · right
    have hinvalid : pteIsValid (load64 s'.mem (pteArray f (low vpn))) = false := by
      have hnone := (htr vpn).trans hfree
      rw [translation_eq, hw, Option.bind_some, decodePte] at hnone
      by_contra hvalid
      rw [Bool.not_eq_false] at hvalid
      rw [entry, if_pos hvalid] at hnone
      contradiction
    have hv : pteNew ppn (flags ||| pteV) < 2 ^ 64 := pteNew_lt (orV_lt hflags)
    obtain ⟨htable, hstore⟩ := h'.storeLeaf (hroot ▸ hw) hv
    rw [hroot] at hstore
    refine ⟨pt', _, ?_, htable, hroot, fun vpn' => ?_⟩
    · simp only [K210Os.map, hcall, Option.bind_eq_bind, Option.bind_some, hinvalid,
        Bool.false_eq_true, if_false, Option.pure_def]
    · rw [hstore, decodePte_pteNew_mod (orV_lt hflags) (orV_odd flags), htr]

theorem Table.map (h : Table pt s) (hfree : translation s.mem pt.rootPpn vpn = none) {ppn flags : ℕ}
    (hppn : ppn < 2 ^ 44) (hflags : flags < 256) :
    (frameRemainSize s.frames < 2 ∧ map pt s vpn ppn flags = none) ∨
    ∃ pt' s', map pt s vpn ppn flags = some (pt', s') ∧ Table pt' s' ∧
      pt'.rootPpn = pt.rootPpn ∧
      ∀ vpn', translation s'.mem pt.rootPpn vpn' =
        if vpn' % 2 ^ 27 = vpn % 2 ^ 27 then some (ppn, flags ||| pteV)
        else translation s.mem pt.rootPpn vpn' := by
  have hmap : (frameRemainSize s.frames < 2 ∧ K210Os.map pt s vpn ppn flags = none) ∨ _ :=
    h.map_mod hfree hflags
  rwa [Nat.mod_eq_of_lt hppn] at hmap

/-- `unmap` on a mapped page takes its translation away and always succeeds. -/
theorem Table.unmap (h : Table pt s) (hmapped : translation s.mem pt.rootPpn vpn ≠ none) :
    ∃ pt' s', unmap pt s vpn = some (pt', s') ∧ Table pt' s' ∧ pt'.rootPpn = pt.rootPpn ∧
      ∀ vpn', translation s'.mem pt.rootPpn vpn' =
        if vpn' % 2 ^ 27 = vpn % 2 ^ 27 then none else translation s.mem pt.rootPpn vpn' := by
  rcases h.findPteCreate vpn with ⟨-, hnone, -⟩ | ⟨f, pt', s', hcall, h', hroot, hw, htr⟩
  · rw [translation_eq, hnone] at hmapped
    exact (hmapped rfl).elim
  · have hvalid : pteIsValid (load64 s'.mem (pteArray f (low vpn))) = true := by
      rw [← htr vpn, translation_eq, hw, Option.bind_some, decodePte, entry] at hmapped
      by_contra hinvalid
      rw [if_neg hinvalid] at hmapped
      exact hmapped rfl
    obtain ⟨htable, hstore⟩ := h'.storeLeaf (hroot ▸ hw) (v := 0) (by decide)
    rw [hroot] at hstore
    refine ⟨pt', _, ?_, htable, hroot, fun vpn' => ?_⟩
    · simp only [K210Os.unmap, hcall, Option.bind_eq_bind, Option.bind_some, hvalid, Bool.not_true,
        Bool.false_eq_true, if_false, Option.pure_def]
    · rw [hstore, decodePte_zero, htr]

/-- `pt_new` makes a table in which no page is mapped. -/
theorem table_ptNew (hsound : Sound s.frames) (hnew : ptNew s = some (pt, s')) :
    Table pt s' ∧ ∀ vpn, translation s'.mem pt.rootPpn vpn = none := by
  rcases hsound.frameAlloc with ⟨-, hnone⟩ | ⟨g, frames, hsome, hsound', -, htaken, -⟩
  · simp [ptNew, hnone] at hnew
  · simp only [ptNew, hsome, Option.bind_eq_bind, Option.bind_some, Option.pure_def,
      Option.some.injEq, Prod.mk.injEq] at hnew
    obtain ⟨rfl, rfl⟩ := hnew
    have hg : g < 0x80800 := hsound'.taken_lt ((htaken g).mpr (Or.inl rfl))
    have hempty : ∀ j, child (memset s.mem (ppn2pa g) 0 pageSize) g j = none := by
      intro j
      unfold child
      split
      · rename_i hj
        rw [entry_memset_self hg hj]
        rfl
      · rfl
    refine ⟨⟨hsound', ?_, rfl, Tree.single hempty⟩, fun vpn => ?_⟩
    · intro f hf
      rw [List.mem_singleton] at hf
      exact (htaken f).mpr (Or.inl hf)
    · have hwalk : walk (child (memset s.mem (ppn2pa g) 0 pageSize)) g (upper vpn) = none := by
        rw [upper, walk, hempty]
        rfl
      rw [translation_eq, hwalk]
      rfl

/-! ## Runs -/

structure TableState where
  pt : PageTable
  phys : Physical

inductive TableOp where
  | map (vpn ppn flags : ℕ)
  | unmap (vpn : ℕ)
  | other

/-- What `find_pte` finds for a page: the frame and the flags of a valid leaf. -/
def TableState.lookup (st : TableState) (vpn : ℕ) : Option (ℕ × ℕ) :=
  translation st.phys.mem st.pt.rootPpn vpn

/-- `map` on an unmapped page, `unmap` on a mapped one, or anything else the kernel
does: the frames of the table stay out and keep their bytes. -/
inductive TableStep : TableState → TableOp → TableState → Prop
  | map {pt pt' : PageTable} {s s' : Physical} {vpn ppn flags : ℕ}
      (free : TableState.lookup ⟨pt, s⟩ vpn = none) (ppn_lt : ppn < 2 ^ 44)
      (flags_lt : flags < 256) (call : map pt s vpn ppn flags = some (pt', s')) :
      TableStep ⟨pt, s⟩ (.map vpn ppn flags) ⟨pt', s'⟩
  | unmap {pt pt' : PageTable} {s s' : Physical} {vpn : ℕ}
      (mapped : TableState.lookup ⟨pt, s⟩ vpn ≠ none) (call : unmap pt s vpn = some (pt', s')) :
      TableStep ⟨pt, s⟩ (.unmap vpn) ⟨pt', s'⟩
  | other {pt : PageTable} {s s' : Physical} (sound : Sound s'.frames)
      (taken : ∀ f ∈ pt.fnode, Taken s'.frames f)
      (mem : ∀ f ∈ pt.fnode, ∀ a, a / 4096 = f → s'.mem a = s.mem a) :
      TableStep ⟨pt, s⟩ .other ⟨pt, s'⟩

/-- The finite map that a page table stands for: the low 27 bits of a page number to
a frame and flags. -/
abbrev PageMap := ℕ → Option (ℕ × ℕ)

def PageMap.step (σ : PageMap) : TableOp → PageMap
  | .map vpn ppn flags => Function.update σ (vpn % 2 ^ 27) (some (ppn, flags ||| pteV))
  | .unmap vpn => Function.update σ (vpn % 2 ^ 27) none
  | .other => σ

def PageMap.run (ops : List TableOp) : PageMap := ops.foldl PageMap.step fun _ => none

/-- The table stands for the map. -/
structure Refines (st : TableState) (σ : PageMap) : Prop where
  table : Table st.pt st.phys
  lookup : ∀ vpn, st.lookup vpn = σ (vpn % 2 ^ 27)

theorem Refines.step {st st' : TableState} {σ : PageMap} {a : TableOp} (h : Refines st σ)
    (hstep : TableStep st a st') : Refines st' (σ.step a) := by
  have hlookup := h.lookup
  cases hstep with
  | map free ppn_lt flags_lt call =>
      rcases h.table.map free ppn_lt flags_lt with ⟨-, hnone⟩ | ⟨pt₁, s₁, hsome, htable, hroot, htr⟩
      · rw [hnone] at call
        contradiction
      · obtain ⟨rfl, rfl⟩ := Prod.mk.inj (Option.some.inj (hsome.symm.trans call))
        refine ⟨htable, fun vpn' => ?_⟩
        rw [TableState.lookup, hroot, htr, PageMap.step, Function.update_apply, ← hlookup]
        rfl
  | unmap mapped call =>
      obtain ⟨pt₁, s₁, hsome, htable, hroot, htr⟩ := h.table.unmap mapped
      obtain ⟨rfl, rfl⟩ := Prod.mk.inj (Option.some.inj (hsome.symm.trans call))
      refine ⟨htable, fun vpn' => ?_⟩
      rw [TableState.lookup, hroot, htr, PageMap.step, Function.update_apply, ← hlookup]
      rfl
  | other sound taken mem =>
      obtain ⟨htable, htr⟩ := h.table.congr sound taken mem
      exact ⟨htable, fun vpn' => (htr vpn').trans (hlookup vpn')⟩

theorem Refines.run {st st' : TableState} {σ : PageMap} {ops : List TableOp} (h : Refines st σ)
    (hrun : Run TableStep st ops st') : Refines st' (ops.foldl PageMap.step σ) := by
  induction hrun generalizing σ with
  | done => exact h
  | step hstep _ ih => exact ih (h.step hstep)

theorem refines_ptNew (hsound : Sound s.frames) (hnew : ptNew s = some (pt, s')) :
    Refines ⟨pt, s'⟩ fun _ => none :=
  ⟨(table_ptNew hsound hnew).1, (table_ptNew hsound hnew).2⟩

/-- The page that a step is about. -/
def TableOp.page : TableOp → Option ℕ
  | .map vpn _ _ => some (vpn % 2 ^ 27)
  | .unmap vpn => some (vpn % 2 ^ 27)
  | .other => none

/-- What holds of a page table that stands for `σ`. -/
structure TableLaws (st : TableState) (σ : PageMap) : Prop where
  lookup : ∀ vpn, st.lookup vpn = σ (vpn % 2 ^ 27)
  map_total : ∀ vpn ppn flags, σ (vpn % 2 ^ 27) = none → ppn < 2 ^ 44 → flags < 256 →
    2 ≤ frameRemainSize st.phys.frames → (map st.pt st.phys vpn ppn flags).isSome
  unmap_total : ∀ vpn, σ (vpn % 2 ^ 27) ≠ none → (unmap st.pt st.phys vpn).isSome
  step_other : ∀ a st' vpn, TableStep st a st' → a.page ≠ some (vpn % 2 ^ 27) →
    st'.lookup vpn = st.lookup vpn
  fnode_nodup : st.pt.fnode.Nodup
  mem_fnode_iff : ∀ f, f ∈ st.pt.fnode ↔ ∃ path : List ℕ, path.length ≤ 2 ∧
    walk (child st.phys.mem) st.pt.rootPpn path = some f
  one_path : ∀ path path' f, path.length ≤ 2 → path'.length ≤ 2 →
    walk (child st.phys.mem) st.pt.rootPpn path = some f →
    walk (child st.phys.mem) st.pt.rootPpn path' = some f → path = path'

theorem Refines.laws {st : TableState} {σ : PageMap} (h : Refines st σ) : TableLaws st σ := by
  have htree := h.table.tree
  refine ⟨h.lookup, ?_, ?_, ?_, htree.nodup, htree.mem_iff, htree.unique⟩
  · intro vpn ppn flags hfree hppn hflags hroom
    rcases h.table.map ((h.lookup vpn).trans hfree) hppn hflags with ⟨hfew, -⟩ | ⟨_, _, hsome, -⟩
    · omega
    · rw [hsome]
      rfl
  · intro vpn hmapped
    obtain ⟨_, _, hsome, -⟩ := h.table.unmap fun hnone => hmapped ((h.lookup vpn).symm.trans hnone)
    rw [hsome]
    rfl
  · intro a st' vpn hstep hpage
    rw [(h.step hstep).lookup, h.lookup]
    cases a with
    | map vpn' ppn flags =>
        exact Function.update_of_ne (fun heq => hpage (congrArg some heq.symm)) _ _
    | unmap vpn' => exact Function.update_of_ne (fun heq => hpage (congrArg some heq.symm)) _ _
    | other => rfl

/-- Every run of `map` and `unmap` on a table made by `pt_new` leaves the table that
stands for the map those calls describe. -/
theorem pageTable_refines {st : TableState} {ops : List TableOp} (hsound : Sound s.frames)
    (hnew : ptNew s = some (pt, s')) (hrun : Run TableStep ⟨pt, s'⟩ ops st) :
    TableLaws st (PageMap.run ops) :=
  ((refines_ptNew hsound hnew).run hrun).laws

/-- Memory full of ones, with the frames above a kernel that ends at 0x80500000. -/
def freshPhysical : Physical := ⟨fun _ => 0xff, frameAllocatorInit 0x80500000 fun _ => 0⟩

/-- A page is mapped, and another one that shares its middle table mapped and
unmapped again. -/
theorem pageTable_refines_three_steps :
    ∃ pt s st, ptNew freshPhysical = some (pt, s) ∧
      Run TableStep ⟨pt, s⟩ [.map 0x40001 7 pteR, .map 0x40201 9 pteW, .unmap 0x40201] st ∧
      TableLaws st (PageMap.run [.map 0x40001 7 pteR, .map 0x40201 9 pteW, .unmap 0x40201]) := by
  have hsome : ((ptNew freshPhysical).bind fun (pt, s) => (map pt s 0x40001 7 pteR).bind
      fun (pt, s) => (map pt s 0x40201 9 pteW).bind fun (pt, s) => unmap pt s 0x40201).isSome := by
    decide +kernel
  obtain ⟨⟨pt₃, s₃⟩, hsome⟩ := Option.isSome_iff_exists.mp hsome
  simp only [Option.bind_eq_some_iff] at hsome
  obtain ⟨⟨pt, s⟩, hnew, ⟨pt₁, s₁⟩, h₁, ⟨pt₂, s₂⟩, h₂, h₃⟩ := hsome
  have hsound : Sound freshPhysical.frames := sound_init (by decide) _
  have hr := refines_ptNew hsound hnew
  have step₁ := TableStep.map (hr.lookup _) (by decide) (by decide) h₁
  have hr₁ := hr.step step₁
  have step₂ := TableStep.map (hr₁.lookup _) (by decide) (by decide) h₂
  have hr₂ := hr₁.step step₂
  have step₃ := TableStep.unmap (by rw [hr₂.lookup]; decide) h₃
  have hrun := Run.step step₁ (.step step₂ (.single step₃))
  exact ⟨pt, s, _, hnew, hrun, pageTable_refines hsound hnew hrun⟩

end K210Os
